import OsCoursework.Motd.Code

/-!
# What a listing shows

Each line is read on its own, so it belongs to the history at the moment of its request.
-/

open OsCoursework.Cstring OsCoursework.Transition

namespace OsCoursework.Motd

/-! ## The history -/

theorem length_history {s : Server} (h : s.mCount ≤ historyMax) : s.history.length = s.mCount := by
  unfold Server.history
  rw [List.length_map, List.length_take, Vector.length_toList, min_eq_left h]

theorem getElem?_history (s : Server) (i : Nat) :
    s.history[i]? = if i < s.mCount then s.mList[i]?.map fun row => text row.toList else none := by
  unfold Server.history
  rw [List.getElem?_map, List.getElem?_take]
  split_ifs <;> simp

theorem get1Svc_eq {s : Server} (h : s.mCount ≤ historyMax) {i : Nat} (hi : i < s.mCount) :
    s.history[i]? = some (get1Svc s i) := by
  have hrow : i < historyMax := by omega
  unfold get1Svc
  rw [getElem?_history, if_pos hi, if_neg (by omega), Int.toNat_natCast, Vector.getElem?_eq_getElem hrow]
  rfl

/-- **The server is a bounded stack.** A new message comes first, cut to its size, and the oldest of
four is forgotten. -/
theorem history_add {s : Server} (h : s.mCount ≤ historyMax) (message : List CChar) :
    (add1Svc s message).mCount = min (s.mCount + 1) historyMax ∧
    (add1Svc s message).history = ((text message).take messageMax :: s.history).take historyMax := by
  have hmax : historyMax = 3 := rfl
  have hcount : (add1Svc s message).mCount = min (s.mCount + 1) historyMax := by
    unfold add1Svc
    split_ifs with hfull
    · simp [hfull]
    · simp only
      omega
  have hlist : (add1Svc s message).mList =
      (memmove s.mList 1 0 (min s.mCount (historyMax - 1))).setIfInBounds 0 ((strncpy messageMax message).push 0) := by
    unfold add1Svc
    split_ifs with hfull
    · have hmin : min s.mCount (historyMax - 1) = historyMax - 1 := by omega
      simp only [hmin]
    · have hmin : min s.mCount (historyMax - 1) = s.mCount := by omega
      simp only [hmin]
  refine ⟨hcount, List.ext_getElem? fun i => ?_⟩
  rw [getElem?_history, hcount, hlist, List.getElem?_take]
  cases i with
  | zero =>
    rw [if_pos (by omega), if_pos (by omega), Vector.getElem?_setIfInBounds_self_of_lt (by omega),
      Option.map_some, List.getElem?_cons_zero, text_push_zero, text_strncpy]
  | succ i =>
    rw [List.getElem?_cons_succ, getElem?_history, Vector.getElem?_setIfInBounds_ne (by omega), getElem?_memmove]
    by_cases hi : i < s.mCount
    · by_cases hmax : i + 1 < historyMax
      · have hold : i < historyMax := by omega
        rw [if_pos (by omega), if_pos hmax, if_pos (by omega), if_pos hi, if_pos hmax, Nat.zero_add,
          Nat.add_sub_cancel, Vector.getElem?_eq_getElem hold]
        rfl
      · rw [if_neg (by omega), if_neg hmax]
    · rw [if_neg (by omega), if_neg hi, ite_self]

theorem add1Svc_le {s : Server} (h : s.mCount ≤ historyMax) (message : List CChar) :
    (add1Svc s message).mCount ≤ historyMax ∧ s.mCount ≤ (add1Svc s message).mCount := by
  have hcount := (history_add h message).1
  omega

/-! ## One client -/

/-- One message more. -/
def Added (m m' : List (List CChar)) : Prop :=
  ∃ message, m' = ((text message).take messageMax :: m).take historyMax

/-- A listing of `np` lines that has come to line `i`. -/
structure Reading (moments : List (List (List CChar))) (lines : List (List CChar)) (asked : List Nat) (np i : Nat) :
    Prop where
  first : ∃ h₀ rest, moments = h₀ :: rest ∧ h₀.length = np
  kept : ∀ m ∈ moments, np ≤ m.length
  chain : moments.IsChain Added
  le : i ≤ np
  lines_length : lines.length = i
  asked_length : asked.length = i
  asked_sorted : asked.Pairwise (· ≤ ·)
  asked_lt : ∀ k ∈ asked, k < moments.length
  line : ∀ (j : Nat) (line : List CChar), lines[j]? = some line →
    ∃ (k : Nat) (m : List (List CChar)), asked[j]? = some k ∧ moments[k]? = some m ∧ m[j]? = some line

variable {moments : List (List (List CChar))} {lines : List (List CChar)} {asked : List Nat} {np i : Nat}

theorem reading_count (m : List (List CChar)) : Reading [m] [] [] m.length 0 where
  first := ⟨m, [], rfl, rfl⟩
  kept m' hm := by
    obtain rfl := List.mem_singleton.mp hm
    exact le_rfl
  chain := List.isChain_singleton m
  le := Nat.zero_le _
  lines_length := rfl
  asked_length := rfl
  asked_sorted := List.Pairwise.nil
  asked_lt := nofun
  line := nofun

theorem Reading.add (h : Reading moments lines asked np i) {m m' : List (List CChar)}
    (hlast : moments.getLast? = some m) (hadd : Added m m') (hlen : m.length ≤ m'.length) :
    Reading (moments ++ [m']) lines asked np i where
  first := by
    obtain ⟨h₀, rest, rfl, hnp⟩ := h.first
    exact ⟨h₀, rest ++ [m'], rfl, hnp⟩
  kept m'' hm := by
    rcases List.mem_append.mp hm with hm | hm
    · exact h.kept m'' hm
    · obtain rfl := List.mem_singleton.mp hm
      exact (h.kept m (List.mem_of_getLast? hlast)).trans hlen
  chain := by
    refine List.isChain_append.mpr ⟨h.chain, List.isChain_singleton m', ?_⟩
    intro x hx y hy
    rw [hlast, Option.mem_some_iff] at hx
    rw [List.head?_cons, Option.mem_some_iff] at hy
    subst hx
    subst hy
    exact hadd
  le := h.le
  lines_length := h.lines_length
  asked_length := h.asked_length
  asked_sorted := h.asked_sorted
  asked_lt k hk := by
    rw [List.length_append]
    exact Nat.lt_add_right _ (h.asked_lt k hk)
  line j line hj := by
    obtain ⟨k, m, hk, hm, hline⟩ := h.line j line hj
    refine ⟨k, m, hk, ?_, hline⟩
    rw [List.getElem?_append_left (h.asked_lt k (List.mem_of_getElem? hk))]
    exact hm

theorem Reading.get (h : Reading moments lines asked np i) (hi : i < np) {m : List (List CChar)} {line : List CChar}
    (hlast : moments.getLast? = some m) (hline : m[i]? = some line) :
    Reading moments (lines ++ [line]) (asked ++ [moments.length - 1]) np (i + 1) where
  first := h.first
  kept := h.kept
  chain := h.chain
  le := hi
  lines_length := by rw [List.length_append, h.lines_length, List.length_singleton]
  asked_length := by rw [List.length_append, h.asked_length, List.length_singleton]
  asked_sorted := by
    refine List.pairwise_append.mpr ⟨h.asked_sorted, List.pairwise_singleton _ _, fun k hk k' hk' => ?_⟩
    obtain rfl := List.mem_singleton.mp hk'
    exact Nat.le_sub_one_of_lt (h.asked_lt k hk)
  asked_lt k hk := by
    rcases List.mem_append.mp hk with hk | hk
    · exact h.asked_lt k hk
    · obtain rfl := List.mem_singleton.mp hk
      have hpos := List.length_pos_of_mem (List.mem_of_getLast? hlast)
      omega
  line j line' hj := by
    have hlines := h.lines_length
    have hasked := h.asked_length
    by_cases hji : j < i
    · rw [List.getElem?_append_left (by omega)] at hj
      rw [List.getElem?_append_left (by omega)]
      exact h.line j line' hj
    · have hj' : j = i := by
        have hlt := (List.getElem?_eq_some_iff.mp hj).1
        rw [List.length_append, List.length_singleton] at hlt
        omega
      subst hj'
      rw [← hlines, List.getElem?_concat_length] at hj
      cases hj
      refine ⟨moments.length - 1, m, ?_, ?_, hline⟩
      · rw [← hasked, List.getElem?_concat_length]
      · rw [← List.getLast?_eq_getElem?]
        exact hlast

theorem Reading.eq_of_single (h : Reading moments lines asked np np) {m : List (List CChar)} (hm : moments = [m]) :
    lines = m := by
  obtain ⟨h₀, rest, hmoments, hnp⟩ := h.first
  rw [hm] at hmoments
  obtain ⟨rfl, -⟩ := List.cons.inj hmoments
  have hlen := h.lines_length
  apply List.ext_getElem
  · rw [hlen, hnp]
  · intro j hj hj'
    obtain ⟨k, m', hk, hm', hline⟩ := h.line j _ (List.getElem?_eq_getElem hj)
    have hlt := h.asked_lt k (List.mem_of_getElem? hk)
    rw [hm] at hm' hlt
    have hk0 : k = 0 := by simpa using hlt
    rw [hk0] at hm'
    cases hm'
    rw [List.getElem?_eq_getElem hj'] at hline
    exact (Option.some.inj hline).symm

/-! ## All clients -/

variable {χ : Type} {clients : χ → Client} {s s' : State χ} {c d : χ}

/-- What holds of a client at each place. -/
def ClientOk (s : State χ) (client : Client) (c : χ) : Pc → Prop
  | .start => s.lines c = [] ∧ s.asked c = []
  | .listing np i => Reading (s.moments c) (s.lines c) (s.asked c) np i ∧
      (i < np → (s.moments c).getLast? = some s.server.history)
  | .finished => client = .print → ∃ np, Reading (s.moments c) (s.lines c) (s.asked c) np np

structure Inv (clients : χ → Client) (s : State χ) : Prop where
  server : s.server.mCount ≤ historyMax
  client : ∀ c, ClientOk s (clients c) c (s.pc c)

theorem inv_start (clients : χ → Client) : Inv clients (start χ) where
  server := Nat.zero_le _
  client _ := ⟨rfl, rfl⟩

theorem ClientOk.same {client : Client} {p : Pc} (h : ClientOk s client c p) (hmoments : s'.moments c = s.moments c)
    (hlines : s'.lines c = s.lines c) (hasked : s'.asked c = s.asked c)
    (hserver : s'.server = s.server) : ClientOk s' client c p := by
  cases p <;> simpa only [ClientOk, hmoments, hlines, hasked, hserver] using h

theorem ClientOk.add {client : Client} (h : ClientOk s client c (s.pc c)) (hserver : s.server.mCount ≤ historyMax)
    (message : List CChar) : ClientOk (s.add message) client c (s.pc c) := by
  cases hpc : s.pc c with
  | listing np i =>
    rw [hpc] at h
    obtain ⟨hreading, hlast⟩ := h
    simp only [ClientOk, State.add, hpc, Pc.active]
    by_cases hi : i < np
    · obtain ⟨hcount, hhistory⟩ := history_add hserver message
      have hle := add1Svc_le hserver message
      simp only [hi, decide_true, if_true]
      refine ⟨hreading.add (hlast hi) ⟨message, hhistory⟩ ?_, fun _ => by simp⟩
      rw [length_history hserver, length_history hle.1]
      exact hle.2
    · simp only [hi, decide_false, Bool.false_eq_true, if_false]
      exact ⟨hreading, False.elim⟩
  | _ =>
    rw [hpc] at h
    simpa [ClientOk, State.add, hpc, Pc.active] using h

variable [DecidableEq χ]

theorem step_inv (hinv : Inv clients s) (h : exec clients s c = some s') : Inv clients s' := by
  have hok := hinv.client c
  -- Only the client that makes the request goes on.
  have hgoto : ∀ {r : State χ} {p : Pc}, r.pc = s.pc → r.server.mCount ≤ historyMax →
      (∀ d, d ≠ c → ClientOk r (clients d) d (s.pc d)) → ClientOk r (clients c) c p → Inv clients (r.goto c p) := by
    intro r p hpc hserver hothers hthis
    refine ⟨hserver, fun d => ?_⟩
    have hplace : (r.goto c p).pc d = Function.update s.pc c p d := by rw [← hpc]; rfl
    rw [hplace]
    by_cases hd : d = c
    · subst hd
      rw [Function.update_self]
      exact hthis.same rfl rfl rfl rfl
    · rw [Function.update_of_ne hd]
      exact (hothers d hd).same rfl rfl rfl rfl
  unfold exec at h
  split at h
  case h_1 message hpc hclient =>
    cases h
    refine hgoto rfl (add1Svc_le hinv.server message).1 (fun d _ => (hinv.client d).add hinv.server message) ?_
    rw [hclient]
    exact nofun
  case h_2 hpc hclient =>
    cases h
    rw [hpc] at hok
    obtain ⟨hlines, hasked⟩ := hok
    refine hgoto rfl hinv.server (fun d hd => (hinv.client d).same ?_ rfl rfl rfl) ?_
    · exact Function.update_of_ne hd _ _
    · simp only [ClientOk, Function.update_self, hlines, hasked]
      have hreading := reading_count s.server.history
      rw [length_history hinv.server] at hreading
      exact ⟨hreading, fun _ => rfl⟩
  case h_3 np i hpc =>
    rw [hpc] at hok
    obtain ⟨hreading, hlast⟩ := hok
    split_ifs at h with hi
    · cases h
      refine hgoto rfl hinv.server (fun d hd => (hinv.client d).same rfl ?_ ?_ rfl) ?_
      · exact Function.update_of_ne hd _ _
      · exact Function.update_of_ne hd _ _
      · simp only [ClientOk, Function.update_self]
        have hkept := hreading.kept _ (List.mem_of_getLast? (hlast hi))
        rw [length_history hinv.server] at hkept
        exact ⟨hreading.get hi (hlast hi) (get1Svc_eq hinv.server (by omega)), fun _ => hlast hi⟩
    · cases h
      refine hgoto rfl hinv.server (fun d _ => hinv.client d) fun _ => ?_
      have hnp : i = np := le_antisymm hreading.le (not_lt.mp hi)
      rw [hnp] at hreading
      exact ⟨np, hreading⟩
  case h_4 => cases h

theorem reachable_inv (h : Reachable (system clients) s) : Inv clients s := by
  refine h.invariant ?_ ?_
  · rintro _ rfl
    exact inv_start clients
  · intro s c s' _ hinv hstep
    exact step_inv hinv hstep

/-- **What a listing is.** It has as many lines as there were messages at its first request. Each line
is in its place of the history at the moment of its own request, and these moments come one after the
other. A listing during which nobody adds a message is the history. -/
theorem listing_reads {χ : Type} [DecidableEq χ] {clients : χ → Client} {s : State χ}
    (h : Reachable (system clients) s) {c : χ} (hprint : clients c = .print) (hdone : s.pc c = .finished) :
    ∃ h₀ rest, s.moments c = h₀ :: rest ∧ (s.moments c).IsChain Added ∧ (s.lines c).length = h₀.length ∧
      (s.asked c).Pairwise (· ≤ ·) ∧
      (∀ (i : Nat) (line : List CChar), (s.lines c)[i]? = some line →
        ∃ (k : Nat) (m : List (List CChar)),
          (s.asked c)[i]? = some k ∧ (s.moments c)[k]? = some m ∧ m[i]? = some line) ∧
      (rest = [] → s.lines c = h₀) := by
  have hok := (reachable_inv h).client c
  rw [hdone] at hok
  obtain ⟨np, hreading⟩ := hok hprint
  obtain ⟨h₀, rest, hmoments, hnp⟩ := hreading.first
  refine ⟨h₀, rest, hmoments, hreading.chain, ?_, hreading.asked_sorted, hreading.line, fun hrest => ?_⟩
  · rw [hreading.lines_length, hnp]
  · rw [hrest] at hmoments
    exact hreading.eq_of_single hmoments

/-- Two messages, a listing, and a third message that may come in between. -/
def fourClients : Fin 4 → Client
  | 0 => .add (ascii "a")
  | 1 => .add (ascii "b")
  | 2 => .print
  | 3 => .add (ascii "c")

theorem listing_reads_four : ∃ s, runSteps (exec fourClients) (start (Fin 4)) [0, 1, 2, 2, 2, 2, 3] = some s ∧
    s.moments 2 = [[ascii "b", ascii "a"]] ∧ s.lines 2 = [ascii "b", ascii "a"] := by
  have hstate : (runSteps (exec fourClients) (start (Fin 4)) [0, 1, 2, 2, 2, 2, 3]).map (fun s =>
      (s.pc 2, s.moments 2)) = some (.finished, [[ascii "b", ascii "a"]]) := by
    decide +kernel
  obtain ⟨s, hs, hplace⟩ := Option.map_eq_some_iff.mp hstate
  obtain ⟨hpc, hmoments⟩ := Prod.mk.inj hplace
  have hreach : Reachable (system fourClients) s := (Reachable.init rfl).runSteps (fun _ _ _ _ hstep => hstep) hs
  obtain ⟨h₀, rest, hcons, -, -, -, -, hall⟩ := listing_reads hreach rfl hpc
  rw [hmoments] at hcons
  cases hcons
  exact ⟨s, hs, hmoments, hall rfl⟩

/-- The third message comes after the first line, and the second line repeats it. -/
theorem listing_of_no_moment : ∃ s, Reachable (system fourClients) s ∧ s.pc 2 = .finished ∧
    s.lines 2 = [ascii "b", ascii "b"] ∧ ∀ m ∈ s.moments 2, s.lines 2 ≠ m := by
  have hstate : (runSteps (exec fourClients) (start (Fin 4)) [0, 1, 2, 2, 3, 2, 2]).map (fun s =>
      (s.pc 2, s.lines 2, s.moments 2)) = some (.finished, [ascii "b", ascii "b"],
        [[ascii "b", ascii "a"], [ascii "c", ascii "b", ascii "a"]]) := by
    decide +kernel
  obtain ⟨s, hs, hplace⟩ := Option.map_eq_some_iff.mp hstate
  simp only [Prod.mk.injEq] at hplace
  obtain ⟨hpc, hlines, hmoments⟩ := hplace
  have hreach : Reachable (system fourClients) s := (Reachable.init rfl).runSteps (fun _ _ _ _ hstep => hstep) hs
  refine ⟨s, hreach, hpc, hlines, ?_⟩
  rw [hlines, hmoments]
  decide

end OsCoursework.Motd
