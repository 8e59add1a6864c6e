import OsCoursework.Lib.LinkedList
import OsCoursework.Matchmaker.Pairing

/-!
# The waiting list

Until the stop the list holds the sleeping players without a match, and no two of them are
compatible. The stop signals all of them.
-/

open OsCoursework.Cstring OsCoursework.LinkedList OsCoursework.Transition

namespace OsCoursework.Matchmaker

variable {s t : Monitor} {i self curr fuel : Nat} {l : List Nat}

def links (s : Monitor) (i : Nat) : Option Nat := (s.player i).next

/-- Asleep, and not matched yet. -/
def Blocked (s : Monitor) (i : Nat) : Prop := (s.findCall i).isAsleep = true ∧ (s.player i).matched = false

/-- The waiting list while players are matched. -/
structure Listed (s : Monitor) (l : List Nat) : Prop where
  path : Path (links s) s.waitingList l none
  mem : ∀ i, i ∈ l ↔ Blocked s i
  apart : ∀ i ∈ l, ∀ j ∈ l, ¬ compatible s i j
  signal : ∀ i b, s.findCall i = .asleep b → b = (s.player i).matched

/-- The waiting list after the stop. -/
structure Released (s : Monitor) (l : List Nat) : Prop where
  path : Path (links s) s.waitingList l none
  mem : ∀ i, Blocked s i → i ∈ l
  signal : ∀ i, s.findCall i ≠ .asleep false

def Orderly (s : Monitor) : Prop :=
  if s.matchmakingStopped = true then ∃ l, Released s l else ∃ l, Listed s l

theorem orderly_init (range gap : Int) : Orderly (initMonitor range gap) := by
  unfold Orderly
  rw [if_neg (by simp [initMonitor])]
  refine ⟨[], rfl, ?_, ?_, ?_⟩ <;> simp [initMonitor, Blocked, Thread.isAsleep]

theorem Orderly.running (h : Orderly s) (hrun : ¬ s.matchmakingStopped = true) : ∃ l, Listed s l := by
  rwa [Orderly, if_neg hrun] at h

theorem Orderly.stopped (h : Orderly s) (hstop : s.matchmakingStopped = true) : ∃ l, Released s l := by
  rwa [Orderly, if_pos hstop] at h

theorem Listed.orderly (h : Listed s l) (hrun : ¬ s.matchmakingStopped = true) : Orderly s := by
  rw [Orderly, if_neg hrun]
  exact ⟨l, h⟩

theorem Released.orderly (h : Released s l) (hstop : s.matchmakingStopped = true) : Orderly s := by
  rw [Orderly, if_pos hstop]
  exact ⟨l, h⟩

/-! ## The scan -/

theorem scan_none {prev p : Option Nat} (hl : Path (links s) p l none) (h : scan s self fuel prev p = some none) :
    ∀ c ∈ l, ¬ (s.player c).matched = true → ¬ compatible s self c := by
  induction fuel generalizing l prev p with
  | zero => cases h
  | succ fuel ih =>
    cases l with
    | nil => simp
    | cons a l =>
      obtain ⟨rfl, hl⟩ := hl
      rw [scan] at h
      split_ifs at h with ha
      · cases h
      · intro c hc
        rcases List.mem_cons.mp hc with rfl | hc
        · exact fun hm hcompatible => ha ⟨hm, hcompatible⟩
        · exact ih hl h c hc

theorem scan_some {prev prev' p : Option Nat} (hl : Path (links s) p l none)
    (h : scan s self fuel prev p = some (some (prev', curr))) :
    ∃ l₁ l₂, l = l₁ ++ curr :: l₂ ∧ prev' = l₁.getLast?.or prev := by
  induction fuel generalizing l prev p with
  | zero => cases h
  | succ fuel ih =>
    cases l with
    | nil =>
      rw [path_nil] at hl
      subst hl
      cases h
    | cons a l =>
      obtain ⟨rfl, hl⟩ := hl
      rw [scan] at h
      split_ifs at h with ha
      · cases h
        exact ⟨[], l, rfl, rfl⟩
      · obtain ⟨l₁, l₂, rfl, rfl⟩ := ih hl h
        refine ⟨a :: l₁, l₂, rfl, ?_⟩
        cases l₁ <;> simp [List.getLast?_cons]

theorem scan_isSome {prev p : Option Nat} (hl : Path (links s) p l none) (hfuel : l.length < fuel) :
    (scan s self fuel prev p).isSome = true := by
  induction fuel generalizing l prev p with
  | zero => omega
  | succ fuel ih =>
    cases l with
    | nil =>
      rw [path_nil] at hl
      subst hl
      rfl
    | cons a l =>
      obtain ⟨rfl, hl⟩ := hl
      rw [scan]
      split_ifs
      · rfl
      · exact ih hl (by simpa using hfuel)

/-! ## A match -/

theorem unlink_path {l₁ l₂ : List Nat} (h : Path (links s) s.waitingList (l₁ ++ curr :: l₂) none) :
    Path (links (unlink s l₁.getLast? curr)) (unlink s l₁.getLast? curr).waitingList (l₁ ++ l₂) none := by
  rcases List.eq_nil_or_concat l₁ with rfl | ⟨l₁, a, rfl⟩
  · exact h.2
  · rw [List.concat_eq_append, List.append_assoc, List.singleton_append] at h ⊢
    have hlinks : links (unlink s (some a) curr) = Function.update (links s) a (links s curr) := by
      funext j
      simp only [links, unlink, set_player, Function.update_apply]
      split_ifs <;> rfl
    rw [List.getLast?_concat, hlinks]
    exact h.unlink h.nodup

theorem pairUp_links (s : Monitor) (self : Nat) (prev : Option Nat) (curr : Nat) :
    links (pairUp s self prev curr) = links (unlink s prev curr) ∧
    (pairUp s self prev curr).waitingList = (unlink s prev curr).waitingList := by
  have hset : ∀ (s : Monitor) i j o,
      ((s.set i fun p => { p with matched := true, opponent := o }).player j).next = (s.player j).next := by
    intro s i j o
    rw [set_player]
    split_ifs with hj <;> simp [hj]
  cases prev with
  | none => exact ⟨funext fun j => (hset _ _ _ _).trans (hset _ _ _ _), (hset _ _ _ _).trans (hset _ _ _ _)⟩
  | some p =>
    refine ⟨funext fun j => ?_, rfl⟩
    simp only [links, pairUp, unlink, Monitor.signal, Monitor.setFind]
    rw [set_player _ p, set_player _ p]
    split_ifs
    · exact (hset _ _ _ _).trans (hset _ _ _ _)
    · exact (hset _ _ _ _).trans (hset _ _ _ _)

theorem Listed.pairUp {l₁ l₂ : List Nat} (h : Listed s (l₁ ++ curr :: l₂)) (hself : self ∉ l₁ ++ curr :: l₂) :
    Listed (ret (pairUp s self l₁.getLast? curr) self) (l₁ ++ l₂) := by
  have hplayer := pairUp_player s self l₁.getLast? curr
  obtain ⟨-, hgap, -, hcall⟩ := pairUp_rest s self l₁.getLast? curr
  obtain ⟨hlinks, hlist⟩ := pairUp_links s self l₁.getLast? curr
  have hret j : (ret (Matchmaker.pairUp s self l₁.getLast? curr) self).findCall j =
      if j = self then .returned true else if j = curr then (s.findCall curr).signal else s.findCall j := by
    rw [ret, setFind_findCall, hcall, (hplayer self).2.1, if_pos (Or.inr rfl)]
  have hmatched j : ((ret (Matchmaker.pairUp s self l₁.getLast? curr) self).player j).matched =
      if j = curr ∨ j = self then true else (s.player j).matched := (hplayer j).2.1
  have hnodup := h.path.nodup
  have hrest : ∀ i, i ∈ l₁ ++ l₂ ↔ i ∈ l₁ ++ curr :: l₂ ∧ i ≠ curr := by
    intro i
    have hcurr : curr ∉ l₁ ++ l₂ := (List.nodup_middle.mp hnodup |> List.nodup_cons.mp).1
    constructor
    · intro hi
      refine ⟨?_, fun heq => hcurr (heq ▸ hi)⟩
      rw [List.mem_append] at hi ⊢
      exact hi.imp_right (List.mem_cons_of_mem _)
    · rintro ⟨hi, hne⟩
      simpa [hne] using hi
  refine ⟨?_, fun i => ?_, fun i hi j hj => ?_, fun i b hb => ?_⟩
  · have hpath := unlink_path h.path
    rw [← hlinks, ← hlist] at hpath
    exact hpath
  · rw [hrest, h.mem]
    unfold Blocked
    rw [hret, hmatched]
    by_cases hi : i = curr
    · simp [hi]
    by_cases hi' : i = self
    · have hnot := (h.mem self).not.mp hself
      unfold Blocked at hnot
      simp [hi', hnot]
    · simp [hi, hi']
  · intro hc
    have hc' := (compatible_congr (hplayer i).1 (hplayer j).1 hgap).mp hc
    exact h.apart i ((hrest i).mp hi).1 j ((hrest j).mp hj).1 hc'
  · rw [hret] at hb
    rw [hmatched]
    split_ifs at hb with hi hi'
    · rw [if_pos (Or.inl hi')]
      cases hcall : s.findCall curr <;> rw [hcall] at hb <;> cases hb
      rfl
    · rw [if_neg (by tauto)]
      exact h.signal i b hb

/-! ## No match -/

theorem sleep_links (s : Monitor) (self : Nat) :
    links (sleep s self) = Function.update (links s) self s.waitingList := by
  funext j
  simp only [links, sleep, Monitor.setFind, set_player, Function.update_apply]
  split_ifs <;> rfl

theorem sleep_player (s : Monitor) (self j : Nat) :
    ((sleep s self).player j).skill = (s.player j).skill ∧
    ((sleep s self).player j).matched = (s.player j).matched := by
  simp only [sleep, Monitor.setFind, set_player]
  split_ifs with hj <;> simp [hj]

theorem Listed.sleep (h : Listed s l) (hself : self ∉ l) (hm : (s.player self).matched = false)
    (hnone : ∀ c ∈ l, ¬ compatible s self c) : Listed (sleep s self) (self :: l) := by
  have hplayer := sleep_player s self
  have hcall j : (Matchmaker.sleep s self).findCall j = if j = self then .asleep false else s.findCall j :=
    setFind_findCall _ _ _ _
  refine ⟨?_, fun i => ?_, fun i hi j hj => ?_, fun i b hb => ?_⟩
  · rw [sleep_links]
    exact h.path.push hself
  · unfold Blocked
    rw [hcall, (hplayer i).2, List.mem_cons, h.mem]
    by_cases hi : i = self
    · subst hi
      simp [hm, Thread.isAsleep]
    · simp [hi, Blocked]
  · rw [compatible_congr (hplayer i).1 (hplayer j).1 rfl]
    rcases List.mem_cons.mp hi with rfl | hi' <;> rcases List.mem_cons.mp hj with rfl | hj'
    · exact not_compatible_self s _
    · exact hnone j hj'
    · exact fun hc => hnone i hi' (compatible_symm hc)
    · exact h.apart i hi' j hj'
  · rw [hcall] at hb
    rw [(hplayer i).2]
    split_ifs at hb with hi
    · cases hb
      rw [hi, hm]
    · exact h.signal i b hb

/-- A player that is on the list already puts itself in front. -/
theorem sleep_cycle (h : Path (links s) s.waitingList l none) (hself : self ∈ l) (m : List Nat) :
    ¬ Path (links (sleep s self)) (sleep s self).waitingList m none := by
  rw [sleep_links]
  exact h.relink hself

/-! ## The loop -/

theorem Listed.unmatched (h : Listed s l) (hi : i ∈ l) : ¬ (s.player i).matched = true := by
  simp [((h.mem i).mp hi).2]

theorem Listed.loop (h : Listed s l) (hself : self ∉ l) (hm : (s.player self).matched = false)
    (hrun : ¬ s.matchmakingStopped = true) (ht : loop fuel s self = some t) :
    t.matchmakingStopped = s.matchmakingStopped ∧ ∃ l', Listed t l' := by
  unfold Matchmaker.loop at ht
  rw [if_neg (by simp [hm, hrun])] at ht
  obtain ⟨r, hscan, rfl⟩ := Option.map_eq_some_iff.mp ht
  cases r with
  | none =>
    refine ⟨rfl, self :: l, h.sleep hself hm fun c hc => ?_⟩
    exact scan_none h.path hscan c hc (h.unmatched hc)
  | some r =>
    obtain ⟨prev, curr⟩ := r
    obtain ⟨l₁, l₂, rfl, rfl⟩ := scan_some h.path hscan
    rw [Option.or_none]
    exact ⟨(pairUp_rest s self _ curr).2.2.1, l₁ ++ l₂, h.pairUp hself⟩

theorem ret_findCall (s : Monitor) (i j : Nat) :
    (ret s i).findCall j = if j = i then .returned (s.player i).matched else s.findCall j :=
  setFind_findCall _ _ _ _

theorem Listed.ret (h : Listed s l) (hi : i ∉ l) : Listed (ret s i) l := by
  refine ⟨h.path, fun j => ?_, h.apart, fun j b hb => ?_⟩
  · have hnot := (h.mem i).not.mp hi
    rw [h.mem]
    by_cases hj : j = i
    · subst hj
      refine ⟨fun hblocked => absurd hblocked hnot, fun hblocked => ?_⟩
      have hasleep := hblocked.1
      rw [ret_findCall, if_pos rfl] at hasleep
      cases hasleep
    · unfold Blocked
      rw [ret_findCall, if_neg hj]
      rfl
  · rw [ret_findCall] at hb
    split_ifs at hb
    exact h.signal j b hb

theorem Released.ret (h : Released s l) (i : Nat) : Released (ret s i) l := by
  refine ⟨h.path, fun j hj => h.mem j ?_, fun j hj => ?_⟩
  · unfold Blocked at hj ⊢
    rw [ret_findCall] at hj
    split_ifs at hj with hji
    · cases hj.1
    · exact hj
  · rw [ret_findCall] at hj
    split_ifs at hj
    exact h.signal j hj

/-! ## findMatch -/

/-- The new player of a call, on no list yet. -/
def arrive (s : Monitor) (name : List CChar) (skill : Int) : Monitor :=
  Monitor.set { s with calls := s.calls + 1 } s.calls fun _ => { name := (text name).take 63, skill := skill }

theorem arrive_player {name : List CChar} {skill : Int} (hi : i ≠ s.calls) :
    (arrive s name skill).player i = s.player i := by
  rw [arrive, set_player, if_neg hi]

theorem Inv.not_asleep (h : Inv s) : (s.findCall s.calls).isAsleep = false := by
  rw [(h.unused _ le_rfl).2]
  rfl

theorem Listed.arrive (h : Listed s l) (hinv : Inv s) (name : List CChar) (skill : Int) :
    Listed (arrive s name skill) l ∧ s.calls ∉ l := by
  have hnot : s.calls ∉ l := by
    rw [h.mem]
    rintro ⟨hasleep, -⟩
    rw [hinv.not_asleep] at hasleep
    cases hasleep
  have hne : ∀ i ∈ l, i ≠ s.calls := fun i hi heq => hnot (heq ▸ hi)
  refine ⟨⟨?_, fun i => ?_, fun i hi j hj => ?_, fun i b hb => ?_⟩, hnot⟩
  · refine h.path.congr fun i hi => ?_
    rw [links, arrive_player (hne i hi), links]
  · by_cases hi : i = s.calls
    · subst hi
      refine ⟨fun hmem => absurd hmem hnot, fun hblocked => ?_⟩
      have hasleep : (s.findCall s.calls).isAsleep = true := hblocked.1
      rw [hinv.not_asleep] at hasleep
      cases hasleep
    · rw [h.mem, Blocked, Blocked, arrive_player hi]
      rfl
  · have hskill : ∀ a ∈ l, ((Matchmaker.arrive s name skill).player a).skill = (s.player a).skill := by
      intro a ha
      rw [arrive_player (hne a ha)]
    rw [compatible_congr (hskill i hi) (hskill j hj) rfl]
    exact h.apart i hi j hj
  · have hb' : s.findCall i = .asleep b := hb
    have hi : i ≠ s.calls := by
      rintro rfl
      rw [(hinv.unused _ le_rfl).2] at hb'
      cases hb'
    rw [arrive_player hi]
    exact h.signal i b hb'

theorem findMatch_running {name : List CChar} {skill : Int} (hrun : ¬ s.matchmakingStopped = true) :
    findMatch fuel s name skill = loop fuel (arrive s name skill) s.calls := by
  rw [findMatch, if_neg (by simpa using hrun)]
  rfl

theorem findMatch_stopped {name : List CChar} {skill : Int} (hstop : s.matchmakingStopped = true) :
    findMatch fuel s name skill = some (Monitor.setFind { s with calls := s.calls + 1 } s.calls (.returned false)) := by
  rw [findMatch, if_pos (by simpa using hstop)]

theorem findMatch_orderly {name : List CChar} {skill : Int} (h : Orderly s) (hinv : Inv s)
    (ht : findMatch fuel s name skill = some t) : Orderly t := by
  by_cases hstop : s.matchmakingStopped = true
  · obtain ⟨l, hl⟩ := h.stopped hstop
    rw [findMatch_stopped hstop] at ht
    cases ht
    refine Released.orderly (l := l) ⟨hl.path, fun i hi => hl.mem i ?_, fun i hi => ?_⟩ hstop
    · unfold Blocked at hi ⊢
      rw [setFind_findCall] at hi
      split_ifs at hi
      · cases hi.1
      · exact hi
    · rw [setFind_findCall] at hi
      split_ifs at hi
      exact hl.signal i hi
  · obtain ⟨l, hl⟩ := h.running hstop
    rw [findMatch_running hstop] at ht
    obtain ⟨harrive, hnot⟩ := hl.arrive hinv name skill
    have hinv' := (arrive_inv hinv (p := { name := (text name).take 63, skill := skill }) ⟨rfl, rfl, rfl⟩).inv
    have hm : ((arrive s name skill).player s.calls).matched = false := by simp [arrive]
    obtain ⟨hrun, l', hl'⟩ := harrive.loop hnot hm hstop ht
    exact hl'.orderly (by rw [hrun]; exact hstop)

theorem findMatch_ends (h : Orderly s) (hinv : Inv s) (name : List CChar) (skill : Int) :
    ∃ fuel t, findMatch fuel s name skill = some t := by
  by_cases hstop : s.matchmakingStopped = true
  · exact ⟨0, _, findMatch_stopped hstop⟩
  · obtain ⟨l, hl⟩ := h.running hstop
    have hpath := (hl.arrive hinv name skill).1.path
    have hm : ((arrive s name skill).player s.calls).matched = false := by simp [arrive]
    have hrun : (arrive s name skill).matchmakingStopped = s.matchmakingStopped := rfl
    have hscan : (scan (arrive s name skill) s.calls (l.length + 1) none (arrive s name skill).waitingList).isSome :=
      scan_isSome hpath (Nat.lt_succ_self _)
    obtain ⟨r, hr⟩ := Option.isSome_iff_exists.mp hscan
    refine ⟨l.length + 1, ?_⟩
    rw [findMatch_running hstop, loop, if_neg (by simp [hm, hrun, hstop]), hr]
    exact ⟨_, rfl⟩

/-! ## Wakeups -/

/-- The wait of a player returns for a reason: a match, or the stop. -/
def Expected (s : Monitor) : Event → Prop
  | .wake i => (s.player i).matched = true ∨ s.matchmakingStopped = true
  | _ => True

instance (s : Monitor) : (e : Event) → Decidable (Expected s e)
  | .wake i => inferInstanceAs (Decidable ((s.player i).matched = true ∨ s.matchmakingStopped = true))
  | .findMatch _ _ | .donePlaying _ | .wakeDone _ | .stopMatchmaking => isTrue trivial

theorem wake_expected (h : Expected s (.wake i)) : loop fuel s i = some (ret s i) := by
  rw [loop, if_pos (by simpa [Expected] using h)]

theorem wake_orderly (h : Orderly s) (he : Expected s (.wake i)) : Orderly (ret s i) := by
  by_cases hstop : s.matchmakingStopped = true
  · obtain ⟨l, hl⟩ := h.stopped hstop
    exact (hl.ret i).orderly hstop
  · obtain ⟨l, hl⟩ := h.running hstop
    have hm : (s.player i).matched = true := by simpa [Expected, hstop] using he
    exact (hl.ret fun hi => hl.unmatched hi hm).orderly hstop

/-! ## The stop -/

theorem signalAll_path {p : Option Nat} (hl : Path (links s) p l none) (h : signalAll fuel s p = some t) (i : Nat) :
    t.findCall i = if i ∈ l then (s.findCall i).signal else s.findCall i := by
  induction fuel generalizing s l p with
  | zero => cases h
  | succ fuel ih =>
    cases l with
    | nil =>
      rw [path_nil] at hl
      subst hl
      cases h
      simp
    | cons a l =>
      obtain ⟨rfl, hl⟩ := hl
      have hrest := ih (s := s.signal a) hl h
      rw [Monitor.signal, setFind_findCall] at hrest
      rw [hrest]
      by_cases hi : i = a
      · subst hi
        simp
      · simp [hi]

theorem signalAll_isSome {p : Option Nat} (hl : Path (links s) p l none) (hfuel : l.length < fuel) :
    (signalAll fuel s p).isSome = true := by
  induction fuel generalizing s l p with
  | zero => omega
  | succ fuel ih =>
    cases l with
    | nil =>
      rw [path_nil] at hl
      subst hl
      rfl
    | cons a l =>
      obtain ⟨rfl, hl⟩ := hl
      exact ih (s := s.signal a) hl (by simpa using hfuel)

theorem stopMatchmaking_released (hpath : Path (links s) s.waitingList l none) (hmem : ∀ i, Blocked s i → i ∈ l)
    (hsignal : ∀ i, i ∉ l → s.findCall i ≠ .asleep false) (ht : stopMatchmaking fuel s = some t) : Released t l := by
  obtain ⟨u, hu, rfl⟩ := Option.map_eq_some_iff.mp ht
  have hcall := signalAll_path (s := { s with matchmakingStopped := true }) hpath hu
  obtain ⟨heq, -⟩ := signalAll_spec hu
  have hplayer : u.player = s.player := by rw [heq]
  have hlist : u.waitingList = s.waitingList := by rw [heq]
  refine ⟨?_, fun i hi => hmem i ?_, fun i hi => ?_⟩
  · unfold links Monitor.broadcast
    rw [hplayer, hlist]
    exact hpath
  · obtain ⟨hasleep, hm⟩ := hi
    unfold Monitor.broadcast at hasleep hm
    rw [hplayer] at hm
    rw [hcall] at hasleep
    refine ⟨?_, hm⟩
    split_ifs at hasleep
    · cases hthread : s.findCall i <;> simp only [hthread] at hasleep <;> first | rfl | cases hasleep
    · exact hasleep
  · unfold Monitor.broadcast at hi
    rw [hcall] at hi
    split_ifs at hi with hil
    · cases hthread : s.findCall i <;> simp only [hthread] at hi <;> cases hi
    · exact hsignal i hil hi

theorem stopMatchmaking_stopped (ht : stopMatchmaking fuel s = some t) : t.matchmakingStopped = true := by
  obtain ⟨u, hu, rfl⟩ := Option.map_eq_some_iff.mp ht
  exact congrArg Monitor.matchmakingStopped (signalAll_spec hu).1

theorem stopMatchmaking_orderly (h : Orderly s) (ht : stopMatchmaking fuel s = some t) : Orderly t := by
  have hstopped := stopMatchmaking_stopped ht
  by_cases hstop : s.matchmakingStopped = true
  · obtain ⟨l, hl⟩ := h.stopped hstop
    exact (stopMatchmaking_released hl.path hl.mem (fun i _ => hl.signal i) ht).orderly hstopped
  · obtain ⟨l, hl⟩ := h.running hstop
    refine (stopMatchmaking_released hl.path (fun i => (hl.mem i).mpr) (fun i hi hasleep => hi ?_) ht).orderly hstopped
    -- Who sleeps without a signal is not matched, so it is on the list.
    exact (hl.mem i).mpr ⟨by rw [hasleep]; rfl, (hl.signal i false hasleep).symm⟩

theorem stopMatchmaking_ends (h : Orderly s) : ∃ fuel t, stopMatchmaking fuel s = some t := by
  have hpath : ∃ l, Path (links s) s.waitingList l none := by
    by_cases hstop : s.matchmakingStopped = true
    · obtain ⟨l, hl⟩ := h.stopped hstop
      exact ⟨l, hl.path⟩
    · obtain ⟨l, hl⟩ := h.running hstop
      exact ⟨l, hl.path⟩
  obtain ⟨l, hl⟩ := hpath
  obtain ⟨u, hu⟩ := Option.isSome_iff_exists.mp
    (signalAll_isSome (s := { s with matchmakingStopped := true }) hl (Nat.lt_succ_self _))
  exact ⟨l.length + 1, u.broadcast, Option.map_eq_some_iff.mpr ⟨u, hu, rfl⟩⟩

/-! ## Steps that leave the list alone -/

/-- All that the waiting list depends on is the same. -/
structure SameList (s t : Monitor) : Prop where
  list : t.waitingList = s.waitingList
  stopped : t.matchmakingStopped = s.matchmakingStopped
  gap : t.skillGap = s.skillGap
  call : t.findCall = s.findCall
  player : ∀ i, (t.player i).next = (s.player i).next ∧ (t.player i).matched = (s.player i).matched ∧
    (t.player i).skill = (s.player i).skill

theorem SameList.refl_of (hlist : t.waitingList = s.waitingList) (hstop : t.matchmakingStopped = s.matchmakingStopped)
    (hgap : t.skillGap = s.skillGap) (hcall : t.findCall = s.findCall) (hplayer : t.player = s.player) :
    SameList s t :=
  ⟨hlist, hstop, hgap, hcall, fun i => by rw [hplayer]; exact ⟨rfl, rfl, rfl⟩⟩

theorem SameList.trans {u : Monitor} (h : SameList s t) (h' : SameList t u) : SameList s u where
  list := h'.list.trans h.list
  stopped := h'.stopped.trans h.stopped
  gap := h'.gap.trans h.gap
  call := h'.call.trans h.call
  player i := ⟨(h'.player i).1.trans (h.player i).1, (h'.player i).2.1.trans (h.player i).2.1,
    (h'.player i).2.2.trans (h.player i).2.2⟩

theorem SameList.blocked (h : SameList s t) (i : Nat) : Blocked t i ↔ Blocked s i := by
  unfold Blocked
  rw [h.call, (h.player i).2.1]

theorem SameList.path (h : SameList s t) (hl : Path (links s) s.waitingList l none) :
    Path (links t) t.waitingList l none := by
  rw [h.list]
  exact hl.congr fun i _ => (h.player i).1

theorem SameList.orderly (h : SameList s t) (hs : Orderly s) : Orderly t := by
  by_cases hstop : s.matchmakingStopped = true
  · obtain ⟨l, hl⟩ := hs.stopped hstop
    refine Released.orderly (l := l) ⟨h.path hl.path, fun i hi => ?_, fun i => ?_⟩ (h.stopped.trans hstop)
    · exact hl.mem i ((h.blocked i).mp hi)
    · rw [h.call]
      exact hl.signal i
  · obtain ⟨l, hl⟩ := hs.running hstop
    refine Listed.orderly (l := l) ⟨h.path hl.path, fun i => ?_, fun i hi j hj => ?_, fun i b hb => ?_⟩ ?_
    · rw [h.blocked]
      exact hl.mem i
    · rw [compatible_congr (h.player i).2.2 (h.player j).2.2 h.gap]
      exact hl.apart i hi j hj
    · rw [(h.player i).2.1]
      exact hl.signal i b (h.call ▸ hb)
    · rw [h.stopped]
      exact hstop

theorem finish_sameList (s : Monitor) (c : Nat) : SameList s (finish s c) := by
  unfold finish
  split_ifs <;> exact .refl_of rfl rfl rfl rfl rfl

theorem countDone_sameList (s : Monitor) (self : Nat) : SameList s (countDone s self) := by
  obtain ⟨g, hg⟩ := countDone_eq s self
  rw [hg]
  refine ⟨rfl, rfl, rfl, rfl, fun i => ?_⟩
  simp only [set_player]
  split_ifs with hi <;> simp [hi]

theorem donePlaying_sameList {c : Nat} (hd : donePlaying s c = some t) : SameList s t := by
  obtain ⟨self, rfl⟩ := donePlaying_cases hd
  exact (countDone_sameList s self).trans (finish_sameList _ c)

/-! ## All runs -/

theorem step_orderly {range gap : Int} {e : Event} (h : Orderly s) (hinv : Inv s)
    (hs : (system range gap).step s e t) (he : Expected s e) : Orderly t := by
  obtain ⟨fuel, hexec⟩ := hs
  cases e with
  | findMatch name skill => exact findMatch_orderly h hinv hexec
  | wake i =>
    obtain ⟨-, hl⟩ := Option.ite_none_right_eq_some.mp hexec
    rw [wake_expected he] at hl
    cases hl
    exact wake_orderly h he
  | donePlaying c => exact (donePlaying_sameList (Option.ite_none_right_eq_some.mp hexec).2).orderly h
  | wakeDone c =>
    obtain rfl := Option.some.inj (Option.ite_none_right_eq_some.mp hexec).2
    exact (finish_sameList s c).orderly h
  | stopMatchmaking => exact stopMatchmaking_orderly h hexec

theorem reachable_orderly {range gap : Int} (h : Reachable ((system range gap).restrict Expected) s) :
    Orderly s ∧ Inv s := by
  refine h.invariant (P := fun s => Orderly s ∧ Inv s) ?_ ?_
  · rintro s ⟨-, -, rfl⟩
    exact ⟨orderly_init range gap, inv_init range gap⟩
  · rintro s e t - ⟨horderly, hinv⟩ ⟨he, hstep⟩
    exact ⟨step_orderly horderly hinv hstep he, (step_next hinv hstep).inv⟩

/-! ## Wakeups after signals only -/

/-- A wait returns only after its condition was signalled. -/
def signalled (s : Monitor) : Event → Prop
  | .wake i => s.findCall i = .asleep true
  | _ => True

instance (s : Monitor) : (e : Event) → Decidable (signalled s e)
  | .wake i => inferInstanceAs (Decidable (s.findCall i = .asleep true))
  | .findMatch _ _ | .donePlaying _ | .wakeDone _ | .stopMatchmaking => isTrue trivial

def signalledRuns (range gap : Int) : System Monitor Event := (system range gap).restrict signalled

theorem expected_of_signalled {e : Event} (h : Orderly s) (he : signalled s e) : Expected s e := by
  cases e with
  | wake i =>
    by_cases hstop : s.matchmakingStopped = true
    · exact Or.inr hstop
    · obtain ⟨l, hl⟩ := h.running hstop
      exact Or.inl (hl.signal i true he).symm
  | _ => trivial

theorem reachable_signalled {range gap : Int} (h : Reachable (signalledRuns range gap) s) :
    Orderly s ∧ Inv s ∧ s.skillGap = gap := by
  refine h.invariant (P := fun s => Orderly s ∧ Inv s ∧ s.skillGap = gap) ?_ ?_
  · rintro s ⟨-, -, rfl⟩
    exact ⟨orderly_init range gap, inv_init range gap, rfl⟩
  · rintro s e t - ⟨horderly, hinv, hgap⟩ ⟨he, hstep⟩
    have hnext := step_next hinv hstep
    exact ⟨step_orderly horderly hinv hstep (expected_of_signalled horderly he), hnext.inv, hnext.gap.trans hgap⟩

def signalledExec (s : Monitor) (e : Event) : Option Monitor := if signalled s e then e.exec 5 s else none

theorem signalledExec_step {range gap : Int} {e : Event} (h : signalledExec s e = some t) :
    (signalledRuns range gap).step s e t := by
  obtain ⟨hsignalled, he⟩ := Option.ite_none_right_eq_some.mp h
  exact ⟨hsignalled, exec_step he⟩

/-- **Nobody waits beside a player to play with.** -/
theorem waiting_maximal {range gap : Int} (h : Reachable (signalledRuns range gap) s)
    (hrun : s.matchmakingStopped = false) :
    ∃ l, Path (links s) s.waitingList l none ∧ l.Nodup ∧ (∀ i, i ∈ l ↔ Blocked s i) ∧
      ∀ i ∈ l, ∀ j ∈ l, ¬ ((s.player i).skill ≠ (s.player j).skill ∧
        |(s.player i).skill - (s.player j).skill| ≤ gap) := by
  obtain ⟨horderly, hinv, hgap⟩ := reachable_signalled h
  obtain ⟨l, hl⟩ := horderly.running (by simp [hrun])
  refine ⟨l, hl.path, hl.path.nodup, hl.mem, fun i hi j hj => ?_⟩
  rintro ⟨hne, hclose⟩
  have hexact : skillDiff (s.player i).skill (s.player j).skill = |(s.player i).skill - (s.player j).skill| :=
    skillDiff_eq (hclose.trans_lt (reachable_isInt h.of_restrict).2.2)
  refine hl.apart i hi j hj ⟨hne, ?_⟩
  rwa [hexact, hgap]

/-- The third player plays with the first, the second one stays. -/
def threePlayers : List Event := [.findMatch (ascii "a") 1, .findMatch (ascii "b") 9, .findMatch (ascii "c") 2, .wake 0]

theorem waiting_maximal_three : ∃ s, runSteps signalledExec (initMonitor 10 5) threePlayers = some s ∧
    ∃ l, Path (links s) s.waitingList l none ∧ 0 ∉ l ∧ 1 ∈ l := by
  have hstate : (runSteps signalledExec (initMonitor 10 5) threePlayers).map (fun s =>
      (s.matchmakingStopped, s.findCall 0, s.findCall 1, (s.player 1).matched)) =
        some (false, .returned true, .asleep false, false) := by
    decide +kernel
  obtain ⟨s, hs, hplace⟩ := Option.map_eq_some_iff.mp hstate
  simp only [Prod.mk.injEq] at hplace
  obtain ⟨hrun, hfirst, hsecond, hm⟩ := hplace
  have hreach : Reachable (signalledRuns 10 5) s :=
    Reachable.runSteps (fun _ _ _ _ => signalledExec_step) (.init ⟨by decide, by decide, rfl⟩) hs
  obtain ⟨l, hpath, -, hmem, -⟩ := waiting_maximal hreach hrun
  refine ⟨s, hs, l, hpath, fun h0 => ?_, (hmem 1).mpr ⟨by rw [hsecond]; rfl, hm⟩⟩
  have hasleep := ((hmem 0).mp h0).1
  rw [hfirst] at hasleep
  cases hasleep

end OsCoursework.Matchmaker
