import OsCoursework.Critical.Code
import OsCoursework.Lib.LinkedList
import OsCoursework.Lib.Threads

/-!
# No node is lost

An `enqueueNode` between its lock and its release is counted as done: what is left of its
statements turns the pointers into those of the list with the new node. So each of these
statements changes nothing.
-/

open OsCoursework.LinkedList OsCoursework.Threads OsCoursework.Transition

namespace OsCoursework.Critical

/-! ## The list -/

/-- The pointers link these nodes. -/
structure OnList (q : Queue) (l : List Nat) : Prop where
  path : Path q.next q.head l none
  tail : q.tail = l.getLast?

variable {q q' : Queue} {l : List Nat} {n : Nat}

theorem OnList.moveHead (h : OnList q l) (hlen : 2 ≤ l.length) (hq : q.moveHead = some q') :
    ∃ a m, l = a :: m ∧ q.head = some a ∧ OnList q' m := by
  cases l with
  | nil => simp at hlen
  | cons a l =>
    obtain ⟨hhead, hpath⟩ := h.path
    unfold Queue.moveHead at hq
    rw [hhead] at hq
    cases hq
    refine ⟨a, l, rfl, hhead, hpath, h.tail.trans ?_⟩
    cases l with
    | nil => simp at hlen
    | cons b l => rfl

/-- What is left of the statements of `enqueueNode`. -/
def Pc.settle : Pc → Queue → Option Queue
  | .linkTail node, q => (q.linkTail node).bind fun q => (q.moveTail node).bind fun q => q.endTail node
  | .moveTail node, q => (q.moveTail node).bind fun q => q.endTail node
  | .endTail node, q => q.endTail node
  | _, q => some q

theorem OnList.enqueue (h : OnList q l) (hl : l ≠ []) (hn : n ∉ l) :
    ∃ q', (Pc.linkTail (some n)).settle q = some q' ∧ OnList q' (l ++ [n]) := by
  rcases List.eq_nil_or_concat l with rfl | ⟨l, a, rfl⟩
  · exact absurd rfl hl
  · rw [List.concat_eq_append] at h hn ⊢
    have htail : q.tail = some a := by simpa using h.tail
    refine ⟨⟨q.head, some n, Function.update (Function.update q.next a (some n)) n none⟩, ?_, h.path.snoc hn, ?_⟩
    · simp only [Pc.settle, Queue.linkTail, Queue.moveTail, Queue.endTail, htail]
      rfl
    · simp

theorem addNode_onList (h : OnList q l) (hn : n ∉ l) : OnList (addNode q n) (n :: l) := by
  refine ⟨h.path.push hn, ?_⟩
  unfold addNode
  rw [h.tail]
  cases l with
  | nil => rfl
  | cons a l => simp [List.getLast?_cons]

theorem makeList_onList (len : Nat) : OnList (makeList len) (List.range len).reverse := by
  induction len with
  | zero => exact ⟨rfl, rfl⟩
  | succ len ih =>
    unfold makeList at ih ⊢
    rw [List.range_succ, List.foldl_append, List.reverse_append]
    exact addNode_onList ih (by simp)

/-! ## Where a thread is -/

/-- Between a test-and-set that found 0 and the release. -/
def Pc.inside : Pc → Bool
  | .readHead | .moveHead _ | .unlockDequeue _ | .linkTail _ | .moveTail _ | .endTail _ | .unlockEnqueue _ => true
  | _ => false

/-- The node is counted, the turn is not complete. -/
def Pc.pending : Pc → Nat
  | .lockEnqueue _ | .linkTail _ | .moveTail _ | .endTail _ | .unlockEnqueue _ => 1
  | _ => 0

/-- Inside the section of `enqueueNode`. -/
def Pc.writing : Pc → Bool
  | .linkTail _ | .moveTail _ | .endTail _ | .unlockEnqueue _ => true
  | _ => false

variable {τ : Type}

/-- What a thread knows. -/
def Pc.Ok (s : State τ) : Pc → Prop
  | .moveHead node => node = s.queue.head
  | .unlockDequeue node | .readCounter node | .lockEnqueue node => node ≠ none
  | .writeCounter node value => ∃ n, node = some n ∧ s.counter n = value
  | _ => True

theorem Pc.writing_spec {p : Pc} (h : p.writing = true) :
    p.inside = true ∧ p.held = none ∧ p.pending = 1 ∧ ∀ s : State τ, p.Ok s := by
  cases p with
  | linkTail _ | moveTail _ | endTail _ | unlockEnqueue _ => exact ⟨rfl, rfl, rfl, fun _ => trivial⟩
  | _ => cases h

theorem Pc.Ok.same {p : Pc} {s s' : State τ} (h : p.Ok s) (hhead : p.inside = true → s'.queue.head = s.queue.head)
    (hcounter : ∀ n, p.held = some n → s'.counter n = s.counter n) : p.Ok s' := by
  cases p with
  | moveHead node => exact h.trans (hhead rfl).symm
  | writeCounter node value =>
    obtain ⟨n, rfl, hn⟩ := h
    exact ⟨n, rfl, (hcounter n rfl).trans hn⟩
  | _ => exact h

section Moves

variable [DecidableEq τ] {s s' : State τ} {t u : τ}

theorem inside_goto (s : State τ) (t : τ) (p : Pc) :
    (fun u => ((s.goto t p).pc u).inside) = Function.update (fun u => (s.pc u).inside) t p.inside := by
  funext u
  unfold State.goto
  by_cases hu : u = t <;> simp [hu]

/-- What a step of a thread does. -/
inductive Move (s : State τ) (t : τ) : State τ → Prop
  | test (hpc : s.pc t = .testing) : Move s t (s.goto t (if s.running then .lockDequeue else .returned))
  | spin (hlock : s.lock ≠ 0) : Move s t { s with lock := 1 }
  | enterDequeue (hpc : s.pc t = .lockDequeue) (hlock : s.lock = 0) : Move s t ({ s with lock := 1 }.goto t .readHead)
  | readHead (hpc : s.pc t = .readHead) : Move s t (s.goto t (.moveHead s.queue.head))
  | moveHead {node : Option Nat} {q : Queue} (hpc : s.pc t = .moveHead node) (hq : s.queue.moveHead = some q) :
    Move s t ({ s with queue := q }.goto t (.unlockDequeue node))
  | leaveDequeue {node : Option Nat} (hpc : s.pc t = .unlockDequeue node) :
    Move s t ({ s with lock := 0 }.goto t (.readCounter node))
  | readCounter {n : Nat} (hpc : s.pc t = .readCounter (some n)) :
    Move s t (s.goto t (.writeCounter (some n) (s.counter n)))
  | writeCounter {n : Nat} {value : Int} (hpc : s.pc t = .writeCounter (some n) value) :
    Move s t ({ s with counter := Function.update s.counter n (value + 1) }.goto t (.lockEnqueue (some n)))
  | enterEnqueue {node : Option Nat} (hpc : s.pc t = .lockEnqueue node) (hlock : s.lock = 0) :
    Move s t ({ s with lock := 1 }.goto t (.linkTail node))
  | write {p : Pc} {q : Queue} (hpc : (s.pc t).writing = true) (hp : p.writing = true)
      (hsettle : p.settle q = (s.pc t).settle s.queue) : Move s t ({ s with queue := q }.goto t p)
  | leaveEnqueue {node : Option Nat} (hpc : s.pc t = .unlockEnqueue node) :
    Move s t ({ s with lock := 0, cycles := s.cycles + 1 }.goto t .testing)

theorem move_of_execThread (h : execThread s t = some s') : Move s t s' := by
  unfold execThread State.lockTestAndSet State.withQueue at h
  split at h
  case h_1 hpc =>
    cases h
    exact .test hpc
  case h_2 hpc =>
    split_ifs at h with hlock <;> cases h
    · exact .spin hlock
    · exact .enterDequeue hpc (not_not.mp hlock)
  case h_3 hpc =>
    cases h
    exact .readHead hpc
  case h_4 node hpc =>
    obtain ⟨q, hq, rfl⟩ := Option.map_eq_some_iff.mp h
    exact .moveHead hpc hq
  case h_5 node hpc =>
    cases h
    exact .leaveDequeue hpc
  case h_6 node hpc =>
    obtain ⟨n, rfl, rfl⟩ := Option.map_eq_some_iff.mp h
    exact .readCounter hpc
  case h_7 node value hpc =>
    split_ifs at h
    obtain ⟨n, rfl, rfl⟩ := Option.map_eq_some_iff.mp h
    exact .writeCounter hpc
  case h_8 node hpc =>
    split_ifs at h with hlock <;> cases h
    · exact .spin hlock
    · exact .enterEnqueue hpc (not_not.mp hlock)
  case h_9 node hpc | h_10 node hpc | h_11 node hpc =>
    obtain ⟨q, hq, rfl⟩ := Option.map_eq_some_iff.mp h
    refine .write (by rw [hpc]; rfl) rfl ?_
    rw [hpc]
    simp only [Pc.settle, hq, Option.bind_some]
  case h_12 node hpc =>
    cases h
    exact .leaveEnqueue hpc
  case h_13 => cases h

end Moves

/-! ## The nodes of the list -/

/-- The list has the nodes that nobody holds. -/
def Shared (len : Nat) (pc : τ → Pc) (l : List Nat) : Prop := ∀ n, n ∈ l ↔ n < len ∧ ∀ t, (pc t).held ≠ some n

section Nodes

variable [DecidableEq τ] {len : Nat} {pc : τ → Pc} {p : Pc} {t : τ} {a : Nat}

theorem held_update (pc : τ → Pc) (t : τ) (p : Pc) (u : τ) :
    (Function.update pc t p u).held = if u = t then p.held else (pc u).held := by
  by_cases hu : u = t <;> simp [hu]

theorem Shared.stay (h : Shared len pc l) (hheld : p.held = (pc t).held) : Shared len (Function.update pc t p) l := by
  have hsame : ∀ u, (Function.update pc t p u).held = (pc u).held := by
    intro u
    rw [held_update]
    split_ifs with hu
    · rw [hu, hheld]
    · rfl
  unfold Shared
  simp only [hsame]
  exact h

theorem Shared.take (h : Shared len pc (a :: l)) (hnodup : (a :: l).Nodup) (ht : (pc t).held = none)
    (hp : p.held = some a) : Shared len (Function.update pc t p) l := by
  intro n
  have hn := h n
  simp only [held_update, hp]
  constructor
  · intro hmem
    obtain ⟨hlt, hfree⟩ := hn.mp (List.mem_cons_of_mem _ hmem)
    refine ⟨hlt, fun u => ?_⟩
    split_ifs
    · rintro ⟨⟩
      exact (List.nodup_cons.mp hnodup).1 hmem
    · exact hfree u
  · rintro ⟨hlt, hfree⟩
    have hne : n ≠ a := by
      rintro rfl
      have ht' := hfree t
      rw [if_pos rfl] at ht'
      exact ht' rfl
    refine (List.mem_cons.mp (hn.mpr ⟨hlt, fun u hu => ?_⟩)).resolve_left hne
    have hu' := hfree u
    split_ifs at hu' with hut
    · rw [hut, ht] at hu
      cases hu
    · exact hu' hu

theorem Shared.give (h : Shared len pc l) (ht : (pc t).held = some a) (ha : a < len)
    (honce : ∀ u, (pc u).held = some a → u = t) (hp : p.held = none) :
    Shared len (Function.update pc t p) (l ++ [a]) := by
  intro n
  simp only [held_update, hp, List.mem_append, List.mem_singleton]
  constructor
  · rintro (hmem | rfl)
    · obtain ⟨hlt, hfree⟩ := (h n).mp hmem
      refine ⟨hlt, fun u => ?_⟩
      split_ifs
      · exact nofun
      · exact hfree u
    · refine ⟨ha, fun u => ?_⟩
      split_ifs with hut
      · exact nofun
      · exact fun hu => hut (honce u hu)
  · rintro ⟨hlt, hfree⟩
    by_cases hna : n = a
    · exact Or.inr hna
    · refine Or.inl ((h n).mpr ⟨hlt, fun u hu => ?_⟩)
      have hu' := hfree u
      split_ifs at hu' with hut
      · rw [hut, ht] at hu
        exact hna (Option.some.inj hu).symm
      · exact hu' hu

end Nodes

/-- The list, when all that hold the lock have done what is left to do. -/
structure Settled (len : Nat) (s : State τ) (q : Queue) (l : List Nat) : Prop where
  onList : OnList q l
  nodes : Shared len s.pc l
  free : (∀ t, (s.pc t).inside = false) → s.queue = q
  inside : ∀ t, (s.pc t).inside = true → (s.pc t).settle s.queue = some q

section Settled

variable {len : Nat} {s : State τ} {t : τ}

theorem Settled.of_inside (honList : OnList q l) {sem : Nat} (hexclusive : Exclusive (fun u => (s.pc u).inside) sem)
    (hin : (s.pc t).inside = true) (hsettle : (s.pc t).settle s.queue = some q) (hnodes : Shared len s.pc l) :
    Settled len s q l where
  onList := honList
  nodes := hnodes
  free hfree := by
    rw [hfree t] at hin
    cases hin
  inside u hu := by
    rw [hexclusive.one u t hu hin]
    exact hsettle

theorem Settled.of_free (honList : OnList s.queue l) {sem : Nat} (hexclusive : Exclusive (fun u => (s.pc u).inside) sem)
    (hsem : sem = 1) (hnodes : Shared len s.pc l) : Settled len s s.queue l where
  onList := honList
  nodes := hnodes
  free _ := rfl
  inside u hu := by
    rw [hexclusive.free.mp hsem u] at hu
    cases hu

theorem Settled.queue_eq (h : Settled len s q l) {p : Pc} (hpc : s.pc t = p) (hin : p.inside = true)
    (hsettle : p.settle s.queue = some s.queue) : s.queue = q := by
  have hq := h.inside t (by rw [hpc]; exact hin)
  rw [hpc, hsettle] at hq
  exact Option.some.inj hq

variable [DecidableEq τ]

theorem Settled.away (h : Settled len s q l) {p : Pc} (hin : (s.pc t).inside = false) (hp : p.inside = false)
    (hheld : p.held = (s.pc t).held) {counter : Nat → Int} :
    Settled len ({ s with counter := counter }.goto t p) q l := by
  have hinside := inside_goto { s with counter := counter } t p
  have hsame : Function.update (fun u => (s.pc u).inside) t p.inside = fun u => (s.pc u).inside := by
    rw [hp, ← hin, Function.update_eq_self]
  rw [hsame] at hinside
  refine ⟨h.onList, h.nodes.stay hheld, fun hfree => h.free fun u => ?_, fun u hu => ?_⟩
  · rw [← hfree u]
    exact (congrFun hinside u).symm
  · have hu' : (s.pc u).inside = true := (congrFun hinside u).symm.trans hu
    have hne : u ≠ t := by
      rintro rfl
      rw [hin] at hu'
      cases hu'
    have hpc : ({ s with counter := counter }.goto t p).pc u = s.pc u := Function.update_of_ne hne _ _
    rw [hpc]
    exact h.inside u hu'

end Settled

/-! ## The last scan -/

theorem scan_path {s : State τ} {fuel : Nat} {p : Option Nat} (hp : Path s.queue.next p l none)
    (hfuel : l.length < fuel) (nodes : Nat) (total : Int) :
    scan s fuel p nodes total = some (nodes + l.length, total + (l.map s.counter).sum) := by
  induction fuel generalizing l p nodes total with
  | zero => omega
  | succ fuel ih =>
    cases l with
    | nil =>
      rw [path_nil] at hp
      subst hp
      simp [scan]
    | cons a l =>
      obtain ⟨rfl, hp⟩ := hp
      rw [scan, ih hp (by simpa using hfuel)]
      simp only [List.length_cons, List.map_cons, List.sum_cons, Option.some.injEq, Prod.mk.injEq]
      exact ⟨by omega, by ring⟩

theorem Shared.perm_range {len : Nat} {pc : τ → Pc} (h : Shared len pc l) (hnodup : l.Nodup)
    (hnone : ∀ t, (pc t).held = none) : l.Perm (List.range len) := by
  rw [List.perm_ext_iff_of_nodup hnodup List.nodup_range]
  intro n
  rw [h n, List.mem_range]
  simp [hnone]

/-! ## The invariant -/

structure Inv [Fintype τ] (len : Nat) (s : State τ) : Prop where
  exclusive : Exclusive (fun t => (s.pc t).inside) (if s.lock = 0 then 1 else 0)
  settled : ∃ q l, Settled len s q l
  once : ∀ t u n, (s.pc t).held = some n → (s.pc u).held = some n → t = u
  bound : ∀ t n, (s.pc t).held = some n → n < len
  ok : ∀ t, (s.pc t).Ok s
  count : ∑ n ∈ Finset.range len, s.counter n = s.cycles + ((∑ t, (s.pc t).pending : Nat) : Int)

variable [Fintype τ] {len : Nat} {s s' : State τ} {t u : τ}

theorem inv_start (len : Nat) : Inv len (start τ len) where
  exclusive := exclusive_start
  settled := by
    refine ⟨makeList len, (List.range len).reverse, makeList_onList len, fun n => ?_, fun _ => rfl, nofun⟩
    simp [start, Pc.held]
  once := nofun
  bound := nofun
  ok _ := trivial
  count := by simp [start, Pc.pending]

/-! ## How long the list is -/

theorem Settled.length_add (h : Settled len s q l) :
    len ≤ l.length + (Finset.univ.filter fun t => (s.pc t).held ≠ none).card := by
  classical
  have hcover : Finset.range len ⊆
      l.toFinset ∪ (Finset.univ.filter fun t => (s.pc t).held ≠ none).image fun t => (s.pc t).held.getD 0 := by
    intro n hn
    rw [Finset.mem_union, List.mem_toFinset, h.nodes n]
    by_cases hheld : ∃ t, (s.pc t).held = some n
    · obtain ⟨t, ht⟩ := hheld
      exact Or.inr (Finset.mem_image.mpr ⟨t, by simp [ht], by simp [ht]⟩)
    · exact Or.inl ⟨Finset.mem_range.mp hn, fun t ht => hheld ⟨t, ht⟩⟩
  calc len = (Finset.range len).card := (Finset.card_range len).symm
    _ ≤ _ := Finset.card_le_card hcover
    _ ≤ _ := Finset.card_union_le _ _
    _ ≤ _ := Nat.add_le_add (List.toFinset_card_le l) Finset.card_image_le

theorem Settled.length_pos (h : Settled len s q l) (hcard : Fintype.card τ < len) : 0 < l.length := by
  have hlen := h.length_add
  have hle := Finset.card_le_univ (Finset.univ.filter fun t => (s.pc t).held ≠ none)
  omega

theorem Settled.two_le_length (h : Settled len s q l) (hcard : Fintype.card τ < len) (ht : (s.pc t).held = none) :
    2 ≤ l.length := by
  have hlen := h.length_add
  have hlt : (Finset.univ.filter fun t => (s.pc t).held ≠ none).card < Fintype.card τ := by
    refine Finset.card_lt_univ_of_notMem (x := t) ?_
    simp [ht]
  omega

theorem Inv.queue_eq (hinv : Inv len s) (h : Settled len s q l) (hlock : s.lock = 0) : s.queue = q :=
  h.free (hinv.exclusive.free.mp (if_pos hlock))

theorem Inv.scan_eq (hinv : Inv len s) (hreturned : ∀ t, s.pc t = .returned) {fuel : Nat} (hfuel : len < fuel) :
    scan s fuel s.queue.head 0 0 = some (len, (s.cycles : Int)) := by
  obtain ⟨q, l, hs⟩ := hinv.settled
  have hqueue := hs.free fun t => by rw [hreturned t]; rfl
  subst hqueue
  have hperm := hs.nodes.perm_range hs.onList.path.nodup fun t => by rw [hreturned t]; rfl
  have hlen : l.length = len := by simpa using hperm.length_eq
  have hsum : (l.map s.counter).sum = s.cycles := by
    rw [(hperm.map s.counter).sum_eq]
    have hcount := hinv.count
    simp only [hreturned, Pc.pending, Finset.sum_const_zero, Nat.cast_zero, add_zero] at hcount
    rw [← hcount, Finset.sum_range, ← List.sum_ofFn, List.ofFn_eq_map, ← List.map_coe_finRange_eq_range, List.map_map]
    rfl
  rw [scan_path hs.onList.path (by omega), hlen, hsum]
  simp

/-! ## One thread at a time -/

variable [DecidableEq τ]

theorem Move.exclusive (h : Move s t s') (hinv : Inv len s) :
    Exclusive (fun u => (s'.pc u).inside) (if s'.lock = 0 then 1 else 0) := by
  have hexclusive := hinv.exclusive
  have hstay : ∀ {p : Pc}, p.inside = (s.pc t).inside →
      Exclusive (Function.update (fun u => (s.pc u).inside) t p.inside) (if s.lock = 0 then 1 else 0) :=
    fun hp => hexclusive.stay hp
  cases h with
  | test hpc =>
    rw [inside_goto]
    refine hstay ?_
    rw [hpc]
    cases s.running <;> rfl
  | spin hlock => simpa [hlock] using hexclusive
  | enterDequeue hpc hlock | enterEnqueue hpc hlock =>
    rw [inside_goto]
    rw [if_pos hlock] at hexclusive
    exact hexclusive.wait Nat.one_pos
  | readHead hpc | moveHead hpc | readCounter hpc | writeCounter hpc =>
    rw [inside_goto]
    refine hstay ?_
    rw [hpc]
    rfl
  | leaveDequeue hpc | leaveEnqueue hpc =>
    rw [inside_goto]
    have hin : (s.pc t).inside = true := by rw [hpc]; rfl
    have hleave := hexclusive.post hin
    rw [hexclusive.taken hin] at hleave
    exact hleave
  | write hpc hp =>
    rw [inside_goto]
    refine hstay ?_
    rw [(Pc.writing_spec (τ := τ) hpc).1, (Pc.writing_spec (τ := τ) hp).1]

/-! ## The list after a step -/

theorem Move.settled (h : Move s t s') (hinv : Inv len s) (hcard : Fintype.card τ < len) :
    ∃ q l, Settled len s' q l := by
  obtain ⟨q, l, hs⟩ := hinv.settled
  have hexclusive := h.exclusive hinv
  cases h with
  | test hpc =>
    have hin : (if s.running = true then Pc.lockDequeue else .returned).inside = false := by split_ifs <;> rfl
    have hheld : (if s.running = true then Pc.lockDequeue else .returned).held = none := by split_ifs <;> rfl
    exact ⟨q, l, hs.away (by rw [hpc]; rfl) hin (by rw [hheld, hpc]; rfl)⟩
  | spin hlock => exact ⟨q, l, hs.onList, hs.nodes, hs.free, hs.inside⟩
  | enterDequeue hpc hlock =>
    refine ⟨q, l, .of_inside (t := t) hs.onList hexclusive ?_ ?_ (hs.nodes.stay (by rw [hpc]; rfl))⟩
    · simp [State.goto, Pc.inside]
    · simp [State.goto, Pc.settle, hinv.queue_eq hs hlock]
  | readHead hpc =>
    refine ⟨q, l, .of_inside (t := t) hs.onList hexclusive ?_ ?_ (hs.nodes.stay (by rw [hpc]; rfl))⟩
    · simp [State.goto, Pc.inside]
    · simp [State.goto, Pc.settle, hs.queue_eq hpc rfl rfl]
  | @moveHead node q' hpc hq =>
    have hqueue := hs.queue_eq hpc rfl rfl
    have hheld : (s.pc t).held = none := by rw [hpc]; rfl
    have hok := hinv.ok t
    rw [hpc] at hok
    rw [hqueue] at hq
    have hnodup := hs.onList.path.nodup
    obtain ⟨a, m, rfl, hhead, hm⟩ := hs.onList.moveHead (hs.two_le_length hcard hheld) hq
    have hnode : node = some a := hok.trans (by rw [hqueue, hhead])
    refine ⟨q', m, .of_inside (t := t) hm hexclusive ?_ ?_ (hs.nodes.take hnodup hheld hnode)⟩
    · simp [State.goto, Pc.inside]
    · simp [State.goto, Pc.settle]
  | leaveDequeue hpc =>
    have hqueue := hs.queue_eq hpc rfl rfl
    subst hqueue
    exact ⟨_, l, .of_free hs.onList hexclusive rfl (hs.nodes.stay (by rw [hpc]; rfl))⟩
  | readCounter hpc => exact ⟨q, l, hs.away (by rw [hpc]; rfl) rfl (by rw [hpc]; rfl)⟩
  | writeCounter hpc => exact ⟨q, l, hs.away (by rw [hpc]; rfl) rfl (by rw [hpc]; rfl)⟩
  | @enterEnqueue node hpc hlock =>
    have hqueue := hinv.queue_eq hs hlock
    have hok := hinv.ok t
    rw [hpc] at hok
    obtain ⟨n, rfl⟩ := Option.ne_none_iff_exists'.mp hok
    have hheld : (s.pc t).held = some n := by rw [hpc]; rfl
    have hn : n ∉ l := fun hmem => ((hs.nodes n).mp hmem).2 t hheld
    have hnodes := hs.nodes.give hheld (hinv.bound t n hheld) (fun u hu => hinv.once u t n hu hheld)
      (p := .linkTail (some n)) rfl
    obtain ⟨q', hq', hl'⟩ := hs.onList.enqueue (List.ne_nil_of_length_pos (hs.length_pos hcard)) hn
    refine ⟨q', l ++ [n], .of_inside (t := t) hl' hexclusive ?_ ?_ hnodes⟩
    · simp [State.goto, Pc.inside]
    · simpa [State.goto, hqueue] using hq'
  | write hpc hp hsettle =>
    obtain ⟨hin, hheld, -⟩ := Pc.writing_spec (τ := τ) hpc
    obtain ⟨hin', hheld', -⟩ := Pc.writing_spec (τ := τ) hp
    refine ⟨q, l, .of_inside (t := t) hs.onList hexclusive ?_ ?_ (hs.nodes.stay (hheld'.trans hheld.symm))⟩
    · simpa [State.goto] using hin'
    · simpa [State.goto, hsettle] using hs.inside t hin
  | leaveEnqueue hpc =>
    have hqueue := hs.queue_eq hpc rfl rfl
    subst hqueue
    exact ⟨_, l, .of_free hs.onList hexclusive rfl (hs.nodes.stay (by rw [hpc]; rfl))⟩

/-! ## Owners and counters -/

theorem Move.held (h : Move s t s') (hinv : Inv len s) (hcard : Fintype.card τ < len) {n : Nat}
    (hu : (s'.pc u).held = some n) :
    (s.pc u).held = some n ∨ (u = t ∧ n < len ∧ ∀ v, (s.pc v).held ≠ some n) := by
  have hkeep : ∀ {p : Pc}, p.held = none ∨ p.held = (s.pc t).held →
      (Function.update s.pc t p u).held = some n → (s.pc u).held = some n := by
    intro p hp hu
    rw [held_update] at hu
    split_ifs at hu with hut
    · rcases hp with hp | hp <;> rw [hp] at hu
      · cases hu
      · rw [hut]
        exact hu
    · exact hu
  cases h with
  | test hpc =>
    refine Or.inl (hkeep (Or.inl ?_) hu)
    split_ifs <;> rfl
  | spin hlock => exact Or.inl hu
  | enterDequeue hpc | readHead hpc | enterEnqueue hpc | leaveEnqueue hpc => exact Or.inl (hkeep (Or.inl rfl) hu)
  | leaveDequeue hpc | readCounter hpc | writeCounter hpc =>
    refine Or.inl (hkeep (Or.inr ?_) hu)
    rw [hpc]
    rfl
  | write hpc hp => exact Or.inl (hkeep (Or.inl (Pc.writing_spec (τ := τ) hp).2.1) hu)
  | @moveHead node q' hpc hq =>
    have hu' : (Function.update s.pc t (.unlockDequeue node) u).held = some n := hu
    rw [held_update] at hu'
    split_ifs at hu' with hut
    · obtain ⟨q, l, hs⟩ := hinv.settled
      have hheld : (s.pc t).held = none := by rw [hpc]; rfl
      have hok := hinv.ok t
      rw [hpc] at hok
      have hqueue := hs.queue_eq hpc rfl rfl
      rw [hqueue] at hq
      obtain ⟨a, m, rfl, hhead, -⟩ := hs.onList.moveHead (hs.two_le_length hcard hheld) hq
      have hna : some n = some a := by
        rw [← hhead, ← hqueue, ← show node = s.queue.head from hok]
        exact hu'.symm
      cases hna
      exact Or.inr ⟨hut, (hs.nodes n).mp List.mem_cons_self⟩
    · exact Or.inl hu'

theorem Move.ok (h : Move s t s') (hinv : Inv len s) (u : τ) : (s'.pc u).Ok s' := by
  have hold := hinv.ok u
  have hthis := hinv.ok t
  have hgoto : ∀ {r : State τ} {p : Pc}, r.pc = s.pc →
      (u ≠ t → (s.pc u).inside = true → r.queue.head = s.queue.head) →
      (u ≠ t → ∀ n, (s.pc u).held = some n → r.counter n = s.counter n) → p.Ok (r.goto t p) →
      ((r.goto t p).pc u).Ok (r.goto t p) := by
    intro r p hpc hhead hcounter hp
    have hplace : (r.goto t p).pc u = Function.update s.pc t p u := by rw [← hpc]; rfl
    rw [hplace]
    by_cases hu : u = t
    · rw [hu, Function.update_self]
      exact hp
    · rw [Function.update_of_ne hu]
      exact hold.same (hhead hu) (hcounter hu)
  have halone : (s.pc t).inside = true → u ≠ t → ¬ (s.pc u).inside = true :=
    fun hin hu hin' => hu (hinv.exclusive.one u t hin' hin)
  cases h with
  | test hpc =>
    refine hgoto rfl (fun _ _ => rfl) (fun _ _ _ => rfl) ?_
    split_ifs <;> trivial
  | spin hlock => exact hold.same (fun _ => rfl) fun _ _ => rfl
  | enterDequeue hpc | leaveEnqueue hpc => exact hgoto rfl (fun _ _ => rfl) (fun _ _ _ => rfl) trivial
  | readHead hpc => exact hgoto rfl (fun _ _ => rfl) (fun _ _ _ => rfl) rfl
  | @moveHead node q hpc hq =>
    refine hgoto rfl (fun hu hin => absurd hin (halone (by rw [hpc]; rfl) hu)) (fun _ _ _ => rfl) ?_
    rw [hpc] at hthis
    obtain ⟨a, ha, -⟩ := Option.map_eq_some_iff.mp hq
    exact hthis.trans_ne (by rw [ha]; exact nofun)
  | leaveDequeue hpc =>
    rw [hpc] at hthis
    exact hgoto rfl (fun _ _ => rfl) (fun _ _ _ => rfl) hthis
  | @readCounter n hpc => exact hgoto rfl (fun _ _ => rfl) (fun _ _ _ => rfl) ⟨n, rfl, rfl⟩
  | @writeCounter n value hpc =>
    refine hgoto rfl (fun _ _ => rfl) (fun hu k hk => Function.update_of_ne ?_ _ _) nofun
    rintro rfl
    exact hu (hinv.once u t k hk (by rw [hpc]; rfl))
  | enterEnqueue hpc => exact hgoto rfl (fun _ _ => rfl) (fun _ _ _ => rfl) trivial
  | write hpc hp =>
    obtain ⟨hin, -⟩ := Pc.writing_spec (τ := τ) hpc
    obtain ⟨-, -, -, hok⟩ := Pc.writing_spec (τ := τ) hp
    exact hgoto rfl (fun hu hin' => absurd hin' (halone hin hu)) (fun _ _ _ => rfl) (hok _)

theorem pending_update (s : State τ) (t : τ) (p : Pc) :
    (∑ u, (Function.update s.pc t p u).pending) + (s.pc t).pending = (∑ u, (s.pc u).pending) + p.pending :=
  sum_update Pc.pending s.pc t p

theorem pending_stay {p : Pc} (hp : p.pending = (s.pc t).pending) :
    (∑ u, (Function.update s.pc t p u).pending) = ∑ u, (s.pc u).pending := by
  have h := pending_update s t p
  omega

theorem sum_counter {n : Nat} (hn : n < len) (counter : Nat → Int) :
    ∑ i ∈ Finset.range len, Function.update counter n (counter n + 1) i =
      (∑ i ∈ Finset.range len, counter i) + 1 := by
  rw [Finset.sum_update_of_mem (Finset.mem_range.mpr hn),
    Finset.sum_eq_add_sum_sdiff_singleton_of_mem (Finset.mem_range.mpr hn) counter]
  ring

theorem Move.count (h : Move s t s') (hinv : Inv len s) :
    ∑ n ∈ Finset.range len, s'.counter n = s'.cycles + ((∑ t, (s'.pc t).pending : Nat) : Int) := by
  have hcount := hinv.count
  cases h with
  | test hpc =>
    have hstay : (if s.running = true then Pc.lockDequeue else .returned).pending = (s.pc t).pending := by
      rw [hpc]
      split_ifs <;> rfl
    rw [← pending_stay hstay] at hcount
    exact hcount
  | spin hlock => exact hcount
  | enterDequeue hpc | readHead hpc | moveHead hpc | leaveDequeue hpc | readCounter hpc | enterEnqueue hpc =>
    refine hcount.trans ?_
    rw [← pending_stay]
    · rfl
    · rw [hpc]
      rfl
  | @writeCounter n value hpc =>
    have hok := hinv.ok t
    rw [hpc] at hok
    obtain ⟨k, hk, hvalue⟩ := hok
    cases hk
    have hlt := hinv.bound t n (by rw [hpc]; rfl)
    have hpending := pending_update s t (.lockEnqueue (some n))
    have hnew : (Pc.lockEnqueue (some n)).pending = 1 := rfl
    have hold : (s.pc t).pending = 0 := by rw [hpc]; rfl
    simp only [State.goto]
    rw [← hvalue, sum_counter hlt, hcount]
    omega
  | write hpc hp =>
    rw [← pending_stay ((Pc.writing_spec (τ := τ) hp).2.2.1.trans (Pc.writing_spec (τ := τ) hpc).2.2.1.symm)] at hcount
    exact hcount
  | leaveEnqueue hpc =>
    have hpending := pending_update s t .testing
    have hnew : Pc.testing.pending = 0 := rfl
    have hold : (s.pc t).pending = 1 := by rw [hpc]; rfl
    simp only [State.goto]
    rw [hcount]
    omega

/-! ## All runs -/

theorem Move.inv (h : Move s t s') (hinv : Inv len s) (hcard : Fintype.card τ < len) : Inv len s' where
  exclusive := h.exclusive hinv
  settled := h.settled hinv hcard
  once u v n hu hv := by
    rcases h.held hinv hcard hu with hu | ⟨rfl, -, hfree⟩ <;> rcases h.held hinv hcard hv with hv | ⟨rfl, -, hfree'⟩
    · exact hinv.once u v n hu hv
    · exact absurd hu (hfree' u)
    · exact absurd hv (hfree v)
    · rfl
  bound u n hu := by
    rcases h.held hinv hcard hu with hu | ⟨-, hlt, -⟩
    · exact hinv.bound u n hu
    · exact hlt
  ok := h.ok hinv
  count := h.count hinv

theorem reachable_inv (hcard : Fintype.card τ < len) (h : Reachable (system τ len) s) : Inv len s := by
  refine h.invariant ?_ ?_
  · rintro _ rfl
    exact inv_start len
  · intro s actor s' _ hinv hstep
    cases actor with
    | stop =>
      cases hstep
      obtain ⟨q, l, hs⟩ := hinv.settled
      exact ⟨hinv.exclusive, ⟨q, l, hs.onList, hs.nodes, hs.free, hs.inside⟩, hinv.once, hinv.bound,
        fun t => (hinv.ok t).same (fun _ => rfl) fun _ _ => rfl, hinv.count⟩
    | thread t => exact (move_of_execThread hstep).inv hinv hcard

/-- **The nodes are conserved.** While nobody has the lock, the list and the threads share the nodes,
and after the last thread the scan finds all of them, with as many counts as there were turns. -/
theorem nodes_conserved {τ : Type} [Fintype τ] [DecidableEq τ] {len : Nat} (hcard : Fintype.card τ < len)
    {s : State τ} (h : Reachable (system τ len) s) :
    (s.lock = 0 → ∃ l, Path s.queue.next s.queue.head l none ∧ s.queue.tail = l.getLast? ∧ l ≠ [] ∧ l.Nodup ∧
      (∀ n, n < len ↔ n ∈ l ∨ ∃ t, (s.pc t).held = some n) ∧ ∀ t n, (s.pc t).held = some n → n ∉ l) ∧
    (∀ t u n, (s.pc t).held = some n → (s.pc u).held = some n → t = u) ∧
    ((∀ t, s.pc t = .returned) → ∀ fuel, len < fuel → scan s fuel s.queue.head 0 0 = some (len, (s.cycles : Int))) := by
  have hinv := reachable_inv hcard h
  refine ⟨fun hlock => ?_, hinv.once, fun hreturned fuel hfuel => hinv.scan_eq hreturned hfuel⟩
  obtain ⟨q, l, hs⟩ := hinv.settled
  have hqueue := hinv.queue_eq hs hlock
  subst hqueue
  refine ⟨l, hs.onList.path, hs.onList.tail, List.ne_nil_of_length_pos (hs.length_pos hcard),
    hs.onList.path.nodup, fun n => ?_, fun t n ht hn => ((hs.nodes n).mp hn).2 t ht⟩
  rw [hs.nodes n]
  constructor
  · intro hlt
    by_cases hheld : ∃ t, (s.pc t).held = some n
    · exact Or.inr hheld
    · exact Or.inl ⟨hlt, fun t ht => hheld ⟨t, ht⟩⟩
  · rintro (⟨hlt, -⟩ | ⟨t, ht⟩)
    · exact hlt
    · exact hinv.bound t n ht

/-- Two threads take turns, and each of them has a node while the other one has. -/
def twoThreads (a b : Fin 2) : List (Actor (Fin 2)) :=
  ((List.range 50).map fun i => .thread (if i % 2 = 0 then a else b)) ++ [.stop] ++ List.replicate 5 (.thread a) ++
    List.replicate 7 (.thread b)

theorem nodes_conserved_two :
    ∃ s : State (Fin 2), runSteps exec (start (Fin 2) 3) (twoThreads 0 1) = some s ∧
      scan s 4 s.queue.head 0 0 = some (3, 4) := by
  have hstate : (runSteps exec (start (Fin 2) 3) (twoThreads 0 1)).map (fun s => (s.pc 0, s.pc 1, s.cycles)) =
      some (.returned, .returned, 4) := by
    decide +kernel
  obtain ⟨s, hs, hplace⟩ := Option.map_eq_some_iff.mp hstate
  simp only [Prod.mk.injEq] at hplace
  obtain ⟨h0, h1, hcycles⟩ := hplace
  have hall : ∀ t, s.pc t = .returned := by
    intro t
    fin_cases t
    · exact h0
    · exact h1
  have hreach : Reachable (system (Fin 2) 3) s := (Reachable.init rfl).runSteps (fun _ _ _ _ hstep => hstep) hs
  have hscan := (nodes_conserved (by decide) hreach).2.2 hall 4 (by decide)
  rw [hcycles] at hscan
  exact ⟨s, hs, hscan⟩

end OsCoursework.Critical
