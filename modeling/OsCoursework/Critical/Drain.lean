import OsCoursework.Critical.Conserved

/-!
# An empty list

With as many threads as nodes, all nodes may be out of the list at once. `head` is null then,
and `enqueueNode` leaves it so: the next `dequeueNode` follows a null pointer.
-/

open OsCoursework.LinkedList OsCoursework.Transition

namespace OsCoursework.Critical

def listLen : Nat := 100

/-- `head` is not null where `dequeueNode` follows it. -/
def HeadThere {τ : Type} (s : State τ) : Prop := ∀ t node, s.pc t = .moveHead node → s.queue.head ≠ none

/-! ## Fewer threads than nodes -/

theorem head_there {τ : Type} [Fintype τ] [DecidableEq τ] {len : Nat} {s : State τ} (hcard : Fintype.card τ < len)
    (h : Reachable (system τ len) s) : HeadThere s := by
  intro t node hpc
  obtain ⟨q, l, hs⟩ := (reachable_inv hcard h).settled
  have hqueue := hs.queue_eq hpc rfl rfl
  have hlen := hs.two_le_length hcard (t := t) (by rw [hpc]; rfl)
  rw [hqueue]
  cases l with
  | nil => simp at hlen
  | cons a l =>
    rw [(path_cons.mp hs.onList.path).1]
    exact nofun

/-! ## What one thread does alone -/

section Alone

variable {τ : Type} [DecidableEq τ] {len : Nat} {s s' : State τ} {t : τ} {a b : Nat}

theorem reach_thread (h : Reachable (system τ len) s) (t : τ) (s' : State τ) (hs : execThread s t = some s') :
    Reachable (system τ len) s' :=
  h.step (e := .thread t) hs

theorem reach_readHead (h : Reachable (system τ len) s) (hpc : s.pc t = .testing) (hrun : s.running = true)
    (hlock : s.lock = 0) : Reachable (system τ len) ({ s with lock := 1 }.goto t (.moveHead s.queue.head)) := by
  have htest := reach_thread h t (s.goto t .lockDequeue) (by simp [execThread, hpc, hrun])
  have hlocked := reach_thread htest t ({ s with lock := 1 }.goto t .readHead)
    (by simp [execThread, State.lockTestAndSet, State.goto, hlock])
  exact reach_thread hlocked t _ (by simp [execThread, State.goto])

theorem reach_dequeue (h : Reachable (system τ len) s) (hpc : s.pc t = .testing) (hrun : s.running = true)
    (hlock : s.lock = 0) (hhead : s.queue.head = some a) :
    Reachable (system τ len)
      ({ s with queue := { s.queue with head := s.queue.next a } }.goto t (.readCounter (some a))) := by
  have hread := reach_readHead h hpc hrun hlock
  have hmove := reach_thread hread t
    ({ s with lock := 1, queue := { s.queue with head := s.queue.next a } }.goto t (.unlockDequeue (some a)))
    (by simp [execThread, State.withQueue, State.goto, Queue.moveHead, hhead])
  exact reach_thread hmove t _ (by simp [execThread, State.goto, hlock])

theorem reach_enqueue (h : Reachable (system τ len) s) (hpc : s.pc t = .readCounter (some a)) (hlock : s.lock = 0)
    (hcounter : s.counter a = 0) (htail : s.queue.tail = some b) :
    ∃ s', Reachable (system τ len) s' ∧ s'.pc t = .testing ∧ s'.running = s.running ∧ s'.lock = 0 ∧
      s'.queue.head = s.queue.head := by
  have hread := reach_thread h t (s.goto t (.writeCounter (some a) 0)) (by simp [execThread, hpc, hcounter])
  have hwrite := reach_thread hread t
    ({ s with counter := Function.update s.counter a 1 }.goto t (.lockEnqueue (some a)))
    (by simp [execThread, State.goto, intMax])
  generalize Function.update s.counter a 1 = counter at hwrite
  have hlocked := reach_thread hwrite t
    ({ s with counter := counter, lock := 1 }.goto t (.linkTail (some a)))
    (by simp [execThread, State.lockTestAndSet, State.goto, hlock])
  have hlink := reach_thread hlocked t
    ({ s with
      counter := counter
      lock := 1
      queue := { s.queue with next := Function.update s.queue.next b (some a) } }.goto t (.moveTail (some a)))
    (by simp [execThread, State.withQueue, State.goto, Queue.linkTail, htail])
  generalize Function.update s.queue.next b (some a) = next at hlink
  have hmove := reach_thread hlink t
    ({ s with
      counter := counter
      lock := 1
      queue := { s.queue with tail := some a, next := next } }.goto t (.endTail (some a)))
    (by simp [execThread, State.withQueue, State.goto, Queue.moveTail])
  have hend := reach_thread hmove t
    ({ s with
      counter := counter
      lock := 1
      queue := { s.queue with tail := some a, next := Function.update next a none } }.goto t (.unlockEnqueue (some a)))
    (by simp [execThread, State.withQueue, State.goto, Queue.endTail])
  have hunlock := reach_thread hend t
    ({ s with
      counter := counter
      cycles := s.cycles + 1
      lock := 0
      queue := { s.queue with tail := some a, next := Function.update next a none } }.goto t .testing)
    (by simp [execThread, State.goto])
  exact ⟨_, hunlock, by simp [State.goto], rfl, rfl, rfl⟩

end Alone

/-! ## As many threads as nodes -/

/-- The first `k` threads have a node each. -/
structure Drained {n : Nat} (len : Nat) (s : State (Fin n)) (k : Nat) : Prop where
  reachable : Reachable (system (Fin n) len) s
  running : s.running = true
  lock : s.lock = 0
  tail : s.queue.tail ≠ none
  counter : ∀ a, s.counter a = 0
  path : Path s.queue.next s.queue.head (List.range (len - k)).reverse none
  holding : ∀ t : Fin n, t.val < k → ∃ a, s.pc t = .readCounter (some a)
  testing : ∀ t : Fin n, k ≤ t.val → s.pc t = .testing

variable {n len : Nat}

theorem drained_start (hlen : 0 < len) : Drained len (start (Fin n) len) 0 where
  reachable := Reachable.init rfl
  running := rfl
  lock := rfl
  tail := by
    have hne : (List.range len).reverse ≠ [] := by simp; omega
    change (makeList len).tail ≠ none
    rw [(makeList_onList len).tail, List.getLast?_eq_some_getLast hne]
    exact nofun
  counter _ := rfl
  path := (makeList_onList len).path
  holding _ ht := absurd ht (Nat.not_lt_zero _)
  testing _ _ := rfl

theorem Drained.next {s : State (Fin n)} {k : Nat} (h : Drained len s k) (hk : k < len) (hn : k < n) :
    ∃ s' : State (Fin n), Drained len s' (k + 1) := by
  have hrange : (List.range (len - k)).reverse = (len - k - 1) :: (List.range (len - (k + 1))).reverse := by
    obtain ⟨m, hm⟩ : ∃ m, len - k = m + 1 := ⟨len - k - 1, by omega⟩
    have hm' : len - (k + 1) = m := by omega
    rw [hm, hm', List.range_succ, List.reverse_append]
    rfl
  have hpath := h.path
  rw [hrange, path_cons] at hpath
  have hnew := reach_dequeue h.reachable (t := ⟨k, hn⟩) (h.testing _ le_rfl) h.running h.lock hpath.1
  refine ⟨_, hnew, h.running, h.lock, h.tail, h.counter, hpath.2, fun t ht => ?_, fun t ht => ?_⟩
  · by_cases hlast : t.val = k
    · exact ⟨len - k - 1, by simp [State.goto, Function.update_apply, Fin.ext_iff, hlast]⟩
    · obtain ⟨a, ha⟩ := h.holding t (by omega)
      exact ⟨a, by simp [State.goto, Fin.ext_iff, hlast, ha]⟩
  · have hne : t.val ≠ k := by omega
    simp [State.goto, Fin.ext_iff, hne, h.testing t (by omega)]

theorem exists_drained (hlen : 0 < len) (hn : len ≤ n) {k : Nat} (hk : k ≤ len) :
    ∃ s : State (Fin n), Drained len s k := by
  induction k with
  | zero => exact ⟨_, drained_start hlen⟩
  | succ k ih =>
    obtain ⟨s, hs⟩ := ih (by omega)
    exact hs.next (by omega) (by omega)

/-- One of them gives its node back, and comes again. -/
theorem exists_null_head (len n : Nat) (hlen : 0 < len) (hn : len ≤ n) :
    ∃ s : State (Fin n), Reachable (system (Fin n) len) s ∧ ¬ HeadThere s := by
  obtain ⟨s, hs⟩ := exists_drained hlen hn le_rfl
  have hhead : s.queue.head = none := by simpa using hs.path
  obtain ⟨a, ha⟩ := hs.holding ⟨0, by omega⟩ hlen
  obtain ⟨b, hb⟩ := Option.ne_none_iff_exists'.mp hs.tail
  obtain ⟨s', hs', hpc, hrun, hlock, hsame⟩ := reach_enqueue hs.reachable ha hs.lock (hs.counter a) hb
  have hread := reach_readHead hs' hpc (hrun.trans hs.running) hlock
  exact ⟨_, hread, fun h => h _ _ (Function.update_self _ _ _) (hsame.trans hhead)⟩

/-- **When dequeueNode finds a node.** It does so in every run exactly when there are fewer threads than
nodes. -/
theorem head_there_iff (tcount : Int) :
    (∀ s, Reachable (system (Fin tcount.toNat) listLen) s → HeadThere s) ↔ tcount < listLen := by
  have hlen : listLen = 100 := rfl
  constructor
  · intro h
    by_contra hmany
    obtain ⟨s, hs, hnull⟩ := exists_null_head listLen tcount.toNat (by decide) (by omega)
    exact hnull (h s hs)
  · intro hfew s hs
    exact head_there (by rw [Fintype.card_fin]; omega) hs

theorem head_null_hundred :
    ¬ ∀ (tcount : Int) (s : State (Fin tcount.toNat)), Reachable (system (Fin tcount.toNat) listLen) s →
      HeadThere s := by
  intro h
  obtain ⟨s, hs, hnull⟩ := exists_null_head listLen (100 : Int).toNat (by decide) (by decide)
  exact hnull (h 100 s hs)

end OsCoursework.Critical
