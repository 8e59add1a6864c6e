import OsCoursework.Editor.Length
import OsCoursework.Lib.Threads

/-!
# The stress test

Processes that insert and delete at one place. Most of them delete a character of somebody
else. At any time the text has one more character there for each process between its insert
and its delete.
-/

open OsCoursework.Cstring OsCoursework.Threads OsCoursework.Transition

namespace OsCoursework.Editor.Stress

inductive Pc where
  /-- Before the test of the loop. -/
  | loop (i : Int)
  | inserted (i : Int)
  | finished
  deriving DecidableEq

structure State (m : Nat) where
  state : EditState
  pc : Fin m → Pc
  /-- What `insert` and `delete` returned. -/
  replies : List Bool

/-- The arguments of `edit test N IDX CHAR`. `IDX` is digits. -/
structure Args (m : Nat) where
  n : Fin m → Int
  idx : Nat
  ch : Fin m → CChar

variable {m : Nat}

/-- The next call of process `p`. -/
def exec (args : Args m) (s : State m) (p : Fin m) : Option (State m) :=
  match s.pc p with
  | .loop i =>
    if i < args.n p then
      let r := insert s.state args.idx (args.ch p)
      some ⟨r.2, Function.update s.pc p (.inserted i), s.replies ++ [r.1]⟩
    else some { s with pc := Function.update s.pc p .finished }
  | .inserted i =>
    let r := delete s.state args.idx
    some ⟨r.2, Function.update s.pc p (.loop (i + 1)), s.replies ++ [r.1]⟩
  | .finished => none

def system (args : Args m) (state : EditState) : System (State m) (Fin m) where
  init s := s = ⟨state, fun _ => .loop 0, []⟩
  step s p s' := exec args s p = some s'

/-! ## One call -/

theorem insert_text {s : EditState} (h : LenOk s) {idx : Nat} (hidx : idx ≤ s.len) (hroom : s.len < 75) {ch : CChar}
    (hch : ch ≠ 0) :
    (insert s idx ch).1 = true ∧ LenOk (insert s idx ch).2 ∧ (insert s idx ch).2.len = s.len + 1 ∧
      text (insert s idx ch).2.string.toList =
        (text s.string.toList).take idx ++ ch :: (text s.string.toList).drop idx := by
  have hlimit : (stringLimit : Int) - 1 = 75 := rfl
  obtain ⟨k, hk, ht⟩ := (lenOk_iff s).mp h
  unfold insert
  rw [if_neg (by omega)]
  have hcount : (s.len - idx + 1).toNat = k - idx + 1 := by omega
  simp only [Int.toNat_natCast, hcount]
  have hi : idx ≤ k := by omega
  have hmax : k + 1 < stringLimit := by omega
  refine ⟨trivial, (lenOk_iff _).mpr ⟨k + 1, ?_, ht.insert hi hmax hch⟩, rfl, ht.text_insert hi hmax hch⟩
  show s.len + 1 = _
  rw [hk, Nat.cast_succ]

theorem delete_text {s : EditState} (h : LenOk s) {idx : Nat} (hidx : idx < s.len) :
    (delete s idx).1 = true ∧ LenOk (delete s idx).2 ∧ (delete s idx).2.len = s.len - 1 ∧
      text (delete s idx).2.string.toList =
        (text s.string.toList).take idx ++ (text s.string.toList).drop (idx + 1) := by
  obtain ⟨k, hk, ht⟩ := (lenOk_iff s).mp h
  obtain ⟨k, rfl⟩ : ∃ j, k = j + 1 := ⟨k - 1, by omega⟩
  unfold delete
  rw [if_neg (by omega)]
  have hcount : (s.len - idx).toNat = k + 1 - idx := by omega
  simp only [Int.toNat_natCast, hcount]
  have hi : idx ≤ k := by omega
  refine ⟨trivial, (lenOk_iff _).mpr ⟨k, ?_, ht.delete hi⟩, rfl, ht.text_delete hi⟩
  show s.len - 1 = _
  rw [hk]
  push_cast
  ring

/-! ## The invariant -/

/-- One for a process between its insert and its delete. -/
def Pc.pending : Pc → Nat
  | .inserted _ => 1
  | _ => 0

theorem Pc.pending_le (p : Pc) : p.pending ≤ 1 := by
  unfold pending
  split <;> omega

/-- `t` is the text at the start. -/
structure Inv (args : Args m) (t : List CChar) (s : State m) : Prop where
  lenOk : LenOk s.state
  replies : ∀ r ∈ s.replies, r = true
  pending : ∃ chars : List CChar, chars.length = ∑ p, (s.pc p).pending ∧
    text s.state.string.toList = t.take args.idx ++ chars ++ t.drop args.idx

theorem Inv.len {args : Args m} {t : List CChar} {s : State m} (h : Inv args t s) (hidx : args.idx ≤ t.length) :
    s.state.len = t.length + ((∑ p, (s.pc p).pending : Nat) : Int) := by
  obtain ⟨chars, hchars, htext⟩ := h.pending
  rw [h.lenOk.2, strlen, htext, ← hchars]
  simp only [List.length_append, List.length_take, List.length_drop]
  omega

theorem exec_inv {args : Args m} {t : List CChar} (hidx : args.idx ≤ t.length) (hch : ∀ p, args.ch p ≠ 0)
    (hroom : t.length + m ≤ 75) {s s' : State m} {p : Fin m} (h : Inv args t s) (hs : exec args s p = some s') :
    Inv args t s' := by
  have hlen := h.len hidx
  obtain ⟨chars, hchars, htext⟩ := h.pending
  have hpre : (t.take args.idx).length = args.idx := by rw [List.length_take, min_eq_left hidx]
  have hreplies : ∀ r, r = true → ∀ r' ∈ s.replies ++ [r], r' = true := by
    intro r hr r' hr'
    rcases List.mem_append.mp hr' with hr' | hr'
    · exact h.replies r' hr'
    · rw [List.mem_singleton.mp hr', hr]
  unfold exec at hs
  split at hs
  case h_1 i hpc =>
    split_ifs at hs with hi
    · -- This process is not one of those that count, so there is room.
      have hthis : (s.pc p).pending = 0 := by rw [hpc]; rfl
      have hfew : ∑ q, (s.pc q).pending < m := by
        simpa using sum_lt_card (fun q => (s.pc q).pending_le) hthis
      have hsum := sum_update Pc.pending s.pc p (.inserted i)
      obtain ⟨hreply, hok, -, htext'⟩ := insert_text h.lenOk (by omega : (args.idx : Int) ≤ s.state.len) (by omega)
        (hch p)
      obtain rfl := Option.some.inj hs
      refine ⟨hok, hreplies _ hreply, args.ch p :: chars, ?_, ?_⟩
      · have hnext : (Pc.inserted i).pending = 1 := rfl
        show chars.length + 1 = ∑ q, (Function.update s.pc p (.inserted i) q).pending
        omega
      · rw [htext', htext, List.append_assoc, List.take_left' hpre, List.drop_left' hpre, List.append_assoc]
        rfl
    · have hsum := sum_update Pc.pending s.pc p .finished
      obtain rfl := Option.some.inj hs
      refine ⟨h.lenOk, h.replies, chars, ?_, htext⟩
      have hthis : (s.pc p).pending = 0 := by rw [hpc]; rfl
      have hnext : Pc.finished.pending = 0 := rfl
      show chars.length = ∑ q, (Function.update s.pc p .finished q).pending
      omega
  case h_2 i hpc =>
    have hsum := sum_update Pc.pending s.pc p (.loop (i + 1))
    have hthis : (s.pc p).pending = 1 := by rw [hpc]; rfl
    have hone : (s.pc p).pending ≤ ∑ q, (s.pc q).pending :=
      Finset.single_le_sum (f := fun q => (s.pc q).pending) (fun q _ => Nat.zero_le _) (Finset.mem_univ p)
    obtain ⟨c, chars, rfl⟩ := List.exists_cons_of_length_pos (by omega : 0 < chars.length)
    obtain ⟨hreply, hok, -, htext'⟩ := delete_text h.lenOk (by omega : (args.idx : Int) < s.state.len)
    obtain rfl := Option.some.inj hs
    refine ⟨hok, hreplies _ hreply, chars, ?_, ?_⟩
    · have hnext : (Pc.loop (i + 1)).pending = 0 := rfl
      rw [List.length_cons] at hchars
      show chars.length = ∑ q, (Function.update s.pc p (.loop (i + 1)) q).pending
      omega
    · rw [htext', htext, List.append_assoc, List.take_left' hpre, ← List.drop_drop, List.drop_left' hpre,
        List.append_assoc]
      rfl
  case h_3 => cases hs

/-- **The stress test is neutral.** Every call succeeds, and when all processes have finished the text and its
length are those at the start. -/
theorem stress_neutral {m : Nat} {args : Args m} {state : EditState} (hlen : LenOk state)
    (hidx : args.idx ≤ state.len) (hch : ∀ p, args.ch p ≠ 0) (hroom : state.len + m ≤ 75) {s : State m}
    (hs : Reachable (system args state) s) :
    (∀ r ∈ s.replies, r = true) ∧
    ((∀ p, s.pc p = .finished) →
      0 ∈ s.state.string.toList ∧ text s.state.string.toList = text state.string.toList ∧ s.state.len = state.len) := by
  have hstrlen : state.len = (text state.string.toList).length := hlen.2
  have hidx' : args.idx ≤ (text state.string.toList).length := by omega
  have hinv : Inv args (text state.string.toList) s := by
    refine hs.invariant ?_ ?_
    · rintro _ rfl
      exact ⟨hlen, by simp, [], by simp [Pc.pending], by simp⟩
    · intro _ _ _ _ hinv hstep
      exact exec_inv hidx' hch (by omega) hinv hstep
  refine ⟨hinv.replies, fun hfinished => ?_⟩
  have hnone : ∑ p, (s.pc p).pending = 0 := Finset.sum_eq_zero fun p _ => by rw [hfinished p]; rfl
  obtain ⟨chars, hchars, htext⟩ := hinv.pending
  rw [hnone] at hchars
  obtain rfl := List.length_eq_zero_iff.mp hchars
  rw [List.append_nil, List.take_append_drop] at htext
  refine ⟨hinv.lenOk.1, htext, ?_⟩
  rw [hinv.lenOk.2, hstrlen, strlen, htext]

theorem stress_neutral_two :
    let args : Args 2 := ⟨fun _ => 1, 1, fun p => if p = 0 then 0x78 else 0x79⟩
    ∃ s, runSteps (exec args) ⟨sampleState, fun _ => .loop 0, []⟩ [0, 1, 0, 1, 0, 1] = some s ∧
      text s.state.string.toList = ascii "abc" := by
  intro args
  have hrun : (runSteps (exec args) ⟨sampleState, fun _ => .loop 0, []⟩ [0, 1, 0, 1, 0, 1]).map
      (fun s => decide (∀ p, s.pc p = .finished)) = some true := by decide +kernel
  obtain ⟨s, hs, hfinished⟩ := Option.map_eq_some_iff.mp hrun
  have hreach : Reachable (system args sampleState) s := (Reachable.init rfl).runSteps (fun _ _ _ _ hstep => hstep) hs
  have hlen : LenOk sampleState := by decide +kernel
  have h := (stress_neutral hlen (by decide) (by decide) (by decide) hreach).2 (of_decide_eq_true hfinished)
  have htext : text sampleState.string.toList = ascii "abc" := by decide +kernel
  exact ⟨s, hs, h.2.1.trans htext⟩

end OsCoursework.Editor.Stress
