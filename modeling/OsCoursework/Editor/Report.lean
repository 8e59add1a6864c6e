import OsCoursework.Editor.Length
import OsCoursework.Lib.Threads

/-!
# Reports during edits

Processes that each run one command, `report` among them. One step is one semaphore
operation, the test of the arguments, one `strncpy` or `memmove`, one update of a field, or
one argument of the `printf` of `report`, which takes no lock.
-/

open OsCoursework.Cstring OsCoursework.Threads OsCoursework.Transition

namespace OsCoursework.Editor.Report

/-- The updates between `sem_wait` and `sem_post`. -/
inductive Write where
  | savePrev3
  | savePrev2
  | savePrev1
  | openGap (idx : Nat)
  | putChar (idx : Nat) (ch : CChar)
  | closeGap (idx : Nat)
  | incLen
  | decLen
  | countUp
  | restoreString
  | restorePrev1
  | restorePrev2
  | countDown
  deriving DecidableEq

def Write.apply (state : EditState) : Write → EditState
  | .savePrev3 => { state with prev3 := copy state.prev2 }
  | .savePrev2 => { state with prev2 := copy state.prev1 }
  | .savePrev1 => { state with prev1 := copy state.string }
  | .openGap idx => { state with string := memmove state.string (idx + 1) idx (state.len - idx + 1).toNat }
  | .putChar idx ch => { state with string := state.string.setIfInBounds idx ch }
  | .closeGap idx => { state with string := memmove state.string idx (idx + 1) (state.len - idx).toNat }
  | .incLen => { state with len := state.len + 1 }
  | .decLen => { state with len := state.len - 1 }
  | .countUp =>
    { state with numUndos := if state.numUndos < undoLimit then state.numUndos + 1 else state.numUndos }
  | .restoreString => { state with string := copy state.prev1 }
  | .restorePrev1 => { state with prev1 := copy state.prev2 }
  | .restorePrev2 => { state with prev2 := copy state.prev3 }
  | .countDown => { state with numUndos := state.numUndos - 1 }

/-- What follows the test of the arguments. -/
def writes (state : EditState) : Command → List Write
  | .insert idx ch =>
    if idx < 0 ∨ idx > state.len ∨ state.len ≥ stringLimit - 1 then []
    else [.savePrev3, .savePrev2, .savePrev1, .openGap idx.toNat, .putChar idx.toNat ch, .incLen, .countUp]
  | .delete idx =>
    if idx < 0 ∨ idx ≥ state.len then []
    else [.savePrev3, .savePrev2, .savePrev1, .closeGap idx.toNat, .decLen, .countUp]
  | .undo =>
    if state.numUndos = 0 then [] else [.restoreString, .restorePrev1, .restorePrev2, .countDown]

theorem writes_exec (state : EditState) (c : Command) :
    (writes state c).foldl Write.apply state = (c.exec state).2 := by
  cases c with
  | insert idx ch =>
    simp only [writes, Command.exec, Editor.insert]
    split_ifs with h
    · rfl
    · have hidx : (idx.toNat : Int) = idx := by omega
      simp only [List.foldl_cons, List.foldl_nil, Write.apply, EditState.edit, hidx]
  | delete idx =>
    simp only [writes, Command.exec, Editor.delete]
    split_ifs with h
    · rfl
    · have hidx : (idx.toNat : Int) = idx := by omega
      simp only [List.foldl_cons, List.foldl_nil, Write.apply, EditState.edit, hidx]
  | undo =>
    simp only [writes, Command.exec, Editor.undo]
    split_ifs with h
    · rfl
    · simp only [List.foldl_cons, List.foldl_nil, Write.apply]

/-- What a report prints: the text and the number of undo operations. -/
def shown (state : EditState) : List CChar × Int := (text state.string.toList, state.numUndos)

/-! ## The processes -/

inductive Job where
  | edit (command : Command)
  | report

inductive Pc where
  | start
  /-- Past `sem_wait`. -/
  | checking
  /-- `changed` when one of the updates so far has changed what is `shown`. -/
  | writing (changed : Bool) (rest : List Write)
  | readingText (count : Int)
  | finished
  deriving DecidableEq

/-- Between `sem_wait` and `sem_post`. -/
def Pc.inside : Pc → Bool
  | .checking => true
  | .writing _ _ => true
  | _ => false

def Pc.changed : Pc → Bool
  | .writing changed _ => changed
  | _ => false

def Pc.rest : Pc → List Write
  | .writing _ rest => rest
  | _ => []

def Pc.countRead : Pc → Option Int
  | .readingText count => some count
  | _ => none

structure State (χ : Type) where
  state : EditState
  sem : Nat
  pc : χ → Pc
  printed : List (List CChar × Int)
  /-- What was `shown` at each moment when the semaphore was free. -/
  quiet : List (List CChar × Int)

def start (χ : Type) (state : EditState) : State χ where
  state := state
  sem := 1
  pc _ := .start
  printed := []
  quiet := [shown state]

variable {χ : Type} [DecidableEq χ]

def State.goto (s : State χ) (p : χ) (pc : Pc) : State χ :=
  { s with
    pc := Function.update s.pc p pc
    quiet := if s.sem = 1 then s.quiet ++ [shown s.state] else s.quiet }

/-- The next step of process `p`. `none` is one that is blocked or has finished. -/
def exec (jobs : χ → Job) (s : State χ) (p : χ) : Option (State χ) :=
  match s.pc p, jobs p with
  | .start, .edit _ => if 0 < s.sem then some ({ s with sem := s.sem - 1 }.goto p .checking) else none
  | .start, .report => some (s.goto p (.readingText s.state.numUndos))
  | .checking, .edit command => some (s.goto p (.writing false (writes s.state command)))
  | .writing changed (w :: rest), _ =>
    let state := w.apply s.state
    some ({ s with state := state }.goto p (.writing (changed || decide (shown state ≠ shown s.state)) rest))
  | .writing _ [], _ => some ({ s with sem := s.sem + 1 }.goto p .finished)
  | .readingText count, _ =>
    some ({ s with printed := s.printed ++ [(text s.state.string.toList, count)] }.goto p .finished)
  | _, _ => none

def system (jobs : χ → Job) (state : EditState) : System (State χ) χ where
  init s := s = start χ state
  step s p s' := exec jobs s p = some s'

inductive Move (s : State χ) (p : χ) : State χ → Prop
  | wait (hpc : s.pc p = .start) (hsem : 0 < s.sem) : Move s p ({ s with sem := s.sem - 1 }.goto p .checking)
  | check {command : Command} (hpc : s.pc p = .checking) :
    Move s p (s.goto p (.writing false (writes s.state command)))
  | write {changed : Bool} {w : Write} {rest : List Write} (hpc : s.pc p = .writing changed (w :: rest)) :
    Move s p ({ s with state := w.apply s.state }.goto p
      (.writing (changed || decide (shown (w.apply s.state) ≠ shown s.state)) rest))
  | post {changed : Bool} (hpc : s.pc p = .writing changed []) : Move s p ({ s with sem := s.sem + 1 }.goto p .finished)
  | readCount (hpc : s.pc p = .start) : Move s p (s.goto p (.readingText s.state.numUndos))
  | print {count : Int} (hpc : s.pc p = .readingText count) :
    Move s p ({ s with printed := s.printed ++ [(text s.state.string.toList, count)] }.goto p .finished)

variable {jobs : χ → Job} {s s' : State χ} {p : χ}

theorem move_of_exec (h : exec jobs s p = some s') : Move s p s' := by
  unfold exec at h
  split at h
  case h_1 hpc _ =>
    split_ifs at h with hsem
    cases h
    exact .wait hpc hsem
  case h_2 hpc _ =>
    cases h
    exact .readCount hpc
  case h_3 hpc _ =>
    cases h
    exact .check hpc
  case h_4 hpc =>
    cases h
    exact .write hpc
  case h_5 hpc =>
    cases h
    exact .post hpc
  case h_6 hpc =>
    cases h
    exact .print hpc
  case h_7 => cases h

theorem mem_goto {pc : Pc} {x : List CChar × Int} (h : x ∈ s.quiet) : x ∈ (s.goto p pc).quiet := by
  unfold State.goto
  split_ifs
  · exact List.mem_append_left _ h
  · exact h

theorem shown_mem_goto {pc : Pc} (h : s.sem = 1) : shown s.state ∈ (s.goto p pc).quiet := by
  unfold State.goto
  rw [if_pos h]
  exact List.mem_append_right _ (List.mem_singleton.mpr rfl)

/-! ## The lock -/

def State.inside (s : State χ) (p : χ) : Bool := (s.pc p).inside

theorem goto_inside {pc : Pc} : (s.goto p pc).inside = Function.update s.inside p pc.inside :=
  Function.comp_update Pc.inside s.pc p pc

theorem Move.exclusive (h : Exclusive s.inside s.sem) (hs : Move s p s') : Exclusive s'.inside s'.sem := by
  cases hs with
  | wait hpc hsem =>
    rw [goto_inside]
    exact h.wait hsem
  | check hpc =>
    rw [goto_inside]
    exact h.stay (congrArg Pc.inside hpc).symm
  | write hpc =>
    rw [goto_inside]
    exact h.stay (congrArg Pc.inside hpc).symm
  | post hpc =>
    rw [goto_inside]
    exact h.post (congrArg Pc.inside hpc)
  | readCount hpc =>
    rw [goto_inside]
    exact h.stay (congrArg Pc.inside hpc).symm
  | print hpc =>
    rw [goto_inside]
    exact h.stay (congrArg Pc.inside hpc).symm

/-! ## Whole commands

The process that holds the lock is on its way to the state that a whole command gives.
-/

structure Atomic (state : EditState) (s : State χ) : Prop where
  free : s.sem = 1 → ∃ cs, s.state = run state cs
  inside : ∀ p, s.inside p = true → ∃ cs, (s.pc p).rest.foldl Write.apply s.state = run state cs

theorem atomic_goto {state : EditState} {pc : Pc} (hfree : s.sem = 1 → ∃ cs, s.state = run state cs)
    (hthis : pc.inside = true → ∃ cs, pc.rest.foldl Write.apply s.state = run state cs)
    (hothers : ∀ q, q ≠ p → s.inside q = true → ∃ cs, (s.pc q).rest.foldl Write.apply s.state = run state cs) :
    Atomic state (s.goto p pc) where
  free := hfree
  inside q hq := by
    rw [goto_inside] at hq
    show ∃ cs, (Function.update s.pc p pc q).rest.foldl Write.apply s.state = run state cs
    by_cases hqp : q = p
    · rw [hqp, Function.update_self] at hq ⊢
      exact hthis hq
    · rw [Function.update_of_ne hqp] at hq ⊢
      exact hothers q hqp hq

theorem Move.atomic {state : EditState} (hlock : Exclusive s.inside s.sem) (h : Atomic state s) (hs : Move s p s') :
    Atomic state s' := by
  cases hs with
  | wait hpc hsem =>
    have hone := hlock.one_of_pos hsem
    obtain ⟨cs, hcs⟩ := h.free hone
    refine atomic_goto (fun _ => ⟨cs, hcs⟩) (fun _ => ⟨cs, hcs⟩) fun q _ hq => ?_
    exact absurd ((hlock.free.mp hone q).symm.trans hq) Bool.false_ne_true
  | @check command hpc =>
    have hin : s.inside p = true := congrArg Pc.inside hpc
    obtain ⟨cs, hcs⟩ := h.inside p hin
    rw [hpc] at hcs
    refine atomic_goto h.free (fun _ => ⟨cs ++ [command], ?_⟩) fun q _ hq => h.inside q hq
    rw [run_append, ← hcs]
    exact writes_exec s.state command
  | @write changed w rest hpc =>
    have hin : s.inside p = true := congrArg Pc.inside hpc
    obtain ⟨cs, hcs⟩ := h.inside p hin
    rw [hpc] at hcs
    refine atomic_goto (fun hone => ?_) (fun _ => ⟨cs, hcs⟩) fun q hqp hq => ?_
    · exact absurd ((hlock.taken hin).symm.trans hone) Nat.zero_ne_one
    · exact absurd (hlock.one q p hq hin) hqp
  | post hpc =>
    have hin : s.inside p = true := congrArg Pc.inside hpc
    obtain ⟨cs, hcs⟩ := h.inside p hin
    rw [hpc] at hcs
    exact atomic_goto (fun _ => ⟨cs, hcs⟩) (fun hq => by cases hq) fun q hqp hq => absurd (hlock.one q p hq hin) hqp
  | readCount hpc => exact atomic_goto h.free (fun hq => by cases hq) fun q _ hq => h.inside q hq
  | print hpc => exact atomic_goto h.free (fun hq => by cases hq) fun q _ hq => h.inside q hq

/-- Whenever nobody holds the lock, the shared state is that after some whole commands. -/
theorem locked_editor_atomic {state : EditState} (h : Reachable (system jobs state) s) :
    Exclusive s.inside s.sem ∧ Atomic state s := by
  refine h.invariant (P := fun s => Exclusive s.inside s.sem ∧ Atomic state s) ?_ ?_
  · rintro _ rfl
    exact ⟨exclusive_start, fun _ => ⟨[], rfl⟩, fun _ hp => by cases hp⟩
  · intro _ _ _ _ hinv hstep
    have hs := move_of_exec hstep
    exact ⟨hs.exclusive hinv.1, hs.atomic hinv.1 hinv.2⟩

/-! ## What the reports print -/

/-- A report reads the text when no edit in progress has changed what is shown, and `num_undos` is what it has
read. -/
def Apart (s : State χ) (p : χ) : Prop :=
  ∀ count ∈ (s.pc p).countRead, (∀ q, (s.pc q).changed = false) ∧ s.state.numUndos = count

instance [Fintype χ] (s : State χ) (p : χ) : Decidable (Apart s p) :=
  inferInstanceAs (Decidable (∀ count ∈ (s.pc p).countRead, (∀ q, (s.pc q).changed = false) ∧ s.state.numUndos = count))

structure Quiet (s : State χ) : Prop where
  now : (∀ q, (s.pc q).changed = false) → shown s.state ∈ s.quiet
  printed : ∀ x ∈ s.printed, x ∈ s.quiet

theorem unchanged_of_goto {pc : Pc} (hpc : (s.pc p).changed = false)
    (h : ∀ q, (Function.update s.pc p pc q).changed = false) (q : χ) : (s.pc q).changed = false := by
  by_cases hq : q = p
  · rw [hq, hpc]
  · have hother := h q
    rwa [Function.update_of_ne hq] at hother

theorem Move.quiet (hlock : Exclusive s.inside s.sem) (h : Quiet s) (hgood : Apart s p) (hs : Move s p s') :
    Quiet s' := by
  cases hs with
  | wait hpc hsem =>
    refine ⟨fun hq => mem_goto (h.now ?_), fun x hx => mem_goto (h.printed x hx)⟩
    exact unchanged_of_goto (by rw [hpc]; rfl) hq
  | check hpc =>
    refine ⟨fun hq => mem_goto (h.now ?_), fun x hx => mem_goto (h.printed x hx)⟩
    exact unchanged_of_goto (by rw [hpc]; rfl) hq
  | @write changed w rest hpc =>
    refine ⟨fun hq => mem_goto ?_, fun x hx => mem_goto (h.printed x hx)⟩
    have hthis := hq p
    simp only [State.goto, Function.update_self, Pc.changed, Bool.or_eq_false_iff, decide_eq_false_iff_not,
      not_not] at hthis
    show shown (w.apply s.state) ∈ s.quiet
    rw [hthis.2]
    exact h.now (unchanged_of_goto (by rw [hpc]; exact hthis.1) hq)
  | post hpc =>
    have hin : s.inside p = true := congrArg Pc.inside hpc
    have hsem := hlock.taken hin
    refine ⟨fun _ => shown_mem_goto ?_, fun x hx => mem_goto (h.printed x hx)⟩
    show s.sem + 1 = 1
    omega
  | readCount hpc =>
    refine ⟨fun hq => mem_goto (h.now ?_), fun x hx => mem_goto (h.printed x hx)⟩
    exact unchanged_of_goto (by rw [hpc]; rfl) hq
  | @print count hpc =>
    obtain ⟨hunchanged, hcount⟩ := hgood count (by rw [hpc]; rfl)
    refine ⟨fun _ => mem_goto (h.now hunchanged), fun x hx => mem_goto ?_⟩
    rcases List.mem_append.mp hx with hx | hx
    · exact h.printed x hx
    · rw [List.mem_singleton.mp hx, ← hcount]
      exact h.now hunchanged

/-- **Reports that are apart from the edits.** What they print was shown at a moment when nobody was between
`sem_wait` and `sem_post`. -/
theorem reports_quiet {χ : Type} [DecidableEq χ] {jobs : χ → Job} {state : EditState} {s : State χ}
    (h : Reachable ((system jobs state).restrict Apart) s) :
    (s.sem = 1 ↔ ∀ p, (s.pc p).inside = false) ∧ ∀ x ∈ s.printed, x ∈ s.quiet := by
  have hinv : Exclusive s.inside s.sem ∧ Quiet s := by
    refine h.invariant (P := fun s => Exclusive s.inside s.sem ∧ Quiet s) ?_ ?_
    · rintro _ rfl
      exact ⟨exclusive_start, fun _ => List.mem_singleton.mpr rfl, fun x hx => by cases hx⟩
    · rintro s p s' - ⟨hlock, hquiet⟩ ⟨hgood, hstep⟩
      have hs := move_of_exec hstep
      exact ⟨hs.exclusive hlock, hs.quiet hlock hquiet hgood⟩
  exact ⟨hinv.1.free, hinv.2.printed⟩

/-- Process 0 inserts an `x` at the start of "abc". -/
def sampleJobs (p : Fin 2) : Job := if p = 0 then .edit (.insert 0 0x78) else .report

theorem reports_quiet_sample : ∃ s,
    runSteps (fun s p => if Apart s p then exec sampleJobs s p else none) (start (Fin 2) sampleState)
      (List.replicate 10 0 ++ [1, 1]) = some s ∧
    s.printed = [(ascii "xabc", 1)] ∧ ∀ x ∈ s.printed, x ∈ s.quiet := by
  have hrun : (runSteps (fun s p => if Apart s p then exec sampleJobs s p else none) (start (Fin 2) sampleState)
      (List.replicate 10 0 ++ [1, 1])).map State.printed = some [(ascii "xabc", 1)] := by decide +kernel
  obtain ⟨s, hs, hprinted⟩ := Option.map_eq_some_iff.mp hrun
  have hreach : Reachable ((system sampleJobs sampleState).restrict Apart) s :=
    (Reachable.init rfl).runSteps (fun _ _ _ _ he => Option.ite_none_right_eq_some.mp he) hs
  exact ⟨s, hs, hprinted, (reports_quiet hreach).2⟩

/-- The report reads the text between the `memmove` and the store of the character. -/
theorem report_shows_gap : ∃ s,
    runSteps (exec sampleJobs) (start (Fin 2) sampleState) (List.replicate 6 0 ++ [1, 1] ++ List.replicate 4 0) =
      some s ∧
    (∀ p, s.pc p = .finished) ∧ s.printed = [(ascii "aabc", 0)] ∧ (ascii "aabc", 0) ∉ s.quiet := by
  have hrun : (runSteps (exec sampleJobs) (start (Fin 2) sampleState)
      (List.replicate 6 0 ++ [1, 1] ++ List.replicate 4 0)).map
        (fun s => (decide (∀ p, s.pc p = .finished), s.printed, s.quiet.dedup)) =
      some (true, [(ascii "aabc", 0)], [(ascii "abc", 0), (ascii "xabc", 1)]) := by decide +kernel
  obtain ⟨s, hs, heq⟩ := Option.map_eq_some_iff.mp hrun
  obtain ⟨hfinished, heq⟩ := Prod.mk.inj heq
  obtain ⟨hprinted, hquiet⟩ := Prod.mk.inj heq
  refine ⟨s, hs, of_decide_eq_true hfinished, hprinted, ?_⟩
  rw [← List.mem_dedup, hquiet]
  decide +kernel

end OsCoursework.Editor.Report
