import OsCoursework.Stash.Code

/-!
# How many shells there are

A child leaves `runCommand` as another program, or, when `execvp` fails, as one more shell. A child
without the name of a program is killed in `execvp`.
-/

open OsCoursework.Cstring OsCoursework.Transition

namespace OsCoursework.Stash

/-- In the loop of `main`, waits included. -/
def Process.inLoop : Process → Bool
  | .reading _ | .waiting _ _ _ => true
  | _ => false

def Process.isChild : Process → Bool
  | .child _ _ => true
  | _ => false

/-- Only the first shell is in the loop of `main`. -/
def OneShell (s : State) : Prop := ∀ q, (s.process q).inLoop = true → q = firstPid

/-- The child has the name of a program. -/
def named (s : State) (pid : Nat) : Bool :=
  match s.process pid with
  | .child sh _ => (sh.words 0).str.isSome
  | _ => false

/-- The program of the command is there, if it has a name. -/
def Found (s : State) : Event → Prop
  | .execvp pid found => named s pid = true → found = true
  | _ => True

instance (s : State) : (e : Event) → Decidable (Found s e)
  | .execvp pid found => inferInstanceAs (Decidable (named s pid = true → found = true))
  | .line _ _ _ _ | .wake _ _ | .ends _ | .eof _ => isTrue trivial

/-! ## Steps -/

/-- A step, with what the process was before it. -/
inductive Move (s : State) : Event → State → Prop
  | line {pid sh line found forks t} (hpid : s.process pid = .reading sh)
    (h : mainLoop s pid sh line found forks = some t) : Move s (.line pid line found forks) t
  | program {pid sh args} (hpid : s.process pid = .child sh args) : Move s (.execvp pid true) (s.set pid .program)
  | noProgram {pid sh args command} (hpid : s.process pid = .child sh args) (hname : sh.words 0 = .word command) :
    Move s (.execvp pid false) ((s.print (.cantRun command)).again pid sh args)
  | noName {pid sh args found} (hpid : s.process pid = .child sh args) (hname : sh.words 0 = .null) :
    Move s (.execvp pid found) (s.set pid .exited)
  | wake {pid id sh args child t} (hpid : s.process pid = .waiting id sh args) (h : reap s pid id child = some t) :
    Move s (.wake pid child) (t.again pid sh args)
  | ends {pid} (hpid : s.process pid = .program) : Move s (.ends pid) (s.set pid .exited)
  | eof {pid sh} (hpid : s.process pid = .reading sh) : Move s (.eof pid) (s.set pid .exited)

variable {s s' t : State} {pid q args : Nat} {sh : Shell} {p : Process}

theorem follow_cases {slot : Slot} {next : List CChar → Option State} (h : s.follow pid slot next = some s') :
    (∃ str, slot = .word str ∧ next str = some s') ∨ (slot = .null ∧ s' = s.set pid .exited) := by
  cases slot with
  | word str => exact Or.inl ⟨str, rfl, h⟩
  | null => exact Or.inr ⟨rfl, (Option.some.inj h).symm⟩
  | unset => cases h
  | freed => cases h

theorem move_of_exec {e : Event} (h : exec s e = some s') : Move s e s' := by
  cases e with
  | line pid line found forks =>
    simp only [exec] at h
    split at h
    case h_1 sh hpid => exact .line hpid (Option.ite_none_right_eq_some.mp h).2
    case h_2 => cases h
  | execvp pid found =>
    simp only [exec] at h
    split at h
    case h_1 sh args hpid =>
      rcases follow_cases h with ⟨command, hname, h⟩ | ⟨hname, rfl⟩
      · cases h
        cases found with
        | true => exact .program hpid
        | false => exact .noProgram hpid hname
      · exact .noName hpid hname
    case h_2 => cases h
  | wake pid child =>
    simp only [exec] at h
    split at h
    case h_1 id sh args hpid =>
      obtain ⟨t, ht, rfl⟩ := Option.map_eq_some_iff.mp h
      exact .wake hpid ht
    case h_2 => cases h
  | ends pid =>
    simp only [exec] at h
    split at h <;> cases h
    case h_1 hpid => exact .ends hpid
  | eof pid =>
    simp only [exec] at h
    split at h <;> cases h
    case h_1 sh hpid => exact .eof hpid

theorem reap_cases {id child : Option Nat} (h : reap s q id child = some s') : s' = s ∨ ∃ c, s' = s.set c .reaped := by
  cases id with
  | some c =>
    obtain ⟨-, h⟩ := Option.ite_none_right_eq_some.mp h
    cases h
    exact Or.inr ⟨c, rfl⟩
  | none =>
    cases child with
    | some c =>
      obtain ⟨-, h⟩ := Option.ite_none_right_eq_some.mp h
      cases h
      exact Or.inr ⟨c, rfl⟩
    | none =>
      obtain ⟨-, h⟩ := Option.ite_none_right_eq_some.mp h
      cases h
      exact Or.inl rfl

/-! ## What a shell changes -/

/-- Of all that exist, only `pid` comes to be in the loop, and nobody comes to be a child. -/
structure Changes (s s' : State) (pid : Nat) : Prop where
  nextPid : s.nextPid ≤ s'.nextPid
  inLoop : ∀ q, (s'.process q).inLoop = true → q = pid ∨ (s.process q).inLoop = true
  isChild : ∀ q, (s'.process q).isChild = true → s.nextPid ≤ q ∨ (s.process q).isChild = true

theorem Changes.of_eq (hnext : s'.nextPid = s.nextPid) (hprocess : s'.process = s.process) : Changes s s' pid where
  nextPid := hnext.ge
  inLoop q hq := by
    rw [hprocess] at hq
    exact Or.inr hq
  isChild q hq := by
    rw [hprocess] at hq
    exact Or.inr hq

theorem Changes.trans (h : Changes s t pid) (h' : Changes t s' pid) : Changes s s' pid where
  nextPid := h.nextPid.trans h'.nextPid
  inLoop q hq := (h'.inLoop q hq).elim Or.inl (h.inLoop q)
  isChild q hq := (h'.isChild q hq).elim (fun hle => Or.inl (h.nextPid.trans hle)) (h.isChild q)

theorem set_process (s : State) (pid : Nat) (p : Process) (q : Nat) :
    (s.set pid p).process q = if q = pid then p else s.process q :=
  Function.update_apply _ _ _ _

theorem changes_set (hloop : p.inLoop = true → q = pid) (hchild : p.isChild = true → s.nextPid ≤ q) :
    Changes s (s.set q p) pid where
  nextPid := le_rfl
  inLoop r hr := by
    rw [set_process] at hr
    split_ifs at hr with hrq
    · exact Or.inl (hrq.trans (hloop hr))
    · exact Or.inr hr
  isChild r hr := by
    rw [set_process] at hr
    split_ifs at hr with hrq
    · exact Or.inl ((hchild hr).trans_eq hrq.symm)
    · exact Or.inr hr

theorem changes_print (s : State) (message : Message) (pid : Nat) : Changes s (s.print message) pid := .of_eq rfl rfl

theorem changes_again (s : State) (pid : Nat) (sh : Shell) (args : Nat) : Changes s (s.again pid sh args) pid :=
  (changes_print s _ pid).trans (changes_set (fun _ => rfl) nofun)

theorem changes_invalid (s : State) (pid : Nat) (sh : Shell) (args : Nat) :
    Changes s ((s.print .invalid).again pid sh args) pid :=
  (changes_print s _ pid).trans (changes_again _ pid sh args)

theorem changes_checkSibling (s : State) (pid : Nat) (sh : Shell) : Changes s (checkSibling s pid sh).1 pid := by
  unfold checkSibling
  split_ifs
  · exact (changes_print s _ pid).trans (changes_set nofun nofun)
  · exact .of_eq rfl rfl

theorem changes_parentBranch (s : State) (pid : Nat) (sh : Shell) (args : Nat) (background : Bool) (id : Option Nat) :
    Changes s (parentBranch s pid sh args background id) pid := by
  unfold parentBranch
  split_ifs
  · exact (changes_print s _ pid).trans (changes_again _ pid _ args)
  · exact changes_set (fun _ => rfl) nofun

theorem changes_fork (s : State) (pid : Nat) (parent : Nat → Nat) (sh : Shell) (args : Nat) :
    Changes s ({ s with parent := parent, nextPid := s.nextPid + 1 }.set s.nextPid (.child sh args)) pid where
  nextPid := Nat.le_succ _
  inLoop q hq := by
    rw [set_process] at hq
    split_ifs at hq
    · cases hq
    · exact Or.inr hq
  isChild q hq := by
    rw [set_process] at hq
    split_ifs at hq with hqc
    · exact Or.inl hqc.ge
    · exact Or.inr hq

theorem runExit_changes (h : runExit s pid sh args = some s') : Changes s s' pid := by
  rcases follow_cases h with ⟨word, -, h⟩ | ⟨-, rfl⟩
  · cases h
    split_ifs
    · exact changes_invalid s pid sh args
    · exact changes_set nofun nofun
  · exact changes_set nofun nofun

theorem runCd_changes {found : Bool} (h : runCd s pid sh args found = some s') : Changes s s' pid := by
  unfold runCd at h
  split_ifs at h
  · cases h
    exact changes_invalid s pid sh args
  · obtain ⟨word, -, rfl⟩ := Option.map_eq_some_iff.mp h
    exact changes_again s pid sh args
  · obtain ⟨word, -, rfl⟩ := Option.map_eq_some_iff.mp h
    exact changes_invalid s pid sh args

theorem runCommand_changes {forks : Bool} (h : runCommand s pid sh args forks = some s') : Changes s s' pid := by
  obtain ⟨last, -, h⟩ := Option.bind_eq_some_iff.mp h
  have hsibling := changes_checkSibling s pid sh
  have hforked := fun sh parent background id => hsibling.trans
    ((changes_fork _ pid parent sh args).trans (changes_parentBranch _ pid sh args background id))
  have hfailed := fun sh background => hsibling.trans
    ((changes_print _ .cantCreate pid).trans (changes_parentBranch _ pid sh args background none))
  simp only at h
  split_ifs at h <;> cases h
  · exact hforked _ _ _ _
  · exact hfailed _ _
  · exact hforked _ _ _ _
  · exact hfailed _ _

theorem mainLoop_changes {line : List CChar} {found forks : Bool} (h : mainLoop s pid sh line found forks = some s') :
    Changes s s' pid := by
  unfold mainLoop at h
  split_ifs at h
  · cases h
    exact (changes_print s _ pid).trans (changes_set (fun _ => rfl) nofun)
  · rcases follow_cases h with ⟨command, -, h⟩ | ⟨-, rfl⟩
    · split_ifs at h
      · exact runCd_changes h
      · exact runExit_changes h
      · exact runCommand_changes h
    · exact changes_set nofun nofun

theorem reap_changes {id child : Option Nat} (h : reap s q id child = some s') : Changes s s' pid := by
  rcases reap_cases h with rfl | ⟨c, rfl⟩
  · exact .of_eq rfl rfl
  · exact changes_set nofun nofun

/-! ## All runs -/

structure Inv (s : State) : Prop where
  one : OneShell s
  first : (s.process firstPid).isChild = false
  nextPid : firstPid < s.nextPid

theorem inv_start : Inv start where
  one q hq := by
    by_contra hne
    simp only [start, Function.update_of_ne hne] at hq
    cases hq
  first := rfl
  nextPid := Nat.lt_succ_self _

theorem Inv.changes (h : Inv s) (hc : Changes s s' pid) (hpid : pid = firstPid) : Inv s' where
  one q hq := (hc.inLoop q hq).elim (fun hq => hq.trans hpid) (h.one q)
  first := by
    by_contra hchild
    have hnext := h.nextPid
    rcases hc.isChild firstPid (by simpa using hchild) with hle | hold
    · omega
    · rw [h.first] at hold
      cases hold
  nextPid := h.nextPid.trans_le hc.nextPid

theorem Inv.leave (h : Inv s) (hloop : p.inLoop = false) (hchild : p.isChild = false) : Inv (s.set q p) := by
  have hc : Changes s (s.set q p) firstPid := by
    refine changes_set (fun hp => ?_) fun hp => ?_
    · rw [hloop] at hp
      cases hp
    · rw [hchild] at hp
      cases hp
  exact h.changes hc rfl

theorem named_of_child {command : List CChar} (hpid : s.process pid = .child sh args)
    (hname : sh.words 0 = .word command) : named s pid = true := by
  simp only [named, hpid, hname, Slot.str, Option.isSome_some]

theorem not_named_of_child (hpid : s.process pid = .child sh args) (hname : sh.words 0 = .null) :
    named s pid = false := by
  simp only [named, hpid, hname, Slot.str, Option.isSome_none]

theorem Move.inv {e : Event} (h : Move s e s') (hinv : Inv s) (he : Found s e) : Inv s' := by
  cases h with
  | @line pid sh line found forks _ hpid hs =>
    exact hinv.changes (mainLoop_changes hs) (hinv.one pid (by rw [hpid]; rfl))
  | program hpid => exact hinv.leave rfl rfl
  | noProgram hpid hname => exact absurd (he (named_of_child hpid hname)) Bool.false_ne_true
  | noName hpid => exact hinv.leave rfl rfl
  | @wake pid id sh args child t hpid ht =>
    exact hinv.changes ((reap_changes ht).trans (changes_again t pid sh args)) (hinv.one pid (by rw [hpid]; rfl))
  | ends hpid => exact hinv.leave rfl rfl
  | eof hpid => exact hinv.leave rfl rfl

theorem reachable_inv (h : Reachable (system.restrict Found) s) : Inv s := by
  refine h.invariant ?_ ?_
  · rintro _ rfl
    exact inv_start
  · rintro s e s' - hinv ⟨he, hstep⟩
    exact (move_of_exec hstep).inv hinv he

theorem Move.secondShell {e : Event} (h : Move s e s') (hinv : Inv s) (he : ¬ Found s e) : ¬ OneShell s' := by
  cases h with
  | @noProgram pid sh args command hpid =>
    intro hone
    have hfirst := hone pid (by rw [State.again, set_process, if_pos rfl]; rfl)
    have hchild := hinv.first
    rw [← hfirst, hpid] at hchild
    cases hchild
  | program => exact absurd (fun _ => rfl) he
  | noName hpid hname =>
    have hunnamed := not_named_of_child hpid hname
    exact absurd (fun hnamed => absurd (hunnamed.symm.trans hnamed) Bool.false_ne_true) he
  | _ => exact absurd trivial he

/-- **When there is one shell only.** While `execvp` has found every program that it was given, nobody but the
first shell is in the loop of `main`, and the next step keeps it so exactly when it is no `execvp` that is given
a name and fails. -/
theorem oneShell_iff_found (h : Reachable (system.restrict Found) s) :
    OneShell s ∧ ∀ e s', system.step s e s' → (OneShell s' ↔ Found s e) := by
  have hinv := reachable_inv h
  refine ⟨hinv.one, fun e s' hstep => ⟨fun hone => ?_, fun he => ((move_of_exec hstep).inv hinv he).one⟩⟩
  by_contra he
  exact (move_of_exec hstep).secondShell hinv he hone

/-- The program is there, it ends, and the shell goes on. -/
def goodSession : List Event :=
  [.line 1 (ascii "ls -l\n") true true, .execvp 2 true, .ends 2, .wake 1 none, .line 1 (ascii "cd\n") true true]

/-- A command without a name comes next, and its child is killed. Then one more child is made. -/
def quietSession : List Event :=
  goodSession ++ [.line 1 (ascii "&\n") true true, .execvp 3 false, .line 1 (ascii "pwd\n") true true]

def foundExec (s : State) (e : Event) : Option State := if Found s e then exec s e else none

theorem oneShell_iff_found_ls : ∃ s, runSteps foundExec start quietSession = some s ∧
    (s.process firstPid).inLoop = true ∧ OneShell s ∧
      ∃ s', system.step s (.execvp 4 false) s' ∧ ¬ OneShell s' := by
  have hstate : (runSteps foundExec start quietSession).map
      (fun s => ((s.process firstPid).inLoop, named s 4, (exec s (.execvp 4 false)).isSome)) =
      some (true, true, true) := by
    decide +kernel
  obtain ⟨s, hs, hplace⟩ := Option.map_eq_some_iff.mp hstate
  simp only [Prod.mk.injEq] at hplace
  obtain ⟨hloop, hnamed, hgoes⟩ := hplace
  obtain ⟨s', hstep⟩ := Option.isSome_iff_exists.mp hgoes
  have hreach : Reachable (system.restrict Found) s := by
    refine Reachable.runSteps (fun s e t _ he => ?_) (Reachable.init rfl) hs
    exact Option.ite_none_right_eq_some.mp he
  obtain ⟨hone, hnext⟩ := oneShell_iff_found hreach
  refine ⟨s, hs, hloop, hone, s', hstep, fun hsame => ?_⟩
  exact absurd ((hnext _ s' hstep).mp hsame hnamed) Bool.false_ne_true

/-- A command that is not there, in the background: both processes read lines now. -/
theorem two_shells : ∃ s, Reachable system s ∧ (s.process 1).inLoop = true ∧ (s.process 2).inLoop = true ∧
    ¬ OneShell s := by
  have hstate : (runSteps exec start [.line 1 (ascii "nosuch &\n") true true, .execvp 2 false]).map
      (fun s => ((s.process 1).inLoop, (s.process 2).inLoop)) = some (true, true) := by
    decide +kernel
  obtain ⟨s, hs, hboth⟩ := Option.map_eq_some_iff.mp hstate
  obtain ⟨hfirst, hsecond⟩ := Prod.mk.inj hboth
  have hreach : Reachable system s := (Reachable.init rfl).runSteps (fun _ _ _ _ hstep => hstep) hs
  refine ⟨s, hreach, hfirst, hsecond, fun hone => ?_⟩
  have heq := hone 2 hsecond
  cases heq

end OsCoursework.Stash
