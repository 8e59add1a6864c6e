import OsCoursework.Stash.Accesses

/-!
# What is not read of the words

Two states that differ in nothing but the words make the same step when the reads of the step find
the same. So a step depends on no word beside those it is said to read.
-/

open OsCoursework.Cstring

namespace OsCoursework.Stash

variable {s s' : State} {pid args : Nat} {sh sh' : Shell} {line : List CChar} {found forks : Bool}

/-! ## States without their words -/

def Shell.forget (sh : Shell) : Shell := { sh with words := fun _ => .unset }

def Process.forget : Process → Process
  | .reading sh => .reading sh.forget
  | .waiting id sh args => .waiting id sh.forget args
  | .child sh args => .child sh.forget args
  | p => p

def State.forget (s : State) : State := { s with process := fun q => (s.process q).forget }

theorem forget_process (h : s.forget = s'.forget) (q : Nat) : (s.process q).forget = (s'.process q).forget :=
  congrFun (congrArg State.process h) q

theorem forget_parent (h : s.forget = s'.forget) : s.parent = s'.parent :=
  (congrArg State.parent h :)

theorem forget_nextPid (h : s.forget = s'.forget) : s.nextPid = s'.nextPid :=
  (congrArg State.nextPid h :)

theorem forget_olderSibling (h : sh.forget = sh'.forget) : sh.olderSibling = sh'.olderSibling :=
  (congrArg Shell.olderSibling h :)

@[simp] theorem forget_set (s : State) (pid : Nat) (p : Process) : (s.set pid p).forget = s.forget.set pid p.forget := by
  have hprocess : (fun q => (Function.update s.process pid p q).forget) =
      Function.update (fun q => (s.process q).forget) pid p.forget := by
    funext q
    by_cases hq : q = pid
    · rw [hq, Function.update_self, Function.update_self]
    · rw [Function.update_of_ne hq, Function.update_of_ne hq]
  unfold State.set State.forget
  rw [hprocess]

@[simp] theorem forget_print (s : State) (message : Message) : (s.print message).forget = s.forget.print message := rfl

@[simp] theorem forget_free (sh : Shell) (args : Nat) : (sh.free args).forget = sh.forget := rfl

@[simp] theorem forget_again (s : State) (pid : Nat) (sh : Shell) (args : Nat) :
    (s.again pid sh args).forget = (s.forget.print .prompt).set pid (.reading sh.forget) := by
  rw [State.again, forget_set, forget_print, Process.forget, forget_free]

@[simp] theorem isExited_forget (p : Process) : p.forget.isExited = p.isExited := by
  cases p <;> rfl

theorem isExited_congr (h : s.forget = s'.forget) (q : Nat) : (s.process q).isExited = (s'.process q).isExited := by
  rw [← isExited_forget, forget_process h, isExited_forget]

@[simp] theorem isReaped_forget (p : Process) : p.forget.isReaped = p.isReaped := by
  cases p <;> rfl

theorem isReaped_congr (h : s.forget = s'.forget) (q : Nat) : (s.process q).isReaped = (s'.process q).isReaped := by
  rw [← isReaped_forget, forget_process h, isReaped_forget]

/-! ## The parts of a step -/

theorem checkSibling_congr (hf : s.forget = s'.forget) (hsh : sh.forget = sh'.forget) (pid : Nat) :
    (checkSibling s pid sh).1.forget = (checkSibling s' pid sh').1.forget ∧
      (checkSibling s pid sh).2.forget = (checkSibling s' pid sh').2.forget := by
  have hsibling := forget_olderSibling hsh
  have hdone : siblingDone s pid sh = siblingDone s' pid sh' := by
    unfold siblingDone
    rw [hsibling, forget_parent hf, isExited_congr hf]
  unfold checkSibling
  rw [hdone]
  split_ifs
  · rw [forget_set, forget_set, forget_print, forget_print, hf, hsibling]
    exact ⟨rfl, rfl⟩
  · exact ⟨hf, hsh⟩

theorem parentBranch_congr (hf : s.forget = s'.forget) (hsh : sh.forget = sh'.forget) (pid args : Nat)
    (background : Bool) (id : Option Nat) :
    (parentBranch s pid sh args background id).forget = (parentBranch s' pid sh' args background id).forget := by
  unfold parentBranch
  split_ifs
  · rw [forget_again, forget_again, forget_print, forget_print, hf]
    rfl
  · rw [forget_set, forget_set, hf, Process.forget, Process.forget, hsh]

theorem follow_congr (hf : s.forget = s'.forget) (pid : Nat) (slot : Slot) {next next' : List CChar → Option State}
    (h : ∀ str, slot = .word str → (next str).map State.forget = (next' str).map State.forget) :
    (s.follow pid slot next).map State.forget = (s'.follow pid slot next').map State.forget := by
  cases slot with
  | word str => exact h str rfl
  | null => simp only [State.follow, Option.map_some, forget_set, hf]
  | unset => rfl
  | freed => rfl

theorem runExit_congr (hf : s.forget = s'.forget) (hsh : sh.forget = sh'.forget) (hword : sh.words 1 = sh'.words 1) :
    (runExit s pid sh args).map State.forget = (runExit s' pid sh' args).map State.forget := by
  unfold runExit
  rw [hword]
  refine follow_congr hf pid _ fun word _ => congrArg some ?_
  split_ifs
  · rw [forget_again, forget_again, forget_print, forget_print, hf, hsh]
  · rw [forget_set, forget_set, hf]

theorem runCd_congr (hf : s.forget = s'.forget) (hsh : sh.forget = sh'.forget)
    (hword : args = 2 → sh.words 1 = sh'.words 1) :
    (runCd s pid sh args found).map State.forget = (runCd s' pid sh' args found).map State.forget := by
  unfold runCd
  split_ifs with hargs
  · simp only [Option.map_some, forget_again, forget_print, hf, hsh]
  · simp only [hword (not_not.mp hargs), Option.map_map, Function.comp_def, forget_again, hf, hsh]
  · simp only [hword (not_not.mp hargs), Option.map_map, Function.comp_def, forget_again, forget_print, hf, hsh]

theorem runCommand_congr (hf : s.forget = s'.forget) (hsh : sh.forget = sh'.forget)
    (hword : sh.words (args - 1) = sh'.words (args - 1)) :
    (runCommand s pid sh args forks).map State.forget = (runCommand s' pid sh' args forks).map State.forget := by
  obtain ⟨hs, hshell⟩ := checkSibling_congr hf hsh pid
  unfold runCommand
  rw [hword]
  cases (sh'.words (args - 1)).str with
  | none => rfl
  | some last =>
    simp only [Option.bind_some]
    generalize checkSibling s pid sh = r at hs hshell
    generalize checkSibling s' pid sh' = r' at hs hshell
    have hnull : ∀ count, ({ r.2 with words := Function.update r.2.words count .null } : Shell).forget =
        ({ r'.2 with words := Function.update r'.2.words count .null } : Shell).forget := fun _ => hshell
    by_cases hroom : (if decide (last.head? = some 0x26) = true then args - 1 else args) < maxWords
    · simp only [if_pos hroom, forget_nextPid hs]
      cases forks with
      | true =>
        simp only [if_true, Option.map_some]
        refine congrArg some (parentBranch_congr ?_ (hnull _) _ _ _ _)
        rw [forget_set, forget_set, Process.forget, Process.forget, hnull, forget_parent hs]
        refine congrArg (fun t : State => State.set t r'.1.nextPid _) ?_
        unfold State.forget at hs ⊢
        simp only [State.mk.injEq] at hs ⊢
        exact ⟨hs.1, trivial, trivial, hs.2.2.2⟩
      | false =>
        simp only [Bool.false_eq_true, if_false, Option.map_some]
        exact congrArg some (parentBranch_congr (by rw [forget_print, forget_print, hs]) (hnull _) _ _ _ _)
    · simp only [if_neg hroom, Option.map_none]

theorem parseLoop_count_congr (turns : Nat) (line : List CChar) (count : Nat) (ws ws' : Words) :
    (parseLoop turns line count ws).1 = (parseLoop turns line count ws').1 := by
  induction turns generalizing line count ws ws' with
  | zero => rfl
  | succ turns ih =>
    unfold parseLoop
    cases sscanfWord line with
    | none => rfl
    | some r => exact ih _ _ _ _

theorem readAt_inj {words words' : Words} {index : Nat} (h : readAt words args index = readAt words' args index) :
    words index = words' index := by
  unfold readAt slotAt at h
  simpa using (Access.read.inj h).2.2

theorem last_inj {words words' : Words} (h0 : words 0 = words' 0)
    (h : readAt words args (args - 1) = readAt words' args (args - 1)) : words (args - 1) = words' (args - 1) := by
  cases args with
  | zero => exact h0
  | succ args =>
    have hindex : (((args + 1 : Nat) : Int) - 1) = (args : Int) := by omega
    rw [hindex] at h
    exact readAt_inj h

theorem mainLoop_congr (hf : s.forget = s'.forget) (hsh : sh.forget = sh'.forget)
    (hreads : lineReads sh.words line forks = lineReads sh'.words line forks) :
    (mainLoop s pid sh line found forks).map State.forget = (mainLoop s' pid sh' line found forks).map State.forget := by
  unfold mainLoop
  unfold lineReads at hreads
  by_cases hempty : line.head? = some 0x0a
  · simp only [if_pos hempty, Option.map_some, forget_set, forget_print, hf, Process.forget, hsh]
  simp only [if_neg hempty] at hreads ⊢
  have hcount : (parseCommand line sh.words).1 = (parseCommand line sh'.words).1 := parseLoop_count_congr _ _ _ _ _
  generalize parseCommand line sh.words = r at hreads hcount
  generalize parseCommand line sh'.words = r' at hreads hcount
  obtain ⟨args, words⟩ := r
  obtain ⟨args', words'⟩ := r'
  obtain rfl : args = args' := hcount
  obtain ⟨hfirst, hrest⟩ := List.cons.inj hreads
  have h0 : words 0 = words' 0 := @readAt_inj args words words' 0 hfirst
  have hwords : ({ sh with words := words } : Shell).forget = ({ sh' with words := words' } : Shell).forget := hsh
  simp only [h0] at hrest ⊢
  refine follow_congr hf pid _ fun command hslot => ?_
  simp only [hslot, Slot.word.injEq] at hrest
  split_ifs at hrest ⊢ with hcd hexit
  · refine runCd_congr hf hwords fun hargs => ?_
    unfold cdReads at hrest
    rw [if_pos hargs, if_pos hargs] at hrest
    exact readAt_inj (List.cons.inj hrest).1
  · exact runExit_congr hf hwords (readAt_inj (List.cons.inj hrest).1)
  · exact runCommand_congr hf hwords (last_inj h0 (List.cons.inj hrest).1)

theorem reap_congr (hf : s.forget = s'.forget) (pid : Nat) (id child : Option Nat) :
    (reap s pid id child).map State.forget = (reap s' pid id child).map State.forget := by
  cases id with
  | some c =>
    simp only [reap, isExited_congr hf]
    split_ifs
    · simp only [Option.map_some, forget_set, hf]
    · rfl
  | none =>
    cases child with
    | some c =>
      simp only [reap, isExited_congr hf, forget_parent hf]
      split_ifs
      · simp only [Option.map_some, forget_set, hf]
      · rfl
    | none =>
      simp only [reap, isReaped_congr hf, forget_parent hf, forget_nextPid hf]
      split_ifs
      · simp only [Option.map_some, hf]
      · rfl

/-! ## A step -/

/-- **A step depends on no word beside those it reads.** -/
theorem exec_congr {e : Event} (hf : s.forget = s'.forget) (hreads : accesses s e = accesses s' e) :
    (exec s e).map State.forget = (exec s' e).map State.forget := by
  cases e with
  | line pid line found forks =>
    have hpid := forget_process hf pid
    simp only [exec, accesses] at hreads ⊢
    cases hp : s.process pid <;> cases hp' : s'.process pid <;> rw [hp, hp'] at hpid <;>
      simp only [Process.forget, Process.reading.injEq, reduceCtorEq] at hpid
    case reading.reading sh sh' =>
      simp only [hp, hp'] at hreads ⊢
      split_ifs
      · exact mainLoop_congr hf hpid hreads
      · rfl
  | execvp pid found =>
    have hpid := forget_process hf pid
    simp only [exec, accesses] at hreads ⊢
    cases hp : s.process pid <;> cases hp' : s'.process pid <;> rw [hp, hp'] at hpid <;>
      simp only [Process.forget, Process.child.injEq, reduceCtorEq] at hpid
    case child.child sh args sh' args' =>
      obtain ⟨hsh, rfl⟩ := hpid
      simp only [hp, hp'] at hreads ⊢
      have hname : sh.words 0 = sh'.words 0 := Access.program.inj (List.cons.inj hreads).1
      unfold execvp
      rw [hname]
      refine follow_congr hf pid _ fun command _ => congrArg some ?_
      split_ifs
      · rw [forget_set, forget_set, hf]
      · rw [forget_again, forget_again, forget_print, forget_print, hf, hsh]
  | wake pid child =>
    have hpid := forget_process hf pid
    simp only [exec]
    cases hp : s.process pid <;> cases hp' : s'.process pid <;> rw [hp, hp'] at hpid <;>
      simp only [Process.forget, Process.waiting.injEq, reduceCtorEq] at hpid
    case waiting.waiting id sh args id' sh' args' =>
      obtain ⟨rfl, hsh, rfl⟩ := hpid
      simp only [Option.map_map, Function.comp_def, forget_again, hsh]
      have hreap := congrArg (Option.map fun t : State => (t.print .prompt).set pid (.reading sh'.forget))
        (reap_congr hf pid id child)
      rwa [Option.map_map, Option.map_map] at hreap
  | ends pid =>
    have hpid := forget_process hf pid
    simp only [exec]
    cases hp : s.process pid <;> cases hp' : s'.process pid <;> rw [hp, hp'] at hpid <;>
      simp only [Process.forget, reduceCtorEq] at hpid
    case program.program => simp only [Option.map_some, forget_set, hf]
  | eof pid =>
    have hpid := forget_process hf pid
    simp only [exec]
    cases hp : s.process pid <;> cases hp' : s'.process pid <;> rw [hp, hp'] at hpid <;>
      simp only [Process.forget, reduceCtorEq] at hpid
    case reading.reading => simp only [Option.map_some, forget_set, hf]

end OsCoursework.Stash
