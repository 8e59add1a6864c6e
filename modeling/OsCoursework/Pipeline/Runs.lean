import OsCoursework.Lib.Transition
import OsCoursework.Pipeline.Code

/-!
# What comes through the pipe

A descriptor table depends only on how far its process is. From that, `grep` comes to the end of
its input when `ps` has ended, and not before, so it gets all that `ps` puts out.
-/

open OsCoursework.Descriptors OsCoursework.Transition

namespace OsCoursework.Pipeline

variable {δ α : Type*}

theorem Setting.Ok.ne {P : Setting δ α} (hP : P.Ok) :
    P.pfd0 ≠ P.stdin ∧ P.pfd0 ≠ P.stdout ∧ P.pfd1 ≠ P.stdin ∧ P.pfd1 ≠ P.stdout := by
  have h : ∀ {fd fd'}, P.inherited fd = false → P.inherited fd' = true → fd ≠ fd' := by
    rintro fd fd' hclosed hopen rfl
    rw [hclosed] at hopen
    cases hopen
  exact ⟨h hP.pfd0 hP.stdin, h hP.pfd0 hP.stdout, h hP.pfd1 hP.stdin, h hP.pfd1 hP.stdout⟩

/-! ## The tables -/

section Tables

variable [DecidableEq δ] {P : Setting δ α}

def inheritedTable (P : Setting δ α) : Table δ File := fun fd => if P.inherited fd then some .inherited else none

def pipeTable (P : Setting δ α) : Table δ File := ((inheritedTable P).open P.pfd0 .readEnd).open P.pfd1 .writeEnd

def parentTable (P : Setting δ α) : ParentPc → Table δ File
  | .pipe => inheritedTable P
  | .forkPs | .forkGrep | .close0 => pipeTable P
  | .close1 => (pipeTable P).close P.pfd0
  | .wait _ => ((pipeTable P).close P.pfd0).close P.pfd1
  | .returned => noFiles

def psTable (P : Setting δ α) : PsPc α → Table δ File
  | .close0 => pipeTable P
  | .dup => (pipeTable P).close P.pfd0
  | .close1 => ((pipeTable P).close P.pfd0).dup2 P.pfd1 P.stdout
  | .exec | .writing _ => (((pipeTable P).close P.pfd0).dup2 P.pfd1 P.stdout).close P.pfd1
  | .unborn | .exited | .killed | .reaped => noFiles

def grepTable (P : Setting δ α) : GrepPc α → Table δ File
  | .close1 => pipeTable P
  | .dup => (pipeTable P).close P.pfd1
  | .close0 => ((pipeTable P).close P.pfd1).dup2 P.pfd0 P.stdin
  | .exec | .reading _ | .printing _ => (((pipeTable P).close P.pfd1).dup2 P.pfd0 P.stdin).close P.pfd0
  | .unborn | .exited | .reaped => noFiles

def ParentPc.reads : ParentPc → Bool
  | .forkPs | .forkGrep | .close0 => true
  | _ => false

def ParentPc.writes : ParentPc → Bool
  | .forkPs | .forkGrep | .close0 | .close1 => true
  | _ => false

def PsPc.reads : PsPc α → Bool
  | .close0 => true
  | _ => false

def PsPc.writes : PsPc α → Bool
  | .close0 | .dup | .close1 | .exec | .writing _ => true
  | _ => false

def GrepPc.reads : GrepPc α → Bool
  | .unborn | .exited | .reaped => false
  | _ => true

def GrepPc.writes : GrepPc α → Bool
  | .close1 => true
  | _ => false

variable [Fintype δ]

omit [DecidableEq δ] in
@[simp] theorem at_noFiles (e : File) : (noFiles : Table δ File).at e = ∅ := at_none e

end Tables

/-! ## The places of the processes -/

/-- The state without the tables. -/
structure Places (α : Type*) where
  parent : ParentPc
  ps : PsPc α
  grep : GrepPc α
  pipe : List α
  terminal : List α
  stderr : List String

def Places.start : Places α := ⟨.pipe, .unborn, .unborn, [], [], []⟩

def Places.reads (a : Places α) : Bool := a.parent.reads || a.ps.reads || a.grep.reads

def Places.writes (a : Places α) : Bool := a.parent.writes || a.ps.writes || a.grep.writes

/-- What the calls come to when every table is as its process has left it. -/
def Places.exec [DecidableEq α] (P : Setting δ α) (a : Places α) : Actor → Option (Places α)
  | .parent =>
    match a.parent with
    | .pipe => some { a with parent := .forkPs }
    | .forkPs => some { a with parent := .forkGrep, ps := .close0 }
    | .forkGrep => some { a with parent := .close0, grep := .close1 }
    | .close0 => some { a with parent := .close1 }
    | .close1 => some { a with parent := .wait 0 }
    | .wait i => if i < 2 then none else some { a with parent := .returned }
    | .returned => none
  | .reap .ps =>
    match a.parent with
    | .wait i =>
      if i < 2 ∧ (a.ps = .exited ∨ a.ps = .killed) then some { a with parent := .wait (i + 1), ps := .reaped } else none
    | _ => none
  | .reap .grep =>
    match a.parent with
    | .wait i =>
      if i < 2 ∧ a.grep = .exited then some { a with parent := .wait (i + 1), grep := .reaped } else none
    | _ => none
  | .ps =>
    match a.ps with
    | .close0 => some { a with ps := .dup }
    | .dup => some { a with ps := .close1 }
    | .close1 => some { a with ps := .exec }
    | .exec =>
      if P.psFound then some { a with ps := .writing P.listing }
      else some { a with ps := .exited, stderr := a.stderr ++ ["Error: Can't run ps -ef\n"] }
    | .writing [] => some { a with ps := .exited }
    | .writing (x :: rest) =>
      if ¬ a.reads then some { a with ps := .killed }
      else if a.pipe.length < P.capacity then some { a with ps := .writing rest, pipe := a.pipe ++ [x] }
      else none
    | .unborn | .exited | .killed | .reaped => none
  | .grep =>
    match a.grep with
    | .close1 => some { a with grep := .dup }
    | .dup => some { a with grep := .close0 }
    | .close0 => some { a with grep := .exec }
    | .exec =>
      if P.grepFound then some { a with grep := .reading [] }
      else some { a with grep := .exited, stderr := a.stderr ++ ["Error: Can't run grep bash\n"] }
    | .reading got =>
      match a.pipe with
      | x :: pipe => some { a with grep := .reading (got ++ [x]), pipe }
      | [] => if a.writes then none else some { a with grep := .printing (P.grep got) }
    | .printing [] => some { a with grep := .exited }
    | .printing (x :: rest) => some { a with grep := .printing rest, terminal := a.terminal ++ [x] }
    | .unborn | .exited | .reaped => none

section WithTables

variable [DecidableEq δ]

variable [Fintype δ] [DecidableEq α] {P : Setting δ α}

end WithTables

/-! ## The steps -/

/-- What one call does, with all that it depends on. -/
inductive Places.Move (P : Setting δ α) (a : Places α) : Places α → Prop
  | pipe (hplace : a.parent = .pipe) : Move P a { a with parent := .forkPs }
  | forkPs (hplace : a.parent = .forkPs) : Move P a { a with parent := .forkGrep, ps := .close0 }
  | forkGrep (hplace : a.parent = .forkGrep) : Move P a { a with parent := .close0, grep := .close1 }
  | close0 (hplace : a.parent = .close0) : Move P a { a with parent := .close1 }
  | close1 (hplace : a.parent = .close1) : Move P a { a with parent := .wait 0 }
  | finish {i : Nat} (hplace : a.parent = .wait i) (hi : ¬ i < 2) : Move P a { a with parent := .returned }
  | reapPs {i : Nat} (hplace : a.parent = .wait i) (hended : a.ps = .exited ∨ a.ps = .killed) :
    Move P a { a with parent := .wait (i + 1), ps := .reaped }
  | reapGrep {i : Nat} (hplace : a.parent = .wait i) (hended : a.grep = .exited) :
    Move P a { a with parent := .wait (i + 1), grep := .reaped }
  | psClose0 (hplace : a.ps = .close0) : Move P a { a with ps := .dup }
  | psDup (hplace : a.ps = .dup) : Move P a { a with ps := .close1 }
  | psClose1 (hplace : a.ps = .close1) : Move P a { a with ps := .exec }
  | psFound (hplace : a.ps = .exec) (hfound : P.psFound = true) : Move P a { a with ps := .writing P.listing }
  | psMissing (stderr : List String) (hplace : a.ps = .exec) (hfound : ¬ P.psFound = true) :
    Move P a { a with ps := .exited, stderr }
  | psEnd (hplace : a.ps = .writing []) : Move P a { a with ps := .exited }
  | psKilled {x : α} {rest : List α} (hplace : a.ps = .writing (x :: rest)) (hread : ¬ a.reads = true) :
    Move P a { a with ps := .killed }
  | write {x : α} {rest : List α} (hplace : a.ps = .writing (x :: rest)) :
    Move P a { a with ps := .writing rest, pipe := a.pipe ++ [x] }
  | grepClose1 (hplace : a.grep = .close1) : Move P a { a with grep := .dup }
  | grepDup (hplace : a.grep = .dup) : Move P a { a with grep := .close0 }
  | grepClose0 (hplace : a.grep = .close0) : Move P a { a with grep := .exec }
  | grepFound (hplace : a.grep = .exec) (hfound : P.grepFound = true) : Move P a { a with grep := .reading [] }
  | grepMissing (stderr : List String) (hplace : a.grep = .exec) (hfound : ¬ P.grepFound = true) :
    Move P a { a with grep := .exited, stderr }
  | read {got : List α} {x : α} {pipe : List α} (hplace : a.grep = .reading got) (hpipe : a.pipe = x :: pipe) :
    Move P a { a with grep := .reading (got ++ [x]), pipe }
  | endOfFile {got : List α} (hplace : a.grep = .reading got) (hpipe : a.pipe = []) (hwrite : ¬ a.writes = true) :
    Move P a { a with grep := .printing (P.grep got) }
  | print {x : α} {rest : List α} (hplace : a.grep = .printing (x :: rest)) :
    Move P a { a with grep := .printing rest, terminal := a.terminal ++ [x] }
  | grepEnd (hplace : a.grep = .printing []) : Move P a { a with grep := .exited }

section Exec

variable [DecidableEq α] {P : Setting δ α} {a a' : Places α}

theorem move_of_parent (h : a.exec P .parent = some a') : a.Move P a' := by
  simp only [Places.exec] at h
  cases hplace : a.parent with
  | wait i =>
    simp only [hplace] at h
    split_ifs at h with hi
    cases h
    exact .finish hplace hi
  | returned => simp [hplace] at h
  | _ =>
    simp only [hplace] at h
    cases h
    constructor
    exact hplace

theorem move_of_reap {c : Child} (h : a.exec P (.reap c) = some a') : a.Move P a' := by
  cases hplace : a.parent with
  | wait i =>
    cases c with
    | ps =>
      simp only [Places.exec, hplace] at h
      split_ifs at h with hended
      cases h
      exact .reapPs hplace hended.2
    | grep =>
      simp only [Places.exec, hplace] at h
      split_ifs at h with hended
      cases h
      exact .reapGrep hplace hended.2
  | _ => cases c <;> simp [Places.exec, hplace] at h

theorem move_of_ps (h : a.exec P .ps = some a') : a.Move P a' := by
  simp only [Places.exec] at h
  cases hplace : a.ps with
  | close0 =>
    simp only [hplace] at h
    cases h
    exact .psClose0 hplace
  | dup =>
    simp only [hplace] at h
    cases h
    exact .psDup hplace
  | close1 =>
    simp only [hplace] at h
    cases h
    exact .psClose1 hplace
  | exec =>
    simp only [hplace] at h
    split_ifs at h with hfound
    · cases h
      exact .psFound hplace hfound
    · cases h
      exact .psMissing _ hplace hfound
  | writing rest =>
    cases rest with
    | nil =>
      simp only [hplace] at h
      cases h
      exact .psEnd hplace
    | cons x rest =>
      simp only [hplace] at h
      split_ifs at h with hread
      · cases h
        exact .write hplace
      · cases h
        exact .psKilled hplace hread
  | _ => simp [hplace] at h

theorem move_of_grep (h : a.exec P .grep = some a') : a.Move P a' := by
  simp only [Places.exec] at h
  cases hplace : a.grep with
  | close1 =>
    simp only [hplace] at h
    cases h
    exact .grepClose1 hplace
  | dup =>
    simp only [hplace] at h
    cases h
    exact .grepDup hplace
  | close0 =>
    simp only [hplace] at h
    cases h
    exact .grepClose0 hplace
  | exec =>
    simp only [hplace] at h
    split_ifs at h with hfound
    · cases h
      exact .grepFound hplace hfound
    · cases h
      exact .grepMissing _ hplace hfound
  | reading got =>
    cases hpipe : a.pipe with
    | cons x pipe =>
      simp only [hplace, hpipe] at h
      cases h
      exact .read hplace hpipe
    | nil =>
      simp only [hplace, hpipe] at h
      split_ifs at h with hwrite
      cases h
      have hmove := Places.Move.endOfFile (P := P) hplace hpipe hwrite
      rwa [hpipe] at hmove
  | printing rest =>
    cases rest with
    | nil =>
      simp only [hplace] at h
      cases h
      exact .grepEnd hplace
    | cons x rest =>
      simp only [hplace] at h
      cases h
      exact .print hplace
  | _ => simp [hplace] at h

theorem move_of_exec {actor : Actor} (h : a.exec P actor = some a') : a.Move P a' := by
  cases actor with
  | parent => exact move_of_parent h
  | reap c => exact move_of_reap h
  | ps => exact move_of_ps h
  | grep => exact move_of_grep h

end Exec

/-! ## The invariant -/

/-- What `ps` puts into the pipe. -/
def Setting.all (P : Setting δ α) : List α := if P.psFound then P.listing else []

def PsPc.toCome (all : List α) : PsPc α → List α
  | .unborn | .close0 | .dup | .close1 | .exec => all
  | .writing rest => rest
  | .exited | .killed | .reaped => []

/-- What `grep` has read, while it reads. -/
def GrepPc.got : GrepPc α → Option (List α)
  | .unborn | .close1 | .dup | .close0 | .exec => some []
  | .reading got => some got
  | .printing _ | .exited | .reaped => none

/-- Which children are there, and how many have been waited for. -/
def Born [DecidableEq α] (ps : PsPc α) (grep : GrepPc α) : ParentPc → Prop
  | .pipe | .forkPs => ps = .unborn ∧ grep = .unborn
  | .forkGrep => ps ≠ .unborn ∧ ps ≠ .reaped ∧ grep = .unborn
  | .close0 | .close1 => ps ≠ .unborn ∧ ps ≠ .reaped ∧ grep ≠ .unborn ∧ grep ≠ .reaped
  | .wait i => ps ≠ .unborn ∧ grep ≠ .unborn ∧ i = (if ps = .reaped then 1 else 0) + (if grep = .reaped then 1 else 0)
  | .returned => ps = .reaped ∧ grep = .reaped

/-- Nothing is lost on the way, and `grep` does not stop too early. -/
structure PipeOk (all : List α) (ps : PsPc α) (grep : GrepPc α) (pipe : List α) : Prop where
  alive : ps ≠ .killed
  bytes : ∀ got, grep.got = some got → got ++ pipe ++ ps.toCome all = all
  ended : grep.got = none → ps = .exited ∨ ps = .reaped

def Setting.shown (P : Setting δ α) : List α := if P.grepFound then P.grep P.all else []

def TerminalOk (P : Setting δ α) (terminal : List α) : GrepPc α → Prop
  | .reading _ => P.grepFound = true ∧ terminal = []
  | .printing rest => P.grepFound = true ∧ terminal ++ rest = P.shown
  | .exited | .reaped => terminal = P.shown
  | _ => terminal = []

structure Inv [DecidableEq α] (P : Setting δ α) (a : Places α) : Prop where
  born : Born a.ps a.grep a.parent
  pipe : P.grepFound = true → PipeOk P.all a.ps a.grep a.pipe
  terminal : TerminalOk P a.terminal a.grep

section Steps

variable [DecidableEq α] {P : Setting δ α} {a a' : Places α} {ps ps' : PsPc α} {grep grep' : GrepPc α} {parent : ParentPc}

theorem inv_start (P : Setting δ α) : Inv P Places.start where
  born := ⟨rfl, rfl⟩
  pipe _ := ⟨nofun, fun got h => by obtain rfl := Option.some.inj h; rfl, nofun⟩
  terminal := rfl

theorem Born.ps_there (h : Born ps grep parent) (hgrep : grep ≠ .unborn) : ps ≠ .unborn := by
  cases parent with
  | pipe | forkPs => exact absurd h.2 hgrep
  | forkGrep => exact absurd h.2.2 hgrep
  | close0 | close1 | wait i => exact h.1
  | returned => exact h.1 ▸ nofun

theorem Born.movePs (h : Born ps grep parent) (hold : ps ≠ .unborn ∧ ps ≠ .reaped) (hnew : ps' ≠ .unborn ∧ ps' ≠ .reaped) :
    Born ps' grep parent := by
  cases parent with
  | pipe | forkPs => exact absurd h.1 hold.1
  | forkGrep => exact ⟨hnew.1, hnew.2, h.2.2⟩
  | close0 | close1 => exact ⟨hnew.1, hnew.2, h.2.2⟩
  | wait i =>
    obtain ⟨-, hgrep, hi⟩ := h
    rw [if_neg hold.2] at hi
    refine ⟨hnew.1, hgrep, ?_⟩
    rw [if_neg hnew.2]
    exact hi
  | returned => exact absurd h.1 hold.2

theorem Born.moveGrep (h : Born ps grep parent) (hold : grep ≠ .unborn ∧ grep ≠ .reaped)
    (hnew : grep' ≠ .unborn ∧ grep' ≠ .reaped) : Born ps grep' parent := by
  cases parent with
  | pipe | forkPs => exact absurd h.2 hold.1
  | forkGrep => exact absurd h.2.2 hold.1
  | close0 | close1 => exact ⟨h.1, h.2.1, hnew⟩
  | wait i =>
    obtain ⟨hps, -, hi⟩ := h
    rw [if_neg hold.2] at hi
    refine ⟨hps, hnew.1, ?_⟩
    rw [if_neg hnew.2]
    exact hi
  | returned => exact absurd h.2 hold.2

theorem Inv.forkPs (hinv : Inv P a) (hplace : a.parent = .forkPs) :
    Inv P { a with parent := .forkGrep, ps := .close0 } := by
  have hborn := hinv.born
  rw [hplace] at hborn
  obtain ⟨hps, hgrep⟩ := hborn
  refine ⟨⟨nofun, nofun, hgrep⟩, fun hfound => ?_, hinv.terminal⟩
  obtain ⟨-, hbytes, -⟩ := hinv.pipe hfound
  rw [hps] at hbytes
  exact ⟨nofun, hbytes, fun hnone => by rw [hgrep] at hnone; cases hnone⟩

theorem Inv.forkGrep (hinv : Inv P a) (hplace : a.parent = .forkGrep) :
    Inv P { a with parent := .close0, grep := .close1 } := by
  have hborn := hinv.born
  rw [hplace] at hborn
  obtain ⟨hthere, hreaped, hgrep⟩ := hborn
  have hterminal := hinv.terminal
  rw [hgrep] at hterminal
  refine ⟨⟨hthere, hreaped, nofun, nofun⟩, fun hfound => ?_, hterminal⟩
  obtain ⟨halive, hbytes, -⟩ := hinv.pipe hfound
  rw [hgrep] at hbytes
  exact ⟨halive, hbytes, nofun⟩

theorem Born.finish {i : Nat} (h : Born ps grep (.wait i)) (hi : ¬ i < 2) : ps = .reaped ∧ grep = .reaped := by
  obtain ⟨-, -, hcount⟩ := h
  by_cases hps : ps = .reaped
  · by_cases hgrep : grep = .reaped
    · exact ⟨hps, hgrep⟩
    · rw [if_pos hps, if_neg hgrep] at hcount
      omega
  · rw [if_neg hps] at hcount
    split_ifs at hcount <;> omega

theorem Inv.reapPs (hinv : Inv P a) {i : Nat} (hplace : a.parent = .wait i) (hended : a.ps = .exited ∨ a.ps = .killed) :
    Inv P { a with parent := .wait (i + 1), ps := .reaped } := by
  have hborn := hinv.born
  rw [hplace] at hborn
  obtain ⟨-, hgrep, hi⟩ := hborn
  have hreaped : a.ps ≠ .reaped := by rcases hended with hpc | hpc <;> rw [hpc] <;> nofun
  rw [if_neg hreaped] at hi
  refine ⟨⟨nofun, hgrep, ?_⟩, fun hfound => ?_, hinv.terminal⟩
  · dsimp only
    rw [if_pos rfl]
    omega
  · obtain ⟨-, hbytes, -⟩ := hinv.pipe hfound
    refine ⟨nofun, fun got hgot => ?_, fun _ => .inr rfl⟩
    have hsame := hbytes got hgot
    rcases hended with hpc | hpc <;> rwa [hpc] at hsame

theorem Inv.reapGrep (hinv : Inv P a) {i : Nat} (hplace : a.parent = .wait i) (hended : a.grep = .exited) :
    Inv P { a with parent := .wait (i + 1), grep := .reaped } := by
  have hborn := hinv.born
  rw [hplace] at hborn
  obtain ⟨hps, -, hi⟩ := hborn
  have hterminal := hinv.terminal
  have hreaped : a.grep ≠ .reaped := by rw [hended]; nofun
  rw [if_neg hreaped] at hi
  rw [hended] at hterminal
  refine ⟨⟨hps, nofun, ?_⟩, fun hfound => ?_, hterminal⟩
  · dsimp only
    rw [if_pos rfl]
    omega
  · obtain ⟨halive, -, hover⟩ := hinv.pipe hfound
    rw [hended] at hover
    exact ⟨halive, nofun, hover⟩

theorem Inv.movePs (hinv : Inv P a) (ps' : PsPc α) (hold : a.ps ≠ .unborn ∧ a.ps ≠ .reaped ∧ a.ps ≠ .exited)
    (hnew : ps' ≠ .unborn ∧ ps' ≠ .reaped ∧ ps' ≠ .killed) (hcome : ps'.toCome P.all = a.ps.toCome P.all)
    (stderr : List String) : Inv P { a with ps := ps', stderr } where
  born := hinv.born.movePs ⟨hold.1, hold.2.1⟩ ⟨hnew.1, hnew.2.1⟩
  pipe hfound := by
    obtain ⟨-, hbytes, hended⟩ := hinv.pipe hfound
    refine ⟨hnew.2.2, fun got hgot => hcome ▸ hbytes got hgot, fun hnone => ?_⟩
    rcases hended hnone with hexited | hreaped
    · exact absurd hexited hold.2.2
    · exact absurd hreaped hold.2.1
  terminal := hinv.terminal

theorem Inv.moveGrep (hinv : Inv P a) (grep' : GrepPc α) (hold : a.grep ≠ .unborn ∧ a.grep.got = some [])
    (hnew : grep' ≠ .unborn ∧ grep'.got = some []) (hterminal : TerminalOk P a.terminal grep') :
    Inv P { a with grep := grep' } where
  born := by
    have hreaped : ∀ {grep : GrepPc α}, grep.got = some [] → grep ≠ .reaped := by rintro _ hgot rfl; cases hgot
    exact hinv.born.moveGrep ⟨hold.1, hreaped hold.2⟩ ⟨hnew.1, hreaped hnew.2⟩
  pipe hfound := by
    obtain ⟨halive, hbytes, -⟩ := hinv.pipe hfound
    rw [hold.2] at hbytes
    refine ⟨halive, fun got hgot => hbytes got (hnew.2 ▸ hgot), fun hnone => ?_⟩
    rw [hnew.2] at hnone
    cases hnone
  terminal := hterminal

theorem Inv.reads (hinv : Inv P a) (hfound : P.grepFound = true) {rest : List α} (hplace : a.ps = .writing rest) :
    a.reads = true := by
  have hborn := hinv.born
  have hended := (hinv.pipe hfound).ended
  rw [hplace] at hborn hended
  unfold Places.reads
  cases hgrep : a.grep with
  | unborn =>
    rw [hgrep] at hborn
    cases hparent : a.parent with
    | forkGrep => rfl
    | pipe | forkPs =>
      rw [hparent] at hborn
      exact nomatch hborn.1
    | close0 | close1 =>
      rw [hparent] at hborn
      exact absurd rfl hborn.2.2.1
    | wait i =>
      rw [hparent] at hborn
      exact absurd rfl hborn.2.1
    | returned =>
      rw [hparent] at hborn
      exact nomatch hborn.1
  | printing | exited | reaped =>
    rw [hgrep] at hended
    rcases hended rfl with hps | hps <;> exact nomatch hps
  | _ => simp [GrepPc.reads]

theorem Inv.write (hinv : Inv P a) {x : α} {rest : List α} (hplace : a.ps = .writing (x :: rest)) :
    Inv P { a with ps := .writing rest, pipe := a.pipe ++ [x] } := by
  refine ⟨hinv.born.movePs ?_ ⟨nofun, nofun⟩, fun hfound => ?_, hinv.terminal⟩
  · rw [hplace]
    exact ⟨nofun, nofun⟩
  · obtain ⟨-, hbytes, hended⟩ := hinv.pipe hfound
    rw [hplace] at hbytes hended
    refine ⟨nofun, fun got hgot => ?_, fun hnone => ?_⟩
    · simpa [PsPc.toCome] using hbytes got hgot
    · rcases hended hnone with hps | hps <;> cases hps

theorem Inv.end_of_file (hinv : Inv P a) (hfound : P.grepFound = true) {got : List α} (hplace : a.grep = .reading got)
    (hpipe : a.pipe = []) (hwrite : ¬ a.writes = true) : got = P.all ∧ (a.ps = .exited ∨ a.ps = .reaped) := by
  obtain ⟨halive, hbytes, -⟩ := hinv.pipe hfound
  have hthere := hinv.born.ps_there (by rw [hplace]; nofun)
  rw [hplace, hpipe] at hbytes
  have hall := hbytes got rfl
  unfold Places.writes at hwrite
  cases hps : a.ps with
  | unborn => exact absurd hps hthere
  | killed => exact absurd hps halive
  | exited =>
    rw [hps] at hall
    exact ⟨by simpa [PsPc.toCome] using hall, .inl rfl⟩
  | reaped =>
    rw [hps] at hall
    exact ⟨by simpa [PsPc.toCome] using hall, .inr rfl⟩
  | _ => simp [hps, PsPc.writes] at hwrite

theorem Inv.read (hinv : Inv P a) {got : List α} {x : α} {pipe : List α} (hplace : a.grep = .reading got)
    (hpipe : a.pipe = x :: pipe) : Inv P { a with grep := .reading (got ++ [x]), pipe } := by
  have hterminal := hinv.terminal
  rw [hplace] at hterminal
  refine ⟨hinv.born.moveGrep ?_ ⟨nofun, nofun⟩, fun hfound => ?_, hterminal⟩
  · rw [hplace]
    exact ⟨nofun, nofun⟩
  · obtain ⟨halive, hbytes, -⟩ := hinv.pipe hfound
    rw [hplace, hpipe] at hbytes
    refine ⟨halive, fun got' hgot' => ?_, nofun⟩
    obtain rfl := Option.some.inj hgot'
    simpa using hbytes got rfl

theorem Inv.endOfFile (hinv : Inv P a) {got : List α} (hplace : a.grep = .reading got) (hpipe : a.pipe = [])
    (hwrite : ¬ a.writes = true) : Inv P { a with grep := .printing (P.grep got) } := by
  have hterminal := hinv.terminal
  rw [hplace] at hterminal
  obtain ⟨hfound, hnothing⟩ := hterminal
  obtain ⟨rfl, hended⟩ := hinv.end_of_file hfound hplace hpipe hwrite
  refine ⟨hinv.born.moveGrep ?_ ⟨nofun, nofun⟩,
    fun hfound => ⟨(hinv.pipe hfound).alive, nofun, fun _ => hended⟩, hfound, ?_⟩
  · rw [hplace]
    exact ⟨nofun, nofun⟩
  · dsimp only
    rw [hnothing, List.nil_append]
    exact (if_pos hfound).symm

theorem Inv.printing (hinv : Inv P a) {rest : List α} (hplace : a.grep = .printing rest) {grep' : GrepPc α}
    {terminal : List α} (hnew : grep' ≠ .unborn ∧ grep' ≠ .reaped) (hgot : grep'.got = none)
    (hterminal : TerminalOk P terminal grep') : Inv P { a with grep := grep', terminal } := by
  refine ⟨hinv.born.moveGrep ?_ hnew, fun hfound => ?_, hterminal⟩
  · rw [hplace]
    exact ⟨nofun, nofun⟩
  · obtain ⟨halive, -, hended⟩ := hinv.pipe hfound
    rw [hplace] at hended
    refine ⟨halive, fun got hgot' => ?_, fun _ => hended rfl⟩
    rw [hgot] at hgot'
    cases hgot'

theorem Places.Move.inv (h : a.Move P a') (hinv : Inv P a) : Inv P a' := by
  have hborn := hinv.born
  have hterminal := hinv.terminal
  cases h with
  | pipe hplace | close0 hplace =>
    rw [hplace] at hborn
    exact ⟨hborn, hinv.pipe, hterminal⟩
  | forkPs hplace => exact hinv.forkPs hplace
  | forkGrep hplace => exact hinv.forkGrep hplace
  | close1 hplace =>
    rw [hplace] at hborn
    obtain ⟨hps, hps', hgrep, hgrep'⟩ := hborn
    refine ⟨⟨hps, hgrep, ?_⟩, hinv.pipe, hterminal⟩
    rw [if_neg hps', if_neg hgrep']
  | finish hplace hi =>
    rw [hplace] at hborn
    exact ⟨hborn.finish hi, hinv.pipe, hterminal⟩
  | reapPs hplace hended => exact hinv.reapPs hplace hended
  | reapGrep hplace hended => exact hinv.reapGrep hplace hended
  | psClose0 hplace | psDup hplace | psClose1 hplace | psEnd hplace =>
    apply hinv.movePs
    · rw [hplace]
      exact ⟨nofun, nofun, nofun⟩
    · exact ⟨nofun, nofun, nofun⟩
    · rw [hplace]
      rfl
  | psFound hplace hfound =>
    apply hinv.movePs
    · rw [hplace]
      exact ⟨nofun, nofun, nofun⟩
    · exact ⟨nofun, nofun, nofun⟩
    · rw [hplace]
      exact (if_pos hfound).symm
  | psMissing stderr hplace hfound =>
    apply hinv.movePs
    · rw [hplace]
      exact ⟨nofun, nofun, nofun⟩
    · exact ⟨nofun, nofun, nofun⟩
    · rw [hplace]
      exact (if_neg hfound).symm
  | psKilled hplace hread =>
    refine ⟨hborn.movePs ?_ ⟨nofun, nofun⟩, fun hfound => absurd (hinv.reads hfound hplace) hread, hterminal⟩
    rw [hplace]
    exact ⟨nofun, nofun⟩
  | write hplace => exact hinv.write hplace
  | grepClose1 hplace | grepDup hplace | grepClose0 hplace =>
    rw [hplace] at hterminal
    apply hinv.moveGrep
    · rw [hplace]
      exact ⟨nofun, rfl⟩
    · exact ⟨nofun, rfl⟩
    · exact hterminal
  | grepFound hplace hfound =>
    rw [hplace] at hterminal
    apply hinv.moveGrep
    · rw [hplace]
      exact ⟨nofun, rfl⟩
    · exact ⟨nofun, rfl⟩
    · exact ⟨hfound, hterminal⟩
  | grepMissing stderr hplace hfound =>
    rw [hplace] at hterminal
    refine ⟨hborn.moveGrep ?_ ⟨nofun, nofun⟩, fun hfound' => absurd hfound' hfound, ?_⟩
    · rw [hplace]
      exact ⟨nofun, nofun⟩
    · exact hterminal.trans (if_neg hfound).symm
  | read hplace hpipe => exact hinv.read hplace hpipe
  | endOfFile hplace hpipe hwrite => exact hinv.endOfFile hplace hpipe hwrite
  | print hplace =>
    rw [hplace] at hterminal
    exact hinv.printing hplace ⟨nofun, nofun⟩ rfl ⟨hterminal.1, by simpa using hterminal.2⟩
  | grepEnd hplace =>
    rw [hplace] at hterminal
    exact hinv.printing hplace ⟨nofun, nofun⟩ rfl ((List.append_nil _).symm.trans hterminal.2)

/-! ## All runs end -/

def ParentPc.rank : ParentPc → Nat
  | .pipe => 8
  | .forkPs => 7
  | .forkGrep => 6
  | .close0 => 5
  | .close1 => 4
  | .wait i => 3 - i
  | .returned => 0

def PsPc.rank (P : Setting δ α) : PsPc α → Nat
  | .unborn | .close0 => 2 * P.listing.length + 6
  | .dup => 2 * P.listing.length + 5
  | .close1 => 2 * P.listing.length + 4
  | .exec => 2 * P.listing.length + 3
  | .writing rest => 2 * rest.length + 2
  | .exited | .killed => 1
  | .reaped => 0

def GrepPc.rank (P : Setting δ α) : GrepPc α → Nat
  | .unborn | .close1 => P.shown.length + 7
  | .dup => P.shown.length + 6
  | .close0 => P.shown.length + 5
  | .exec => P.shown.length + 4
  | .reading _ => P.shown.length + 3
  | .printing rest => rest.length + 2
  | .exited => 1
  | .reaped => 0

def Places.rank (P : Setting δ α) (a : Places α) : Nat :=
  a.parent.rank + a.ps.rank P + a.grep.rank P + a.pipe.length

theorem Places.Move.rank_lt (h : a.Move P a') (hinv : Inv P a) : a'.rank P < a.rank P := by
  have hborn := hinv.born
  have hterminal := hinv.terminal
  unfold Places.rank
  cases h with
  | pipe hplace | close0 hplace | close1 hplace =>
    simp only [hplace, ParentPc.rank]
    omega
  | forkPs hplace =>
    rw [hplace] at hborn
    simp only [hplace, hborn.1, ParentPc.rank, PsPc.rank]
    omega
  | forkGrep hplace =>
    rw [hplace] at hborn
    simp only [hplace, hborn.2.2, ParentPc.rank, GrepPc.rank]
    omega
  | finish hplace =>
    rw [hplace] at hborn
    have hi := hborn.2.2
    simp only [hplace, ParentPc.rank]
    split_ifs at hi <;> omega
  | reapPs hplace hended =>
    rcases hended with hps | hps <;> simp only [hplace, hps, ParentPc.rank, PsPc.rank] <;> omega
  | reapGrep hplace hended =>
    simp only [hplace, hended, ParentPc.rank, GrepPc.rank]
    omega
  | psClose0 hplace | psDup hplace | psClose1 hplace | psFound hplace | psMissing _ hplace =>
    simp only [hplace, PsPc.rank]
    omega
  | psEnd hplace | psKilled hplace | write hplace =>
    simp only [hplace, PsPc.rank, List.length_cons, List.length_append, List.length_nil]
    omega
  | grepClose1 hplace | grepDup hplace | grepClose0 hplace | grepFound hplace | grepMissing _ hplace =>
    simp only [hplace, GrepPc.rank]
    omega
  | read hplace hpipe =>
    simp only [hplace, hpipe, GrepPc.rank, List.length_cons]
    omega
  | endOfFile hplace hpipe hwrite =>
    rw [hplace] at hterminal
    obtain ⟨rfl, -⟩ := hinv.end_of_file hterminal.1 hplace hpipe hwrite
    have hshown : P.shown = P.grep P.all := if_pos hterminal.1
    simp only [hplace, hshown, GrepPc.rank]
    omega
  | print hplace | grepEnd hplace =>
    simp only [hplace, GrepPc.rank, List.length_cons, List.length_nil]
    omega

theorem exists_ps (P : Setting δ α) (hcap : 0 < P.capacity) (hthere : a.ps ≠ .unborn)
    (hended : a.ps ≠ .exited ∧ a.ps ≠ .killed ∧ a.ps ≠ .reaped) (hroom : a.pipe = [] ∨ ¬ a.reads = true) :
    ∃ a', a.exec P .ps = some a' := by
  simp only [Places.exec]
  cases hplace : a.ps with
  | unborn => exact absurd hplace hthere
  | exited => exact absurd hplace hended.1
  | killed => exact absurd hplace hended.2.1
  | reaped => exact absurd hplace hended.2.2
  | exec =>
    simp only
    split_ifs <;> exact ⟨_, rfl⟩
  | writing rest =>
    cases rest with
    | nil => exact ⟨_, rfl⟩
    | cons x rest =>
      simp only
      rcases hroom with hempty | hnobody
      · rw [hempty, List.length_nil, if_pos hcap]
        split_ifs <;> exact ⟨_, rfl⟩
      · rw [if_pos hnobody]
        exact ⟨_, rfl⟩
  | _ => exact ⟨_, rfl⟩

theorem exists_grep (P : Setting δ α) (hthere : a.grep ≠ .unborn) (hended : a.grep ≠ .exited ∧ a.grep ≠ .reaped) :
    (∃ a', a.exec P .grep = some a') ∨ a.pipe = [] ∧ a.writes = true ∧ ∃ got, a.grep = .reading got := by
  simp only [Places.exec]
  cases hplace : a.grep with
  | unborn => exact absurd hplace hthere
  | exited => exact absurd hplace hended.1
  | reaped => exact absurd hplace hended.2
  | exec =>
    simp only
    split_ifs <;> exact .inl ⟨_, rfl⟩
  | reading got =>
    cases hpipe : a.pipe with
    | cons x pipe => exact .inl ⟨_, rfl⟩
    | nil =>
      by_cases hwrite : a.writes = true
      · exact .inr ⟨rfl, hwrite, got, rfl⟩
      · simp only [hwrite]
        exact .inl ⟨_, rfl⟩
  | printing rest => cases rest <;> exact .inl ⟨_, rfl⟩
  | _ => exact .inl ⟨_, rfl⟩

theorem exists_step (hinv : Inv P a) (hcap : 0 < P.capacity) (hmain : a.parent ≠ .returned) :
    ∃ actor a', a.exec P actor = some a' := by
  have hborn := hinv.born
  by_contra hstuck
  push Not at hstuck
  have hnot : ∀ actor, ¬ ∃ a', a.exec P actor = some a' := fun actor ⟨a', h⟩ => hstuck actor a' h
  cases hplace : a.parent with
  | returned => exact hmain hplace
  | wait i =>
    rw [hplace] at hborn
    obtain ⟨hps, hgrep, hi⟩ := hborn
    have hwait : i < 2 := by
      by_contra hle
      exact hnot .parent ⟨_, by simp only [Places.exec, hplace, hle, if_false]; rfl⟩
    have hpsEnded : ¬ (a.ps = .exited ∨ a.ps = .killed) := fun hended =>
      hnot (.reap .ps) ⟨_, by simp only [Places.exec, hplace, hwait, hended, and_self, if_true]; rfl⟩
    have hgrepEnded : ¬ a.grep = .exited := fun hended =>
      hnot (.reap .grep) ⟨_, by simp only [Places.exec, hplace, hwait, hended, and_self, if_true]; rfl⟩
    rw [not_or] at hpsEnded
    by_cases hgrepReaped : a.grep = .reaped
    · have hpsReaped : a.ps ≠ .reaped := by
        intro hpsReaped
        rw [if_pos hpsReaped, if_pos hgrepReaped] at hi
        omega
      by_cases hread : a.reads = true
      · -- Nobody but `ps` is there, and it has closed the reading end or can do so.
        unfold Places.reads at hread
        rw [hplace, hgrepReaped] at hread
        have hclose0 : a.ps = .close0 := by
          cases hpsPlace : a.ps <;> simp_all [ParentPc.reads, PsPc.reads, GrepPc.reads]
        exact hnot .ps ⟨_, by simp only [Places.exec, hclose0]; rfl⟩
      · exact hnot .ps (exists_ps P hcap hps ⟨hpsEnded.1, hpsEnded.2, hpsReaped⟩ (.inr hread))
    · rcases exists_grep P hgrep ⟨hgrepEnded, hgrepReaped⟩ with hgo | ⟨hempty, hwrite, got, hreading⟩
      · exact hnot .grep hgo
      · have hpsReaped : a.ps ≠ .reaped := by
          intro hpsReaped
          unfold Places.writes at hwrite
          rw [hplace, hreading, hpsReaped] at hwrite
          exact nomatch hwrite
        exact hnot .ps (exists_ps P hcap hps ⟨hpsEnded.1, hpsEnded.2, hpsReaped⟩ (.inl hempty))
  | _ => exact hnot .parent ⟨_, by simp only [Places.exec, hplace]; rfl⟩

end Steps

/-! ## The program -/

section Program

variable [DecidableEq α] [DecidableEq δ] [Fintype δ] {P : Setting δ α}

def places (P : Setting δ α) : System (Places α) Actor where
  init a := a = Places.start
  step a actor a' := a.exec P actor = some a'

omit [DecidableEq δ] [Fintype δ] in
theorem reachable_inv {a : Places α} (h : Reachable (places P) a) : Inv P a := by
  refine h.invariant (P := Inv P) ?_ ?_
  · rintro _ rfl
    exact inv_start P
  · intro a actor a' _ hinv hstep
    exact (move_of_exec hstep).inv hinv

end Program

/-- `grep` looks for large numbers, and one number at a time is in the pipe. -/
def sampleSetting : Setting (Fin 5) Nat where
  stdin := 0
  stdout := 1
  pfd0 := 3
  pfd1 := 4
  inherited fd := fd ≤ 2
  listing := [1, 8]
  grep input := input.filter (5 ≤ ·)
  capacity := 1
  psFound := true
  grepFound := true

theorem sampleSetting_ok : sampleSetting.Ok :=
  ⟨by decide, by decide, by decide, by decide, by decide, by decide, by decide⟩

def sampleRun : List Actor :=
  [.parent, .parent, .parent, .ps, .ps, .ps, .ps, .ps, .grep, .parent, .grep, .parent, .grep, .grep, .grep, .ps, .ps,
    .reap .ps, .grep, .grep, .grep, .grep, .reap .grep, .parent]

end OsCoursework.Pipeline
