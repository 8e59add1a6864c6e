import OsCoursework.Lib.Threads
import OsCoursework.Triangles.Count
import OsCoursework.Triangles.Workers

/-!
# The workers and the pipe

However the processes take turns, `main` reads the count of every worker once, every triangle is
reported once, and the run ends.
-/

open OsCoursework.Fuel OsCoursework.ForLoop OsCoursework.Threads OsCoursework.Transition

namespace OsCoursework.Triangles.Process

variable {workers : Nat} {P : Setting workers} {s s' : State workers} {wid : Fin workers}

/-! ## The invariant -/

/-- The count of the worker is in the pipe, or was. -/
def WorkerPc.sent : WorkerPc → Nat
  | .closing | .exited | .reaped => 1
  | _ => 0

def WorkerPc.isReaped : WorkerPc → Nat
  | .reaped => 1
  | _ => 0

def Setting.counted (P : Setting workers) (wid : Fin workers) (p : WorkerPc) : CInt :=
  if p.sent = 1 then (P.tallies wid).count else 0

/-- The lines still to come. -/
def Setting.remaining (P : Setting workers) (wid : Fin workers) : WorkerPc → Multiset Line
  | .unborn | .born => P.lines wid
  | .printing lines => lines
  | _ => 0

/-- `i` counts were read so far, with the sum `total`. -/
structure Numbers (P : Setting workers) (worker : Fin workers → WorkerPc) (pipe : List CInt) (i : Nat) (total : CInt) :
    Prop where
  number : i + pipe.length = ∑ wid, (worker wid).sent
  total : total + pipe.sum = ∑ wid, P.counted wid (worker wid)

def MainOk (P : Setting workers) (worker : Fin workers → WorkerPc) (pipe : List CInt) : MainPc → Prop
  | .forking i => i ≤ workers ∧ (∀ wid, worker wid = .unborn ↔ i ≤ wid) ∧ (∀ wid, worker wid ≠ .reaped) ∧
      Numbers P worker pipe 0 0
  | .closing => (∀ wid, worker wid ≠ .unborn) ∧ (∀ wid, worker wid ≠ .reaped) ∧ Numbers P worker pipe 0 0
  | .reading i _ total => i ≤ workers ∧ (∀ wid, worker wid ≠ .unborn) ∧ (∀ wid, worker wid ≠ .reaped) ∧
      Numbers P worker pipe i total
  | .waiting i total => i ≤ workers ∧ (∀ wid, (worker wid).sent = 1) ∧ i = ∑ wid, (worker wid).isReaped ∧
      total = ∑ wid, (P.tallies wid).count
  | .returned total => (∀ wid, worker wid = .reaped) ∧ total = ∑ wid, (P.tallies wid).count

def MainPc.printed : MainPc → List Line
  | .returned total => [.total total.toInt]
  | _ => []

/-- The lines of the workers, and behind them the line of `main`. -/
def OutputOk (P : Setting workers) (s : State workers) : Prop :=
  ∃ reports : List Line, s.output = reports ++ s.main.printed ∧
    (reports : Multiset Line) + ∑ wid, P.remaining wid (s.worker wid) = ∑ wid, (P.lines wid : Multiset Line)

structure Inv (P : Setting workers) (s : State workers) : Prop where
  main : MainOk P s.worker s.pipe s.main
  alive : ∀ wid, s.worker wid ≠ .killed
  output : OutputOk P s

theorem inv_start (P : Setting workers) : Inv P (start workers) where
  main := ⟨Nat.zero_le _, fun wid => iff_of_true rfl (Nat.zero_le _), nofun, by simp [start, WorkerPc.sent],
    by simp [start, Setting.counted, WorkerPc.sent]⟩
  alive := nofun
  output := ⟨[], rfl, by simp [start, Setting.remaining]⟩

variable {worker : Fin workers → WorkerPc} {pipe : List CInt} {m : MainPc} {i : Nat} {sum : CInt} {p : WorkerPc}

theorem sent_le (p : WorkerPc) : p.sent ≤ 1 := by
  cases p <;> simp [WorkerPc.sent]

theorem isReaped_le (p : WorkerPc) : p.isReaped ≤ 1 := by
  cases p <;> simp [WorkerPc.isReaped]

theorem Numbers.all (h : Numbers P worker pipe workers sum) :
    (∀ wid, (worker wid).sent = 1) ∧ sum = ∑ wid, (P.tallies wid).count := by
  have hle : ∑ wid, (worker wid).sent ≤ workers := by
    calc ∑ wid, (worker wid).sent ≤ ∑ _wid : Fin workers, 1 := Finset.sum_le_sum fun wid _ => sent_le _
      _ = workers := by simp
  have hnumber := h.number
  have hall : ∀ wid, (worker wid).sent = 1 := by
    apply eq_one_of_sum_eq_card fun wid => sent_le _
    rw [Fintype.card_fin]
    omega
  have hpipe : pipe = [] := List.length_eq_zero_iff.mp (by omega)
  have htotal := h.total
  rw [hpipe, List.sum_nil, add_zero] at htotal
  refine ⟨hall, htotal.trans (Finset.sum_congr rfl fun wid _ => ?_)⟩
  rw [Setting.counted, if_pos (hall wid)]

/-! ## Steps of a worker -/

theorem sum_sent_update (worker : Fin workers → WorkerPc) (wid : Fin workers) (p : WorkerPc) :
    ∑ other, (Function.update worker wid p other).sent + (worker wid).sent = ∑ other, (worker other).sent + p.sent :=
  sum_update_at (fun _ => WorkerPc.sent) worker wid p

theorem Numbers.update (h : Numbers P worker pipe i sum) (hp : p.sent = (worker wid).sent) :
    Numbers P (Function.update worker wid p) pipe i sum where
  number := by
    have hsum := sum_sent_update worker wid p
    rw [hp, ← h.number] at hsum
    exact (Nat.add_right_cancel hsum).symm
  total := by
    have hsum := sum_update_at P.counted worker wid p
    rw [Setting.counted, Setting.counted, hp, ← h.total] at hsum
    exact (add_right_cancel hsum).symm

theorem Numbers.write (h : Numbers P worker pipe i sum) (hzero : (worker wid).sent = 0) :
    Numbers P (Function.update worker wid .closing) (pipe ++ [(P.tallies wid).count]) i sum where
  number := by
    have hsum := sum_sent_update worker wid .closing
    have hnumber := h.number
    have hone : WorkerPc.closing.sent = 1 := rfl
    rw [List.length_append, List.length_singleton]
    omega
  total := by
    have hsum := sum_update_at P.counted worker wid .closing
    have hold : P.counted wid (worker wid) = 0 := by simp [Setting.counted, hzero]
    have hnew : P.counted wid .closing = (P.tallies wid).count := rfl
    rw [hold, add_zero, hnew, ← h.total] at hsum
    rw [List.sum_append, List.sum_singleton, ← add_assoc]
    exact hsum.symm

theorem Numbers.read {next : CInt} (h : Numbers P worker (next :: pipe) i sum) :
    Numbers P worker pipe (i + 1) (sum + next) where
  number := by
    rw [← h.number, List.length_cons]
    omega
  total := by rw [← h.total, List.sum_cons, add_assoc]

theorem MainOk.update (h : MainOk P worker pipe m) (hborn : worker wid ≠ .unborn) (hreaped : worker wid ≠ .reaped)
    (hp : p ≠ .unborn ∧ p ≠ .reaped) (hsent : p.sent = (worker wid).sent) :
    MainOk P (Function.update worker wid p) pipe m := by
  have hunborn : ∀ other, Function.update worker wid p other = .unborn ↔ worker other = .unborn := fun _ =>
    update_eq_iff hp.1 hborn
  have hreaped' : ∀ other, Function.update worker wid p other = .reaped ↔ worker other = .reaped := fun _ =>
    update_eq_iff hp.2 hreaped
  rcases m with i | _ | ⟨i, count, total⟩ | ⟨i, total⟩ | total
  · exact ⟨h.1, fun other => (hunborn other).trans (h.2.1 other), fun other => (hreaped' other).not.mpr (h.2.2.1 other),
      h.2.2.2.update hsent⟩
  · exact ⟨fun other => (hunborn other).not.mpr (h.1 other), fun other => (hreaped' other).not.mpr (h.2.1 other),
      h.2.2.update hsent⟩
  · exact ⟨h.1, fun other => (hunborn other).not.mpr (h.2.1 other), fun other => (hreaped' other).not.mpr (h.2.2.1 other),
      h.2.2.2.update hsent⟩
  · refine ⟨h.1, fun other => ?_, h.2.2.1.trans (sum_update_of_eq (fun _ p => WorkerPc.isReaped p) ?_).symm, h.2.2.2⟩
    · by_cases hother : other = wid
      · subst hother
        rw [Function.update_self, hsent]
        exact h.2.1 other
      · rw [Function.update_of_ne hother]
        exact h.2.1 other
    · cases p <;> cases hold : worker wid <;> simp_all [WorkerPc.isReaped]
  · exact absurd (h.1 wid) hreaped

theorem MainOk.reads (h : MainOk P worker pipe m) (hsent : (worker wid).sent = 0) : m.reads = true := by
  rcases m with i | _ | ⟨i, count, total⟩ | ⟨i, total⟩ | total
  · rfl
  · rfl
  · rfl
  · rw [h.2.1 wid] at hsent
    cases hsent
  · rw [h.1 wid] at hsent
    cases hsent

theorem MainOk.write (h : MainOk P worker pipe m) (hpc : worker wid = .printing []) :
    MainOk P (Function.update worker wid .closing) (pipe ++ [(P.tallies wid).count]) m := by
  have hzero : (worker wid).sent = 0 := by rw [hpc]; rfl
  have hunborn : ∀ other, Function.update worker wid .closing other = .unborn ↔ worker other = .unborn := fun _ =>
    update_eq_iff nofun (by simp [hpc])
  have hreaped : ∀ other, Function.update worker wid .closing other = .reaped ↔ worker other = .reaped := fun _ =>
    update_eq_iff nofun (by simp [hpc])
  have hreads := h.reads hzero
  rcases m with i | _ | ⟨i, count, total⟩ | ⟨i, total⟩ | total
  · exact ⟨h.1, fun other => (hunborn other).trans (h.2.1 other), fun other => (hreaped other).not.mpr (h.2.2.1 other),
      h.2.2.2.write hzero⟩
  · exact ⟨fun other => (hunborn other).not.mpr (h.1 other), fun other => (hreaped other).not.mpr (h.2.1 other),
      h.2.2.write hzero⟩
  · exact ⟨h.1, fun other => (hunborn other).not.mpr (h.2.1 other), fun other => (hreaped other).not.mpr (h.2.2.1 other),
      h.2.2.2.write hzero⟩
  · cases hreads
  · cases hreads

theorem MainOk.printed (h : MainOk P worker pipe m) (hreaped : worker wid ≠ .reaped) : m.printed = [] := by
  rcases m with i | _ | ⟨i, count, total⟩ | ⟨i, total⟩ | total
  · rfl
  · rfl
  · rfl
  · rfl
  · exact absurd (h.1 wid) hreaped

/-! ### Output -/

theorem sum_remaining_goto (P : Setting workers) (s : State workers) (wid : Fin workers) (p : WorkerPc) :
    ∑ other, P.remaining other ((s.goto wid p).worker other) + P.remaining wid (s.worker wid) =
      ∑ other, P.remaining other (s.worker other) + P.remaining wid p :=
  sum_update_at P.remaining s.worker wid p

theorem OutputOk.goto (h : OutputOk P s) (hp : P.remaining wid p = P.remaining wid (s.worker wid)) :
    OutputOk P (s.goto wid p) := by
  obtain ⟨reports, hout, hsum⟩ := h
  refine ⟨reports, hout, ?_⟩
  have hgoto := sum_remaining_goto P s wid p
  rw [hp] at hgoto
  rw [add_right_cancel hgoto, hsum]

theorem OutputOk.print {line : Line} {lines : List Line} (h : OutputOk P s) (hpc : s.worker wid = .printing (line :: lines))
    (hprinted : s.main.printed = []) : OutputOk P ({ s with output := s.output ++ [line] }.goto wid (.printing lines)) := by
  obtain ⟨reports, hout, hsum⟩ := h
  rw [hprinted, List.append_nil] at hout
  refine ⟨reports ++ [line], ?_, ?_⟩
  · simp [State.goto, hprinted, hout]
  · have hgoto := sum_remaining_goto P { s with output := s.output ++ [line] } wid (.printing lines)
    have hold : P.remaining wid (s.worker wid) = {line} + (lines : Multiset Line) := by rw [hpc]; rfl
    rw [hold, ← add_assoc] at hgoto
    rw [← hsum, ← add_right_cancel hgoto, ← Multiset.coe_add, Multiset.coe_singleton, add_assoc,
      add_comm ({line} : Multiset Line)]

theorem alive_goto (h : ∀ other, s.worker other ≠ .killed) (hp : p ≠ .killed) (other : Fin workers) :
    (s.goto wid p).worker other ≠ .killed :=
  (update_eq_iff hp (h wid)).not.mpr (h other)

theorem inv_execWorker (h : Inv P s) (hstep : execWorker P s wid = some s') : Inv P s' := by
  unfold execWorker at hstep
  split at hstep
  case h_1 hpc =>
    cases hstep
    refine ⟨?_, alive_goto h.alive nofun, h.output.goto (by rw [hpc]; rfl)⟩
    exact h.main.update (by simp [hpc]) (by simp [hpc]) ⟨nofun, nofun⟩ (by rw [hpc]; rfl)
  case h_2 line lines hpc =>
    cases hstep
    have hreaped : s.worker wid ≠ .reaped := by simp [hpc]
    refine ⟨?_, alive_goto h.alive nofun, h.output.print hpc (h.main.printed hreaped)⟩
    exact h.main.update (by simp [hpc]) hreaped ⟨nofun, nofun⟩ (by rw [hpc]; rfl)
  case h_3 hpc =>
    have hreader : s.hasReader := .inl (h.main.reads (by rw [hpc]; rfl))
    rw [if_neg (not_not.mpr hreader)] at hstep
    split_ifs at hstep
    cases hstep
    refine ⟨h.main.write hpc, alive_goto h.alive nofun, ?_⟩
    exact h.output.goto (p := .closing) (by rw [hpc]; rfl)
  case h_4 hpc =>
    cases hstep
    refine ⟨?_, alive_goto h.alive nofun, h.output.goto (by rw [hpc]; rfl)⟩
    exact h.main.update (by simp [hpc]) (by simp [hpc]) ⟨nofun, nofun⟩ (by rw [hpc]; rfl)
  case h_5 | h_6 | h_7 | h_8 => cases hstep

/-! ## Steps of main -/

theorem MainOk.fork (h : MainOk P worker pipe (.forking i)) (hi : i < workers) :
    worker ⟨i, hi⟩ = .unborn ∧ MainOk P (Function.update worker ⟨i, hi⟩ .born) pipe (.forking (i + 1)) := by
  obtain ⟨hle, hunborn, hreaped, hnumbers⟩ := h
  have hpc : worker ⟨i, hi⟩ = .unborn := (hunborn _).mpr le_rfl
  refine ⟨hpc, hi, fun other => ?_, fun other heq => ?_, hnumbers.update (by rw [hpc]; rfl)⟩
  · by_cases hother : other = ⟨i, hi⟩
    · subst hother
      simp
    · rw [Function.update_of_ne hother, hunborn]
      have hne : (other : Nat) ≠ i := fun heq => hother (Fin.ext heq)
      omega
  · have hold : worker ⟨i, hi⟩ ≠ .reaped := by simp [hpc]
    exact hreaped other ((update_eq_iff (by simp) hold).mp heq)

theorem MainOk.reap (h : MainOk P worker pipe (.waiting i sum)) (hi : i < workers) (hpc : worker wid = .exited) :
    MainOk P (Function.update worker wid .reaped) pipe (.waiting (i + 1) sum) := by
  obtain ⟨hle, hsent, hsum, htotal⟩ := h
  refine ⟨hi, fun other => ?_, ?_, htotal⟩
  · by_cases hother : other = wid
    · subst hother
      simp [WorkerPc.sent]
    · rw [Function.update_of_ne hother]
      exact hsent other
  · have hreap : ∑ other, (Function.update worker wid .reaped other).isReaped + (worker wid).isReaped =
        ∑ other, (worker other).isReaped + 1 := sum_update_at (fun _ => WorkerPc.isReaped) worker wid .reaped
    rw [hpc] at hreap
    exact (hreap.trans (congrArg (· + 1) hsum.symm)).symm

theorem Inv.end_of_file (h : Inv P s) (hborn : ∀ wid, s.worker wid ≠ .unborn) (hpipe : s.pipe = [])
    (hnumbers : Numbers P s.worker s.pipe i sum) (hwrites : ¬ ∃ wid, (s.worker wid).writes = true) : i = workers := by
  have hsent : ∀ wid, (s.worker wid).sent = 1 := by
    intro wid
    have hw := not_exists.mp hwrites wid
    have halive := h.alive wid
    have hb := hborn wid
    cases hpc : s.worker wid <;> simp_all [WorkerPc.writes, WorkerPc.sent]
  have hnumber := hnumbers.number
  simp only [hpipe, hsent, List.length_nil, Finset.sum_const, Finset.card_univ, Fintype.card_fin, smul_eq_mul] at hnumber
  omega

theorem inv_execMain (h : Inv P s) (hstep : execMain P s = some s') : Inv P s' := by
  have hmain := h.main
  have hout := h.output
  unfold OutputOk at hout
  unfold execMain at hstep
  split at hstep
  case h_1 i hplace =>
    rw [hplace] at hmain hout
    split_ifs at hstep with hi
    · cases hstep
      obtain ⟨hpc, hfork⟩ := hmain.fork hi
      have hgoto : OutputOk P ({ s with main := .forking (i + 1) }.goto ⟨i, hi⟩ .born) :=
        OutputOk.goto hout (by rw [hpc]; rfl)
      exact ⟨hfork, alive_goto h.alive nofun, hgoto⟩
    · cases hstep
      obtain ⟨hle, hunborn, hreaped, hnumbers⟩ := hmain
      refine ⟨⟨fun wid hpc => ?_, hreaped, hnumbers⟩, h.alive, hout⟩
      have hlt := (hunborn wid).mp hpc
      omega
  case h_2 hplace =>
    cases hstep
    rw [hplace] at hmain hout
    exact ⟨⟨Nat.zero_le _, hmain⟩, h.alive, hout⟩
  case h_3 i count total hplace =>
    rw [hplace] at hmain hout
    obtain ⟨hle, hborn, hreaped, hnumbers⟩ := hmain
    by_cases hi : i < workers
    · rw [if_pos hi] at hstep
      split at hstep
      case h_1 next rest hpipe =>
        cases hstep
        rw [hpipe] at hnumbers
        exact ⟨⟨hi, hborn, hreaped, hnumbers.read⟩, h.alive, hout⟩
      case h_2 hpipe =>
        split_ifs at hstep with hwrites
        exact absurd (h.end_of_file hborn hpipe hnumbers hwrites) hi.ne
    · rw [if_neg hi] at hstep
      cases hstep
      obtain rfl : i = workers := le_antisymm hle (not_lt.mp hi)
      obtain ⟨hsent, htotal⟩ := hnumbers.all
      refine ⟨⟨Nat.zero_le _, hsent, Eq.symm (Finset.sum_eq_zero fun wid _ => ?_), htotal⟩, h.alive, hout⟩
      have hr := hreaped wid
      cases hpc : s.worker wid <;> simp_all [WorkerPc.isReaped]
  case h_4 i total hplace =>
    rw [hplace] at hmain hout
    obtain ⟨hle, hsent, hsum, htotal⟩ := hmain
    split_ifs at hstep with hi hall
    · exfalso
      simp only [hall, WorkerPc.isReaped, Finset.sum_const, Finset.card_univ, Fintype.card_fin, smul_eq_mul] at hsum
      omega
    · cases hstep
      have hreaped : ∀ wid, s.worker wid = .reaped := by
        intro wid
        have hone := eq_one_of_sum_eq_card (fun wid => isReaped_le (s.worker wid)) (by rw [Fintype.card_fin]; omega) wid
        cases hpc : s.worker wid <;> simp_all [WorkerPc.isReaped]
      obtain ⟨reports, hreports, hlines⟩ := hout
      refine ⟨⟨hreaped, htotal⟩, h.alive, reports, ?_, hlines⟩
      rw [hreports]
      simp [MainPc.printed]
  case h_5 => cases hstep

theorem inv_execReap (h : Inv P s) (hstep : execReap s wid = some s') : Inv P s' := by
  have hmain := h.main
  have hout := h.output
  unfold OutputOk at hout
  unfold execReap at hstep
  split at hstep
  case h_1 i total hplace =>
    rw [hplace] at hmain hout
    split_ifs at hstep with hi
    cases hstep
    have hpc : s.worker wid = .exited := hi.2.resolve_right (h.alive wid)
    have hgoto : OutputOk P ({ s with main := .waiting (i + 1) total }.goto wid .reaped) :=
      OutputOk.goto hout (by rw [hpc]; rfl)
    exact ⟨hmain.reap hi.1 hpc, alive_goto h.alive nofun, hgoto⟩
  case h_2 => cases hstep

theorem reachable_inv (h : Reachable (system P) s) : Inv P s := by
  refine h.invariant ?_ ?_
  · rintro _ rfl
    exact inv_start P
  · intro s actor s' _ hinv hstep
    cases actor with
    | main => exact inv_execMain hinv hstep
    | reap wid => exact inv_execReap hinv hstep
    | worker wid => exact inv_execWorker hinv hstep

/-! ## Nothing hangs -/

theorem exists_step (h : Inv P s) (hcap : 0 < P.capacity) (hmain : ∀ total, s.main ≠ .returned total) :
    ∃ actor s', exec P s actor = some s' := by
  have hok := h.main
  by_contra! hstuck
  have hstop : ∀ actor, exec P s actor = none := fun actor => Option.eq_none_iff_forall_not_mem.mpr (hstuck actor)
  -- A worker that is stuck before it wrote stands at a full pipe.
  have hworker : ∀ wid, s.worker wid = .unborn ∨ (s.worker wid = .printing [] ∧ s.pipe ≠ []) ∨ s.worker wid = .exited ∨
      s.worker wid = .reaped := by
    intro wid
    have hnone : execWorker P s wid = none := hstop (.worker wid)
    have halive := h.alive wid
    unfold execWorker at hnone
    split at hnone
    case h_3 hpc =>
      split_ifs at hnone with hreader hroom
      refine .inr (.inl ⟨hpc, fun hpipe => hroom ?_⟩)
      rw [hpipe]
      exact hcap
    all_goals simp_all
  have hnone : execMain P s = none := hstop .main
  unfold execMain at hnone
  rcases hplace : s.main with i | _ | ⟨i, count, total⟩ | ⟨i, total⟩ | total
  · simp only [hplace] at hnone
    split_ifs at hnone
  · simp [hplace] at hnone
  · simp only [hplace] at hnone
    split_ifs at hnone with hi hwrites
    · cases hpipe : s.pipe with
      | nil =>
        obtain ⟨wid, hwid⟩ := hwrites
        rcases hworker wid with hpc | ⟨hpc, hne⟩ | hpc | hpc
        · simp [hpc, WorkerPc.writes] at hwid
        · exact hne hpipe
        · simp [hpc, WorkerPc.writes] at hwid
        · simp [hpc, WorkerPc.writes] at hwid
      | cons next rest => simp [hpipe] at hnone
    · cases hpipe : s.pipe <;> simp [hpipe] at hnone
  · rw [hplace] at hok
    obtain ⟨-, hsent, -⟩ := hok
    simp only [hplace] at hnone
    split_ifs at hnone with hi hall
    obtain ⟨wid, hwid⟩ := not_forall.mp hall
    have hpc : s.worker wid = .exited := by
      have hone := hsent wid
      rcases hworker wid with hpc | ⟨hpc, -⟩ | hpc | hpc
      · simp [hpc, WorkerPc.sent] at hone
      · simp [hpc, WorkerPc.sent] at hone
      · exact hpc
      · exact absurd hpc hwid
    have hreap : execReap s wid = none := hstop (.reap wid)
    simp [execReap, hplace, hi, hpc] at hreap
  · exact hmain total hplace

/-! ## The steps to the end -/

def Setting.workerRank (P : Setting workers) (wid : Fin workers) : WorkerPc → Nat
  | .unborn => (P.lines wid).length + 5
  | .born => (P.lines wid).length + 4
  | .printing lines => lines.length + 3
  | .closing => 2
  | .exited | .killed => 1
  | .reaped => 0

def Setting.mainRank (_P : Setting workers) : MainPc → Nat
  | .forking _ => 2 * workers + 4
  | .closing => 2 * workers + 3
  | .reading i _ _ => (workers - i) + workers + 2
  | .waiting i _ => (workers - i) + 1
  | .returned _ => 0

def Setting.rank (P : Setting workers) (s : State workers) : Nat :=
  P.mainRank s.main + ∑ wid, P.workerRank wid (s.worker wid)

theorem rank_update_lt {wid : Fin workers} {old new : WorkerPc} (hold : s.worker wid = old)
    (hnew : s'.worker = Function.update s.worker wid new) (hmain : P.mainRank s'.main ≤ P.mainRank s.main)
    (hlt : P.workerRank wid new < P.workerRank wid old) : P.rank s' < P.rank s := by
  have hsum := sum_update_at P.workerRank s.worker wid new
  rw [hold] at hsum
  unfold Setting.rank
  rw [hnew]
  omega

theorem rank_execWorker (hstep : execWorker P s wid = some s') : P.rank s' < P.rank s := by
  unfold execWorker at hstep
  split at hstep
  case h_1 hpc =>
    cases hstep
    exact rank_update_lt hpc rfl le_rfl (Nat.lt_succ_self _)
  case h_2 line lines hpc =>
    cases hstep
    exact rank_update_lt hpc rfl le_rfl (Nat.lt_succ_self _)
  case h_3 hpc =>
    split_ifs at hstep
    · cases hstep
      exact rank_update_lt hpc rfl le_rfl (Nat.lt_succ_self _)
    · cases hstep
      exact rank_update_lt hpc rfl le_rfl (by simp [Setting.workerRank])
  case h_4 hpc =>
    cases hstep
    exact rank_update_lt hpc rfl le_rfl (Nat.lt_succ_self _)
  case h_5 | h_6 | h_7 | h_8 => cases hstep

theorem rank_execReap (hstep : execReap s wid = some s') : P.rank s' < P.rank s := by
  unfold execReap at hstep
  split at hstep
  case h_1 i total hplace =>
    split_ifs at hstep with hi
    cases hstep
    have hmain : P.mainRank (.waiting (i + 1) total) ≤ P.mainRank s.main := by
      rw [hplace]
      simp only [Setting.mainRank]
      omega
    rcases hi.2 with hpc | hpc
    · exact rank_update_lt hpc rfl hmain (Nat.lt_succ_self _)
    · exact rank_update_lt hpc rfl hmain (Nat.lt_succ_self _)
  case h_2 => cases hstep

theorem rank_execMain (hmain : MainOk P s.worker s.pipe s.main) (hstep : execMain P s = some s') : P.rank s' < P.rank s := by
  have hplaceRank : s'.worker = s.worker → P.mainRank s'.main < P.mainRank s.main → P.rank s' < P.rank s := by
    intro hworker hlt
    unfold Setting.rank
    rw [hworker]
    exact Nat.add_lt_add_right hlt _
  unfold execMain at hstep
  split at hstep
  case h_1 i hplace =>
    rw [hplace] at hmain
    split_ifs at hstep with hi
    · cases hstep
      exact rank_update_lt (hmain.fork hi).1 rfl (by rw [hplace]; rfl) (Nat.lt_succ_self _)
    · cases hstep
      exact hplaceRank rfl (by rw [hplace]; exact Nat.lt_succ_self _)
  case h_2 hplace =>
    cases hstep
    apply hplaceRank rfl
    rw [hplace]
    simp only [Setting.mainRank]
    omega
  case h_3 i count total hplace =>
    by_cases hi : i < workers
    · rw [if_pos hi] at hstep
      split at hstep
      case h_1 =>
        cases hstep
        apply hplaceRank rfl
        rw [hplace]
        simp only [Setting.mainRank]
        omega
      case h_2 =>
        split_ifs at hstep
        cases hstep
        apply hplaceRank rfl
        rw [hplace]
        simp only [Setting.mainRank]
        omega
    · rw [if_neg hi] at hstep
      cases hstep
      apply hplaceRank rfl
      rw [hplace]
      simp only [Setting.mainRank]
      omega
  case h_4 i total hplace =>
    split_ifs at hstep with hi
    · cases hstep
      apply hplaceRank rfl
      rw [hplace]
      simp only [Setting.mainRank]
      omega
    · cases hstep
      apply hplaceRank rfl
      rw [hplace]
      exact Nat.succ_pos _
  case h_5 => cases hstep

theorem rank_lt {actor : Actor workers} (h : Reachable (system P) s) (hstep : exec P s actor = some s') :
    P.rank s' < P.rank s := by
  cases actor with
  | main => exact rank_execMain (reachable_inv h).main hstep
  | reap wid => exact rank_execReap hstep
  | worker wid => exact rank_execWorker hstep

/-! ## The triangles -/

def Line.place : Line → Option (Nat × Nat × Nat)
  | .triangle _ _ _ _ _ i j k => some (i, j, k)
  | .total _ => none

theorem filterMap_mapIdx (f : Nat → Nat × Nat × Nat → Line) (hf : ∀ n t, (f n t).place = some t)
    (found : List (Nat × Nat × Nat)) : (found.mapIdx f).filterMap Line.place = found := by
  induction found generalizing f with
  | nil => rfl
  | cons t found ih =>
    rw [List.mapIdx_cons, List.filterMap_cons_some (hf 0 t)]
    exact congrArg (t :: ·) (ih (fun n => f (n + 1)) fun n => hf (n + 1))

theorem places_lines (hreport : P.report = true) (wid : Fin workers) :
    (P.lines wid).filterMap Line.place = (P.tallies wid).found := by
  unfold Setting.lines
  rw [if_pos hreport]
  exact filterMap_mapIdx _ (fun n t => rfl) _

/-- The workers do what `findTriangles` does. -/
def Setting.Counted (P : Setting workers) : Prop :=
  ∀ wid : Fin workers, Returns (fun fuel => countTriangles fuel P.vList (wid : Nat) workers) (P.tallies wid)

theorem Setting.Counted.tallies_eq (h : P.Counted) (hw : 0 < workers) (hfit : P.vList.length + workers < 2 ^ 31)
    (wid : Fin workers) :
    P.tallies wid = ⟨(foundBy P.vList (wid : Nat) workers).length, foundBy P.vList (wid : Nat) workers⟩ := by
  have hloops : Returns (fun fuel => countTriangles fuel P.vList (wid : Nat) workers)
      (Tally.start.add (foundBy P.vList (wid : Nat) workers)) :=
    countTriangles_returns (by omega) (by omega) (by omega) (by omega)
  rw [(h wid).unique hloops]
  simp [Tally.add, Tally.start]

theorem sum_counts (h : P.Counted) (hw : 0 < workers) (hfit : P.vList.length + workers < 2 ^ 31) :
    ∑ wid, (P.tallies wid).count = ((triangles P.vList).card : CInt) := by
  have hsum := sum_foundBy P.vList hw
  rw [← List.sum_toFinset _ List.nodup_range, List.toFinset_range] at hsum
  rw [← hsum, Nat.cast_sum, Finset.sum_range]
  exact Finset.sum_congr rfl fun wid _ => by rw [h.tallies_eq hw hfit]

theorem found_perm (h : P.Counted) (hw : 0 < workers) (hfit : P.vList.length + workers < 2 ^ 31) :
    ((List.finRange workers).flatMap fun wid => (P.tallies wid).found).Perm (triangles P.vList).toList := by
  have hfound : ∀ wid, (P.tallies wid).found = foundBy P.vList (wid : Nat) workers := fun wid => by
    rw [h.tallies_eq hw hfit]
  have hmem : ∀ wid t, t ∈ (P.tallies wid).found ↔ t ∈ triangles P.vList ∧ t.1 % workers = wid := by
    rintro wid ⟨i, j, k⟩
    rw [hfound, mem_foundBy (by omega) (by omega), mod_eq_iff wid.isLt]
  refine (List.perm_ext_iff_of_nodup ?_ (Finset.nodup_toList _)).mpr fun t => ?_
  · rw [List.nodup_flatMap]
    refine ⟨fun wid _ => ?_, (List.nodup_finRange workers).imp fun {wid wid'} hne t ht ht' => hne (Fin.ext ?_)⟩
    · rw [hfound]
      exact nodup_foundBy (by omega) (by omega)
    · rw [← ((hmem wid t).mp ht).2, ((hmem wid' t).mp ht').2]
  · rw [List.mem_flatMap, Finset.mem_toList]
    constructor
    · rintro ⟨wid, -, ht⟩
      exact ((hmem wid t).mp ht).1
    · intro ht
      exact ⟨⟨t.1 % workers, Nat.mod_lt _ hw⟩, List.mem_finRange _, (hmem _ t).mpr ⟨ht, rfl⟩⟩

theorem sum_coe_lines (P : Setting workers) :
    ∑ wid, (P.lines wid : Multiset Line) = ((List.finRange workers).flatMap P.lines : Multiset Line) := by
  have hlist : ∀ l : List (Fin workers), (l.map fun wid => (P.lines wid : Multiset Line)).sum = l.flatMap P.lines := by
    intro l
    induction l with
    | nil => rfl
    | cons wid l ih => rw [List.map_cons, List.sum_cons, ih, List.flatMap_cons, Multiset.coe_add]
  rw [Fin.sum_univ_def]
  exact hlist _

/-- **Every run ends, `main` prints the number of triangles, and in report mode each has its line before that.** -/
theorem workers_collect (hw : 0 < workers) (hfit : P.vList.length + workers < 2 ^ 31) (hcap : 0 < P.capacity)
    (hcounted : P.Counted) (as : List (Actor workers)) (s : State workers)
    (hrun : runSteps (exec P) (start workers) as = some s) :
    as.length ≤ P.rank (start workers) ∧
      ((∀ total, s.main ≠ .returned total) → ∃ actor s', exec P s actor = some s') ∧
      ∀ total, s.main = .returned total → total = ((triangles P.vList).card : CInt) ∧
        ∃ reports, s.output = reports ++ [.total total.toInt] ∧
          reports.Perm ((List.finRange workers).flatMap P.lines) ∧
          (P.report = true → (reports.filterMap Line.place).Perm (triangles P.vList).toList) := by
  have hinit : Reachable (system P) (start workers) := Reachable.init rfl
  have hinv := reachable_inv (hinit.runSteps (fun _ _ _ _ hstep => hstep) hrun)
  have hlength := length_runSteps_le P.rank (fun _ _ _ _ hstep => hstep) (fun _ _ _ h hstep => rank_lt h hstep) hinit hrun
  refine ⟨(Nat.le_add_right _ _).trans hlength, exists_step hinv hcap, fun total hreturned => ?_⟩
  have hmain := hinv.main
  obtain ⟨reports, hout, hsum⟩ := hinv.output
  rw [hreturned] at hmain hout
  obtain ⟨hreaped, rfl⟩ := hmain
  have hnone : ∑ wid, P.remaining wid (s.worker wid) = 0 := Finset.sum_eq_zero fun wid _ => by rw [hreaped wid]; rfl
  rw [hnone, add_zero, sum_coe_lines, Multiset.coe_eq_coe] at hsum
  refine ⟨sum_counts hcounted hw hfit, reports, hout, hsum, fun hreport => ?_⟩
  have hplaces := hsum.filterMap Line.place
  rw [List.filterMap_flatMap] at hplaces
  simp only [places_lines hreport] at hplaces
  exact hplaces.trans (found_perm hcounted hw hfit)

/-- There are four triangles, and the first worker finds three of them. -/
def fourTriangles : Setting 2 where
  vList := [3, 4, 5, 6]
  report := true
  tallies wid := if wid.val = 0 then ⟨3, [(0, 1, 2), (0, 1, 3), (0, 2, 3)]⟩ else ⟨1, [(1, 2, 3)]⟩
  pid wid := 7 + wid.val
  capacity := 1
  garbage := 0

/-- The workers print in turns, and the first one waits for room in the pipe. -/
def inTurns (a b : Fin 2) : List (Actor 2) :=
  [.main, .worker a, .main, .worker b, .main, .main, .worker a, .worker b, .worker a, .worker b, .worker a, .main,
    .worker a, .worker b, .main, .worker a, .main, .reap b, .reap a, .main]

theorem fourTriangles_counted : fourTriangles.Counted := by
  have hloops : ∀ wid : Fin 2, Returns (fun fuel => countTriangles fuel [3, 4, 5, 6] wid 2)
      (Tally.start.add (foundBy [3, 4, 5, 6] wid 2)) :=
    fun wid => countTriangles_returns (Int.natCast_nonneg _) two_pos (by decide) (by decide)
  have hfirst : foundBy [3, 4, 5, 6] 0 2 = [(0, 1, 2), (0, 1, 3), (0, 2, 3)] := by decide
  have hsecond : foundBy [3, 4, 5, 6] 1 2 = [(1, 2, 3)] := by decide
  intro wid
  have hwid := hloops wid
  fin_cases wid
  · simp only [Nat.cast_zero, hfirst] at hwid
    exact hwid
  · simp only [Nat.cast_one, hsecond] at hwid
    exact hwid

theorem workers_collect_two :
    ∃ s reports, runSteps (exec fourTriangles) (start 2) (inTurns 0 1) = some s ∧ s.output = reports ++ [.total 4] ∧
      (reports.filterMap Line.place).Perm (triangles [3, 4, 5, 6]).toList := by
  have hreturned : (runSteps (exec fourTriangles) (start 2) (inTurns 0 1)).map (fun s => s.main) = some (.returned 4) := by
    decide +kernel
  obtain ⟨s, hs, hmain⟩ := Option.map_eq_some_iff.mp hreturned
  have hcollect := workers_collect two_pos (by decide) one_pos fourTriangles_counted _ s hs
  obtain ⟨-, reports, hout, -, hplaces⟩ := hcollect.2.2 4 hmain
  exact ⟨s, reports, hs, hout, hplaces rfl⟩

end OsCoursework.Triangles.Process
