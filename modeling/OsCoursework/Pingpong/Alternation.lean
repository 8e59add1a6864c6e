import OsCoursework.Pingpong.Code

/-!
# Ping and pong take turns

Both programs are refinements of one counter: after `k` passes the next one is by `turnOf k`,
until each thread has made all of its own. With semaphores every run ends after the same number
of steps. With `nextTurn` a thread may spin for ever, but the end is always in reach.
-/

open OsCoursework.Transition

namespace OsCoursework.Pingpong

/-- The side of pass number `k`. -/
def turnOf (k : Nat) : Side := if k % 2 = 0 then .ping else .pong

def alternating (n : Nat) : List Side := (List.range n).map turnOf

/-- The passes of one side among the first `k`. -/
def roundsOf (k : Nat) : Side → Nat
  | .ping => (k + 1) / 2
  | .pong => k / 2

/-- The counter that both programs refine. A step may also change nothing here. -/
def alternation (iterations : Nat) : System Nat Actor where
  init k := k = 0
  step k actor k' := k' = k ∨ k < 2 * iterations ∧ actor = .thread (turnOf k) ∧ k' = k + 1

variable {iterations k : Nat} {side : Side} {s s' : Threads} {p : Pc}

theorem roundsOf_succ (k : Nat) (side : Side) :
    roundsOf (k + 1) side = roundsOf k side + if turnOf k = side then 1 else 0 := by
  unfold turnOf
  cases side <;> simp only [roundsOf] <;> split_ifs <;> simp_all <;> omega

theorem turnOf_succ (k : Nat) : turnOf (k + 1) = (turnOf k).other := by
  unfold turnOf
  split_ifs <;> first | rfl | omega

theorem alternating_succ (k : Nat) : alternating (k + 1) = alternating k ++ [turnOf k] := by
  simp [alternating, List.range_succ]

/-! ## What the two programs have in common -/

def ThreadOk (iterations k : Nat) (side : Side) : Pc → Prop
  | .uncreated => roundsOf k side = 0
  | .testing i => roundsOf k side = i ∧ i ≤ iterations
  | .waiting i => roundsOf k side = i ∧ i < iterations
  | .passing i => roundsOf k side = i ∧ i < iterations ∧ turnOf k = side
  | .returned => roundsOf k side = iterations

def MainOk (pc : Side → Pc) : MainPc → Prop
  | .creating .ping => ∀ side, pc side = .uncreated
  | .creating .pong => pc .ping ≠ .uncreated ∧ pc .pong = .uncreated
  | .joining .ping => ∀ side, pc side ≠ .uncreated
  | .joining .pong => pc .ping = .returned ∧ pc .pong ≠ .uncreated
  | .joined | .returned => ∀ side, pc side = .returned

structure Rounds (iterations : Nat) (s : Threads) (k : Nat) : Prop where
  passes : s.passes = alternating k
  thread : ∀ side, ThreadOk iterations k side (s.pc side)
  main : MainOk s.pc s.main

theorem rounds_start (iterations : Nat) : Rounds iterations .start 0 where
  passes := rfl
  thread side := by cases side <;> rfl
  main _ := rfl

theorem MainOk.update {pc : Side → Pc} {m : MainPc} (h : MainOk pc m) (hthere : pc side ≠ .uncreated)
    (hunfinished : pc side ≠ .returned) (hp : p ≠ .uncreated) : MainOk (Function.update pc side p) m := by
  have hpc : ∀ other, Function.update pc side p other = pc other ∨ other = side ∧ Function.update pc side p other = p := by
    intro other
    by_cases hother : other = side
    · subst hother
      exact .inr ⟨rfl, Function.update_self ..⟩
    · exact .inl (Function.update_of_ne hother ..)
  rcases m with (_ | _) | (_ | _) | _ | _
  · exact absurd (h side) hthere
  · rcases hpc .ping with h₁ | ⟨rfl, h₁⟩ <;> rcases hpc .pong with h₂ | ⟨h₂, -⟩ <;> simp_all [MainOk]
  · intro other
    rcases hpc other with h₁ | ⟨-, h₁⟩ <;> rw [h₁]
    · exact h other
    · exact hp
  · rcases hpc .ping with h₁ | ⟨rfl, h₁⟩ <;> rcases hpc .pong with h₂ | ⟨h₂, h₃⟩ <;> simp_all [MainOk]
  · exact absurd (h side) hunfinished
  · exact absurd (h side) hunfinished

theorem Rounds.goto (h : Rounds iterations s k) (hthere : s.pc side ≠ .uncreated) (hunfinished : s.pc side ≠ .returned)
    (hok : ThreadOk iterations k side p) (hp : p ≠ .uncreated) : Rounds iterations (s.goto side p) k where
  passes := h.passes
  thread other := by
    simp only [Threads.goto]
    by_cases hother : other = side
    · subst hother
      rwa [Function.update_self]
    · rw [Function.update_of_ne hother]
      exact h.thread other
  main := h.main.update hthere hunfinished hp

theorem Rounds.test {i : Nat} (h : Rounds iterations s k) (hpc : s.pc side = .testing i) :
    Rounds iterations (s.goto side (if i < iterations then .waiting i else .returned)) k := by
  have hok := h.thread side
  rw [hpc] at hok
  apply h.goto (by simp [hpc]) (by simp [hpc])
  · split_ifs with hi
    · exact ⟨hok.1, hi⟩
    · exact hok.1.trans (le_antisymm hok.2 (not_lt.mp hi))
  · split_ifs <;> simp

theorem Rounds.enter {i : Nat} (h : Rounds iterations s k) (hpc : s.pc side = .waiting i) (hturn : turnOf k = side) :
    Rounds iterations (s.goto side (.passing i)) k := by
  have hok := h.thread side
  rw [hpc] at hok
  exact h.goto (by simp [hpc]) (by simp [hpc]) ⟨hok.1, hok.2, hturn⟩ nofun

theorem Rounds.turn {i : Nat} (h : Rounds iterations s k) (hpc : s.pc side = .passing i) :
    turnOf k = side ∧ k < 2 * iterations := by
  have hok := h.thread side
  rw [hpc] at hok
  obtain ⟨hi, hlt, hturn⟩ := hok
  refine ⟨hturn, ?_⟩
  cases side <;> unfold turnOf at hturn <;> simp only [roundsOf] at hi <;> split_ifs at hturn <;> omega

theorem Rounds.pass {i : Nat} (h : Rounds iterations s k) (hpc : s.pc side = .passing i) :
    Rounds iterations (s.pass side i) (k + 1) where
  passes := by
    rw [alternating_succ, ← h.passes, (h.turn hpc).1]
    rfl
  thread other := by
    have hturn := (h.turn hpc).1
    simp only [Threads.pass, Threads.goto]
    by_cases hother : other = side
    · subst hother
      have hok := h.thread other
      rw [hpc] at hok
      rw [Function.update_self]
      exact ⟨by rw [roundsOf_succ, hok.1, if_pos hturn], hok.2.1⟩
    · have hne : turnOf k ≠ other := fun heq => hother (heq.symm.trans hturn)
      have hrounds : roundsOf (k + 1) other = roundsOf k other := by rw [roundsOf_succ, if_neg hne, Nat.add_zero]
      have hok := h.thread other
      rw [Function.update_of_ne hother]
      cases hplace : s.pc other <;> rw [hplace] at hok <;> simp only [ThreadOk, hrounds] at hok ⊢
      case passing => exact absurd hok.2.2 hne
      all_goals exact hok
  main := h.main.update (by simp [hpc]) (by simp [hpc]) nofun

theorem Rounds.create {m : MainPc} (h : Rounds iterations s k) (hpc : s.pc side = .uncreated)
    (hm : MainOk (Function.update s.pc side (.testing 0)) m) :
    Rounds iterations ({ s with main := m }.goto side (.testing 0)) k where
  passes := h.passes
  thread other := by
    simp only [Threads.goto]
    by_cases hother : other = side
    · subst hother
      have hok := h.thread other
      rw [hpc] at hok
      rw [Function.update_self]
      exact ⟨hok, Nat.zero_le _⟩
    · rw [Function.update_of_ne hother]
      exact h.thread other
  main := hm

theorem Rounds.execMain (h : Rounds iterations s k) (hstep : s.execMain = some s') : Rounds iterations s' k := by
  have hmain := h.main
  unfold Threads.execMain at hstep
  split at hstep
  case h_1 hplace =>
    cases hstep
    rw [hplace] at hmain
    exact h.create (hmain .ping) ⟨by simp, by simp [hmain .pong]⟩
  case h_2 hplace =>
    cases hstep
    rw [hplace] at hmain
    refine h.create hmain.2 fun side => ?_
    cases side
    · simpa using hmain.1
    · simp
  case h_3 side hplace =>
    rw [hplace] at hmain
    split_ifs at hstep with hreturned
    cases hstep
    refine ⟨h.passes, h.thread, ?_⟩
    cases side
    · exact ⟨hreturned, hmain .pong⟩
    · intro other
      cases other
      · exact hmain.1
      · exact hreturned
  case h_4 hplace =>
    cases hstep
    rw [hplace] at hmain
    exact ⟨h.passes, h.thread, hmain⟩
  case h_5 => cases hstep

theorem Rounds.execMain_pc (h : Rounds iterations s k) (hstep : s.execMain = some s') (side : Side) :
    s'.pc side = s.pc side ∨ s.pc side = .uncreated ∧ s'.pc side = .testing 0 := by
  have hmain := h.main
  unfold Threads.execMain at hstep
  split at hstep
  case h_1 hplace =>
    cases hstep
    rw [hplace] at hmain
    cases side <;> simp [Threads.goto, hmain .ping]
  case h_2 hplace =>
    cases hstep
    rw [hplace] at hmain
    cases side <;> simp [Threads.goto, hmain.2]
  case h_3 =>
    split_ifs at hstep
    cases hstep
    exact .inl rfl
  case h_4 =>
    cases hstep
    exact .inl rfl
  case h_5 => cases hstep

theorem Rounds.exists_ready (h : Rounds iterations s k) (hmain : s.main ≠ .returned) :
    (∃ s', s.execMain = some s') ∨
      ∃ side, s.pc side ≠ .uncreated ∧ s.pc side ≠ .returned ∧ ∀ i, s.pc side = .waiting i → turnOf k = side := by
  have hok := h.main
  have hping := h.thread .ping
  have hpong := h.thread .pong
  unfold Threads.execMain
  rcases hplace : s.main with (_ | _) | (_ | _) | _ | _
  · exact .inl ⟨_, rfl⟩
  · exact .inl ⟨_, rfl⟩
  · rw [hplace] at hok
    by_cases hreturned : s.pc .ping = .returned
    · exact .inl ⟨_, if_pos hreturned⟩
    · right
      by_cases hwaiting : ∀ i, s.pc .ping = .waiting i → turnOf k = .ping
      · exact ⟨.ping, hok .ping, hreturned, hwaiting⟩
      · -- It is the turn of the other thread, which has more passes to make.
        push Not at hwaiting
        obtain ⟨i, hpc, hturn⟩ := hwaiting
        rw [hpc] at hping
        have hodd : turnOf k = .pong := by
          unfold turnOf at hturn ⊢
          split_ifs at hturn ⊢ <;> simp_all
        refine ⟨.pong, hok .pong, fun hpc' => ?_, fun _ _ => hodd⟩
        rw [hpc'] at hpong
        simp only [ThreadOk, roundsOf] at hping hpong
        omega
  · rw [hplace] at hok
    by_cases hreturned : s.pc .pong = .returned
    · exact .inl ⟨_, if_pos hreturned⟩
    · refine .inr ⟨.pong, hok.2, hreturned, fun i hpc => ?_⟩
      rw [hpc] at hpong
      rw [hok.1] at hping
      simp only [ThreadOk, roundsOf] at hping hpong
      exact if_neg (by omega)
  · exact .inl ⟨_, rfl⟩
  · exact absurd hplace hmain

theorem Rounds.finished (h : Rounds iterations s k) (hmain : s.main = .returned) : k = 2 * iterations := by
  have hok := h.main
  rw [hmain] at hok
  have hping := h.thread .ping
  have hpong := h.thread .pong
  rw [hok] at hping hpong
  simp only [ThreadOk, roundsOf] at hping hpong
  omega

theorem Rounds.le (h : Rounds iterations s k) : k ≤ 2 * iterations := by
  have hping := h.thread .ping
  have hrounds : roundsOf k .ping ≤ iterations := by
    cases hpc : s.pc .ping <;> rw [hpc] at hping <;> simp only [ThreadOk] at hping <;> omega
  simp only [roundsOf] at hrounds
  omega

/-! ## The steps to the end -/

def Pc.rank (iterations : Nat) : Pc → Nat
  | .uncreated => 3 * iterations + 1
  | .testing i => 3 * (iterations - i) + 1
  | .waiting i => 3 * (iterations - i)
  | .passing i => 3 * (iterations - i) - 1
  | .returned => 0

def MainPc.rank : MainPc → Nat
  | .creating .ping => 5
  | .creating .pong => 4
  | .joining .ping => 3
  | .joining .pong => 2
  | .joined => 1
  | .returned => 0

def Threads.rank (iterations : Nat) (s : Threads) : Nat :=
  s.main.rank + (s.pc .ping).rank iterations + (s.pc .pong).rank iterations

theorem Threads.rank_goto (s : Threads) (side : Side) (p : Pc) (h : p.rank iterations + 1 = (s.pc side).rank iterations) :
    (s.goto side p).rank iterations + 1 = s.rank iterations := by
  cases side <;> simp [Threads.goto, Threads.rank] <;> omega

theorem Rounds.rank_execMain (h : Rounds iterations s k) (hstep : s.execMain = some s') :
    s'.rank iterations + 1 = s.rank iterations := by
  have hmain := h.main
  unfold Threads.execMain at hstep
  split at hstep
  case h_1 hplace =>
    cases hstep
    rw [hplace] at hmain
    simp [Threads.goto, Threads.rank, hplace, hmain .ping, MainPc.rank, Pc.rank]
    omega
  case h_2 hplace =>
    cases hstep
    rw [hplace] at hmain
    simp [Threads.goto, Threads.rank, hplace, hmain.2, MainPc.rank, Pc.rank]
    omega
  case h_3 side hplace =>
    split_ifs at hstep
    cases hstep
    cases side <;> simp only [Threads.rank, hplace, MainPc.rank]
    all_goals omega
  case h_4 hplace =>
    cases hstep
    simp [Threads.rank, hplace, MainPc.rank]
    omega
  case h_5 => cases hstep

theorem Rounds.rank_test {i : Nat} (h : Rounds iterations s k) (hpc : s.pc side = .testing i) :
    (s.goto side (if i < iterations then .waiting i else .returned)).rank iterations + 1 = s.rank iterations := by
  have hok := h.thread side
  rw [hpc] at hok
  have hi : i ≤ iterations := hok.2
  apply s.rank_goto
  rw [hpc]
  split_ifs <;> simp only [Pc.rank]
  omega

theorem Rounds.rank_enter {i : Nat} (h : Rounds iterations s k) (hpc : s.pc side = .waiting i) :
    (s.goto side (.passing i)).rank iterations + 1 = s.rank iterations := by
  have hok := h.thread side
  rw [hpc] at hok
  have hi : i < iterations := hok.2
  apply s.rank_goto
  rw [hpc]
  simp only [Pc.rank]
  omega

theorem Rounds.rank_pass {i : Nat} (h : Rounds iterations s k) (hpc : s.pc side = .passing i) :
    (s.pass side i).rank iterations + 1 = s.rank iterations := by
  have hok := h.thread side
  rw [hpc] at hok
  have hi : i < iterations := hok.2.1
  apply s.rank_goto
  rw [hpc]
  simp only [Pc.rank]
  omega

/-! ## Semaphores -/

namespace Semaphores

/-- A semaphore that was taken is not posted yet. -/
def inside : Pc → Nat
  | .passing _ => 1
  | _ => 0

structure Inv (iterations : Nat) (s : State) (k : Nat) : Prop where
  rounds : Rounds iterations s.threads k
  tokens : ∀ side, s.next side + inside (s.threads.pc side) = if turnOf k = side then 1 else 0

variable {s s' : State} {actor : Actor}

theorem Inv.goto (h : Inv iterations s k) (hrounds : Rounds iterations (s.threads.goto side p) k)
    (hinside : inside p = inside (s.threads.pc side)) : Inv iterations (s.goto side p) k where
  rounds := hrounds
  tokens other := by
    have htokens := h.tokens other
    simp only [State.goto, Threads.goto]
    by_cases hother : other = side
    · subst hother
      rwa [Function.update_self, hinside]
    · rwa [Function.update_of_ne hother]

theorem Inv.execMain {threads : Threads} (h : Inv iterations s k) (hmain : s.threads.execMain = some threads) :
    Inv iterations { s with threads } k where
  rounds := h.rounds.execMain hmain
  tokens side := by
    rw [← h.tokens side]
    rcases h.rounds.execMain_pc hmain side with hpc | ⟨hpc, hpc'⟩
    · simp only [hpc]
    · simp only [hpc, hpc', inside]

theorem Inv.wait {i : Nat} (h : Inv iterations s k) (hpc : s.threads.pc side = .waiting i) (hfree : ¬ s.next side = 0) :
    Inv iterations (State.goto { s with next := Function.update s.next side (s.next side - 1) } side (.passing i)) k := by
  have htoken := h.tokens side
  rw [hpc] at htoken
  have hturn : turnOf k = side := by
    by_contra hne
    rw [if_neg hne] at htoken
    exact hfree (Nat.eq_zero_of_add_eq_zero_right htoken)
  rw [if_pos hturn] at htoken
  refine ⟨h.rounds.enter hpc hturn, fun other => ?_⟩
  by_cases hother : other = side
  · subst hother
    simp only [inside] at htoken
    simp [State.goto, Threads.goto, inside, hturn]
    omega
  · have htoken' := h.tokens other
    simpa [State.goto, Threads.goto, hother] using htoken'

theorem Inv.pass {i : Nat} (h : Inv iterations s k) (hpc : s.threads.pc side = .passing i) :
    Inv iterations (State.post { s with threads := s.threads.pass side i } side.other) (k + 1) where
  rounds := h.rounds.pass hpc
  tokens other := by
    have hturn := (h.rounds.turn hpc).1
    have hping := h.tokens .ping
    have hpong := h.tokens .pong
    rw [turnOf_succ, hturn]
    cases side <;> cases other <;> simp_all [State.post, Threads.pass, Threads.goto, Side.other, inside]

theorem inv_step (h : Inv iterations s k) (hstep : exec iterations s actor = some s') :
    s'.threads.rank iterations + 1 = s.threads.rank iterations ∧
      ∃ k', (alternation iterations).step k actor k' ∧ Inv iterations s' k' := by
  cases actor with
  | main =>
    obtain ⟨threads, hmain, rfl⟩ := Option.map_eq_some_iff.mp hstep
    exact ⟨h.rounds.rank_execMain hmain, k, .inl rfl, h.execMain hmain⟩
  | thread side =>
    simp only [exec, execThread] at hstep
    split at hstep
    case h_1 | h_2 => cases hstep
    case h_3 i hpc =>
      cases hstep
      refine ⟨h.rounds.rank_test hpc, k, .inl rfl, h.goto (h.rounds.test hpc) ?_⟩
      rw [hpc]
      split_ifs <;> rfl
    case h_4 i hpc =>
      obtain ⟨t, hwait, rfl⟩ := Option.map_eq_some_iff.mp hstep
      unfold State.wait at hwait
      split_ifs at hwait with hzero
      cases hwait
      exact ⟨h.rounds.rank_enter hpc, k, .inl rfl, h.wait hpc hzero⟩
    case h_5 i hpc =>
      cases hstep
      obtain ⟨hturn, hlt⟩ := h.rounds.turn hpc
      exact ⟨h.rounds.rank_pass hpc, k + 1, .inr ⟨hlt, by rw [hturn], rfl⟩, h.pass hpc⟩

theorem inv_start (iterations : Nat) : Inv iterations start 0 where
  rounds := rounds_start iterations
  tokens side := by cases side <;> rfl

theorem refines (iterations : Nat) : Simulation (system iterations) (alternation iterations) (Inv iterations) where
  init := by
    rintro _ rfl
    exact ⟨0, rfl, inv_start iterations⟩
  step _ _ _ _ h hstep := (inv_step h hstep).2

theorem exists_step (h : Inv iterations s k) (hmain : s.threads.main ≠ .returned) :
    ∃ actor s', exec iterations s actor = some s' := by
  rcases h.rounds.exists_ready hmain with ⟨threads, hthreads⟩ | ⟨side, hthere, hunfinished, hturn⟩
  · exact ⟨.main, { s with threads }, by simp [exec, hthreads]⟩
  · refine ⟨.thread side, Option.isSome_iff_exists.mp ?_⟩
    unfold exec execThread
    dsimp only
    split
    case h_1 hpc => exact absurd hpc hthere
    case h_2 hpc => exact absurd hpc hunfinished
    case h_4 i hpc =>
      have htoken := h.tokens side
      rw [hpc, if_pos (hturn i hpc)] at htoken
      have hfree : ¬ s.next side = 0 := by
        simp only [inside] at htoken
        omega
      simp [State.wait, hfree]
    all_goals rfl

theorem run_rank {as : List Actor} (h : Inv iterations s k) (hrun : runSteps (exec iterations) s as = some s') :
    as.length + s'.threads.rank iterations = s.threads.rank iterations := by
  induction as generalizing s k with
  | nil =>
    cases hrun
    exact Nat.zero_add _
  | cons actor as ih =>
    obtain ⟨t, ht, hrun⟩ := Option.bind_eq_some_iff.mp hrun
    obtain ⟨hrank, k', -, hinv⟩ := inv_step h ht
    have hrest := ih hinv hrun
    rw [List.length_cons]
    omega

/-- **With semaphores the threads take turns, nothing hangs, and a run is over after `6 * iterations + 7` steps.** -/
theorem semaphores_alternate (iterations : Nat) (as : List Actor) (s : State)
    (hrun : runSteps (exec iterations) start as = some s) :
    s.threads.passes = alternating s.threads.passes.length ∧ s.threads.passes.length ≤ 2 * iterations ∧
      s.next .ping + s.next .pong ≤ 1 ∧ as.length ≤ 6 * iterations + 7 ∧
      (s.threads.main = .returned → s.threads.passes.length = 2 * iterations ∧ as.length = 6 * iterations + 7) ∧
      (s.threads.main ≠ .returned → ∃ actor s', exec iterations s actor = some s') := by
  have hreach : Reachable (system iterations) s := (Reachable.init rfl).runSteps (fun _ _ _ _ hstep => hstep) hrun
  obtain ⟨k, -, hinv⟩ := (refines iterations).reachable hreach
  have hlength : s.threads.passes.length = k := by simp [hinv.rounds.passes, alternating]
  have hrank := run_rank (inv_start iterations) hrun
  have hstart : start.threads.rank iterations = 6 * iterations + 7 := by
    simp only [start, Threads.start, Threads.rank, MainPc.rank, Pc.rank]
    omega
  have hping := hinv.tokens .ping
  have hpong := hinv.tokens .pong
  refine ⟨?_, hlength ▸ hinv.rounds.le, ?_, by omega, fun hmain => ⟨?_, ?_⟩, exists_step hinv⟩
  · rw [hlength, hinv.rounds.passes]
  · unfold turnOf at hping hpong
    split_ifs at hping hpong <;> simp_all <;> omega
  · rw [hlength, hinv.rounds.finished hmain]
  · have hreturned := hinv.rounds.main
    rw [hmain] at hreturned
    have hzero : s.threads.rank iterations = 0 := by
      simp [Threads.rank, hmain, hreturned .ping, hreturned .pong, MainPc.rank, Pc.rank]
    omega

theorem semaphores_alternate_one :
    ∃ s, runSteps (exec 1) start [.main, .main, .thread .ping, .thread .ping, .thread .ping, .thread .ping,
        .thread .pong, .thread .pong, .thread .pong, .thread .pong, .main, .main, .main] = some s ∧
      s.threads.main = .returned ∧ s.threads.passes = alternating s.threads.passes.length ∧
      s.threads.passes.length = 2 := by
  have hmain : (runSteps (exec 1) start [.main, .main, .thread .ping, .thread .ping, .thread .ping, .thread .ping,
      .thread .pong, .thread .pong, .thread .pong, .thread .pong, .main, .main, .main]).map
      (fun s => s.threads.main) = some .returned := by decide
  obtain ⟨s, hs, hreturned⟩ := Option.map_eq_some_iff.mp hmain
  have halternate := semaphores_alternate 1 _ s hs
  exact ⟨s, hs, hreturned, halternate.1, (halternate.2.2.2.2.1 hreturned).1⟩

end Semaphores

/-! ## Turns -/

namespace Turns

structure Inv (iterations : Nat) (s : State) (k : Nat) : Prop where
  rounds : Rounds iterations s.threads k
  nextTurn : s.nextTurn = number (turnOf k)

variable {s s' : State} {actor : Actor}

theorem number_injective : Function.Injective number := by
  intro a b h
  cases a <;> cases b <;> first | rfl | cases h

theorem inv_start (iterations : Nat) : Inv iterations start 0 := ⟨rounds_start iterations, rfl⟩

theorem inv_step (h : Inv iterations s k) (hstep : exec iterations s actor = some s') :
    (s' = s ∨ s'.threads.rank iterations + 1 = s.threads.rank iterations) ∧
      ∃ k', (alternation iterations).step k actor k' ∧ Inv iterations s' k' := by
  cases actor with
  | main =>
    obtain ⟨threads, hmain, rfl⟩ := Option.map_eq_some_iff.mp hstep
    exact ⟨.inr (h.rounds.rank_execMain hmain), k, .inl rfl, h.rounds.execMain hmain, h.nextTurn⟩
  | thread side =>
    simp only [exec, execThread] at hstep
    split at hstep
    case h_1 | h_2 => cases hstep
    case h_3 i hpc =>
      cases hstep
      exact ⟨.inr (h.rounds.rank_test hpc), k, .inl rfl, h.rounds.test hpc, h.nextTurn⟩
    case h_4 i hpc =>
      split_ifs at hstep with hspin
      · cases hstep
        exact ⟨.inl rfl, k, .inl rfl, h⟩
      · cases hstep
        have hturn : turnOf k = side := number_injective (h.nextTurn.symm.trans (not_not.mp hspin))
        exact ⟨.inr (h.rounds.rank_enter hpc), k, .inl rfl, h.rounds.enter hpc hturn, h.nextTurn⟩
    case h_5 i hpc =>
      cases hstep
      obtain ⟨hturn, hlt⟩ := h.rounds.turn hpc
      refine ⟨.inr (h.rounds.rank_pass hpc), k + 1, .inr ⟨hlt, by rw [hturn], rfl⟩, h.rounds.pass hpc, ?_⟩
      rw [turnOf_succ, hturn]

theorem refines (iterations : Nat) : Simulation (system iterations) (alternation iterations) (Inv iterations) where
  init := by
    rintro _ rfl
    exact ⟨0, rfl, inv_start iterations⟩
  step _ _ _ _ h hstep := (inv_step h hstep).2

/-- Some step is no turn of a spin loop. -/
theorem exists_step (h : Inv iterations s k) (hmain : s.threads.main ≠ .returned) :
    ∃ actor s', exec iterations s actor = some s' ∧ s' ≠ s := by
  rcases h.rounds.exists_ready hmain with ⟨threads, hthreads⟩ | ⟨side, hthere, hunfinished, hturn⟩
  · refine ⟨.main, { s with threads }, by simp [exec, hthreads], fun heq => ?_⟩
    have hrank := h.rounds.rank_execMain hthreads
    rw [← congrArg State.threads heq] at hrank
    simp at hrank
  · have hmove : ∀ p, (s.goto side p).threads.pc side = p := fun p => Function.update_self ..
    refine ⟨.thread side, ?_⟩
    unfold exec execThread
    dsimp only
    split
    case h_1 hpc => exact absurd hpc hthere
    case h_2 hpc => exact absurd hpc hunfinished
    case h_3 i hpc =>
      refine ⟨_, rfl, fun heq => ?_⟩
      have hpc' := hmove (if i < iterations then .waiting i else .returned)
      rw [heq, hpc] at hpc'
      split_ifs at hpc'
    case h_4 i hpc =>
      have hspin : ¬ s.nextTurn ≠ number side := not_not.mpr (hturn i hpc ▸ h.nextTurn)
      refine ⟨_, congrArg some (if_neg hspin), fun heq => ?_⟩
      have hpc' := hmove (.passing i)
      rw [heq, hpc] at hpc'
      cases hpc'
    case h_5 i hpc =>
      refine ⟨_, rfl, fun heq => ?_⟩
      have hpc' : (s.threads.pass side i).pc side = .testing (i + 1) := Function.update_self ..
      have hthreads : s.threads.pass side i = s.threads := congrArg State.threads heq
      rw [hthreads, hpc] at hpc'
      cases hpc'

theorem exists_run (h : Inv iterations s k) :
    ∃ as t, runSteps (exec iterations) s as = some t ∧ t.threads.main = .returned ∧
      as.length ≤ s.threads.rank iterations := by
  induction hn : s.threads.rank iterations generalizing s k with
  | zero =>
    by_contra! hall
    have hmain := hall [] s rfl
    by_cases hreturned : s.threads.main = .returned
    · exact absurd (hmain hreturned) (by simp)
    · obtain ⟨actor, s', hstep, hne⟩ := exists_step h hreturned
      have hrank := (inv_step h hstep).1.resolve_left hne
      omega
  | succ n ih =>
    by_cases hreturned : s.threads.main = .returned
    · exact ⟨[], s, rfl, hreturned, Nat.zero_le _⟩
    · obtain ⟨actor, s', hstep, hne⟩ := exists_step h hreturned
      obtain ⟨hrank, k', -, hinv⟩ := inv_step h hstep
      obtain ⟨as, t, hrun, hmain, hlength⟩ := ih hinv (by have := hrank.resolve_left hne; omega)
      refine ⟨actor :: as, t, ?_, hmain, Nat.succ_le_succ hlength⟩
      rw [runSteps, hstep]
      exact hrun

theorem rank_le (h : Reachable (system iterations) s) : s.threads.rank iterations ≤ 6 * iterations + 7 := by
  refine h.invariant (P := fun s => s.threads.rank iterations ≤ 6 * iterations + 7) ?_ ?_
  · rintro _ rfl
    simp only [start, Threads.start, Threads.rank, MainPc.rank, Pc.rank]
    omega
  · intro t actor t' hreach hle hstep
    obtain ⟨k, -, hinv⟩ := (refines iterations).reachable hreach
    rcases (inv_step hinv hstep).1 with rfl | hrank
    · exact hle
    · omega

/-- **With `nextTurn` the threads take turns as well, and from everywhere the end is in reach.** -/
theorem turns_alternate (iterations : Nat) (s : State) (h : Reachable (system iterations) s) :
    s.threads.passes = alternating s.threads.passes.length ∧ s.threads.passes.length ≤ 2 * iterations ∧
      (s.threads.main = .returned → s.threads.passes.length = 2 * iterations ∧ s.nextTurn = 0) ∧
      ∃ as t, runSteps (exec iterations) s as = some t ∧ t.threads.main = .returned ∧
        as.length ≤ 6 * iterations + 7 := by
  obtain ⟨k, -, hinv⟩ := (refines iterations).reachable h
  have hlength : s.threads.passes.length = k := by simp [hinv.rounds.passes, alternating]
  refine ⟨?_, hlength ▸ hinv.rounds.le, fun hmain => ?_, ?_⟩
  · rw [hlength, hinv.rounds.passes]
  · have hk := hinv.rounds.finished hmain
    refine ⟨hlength.trans hk, ?_⟩
    rw [hinv.nextTurn, hk, turnOf, if_pos (Nat.mul_mod_right 2 iterations)]
    rfl
  · obtain ⟨as, t, hrun, hmain, hle⟩ := exists_run hinv
    exact ⟨as, t, hrun, hmain, hle.trans (rank_le h)⟩

theorem turns_alternate_one :
    ∃ s, runSteps (exec 1) start [.main, .main, .thread .pong, .thread .pong, .thread .ping, .thread .ping, .thread .ping] =
        some s ∧ s.threads.passes = [.ping] ∧
      ∃ as t, runSteps (exec 1) s as = some t ∧ t.threads.main = .returned ∧ as.length ≤ 13 := by
  have hpasses : (runSteps (exec 1) start
      [.main, .main, .thread .pong, .thread .pong, .thread .ping, .thread .ping, .thread .ping]).map
      (fun s => s.threads.passes) = some [.ping] := by decide
  obtain ⟨s, hs, hping⟩ := Option.map_eq_some_iff.mp hpasses
  have h : Reachable (system 1) s := (Reachable.init rfl).runSteps (fun _ _ _ _ hstep => hstep) hs
  exact ⟨s, hs, hping, (turns_alternate 1 s h).2.2.2⟩

end Turns

end OsCoursework.Pingpong
