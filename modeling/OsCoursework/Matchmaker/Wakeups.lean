import OsCoursework.Matchmaker.Waiting

/-!
# Wakeups

After the stop every wakeup has a cause, and every call returns. Before it, a wakeup without a
cause makes a cycle of the waiting list.
-/

open OsCoursework.Cstring OsCoursework.LinkedList OsCoursework.Transition

namespace OsCoursework.Matchmaker

variable {s t : Monitor} {i fuel : Nat}

/-! ## After the stop -/

/-- No new pair is made and the flag stays. -/
structure SameGames (s t : Monitor) : Prop where
  opponent : ∀ i, (t.player i).opponent = (s.player i).opponent
  playing : t.playingPair = s.playingPair
  printed : t.printed = s.printed
  stopped : s.matchmakingStopped = true → t.matchmakingStopped = true

theorem finish_sameGames (s : Monitor) (c : Nat) : SameGames s (finish s c) := by
  unfold finish
  split_ifs <;> exact ⟨fun _ => rfl, rfl, rfl, id⟩

theorem donePlaying_sameGames {c : Nat} (hd : donePlaying s c = some t) : SameGames s t := by
  obtain ⟨self, rfl⟩ := donePlaying_cases hd
  obtain ⟨g, hg⟩ := countDone_eq s self
  have hfinish := finish_sameGames (countDone s self) c
  rw [hg] at hfinish ⊢
  refine ⟨fun i => (hfinish.opponent i).trans ?_, hfinish.playing, hfinish.printed, hfinish.stopped⟩
  simp only [set_player]
  split_ifs with hi <;> simp [hi]

theorem stopMatchmaking_sameGames (ht : stopMatchmaking fuel s = some t) : SameGames s t := by
  have hstopped := stopMatchmaking_stopped ht
  obtain ⟨u, hu, rfl⟩ := Option.map_eq_some_iff.mp ht
  obtain ⟨heq, -⟩ := signalAll_spec hu
  rw [heq] at hstopped ⊢
  exact ⟨fun _ => rfl, rfl, rfl, fun _ => hstopped⟩

theorem stopped_sameGames {e : Event} (hstop : s.matchmakingStopped = true) (h : e.exec fuel s = some t) :
    SameGames s t := by
  cases e with
  | findMatch name skill =>
    simp only [Event.exec] at h
    rw [findMatch_stopped hstop] at h
    cases h
    exact ⟨fun _ => rfl, rfl, rfl, id⟩
  | wake i =>
    obtain ⟨-, hl⟩ := Option.ite_none_right_eq_some.mp h
    rw [wake_expected (Or.inr hstop)] at hl
    cases hl
    exact ⟨fun _ => rfl, rfl, rfl, id⟩
  | donePlaying c => exact donePlaying_sameGames (Option.ite_none_right_eq_some.mp h).2
  | wakeDone c =>
    obtain rfl := Option.some.inj (Option.ite_none_right_eq_some.mp h).2
    exact finish_sameGames s c
  | stopMatchmaking => exact stopMatchmaking_sameGames h

/-- **The stop releases everybody.** It always ends. After it every sleeper is signalled and returns
when it wakes up, later calls return false without a walk, and no step makes a pair. -/
theorem stop_releases {range gap : Int} (h : Reachable (signalledRuns range gap) s) :
    (∃ t, (signalledRuns range gap).step s .stopMatchmaking t ∧ t.matchmakingStopped = true) ∧
    (s.matchmakingStopped = true →
      (∀ i, s.findCall i ≠ .asleep false) ∧
      (∀ i, s.findCall i = .asleep true → ∃ t, (signalledRuns range gap).step s (.wake i) t ∧
        t.findCall i = .returned (s.player i).matched) ∧
      (∀ fuel name skill, ∃ t, findMatch fuel s name skill = some t ∧ t.findCall s.calls = .returned false) ∧
      ∀ e t, (signalledRuns range gap).step s e t → SameGames s t) := by
  obtain ⟨horderly, -, -⟩ := reachable_signalled h
  constructor
  · obtain ⟨fuel, t, ht⟩ := stopMatchmaking_ends horderly
    exact ⟨t, ⟨trivial, fuel, ht⟩, stopMatchmaking_stopped ht⟩
  · intro hstop
    obtain ⟨l, hl⟩ := horderly.stopped hstop
    refine ⟨hl.signal, fun i hi => ?_, fun fuel name skill => ?_, ?_⟩
    · refine ⟨ret s i, ⟨hi, 0, ?_⟩, ?_⟩
      · simp only [Event.exec]
        rw [if_pos (by rw [hi]; rfl), wake_expected (Or.inr hstop)]
      · rw [ret_findCall, if_pos rfl]
    · refine ⟨_, findMatch_stopped hstop, ?_⟩
      rw [setFind_findCall, if_pos rfl]
    · rintro e t ⟨-, fuel, hexec⟩
      exact stopped_sameGames hstop hexec

theorem stop_releases_two :
    ∃ s, runSteps signalledExec (initMonitor 10 5) [.findMatch (ascii "a") 1, .stopMatchmaking] = some s ∧
      s.findCall 0 = .asleep true ∧ ∃ t, (signalledRuns 10 5).step s (.wake 0) t ∧ t.findCall 0 = .returned false := by
  have hstate : (runSteps signalledExec (initMonitor 10 5) [.findMatch (ascii "a") 1, .stopMatchmaking]).map
      (fun s => (s.matchmakingStopped, s.findCall 0, (s.player 0).matched)) = some (true, .asleep true, false) := by
    decide +kernel
  obtain ⟨s, hs, hplace⟩ := Option.map_eq_some_iff.mp hstate
  simp only [Prod.mk.injEq] at hplace
  obtain ⟨hstop, hasleep, hm⟩ := hplace
  have hreach : Reachable (signalledRuns 10 5) s :=
    Reachable.runSteps (fun _ _ _ _ => signalledExec_step) (.init ⟨by decide, by decide, rfl⟩) hs
  obtain ⟨t, hstep, ht⟩ := ((stop_releases hreach).2 hstop).2.1 0 hasleep
  rw [hm] at ht
  exact ⟨s, hs, hasleep, t, hstep, ht⟩

/-! ## Spurious wakeups -/

/-- The list ends, holds nobody twice, and holds all who still wait. -/
def Kept (s : Monitor) : Prop :=
  ∃ l, Path (links s) s.waitingList l none ∧ l.Nodup ∧ ∀ i, Blocked s i → i ∈ l

theorem Orderly.kept (h : Orderly s) : Kept s := by
  by_cases hstop : s.matchmakingStopped = true
  · obtain ⟨l, hl⟩ := h.stopped hstop
    exact ⟨l, hl.path, hl.path.nodup, hl.mem⟩
  · obtain ⟨l, hl⟩ := h.running hstop
    exact ⟨l, hl.path, hl.path.nodup, fun i => (hl.mem i).mpr⟩

/-- It finds nobody on the list, not even itself, and goes to the front. -/
theorem unexpected_cycle (h : Orderly s) (hinv : Inv s) (he : ¬ Expected s (.wake i))
    (hasleep : (s.findCall i).isAsleep = true) (ht : loop fuel s i = some t) : ¬ Kept t := by
  obtain ⟨hm, hstop⟩ := not_or.mp he
  obtain ⟨l, hl⟩ := h.running hstop
  have hi : i ∈ l := (hl.mem i).mpr ⟨hasleep, by simpa using hm⟩
  unfold loop at ht
  rw [if_neg (by simp [hm, hstop])] at ht
  obtain ⟨r, hscan, rfl⟩ := Option.map_eq_some_iff.mp ht
  cases r with
  | none =>
    rintro ⟨m, hpath, -⟩
    exact sleep_cycle hl.path hi m hpath
  | some r =>
    obtain ⟨prev, curr⟩ := r
    obtain ⟨l₁, l₂, rfl, -⟩ := scan_some hl.path hscan
    have hcurr : curr ∈ l₁ ++ curr :: l₂ := List.mem_append_right _ List.mem_cons_self
    exact absurd (scan_spec hinv hinv.head hscan).2.1 (hl.apart i hi curr hcurr)

/-- **When the list survives.** While no player woke up without a match before the stop, the list is as
it should be, and the next step keeps it so exactly when it is no such wakeup either. -/
theorem kept_iff_expected {range gap : Int} (h : Reachable ((system range gap).restrict Expected) s) :
    Kept s ∧ ∀ e t, (system range gap).step s e t → (Kept t ↔ Expected s e) := by
  obtain ⟨horderly, hinv⟩ := reachable_orderly h
  refine ⟨horderly.kept, fun e t hstep => ⟨fun hkept => ?_, fun he => ?_⟩⟩
  · by_contra he
    cases e with
    | wake i =>
      obtain ⟨fuel, hexec⟩ := hstep
      obtain ⟨hasleep, hl⟩ := Option.ite_none_right_eq_some.mp hexec
      exact unexpected_cycle horderly hinv he hasleep hl hkept
    | _ => exact he trivial
  · exact (step_orderly horderly hinv hstep he).kept

def expectedExec (s : Monitor) (e : Event) : Option Monitor := if Expected s e then e.exec 5 s else none

theorem kept_iff_expected_three : ∃ s, runSteps expectedExec (initMonitor 10 5) threePlayers = some s ∧
    Blocked s 1 ∧ Kept s := by
  have hstate : (runSteps expectedExec (initMonitor 10 5) threePlayers).map (fun s =>
      (s.findCall 1, (s.player 1).matched)) = some (.asleep false, false) := by
    decide +kernel
  obtain ⟨s, hs, hplace⟩ := Option.map_eq_some_iff.mp hstate
  obtain ⟨hcall, hm⟩ := Prod.mk.inj hplace
  have hreach : Reachable ((system 10 5).restrict Expected) s := by
    refine Reachable.runSteps (fun s e t _ he => ?_) (.init ⟨by decide, by decide, rfl⟩) hs
    obtain ⟨hexpected, he⟩ := Option.ite_none_right_eq_some.mp he
    exact ⟨hexpected, exec_step he⟩
  exact ⟨s, hs, ⟨by rw [hcall]; rfl, hm⟩, (kept_iff_expected hreach).1⟩

/-- One player, and a wakeup that nobody caused. -/
theorem spurious_wake_cycle :
    ∃ s, Reachable (system 10 5) s ∧ s.waitingList = some 0 ∧ links s 0 = some 0 ∧ ¬ Kept s := by
  have hstate : (runSteps (Event.exec 5) (initMonitor 10 5) [.findMatch (ascii "a") 1, .wake 0]).map (fun s =>
      (s.waitingList, links s 0)) = some (some 0, some 0) := by
    decide +kernel
  obtain ⟨s, hs, hplace⟩ := Option.map_eq_some_iff.mp hstate
  obtain ⟨hhead, hnext⟩ := Prod.mk.inj hplace
  have hreach : Reachable (system 10 5) s :=
    Reachable.runSteps (fun _ _ _ _ => exec_step) sample_init hs
  refine ⟨s, hreach, hhead, hnext, ?_⟩
  rintro ⟨l, hpath, -⟩
  rw [hhead] at hpath
  exact not_path_of_cycle (l := []) hnext hpath

end OsCoursework.Matchmaker
