import OsCoursework.Matchmaker.Pairing

/-!
# When donePlaying is a barrier

The count of finished players is never reset and does not know the pairs. So the
first two calls of a run are a barrier when they come from one pair, and every
later call returns at once.
-/

open OsCoursework.Cstring OsCoursework.Transition

namespace OsCoursework.Matchmaker

variable {s t : Monitor} {i j c fuel : Nat}

/-- A call that returned was joined by the opponent's call. -/
def Barrier (s : Monitor) : Prop :=
  ∀ i j, s.doneCall i = .returned () → (s.player i).opponent = some j → s.doneCall j ≠ .notStarted

/-- A player calls `donePlaying` after its `findMatch` returned true, once for that game. -/
def client (s : Monitor) : Event → Prop
  | .donePlaying c => s.findCall c = .returned true
  | _ => True

instance (s : Monitor) : (e : Event) → Decidable (client s e)
  | .donePlaying c => inferInstanceAs (Decidable (s.findCall c = .returned true))
  | .findMatch _ _ | .wake _ | .wakeDone _ | .stopMatchmaking => isTrue trivial

def clients (range gap : Int) : System Monitor Event := (system range gap).restrict client

/-- Nobody but the opponent of the caller has called `donePlaying` before. -/
def InTurn (s : Monitor) : Event → Prop
  | .donePlaying c => ∀ c', s.doneCall c' ≠ .notStarted → (s.player c).opponent = some c'
  | _ => True

/-! ## Frames -/

@[simp] theorem signal_isAsleep {ρ : Type} (th : Thread ρ) : th.signal.isAsleep = th.isAsleep := by
  cases th <;> rfl

/-- Sleeping `donePlaying` calls may be signalled. -/
structure SameDone (s t : Monitor) : Prop where
  count : t.doneCount = s.doneCount
  call : ∀ c, t.doneCall c = s.doneCall c ∨ t.doneCall c = (s.doneCall c).signal

theorem SameDone.of_eq (hcount : t.doneCount = s.doneCount) (hcall : t.doneCall = s.doneCall) : SameDone s t :=
  ⟨hcount, fun c => Or.inl (congrFun hcall c)⟩

theorem SameDone.notStarted (h : SameDone s t) : t.doneCall c = .notStarted ↔ s.doneCall c = .notStarted := by
  rcases h.call c with hc | hc <;> simp [hc]

theorem SameDone.isAsleep (h : SameDone s t) : (t.doneCall c).isAsleep = (s.doneCall c).isAsleep := by
  rcases h.call c with hc | hc <;> simp [hc]

theorem loop_sameDone (h : loop fuel s i = some t) : SameDone s t := by
  rw [loop] at h
  split_ifs at h
  · cases h
    exact .of_eq rfl rfl
  · obtain ⟨r, -, rfl⟩ := Option.map_eq_some_iff.mp h
    cases r with
    | none => exact .of_eq rfl rfl
    | some r =>
      obtain ⟨prev, curr⟩ := r
      obtain ⟨-, -, -, -, hcall, hcount⟩ := unlink_rest
        ((s.set i fun p => { p with matched := true, opponent := some curr }).set curr
          fun p => { p with matched := true, opponent := some i }) prev curr
      exact .of_eq hcount hcall

theorem findMatch_sameDone {name : List CChar} {skill : Int} (h : findMatch fuel s name skill = some t) :
    SameDone s t := by
  rw [findMatch] at h
  split_ifs at h
  · cases h
    exact .of_eq rfl rfl
  · have hl := loop_sameDone h
    exact ⟨hl.count, hl.call⟩

theorem stopMatchmaking_sameDone (h : stopMatchmaking fuel s = some t) : SameDone s t := by
  obtain ⟨u, hu, rfl⟩ := Option.map_eq_some_iff.mp h
  obtain ⟨heq, -⟩ := signalAll_spec hu
  rw [heq]
  exact ⟨rfl, fun c => Or.inr rfl⟩

theorem finish_spec (s : Monitor) (c : Nat) :
    (finish s c).doneCount = s.doneCount ∧ (finish s c).player = s.player ∧
    (s.doneCount < 2 → ∀ j, (finish s c).doneCall j = if j = c then .asleep false else s.doneCall j) ∧
    (¬ s.doneCount < 2 → ∀ j, (finish s c).doneCall j = if j = c then .returned () else (s.doneCall j).signal) := by
  rw [finish]
  split_ifs with h
  · exact ⟨rfl, rfl, fun _ => setDone_doneCall _ _ _, fun h' => absurd h h'⟩
  · exact ⟨rfl, rfl, fun h' => absurd h' h, fun _ => setDone_doneCall _ _ _⟩

/-! ## Turns -/

/-- All that `donePlaying` can have been used for while every call came in turn. -/
inductive Turns (s : Monitor) : Prop
  | nobody (hcount : s.doneCount = 0) (hrest : ∀ c, s.doneCall c = .notStarted)
  | one (hcount : s.doneCount = 1) (a : Nat) (ha : (s.doneCall a).isAsleep)
      (hrest : ∀ c, c ≠ a → s.doneCall c = .notStarted)
  | both (hcount : s.doneCount = 2) (a b : Nat) (hab : (s.player a).opponent = some b)
      (ha : s.doneCall a ≠ .notStarted) (hb : s.doneCall b ≠ .notStarted)
      (hrest : ∀ c, c ≠ a → c ≠ b → s.doneCall c = .notStarted)

theorem Turns.barrier (h : Turns s) (hinv : Inv s) : Barrier s := by
  intro i j hi hij
  cases h with
  | nobody _ hrest =>
    rw [hrest i] at hi
    cases hi
  | one _ a ha hrest =>
    by_cases hia : i = a
    · subst hia
      rw [hi] at ha
      cases ha
    · rw [hrest i hia] at hi
      cases hi
  | both _ a b hab ha hb hrest =>
    by_cases hia : i = a
    · subst hia
      rw [hij] at hab
      exact Option.some.inj hab ▸ hb
    by_cases hib : i = b
    · subst hib
      rw [(hinv.paired _ _ hab).1] at hij
      exact Option.some.inj hij ▸ ha
    · rw [hrest i hia hib] at hi
      cases hi

theorem Turns.same (h : Turns s) (hd : SameDone s t)
    (hkept : ∀ i j, (s.player i).opponent = some j → (t.player i).opponent = some j) : Turns t := by
  cases h with
  | nobody hcount hrest => exact .nobody (hd.count.trans hcount) fun c => hd.notStarted.mpr (hrest c)
  | one hcount a ha hrest =>
    exact .one (hd.count.trans hcount) a (hd.isAsleep.trans ha) fun c hc => hd.notStarted.mpr (hrest c hc)
  | both hcount a b hab ha hb hrest =>
    exact .both (hd.count.trans hcount) a b (hkept a b hab) (mt hd.notStarted.mp ha) (mt hd.notStarted.mp hb)
      fun c h1 h2 => hd.notStarted.mpr (hrest c h1 h2)

/-! ## The two steps of donePlaying -/

theorem ne_notStarted_of_isAsleep {ρ : Type} {th : Thread ρ} (h : th.isAsleep = true) : th ≠ .notStarted := by
  rintro rfl
  cases h

theorem wakeDone_turns (h : Turns s) (hc : (s.doneCall c).isAsleep) : Turns (finish s c) := by
  obtain ⟨hn, hplayer, hwait, hreturn⟩ := finish_spec s c
  have hstarted := ne_notStarted_of_isAsleep hc
  cases h with
  | nobody _ hrest => exact absurd (hrest c) hstarted
  | one hcount a ha hrest =>
    obtain rfl : c = a := by
      by_contra hne
      exact hstarted (hrest c hne)
    have hcall := hwait (by omega)
    refine .one (hn.trans hcount) c ?_ fun c' hc' => ?_
    · rw [hcall, if_pos rfl]
      rfl
    · rw [hcall, if_neg hc']
      exact hrest c' hc'
  | both hcount a b hab ha hb hrest =>
    have hcall := hreturn (by omega)
    have hkeep : ∀ x, s.doneCall x ≠ .notStarted → (finish s c).doneCall x ≠ .notStarted := by
      intro x hx
      rw [hcall]
      split_ifs
      · exact nofun
      · exact mt (signal_eq_notStarted _).mp hx
    refine .both (hn.trans hcount) a b (hplayer ▸ hab) (hkeep a ha) (hkeep b hb) fun x hxa hxb => ?_
    have hxc : x ≠ c := fun he => hstarted (he ▸ hrest x hxa hxb)
    rw [hcall, if_neg hxc, signal_eq_notStarted]
    exact hrest x hxa hxb

theorem donePlaying_spec (h : donePlaying s c = some t) :
    t.doneCount = s.doneCount + 1 ∧
    (s.doneCount = 0 → ∀ j, t.doneCall j = if j = c then .asleep false else s.doneCall j) ∧
    (s.doneCount ≠ 0 → ∀ j, t.doneCall j = if j = c then .returned () else (s.doneCall j).signal) := by
  obtain ⟨self, rfl⟩ := donePlaying_cases h
  obtain ⟨g, hg⟩ := countDone_eq s self
  obtain ⟨hn, -, hwait, hreturn⟩ := finish_spec (countDone s self) c
  rw [hg] at hn hwait hreturn ⊢
  exact ⟨hn, fun h0 => hwait (show s.doneCount + 1 < 2 by omega),
    fun h0 => hreturn (show ¬ s.doneCount + 1 < 2 by omega)⟩

theorem late_call_breaks (hnext : Next s t) (h : donePlaying s c = some t) (hcount : s.doneCount ≠ 0)
    (hij : (s.player c).opponent = some j) (hne : j ≠ c) (hj : s.doneCall j = .notStarted) : ¬ Barrier t := by
  obtain ⟨-, -, hcall⟩ := donePlaying_spec h
  intro hbar
  refine hbar c j ?_ (hnext.kept c j hij) ?_
  · rw [hcall hcount, if_pos rfl]
  · rw [hcall hcount, if_neg hne, hj]
    rfl

theorem donePlaying_turns (h : Turns s) (hinv : Inv s) (hc : s.doneCall c = .notStarted)
    (hclient : s.findCall c = .returned true) (hd : donePlaying s c = some t) :
    (InTurn s (.donePlaying c) → Turns t) ∧ (¬ InTurn s (.donePlaying c) → ¬ Barrier t) := by
  have hnext := donePlaying_next hinv hd
  obtain ⟨hcount', hwait, hreturn⟩ := donePlaying_spec hd
  have hmatched := (hinv.result c true hclient).1.symm
  obtain ⟨j, hj⟩ := Option.ne_none_iff_exists'.mp ((hinv.matched c).mp hmatched)
  have hjc : j ≠ c := fun he => (hinv.paired c j hj).2.1 (he ▸ rfl)
  cases h with
  | nobody hcount hrest =>
    refine ⟨fun _ => ?_, fun hout => absurd (fun x hx => absurd (hrest x) hx) hout⟩
    have hcall := hwait hcount
    refine .one (by omega) c ?_ fun x hx => ?_
    · rw [hcall, if_pos rfl]
      rfl
    · rw [hcall, if_neg hx]
      exact hrest x
  | one hcount a ha hrest =>
    have hac : a ≠ c := fun he => ne_notStarted_of_isAsleep ha (he ▸ hc)
    constructor
    · intro hin
      -- In turn, so the caller and the sleeper are one pair.
      have hca := hin a (ne_notStarted_of_isAsleep ha)
      have hcall := hreturn (by omega)
      refine .both (by omega) c a (hnext.kept c a hca) ?_ ?_ fun x hxc hxa => ?_
      · rw [hcall, if_pos rfl]
        exact nofun
      · rw [hcall, if_neg hac]
        exact mt (signal_eq_notStarted _).mp (ne_notStarted_of_isAsleep ha)
      · rw [hcall, if_neg hxc, signal_eq_notStarted]
        exact hrest x hxa
    · intro hout
      refine late_call_breaks hnext hd (by omega) hj hjc (hrest j ?_)
      -- Were the sleeper the opponent, the call would be in turn.
      rintro rfl
      refine hout fun x hx => ?_
      by_cases hxj : x = j
      · exact hxj ▸ hj
      · exact absurd (hrest x hxj) hx
  | both hcount a b hab ha hb hrest =>
    have hba := (hinv.paired a b hab).1
    have hab' : a ≠ b := fun he => (hinv.paired a b hab).2.1 (he ▸ rfl)
    constructor
    · intro hin
      have h1 := hin a ha
      have h2 := hin b hb
      rw [h1] at h2
      exact absurd (Option.some.inj h2) hab'
    · intro _
      have hjback := (hinv.paired c j hj).1
      refine late_call_breaks hnext hd (by omega) hj hjc (hrest j ?_ ?_)
      · rintro rfl
        rw [hab] at hjback
        exact hb (Option.some.inj hjback ▸ hc)
      · rintro rfl
        rw [hba] at hjback
        exact ha (Option.some.inj hjback ▸ hc)

/-! ## All runs -/

theorem step_turns {range gap : Int} {e : Event} (h : Turns s) (hinv : Inv s)
    (hs : (clients range gap).step s e t) :
    (InTurn s e → Turns t) ∧ (¬ InTurn s e → ¬ Barrier t) := by
  obtain ⟨hclient, hstep⟩ := hs
  have hnext := step_next hinv hstep
  obtain ⟨fuel, he⟩ := hstep
  cases e with
  | findMatch name skill =>
    exact ⟨fun _ => h.same (findMatch_sameDone he) hnext.kept, fun hout => (hout trivial).elim⟩
  | wake i =>
    obtain ⟨-, hl⟩ := Option.ite_none_right_eq_some.mp he
    exact ⟨fun _ => h.same (loop_sameDone hl) hnext.kept, fun hout => (hout trivial).elim⟩
  | donePlaying c =>
    obtain ⟨hc, hd⟩ := Option.ite_none_right_eq_some.mp he
    exact donePlaying_turns h hinv hc hclient hd
  | wakeDone c =>
    obtain ⟨hc, ht⟩ := Option.ite_none_right_eq_some.mp he
    obtain rfl := Option.some.inj ht
    exact ⟨fun _ => wakeDone_turns h hc, fun hout => (hout trivial).elim⟩
  | stopMatchmaking =>
    exact ⟨fun _ => h.same (stopMatchmaking_sameDone he) hnext.kept, fun hout => (hout trivial).elim⟩

theorem reachable_turns {range gap : Int} (h : Reachable ((clients range gap).restrict InTurn) s) :
    Turns s ∧ Inv s := by
  apply h.invariant
  · rintro s ⟨-, -, rfl⟩
    exact ⟨.nobody rfl fun _ => rfl, inv_init range gap⟩
  · rintro s e t - ⟨hturns, hinv⟩ ⟨hin, hstep⟩
    exact ⟨(step_turns hturns hinv hstep).1 hin, (step_next hinv hstep.2).inv⟩

/-- A test for being in turn: the first call, or the second one of the pair. -/
def ofFirstPair (s : Monitor) : Event → Bool
  | .donePlaying c => s.doneCount = 0 ∨
    (s.doneCount = 1 ∧ (s.player c).opponent.any fun j => s.doneCall j ≠ .notStarted)
  | _ => true

theorem inTurn_of_firstPair {e : Event} (h : Turns s) (he : ofFirstPair s e = true) : InTurn s e := by
  cases e with
  | donePlaying c =>
    simp only [ofFirstPair, decide_eq_true_eq, Option.any_eq_true] at he
    intro c' hc'
    cases h with
    | nobody _ hrest => exact absurd (hrest c') hc'
    | one hcount a ha hrest =>
      obtain ⟨j, hj, hstarted⟩ := (he.resolve_left (by omega)).2
      have hja : j = a := by
        by_contra hne
        exact hstarted (hrest j hne)
      have hca : c' = a := by
        by_contra hne
        exact hc' (hrest c' hne)
      rw [hj, hja, hca]
    | both hcount => omega
  | _ => trivial

/-- **When donePlaying is a barrier.** In a run where every call came in turn so far, every call that
returned was joined by the opponent, and the next step keeps it so exactly when it is in turn. -/
theorem barrier_iff_inTurn {range gap : Int} (h : Reachable ((clients range gap).restrict InTurn) s) :
    Barrier s ∧ ∀ e t, (clients range gap).step s e t → (Barrier t ↔ InTurn s e) := by
  obtain ⟨hturns, hinv⟩ := reachable_turns h
  refine ⟨hturns.barrier hinv, fun e t hstep => ?_⟩
  obtain ⟨hin, hout⟩ := step_turns hturns hinv hstep
  constructor
  · intro hbar
    by_contra hnot
    exact hout hnot hbar
  · intro hturn
    exact (hin hturn).barrier (step_next hinv hstep.2).inv

def clientExec (s : Monitor) (e : Event) : Option Monitor := if client s e then e.exec 5 s else none

theorem clientExec_step {range gap : Int} {e : Event} (h : clientExec s e = some t) :
    (clients range gap).step s e t := by
  obtain ⟨hclient, he⟩ := Option.ite_none_right_eq_some.mp h
  exact ⟨hclient, exec_step he⟩

def turnExec (s : Monitor) (e : Event) : Option Monitor := if ofFirstPair s e then clientExec s e else none

theorem turnExec_step {range gap : Int} {e : Event} (hs : Reachable ((clients range gap).restrict InTurn) s)
    (h : turnExec s e = some t) : ((clients range gap).restrict InTurn).step s e t := by
  obtain ⟨hturn, he⟩ := Option.ite_none_right_eq_some.mp h
  exact ⟨inTurn_of_firstPair (reachable_turns hs).1 hturn, clientExec_step he⟩

def oneGame : List Event :=
  [.findMatch (ascii "a") 1, .findMatch (ascii "b") 2, .wake 0, .donePlaying 0, .donePlaying 1, .wakeDone 0]

theorem barrier_iff_inTurn_sample : ∃ s, runSteps turnExec (initMonitor 10 5) oneGame = some s ∧
    s.doneCall 0 = .returned () ∧ s.doneCall 1 = .returned () ∧ Barrier s := by
  have hstate : (runSteps turnExec (initMonitor 10 5) oneGame).map (fun s => (s.doneCall 0, s.doneCall 1)) =
      some (.returned (), .returned ()) := by
    decide +kernel
  obtain ⟨s, hs, hdone⟩ := Option.map_eq_some_iff.mp hstate
  obtain ⟨hfirst, hsecond⟩ := Prod.mk.inj hdone
  have hreach : Reachable ((clients 10 5).restrict InTurn) s :=
    Reachable.runSteps (fun _ _ _ => turnExec_step) (.init ⟨by decide, by decide, rfl⟩) hs
  exact ⟨s, hs, hfirst, hsecond, (barrier_iff_inTurn hreach).1⟩

/-- The same two players play again, and the first to finish does not wait for the other. -/
def twoGames : List Event :=
  oneGame ++ [.findMatch (ascii "a") 1, .findMatch (ascii "b") 2, .wake 2, .donePlaying 2]

theorem second_game_does_not_wait : ∃ s, Reachable (clients 10 5) s ∧ s.doneCall 2 = .returned () ∧
    (s.player 2).opponent = some 3 ∧ s.doneCall 3 = .notStarted ∧ ¬ Barrier s := by
  have hstate : (runSteps clientExec (initMonitor 10 5) twoGames).map (fun s =>
      (s.doneCall 2, (s.player 2).opponent, s.doneCall 3)) = some (.returned (), some 3, .notStarted) := by
    decide +kernel
  obtain ⟨s, hs, hplace⟩ := Option.map_eq_some_iff.mp hstate
  simp only [Prod.mk.injEq] at hplace
  obtain ⟨hdone, hopp, hother⟩ := hplace
  have hreach : Reachable (clients 10 5) s :=
    Reachable.runSteps (fun _ _ _ _ => clientExec_step) (.init ⟨by decide, by decide, rfl⟩) hs
  exact ⟨s, hreach, hdone, hopp, hother, fun hbar => hbar 2 3 hdone hopp hother⟩

end OsCoursework.Matchmaker
