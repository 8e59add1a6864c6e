import OsCoursework.Matchmaker.Code

/-!
# Who plays whom

Every match is between two players that were free, and no match is ever undone.
This holds whatever the waiting list looks like: players that are matched already
may be on it, and the scan passes them.
-/

open OsCoursework.Cstring OsCoursework.Transition

namespace OsCoursework.Matchmaker

variable {s t : Monitor} {i j self curr fuel : Nat}

@[simp] theorem set_player (s : Monitor) (i : Nat) (f : Player → Player) (j : Nat) :
    (s.set i f).player j = if j = i then f (s.player i) else s.player j :=
  Function.update_apply _ _ _ _

@[simp] theorem setFind_findCall (s : Monitor) (i : Nat) (th : Thread Bool) (j : Nat) :
    (s.setFind i th).findCall j = if j = i then th else s.findCall j :=
  Function.update_apply _ _ _ _

@[simp] theorem setDone_doneCall (s : Monitor) (i : Nat) (th : Thread Unit) (j : Nat) :
    (s.setDone i th).doneCall j = if j = i then th else s.doneCall j :=
  Function.update_apply _ _ _ _

@[simp] theorem signal_eq_returned {ρ : Type} (th : Thread ρ) (r : ρ) :
    th.signal = .returned r ↔ th = .returned r := by
  cases th <;> simp [Thread.signal]

@[simp] theorem signal_eq_notStarted {ρ : Type} (th : Thread ρ) :
    th.signal = .notStarted ↔ th = .notStarted := by
  cases th <;> simp [Thread.signal]

/-! ## The invariant -/

structure Linked (s : Monitor) : Prop where
  head : ∀ i, s.waitingList = some i → i < s.calls
  links : ∀ i j, (s.player i).next = some j → j < s.calls

structure Inv (s : Monitor) : Prop extends Linked s where
  unused : ∀ i, s.calls ≤ i → (s.player i).opponent = none ∧ s.findCall i = .notStarted
  matched : ∀ i, (s.player i).matched = true ↔ (s.player i).opponent ≠ none
  paired : ∀ i j, (s.player i).opponent = some j → (s.player j).opponent = some i ∧ compatible s i j
  result : ∀ i b, s.findCall i = .returned b →
    b = (s.player i).matched ∧ (b = true ∨ s.matchmakingStopped = true)

/-- What a step may do to the pairs. -/
structure Next (s t : Monitor) : Prop where
  inv : Inv t
  kept : ∀ i j, (s.player i).opponent = some j → (t.player i).opponent = some j
  gap : t.skillGap = s.skillGap

theorem Inv.lt (h : Inv s) (ho : (s.player i).opponent = some j) : i < s.calls := by
  by_contra hge
  have hnone := (h.unused i (not_lt.mp hge)).1
  rw [hnone] at ho
  cases ho

theorem Inv.unmatched (h : Inv s) (hm : ¬ (s.player i).matched = true) : (s.player i).opponent = none := by
  by_contra ho
  exact hm ((h.matched i).mpr ho)

theorem inv_init (range gap : Int) : Inv (initMonitor range gap) := by
  refine ⟨⟨?_, ?_⟩, ?_, ?_, ?_, ?_⟩ <;> simp [initMonitor]

/-! ## Compatible players -/

theorem skillDiff_comm (a b : Int) : skillDiff a b = skillDiff b a := by
  have h : |(a - b).bmod (2 ^ 32)| = |(b - a).bmod (2 ^ 32)| := by
    rw [abs_eq_abs, Int.bmod_def, Int.bmod_def]
    omega
  rw [skillDiff, h, skillDiff]

theorem skillDiff_eq {a b : Int} (h : |a - b| < 2 ^ 31) : skillDiff a b = |a - b| := by
  obtain ⟨hlow, hhigh⟩ := abs_lt.mp h
  have hpos := abs_nonneg (a - b)
  have hsub : (a - b).bmod (2 ^ 32) = a - b := Int.bmod_eq_of_le (by omega) (by omega)
  rw [skillDiff, hsub]
  exact Int.bmod_eq_of_le (by omega) (by omega)

theorem compatible_symm {a b : Nat} (hc : compatible s a b) : compatible s b a := by
  unfold compatible at hc ⊢
  rw [skillDiff_comm]
  exact ⟨hc.1.symm, hc.2⟩

theorem not_compatible_self (s : Monitor) (a : Nat) : ¬ compatible s a a := fun h => h.1 rfl

theorem compatible_congr {a b : Nat} (ha : (t.player a).skill = (s.player a).skill)
    (hb : (t.player b).skill = (s.player b).skill) (hgap : t.skillGap = s.skillGap) :
    compatible t a b ↔ compatible s a b := by
  unfold compatible
  rw [ha, hb, hgap]

theorem scan_spec (h : Inv s) {prev at' : Option Nat} {r : Option Nat × Nat}
    (hat : ∀ c, at' = some c → c < s.calls) (hs : scan s self fuel prev at' = some (some r)) :
    ¬ (s.player r.2).matched = true ∧ compatible s self r.2 ∧ r.2 < s.calls := by
  induction fuel generalizing prev at' with
  | zero => cases hs
  | succ fuel ih =>
    cases at' with
    | none => cases hs
    | some c =>
      rw [scan] at hs
      split_ifs at hs with hc
      · cases hs
        exact ⟨hc.1, hc.2, hat c rfl⟩
      · exact ih (fun c' hc' => h.links c c' hc') hs

/-! ## A new pair -/

def couple (opponent : Nat → Option Nat) (self curr j : Nat) : Option Nat :=
  if j = curr then some self else if j = self then some curr else opponent j

theorem couple_of_some {opponent : Nat → Option Nat} (hback : ∀ i j, opponent i = some j → opponent j = some i)
    (hself : opponent self = none) (hcurr : opponent curr = none) (h : opponent i = some j) :
    couple opponent self curr i = some j ∧ couple opponent self curr j = some i := by
  have hfree : ∀ i j, opponent i = some j → i ≠ self ∧ i ≠ curr := by
    rintro i j h
    constructor
    · rintro rfl
      exact absurd (hself.symm.trans h) (Option.some_ne_none j).symm
    · rintro rfl
      exact absurd (hcurr.symm.trans h) (Option.some_ne_none j).symm
  have hj := hback i j h
  unfold couple
  rw [if_neg (hfree i j h).2, if_neg (hfree i j h).1, if_neg (hfree j i hj).2, if_neg (hfree j i hj).1]
  exact ⟨h, hj⟩

theorem couple_cases {opponent : Nat → Option Nat} (h : couple opponent self curr i = some j) :
    (i = curr ∧ j = self) ∨ (i = self ∧ j = curr) ∨ opponent i = some j := by
  unfold couple at h
  split_ifs at h with h1 h2
  · exact Or.inl ⟨h1, (Option.some.inj h).symm⟩
  · exact Or.inr (Or.inl ⟨h2, (Option.some.inj h).symm⟩)
  · exact Or.inr (Or.inr h)

/-! ## The parts of a step -/

theorem unlink_player (s : Monitor) (prev : Option Nat) (curr j : Nat) :
    ((unlink s prev curr).player j).skill = (s.player j).skill ∧
    ((unlink s prev curr).player j).matched = (s.player j).matched ∧
    ((unlink s prev curr).player j).opponent = (s.player j).opponent := by
  cases prev with
  | none => exact ⟨rfl, rfl, rfl⟩
  | some p =>
    simp only [unlink, set_player]
    split_ifs with hj
    · subst hj
      exact ⟨rfl, rfl, rfl⟩
    · exact ⟨rfl, rfl, rfl⟩

theorem Linked.unlink (h : Linked s) (prev : Option Nat) (curr : Nat) : Linked (unlink s prev curr) := by
  cases prev with
  | none => exact ⟨fun i hi => h.links curr i hi, h.links⟩
  | some p =>
    refine ⟨h.head, fun i j hi => ?_⟩
    simp only [Matchmaker.unlink, set_player] at hi
    split_ifs at hi
    · exact h.links curr j hi
    · exact h.links i j hi

theorem pairUp_player (s : Monitor) (self : Nat) (prev : Option Nat) (curr j : Nat) :
    ((pairUp s self prev curr).player j).skill = (s.player j).skill ∧
    ((pairUp s self prev curr).player j).matched = (if j = curr ∨ j = self then true else (s.player j).matched) ∧
    ((pairUp s self prev curr).player j).opponent = couple (fun j => (s.player j).opponent) self curr j := by
  simp only [pairUp, Monitor.signal, Monitor.setFind, couple]
  obtain ⟨h1, h2, h3⟩ := unlink_player
    ((s.set self fun p => { p with matched := true, opponent := some curr }).set curr
      fun p => { p with matched := true, opponent := some self }) prev curr j
  rw [h1, h2, h3]
  by_cases hc : j = curr
  · subst hc
    by_cases hs : j = self <;> simp [hs]
  · by_cases hs : j = self
    · subst hs
      simp [hc]
    · simp [hc, hs]

theorem linked_pairUp (h : Linked s) (self : Nat) (prev : Option Nat) (curr : Nat) :
    Linked (pairUp s self prev curr) := by
  have h1 : ∀ s : Monitor, Linked s → ∀ i o, Linked (s.set i fun p => { p with matched := true, opponent := o }) := by
    intro s h i o
    refine ⟨h.head, fun j k hk => ?_⟩
    rw [set_player] at hk
    split_ifs at hk
    · exact h.links i k hk
    · exact h.links j k hk
  have h2 := (h1 _ (h1 _ h self (some curr)) curr (some self)).unlink prev curr
  exact ⟨h2.head, h2.links⟩

theorem unlink_rest (s : Monitor) (prev : Option Nat) (curr : Nat) :
    (unlink s prev curr).calls = s.calls ∧ (unlink s prev curr).findCall = s.findCall ∧
    (unlink s prev curr).skillGap = s.skillGap ∧
    (unlink s prev curr).matchmakingStopped = s.matchmakingStopped ∧
    (unlink s prev curr).doneCall = s.doneCall ∧ (unlink s prev curr).doneCount = s.doneCount := by
  cases prev <;> exact ⟨rfl, rfl, rfl, rfl, rfl, rfl⟩

theorem pairUp_rest (s : Monitor) (self : Nat) (prev : Option Nat) (curr : Nat) :
    (pairUp s self prev curr).calls = s.calls ∧ (pairUp s self prev curr).skillGap = s.skillGap ∧
    (pairUp s self prev curr).matchmakingStopped = s.matchmakingStopped ∧
    ∀ j, (pairUp s self prev curr).findCall j =
      if j = curr then (s.findCall curr).signal else s.findCall j := by
  simp only [pairUp, Monitor.signal, setFind_findCall]
  simp only [Monitor.setFind, unlink_rest, Monitor.set]
  exact ⟨trivial, trivial, trivial, fun _ => trivial⟩

/-- **A match.** Both players were free and the matchmaker was running. -/
theorem pairUp_next (h : Inv s) {prev : Option Nat} (hself : self < s.calls) (hcurr : curr < s.calls)
    (hself' : ¬ (s.player self).matched = true) (hcurr' : ¬ (s.player curr).matched = true)
    (hc : compatible s self curr) (hrun : ¬ s.matchmakingStopped = true) :
    Next s (ret (pairUp s self prev curr) self) := by
  have hdiff : self ≠ curr := fun he => not_compatible_self s curr (he ▸ hc)
  obtain ⟨hcalls, hgap', hstop, hcall⟩ := pairUp_rest s self prev curr
  have hskill j := (pairUp_player s self prev curr j).1
  have hmatched j := (pairUp_player s self prev curr j).2.1
  have hopp j := (pairUp_player s self prev curr j).2.2
  have hother {i j} (ho : (s.player i).opponent = some j) :=
    couple_of_some (fun i j ho => (h.paired i j ho).1)
      (h.unmatched hself') (h.unmatched hcurr') ho
  have hlinked := linked_pairUp h.toLinked self prev curr
  have hret j : (ret (pairUp s self prev curr) self).findCall j =
      if j = self then .returned true else if j = curr then (s.findCall curr).signal else s.findCall j := by
    rw [ret, setFind_findCall, hmatched self, if_pos (Or.inr rfl), hcall]
  have hplayer j : (ret (pairUp s self prev curr) self).player j = (pairUp s self prev curr).player j := rfl
  refine ⟨⟨⟨hlinked.head, hlinked.links⟩, ?_, ?_, ?_, ?_⟩, ?_, hgap'⟩
  · -- unused
    intro j hj
    have hj' : s.calls ≤ j := hcalls ▸ hj
    obtain ⟨h1, h2⟩ := h.unused j hj'
    rw [hplayer, hopp, couple, hret, if_neg (by omega), if_neg (by omega), if_neg (by omega), if_neg (by omega)]
    exact ⟨h1, h2⟩
  · -- matched
    intro j
    rw [hplayer, hmatched, hopp, couple]
    by_cases h1 : j = curr
    · simp [h1]
    · by_cases h2 : j = self
      · simp [h2, hdiff]
      · simpa [h1, h2] using h.matched j
  · -- paired
    intro i j ho
    have hcompatible : compatible (ret (pairUp s self prev curr) self) i j ↔ compatible s i j :=
      compatible_congr (hskill i) (hskill j) hgap'
    rw [hplayer, hopp] at ho
    rw [hplayer, hopp, hcompatible]
    rcases couple_cases ho with ⟨rfl, rfl⟩ | ⟨rfl, rfl⟩ | ho
    · rw [couple, if_neg hdiff, if_pos rfl]
      exact ⟨rfl, compatible_symm hc⟩
    · rw [couple, if_pos rfl]
      exact ⟨rfl, hc⟩
    · exact ⟨(hother ho).2, (h.paired i j ho).2⟩
  · -- result
    intro j b hb
    rw [hret] at hb
    rw [hplayer, hmatched]
    split_ifs at hb with h1 h2
    · cases hb
      simp [h1]
    · -- A free player whose call has returned was turned away, but nobody was so far.
      rw [signal_eq_returned] at hb
      obtain ⟨hb1, hb2⟩ := h.result curr b hb
      rcases hb2 with hb2 | hb2
      · exact absurd (hb1.symm.trans hb2) hcurr'
      · exact absurd hb2 hrun
    · rw [if_neg (by tauto)]
      obtain ⟨hb1, hb2⟩ := h.result j b hb
      exact ⟨hb1, hb2.imp_right fun hs => hstop.trans hs⟩
  · -- kept
    intro i j ho
    rw [hplayer, hopp]
    exact (hother ho).1

/-! ## Steps that match nobody -/

/-- The pairs, and what they depend on, are the same. -/
structure SamePairs (s t : Monitor) : Prop where
  player : ∀ j, (t.player j).skill = (s.player j).skill ∧ (t.player j).matched = (s.player j).matched ∧
    (t.player j).opponent = (s.player j).opponent
  gap : t.skillGap = s.skillGap

theorem Inv.same (h : Inv s) (hp : SamePairs s t) (hl : Linked t) (hcalls : s.calls ≤ t.calls)
    (hunused : ∀ i, t.calls ≤ i → t.findCall i = .notStarted)
    (hresult : ∀ i b, t.findCall i = .returned b →
      b = (s.player i).matched ∧ (b = true ∨ t.matchmakingStopped = true)) : Next s t := by
  have hskill j := (hp.player j).1
  have hmatched j := (hp.player j).2.1
  have hopp j := (hp.player j).2.2
  refine ⟨⟨hl, fun i hi => ⟨?_, hunused i hi⟩, ?_, ?_, ?_⟩, fun i j ho => (hopp i).trans ho, hp.gap⟩
  · exact (hopp i).trans (h.unused i (hcalls.trans hi)).1
  · intro i
    rw [hmatched, hopp]
    exact h.matched i
  · intro i j
    rw [hopp, hopp, compatible_congr (hskill i) (hskill j) hp.gap]
    exact h.paired i j
  · intro i b hb
    rw [hmatched]
    exact hresult i b hb

theorem Inv.setFind (h : Inv s) (hp : SamePairs s t) (hl : Linked t) (hcalls : s.calls = t.calls)
    (hstop : t.matchmakingStopped = s.matchmakingStopped) {th : Thread Bool} (hi : i < s.calls)
    (hfind : ∀ j, t.findCall j = if j = i then th else s.findCall j)
    (hth : ∀ b, th = .returned b → b = (s.player i).matched ∧ (b = true ∨ s.matchmakingStopped = true)) :
    Next s t := by
  refine h.same hp hl hcalls.le (fun j hj => ?_) (fun j b hb => ?_)
  · rw [hfind, if_neg (by omega)]
    exact (h.unused j (by omega)).2
  · rw [hfind] at hb
    rw [hstop]
    split_ifs at hb with hji
    · subst hji
      exact hth b hb
    · exact h.result j b hb

theorem ret_next (h : Inv s) (hi : i < s.calls)
    (hend : (s.player i).matched = true ∨ s.matchmakingStopped = true) : Next s (ret s i) := by
  refine h.setFind ⟨fun _ => ⟨rfl, rfl, rfl⟩, rfl⟩ ⟨h.head, h.links⟩ rfl rfl hi (setFind_findCall _ _ _) ?_
  rintro b ⟨⟩
  exact ⟨rfl, hend⟩

theorem sleep_next (h : Inv s) (hi : i < s.calls) : Next s (sleep s i) := by
  refine h.setFind ⟨fun j => ?_, rfl⟩ ⟨?_, ?_⟩ rfl rfl hi (setFind_findCall _ _ _) nofun
  · simp only [sleep, Monitor.setFind, set_player]
    split_ifs with hj
    · subst hj
      exact ⟨rfl, rfl, rfl⟩
    · exact ⟨rfl, rfl, rfl⟩
  · rintro j ⟨⟩
    exact hi
  · intro j k hk
    simp only [sleep, Monitor.setFind, set_player] at hk
    split_ifs at hk
    · exact h.head k hk
    · exact h.links j k hk

/-- **One turn of the loop.** -/
theorem loop_next (h : Inv s) (hi : i < s.calls) (hl : loop fuel s i = some t) : Next s t := by
  rw [loop] at hl
  split_ifs at hl with hend
  · cases hl
    exact ret_next h hi hend
  · obtain ⟨hself, hrun⟩ := not_or.mp hend
    obtain ⟨r, hscan, ht⟩ := Option.map_eq_some_iff.mp hl
    cases r with
    | none =>
      subst ht
      exact sleep_next h hi
    | some r =>
      obtain ⟨hcurr, hc, hlt⟩ := scan_spec h h.head hscan
      subst ht
      exact pairUp_next h hi hlt hself hcurr hc hrun

theorem Inv.unused_matched (h : Inv s) (hi : s.calls ≤ i) : (s.player i).matched = false := by
  by_contra hm
  exact (h.matched i).mp (by simpa using hm) (h.unused i hi).1

theorem arrive_inv (h : Inv s) {p : Player}
    (hp : p.opponent = none ∧ p.matched = false ∧ p.next = none) :
    Next s (Monitor.set { s with calls := s.calls + 1 } s.calls fun _ => p) := by
  obtain ⟨ho, hm, hn⟩ := hp
  have hlt : ∀ i j, (s.player i).opponent = some j → i ≠ s.calls ∧ j ≠ s.calls := by
    intro i j hij
    exact ⟨(h.lt hij).ne, (h.lt (h.paired i j hij).1).ne⟩
  have hplayer j : (Monitor.set { s with calls := s.calls + 1 } s.calls fun _ => p).player j =
      if j = s.calls then p else s.player j := set_player _ _ _ _
  refine ⟨⟨⟨?_, ?_⟩, ?_, ?_, ?_, ?_⟩, ?_, rfl⟩
  · exact fun i hi => Nat.lt_succ_of_lt (h.head i hi)
  · intro i j hj
    rw [hplayer] at hj
    split_ifs at hj
    · rw [hn] at hj
      cases hj
    · exact Nat.lt_succ_of_lt (h.links i j hj)
  · intro i hi
    have hi' : s.calls + 1 ≤ i := hi
    rw [hplayer, if_neg (by omega)]
    exact h.unused i (by omega)
  · intro i
    rw [hplayer]
    split_ifs
    · simp [ho, hm]
    · exact h.matched i
  · intro i j hij
    rw [hplayer] at hij
    split_ifs at hij with hi
    · rw [ho] at hij
      cases hij
    · have hsame : compatible (Monitor.set { s with calls := s.calls + 1 } s.calls fun _ => p) i j ↔
          compatible s i j := by
        refine compatible_congr ?_ ?_ rfl
        · rw [hplayer, if_neg hi]
        · rw [hplayer, if_neg (hlt i j hij).2]
      rw [hsame, hplayer, if_neg (hlt i j hij).2]
      exact h.paired i j hij
  · intro i b hb
    have hi : i ≠ s.calls := by
      rintro rfl
      have hb' : s.findCall s.calls = .returned b := hb
      rw [(h.unused _ le_rfl).2] at hb'
      cases hb'
    rw [hplayer, if_neg hi]
    exact h.result i b hb
  · intro i j hij
    rw [hplayer, if_neg (hlt i j hij).1]
    exact hij

theorem Next.trans {u : Monitor} (h1 : Next s t) (h2 : Next t u) : Next s u :=
  ⟨h2.inv, fun i j ho => h2.kept i j (h1.kept i j ho), h2.gap.trans h1.gap⟩

theorem findMatch_next (h : Inv s) {name : List CChar} {skill : Int} (hf : findMatch fuel s name skill = some t) : Next s t := by
  rw [findMatch] at hf
  split_ifs at hf with hstop
  · cases hf
    refine h.same ⟨fun _ => ⟨rfl, rfl, rfl⟩, rfl⟩ ⟨fun i hi => ?_, fun i j hj => ?_⟩ (Nat.le_succ _) ?_ ?_
    · exact Nat.lt_succ_of_lt (h.head i hi)
    · exact Nat.lt_succ_of_lt (h.links i j hj)
    · intro i hi
      have hi' : s.calls + 1 ≤ i := hi
      rw [setFind_findCall, if_neg (by omega)]
      exact (h.unused i (by omega)).2
    · intro i b hb
      rw [setFind_findCall] at hb
      split_ifs at hb with hi
      · cases hb
        subst hi
        exact ⟨(h.unused_matched le_rfl).symm, Or.inr hstop⟩
      · obtain ⟨h1, h2⟩ := h.result i b hb
        exact ⟨h1, h2⟩
  · have harrive := arrive_inv h (p := { name := (text name).take 63, skill := skill }) ⟨rfl, rfl, rfl⟩
    exact harrive.trans (loop_next harrive.inv (Nat.lt_succ_self _) hf)

theorem Inv.signalled (h : Inv s) (hp : SamePairs s t) (hl : Linked t) (hcalls : t.calls = s.calls)
    (hstop : s.matchmakingStopped = true → t.matchmakingStopped = true)
    (hfind : ∀ i, t.findCall i = s.findCall i ∨ t.findCall i = (s.findCall i).signal) : Next s t := by
  refine h.same hp hl hcalls.ge (fun i hi => ?_) (fun i b hb => ?_)
  · have hunused := (h.unused i (hcalls ▸ hi)).2
    rcases hfind i with hf | hf
    · exact hf.trans hunused
    · rw [hf, signal_eq_notStarted]
      exact hunused
  · have hb' : s.findCall i = .returned b := by
      rcases hfind i with hf | hf
      · exact hf.symm.trans hb
      · exact (signal_eq_returned _ _).mp (hf.symm.trans hb)
    obtain ⟨h1, h2⟩ := h.result i b hb'
    exact ⟨h1, h2.imp_right hstop⟩

theorem finish_next (h : Inv s) (c : Nat) : Next s (finish s c) := by
  rw [finish]
  split_ifs <;>
    exact h.signalled ⟨fun _ => ⟨rfl, rfl, rfl⟩, rfl⟩ ⟨h.head, h.links⟩ rfl id fun _ => Or.inl rfl

theorem countDone_eq (s : Monitor) (self : Nat) : ∃ g, countDone s self =
    { s.set self (fun p => { p with done := true }) with doneCount := s.doneCount + 1, gameInProgress := g } := by
  rw [countDone]
  split_ifs
  · exact ⟨s.gameInProgress, rfl⟩
  · exact ⟨false, rfl⟩

theorem donePlaying_cases {c : Nat} (hd : donePlaying s c = some t) :
    ∃ self, t = finish (countDone s self) c := by
  obtain ⟨first, -, hd⟩ := Option.bind_eq_some_iff.mp hd
  obtain ⟨self, -, rfl⟩ := Option.map_eq_some_iff.mp hd
  exact ⟨self, rfl⟩

theorem countDone_next (h : Inv s) (self : Nat) : Next s (countDone s self) := by
  obtain ⟨g, hg⟩ := countDone_eq s self
  rw [hg]
  refine h.signalled ⟨fun j => ?_, rfl⟩ ⟨h.head, fun i j hj => ?_⟩ rfl id fun _ => Or.inl rfl
  · simp only [set_player]
    split_ifs with hj
    · subst hj
      exact ⟨rfl, rfl, rfl⟩
    · exact ⟨rfl, rfl, rfl⟩
  · simp only [set_player] at hj
    split_ifs at hj
    · exact h.links self j hj
    · exact h.links i j hj

theorem donePlaying_next (h : Inv s) {c : Nat} (hd : donePlaying s c = some t) : Next s t := by
  obtain ⟨self, rfl⟩ := donePlaying_cases hd
  have hcount := countDone_next h self
  exact hcount.trans (finish_next hcount.inv c)

@[simp] theorem signal_signal {ρ : Type} (th : Thread ρ) : th.signal.signal = th.signal := by
  cases th <;> rfl

theorem signalAll_spec {s : Monitor} {at' : Option Nat} (hs : signalAll fuel s at' = some t) :
    t = { s with findCall := t.findCall } ∧
      ∀ i, t.findCall i = s.findCall i ∨ t.findCall i = (s.findCall i).signal := by
  induction fuel generalizing s at' with
  | zero => cases hs
  | succ fuel ih =>
    cases at' with
    | none =>
      cases hs
      exact ⟨rfl, fun _ => Or.inl rfl⟩
    | some c =>
      obtain ⟨heq, hfind⟩ := ih hs
      refine ⟨heq, fun i => ?_⟩
      have hi := hfind i
      rw [Monitor.signal, setFind_findCall] at hi
      split_ifs at hi with hc
      · subst hc
        rw [signal_signal, or_self] at hi
        exact Or.inr hi
      · exact hi

theorem stopMatchmaking_next (h : Inv s) (hs : stopMatchmaking fuel s = some t) : Next s t := by
  obtain ⟨u, hu, rfl⟩ := Option.map_eq_some_iff.mp hs
  obtain ⟨heq, hfind⟩ := signalAll_spec hu
  rw [heq]
  exact h.signalled ⟨fun _ => ⟨rfl, rfl, rfl⟩, rfl⟩ ⟨h.head, h.links⟩ rfl (fun _ => rfl) hfind

/-! ## All runs -/

theorem step_next {range gap : Int} {e : Event} (h : Inv s) (hs : (system range gap).step s e t) :
    Next s t := by
  obtain ⟨fuel, he⟩ := hs
  cases e with
  | findMatch name skill => exact findMatch_next h he
  | wake i =>
    obtain ⟨hasleep, hl⟩ := Option.ite_none_right_eq_some.mp he
    refine loop_next h ?_ hl
    by_contra hi
    rw [(h.unused i (not_lt.mp hi)).2] at hasleep
    cases hasleep
  | donePlaying c => exact donePlaying_next h (Option.ite_none_right_eq_some.mp he).2
  | wakeDone c =>
    obtain rfl := Option.some.inj (Option.ite_none_right_eq_some.mp he).2
    exact finish_next h c
  | stopMatchmaking => exact stopMatchmaking_next h he

theorem reachable_inv {range gap : Int} (h : Reachable (system range gap) s) : Inv s ∧ s.skillGap = gap := by
  refine h.invariant (P := fun s => Inv s ∧ s.skillGap = gap) ?_ ?_
  · rintro s ⟨-, -, rfl⟩
    exact ⟨inv_init range gap, rfl⟩
  · rintro s e t - ⟨hs, hgap⟩ hstep
    have hnext := step_next hs hstep
    exact ⟨hnext.inv, hnext.gap.trans hgap⟩

theorem reachable_isInt {range gap : Int} (h : Reachable (system range gap) s) : isInt range ∧ isInt gap := by
  induction h with
  | init hi => exact ⟨hi.1, hi.2.1⟩
  | step _ _ ih => exact ih

/-- A skill level that `initMonitor` was told of. -/
def InRange (range skill : Int) : Prop := 0 ≤ skill ∧ skill ≤ range

theorem skillDiff_inRange {range a b : Int} (hrange : isInt range) (ha : InRange range a) (hb : InRange range b) :
    skillDiff a b = |a - b| := by
  unfold InRange at ha hb
  unfold isInt at hrange
  refine skillDiff_eq (abs_lt.mpr ⟨?_, ?_⟩) <;> omega

/-- **Pairing is safe.** A matched player has an opponent who has it as opponent, of another skill, and within
the gap when both skills are in the range. Nobody has two opponents or gets another one. A call returns true
exactly when its player is matched, false only after the stop, and then nobody has it as opponent. -/
theorem pairing_safety {range gap : Int} (h : Reachable (system range gap) s) :
    (∀ i, (s.player i).matched = true → ∃ j, (s.player i).opponent = some j ∧
      (s.player j).opponent = some i ∧ j ≠ i ∧ (s.player i).skill ≠ (s.player j).skill ∧
      (InRange range (s.player i).skill → InRange range (s.player j).skill →
        |(s.player i).skill - (s.player j).skill| ≤ gap)) ∧
    (∀ i i' j, (s.player i).opponent = some j → (s.player i').opponent = some j → i = i') ∧
    (∀ e t i j, (system range gap).step s e t → (s.player i).opponent = some j →
      (t.player i).opponent = some j) ∧
    (∀ i b, s.findCall i = .returned b →
      (b = true ↔ (s.player i).matched = true) ∧ (b = false → s.matchmakingStopped = true)) ∧
    ∀ i j, s.findCall i = .returned false → (s.player j).opponent ≠ some i := by
  obtain ⟨hinv, hgap⟩ := reachable_inv h
  refine ⟨?_, ?_, ?_, ?_, ?_⟩
  · intro i hm
    obtain ⟨j, hj⟩ := Option.ne_none_iff_exists'.mp ((hinv.matched i).mp hm)
    obtain ⟨hback, hne, hle⟩ := hinv.paired i j hj
    refine ⟨j, hj, hback, fun he => hne (he ▸ rfl), hne, fun hi hj => ?_⟩
    rwa [skillDiff_inRange (reachable_isInt h).1 hi hj, hgap] at hle
  · intro i i' j hi hi'
    have hback := (hinv.paired i j hi).1
    rw [(hinv.paired i' j hi').1] at hback
    exact (Option.some.inj hback).symm
  · intro e t i j hstep hij
    exact (step_next hinv hstep).kept i j hij
  · intro i b hb
    obtain ⟨rfl, hstop⟩ := hinv.result i b hb
    exact ⟨Iff.rfl, fun hf => hstop.resolve_left (by simp [hf])⟩
  · intro i j hi hij
    have hmatched := (hinv.result i false hi).1
    have hback := (hinv.paired j i hij).1
    rw [eq_comm, Bool.eq_false_iff] at hmatched
    exact hmatched ((hinv.matched i).mpr (by simp [hback]))

theorem exec_step {range gap : Int} {fuel : Nat} {e : Event} (h : e.exec fuel s = some t) :
    (system range gap).step s e t :=
  ⟨fuel, h⟩

theorem sample_init : Reachable (system 10 5) (initMonitor 10 5) := .init ⟨by decide, by decide, rfl⟩

/-- The second player finds the first, and a third one comes too late. -/
def sampleRun : Option Monitor :=
  runSteps (Event.exec 5) (initMonitor 10 5)
    [.findMatch (ascii "a") 1, .findMatch (ascii "b") 4, .stopMatchmaking, .findMatch (ascii "c") 2, .wake 0]

theorem pairing_safety_sample : ∃ s, sampleRun = some s ∧ (s.player 0).matched = true ∧
    s.findCall 2 = .returned false ∧ ∀ j, (s.player j).opponent ≠ some 2 := by
  have hstate : sampleRun.map (fun s => ((s.player 0).matched, s.findCall 2)) = some (true, .returned false) := by
    decide +kernel
  obtain ⟨s, hs, hplace⟩ := Option.map_eq_some_iff.mp hstate
  obtain ⟨hmatched, hlate⟩ := Prod.mk.inj hplace
  have hreach : Reachable (system 10 5) s := Reachable.runSteps (fun _ _ _ _ => exec_step) sample_init hs
  obtain ⟨-, -, -, -, hsafe⟩ := pairing_safety hreach
  exact ⟨s, hs, hmatched, hlate, fun j => hsafe 2 j hlate⟩

/-- The difference of these two wraps around to 1. -/
theorem overflow_pairs : ∃ s, Reachable (system 10 5) s ∧ (s.player 0).opponent = some 1 ∧
    (s.player 1).opponent = some 0 ∧ ¬ |(s.player 0).skill - (s.player 1).skill| ≤ 5 := by
  have hstate : (runSteps (Event.exec 5) (initMonitor 10 5)
      [.findMatch (ascii "a") (-2 ^ 31), .findMatch (ascii "b") (2 ^ 31 - 1)]).map (fun s =>
        ((s.player 0).opponent, (s.player 1).opponent, (s.player 0).skill, (s.player 1).skill)) =
          some (some 1, some 0, -2 ^ 31, 2 ^ 31 - 1) := by
    decide +kernel
  obtain ⟨s, hs, hplace⟩ := Option.map_eq_some_iff.mp hstate
  simp only [Prod.mk.injEq] at hplace
  obtain ⟨hfirst, hsecond, hlow, hhigh⟩ := hplace
  refine ⟨s, Reachable.runSteps (fun _ _ _ _ => exec_step) sample_init hs, hfirst, hsecond, ?_⟩
  rw [hlow, hhigh]
  decide

end OsCoursework.Matchmaker
