import Mathlib

/-!
# Loops with fuel

A loop of the source is a function of a step budget that gives `none` when the
budget runs out. `Returns f a` says that the loop itself ends with `a`: every
large enough budget gives `a`.
-/

namespace OsCoursework.Fuel

variable {α β γ : Type*}

/-- The computation ends with `a`. -/
def Returns (f : Nat → Option α) (a : α) : Prop := ∃ k, ∀ n, k ≤ n → f n = some a

theorem Returns.unique {f : Nat → Option α} {a b : α} (ha : Returns f a) (hb : Returns f b) : a = b := by
  obtain ⟨k, hk⟩ := ha
  obtain ⟨j, hj⟩ := hb
  have h := (hk (max k j) (le_max_left _ _)).symm.trans (hj (max k j) (le_max_right _ _))
  exact Option.some.inj h

@[simp] theorem returns_some (a b : α) : Returns (fun _ => some a) b ↔ a = b := by
  constructor
  · rintro ⟨k, hk⟩
    exact Option.some.inj (hk k le_rfl)
  · rintro rfl
    exact ⟨0, fun _ _ => rfl⟩

theorem Returns.bind {f : Nat → Option α} {g : Nat → α → Option β} {a : α} {b : β}
    (hf : Returns f a) (hg : Returns (fun n => g n a) b) :
    Returns (fun n => (f n).bind (g n)) b := by
  obtain ⟨k, hk⟩ := hf
  obtain ⟨j, hj⟩ := hg
  refine ⟨max k j, fun n hn => ?_⟩
  have hfn := hk n (le_trans (le_max_left _ _) hn)
  have hgn := hj n (le_trans (le_max_right _ _) hn)
  simp only [hfn, Option.bind_some]
  exact hgn

theorem Returns.map {f : Nat → Option α} {a : α} (hf : Returns f a) (g : α → β) :
    Returns (fun n => (f n).map g) (g a) := by
  obtain ⟨k, hk⟩ := hf
  refine ⟨k, fun n hn => ?_⟩
  have hfn := hk n hn
  simp only [hfn, Option.map_some]

theorem Returns.foldlM {f : Nat → β → α → Option β} {g : β → α → β} {l : List α}
    (h : ∀ a ∈ l, ∀ b, Returns (fun n => f n b a) (g b a)) (b : β) :
    Returns (fun n => l.foldlM (f n) b) (l.foldl g b) := by
  induction l generalizing b with
  | nil => exact (returns_some b b).mpr rfl
  | cons a l ih =>
    have hrest := ih (fun a' ha' => h a' (List.mem_cons_of_mem a ha')) (g b a)
    exact (h a List.mem_cons_self b).bind hrest

theorem Returns.mapM {f : Nat → α → Option β} {g : α → β} {l : List α} (h : ∀ a ∈ l, Returns (fun n => f n a) (g a)) :
    Returns (fun n => l.mapM (f n)) (l.map g) := by
  induction l with
  | nil => exact ⟨0, fun _ _ => rfl⟩
  | cons a l ih =>
    have hrest := ih fun a' ha' => h a' (List.mem_cons_of_mem a ha')
    simp only [List.mapM_cons, List.map_cons, Option.bind_eq_bind, Option.pure_def]
    exact (h a List.mem_cons_self).bind (hrest.bind (g := fun _ bs => some (g a :: bs)) ((returns_some _ _).mpr rfl))

theorem mapM_eq_none {f : α → Option β} {l : List α} {a : α} (ha : a ∈ l) (h : f a = none) : l.mapM f = none := by
  induction l with
  | nil => cases ha
  | cons b l ih =>
    rw [List.mapM_cons]
    rcases List.mem_cons.mp ha with rfl | ha
    · rw [h]
      rfl
    · rw [ih ha]
      cases f b <;> rfl

theorem not_returns_none (a : α) : ¬ Returns (fun _ => none) a := by
  rintro ⟨k, hk⟩
  cases hk k le_rfl

theorem Returns.of_succ {f : Nat → Option α} {a : α} (h : Returns (fun n => f (n + 1)) a) :
    Returns f a := by
  obtain ⟨k, hk⟩ := h
  refine ⟨k + 1, fun n hn => ?_⟩
  obtain ⟨j, rfl⟩ : ∃ j, n = j + 1 := ⟨n - 1, by omega⟩
  exact hk j (by omega)

/-! ## Postconditions -/

/-- The computation ends, and `Q` holds of its result. -/
def Ensures (f : Nat → Option α) (Q : α → Prop) : Prop := ∃ a, Returns f a ∧ Q a

theorem Returns.ensures {f : Nat → Option α} {a : α} {Q : α → Prop} (h : Returns f a) (hq : Q a) : Ensures f Q :=
  ⟨a, h, hq⟩

theorem ensures_some {a : α} {Q : α → Prop} (hq : Q a) : Ensures (fun _ => some a) Q := ⟨a, (returns_some a a).mpr rfl, hq⟩

theorem Ensures.mono {f : Nat → Option α} {Q R : α → Prop} (h : Ensures f Q) (himp : ∀ a, Q a → R a) : Ensures f R := by
  obtain ⟨a, hf, hq⟩ := h
  exact ⟨a, hf, himp a hq⟩

theorem Ensures.bind {f : Nat → Option α} {g : Nat → α → Option β} {Q : α → Prop} {R : β → Prop} (hf : Ensures f Q)
    (hg : ∀ a, Q a → Ensures (fun n => g n a) R) : Ensures (fun n => (f n).bind (g n)) R := by
  obtain ⟨a, hf, hq⟩ := hf
  obtain ⟨b, hg, hr⟩ := hg a hq
  exact ⟨b, hf.bind hg, hr⟩

theorem Ensures.map {f : Nat → Option α} {g : α → β} {Q : α → Prop} {R : β → Prop} (hf : Ensures f Q)
    (hg : ∀ a, Q a → R (g a)) : Ensures (fun n => (f n).map g) R := by
  obtain ⟨a, hf, hq⟩ := hf
  exact ⟨g a, hf.map g, hg a hq⟩

/-- A loop that does its body a number of times. -/
def rounds (f : α → Option α) : Nat → α → Option α
  | 0, a => some a
  | n + 1, a => (f a).bind (rounds f n)

theorem Ensures.rounds {f : Nat → α → Option α} {P : α → Prop} (h : ∀ a, P a → Ensures (fun k => f k a) P) (n : Nat)
    {a : α} (ha : P a) : Ensures (fun k => Fuel.rounds (f k) n a) P := by
  induction n generalizing a with
  | zero => exact ensures_some ha
  | succ n ih => exact (h a ha).bind fun b hb => ih hb

/-- A loop over a list, where `P l` holds with `l` still to come. -/
theorem Ensures.foldlM {f : Nat → α → β → Option α} {P : List β → α → Prop}
    (h : ∀ b l a, P (b :: l) a → Ensures (fun k => f k a b) (P l)) {l : List β} {a : α} (ha : P l a) :
    Ensures (fun k => l.foldlM (f k) a) (P []) := by
  induction l generalizing a with
  | nil => exact ensures_some ha
  | cons b l ih => exact (h b l a ha).bind fun a' ha' => ih ha'

/-! ## Programs that may exit

`Except.error e` is a program that is over, whatever would come next.
-/

section Exit

variable {ε : Type*}

/-- `g`, unless the program is over. -/
def onOk (g : α → Option (Except ε β)) : Except ε α → Option (Except ε β)
  | .ok a => g a
  | .error e => some (.error e)

def andThen (x : Option (Except ε α)) (g : α → Option (Except ε β)) : Option (Except ε β) := x.bind (onOk g)

theorem Returns.andThen {f : Nat → Option (Except ε α)} {g : Nat → α → Option (Except ε β)} {a : α}
    {r : Except ε β} (hf : Returns f (.ok a)) (hg : Returns (fun n => g n a) r) :
    Returns (fun n => Fuel.andThen (f n) (g n)) r :=
  hf.bind (g := fun n => onOk (g n)) hg

theorem Returns.andThen_error {f : Nat → Option (Except ε α)} {e : ε} (hf : Returns f (.error e))
    (g : Nat → α → Option (Except ε β)) : Returns (fun n => Fuel.andThen (f n) (g n)) (.error e) :=
  hf.bind (g := fun n => onOk (g n)) ((returns_some _ _).mpr rfl)

theorem Returns.exists_andThen {f : Nat → Option (Except ε α)} {g : Nat → α → Option (Except ε β)}
    {r : Except ε α} (hf : Returns f r) (hg : ∀ a, ∃ r, Returns (fun n => g n a) r) :
    ∃ r, Returns (fun n => Fuel.andThen (f n) (g n)) r := by
  rcases r with e | a
  · exact ⟨.error e, hf.andThen_error g⟩
  · obtain ⟨r, hr⟩ := hg a
    exact ⟨r, hf.andThen hr⟩

/-- The program does not exit. -/
def NoExit (x : Option (Except ε α)) : Prop := ∀ e, x ≠ some (.error e)

theorem NoExit.some_ok (a : α) : NoExit (some (.ok a) : Option (Except ε α)) := fun _ => nofun

theorem NoExit.andThen {x : Option (Except ε α)} {g : α → Option (Except ε β)} (hx : NoExit x)
    (hg : ∀ a, NoExit (g a)) : NoExit (Fuel.andThen x g) := by
  rcases x with _ | e | a
  · exact fun _ => nofun
  · exact absurd rfl (hx e)
  · exact hg a

theorem andThen_eq_ok {x : Option (Except ε α)} {g : α → Option (Except ε β)} {b : β} :
    Fuel.andThen x g = some (.ok b) ↔ ∃ a, x = some (.ok a) ∧ g a = some (.ok b) := by
  rcases x with _ | e | a <;> simp [Fuel.andThen, onOk]

@[simp] theorem andThen_ok (a : α) (g : α → Option (Except ε β)) : Fuel.andThen (some (.ok a)) g = g a := rfl

@[simp] theorem andThen_error (e : ε) (g : α → Option (Except ε β)) :
    Fuel.andThen (some (.error e)) g = some (.error e) := rfl

/-- `f` of the value, when the program is not over. -/
def mapOk (f : α → β) (x : Option (Except ε α)) : Option (Except ε β) := x.map (Except.map f)

@[simp] theorem mapOk_ok (f : α → β) (a : α) : mapOk f (some (.ok a : Except ε α)) = some (.ok (f a)) := rfl

@[simp] theorem mapOk_error (f : α → β) (e : ε) : mapOk f (some (.error e)) = some (.error e) := rfl

theorem mapOk_andThen (h : β → γ) (x : Option (Except ε α)) (g : α → Option (Except ε β)) :
    mapOk h (Fuel.andThen x g) = Fuel.andThen x fun a => mapOk h (g a) := by
  rcases x with _ | e | a <;> rfl

theorem andThen_mapOk (f : α → β) (x : Option (Except ε α)) (g : β → Option (Except ε γ)) :
    Fuel.andThen (mapOk f x) g = Fuel.andThen x fun a => g (f a) := by
  rcases x with _ | e | a <;> rfl

theorem noExit_mapOk {f : α → β} {x : Option (Except ε α)} : NoExit (mapOk f x) ↔ NoExit x := by
  rcases x with _ | e | a
  · exact iff_of_true (fun _ => nofun) fun _ => nofun
  · exact iff_of_false (fun h => h e rfl) fun h => h e rfl
  · exact iff_of_true (.some_ok _) (.some_ok a)

theorem andThen_congr {δ : Type*} {f : α → γ} {f' : β → γ} {x : Option (Except ε α)} {y : Option (Except ε β)}
    (h : mapOk f x = mapOk f' y) (next : γ → Option (Except ε δ)) :
    (Fuel.andThen x fun a => next (f a)) = Fuel.andThen y fun b => next (f' b) := by
  rw [← andThen_mapOk, h, andThen_mapOk]

theorem andThen_assoc (x : Option (Except ε α)) (g : α → Option (Except ε β)) (h : β → Option (Except ε γ)) :
    Fuel.andThen (Fuel.andThen x g) h = Fuel.andThen x fun a => Fuel.andThen (g a) h := by
  rcases x with _ | e | a <;> rfl

@[simp] theorem andThen_some (x : Option (Except ε α)) : Fuel.andThen x (fun a => some (.ok a)) = x := by
  rcases x with _ | e | a <;> rfl

/-! ### Two programs side by side -/

variable {δ : Type*}

/-- Both run out of fuel, or both are over, or both go on. -/
inductive Alike (E : ε → δ → Prop) (R : α → β → Prop) : Option (Except ε α) → Option (Except δ β) → Prop
  | none : Alike E R none none
  | error {e : ε} {d : δ} (h : E e d) : Alike E R (some (.error e)) (some (.error d))
  | ok {a : α} {b : β} (h : R a b) : Alike E R (some (.ok a)) (some (.ok b))

variable {E : ε → δ → Prop} {R : α → β → Prop}

theorem Alike.andThen {α' β' : Type*} {S : α' → β' → Prop} {x : Option (Except ε α)} {y : Option (Except δ β)}
    {g : α → Option (Except ε α')} {g' : β → Option (Except δ β')} (hx : Alike E R x y)
    (hg : ∀ a b, R a b → Alike E S (g a) (g' b)) : Alike E S (Fuel.andThen x g) (Fuel.andThen y g') := by
  cases hx with
  | none => exact .none
  | error h => exact .error h
  | ok h => exact hg _ _ h

theorem Alike.mono {S : α → β → Prop} {x : Option (Except ε α)} {y : Option (Except δ β)} (h : Alike E R x y)
    (hS : ∀ a b, R a b → S a b) : Alike E S x y := by
  cases h with
  | none => exact .none
  | error h => exact .error h
  | ok h => exact .ok (hS _ _ h)

theorem Alike.mapOk_eq_ok {f : α → γ} {f' : β → γ} {x : Option (Except ε α)} {y : Option (Except δ β)}
    (h : Alike (fun _ _ => False) (fun a b => f a = f' b) x y) (c : γ) :
    mapOk f x = some (.ok c) ↔ mapOk f' y = some (.ok c) := by
  cases h with
  | none => exact iff_of_false nofun nofun
  | error h => exact h.elim
  | ok h => simp [h]

theorem Alike.noExit {x : Option (Except ε α)} {y : Option (Except δ β)} (h : Alike (fun _ _ => False) R x y) :
    NoExit x ∧ NoExit y := by
  cases h with
  | none => exact ⟨fun _ => nofun, fun _ => nofun⟩
  | error h => exact h.elim
  | ok h => exact ⟨.some_ok _, .some_ok _⟩

end Exit

/-! ## More fuel changes nothing -/

/-- A larger budget gives the same result. -/
def Stable (f : Nat → Option α) : Prop := ∀ n a, f n = some a → f (n + 1) = some a

theorem Stable.returns {f : Nat → Option α} (h : Stable f) {n : Nat} {a : α} (ha : f n = some a) :
    Returns f a := by
  refine ⟨n, fun k hk => ?_⟩
  induction k, hk using Nat.le_induction with
  | base => exact ha
  | succ k _ ih => exact h k a ih

theorem stable_const (o : Option α) : Stable fun _ => o := fun _ _ h => h

theorem Stable.bind {f : Nat → Option α} {g : Nat → α → Option β} (hf : Stable f)
    (hg : ∀ a, Stable fun n => g n a) : Stable fun n => (f n).bind (g n) := by
  intro n b hb
  obtain ⟨a, ha, hb⟩ := Option.bind_eq_some_iff.mp hb
  exact Option.bind_eq_some_iff.mpr ⟨a, hf n a ha, hg a n b hb⟩

theorem Stable.map {f : Nat → Option α} (hf : Stable f) (g : α → β) :
    Stable fun n => (f n).map g := by
  intro n b hb
  obtain ⟨a, ha, hb⟩ := Option.map_eq_some_iff.mp hb
  exact Option.map_eq_some_iff.mpr ⟨a, hf n a ha, hb⟩

theorem Stable.ite {p : Prop} [Decidable p] {f g : Nat → Option α} (hf : Stable f) (hg : Stable g) :
    Stable fun n => if p then f n else g n := by
  by_cases h : p
  · simpa [h] using hf
  · simpa [h] using hg

end OsCoursework.Fuel
