import Mathlib

/-!
# Byte memory

A memory is a total map from addresses to bytes. Words of `k` bytes are stored
with the low byte first.
-/

namespace OsCoursework.ByteMem

abbrev Byte := BitVec 8

abbrev Mem := Nat → Byte

/-- The number in the `k` bytes from `a` on. -/
def load (m : Mem) (a : Nat) : Nat → Nat
  | 0 => 0
  | k + 1 => (m a).toNat + 256 * load m (a + 1) k

/-- Puts `v` into the `k` bytes from `a` on. -/
def store (m : Mem) (a v k : Nat) : Mem := fun x =>
  if a ≤ x ∧ x < a + k then BitVec.ofNat 8 (v / 256 ^ (x - a)) else m x

/-! ## Frames -/

/-- The two memories agree outside `w`. -/
def SameOutside (w : Set Nat) (m m' : Mem) : Prop := ∀ x, x ∉ w → m' x = m x

theorem SameOutside.refl (w : Set Nat) (m : Mem) : SameOutside w m m := fun _ _ => rfl

theorem SameOutside.mono {w w' : Set Nat} {m m' : Mem} (h : SameOutside w m m') (hw : w ⊆ w') :
    SameOutside w' m m' := fun x hx => h x (fun hm => hx (hw hm))

theorem SameOutside.trans {w : Set Nat} {m m' m'' : Mem} (h : SameOutside w m m')
    (h' : SameOutside w m' m'') : SameOutside w m m'' := fun x hx => (h' x hx).trans (h x hx)

theorem store_sameOutside (m : Mem) (a v k : Nat) : SameOutside (Set.Ico a (a + k)) m (store m a v k) := by
  intro x hx
  exact if_neg hx

theorem update_sameOutside (m : Mem) (a : Nat) (b : Byte) : SameOutside {a} m (Function.update m a b) := by
  intro x hx
  exact Function.update_of_ne hx b m

/-! ## Loads after stores -/

theorem load_congr {m m' : Mem} (k a : Nat) (h : ∀ x, a ≤ x → x < a + k → m' x = m x) :
    load m' a k = load m a k := by
  induction k generalizing a with
  | zero => rfl
  | succ k ih =>
    rw [load, load, h a le_rfl (by omega), ih (a + 1) fun x h1 h2 => h x (by omega) (by omega)]

theorem SameOutside.load_eq {w : Set Nat} {m m' : Mem} (h : SameOutside w m m') (a k : Nat)
    (hd : Disjoint (Set.Ico a (a + k)) w) : load m' a k = load m a k := by
  apply load_congr
  intro x h1 h2
  exact h x (Set.disjoint_left.mp hd ⟨h1, h2⟩)

theorem load_lt (m : Mem) (a k : Nat) : load m a k < 256 ^ k := by
  induction k generalizing a with
  | zero => simp [load]
  | succ k ih =>
    have h1 := (m a).isLt
    have h2 := ih (a + 1)
    rw [load, pow_succ]
    omega

theorem load_mono {m m' : Mem} (h : ∀ x, (m' x).toNat ≤ (m x).toNat) (a k : Nat) : load m' a k ≤ load m a k := by
  induction k generalizing a with
  | zero => exact le_rfl
  | succ k ih =>
    have hlow := h a
    have hrest := ih (a + 1)
    rw [load, load]
    omega

theorem load_store_same (m : Mem) (a v k : Nat) : load (store m a v k) a k = v % 256 ^ k := by
  induction k generalizing a v m with
  | zero => simp [load, Nat.mod_one]
  | succ k ih =>
    -- Above the low byte, the store of `v` is a store of `v / 256`.
    have hrest : load (store m a v (k + 1)) (a + 1) k = load (store m (a + 1) (v / 256) k) (a + 1) k := by
      apply load_congr
      intro x h1 h2
      simp only [store, if_pos (show a ≤ x ∧ x < a + (k + 1) by omega),
        if_pos (show a + 1 ≤ x ∧ x < a + 1 + k by omega)]
      rw [show x - a = (x - (a + 1)) + 1 by omega, pow_succ', Nat.div_div_eq_div_mul]
    have hlow : (store m a v (k + 1) a).toNat = v % 256 := by
      simp [store]
    rw [load, hrest, ih, hlow, pow_succ', Nat.mod_mul]

theorem load_store_ne (m : Mem) (a v j b k : Nat) (h : b + k ≤ a ∨ a + j ≤ b) :
    load (store m a v j) b k = load m b k := by
  apply load_congr
  intro x h1 h2
  exact if_neg (by omega)

/-! ## Runs of bytes -/

/-- `n` bytes from `p` on become `b`, one after the other. -/
def fill (m : Mem) (p : Nat) (b : Byte) : Nat → Mem
  | 0 => m
  | n + 1 => Function.update (fill m p b n) (p + n) b

theorem fill_apply (m : Mem) (p : Nat) (b : Byte) (n x : Nat) :
    fill m p b n x = if p ≤ x ∧ x < p + n then b else m x := by
  induction n with
  | zero => rw [fill, if_neg (by omega)]
  | succ n ih =>
    rw [fill, Function.update_apply, ih]
    split_ifs <;> first | rfl | omega

theorem fill_sameOutside (m : Mem) (p : Nat) (b : Byte) (n : Nat) :
    SameOutside (Set.Ico p (p + n)) m (fill m p b n) := by
  intro x hx
  rw [fill_apply]
  exact if_neg hx

end OsCoursework.ByteMem
