import Mathlib

/-!
# Bounded maps in a table of slots

A partial map with at most `n` keys, and its representation by `n` slots that are
filled and freed in any order. Where an entry sits does not matter.
-/

namespace OsCoursework

universe u v

structure BoundedMap (κ : Type u) (ν : Type v) (n : Nat) where
  lookup : κ → Option ν
  keys : Finset κ
  mem_keys : ∀ k, k ∈ keys ↔ lookup k ≠ none
  bound : keys.card ≤ n

namespace BoundedMap

variable {κ : Type u} {ν : Type v} {n : Nat}

@[ext] theorem ext {m m' : BoundedMap κ ν n} (h : m.lookup = m'.lookup) : m = m' := by
  have hkeys : m.keys = m'.keys := by
    ext k
    rw [m.mem_keys, m'.mem_keys, h]
  cases m
  cases m'
  congr

def empty : BoundedMap κ ν n := ⟨fun _ => none, ∅, by simp, by simp⟩

variable [DecidableEq κ]

def insert (m : BoundedMap κ ν n) (k : κ) (v : ν) (h : m.keys.card < n) : BoundedMap κ ν n where
  lookup := Function.update m.lookup k (some v)
  keys := Insert.insert k m.keys
  mem_keys q := by
    rw [Finset.mem_insert, m.mem_keys, Function.update_apply]
    split_ifs with hq <;> simp [hq]
  bound := (Finset.card_insert_le _ _).trans h

def erase (m : BoundedMap κ ν n) (k : κ) : BoundedMap κ ν n where
  lookup := Function.update m.lookup k none
  keys := m.keys.erase k
  mem_keys q := by
    rw [Finset.mem_erase, m.mem_keys, Function.update_apply]
    split_ifs with hq <;> simp [hq]
  bound := Finset.card_erase_le.trans m.bound

@[simp] theorem lookup_insert (m : BoundedMap κ ν n) (k : κ) (v : ν) (h : m.keys.card < n) (q : κ) :
    (m.insert k v h).lookup q = if q = k then some v else m.lookup q :=
  Function.update_apply _ _ _ _

@[simp] theorem lookup_erase (m : BoundedMap κ ν n) (k q : κ) :
    (m.erase k).lookup q = if q = k then none else m.lookup q :=
  Function.update_apply _ _ _ _

end BoundedMap

/-! ## Slots -/

abbrev Slots (κ : Type u) (ν : Type v) := List (Option (κ × ν))

namespace Slots

variable {κ : Type u} {ν : Type v}

/-- The keys in slot order. -/
def keys (s : Slots κ ν) : List κ := s.filterMap (Option.map Prod.fst)

def used (s : Slots κ ν) : Nat := s.countP Option.isSome

@[simp] theorem keys_none (s : Slots κ ν) : keys (none :: s) = keys s := rfl

@[simp] theorem keys_some (e : κ × ν) (s : Slots κ ν) : keys (some e :: s) = e.1 :: keys s := rfl

@[simp] theorem used_none (s : Slots κ ν) : used (none :: s) = used s := by simp [used]

@[simp] theorem used_some (e : κ × ν) (s : Slots κ ν) : used (some e :: s) = used s + 1 := by simp [used]

theorem length_keys (s : Slots κ ν) : (keys s).length = used s := by
  induction s with
  | nil => rfl
  | cons o s ih => cases o <;> simp [ih]

theorem used_le (s : Slots κ ν) : used s ≤ s.length := List.countP_le_length

theorem mem_free_iff (s : Slots κ ν) : none ∈ s ↔ used s < s.length := by
  induction s with
  | nil => simp [used]
  | cons o s ih =>
    cases o with
    | none =>
      have hle := used_le s
      simp only [List.mem_cons_self, used_none, List.length_cons, true_iff]
      omega
    | some e => simp [ih]

/-- Fill the first free slot. -/
def put (e : κ × ν) : Slots κ ν → Slots κ ν
  | [] => []
  | none :: s => some e :: s
  | some e' :: s => some e' :: put e s

@[simp] theorem length_put (e : κ × ν) (s : Slots κ ν) : (put e s).length = s.length := by
  fun_induction put e s <;> simp_all

theorem keys_put {e : κ × ν} {s : Slots κ ν} (hfree : none ∈ s) : (keys (put e s)).Perm (e.1 :: keys s) := by
  induction s with
  | nil => simp at hfree
  | cons o s ih =>
    cases o with
    | none => exact .rfl
    | some e' =>
      rw [put, keys_some, keys_some]
      exact ((ih (by simpa using hfree)).cons e'.1).trans (List.Perm.swap _ _ _)

theorem mem_keys_of_mem {e : κ × ν} {s : Slots κ ν} (h : some e ∈ s) : e.1 ∈ keys s :=
  List.mem_filterMap.mpr ⟨some e, h, rfl⟩

theorem mem_put {e e' : κ × ν} {s : Slots κ ν} (h : some e' ∈ put e s) : e' = e ∨ some e' ∈ s := by
  fun_induction put e s <;> simp_all
  grind

variable [DecidableEq κ]

/-- The value in the first slot with this key. -/
def find (k : κ) : Slots κ ν → Option ν
  | [] => none
  | none :: s => find k s
  | some e :: s => if e.1 = k then some e.2 else find k s

/-- Free the first slot with this key. -/
def remove (k : κ) : Slots κ ν → Slots κ ν
  | [] => []
  | none :: s => none :: remove k s
  | some e :: s => if e.1 = k then none :: s else some e :: remove k s

theorem find_ne_none_iff (k : κ) (s : Slots κ ν) : find k s ≠ none ↔ k ∈ keys s := by
  induction s with
  | nil => simp [find, keys]
  | cons o s ih =>
    cases o with
    | none => exact ih
    | some e =>
      rw [find, keys_some, List.mem_cons, ← ih]
      split_ifs with h
      · simp [h]
      · simp [Ne.symm h]

@[simp] theorem length_remove (k : κ) (s : Slots κ ν) : (remove k s).length = s.length := by
  fun_induction remove k s <;> simp_all

theorem find_put {e : κ × ν} {s : Slots κ ν} (hnew : find e.1 s = none) (hfree : none ∈ s) (q : κ) :
    find q (put e s) = if e.1 = q then some e.2 else find q s := by
  induction s with
  | nil => simp at hfree
  | cons o s ih =>
    cases o with
    | none => rfl
    | some e' =>
      rw [find] at hnew
      split_ifs at hnew with h
      rw [put, find, find, ih hnew (by simpa using hfree)]
      split_ifs with h1 h2
      · exact absurd (h1.trans h2.symm) h
      all_goals rfl

theorem find_remove {k : κ} {s : Slots κ ν} (hd : (keys s).Nodup) (q : κ) :
    find q (remove k s) = if q = k then none else find q s := by
  induction s with
  | nil => simp [remove, find]
  | cons o s ih =>
    cases o with
    | none => exact ih hd
    | some e =>
      rw [keys_some, List.nodup_cons] at hd
      rw [remove, find]
      by_cases h1 : e.1 = k
      · rw [if_pos h1, find]
        by_cases h2 : q = k
        · -- The rest of the slots do not have this key.
          rw [if_pos h2]
          by_contra hne
          exact hd.1 (h1 ▸ h2 ▸ (find_ne_none_iff _ _).mp hne)
        · rw [if_neg h2, if_neg fun h => h2 (h.symm.trans h1)]
      · rw [if_neg h1, find, ih hd.2]
        by_cases h2 : e.1 = q
        · rw [if_pos h2, if_pos h2, if_neg fun h => h1 (h2.trans h)]
        · rw [if_neg h2, if_neg h2]

theorem keys_remove (k : κ) (s : Slots κ ν) : (keys (remove k s)).Sublist (keys s) := by
  induction s with
  | nil => exact .slnil
  | cons o s ih =>
    cases o with
    | none => exact ih
    | some e =>
      rw [remove]
      split_ifs
      · exact List.sublist_cons_self _ _
      · exact ih.cons_cons _

theorem mem_remove {k : κ} {e : κ × ν} {s : Slots κ ν} (h : some e ∈ remove k s) : some e ∈ s := by
  fun_induction remove k s <;> simp_all
  grind

/-! ## The map of a table -/

/-- No key is in two slots. -/
def Distinct (s : Slots κ ν) : Prop := (keys s).Nodup

theorem find_eq_some_iff {k : κ} {v : ν} {s : Slots κ ν} (hd : Distinct s) :
    find k s = some v ↔ some (k, v) ∈ s := by
  induction s with
  | nil => simp [find]
  | cons o s ih =>
    cases o with
    | none => simpa [find] using ih hd
    | some e =>
      rw [Distinct, keys_some, List.nodup_cons] at hd
      rw [find, List.mem_cons]
      by_cases he : e.1 = k
      · -- No other slot has this key.
        have hnot : some (k, v) ∉ s := fun hmem => hd.1 (he ▸ mem_keys_of_mem hmem)
        rw [if_pos he, ← he]
        simp [Prod.ext_iff, he ▸ hnot, eq_comm]
      · rw [if_neg he, ih hd.2]
        simp [Prod.ext_iff, Ne.symm he]

theorem distinct_put {e : κ × ν} {s : Slots κ ν} (hd : Distinct s) (hnew : find e.1 s = none)
    (hfree : none ∈ s) : Distinct (put e s) := by
  rw [Distinct, (keys_put hfree).nodup_iff, List.nodup_cons, ← find_ne_none_iff]
  exact ⟨fun h => h hnew, hd⟩

theorem distinct_remove {s : Slots κ ν} (hd : Distinct s) (k : κ) : Distinct (remove k s) :=
  hd.sublist (keys_remove k s)

def toMap (s : Slots κ ν) {n : Nat} (hn : s.length = n) : BoundedMap κ ν n where
  lookup k := find k s
  keys := (keys s).toFinset
  mem_keys k := by rw [List.mem_toFinset, find_ne_none_iff]
  bound := (List.toFinset_card_le _).trans ((length_keys s).trans_le ((used_le s).trans_eq hn))

theorem card_toMap {s : Slots κ ν} {n : Nat} (hn : s.length = n) (hd : Distinct s) :
    (toMap s hn).keys.card = used s :=
  (List.toFinset_card_of_nodup hd).trans (length_keys s)

end Slots

end OsCoursework
