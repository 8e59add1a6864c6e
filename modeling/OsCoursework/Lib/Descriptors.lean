import Mathlib

/-!
# Descriptor tables

A process has a table from descriptors to what is open. A pipe ends when no table refers to
its writing end any more, so what matters is where a table refers to a thing.
-/

namespace OsCoursework.Descriptors

variable {δ κ : Type*}

/-- What each descriptor refers to. `none` is a descriptor that is not open. -/
abbrev Table (δ κ : Type*) := δ → Option κ

section Lookup

variable [Fintype δ] [DecidableEq κ] {t : Table δ κ} {e : κ}

/-- The descriptors that refer to `e`. -/
def Table.at (t : Table δ κ) (e : κ) : Finset δ := {fd | t fd = some e}

/-- Some descriptor refers to `e`. -/
def Table.refers (t : Table δ κ) (e : κ) : Prop := ∃ fd, t fd = some e

instance (t : Table δ κ) (e : κ) : Decidable (t.refers e) := inferInstanceAs (Decidable (∃ _, _))

theorem mem_at {fd : δ} : fd ∈ t.at e ↔ t fd = some e := by simp [Table.at]

@[simp] theorem at_none (e : κ) : Table.at (fun _ : δ => none) e = ∅ := by simp [Table.at]

end Lookup

section Calls

variable [DecidableEq δ]

def Table.close (t : Table δ κ) (fd : δ) : Table δ κ := Function.update t fd none

/-- `new` is made to refer to what `old` refers to. -/
def Table.dup2 (t : Table δ κ) (old new : δ) : Table δ κ := Function.update t new (t old)

def Table.open (t : Table δ κ) (fd : δ) (e : κ) : Table δ κ := Function.update t fd (some e)

variable [Fintype δ] [DecidableEq κ]

@[simp] theorem at_close (t : Table δ κ) (fd : δ) (e : κ) : (t.close fd).at e = (t.at e).erase fd := by
  ext d
  rw [mem_at, Finset.mem_erase, mem_at, Table.close]
  by_cases hd : d = fd <;> simp [hd]

theorem at_update (t : Table δ κ) (fd : δ) (o : Option κ) (e : κ) :
    Table.at (Function.update t fd o) e = if o = some e then insert fd (t.at e) else (t.at e).erase fd := by
  ext d
  rw [mem_at]
  by_cases hd : d = fd
  · subst hd
    rw [Function.update_self]
    split_ifs with h <;> simp [h]
  · rw [Function.update_of_ne hd]
    split_ifs <;> simp [hd, mem_at]

@[simp] theorem at_dup2 (t : Table δ κ) (old new : δ) (e : κ) :
    (t.dup2 old new).at e = if t old = some e then insert new (t.at e) else (t.at e).erase new := at_update t new _ e

@[simp] theorem at_open (t : Table δ κ) (fd : δ) (e e' : κ) :
    (t.open fd e).at e' = if e = e' then insert fd (t.at e') else (t.at e').erase fd := by
  rw [Table.open, at_update]
  simp

end Calls

section Lowest

variable {limit fd : Nat} {t : Table Nat κ}

/-- The lowest descriptor below `limit` that is not open. -/
def Table.lowest (limit : Nat) (t : Table Nat κ) : Option Nat := (List.range limit).find? fun fd => (t fd).isNone

theorem lowest_eq_some : t.lowest limit = some fd ↔ t fd = none ∧ fd < limit ∧ ∀ d < fd, t d ≠ none := by
  simp [Table.lowest, Option.isSome_iff_ne_none]

theorem lowest_isSome_iff : (t.lowest limit).isSome = true ↔ ∃ fd, fd < limit ∧ t fd = none := by
  simp [Table.lowest]

theorem lowest_ne (h : t.lowest limit = some fd) {d : Nat} (hd : t d ≠ none) : fd ≠ d := by
  rintro rfl
  exact hd (lowest_eq_some.mp h).1

theorem lowest_eq_iff (h : t.lowest limit = some fd) (d : Nat) : fd = d ↔ d ≤ fd ∧ t d = none := by
  obtain ⟨hfree, -, hlower⟩ := lowest_eq_some.mp h
  constructor
  · rintro rfl
    exact ⟨le_rfl, hfree⟩
  · rintro ⟨hle, hd⟩
    by_contra hne
    exact hlower d (lt_of_le_of_ne hle fun heq => hne heq.symm) hd

end Lowest

end OsCoursework.Descriptors
