import OsCoursework.Lib.Checked
import OsCoursework.Lib.ForLoop

/-!
# Two quicksorts

`ex15/linked.c` on nodes that are linked anew, and `ex15/array.c` in place. Both take the first
value as the pivot. A null pointer that is followed and an access outside the array have no
meaning.
-/

open OsCoursework.ForLoop

namespace OsCoursework.Quicksort

/-! ## linked.c -/

namespace Linked

variable {ν : Type} [DecidableEq ν]

/-- `List` of the source. -/
structure NodeList (ν : Type) where
  head : Option ν
  tail : Option ν

/-- Where the nodes point to. -/
abbrev Next (ν : Type) := ν → Option ν

/-- `curr` becomes the last node. -/
def NodeList.append (next : Next ν) (list : NodeList ν) (curr : ν) : Next ν × NodeList ν :=
  match list.tail with
  | some t => (Function.update next t (some curr), { list with tail := some curr })
  | none => (next, ⟨some curr, some curr⟩)

/-- The loop over `curr`. -/
def partition (val : ν → Int) (pivot : ν) :
    Nat → Next ν → Option ν → NodeList ν → NodeList ν → Option (Next ν × NodeList ν × NodeList ν)
  | 0, _, _, _, _ => none
  | _ + 1, next, none, lesser, greater => some (next, lesser, greater)
  | fuel + 1, next, some curr, lesser, greater =>
    let rest := next curr
    let next := Function.update next curr none
    if val curr < val pivot then
      let (next, lesser) := lesser.append next curr
      partition val pivot fuel next rest lesser greater
    else
      let (next, greater) := greater.append next curr
      partition val pivot fuel next rest lesser greater

/-- Lesser + pivot + greater -/
def splice (next : Next ν) (pivot : ν) (lesser greater : NodeList ν) : Option (Next ν × NodeList ν) :=
  let tail := greater.tail.or (some pivot)
  match lesser.head with
  | some h =>
    lesser.tail.map fun t =>
      (Function.update (Function.update next t (some pivot)) pivot greater.head, ⟨some h, tail⟩)
  | none => some (Function.update next pivot greater.head, ⟨some pivot, tail⟩)

/-- The fuel is for the loop, and for the depth of the calls. -/
def sort (val : ν → Int) : Nat → Next ν → NodeList ν → Option (Next ν × NodeList ν)
  | 0, _, _ => none
  | fuel + 1, next, list =>
    match list.head with
    | none => some (next, list)
    | some pivot =>
      if next pivot = none then some (next, list)
      else
        (partition val pivot fuel next (next pivot) ⟨none, none⟩ ⟨none, none⟩).bind fun (next, lesser, greater) =>
          (sort val fuel next lesser).bind fun (next, lesser) =>
            (sort val fuel next greater).bind fun (next, greater) => splice next pivot lesser greater

end Linked

/-! ## array.c -/

namespace InPlace

/-- `seq[i]`, where `seq` points to place `base` of the memory. -/
def load (mem : List Int) (base : Nat) (i : Int) : Option Int :=
  if 0 ≤ i then Checked.load mem (base + i.toNat) else none

def store (mem : List Int) (base : Nat) (i v : Int) : Option (List Int) :=
  if 0 ≤ i then Checked.store mem (base + i.toNat) v else none

def swap (mem : List Int) (base : Nat) (i j : Int) : Option (List Int) :=
  if 0 ≤ i ∧ 0 ≤ j then Checked.swap mem (base + i.toNat) (base + j.toNat) else none

/-- The body of the loop. -/
def partitionStep (base : Nat) (pivot i : Int) : List Int × Int → Option (List Int × Int)
  | (mem, lower) =>
    (load mem base i).bind fun v =>
      if v < pivot then (swap mem base (lower + 1) i).map fun mem => (mem, lower + 1) else some (mem, lower)

/-- `seq + lower + 1` is a pointer into the same memory. -/
def sort : Nat → List Int → Nat → Int → Option (List Int)
  | 0, _, _, _ => none
  | fuel + 1, mem, base, n =>
    if n ≤ 1 then some mem
    else
      (load mem base 0).bind fun pivot =>
        (forLoop n 1 (partitionStep base pivot) fuel 1 (mem, 0)).bind fun (mem, lower) =>
          (load mem base lower).bind fun v =>
            (store mem base 0 v).bind fun mem =>
              (store mem base lower pivot).bind fun mem =>
                (sort fuel mem base lower).bind fun mem =>
                  sort fuel mem (base + lower.toNat + 1) (n - lower - 1)

end InPlace

end OsCoursework.Quicksort
