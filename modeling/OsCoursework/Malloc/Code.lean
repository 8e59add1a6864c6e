import OsCoursework.Lib.ByteMem
import OsCoursework.Lib.Checked
import OsCoursework.Lib.Cstring
import OsCoursework.Lib.Fuel

/-!
# The allocator of `myMalloc.c`

The functions of `exercises/ex11/myMalloc.c`, on a byte memory. A `Hole` is 16
bytes: `size` in the first eight, `next` in the other eight, and `mem` is the
address of `next`. A pointer is a number below 2^64 and `NULL` is 0. A loop over
the free list takes fuel and gives `none` without it.
-/

open OsCoursework.ByteMem OsCoursework.Cstring

namespace OsCoursework.Malloc

/-! ## `size_t` and pointer arithmetic -/

def wrap (n : Nat) : Nat := n % 2 ^ 64

/-- `a - b` on `size_t`. -/
def wrapSub (a b : Nat) : Nat := (a + (2 ^ 64 - b % 2 ^ 64)) % 2 ^ 64

/-! ## Fields of a `Hole` -/

def sizeOf (m : Mem) (h : Nat) : Nat := load m h 8

def next (m : Mem) (h : Nat) : Nat := load m (h + 8) 8

def setSize (m : Mem) (h v : Nat) : Mem := store m h v 8

def setNext (m : Mem) (h v : Nat) : Mem := store m (h + 8) v 8

/-- `h->mem`. -/
def memOf (h : Nat) : Nat := wrap (h + 8)

/-! ## The state -/

/-- The memory, the two variables of the file, and every region `mmap` has returned so far. -/
structure State where
  mem : Mem
  freeList : Nat
  nextBlock : Nat
  mapped : List (Nat × Nat)

/-- The values of the two variables when the program starts. -/
def State.start (m : Mem) : State := ⟨m, 0, 0x600000000000, []⟩

/-- What `mmap` answers to an address hint and a length. `none` is `MAP_FAILED`. -/
abbrev Mmap := Nat → Nat → Option Nat

/-! ## The free list -/

def getBlockLoop (size : Nat) : Nat → State → Nat → Nat → Option (Nat × State)
  | 0, _, _, _ => none
  | fuel + 1, s, pred, curr =>
    if curr = 0 then some (0, s)
    else if size ≤ sizeOf s.mem curr then
      if pred = 0 then some (curr, { s with freeList := next s.mem curr })
      else some (curr, { s with mem := setNext s.mem pred (next s.mem curr) })
    else getBlockLoop size fuel s curr (next s.mem curr)

def getBlock (fuel : Nat) (s : State) (size : Nat) : Option (Nat × State) :=
  getBlockLoop size fuel s 0 s.freeList

/-- The first loop of `returnBlock`: the last node before `h`. -/
def findPred (m : Mem) (h : Nat) : Nat → Nat → Nat → Option Nat
  | 0, _, _ => none
  | fuel + 1, pred, node =>
    if node ≠ 0 ∧ node < h then findPred m h fuel node (next m node) else some pred

def link (s : State) (pred h : Nat) : State :=
  if pred ≠ 0 then { s with mem := setNext (setNext s.mem h (next s.mem pred)) pred h }
  else { s with mem := setNext s.mem h s.freeList, freeList := h }

/-- `a` grows by its neighbour `b` and skips it. -/
def absorb (m : Mem) (a b : Nat) : Mem :=
  let m := setSize m a (wrap (sizeOf m a + (sizeOf m b + 8)))
  setNext m a (next m b)

def absorbNext (m : Mem) (h : Nat) : Mem :=
  if next m h ≠ 0 ∧ wrap (memOf h + sizeOf m h) = next m h then absorb m h (next m h) else m

/-- Absorb `h` into its predecessor if there is no gap between them. -/
def absorbInto (m : Mem) (pred h : Nat) : Mem :=
  if pred ≠ 0 ∧ wrap (memOf pred + sizeOf m pred) = h then absorb m pred h else m

def returnBlock (fuel : Nat) (s : State) (h : Nat) : Option State :=
  (findPred s.mem h fuel 0 s.freeList).bind fun pred =>
    let s := link s pred h
    let s := { s with mem := absorbNext s.mem h }
    some { s with mem := absorbInto s.mem pred h }

/-! ## The calls -/

/-- The size that `malloc` looks for: at least a pointer, and a multiple of 4. -/
def roundSize (size : Nat) : Nat :=
  let size := if size < 8 then 8 else size
  wrap (size + 3) / 4 * 4

/-- The length that `malloc` asks of the OS, a multiple of the page size. -/
def mmapLength (psize size : Nat) : Nat :=
  let req := wrap (size + 8)
  wrap (wrapSub (wrap (req + psize)) 1 / psize * psize)

def growHeap (psize : Nat) (mmap : Mmap) (s : State) (size : Nat) : Option (Nat × State) :=
  let req := mmapLength psize size
  (mmap s.nextBlock req).map fun h =>
    (h, { s with
      mem := setSize s.mem h (wrapSub req 8)
      nextBlock := wrap (s.nextBlock + req)
      mapped := (h, req) :: s.mapped })

/-- Split off anything extra and give it back to the free list. -/
def split (fuel : Nat) (s : State) (h size : Nat) : Option (Nat × State) :=
  if wrap (size + 16) ≤ sizeOf s.mem h then
    let h2 := wrap (memOf h + size)
    let m := setSize s.mem h2 (wrapSub (wrapSub (sizeOf s.mem h) size) 8)
    let m := setSize m h size
    (returnBlock fuel { s with mem := m } h2).map fun s => (memOf h, s)
  else some (memOf h, s)

def malloc (psize : Nat) (mmap : Mmap) (fuel : Nat) (s : State) (size : Nat) : Option (Nat × State) :=
  let size := roundSize size
  (getBlock fuel s size).bind fun (h, s) =>
    if h = 0 then
      match growHeap psize mmap s size with
      | none => some (0, s)
      | some (h, s) => split fuel s h size
    else split fuel s h size

def free (fuel : Nat) (s : State) (ptr : Nat) : Option State :=
  if ptr = 0 then some s else returnBlock fuel s (wrapSub ptr 8)

/-- The loop of `calloc`, after `i` rounds. -/
def clearLoop (m : Mem) (p : Nat) : Nat → Mem
  | 0 => m
  | i + 1 => Function.update (clearLoop m p i) (wrap (p + i)) 0

def calloc (psize : Nat) (mmap : Mmap) (fuel : Nat) (s : State) (count size : Nat) :
    Option (Nat × State) :=
  let n := wrap (count * size)
  (malloc psize mmap fuel s n).bind fun (p, s) =>
    if p ≠ 0 then some (p, { s with mem := clearLoop s.mem p n }) else some (p, s)

/-- The loop of `realloc`. The counter is an `int`, and the comparison with `sz`
and the two index computations see it as a 64-bit number. -/
def copyLoop (sz p2 p1 : Nat) : Nat → Mem → BitVec 32 → Option Mem
  | 0, _, _ => none
  | fuel + 1, m, i =>
    let k := (i.signExtend 64).toNat
    if k < sz then copyLoop sz p2 p1 fuel (Function.update m (wrap (p2 + k)) (m (wrap (p1 + k)))) (i + 1)
    else some m

def realloc (psize : Nat) (mmap : Mmap) (fuel : Nat) (s : State) (ptr size : Nat) :
    Option (Nat × State) :=
  if ptr = 0 then malloc psize mmap fuel s size
  else if size = 0 then (free fuel s ptr).map fun s => (0, s)
  else
    (malloc psize mmap fuel s size).bind fun (p2, s) =>
      if p2 = 0 then some (0, s)
      else
        let h := wrapSub ptr 8
        let sz := if sizeOf s.mem h < size then sizeOf s.mem h else size
        (copyLoop sz p2 ptr fuel s.mem 0).bind fun m =>
          (free fuel { s with mem := m } ptr).map fun s => (p2, s)

/-! ## The report -/

/-- What `write` puts out. -/
def reportString (s : List CChar) : Option (List CChar) := if strlen s < s.length then some (text s) else none

/-- `hexChar[ d ]` -/
def hexChar (d : Nat) : CChar := (ascii "0123456789ABCDEF").getD d 0

def reportAddress (addr : Nat) : Option (List CChar) :=
  let str := ascii "0x????????????" ++ List.replicate 6 0
  ((List.range 12).foldlM
    (fun str d => Checked.store str (d + 2) (hexChar (addr >>> (44 - d * 4) &&& 0xF))) str).bind reportString

/-- The loop over the digits of `s`. -/
def digitLoop : Nat → List CChar → Nat → Nat → Option (List CChar × Nat)
  | 0, _, _, _ => none
  | fuel + 1, str, pos, s =>
    if s ≠ 0 then
      (Checked.store str pos (hexChar (s &&& 0xF))).bind fun str => digitLoop fuel str (pos + 1) (s / 16)
    else some (str, pos)

/-- Zero is a special case. -/
def zeroDigit (str : List CChar) (pos : Nat) : Option (List CChar × Nat) :=
  if pos = 0 then (Checked.store str pos 0x30).map fun str => (str, pos + 1) else some (str, pos)

def reverseLoop (pos : Nat) : Nat → List CChar → Nat → Option (List CChar)
  | 0, _, _ => none
  | fuel + 1, str, i =>
    if (i : Int) < pos - i - 1 then
      (Checked.swap str i (pos - i - 1)).bind fun str => reverseLoop pos fuel str (i + 1)
    else some str

/-- `str` is what the local array holds before. -/
def reportSize (fuel : Nat) (str : Vector CChar 20) (s : Nat) : Option (List CChar) :=
  (digitLoop fuel str.toList 0 s).bind fun (str, pos) =>
    (zeroDigit str pos).bind fun (str, pos) =>
      (reverseLoop pos fuel str 0).bind fun str => (Checked.store str pos 0).bind reportString

def reportLoop (str : Nat → Vector CChar 20) (m : Mem) : Nat → Nat → Option (List CChar)
  | 0, _ => none
  | fuel + 1, h =>
    if h ≠ 0 then
      (reportAddress h).bind fun address =>
        (reportSize fuel (str h) (sizeOf m h)).bind fun size =>
          (reportLoop str m fuel (next m h)).map fun rest =>
            address ++ (ascii " : " ++ (size ++ (ascii "\n" ++ rest)))
    else some []

def reportFreeList (str : Nat → Vector CChar 20) (fuel : Nat) (s : State) : Option (List CChar) :=
  reportLoop str s.mem fuel s.freeList

end OsCoursework.Malloc
