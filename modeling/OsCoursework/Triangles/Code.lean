import OsCoursework.Lib.ForLoop

/-!
# Counting triangles

`hw2/triangles.c` (processes), `hw3/triangles-thread.c` (threads) and `hw6/triangles.cu`
(a kernel). The loops have C ints as counters, and a read outside the list has no meaning. A
tally keeps the triangles that its count stands for, which is what the report mode prints.
-/

open OsCoursework.ForLoop

namespace OsCoursework.Triangles

abbrev CInt := BitVec 32

def checkTriangle (a b c : CInt) : Bool := c.slt (a + b) && b.slt (a + c) && a.slt (b + c)

/-- `vList[i]` -/
def value (vList : List CInt) (i : Int) : CInt := vList.getD i.toNat 0

structure Tally where
  count : CInt
  found : List (Nat × Nat × Nat)

def Tally.start : Tally := ⟨0, []⟩

def Inside (vList : List CInt) (i : Int) : Prop := 0 ≤ i ∧ i < vList.length

instance (vList : List CInt) (i : Int) : Decidable (Inside vList i) := inferInstanceAs (Decidable (_ ∧ _))

/-- The innermost statement. -/
def tally (vList : List CInt) (i j k : Int) (s : Tally) : Option Tally :=
  if Inside vList i ∧ Inside vList j ∧ Inside vList k then
    some (if checkTriangle (value vList i) (value vList j) (value vList k) then
      ⟨s.count + 1, s.found ++ [(i.toNat, j.toNat, k.toNat)]⟩
    else s)
  else none

/-- The loops that the processes and the threads share. -/
def countTriangles (fuel : Nat) (vList : List CInt) (wid workers : Int) : Option Tally :=
  let vCount : Int := vList.length
  forLoop (vCount - 2) workers (fun i =>
    forLoop (vCount - 1) 1 (fun j =>
      forLoop vCount 1 (fun k s => tally vList i j k s) fuel (int32 (j + 1)))
      fuel (int32 (i + 1)))
    fuel wid Tally.start

/-- `main` adds the counts up, in the order in which it gets them. -/
def total (counts : List CInt) : CInt := counts.foldl (· + ·) 0

/-! ## Reading the list -/

/-- The list while `readList` grows it. `room` is the number of values that fit, none when the array is
null. -/
structure Reading where
  values : List CInt
  vCap : CInt
  room : Nat

/-- The array of `vCap * sizeof(int)` bytes, which must not be more than `PTRDIFF_MAX`. -/
def roomFor (vCap : CInt) : Nat :=
  let bytes := (vCap.signExtend 64 * 4).toNat
  if bytes < 2 ^ 63 then bytes / 4 else 0

/-- One turn of the loop. -/
def readValue (s : Reading) (v : CInt) : Option Reading :=
  let vCount : CInt := s.values.length
  let s := if s.vCap.sle vCount then { s with vCap := s.vCap * 2, room := roomFor (s.vCap * 2) } else s
  if vCount.toNat < s.room then some { s with values := s.values ++ [v] } else none

def readList (input : List CInt) : Option (List CInt) :=
  (input.foldlM readValue ⟨[], 5, roomFor 5⟩).map Reading.values

/-! ## Processes -/

namespace Process

/-- What worker `wid` writes to the pipe. -/
def findTriangles (fuel : Nat) (vList : List CInt) (wid workers : Int) : Option CInt :=
  (countTriangles fuel vList wid workers).map Tally.count

/-- What `main` prints, when the workers write in this order. -/
def mainTotal (fuel : Nat) (input : List CInt) (workers : Nat) (order : List Nat) : Option Int :=
  (readList input).bind fun vList =>
    (order.mapM fun wid : Nat => findTriangles fuel vList wid workers).map fun counts => (total counts).toInt

end Process

/-! ## Threads -/

namespace Thread

structure ThreadInfo where
  wid : Int
  workers : Int
  localCount : CInt

def findTriangles (fuel : Nat) (vList : List CInt) (tArgs : ThreadInfo) : Option ThreadInfo :=
  (countTriangles fuel vList tArgs.wid tArgs.workers).map fun t => { tArgs with localCount := t.count }

/-- `tArgs[i]`, before the thread starts. -/
def threadArgs (workers : Int) (i : Nat) : ThreadInfo := ⟨i, workers, 0⟩

/-- What `main` prints. -/
def mainTotal (fuel : Nat) (input : List CInt) (workers : Nat) : Option Int :=
  (readList input).bind fun vList =>
    ((List.range workers).mapM fun i => findTriangles fuel vList (threadArgs workers i)).map fun tArgs =>
      (total (tArgs.map ThreadInfo.localCount)).toInt

end Thread

/-! ## The kernel -/

namespace Cuda

def checkValid (fuel : Nat) (vList : List CInt) (blockDim blockIdx threadIdx : Int) (results : List CInt) :
    Option (List CInt) :=
  let idx := int32 (blockDim * blockIdx + threadIdx)
  if idx ≥ vList.length then some results
  else
    (forLoop (idx - 1) 1 (fun i => forLoop idx 1 (fun j s => tally vList i j idx s) fuel (int32 (i + 1)))
      fuel 0 Tally.start).map fun t => results.set idx.toNat t.count

def threadsPerBlock : Int := 100

def blocksPerGrid (vList : List CInt) : Int := (int32 (vList.length + threadsPerBlock - 1)).tdiv threadsPerBlock

/-- The threads of the launch. -/
def grid (vList : List CInt) : List (Int × Int) :=
  (indices 0 (blocksPerGrid vList) 1).flatMap fun block =>
    (indices 0 threadsPerBlock 1).map fun thread => (block, thread)

/-- The launch, when its threads finish in this order. -/
def launch (fuel : Nat) (vList : List CInt) (order : List (Int × Int)) : Option (List CInt) :=
  order.foldlM (fun results t => checkValid fuel vList threadsPerBlock t.1 t.2 results)
    (List.replicate vList.length 0)

end Cuda

/-! ## What they count -/

/-- The triples `i < j < k` that are triangles. -/
def triangles (vList : List CInt) : Finset (Nat × Nat × Nat) :=
  let places := Finset.range vList.length
  (places ×ˢ places ×ˢ places).filter fun t =>
    t.1 < t.2.1 ∧ t.2.1 < t.2.2 ∧ checkTriangle (value vList t.1) (value vList t.2.1) (value vList t.2.2)

theorem mem_triangles {vList : List CInt} {i j k : Nat} :
    (i, j, k) ∈ triangles vList ↔ i < j ∧ j < k ∧ k < vList.length ∧
      checkTriangle (value vList i) (value vList j) (value vList k) = true := by
  simp only [triangles, Finset.mem_filter, Finset.mem_product, Finset.mem_range]
  constructor
  · rintro ⟨⟨-, -, hk⟩, hij, hjk, h⟩
    exact ⟨hij, hjk, hk, h⟩
  · rintro ⟨hij, hjk, hk, h⟩
    exact ⟨⟨by omega, by omega, hk⟩, hij, hjk, h⟩

end OsCoursework.Triangles
