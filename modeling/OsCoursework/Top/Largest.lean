import OsCoursework.Top.Status

/-!
# What the table shows

The table has room for the first 1024 processes with a positive size. While the sizes are ints, the
difference of two positive ones is an int too, so they are compared as numbers.
-/

open OsCoursework.Cstring OsCoursework.ForLoop OsCoursework.Lines

namespace OsCoursework.Top

/-! ## The listing -/

def Entry.isProcess (e : Entry) : Bool := e.isDir && isNumeric e.name

/-- The process with the size that its file gives. -/
def process (e : Entry) (f : Fields) : MyProcess := { record (atoi e.name) f with memsize := f.vmSize }

/-- The processes with a positive size, in the order of the directory. -/
def processes (fields : Entry → Fields) (entries : List Entry) : List MyProcess :=
  (entries.filter fun e => e.isProcess && decide (0 < (fields e).vmSize)).map fun e => process e (fields e)

/-- Every process has a status file, and that gives its fields. -/
def Listing (fields : Entry → Fields) (entries : List Entry) : Prop :=
  ∀ e ∈ entries, e.isProcess = true → ∃ status, e.status = some status ∧ Gives (fgetsLines status) (fields e)

/-- The sizes are ints. -/
def IntSizes (fields : Entry → Fields) (entries : List Entry) : Prop :=
  ∀ e ∈ entries, e.isProcess = true → (fields e).vmSize < 2 ^ 31

/-- The ten largest, or all when there are fewer. -/
def PrintsLargest (lines : List (List CChar)) (procs : List MyProcess) : Prop :=
  ∃ order : List MyProcess, order.Perm procs ∧ (order.Pairwise fun p q => q.memsize ≤ p.memsize) ∧
    lines = (order.take (min 10 procs.length)).map printProc

/-! ## qsort -/

/-- A total preorder on the elements, as a comparison function. -/
structure Consistent (cmp : MyProcess → MyProcess → Int) (procs : List MyProcess) : Prop where
  swap : ∀ p ∈ procs, ∀ q ∈ procs, 0 < cmp p q ↔ cmp q p < 0
  trans : ∀ p ∈ procs, ∀ q ∈ procs, ∀ r ∈ procs, cmp p q ≤ 0 → cmp q r ≤ 0 → cmp p r ≤ 0

/-- What `qsort` does when the comparison function is consistent. -/
def Qsort.Sorts (qsort : Qsort) : Prop :=
  ∀ cmp procs, Consistent cmp procs → (qsort cmp procs).Perm procs ∧ (qsort cmp procs).Pairwise fun p q => cmp p q ≤ 0

variable {fields : Entry → Fields} {entries : List Entry} {procs : List MyProcess} {p q : MyProcess} {qsort : Qsort}

def Sized (p : MyProcess) : Prop := 0 < p.memsize ∧ p.memsize < 2 ^ 31

theorem compareProcMem_eq (hp : Sized p) (hq : Sized q) : compareProcMem p q = q.memsize - p.memsize := by
  obtain ⟨hp0, hp1⟩ := hp
  obtain ⟨hq0, hq1⟩ := hq
  exact int32_of_fits (by omega) (by omega)

theorem consistent_compareProcMem (h : ∀ p ∈ procs, Sized p) : Consistent compareProcMem procs where
  swap p hp q hq := by
    rw [compareProcMem_eq (h p hp) (h q hq), compareProcMem_eq (h q hq) (h p hp)]
    omega
  trans p hp q hq r hr := by
    rw [compareProcMem_eq (h p hp) (h q hq), compareProcMem_eq (h q hq) (h r hr), compareProcMem_eq (h p hp) (h r hr)]
    omega

theorem outputProc_largest (hsort : qsort.Sorts) (h : ∀ p ∈ procs, Sized p) :
    PrintsLargest (outputProc qsort procs) procs := by
  obtain ⟨hperm, hsorted⟩ := hsort compareProcMem procs (consistent_compareProcMem h)
  refine ⟨qsort compareProcMem procs, hperm, ?_, ?_⟩
  · refine hsorted.imp_of_mem fun {p q} hp hq hle => ?_
    rw [compareProcMem_eq (h p (hperm.subset hp)) (h q (hperm.subset hq))] at hle
    omega
  · have hcount : (if procs.length < 10 then procs.length else 10) = min 10 procs.length := by
      split_ifs <;> omega
    unfold outputProc
    simp only [hcount]

/-! ## The directory -/

theorem record_eq_process {e : Entry} {f : Fields} (h : f.vmSize < 2 ^ 31) : record (atoi e.name) f = process e f := by
  have hsize : int32 (min (f.vmSize : Int) (2 ^ 63 - 1)) = f.vmSize := by
    rw [min_eq_left (by omega)]
    exact int32_of_fits (by omega) (by omega)
  unfold process
  simp only [record, hsize]

theorem processes_cons (e : Entry) : processes fields (e :: entries) =
    if e.isProcess = true ∧ 0 < (fields e).vmSize then process e (fields e) :: processes fields entries
    else processes fields entries := by
  unfold processes
  rw [List.filter_cons]
  simp only [Bool.and_eq_true, decide_eq_true_eq]
  split_ifs <;> rfl

theorem getAllProcess_cons {e : Entry} (hroom : procs.length < maxProcNum) (h : Listing fields (e :: entries))
    (hint : IntSizes fields (e :: entries)) : getAllProcess (e :: entries) procs =
      if e.isProcess = true ∧ 0 < (fields e).vmSize then getAllProcess entries (procs ++ [process e (fields e)])
      else getAllProcess entries procs := by
  rw [getAllProcess, if_pos hroom]
  by_cases hprocess : e.isProcess = true
  · obtain ⟨status, hstatus, hgives⟩ := h e List.mem_cons_self hprocess
    have hdir : e.isDir = true ∧ isNumeric e.name = true := by simpa [Entry.isProcess] using hprocess
    have hscan : statusLoop (fgetsLines status) (.start (atoi e.name)) =
        ⟨process e (fields e), true, true, true, true⟩ := by
      rw [statusLoop_gives hgives, record_eq_process (hint e List.mem_cons_self hprocess)]
    have hpos : (process e (fields e)).memsize > 0 ↔ 0 < (fields e).vmSize := Int.natCast_pos
    rw [if_pos hdir, hstatus]
    simp only [hscan, Scan.done, Bool.and_true, true_and, hpos, hprocess]
  · have hdir : ¬ (e.isDir = true ∧ isNumeric e.name = true) := by simpa [Entry.isProcess] using hprocess
    rw [if_neg hdir, if_neg fun hsized => hprocess hsized.1]

theorem getAllProcess_eq (h : Listing fields entries) (hint : IntSizes fields entries) (procs : List MyProcess) :
    getAllProcess entries procs = procs ++ (processes fields entries).take (maxProcNum - procs.length) := by
  induction entries generalizing procs with
  | nil => simp [getAllProcess, processes]
  | cons e entries ih =>
    have hrest := ih (fun e' he' => h e' (List.mem_cons_of_mem e he'))
      fun e' he' => hint e' (List.mem_cons_of_mem e he')
    by_cases hroom : procs.length < maxProcNum
    · rw [getAllProcess_cons hroom h hint, processes_cons, hrest, hrest]
      split_ifs
      · have hmore : maxProcNum - procs.length = maxProcNum - (procs ++ [process e (fields e)]).length + 1 := by
          rw [List.length_append, List.length_singleton]
          omega
        rw [hmore, List.take_succ_cons, List.append_assoc, List.singleton_append]
      · rfl
    · have hfull : maxProcNum - procs.length = 0 := by omega
      rw [getAllProcess, if_neg hroom, hfull, List.take_zero, List.append_nil]

theorem processes_sized (hint : IntSizes fields entries) : ∀ p ∈ processes fields entries, Sized p := by
  unfold processes
  intro p hp
  obtain ⟨e, he, rfl⟩ := List.mem_map.mp hp
  simp only [List.mem_filter, Bool.and_eq_true, decide_eq_true_eq] at he
  obtain ⟨hmem, hprocess, hpos⟩ := he
  have hlt := hint e hmem hprocess
  exact ⟨Int.natCast_pos.mpr hpos, by simp only [process]; omega⟩

theorem top_eq (h : Listing fields entries) (hint : IntSizes fields entries) (qsort : Qsort) :
    top qsort entries = outputProc qsort ((processes fields entries).take maxProcNum) := by
  unfold top
  rw [getAllProcess_eq h hint, List.nil_append, List.length_nil, Nat.sub_zero]

/-- **The largest processes are printed**, of those that the table has room for. -/
theorem top_largest (hsort : qsort.Sorts) (h : Listing fields entries) (hint : IntSizes fields entries) :
    PrintsLargest (top qsort entries) ((processes fields entries).take maxProcNum) := by
  rw [top_eq h hint]
  exact outputProc_largest hsort fun p hp => processes_sized hint p (List.mem_of_mem_take hp)

/-! ## Outside of the table, of the ints and of the buffer -/

/-- The status files give the fields in their lines, of any length. -/
def LineListing (fields : Entry → Fields) (entries : List Entry) : Prop :=
  ∀ e ∈ entries, e.isProcess = true → ∃ status, e.status = some status ∧ Gives (lines 0x0a status) (fields e)

theorem fgetsLines_eq {status : List CChar} (h : ∀ line ∈ lines 0x0a status, line.length < maxLineLen ∧ 0 ∉ line) :
    fgetsLines status = lines 0x0a status := by
  unfold fgetsLines
  rw [pieces_eq_lines (fun line hline => Nat.le_sub_one_of_lt (h line hline).1) le_rfl]
  have htext : (lines 0x0a status).map text = (lines 0x0a status).map id :=
    List.map_congr_left fun line hline => text_eq_self (h line hline).2
  rw [htext, List.map_id]

/-- A merge sort that compares only elements of the array. -/
def mergeQsort : Qsort := fun cmp procs =>
  (procs.attach.mergeSort fun p q => decide (cmp p.1 q.1 ≤ 0)).map (·.1)

theorem mergeQsort_sorts : Qsort.Sorts mergeQsort := by
  intro cmp procs h
  constructor
  · have hperm := (List.mergeSort_perm procs.attach fun p q => decide (cmp p.1 q.1 ≤ 0)).map (·.1)
    rwa [List.attach_map_subtype_val] at hperm
  · have htrans : ∀ p q r : { p // p ∈ procs }, decide (cmp p.1 q.1 ≤ 0) = true → decide (cmp q.1 r.1 ≤ 0) = true →
        decide (cmp p.1 r.1 ≤ 0) = true := fun p q r hpq hqr =>
      decide_eq_true (h.trans p p.2 q q.2 r r.2 (of_decide_eq_true hpq) (of_decide_eq_true hqr))
    have htotal : ∀ p q : { p // p ∈ procs }, (decide (cmp p.1 q.1 ≤ 0) || decide (cmp q.1 p.1 ≤ 0)) = true := by
      intro p q
      have hswap := h.swap p p.2 q q.2
      simp only [Bool.or_eq_true, decide_eq_true_eq]
      omega
    unfold mergeQsort
    rw [List.pairwise_map]
    exact (List.pairwise_mergeSort htrans htotal procs.attach).imp of_decide_eq_true

theorem PrintsLargest.first {out : List (List CChar)} (h : PrintsLargest out procs) (hne : procs ≠ []) :
    ∃ p ∈ procs, out.head? = some (printProc p) ∧ ∀ q ∈ procs, q.memsize ≤ p.memsize := by
  obtain ⟨order, hperm, hsorted, rfl⟩ := h
  obtain ⟨p, rest, rfl⟩ := List.exists_cons_of_ne_nil (l := order) (by
    rintro rfl
    exact hne hperm.symm.eq_nil)
  obtain ⟨k, hk⟩ : ∃ k, min 10 procs.length = k + 1 :=
    Nat.exists_eq_succ_of_ne_zero (by have := List.length_pos_of_ne_nil hne; omega)
  refine ⟨p, hperm.subset List.mem_cons_self, by rw [hk]; rfl, fun q hq => ?_⟩
  rcases List.mem_cons.mp (hperm.symm.subset hq) with rfl | hq
  · exact le_rfl
  · exact (List.pairwise_cons.mp hsorted).1 q hq

def sampleStatus (size : List CChar) : List CChar :=
  ascii "Name:\tsh\nState:\tS (sleeping)\nPPid:\t1\nVmSize:\t" ++ size ++ ascii " kB\n"

def smallEntry : Entry := ⟨true, ascii "7", some (sampleStatus (ascii "1"))⟩

def largeEntry : Entry := ⟨true, ascii "8", some (sampleStatus (ascii "2"))⟩

/-- The size is no int. -/
def hugeEntry : Entry := ⟨true, ascii "9", some (sampleStatus (ascii "2147483648"))⟩

/-- The second read of the long line begins with a key. -/
def longEntry : Entry :=
  ⟨true, ascii "10", some (ascii "VmSize:\t7 kB\nName:\tsh\nState:\tS (sleeping)\n" ++ List.replicate 255 0x78 ++
    ascii "VmSize:\t5 kB\nPPid:\t1\n")⟩

/-- One process more than the table has room for, and the largest one last. -/
def manyEntries : List Entry := List.replicate maxProcNum smallEntry ++ [largeEntry]

def sampleFields (e : Entry) : Fields where
  name := ascii "\tsh\n"
  state := ascii "\tS (sleeping)\n"
  ppid := ascii "\t1\n"
  vmSize :=
    if e.name = ascii "7" then 1 else if e.name = ascii "8" then 2 else if e.name = ascii "9" then 2 ^ 31 else 7

theorem lines_sampleStatus {size : List CChar} (h : 0x0a ∉ size) : lines 0x0a (sampleStatus size) =
    [ascii "Name:\tsh\n", ascii "State:\tS (sleeping)\n", ascii "PPid:\t1\n",
      ascii "VmSize:" ++ (ascii "\t" ++ (size ++ ascii " kB\n"))] := by
  have hsplit : sampleStatus size = ascii "Name:\tsh" ++ 0x0a :: (ascii "State:\tS (sleeping)" ++ 0x0a ::
      (ascii "PPid:\t1" ++ 0x0a :: (ascii "VmSize:\t" ++ (size ++ ascii " kB") ++ 0x0a :: []))) := by
    simp [sampleStatus, ascii]
  have hlast : 0x0a ∉ ascii "VmSize:\t" ++ (size ++ ascii " kB") := by
    simp only [List.mem_append, not_or]
    exact ⟨by decide, h, by decide⟩
  rw [hsplit, lines_line (by decide), lines_line (by decide), lines_line (by decide), lines_line hlast]
  simp [lines, closedLines, openLine, Lines.cut, ascii]

theorem sample_gives {size : List CChar} (hdigits : ∀ c ∈ size, isDigit c = true) (hne : size ≠ []) :
    Gives (lines 0x0a (sampleStatus size)) ⟨ascii "\tsh\n", ascii "\tS (sleeping)\n", ascii "\t1\n", numeral size⟩ := by
  have hnewline : 0x0a ∉ size := fun hmem => absurd (hdigits _ hmem) (by decide)
  have hkey : ascii "VmSize:" <+: ascii "VmSize:" ++ (ascii "\t" ++ (size ++ ascii " kB\n")) := List.prefix_append _ _
  have hname : ¬ ascii "Name:" <+: ascii "VmSize:" ++ (ascii "\t" ++ (size ++ ascii " kB\n")) :=
    other_key hkey (by decide) (by decide) (by decide)
  have hstate : ¬ ascii "State:" <+: ascii "VmSize:" ++ (ascii "\t" ++ (size ++ ascii " kB\n")) :=
    other_key hkey (by decide) (by decide) (by decide)
  have hppid : ¬ ascii "PPid:" <+: ascii "VmSize:" ++ (ascii "\t" ++ (size ++ ascii " kB\n")) :=
    other_key hkey (by decide) (by decide) (by decide)
  rw [lines_sampleStatus hnewline]
  generalize hlast : ascii "VmSize:" ++ (ascii "\t" ++ (size ++ ascii " kB\n")) = last at *
  refine ⟨?_, ?_, ?_, ascii "\t", size, by decide, hdigits, hne, rfl, ?_⟩
  · rw [List.filter_cons_of_pos (by decide), List.filter_cons_of_neg (by decide), List.filter_cons_of_neg (by decide),
      List.filter_cons_of_neg (by simpa using hname), List.filter_nil]
    rfl
  · rw [List.filter_cons_of_neg (by decide), List.filter_cons_of_pos (by decide), List.filter_cons_of_neg (by decide),
      List.filter_cons_of_neg (by simpa using hstate), List.filter_nil]
    rfl
  · rw [List.filter_cons_of_neg (by decide), List.filter_cons_of_neg (by decide), List.filter_cons_of_pos (by decide),
      List.filter_cons_of_neg (by simpa using hppid), List.filter_nil]
    rfl
  · rw [List.filter_cons_of_neg (by decide), List.filter_cons_of_neg (by decide), List.filter_cons_of_neg (by decide),
      List.filter_cons_of_pos (by simpa using hkey), List.filter_nil, hlast]

theorem fgets_sampleStatus {size : List CChar} (hdigits : ∀ c ∈ size, isDigit c = true) (hlength : size.length ≤ 10) :
    fgetsLines (sampleStatus size) = lines 0x0a (sampleStatus size) := by
  apply fgetsLines_eq
  rw [lines_sampleStatus fun hmem => absurd (hdigits _ hmem) (by decide)]
  have hzero : 0 ∉ size := fun hmem => absurd (hdigits _ hmem) (by decide)
  simp only [List.forall_mem_cons]
  refine ⟨by decide, by decide, by decide, ⟨?_, ?_⟩, by simp⟩
  · simp only [List.length_append, maxLineLen, ascii]
    simp
    omega
  · simp only [List.mem_append, not_or]
    exact ⟨by decide, by decide, hzero, by decide⟩

theorem small_gives : Gives (lines 0x0a (sampleStatus (ascii "1"))) (sampleFields smallEntry) :=
  sample_gives (by decide) (by decide)

theorem large_gives : Gives (lines 0x0a (sampleStatus (ascii "2"))) (sampleFields largeEntry) :=
  sample_gives (by decide) (by decide)

theorem huge_gives : Gives (lines 0x0a (sampleStatus (ascii "2147483648"))) (sampleFields hugeEntry) :=
  sample_gives (by decide) (by decide)

theorem long_gives : ∃ status, longEntry.status = some status ∧ Gives (lines 0x0a status) (sampleFields longEntry) :=
  ⟨_, rfl, by decide +kernel, by decide +kernel, by decide +kernel,
    ascii "\t", ascii "7", by decide, by decide, by decide, by decide, by decide +kernel⟩

theorem mem_manyEntries {e : Entry} : e ∈ manyEntries → e = smallEntry ∨ e = largeEntry := by
  unfold manyEntries
  rw [List.mem_append, List.mem_singleton]
  exact Or.imp_left List.eq_of_mem_replicate

theorem many_lines : LineListing sampleFields manyEntries := by
  intro e he _
  rcases mem_manyEntries he with rfl | rfl
  · exact ⟨_, rfl, small_gives⟩
  · exact ⟨_, rfl, large_gives⟩

theorem many_listing : Listing sampleFields manyEntries := by
  intro e he _
  rcases mem_manyEntries he with rfl | rfl
  · refine ⟨_, rfl, ?_⟩
    rw [fgets_sampleStatus (by decide) (by decide)]
    exact small_gives
  · refine ⟨_, rfl, ?_⟩
    rw [fgets_sampleStatus (by decide) (by decide)]
    exact large_gives

theorem many_sizes : IntSizes sampleFields manyEntries := by
  intro e he _
  rcases mem_manyEntries he with rfl | rfl <;> decide

theorem processes_replicate {e : Entry} (h : e.isProcess = true ∧ 0 < (fields e).vmSize) (n : Nat) (rest : List Entry) :
    processes fields (List.replicate n e ++ rest) =
      List.replicate n (process e (fields e)) ++ processes fields rest := by
  induction n with
  | zero => rfl
  | succ n ih => rw [List.replicate_succ, List.cons_append, processes_cons, if_pos h, ih, List.replicate_succ,
      List.cons_append]

theorem many_not_largest (hsort : qsort.Sorts) :
    ¬ PrintsLargest (top qsort manyEntries) (processes sampleFields manyEntries) := by
  have hprocs : processes sampleFields manyEntries =
      List.replicate maxProcNum (process smallEntry (sampleFields smallEntry)) ++
        [process largeEntry (sampleFields largeEntry)] :=
    processes_replicate ⟨by decide, by decide⟩ maxProcNum [largeEntry]
  have htable : (processes sampleFields manyEntries).take maxProcNum =
      List.replicate maxProcNum (process smallEntry (sampleFields smallEntry)) := by
    rw [hprocs]
    exact List.take_left' List.length_replicate
  have htop : PrintsLargest (top qsort manyEntries) ((processes sampleFields manyEntries).take maxProcNum) := by
    rw [top_eq many_listing many_sizes]
    exact outputProc_largest hsort fun p hp => processes_sized many_sizes p (List.mem_of_mem_take hp)
  rw [htable] at htop
  intro h
  obtain ⟨p, hp, hfirst, -⟩ := htop.first (by
    rw [Ne, List.replicate_eq_nil_iff]
    decide)
  obtain ⟨q, hq, hfirst', hlargest⟩ := h.first (by rw [hprocs]; simp)
  obtain rfl := List.eq_of_mem_replicate hp
  rw [hprocs] at hq hlargest
  have hle := hlargest (process largeEntry (sampleFields largeEntry)) (by simp)
  rcases List.mem_append.mp hq with hq | hq
  · obtain rfl := List.eq_of_mem_replicate hq
    exact absurd hle (by decide)
  · obtain rfl := List.mem_singleton.mp hq
    rw [hfirst] at hfirst'
    exact absurd hfirst' (by decide +kernel)

theorem huge_not_largest (hsort : qsort.Sorts) :
    ¬ PrintsLargest (top qsort [hugeEntry]) (processes sampleFields [hugeEntry]) := by
  have htable : getAllProcess [hugeEntry] [] = [] := by decide +kernel
  have htop : PrintsLargest (top qsort [hugeEntry]) [] := by
    unfold top
    rw [htable]
    exact outputProc_largest hsort (by simp)
  intro h
  obtain ⟨q, -, hfirst, -⟩ := h.first (by decide)
  obtain ⟨order, hperm, -, hlines⟩ := htop
  rw [hlines, hperm.eq_nil] at hfirst
  cases hfirst

theorem long_not_largest (hsort : qsort.Sorts) :
    ¬ PrintsLargest (top qsort [longEntry]) (processes sampleFields [longEntry]) := by
  have htable : getAllProcess [longEntry] [] = [{ process longEntry (sampleFields longEntry) with memsize := 5 }] := by
    decide +kernel
  have htop : PrintsLargest (top qsort [longEntry])
      [{ process longEntry (sampleFields longEntry) with memsize := 5 }] := by
    unfold top
    rw [htable]
    exact outputProc_largest hsort fun p hp => by
      obtain rfl := List.mem_singleton.mp hp
      exact ⟨by decide, by decide⟩
  intro h
  obtain ⟨p, hp, hfirst, -⟩ := htop.first (List.cons_ne_nil _ _)
  obtain ⟨q, hq, hfirst', -⟩ := h.first (by decide)
  have hprocs : processes sampleFields [longEntry] = [process longEntry (sampleFields longEntry)] := by
    rw [processes_cons, if_pos ⟨by decide, by decide⟩]
    rfl
  rw [hprocs] at hq
  obtain rfl := List.mem_singleton.mp hp
  obtain rfl := List.mem_singleton.mp hq
  rw [hfirst] at hfirst'
  exact absurd hfirst' (by decide +kernel)

/-- **Not all listings are printed right.** There are too many processes, a size is no int, or a line is longer than
one read. -/
theorem not_all_largest : Qsort.Sorts mergeQsort ∧
    (LineListing sampleFields manyEntries ∧
      ¬ PrintsLargest (top mergeQsort manyEntries) (processes sampleFields manyEntries)) ∧
    (LineListing sampleFields [hugeEntry] ∧
      ¬ PrintsLargest (top mergeQsort [hugeEntry]) (processes sampleFields [hugeEntry])) ∧
    (LineListing sampleFields [longEntry] ∧
      ¬ PrintsLargest (top mergeQsort [longEntry]) (processes sampleFields [longEntry])) := by
  refine ⟨mergeQsort_sorts, ⟨many_lines, many_not_largest mergeQsort_sorts⟩,
    ⟨?_, huge_not_largest mergeQsort_sorts⟩, ⟨?_, long_not_largest mergeQsort_sorts⟩⟩
  · intro e he _
    obtain rfl := List.mem_singleton.mp he
    exact ⟨_, rfl, huge_gives⟩
  · intro e he _
    obtain rfl := List.mem_singleton.mp he
    exact long_gives

def otherEntry : Entry := ⟨true, ascii "6", some (sampleStatus (ascii "7"))⟩

theorem top_largest_three :
    ((processes sampleFields [smallEntry, otherEntry, largeEntry]).take maxProcNum).map (·.memsize) = [1, 7, 2] ∧
      PrintsLargest (top mergeQsort [smallEntry, otherEntry, largeEntry])
        ((processes sampleFields [smallEntry, otherEntry, largeEntry]).take maxProcNum) := by
  refine ⟨by decide +kernel, top_largest mergeQsort_sorts (fun e he _ => ?_) fun e he _ => ?_⟩
  · simp only [List.mem_cons, List.not_mem_nil, or_false] at he
    rcases he with rfl | rfl | rfl
    · exact ⟨_, rfl, by rw [fgets_sampleStatus (by decide) (by decide)]; exact small_gives⟩
    · refine ⟨_, rfl, ?_⟩
      rw [fgets_sampleStatus (by decide) (by decide)]
      exact sample_gives (by decide) (by decide)
    · exact ⟨_, rfl, by rw [fgets_sampleStatus (by decide) (by decide)]; exact large_gives⟩
  · simp only [List.mem_cons, List.not_mem_nil, or_false] at he
    rcases he with rfl | rfl | rfl <;> decide

end OsCoursework.Top
