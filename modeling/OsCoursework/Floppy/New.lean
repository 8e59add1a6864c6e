import OsCoursework.Floppy.Listing
import OsCoursework.Floppy.Packing
import OsCoursework.Floppy.Termination

/-!
# The other lister

The rest of `floppyDirNew.c`. Warnings go to stderr, and `getFat12` leaves the file position as it was. Both
listers print the same as long as their readers of the FAT agree on the clusters that the listing comes to.
-/

open Relation OsCoursework.Cstring OsCoursework.ForLoop OsCoursework.Fuel

namespace OsCoursework.Floppy

namespace New

/-! ## The code -/

def rootDirectoryFlag : Int := -1

/-- The output of `file` is stderr. -/
structure Run where
  file : State
  stdout : List CChar

def Run.start : Run := ⟨State.start, []⟩

abbrev Result (α : Type) := Option (Except Run α)

def Run.print (s : Run) (line : List CChar) : Run := { s with stdout := s.stdout ++ line }

def Run.warn (s : Run) (line : List CChar) : Run := { s with file := printf s.file line }

def Run.seek (s : Run) (offset : Nat) : Run := { s with file := fseek s.file offset }

/-- `width` spaces for each level, and `%-12s %10s` or `%-12s %10d`. -/
def line (width depth : Nat) (e : Entry) : List CChar := List.replicate (width * depth) 0x20 ++ e.line 0

def clusterWarning (e : Entry) : List CChar :=
  ascii "Warning: Directory '" ++ e.fullName ++ ascii s!"' points to invalid cluster {e.startCluster}\n"

def startWarning (sec : Int) : List CChar :=
  ascii s!"Warning: Invalid starting sector/cluster {sec} for directory listing.\n"

/-- The loop over the next `n` entries of a sector. The source has it twice, with other widths. -/
def entryLoop (img : Image) (recurse : Nat → Run → Result Run) (width depth : Nat) : Nat → Run → Result (Bool × Run)
  | 0, s => some (.ok (false, s))
  | n + 1, s =>
    match fread img s.file entrySize with
    | (none, file) => some (.ok (true, { s with file }))
    | (some (e : Entry), file) =>
      if e.firstByte = 0 then some (.ok (true, { s with file }))
      else if e.skipped then entryLoop img recurse width depth n { s with file }
      else
        let s := Run.print { s with file } (line width depth e)
        if e.isDir then
          let nextEntryPos := s.file.pos
          if e.startCluster ≥ 2 then
            andThen (recurse e.startCluster s) fun s => entryLoop img recurse width depth n (s.seek nextEntryPos)
          else if e.startCluster ≠ 0 then entryLoop img recurse width depth n (s.warn (clusterWarning e))
          else entryLoop img recurse width depth n s
        else entryLoop img recurse width depth n s

def rootLoop (img : Image) (recurse : Nat → Run → Result Run) (depth : Nat) : List Nat → Run → Result Run
  | [], s => some (.ok s)
  | sectorIndex :: rest, s =>
    andThen (entryLoop img recurse 3 depth (sectorSize / entrySize) (s.seek (byteOffset + sectorIndex * sectorSize)))
      fun (endOfDirectory, s) => if endOfDirectory then some (.ok s) else rootLoop img recurse depth rest s

def nextCluster (img : Image) (s : Run) (currentCluster : Nat) : Result (Nat × Run) :=
  (getFat12 img s.file currentCluster).map fun
    | .ok (next, file) => .ok (next, { s with file })
    | .error stderr => .error { s with file := { s.file with out := stderr } }

mutual

def reportDirectory (img : Image) : Nat → Nat → Int → Run → Result Run
  | 0, _, _, _ => none
  | fuel + 1, depth, sec, s =>
    if sec = rootDirectoryFlag then
      rootLoop img (fun start s => reportDirectory img fuel (depth + 1) start s) depth (List.range rootSectors) s
    else if sec ≥ 2 then clusterLoop img fuel depth sec.toNat s
    else if sec ≠ 0 ∧ sec ≠ rootDirectoryFlag then some (.ok (s.warn (startWarning sec)))
    else some (.ok s)

def clusterLoop (img : Image) : Nat → Nat → Nat → Run → Result Run
  | 0, _, _, _ => none
  | fuel + 1, depth, currentCluster, s =>
    if isCluster currentCluster then
      andThen (entryLoop img (fun start s => reportDirectory img fuel (depth + 1) start s) 4 depth
          (sectorSize / entrySize) (s.seek (dataStart + (currentCluster - 2) * sectorSize)))
        fun (endOfDirectory, s) =>
          if endOfDirectory then some (.ok s)
          else andThen (nextCluster img s currentCluster) fun (next, s) => clusterLoop img fuel depth next s
    else some (.ok s)

end

end New

/-! ## Where a listing goes -/

/-- The listing comes to cluster `c`. -/
def Visited (img : Image) (c : Nat) : Prop :=
  ∃ d, Enters (listed (rootEntries img)) d ∧ ReflTransGen (Links img) d c

/-- The listing goes on from `c` by the FAT. -/
def Followed (img : Image) (c : Nat) : Prop := Visited img c ∧ isCluster c ∧ none ∉ clusterEntries img c

variable {img : Image} {c c' n offset depth width : Nat} {e : Entry}

theorem Visited.enters (h : Visited img c) (hc : isCluster c) (henters : Enters (listed (clusterEntries img c)) c') :
    Visited img c' := by
  obtain ⟨d, hd, hpath⟩ := h
  exact ⟨d, hd, hpath.tail ⟨hc, .inl henters⟩⟩

theorem Followed.next (h : Followed img c) (hfat : fat img c = some c') : Visited img c' := by
  obtain ⟨⟨d, hd, hpath⟩, hc, hend⟩ := h
  exact ⟨d, hd, hpath.tail ⟨hc, .inr ⟨hend, hfat⟩⟩⟩

theorem mem_listed {es : List (Option Entry)} (h : e ∈ listed es) : some e ∈ es := by
  unfold listed at h
  have hmem := List.mem_of_mem_filter h
  rw [List.reduceOption_mem_iff] at hmem
  exact (List.takeWhile_prefix _).subset hmem

theorem le_size_of_mem (h : some e ∈ entriesAt img n offset) : offset ≤ img.size := by
  induction n generalizing offset with
  | zero => cases h
  | succ n ih =>
    rcases List.mem_cons.mp h with h | h
    · unfold entryAt Image.bytes at h
      split_ifs at h with hle
      · omega
      · cases h
    · exact (Nat.le_add_right _ _).trans (ih h)

theorem Visited.le_size (h : Visited img c) : byteOffset ≤ img.size := by
  obtain ⟨_, ⟨e, he, -⟩, -⟩ := h
  obtain ⟨i, -, hi⟩ := List.mem_flatMap.mp (mem_listed he)
  exact (Nat.le_add_right _ _).trans (le_size_of_mem hi)

/-! ## The same listing -/

/-- In a FAT entry that is followed, the two readers see the same. -/
def ReadersAgree (img : Image) : Prop := ∀ c, Followed img c → c % 2 = 0 ∨ Repeats img c

/-- The three bytes of the other reader. -/
def New.fatBytes (img : Image) (c : Nat) : Vector Byte 3 := Vector.ofFn fun i => img.byte (fatStart + (c + c / 2) + i)

theorem New.nextCluster_ok (hsize : byteOffset ≤ img.size) (hc : isCluster c) (s : Run) :
    ∃ file, nextCluster img s c = some (.ok (fatEntry c (fatBytes img c), { s with file })) := by
  have hoffset : byteOffset = 9728 := rfl
  have hstart : fatStart = 512 := rfl
  have hlt : c < 0xff8 := hc.1
  have hbytes : img.bytes (fatStart + (c + c / 2)) 3 = some (fatBytes img c) := Image.bytes_of_le (by omega)
  refine ⟨fseek s.file s.file.pos, ?_⟩
  unfold nextCluster
  rw [getFat12_of_fits (by omega), fread_some hbytes, fatResult]
  rfl

theorem nextCluster_agrees (h : Followed img c) (hagree : c % 2 = 0 ∨ Repeats img c) (s : New.Run) :
    ∃ next file, fat img c = some next ∧ New.nextCluster img s c = some (.ok (next, { s with file })) := by
  have hsize : 9728 ≤ img.size := h.1.le_size
  have hlt : c < 0xff8 := h.2.1.1
  have hstart : fatStart = 512 := rfl
  have hold : img.bytes (fatStart + c / 2 * 3) 3 = some (Vector.ofFn fun i => fatByte img c i) :=
    Image.bytes_of_le (by omega)
  have hentry : New.fatEntry c (New.fatBytes img c) = fatEntry c (Vector.ofFn fun i => fatByte img c i) := by
    rcases Nat.mod_two_eq_zero_or_one c with heven | hodd
    · exact entries_agree_even heven
    · exact (entries_agree_odd hodd).mpr (hagree.resolve_left (by omega))
  obtain ⟨file, hnew⟩ := New.nextCluster_ok hsize h.2.1 s
  exact ⟨_, file, by rw [fat, hold, Option.map_some, ← hentry], hnew⟩

def SameOutput (s : New.Run) (s' : State) : Prop := s.stdout = s'.out

/-- Neither program fails, and they print the same. -/
abbrev SameRun (r : New.Result New.Run) (r' : Result State) : Prop := Alike (fun _ _ => False) SameOutput r r'

/-- From the same output on, they print the same. -/
def SamePrinting (f : New.Run → New.Result New.Run) (f' : State → Result State) : Prop :=
  ∀ s s', SameOutput s s' → SameRun (f s) (f' s')

/-- After the entries of a sector. When the directory goes on, all of them were there. -/
def SameEntries (img : Image) (n offset : Nat) (r : Bool × New.Run) (r' : Bool × State) : Prop :=
  r.1 = r'.1 ∧ (r.1 = false → none ∉ entriesAt img n offset) ∧ SameOutput r.2 r'.2

theorem Enters.cons {es : List (Option Entry)} (h : Enters (listed es) c) : Enters (listed (some e :: es)) c := by
  rw [listed_some]
  split_ifs
  · exact h
  · exact h.imp fun _ hd => ⟨List.mem_cons_of_mem e hd.1, hd.2⟩

theorem entryLoop_alike {recurse : Nat → New.Run → New.Result New.Run} {recurse' : Nat → State → Result State}
    (hline : ∀ e, New.line width depth e = e.line depth) {s : New.Run} {s' : State}
    (hpos : s.file.pos = s'.pos) (hout : SameOutput s s')
    (h : ∀ c, Enters (listed (entriesAt img n s'.pos)) c → SamePrinting (recurse c) (recurse' c)) :
    Alike (fun _ _ => False) (SameEntries img n s'.pos) (New.entryLoop img recurse width depth n s)
      (entryLoop img recurse' depth n s') := by
  induction n generalizing s s' with
  | zero => exact .ok ⟨rfl, fun _ => List.not_mem_nil, hout⟩
  | succ n ih =>
    rw [New.entryLoop, entryLoop]
    rcases hbytes : img.bytes s'.pos entrySize with _ | (e : Entry)
    · rw [fread_none hbytes, fread_none (hpos ▸ hbytes)]
      exact .ok ⟨rfl, by simp, hout⟩
    rw [fread_some hbytes, fread_some (hpos ▸ hbytes)]
    by_cases hfirst : e.firstByte = 0
    · simp only [if_pos hfirst]
      exact .ok ⟨rfl, by simp, hout⟩
    have hentry : entryAt img s'.pos = some e := by
      unfold entryAt
      rw [hbytes, Option.bind_some, if_neg hfirst]
    rw [entriesAt, hentry] at h
    -- The recursive call may move both positions, but both programs come back to the next entry.
    have hrest : ∀ t t', SameOutput t t' → t.file.pos = s'.pos + entrySize → t'.pos = s'.pos + entrySize →
        Alike (fun _ _ => False) (SameEntries img (n + 1) s'.pos) (New.entryLoop img recurse width depth n t)
          (entryLoop img recurse' depth n t') := by
      intro t t' ht hp hp'
      have hlater : ∀ c, Enters (listed (entriesAt img n t'.pos)) c → SamePrinting (recurse c) (recurse' c) := by
        rw [hp']
        exact fun c hc => h c hc.cons
      refine (ih (hp.trans hp'.symm) ht hlater).mono fun a b hab => ⟨hab.1, fun hgo => ?_, hab.2.2⟩
      rw [entriesAt, hentry, List.mem_cons, not_or, ← hp']
      exact ⟨(Option.some_ne_none e).symm, hab.2.1 hgo⟩
    have hnext : s.file.pos + entrySize = s'.pos + entrySize := congrArg (· + entrySize) hpos
    have hprint : s.stdout ++ New.line width depth e = s'.out ++ e.line depth := by rw [hline, hout]
    simp only [if_neg hfirst]
    by_cases hskip : e.skipped
    · simp only [if_pos hskip]
      exact hrest _ _ hout hnext rfl
    rw [listed_some, if_neg hskip] at h
    simp only [if_neg hskip]
    by_cases hdir : e.isDir
    · by_cases hstart : e.startCluster ≥ 2
      · have hdescends : e.descends := ⟨hdir, hstart⟩
        simp only [if_pos hdir, if_pos hstart, if_pos hdescends]
        refine Alike.andThen (h e.startCluster ⟨e, List.mem_cons_self, hdescends, rfl⟩ _ _ ?_) fun t t' ht => ?_
        · exact hprint
        · exact hrest _ _ ht hnext rfl
      · have hstays : ¬ e.descends := fun hdescends => hstart hdescends.2
        simp only [if_pos hdir, if_neg hstart, if_neg hstays]
        split_ifs
        · exact hrest _ _ hprint hnext rfl
        · exact hrest _ _ hprint hnext rfl
    · have hstays : ¬ e.descends := fun hdescends => hdir hdescends.1
      simp only [if_neg hdir, if_neg hstays]
      exact hrest _ _ hprint hnext rfl

theorem sector_alike {recurse : Nat → New.Run → New.Result New.Run} {recurse' : Nat → State → Result State}
    {rest : New.Run → New.Result New.Run} {rest' : State → Result State}
    (hline : ∀ e, New.line width depth e = e.line depth)
    (h : ∀ c, Enters (listed (sectorEntries img offset)) c → SamePrinting (recurse c) (recurse' c))
    (hrest : none ∉ sectorEntries img offset → SamePrinting rest rest') :
    SamePrinting
      (fun s => andThen (New.entryLoop img recurse width depth (sectorSize / entrySize) (s.seek offset))
        fun (endOfDirectory, s) => if endOfDirectory then some (.ok s) else rest s)
      fun s => andThen (entryLoop img recurse' depth (sectorSize / entrySize) (fseek s offset))
        fun (endOfDirectory, s) => if endOfDirectory then some (.ok s) else rest' s := by
  intro s s' hout
  have hpos : (s.seek offset).file.pos = (fseek s' offset).pos := rfl
  refine (entryLoop_alike hline hpos hout h).andThen ?_
  rintro ⟨ended, t⟩ ⟨ended', t'⟩ ⟨rfl, hall, ht⟩
  cases ended with
  | true => exact .ok ht
  | false => exact hrest (hall rfl) t t' ht

theorem rootLoop_alike {recurse : Nat → New.Run → New.Result New.Run} {recurse' : Nat → State → Result State}
    {sectors : List Nat}
    (h : ∀ c, Enters (listed (sectors.flatMap (rootSector img))) c → SamePrinting (recurse c) (recurse' c)) :
    SamePrinting (New.rootLoop img recurse 0 sectors) (rootLoop img recurse' 0 sectors) := by
  induction sectors with
  | nil => exact fun s s' hout => .ok hout
  | cons i sectors ih =>
    have hline : ∀ e, New.line 3 0 e = e.line 0 := fun e => rfl
    rw [List.flatMap_cons, listed_append] at h
    apply sector_alike hline
    · intro c hc
      apply h
      split_ifs
      · exact hc
      · exact hc.imp fun _ hd => ⟨List.mem_append_left _ hd.1, hd.2⟩
    · intro hgo
      apply ih
      intro c hc
      apply h
      rw [← rootSector] at hgo
      rw [if_neg hgo]
      exact hc.imp fun _ hd => ⟨List.mem_append_right _ hd.1, hd.2⟩

theorem line_four (depth : Nat) (e : Entry) : New.line 4 depth e = e.line depth := by
  unfold New.line Entry.line
  simp

theorem cluster_alike (hagree : ReadersAgree img) (fuel depth : Nat) :
    ∀ c, Visited img c →
      SamePrinting (New.clusterLoop img fuel depth c) (clusterLoop img fuel depth c) ∧
        (2 ≤ c → SamePrinting (New.reportDirectory img fuel depth c) (reportDirectory img fuel depth c)) := by
  induction fuel generalizing depth with
  | zero => exact fun c _ => ⟨fun _ _ _ => .none, fun _ _ _ _ => .none⟩
  | succ fuel ih =>
    intro c hvisited
    constructor
    · by_cases hc : isCluster c
      · have hinside : ∀ c', Enters (listed (clusterEntries img c)) c' →
            SamePrinting (New.reportDirectory img fuel (depth + 1) c') (reportDirectory img fuel (depth + 1) c') :=
          fun c' henters => (ih (depth + 1) c' (hvisited.enters hc henters)).2 henters.two_le
        have hrest : none ∉ clusterEntries img c →
            SamePrinting
              (fun s => andThen (New.nextCluster img s c) fun next => New.clusterLoop img fuel depth next.1 next.2)
              fun s => andThen (getFat12 img s c) fun next => clusterLoop img fuel depth next.1 next.2 := by
          intro hgo t t' ht
          have hfollowed : Followed img c := ⟨hvisited, hc, hgo⟩
          obtain ⟨next, file, hfat, hnew⟩ := nextCluster_agrees hfollowed (hagree c hfollowed) t
          obtain ⟨u', hold, hout⟩ := getFat12_some hc hfat t'
          simp only [hnew, hold, andThen_ok]
          exact (ih depth next (hfollowed.next hfat)).1 _ _ (Eq.trans ht hout.symm)
        intro s s' hout
        rw [New.clusterLoop, clusterLoop, if_pos hc, if_pos hc]
        exact sector_alike (line_four depth) hinside hrest s s' hout
      · intro s s' hout
        rw [New.clusterLoop, clusterLoop, if_neg hc, if_neg hc]
        exact .ok hout
    · intro hc s s' hout
      have hflag : ¬ (c : Int) = New.rootDirectoryFlag := by
        unfold New.rootDirectoryFlag
        omega
      have hneg : ¬ (c : Int) < 0 := by omega
      have hsec : (c : Int) ≥ 2 := by omega
      rw [New.reportDirectory, reportDirectory, if_neg hflag, if_neg hneg, if_pos hsec, if_pos hsec]
      exact (ih depth c hvisited).1 s s' hout

theorem listers_alike (hagree : ReadersAgree img) (fuel : Nat) :
    SamePrinting (New.reportDirectory img fuel 0 New.rootDirectoryFlag) (reportDirectory img fuel 0 rootDirStart) := by
  intro s s' hout
  cases fuel with
  | zero => exact .none
  | succ fuel =>
    have hroot : rootDirStart < 0 := by decide
    rw [New.reportDirectory, reportDirectory, if_pos rfl, if_pos hroot]
    refine rootLoop_alike (fun c henters => ?_) s s' hout
    exact (cluster_alike hagree fuel 1 c ⟨c, henters, .refl⟩).2 henters.two_le

/-- **The two listers print the same**, and one ends when the other does. -/
theorem listers_agree (hagree : ReadersAgree img) (out : Output) :
    Returns (fun k => mapOk New.Run.stdout (New.reportDirectory img k 0 New.rootDirectoryFlag New.Run.start)) (.ok out) ↔
      Returns (fun k => printed (reportDirectory img k 0 rootDirStart State.start)) (.ok out) := by
  refine exists_congr fun k => forall_congr' fun n => imp_congr_right fun _ => ?_
  exact (listers_alike hagree n New.Run.start State.start rfl).mapOk_eq_ok out

/-- The directory `W` goes on from cluster 2 to cluster 4. Cluster 2 has one file and deleted entries. -/
def chainedDisk : Image where
  size := dataStart + 3 * sectorSize
  byte i :=
    if i = 515 then 0x04
    else if i = 518 then 0xff
    else if i = 519 then 0x0f
    else if byteOffset ≤ i ∧ i < byteOffset + entrySize then (shortEntry 0x57 0x10 2).toList.getD (i - byteOffset) 0
    else if i < dataStart then 0
    else if i < dataStart + entrySize then (shortEntry 0x52 0 0).toList.getD (i - dataStart) 0
    else if i < dataStart + sectorSize then if (i - dataStart) % entrySize = 0 then 0xe5 else 0
    else (shortEntry 0x53 0 0).toList.getD (i - (dataStart + 2 * sectorSize)) 0

theorem chainedDisk_root : listed (rootEntries chainedDisk) = [shortEntry 0x57 0x10 2] := by decide +kernel

theorem chainedDisk_visited {c : Nat} (h : Visited chainedDisk c) : c = 2 ∨ c = 4 := by
  have hfirst : listed (clusterEntries chainedDisk 2) = [shortEntry 0x52 0 0] := by decide +kernel
  have hsecond : listed (clusterEntries chainedDisk 4) = [shortEntry 0x53 0 0] := by decide +kernel
  have hnext : fat chainedDisk 2 = some 4 := by decide +kernel
  have hend : none ∈ clusterEntries chainedDisk 4 := by decide +kernel
  obtain ⟨d, ⟨e, he, -, rfl⟩, hpath⟩ := h
  rw [chainedDisk_root, List.mem_singleton] at he
  subst he
  induction hpath with
  | refl => exact .inl (by decide +kernel)
  | @tail b c _ hlink ih =>
    obtain ⟨-, ⟨e, he, hdir, -⟩ | ⟨hgo, hfat⟩⟩ := hlink
    · rcases ih with rfl | rfl
      · rw [hfirst, List.mem_singleton] at he
        subst he
        exact absurd hdir (by decide +kernel)
      · rw [hsecond, List.mem_singleton] at he
        subst he
        exact absurd hdir (by decide +kernel)
    · rcases ih with rfl | rfl
      · exact .inr (Option.some.inj (hfat.symm.trans hnext))
      · exact absurd hend hgo

theorem listers_agree_sample :
    Returns (fun k => mapOk New.Run.stdout (New.reportDirectory chainedDisk k 0 New.rootDirectoryFlag New.Run.start))
      (.ok (ascii "W                   DIR\n    R                     0\n    S                     0\n")) := by
  have hinside : listed (chainEntries chainedDisk [2, 4]) = [shortEntry 0x52 0 0, shortEntry 0x53 0 0] := by
    decide +kernel
  have hlast : Chain chainedDisk 4095 [] := .stop (by decide)
  have hchain : Chain chainedDisk 2 [2, 4] :=
    .next (by decide) (by decide +kernel) (.next (by decide) (by decide +kernel) hlast)
  have htree : IsTree chainedDisk (listed (rootEntries chainedDisk))
      (.dir (shortEntry 0x57 0x10 2) (.leaf (shortEntry 0x52 0 0) (.leaf (shortEntry 0x53 0 0) .nil)) .nil) := by
    rw [chainedDisk_root]
    refine .dir (by decide +kernel) hchain ?_ .nil
    rw [hinside]
    exact .leaf (by decide +kernel) (.leaf (by decide +kernel) .nil)
  have hrender : State.start.out ++ Tree.render 0
      (.dir (shortEntry 0x57 0x10 2) (.leaf (shortEntry 0x52 0 0) (.leaf (shortEntry 0x53 0 0) .nil)) .nil) =
        ascii "W                   DIR\n    R                     0\n    S                     0\n" := by
    decide +kernel
  have hlisting := htree.returns State.start.out
  rw [hrender] at hlisting
  refine (listers_agree (fun c hc => ?_) _).mpr (by simpa only [reportDirectory_printed] using hlisting)
  rcases chainedDisk_visited hc.1 with rfl | rfl
  · exact .inl rfl
  · exact .inl rfl

/-! ## Neither lister fails -/

theorem New.entryLoop_noExit {recurse : Nat → Run → Result Run} (h : ∀ c s, NoExit (recurse c s)) (s : Run) :
    NoExit (entryLoop img recurse width depth n s) := by
  induction n generalizing s with
  | zero => exact .some_ok _
  | succ n ih =>
    rw [entryLoop]
    rcases fread img s.file entrySize with ⟨_ | (e : Entry), file⟩
    · exact .some_ok _
    · dsimp only
      split_ifs
      · exact .some_ok _
      · exact ih _
      · exact (h _ _).andThen fun s => ih _
      · exact ih _
      · exact ih _
      · exact ih _

theorem New.rootLoop_noExit {recurse : Nat → Run → Result Run} (h : ∀ c s, NoExit (recurse c s)) (sectors : List Nat)
    (s : Run) : NoExit (rootLoop img recurse depth sectors s) := by
  induction sectors generalizing s with
  | nil => exact .some_ok _
  | cons i sectors ih =>
    refine (entryLoop_noExit h _).andThen fun r => ?_
    dsimp only
    split_ifs
    · exact .some_ok _
    · exact ih _

theorem New.report_noExit (hsize : byteOffset ≤ img.size) (fuel depth : Nat) :
    (∀ sec s, NoExit (reportDirectory img fuel depth sec s)) ∧ ∀ c s, NoExit (clusterLoop img fuel depth c s) := by
  induction fuel generalizing depth with
  | zero => exact ⟨fun _ _ _ => nofun, fun _ _ _ => nofun⟩
  | succ fuel ih =>
    have hrec : ∀ (c : Nat) s, NoExit (reportDirectory img fuel (depth + 1) c s) := fun c => (ih (depth + 1)).1 c
    constructor
    · intro sec s
      rw [reportDirectory]
      split_ifs
      · exact rootLoop_noExit hrec _ s
      · exact (ih depth).2 _ s
      · exact .some_ok _
      · exact .some_ok _
    · intro c s
      rw [clusterLoop]
      split_ifs with hc
      · refine (entryLoop_noExit hrec _).andThen fun r => ?_
        dsimp only
        split_ifs
        · exact .some_ok _
        · obtain ⟨file, hnext⟩ := nextCluster_ok hsize hc r.2
          rw [hnext]
          exact (ih depth).2 _ _
      · exact .some_ok _

theorem not_visited (hsize : ¬ byteOffset ≤ img.size) (c : Nat) : ¬ Visited img c := fun h => hsize h.le_size

/-- **No image makes either lister fail**, and `floppyDir.c` ends on exactly those without a cycle. -/
theorem listers_never_fail (img : Image) :
    (∀ fuel s, NoExit (reportDirectory img fuel 0 rootDirStart s)) ∧
      (∀ fuel s, NoExit (New.reportDirectory img fuel 0 New.rootDirectoryFlag s)) ∧ (Ends img ↔ ¬ HasCycle img) := by
  by_cases hsize : byteOffset ≤ img.size
  · refine ⟨fun fuel s => ?_, fun fuel s => (New.report_noExit hsize fuel 0).1 _ s, no_cycle_of_ends hsize,
      ends_of_no_cycle⟩
    have hprinted := (report_noExit hsize fuel 0).1 rootDirStart s.out
    rw [← reportDirectory_printed] at hprinted
    exact noExit_mapOk.mp hprinted
  · have hagree : ReadersAgree img := fun c hc => (not_visited hsize c hc.1).elim
    have hcycle : ¬ HasCycle img := fun ⟨c, hc, _⟩ => not_visited hsize c ⟨c, hc, .refl⟩
    refine ⟨fun fuel s => ?_, fun fuel s => ?_, fun _ => hcycle, ends_of_no_cycle⟩
    · exact (listers_alike hagree fuel ⟨State.start, s.out⟩ s rfl).noExit.2
    · exact (listers_alike hagree fuel s ⟨0, false, s.stdout⟩ rfl).noExit.1

end OsCoursework.Floppy
