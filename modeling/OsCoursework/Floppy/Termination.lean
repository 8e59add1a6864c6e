import OsCoursework.Floppy.Directory
import OsCoursework.Lib.Cycle

/-!
# Which listings end

Nothing in the code looks for a cluster that it has seen before. So a listing ends
when no cycle of clusters can be reached from the root, and not otherwise, unless the
program fails on a FAT entry outside the file.
-/

open Relation OsCoursework.Fuel OsCoursework.Cycle

namespace OsCoursework.Floppy

variable {img : Image} {recurse : Nat → Output → Result Output} {depth c c' k : Nat} {es : List Entry}
  {out out' : Output}

/-! ## Links -/

/-- A directory among the entries starts at `c`. -/
def Enters (es : List Entry) (c : Nat) : Prop := ∃ e ∈ es, e.descends ∧ e.startCluster = c

/-- The report of cluster `c` comes to `c'`, by an entry in it or by the FAT. -/
def Links (img : Image) (c c' : Nat) : Prop :=
  isCluster c ∧
    (Enters (listed (clusterEntries img c)) c' ∨ none ∉ clusterEntries img c ∧ fat img c = some c')

/-- Some directory in the root leads to clusters that lead back to themselves. -/
def HasCycle (img : Image) : Prop := ∃ c, Enters (listed (rootEntries img)) c ∧ ReachesCycle (Links img) c

theorem links_finite (img : Image) : {c | ∃ c', Links img c c'}.Finite :=
  (Set.finite_lt_nat eocMarkerStart).subset fun _ ⟨_, h⟩ => h.1.1

/-! ## Without a cycle the report ends -/

theorem reportEntries_ends {recurse : Nat → Nat → Output → Result Output}
    (h : ∀ c, Enters es c → ∀ out, ∃ r, Returns (fun k => recurse k c out) r) (out : Output) :
    ∃ r, Returns (fun k => reportEntries (recurse k) depth es out) r := by
  induction es generalizing out with
  | nil => exact ⟨.ok out, by simp [reportEntries]⟩
  | cons e es ih =>
    have hrest := ih fun c hc => h c (hc.imp fun e' he' => ⟨List.mem_cons_of_mem e he'.1, he'.2⟩)
    by_cases hdir : e.descends
    · obtain ⟨r, hr⟩ := h e.startCluster ⟨e, List.mem_cons_self, hdir, rfl⟩ (out ++ e.line depth)
      simpa only [reportEntries, hdir, if_true] using hr.exists_andThen hrest
    · simpa only [reportEntries, hdir, if_false] using hrest (out ++ e.line depth)

theorem Enters.two_le (h : Enters es c) : 2 ≤ c := by
  obtain ⟨e, _, hdir, rfl⟩ := h
  exact hdir.2

theorem entries_end (h : ∀ c, Enters es c → ∀ depth out, ∃ r, Returns (fun k => reportChain img k depth c out) r)
    (depth : Nat) (out : Output) :
    ∃ r, Returns (fun k => reportEntries (fun c out => report img k (depth + 1) c out) depth es out) r := by
  have hrec : ∀ c, Enters es c → ∀ out, ∃ r, Returns (fun k => report img k (depth + 1) c out) r := by
    intro c hc out
    obtain ⟨r, hr⟩ := h c hc (depth + 1) out
    refine ⟨r, Returns.of_succ ?_⟩
    simpa only [report_cluster hc.two_le] using hr
  exact reportEntries_ends hrec out

theorem reportChain_ends (h : WalksEnd (Links img) c) (depth : Nat) (out : Output) :
    ∃ r, Returns (fun k => reportChain img k depth c out) r := by
  induction h generalizing depth out with
  | intro c _ ih =>
    by_cases hc : isCluster c
    · obtain ⟨r, hr⟩ := entries_end (fun c' hc' => ih c' ⟨hc, .inl hc'⟩) depth out
      have hnext : ∀ out, ∃ r, Returns (fun k => if none ∈ clusterEntries img c then some (.ok out) else
          reportNext img c (fun next out => reportChain img k depth next out) out) r := by
        intro out
        by_cases hend : none ∈ clusterEntries img c
        · exact ⟨.ok out, by simp [hend]⟩
        · rcases hfat : fat img c with _ | next
          · exact ⟨.error (out ++ fatError c), by simp [hend, reportNext, hfat]⟩
          · simpa only [hend, if_false, reportNext, hfat] using ih next ⟨hc, .inr ⟨hend, hfat⟩⟩ depth out
      obtain ⟨r, hr⟩ := hr.exists_andThen hnext
      refine ⟨r, Returns.of_succ ?_⟩
      simpa only [reportChain, hc, if_true] using hr
    · exact ⟨.ok out, .of_succ (by simp [reportChain, hc])⟩

/-! ## With a cycle it does not -/

theorem fat_isSome (hfat : byteOffset ≤ img.size) (hc : isCluster c) : ∃ next, fat img c = some next := by
  have hsize : byteOffset = 9728 := rfl
  have hlt : c < 0xff8 := hc.1
  have hin : fatStart + c / 2 * 3 + 3 ≤ img.size := by
    simp only [fatStart]
    omega
  simp [fat, Image.bytes, hin]

theorem reportEntries_noExit (h : ∀ c out, NoExit (recurse c out)) (out : Output) :
    NoExit (reportEntries recurse depth es out) := by
  induction es generalizing out with
  | nil => exact .some_ok out
  | cons e es ih =>
    by_cases hdir : e.descends
    · simpa only [reportEntries, hdir, if_true] using (h _ _).andThen ih
    · simpa only [reportEntries, hdir, if_false] using ih _

theorem report_noExit (hfat : byteOffset ≤ img.size) (k depth : Nat) :
    (∀ sec out, NoExit (report img k depth sec out)) ∧ ∀ c out, NoExit (reportChain img k depth c out) := by
  induction k generalizing depth with
  | zero => exact ⟨fun _ _ _ => nofun, fun _ _ _ => nofun⟩
  | succ k ih =>
    have hrec : ∀ (c : Nat) out, NoExit (report img k (depth + 1) c out) := fun c => (ih (depth + 1)).1 c
    constructor
    · intro sec out
      simp only [report]
      split_ifs
      · exact reportEntries_noExit hrec out
      · exact (ih depth).2 _ out
      · exact .some_ok out
    · intro c out
      by_cases hc : isCluster c
      · simp only [reportChain, hc, if_true]
        refine (reportEntries_noExit hrec out).andThen fun out => ?_
        obtain ⟨next, hnext⟩ := fat_isSome hfat hc
        simp only [reportNext, hnext]
        split_ifs
        · exact .some_ok out
        · exact (ih depth).2 next out
      · simpa only [reportChain, hc, if_false] using NoExit.some_ok out

theorem reportEntries_entered (h : reportEntries recurse depth es out = some (.ok out')) (hc : Enters es c) :
    ∃ o o', recurse c o = some (.ok o') := by
  induction es generalizing out with
  | nil =>
    obtain ⟨_, he, _⟩ := hc
    cases he
  | cons d es ih =>
    obtain ⟨e, he, hdir, rfl⟩ := hc
    by_cases hd : d.descends
    · simp only [reportEntries, hd, if_true] at h
      obtain ⟨o, hrec, hrest⟩ := andThen_eq_ok.mp h
      rcases List.mem_cons.mp he with rfl | he
      · exact ⟨_, o, hrec⟩
      · exact ih hrest ⟨e, he, hdir, rfl⟩
    · simp only [reportEntries, hd, if_false] at h
      rcases List.mem_cons.mp he with rfl | he
      · exact absurd hdir hd
      · exact ih h ⟨e, he, hdir, rfl⟩

theorem walksEnd_of_reportChain (h : reportChain img k depth c out = some (.ok out')) :
    WalksEnd (Links img) c := by
  induction k using Nat.strong_induction_on generalizing depth c out out' with
  | h k ih =>
    rcases k with _ | k
    · cases h
    · refine Acc.intro _ fun c' hlink => ?_
      obtain ⟨hc, hlink⟩ := hlink
      simp only [reportChain, hc, if_true] at h
      obtain ⟨o, hentries, hnext⟩ := andThen_eq_ok.mp h
      rcases hlink with hc' | ⟨hend, hlink⟩
      · obtain ⟨o, o', hrec⟩ := reportEntries_entered hentries hc'
        rcases k with _ | k
        · cases hrec
        · exact ih k (by omega) ((report_cluster hc'.two_le img k _ o).symm.trans hrec)
      · simp only [hend, if_false, reportNext, hlink] at hnext
        exact ih k (by omega) hnext

/-! ## The program -/

/-- The program ends, whether it lists the image or fails. -/
def Ends (img : Image) : Prop :=
  ∃ r, Returns (fun k => printed (reportDirectory img k 0 rootDirStart State.start)) r

theorem ends_iff : Ends img ↔ ∃ r, Returns (fun k => report img k 0 rootDirStart []) r := by
  simp only [Ends, reportDirectory_printed]
  rfl

theorem ends_of_no_cycle (h : ¬ HasCycle img) : Ends img := by
  have hwalk : ∀ c, Enters (listed (rootEntries img)) c → WalksEnd (Links img) c := fun c hc =>
    walksEnd_of_not_reachesCycle (links_finite img) fun hcycle => h ⟨c, hc, hcycle⟩
  obtain ⟨r, hr⟩ := entries_end (fun c hc => reportChain_ends (hwalk c hc)) 0 []
  refine ends_iff.mpr ⟨r, Returns.of_succ ?_⟩
  simpa only [report_root] using hr

/-- An image that is listed to its end has no cycle, also where the FAT is not all in the file. -/
theorem no_cycle_of_listed (h : Returns (fun k => report img k 0 rootDirStart []) (.ok out)) : ¬ HasCycle img := by
  rintro ⟨c, hc, hcycle⟩
  obtain ⟨k, hk⟩ := h
  have hroot : report img (k + 1 + 1) 0 rootDirStart [] = some (.ok out) := hk (k + 2) (by omega)
  rw [report_root] at hroot
  obtain ⟨o, o', hrec⟩ := reportEntries_entered hroot hc
  rw [report_cluster hc.two_le] at hrec
  exact (walksEnd_of_reportChain hrec).not_reachesCycle hcycle

theorem no_cycle_of_ends (hfat : byteOffset ≤ img.size) (h : Ends img) : ¬ HasCycle img := by
  obtain ⟨e | out, hr⟩ := ends_iff.mp h
  · obtain ⟨k, hk⟩ := hr
    exact absurd (hk k le_rfl) ((report_noExit hfat k 0).1 _ _ e)
  · exact no_cycle_of_listed hr

/-- **The program ends on every image without a cycle, and on no other that has its whole FAT.** -/
theorem ends_iff_no_cycle (img : Image) :
    (¬ HasCycle img → Ends img) ∧ (byteOffset ≤ img.size → Ends img → ¬ HasCycle img) :=
  ⟨ends_of_no_cycle, no_cycle_of_ends⟩

theorem ends_iff_no_cycle_sample : Ends (smallDisk (shortEntry 0x52 0 0)) := by
  have hroot : listed (rootEntries (smallDisk (shortEntry 0x52 0 0))) = [shortEntry 0x57 0x10 2] := by
    decide +kernel
  have hinside : listed (clusterEntries (smallDisk (shortEntry 0x52 0 0)) 2) = [shortEntry 0x52 0 0] := by
    decide +kernel
  have hend : none ∈ clusterEntries (smallDisk (shortEntry 0x52 0 0)) 2 := by decide +kernel
  have hstop : ∀ c, ¬ Links (smallDisk (shortEntry 0x52 0 0)) 2 c := by
    rintro c ⟨_, ⟨e, he, hdir, _⟩ | ⟨hgo, _⟩⟩
    · rw [hinside, List.mem_singleton] at he
      subst he
      exact absurd hdir (by decide +kernel)
    · exact hgo hend
  refine (ends_iff_no_cycle _).1 ?_
  rintro ⟨c, ⟨e, he, _, rfl⟩, b, hreach, hcycle⟩
  rw [hroot, List.mem_singleton] at he
  subst he
  have hstart : Entry.startCluster (shortEntry 0x57 0x10 2) = 2 := by decide +kernel
  rw [hstart] at hreach
  rcases hreach.cases_head with rfl | ⟨_, hlink, _⟩
  · obtain ⟨_, hlink, _⟩ := TransGen.head'_iff.mp hcycle
    exact hstop _ hlink
  · exact hstop _ hlink

/-- Cluster 2 holds a directory whose start cluster is 2. -/
theorem loop_does_not_end : ¬ Ends (smallDisk (shortEntry 0x58 0x10 2)) := by
  intro h
  have hroot : Enters (listed (rootEntries (smallDisk (shortEntry 0x58 0x10 2)))) 2 :=
    ⟨shortEntry 0x57 0x10 2, by decide +kernel⟩
  have hlink : Links (smallDisk (shortEntry 0x58 0x10 2)) 2 2 :=
    ⟨by decide, .inl ⟨shortEntry 0x58 0x10 2, by decide +kernel⟩⟩
  exact no_cycle_of_ends (by decide) h ⟨2, hroot, 2, .refl, .single hlink⟩

end OsCoursework.Floppy
