import OsCoursework.Floppy.Directory

/-!
# The listing is the tree

`IsTree` says that the directories of an image form a finite tree, `render` is the
listing of a tree. `listing_correct` says that the program prints it.
-/

open OsCoursework.Cstring OsCoursework.Fuel

namespace OsCoursework.Floppy

/-- A directory as a tree. A `dir` has the tree of the directory inside it. -/
inductive Tree where
  | nil
  | leaf (e : Entry) (rest : Tree)
  | dir (e : Entry) (inside rest : Tree)

def Tree.render (depth : Nat) : Tree → Output
  | nil => []
  | leaf e rest => e.line depth ++ rest.render depth
  | dir e inside rest => e.line depth ++ inside.render (depth + 1) ++ rest.render depth

/-- The clusters of a directory, by the FAT. -/
inductive Chain (img : Image) : Nat → List Nat → Prop
  | stop {c} (h : ¬ isCluster c) : Chain img c []
  | next {c c' cs} (h : isCluster c) (hnext : fat img c = some c') (hrest : Chain img c' cs) :
    Chain img c (c :: cs)

def chainEntries (img : Image) (clusters : List Nat) : List (Option Entry) :=
  clusters.flatMap (clusterEntries img)

/-- The entries of a directory, and all that they lead to, as a tree. -/
inductive IsTree (img : Image) : List Entry → Tree → Prop
  | nil : IsTree img [] .nil
  | leaf {e es rest} (h : ¬ e.descends) (hrest : IsTree img es rest) : IsTree img (e :: es) (.leaf e rest)
  | dir {e es clusters inside rest} (h : e.descends) (hchain : Chain img e.startCluster clusters)
    (hinside : IsTree img (listed (chainEntries img clusters)) inside) (hrest : IsTree img es rest) :
    IsTree img (e :: es) (.dir e inside rest)

variable {img : Image} {depth : Nat}

/-! ## Reports that end -/

/-- The directory at `c` is reported by `text`, whatever was printed before. -/
def Reports (img : Image) (depth : Nat) (c : Int) (text : Output) : Prop :=
  ∀ out, Returns (fun k => report img k depth c out) (.ok (out ++ text))

/-- The entries are reported by `text`, given what is in the directories among them. -/
inductive EntriesReport (img : Image) (depth : Nat) : List Entry → Output → Prop
  | nil : EntriesReport img depth [] []
  | leaf {e es rest} (h : ¬ e.descends) (hrest : EntriesReport img depth es rest) :
    EntriesReport img depth (e :: es) (e.line depth ++ rest)
  | dir {e es inside rest} (h : e.descends) (hinside : Reports img (depth + 1) e.startCluster inside)
    (hrest : EntriesReport img depth es rest) :
    EntriesReport img depth (e :: es) (e.line depth ++ inside ++ rest)

theorem EntriesReport.returns {es : List Entry} {text : Output} (h : EntriesReport img depth es text)
    (out : Output) :
    Returns (fun k => reportEntries (fun c out => report img k (depth + 1) c out) depth es out)
      (.ok (out ++ text)) := by
  induction h generalizing out with
  | nil => simp [reportEntries]
  | @leaf e es rest h _ ih =>
    simp only [reportEntries, h, if_false]
    simpa using ih (out ++ e.line depth)
  | @dir e es inside rest h hinside _ ih =>
    simp only [reportEntries, h, if_true]
    have hsub := hinside (out ++ e.line depth)
    simpa using hsub.andThen (ih (out ++ e.line depth ++ inside))

theorem EntriesReport.append {es fs : List Entry} {text : Output} (h : EntriesReport img depth (es ++ fs) text) :
    ∃ t t', EntriesReport img depth es t ∧ EntriesReport img depth fs t' ∧ text = t ++ t' := by
  induction es generalizing text with
  | nil => exact ⟨[], text, .nil, h, rfl⟩
  | cons e es ih =>
    cases h with
    | leaf hleaf hrest =>
      obtain ⟨t, t', ht, ht', rfl⟩ := ih hrest
      exact ⟨_, t', .leaf hleaf ht, ht', by simp⟩
    | dir hdir hinside hrest =>
      obtain ⟨t, t', ht, ht', rfl⟩ := ih hrest
      exact ⟨_, t', .dir hdir hinside ht, ht', by simp⟩

/-! ## Directories -/

theorem reportChain_returns {c : Nat} {clusters : List Nat} {text : Output} (hchain : Chain img c clusters)
    (h : EntriesReport img depth (listed (chainEntries img clusters)) text) (out : Output) :
    Returns (fun k => reportChain img k depth c out) (.ok (out ++ text)) := by
  induction hchain generalizing text out with
  | stop hc =>
    cases h
    apply Returns.of_succ
    simp [reportChain, hc]
  | @next c c' cs hc hnext _ ih =>
    apply Returns.of_succ
    simp only [reportChain, hc, if_true]
    rw [chainEntries, List.flatMap_cons, listed_append] at h
    by_cases hend : none ∈ clusterEntries img c
    · simp only [hend, if_true] at h ⊢
      simpa using h.returns out
    · simp only [hend, if_false, reportNext, hnext] at h ⊢
      obtain ⟨t, t', ht, ht', rfl⟩ := h.append
      simpa using (ht.returns out).andThen (ih ht' (out ++ t))

theorem reports_of_chain {c : Nat} {clusters : List Nat} {text : Output} (hc : 2 ≤ c)
    (hchain : Chain img c clusters) (h : EntriesReport img depth (listed (chainEntries img clusters)) text) :
    Reports img depth c text := by
  intro out
  apply Returns.of_succ
  simp only [report_cluster hc]
  exact reportChain_returns hchain h out

theorem IsTree.entriesReport {es : List Entry} {t : Tree} (h : IsTree img es t) (depth : Nat) :
    EntriesReport img depth es (t.render depth) := by
  induction h generalizing depth with
  | nil => exact .nil
  | leaf h _ ih => exact .leaf h (ih depth)
  | dir h hchain _ _ ihInside ihRest =>
    exact .dir h (reports_of_chain h.2 hchain (ihInside (depth + 1))) (ihRest depth)

theorem IsTree.returns {t : Tree} (h : IsTree img (listed (rootEntries img)) t) (out : Output) :
    Returns (fun k => report img k 0 rootDirStart out) (.ok (out ++ t.render 0)) := by
  apply Returns.of_succ
  simp only [report_root]
  exact (h.entriesReport 0).returns out

/-- **The program prints the listing of the tree.** -/
theorem listing_correct {t : Tree} (h : IsTree img (listed (rootEntries img)) t) (s : State) :
    Returns (fun k => printed (reportDirectory img k 0 rootDirStart s)) (.ok (s.out ++ t.render 0)) := by
  simp only [reportDirectory_printed]
  exact h.returns s.out

theorem listing_correct_sample :
    let disk := smallDisk (shortEntry 0x52 0 0)
    Returns (fun k => printed (reportDirectory disk k 0 rootDirStart State.start))
      (.ok (ascii "W                   DIR\n    R                     0\n")) := by
  intro disk
  have hroot : listed (rootEntries disk) = [shortEntry 0x57 0x10 2] := by decide +kernel
  have hinside : listed (chainEntries disk [2]) = [shortEntry 0x52 0 0] := by decide +kernel
  have hchain : Chain disk 2 [2] := .next (by decide) (by decide +kernel) (.stop (c := 4095) (by decide))
  have htree : IsTree disk (listed (rootEntries disk))
      (.dir (shortEntry 0x57 0x10 2) (.leaf (shortEntry 0x52 0 0) .nil) .nil) := by
    rw [hroot]
    refine .dir (by decide +kernel) hchain ?_ .nil
    rw [hinside]
    exact .leaf (by decide +kernel) .nil
  have hrender : State.start.out ++
      Tree.render 0 (.dir (shortEntry 0x57 0x10 2) (.leaf (shortEntry 0x52 0 0) .nil) .nil) =
        ascii "W                   DIR\n    R                     0\n" := by decide +kernel
  exact hrender ▸ listing_correct htree State.start

end OsCoursework.Floppy
