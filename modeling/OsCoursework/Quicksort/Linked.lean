import OsCoursework.Lib.LinkedList
import OsCoursework.Lib.PivotSort
import OsCoursework.Quicksort.Code

/-!
# The linked quicksort

A list on its nodes: `next` leads from the head over all of them to null, and the tail is the
last one. The two parts of a partition are such lists, and so is what the recursive calls make
of them.
-/

open OsCoursework.Fuel OsCoursework.LinkedList OsCoursework.PivotSort

namespace OsCoursework.Quicksort.Linked

variable {ν : Type}

/-- The list consists of these nodes. -/
structure Holds (next : Next ν) (nodes : List ν) (list : NodeList ν) : Prop where
  path : Path next list.head nodes none
  tail : list.tail = nodes.getLast?

variable {val : ν → Int} {next next' : Next ν} {l l₁ l₂ lo gr rest : List ν} {list lesser greater : NodeList ν}
  {p : Option ν} {pivot curr : ν} {fuel : Nat}

theorem holds_empty (next : Next ν) : Holds next [] ⟨none, none⟩ := ⟨rfl, rfl⟩

theorem Holds.congr (h : Holds next l list) (hnext : ∀ a ∈ l, next' a = next a) : Holds next' l list :=
  ⟨h.path.congr hnext, h.tail⟩

theorem Holds.head_eq_none_iff (h : Holds next l list) : list.head = none ↔ l = [] := by
  cases l with
  | nil => simpa using h.path
  | cons a l => simp [h.path.1]

variable [DecidableEq ν]

theorem Holds.update (h : Holds next l list) (hcurr : curr ∉ l) (q : Option ν) :
    Holds (Function.update next curr q) l list :=
  ⟨h.path.update hcurr q, h.tail⟩

/-! ## The loop -/

theorem Holds.append (h : Holds next l list) (hcurr : curr ∉ l) (hnone : next curr = none) :
    Holds (list.append next curr).1 (l ++ [curr]) (list.append next curr).2 ∧
      ∀ a ∉ l, (list.append next curr).1 a = next a := by
  unfold NodeList.append
  rcases List.eq_nil_or_concat l with rfl | ⟨init, t, rfl⟩
  · rw [h.tail]
    refine ⟨⟨⟨rfl, ?_⟩, rfl⟩, fun _ _ => rfl⟩
    exact hnone
  · rw [List.concat_eq_append] at *
    rw [h.tail, List.getLast?_concat]
    have htc : curr ≠ t := by
      rintro rfl
      simp at hcurr
    have hlast : none = Function.update next t (some curr) curr := by rw [Function.update_of_ne htc, hnone]
    have hsnoc := h.path.snoc hcurr
    rw [Function.update_eq_self_iff.mpr hlast] at hsnoc
    refine ⟨⟨hsnoc, by simp⟩, fun a ha => ?_⟩
    refine Function.update_of_ne ?_ _ _
    rintro rfl
    simp at ha

theorem partition_spec (val : ν → Int) (pivot : ν) (hrest : Path next p rest none) (hl : Holds next lo lesser)
    (hg : Holds next gr greater) (hnodup : (lo ++ (gr ++ rest)).Nodup) :
    ∃ next' lesser' greater',
      Returns (fun fuel => partition val pivot fuel next p lesser greater) (next', lesser', greater') ∧
      Holds next' (lo ++ rest.filter (val · < val pivot)) lesser' ∧
      Holds next' (gr ++ rest.filter (val pivot ≤ val ·)) greater' ∧ ∀ a ∉ lo ++ (gr ++ rest), next' a = next a := by
  induction rest generalizing next p lo gr lesser greater with
  | nil =>
    rw [path_nil] at hrest
    subst hrest
    refine ⟨next, lesser, greater, ?_, by simpa using hl, by simpa using hg, fun _ _ => rfl⟩
    exact Returns.of_succ ((returns_some _ _).mpr rfl)
  | cons curr rest ih =>
    obtain ⟨rfl, hrest⟩ := hrest
    have hlo : curr ∉ lo := by grind
    have hgr : curr ∉ gr := by grind
    have hcurr : curr ∉ rest := by grind
    -- `curr` is taken off the rest.
    have hnone : Function.update next curr none curr = none := Function.update_self ..
    have hoff : ∀ a, a ≠ curr → Function.update next curr none a = next a := fun a ha => Function.update_of_ne ha _ _
    have hrest' := hrest.update hcurr none
    have hl' := hl.update hlo none
    have hg' := hg.update hgr none
    by_cases hlt : val curr < val pivot
    · obtain ⟨hnew, hframe⟩ := hl'.append hlo hnone
      obtain ⟨next', lesser', greater', hreturns, hlesser, hgreater, hsame⟩ := ih
        (hrest'.congr fun a ha => hframe a (by grind)) hnew (hg'.congr fun a ha => hframe a (by grind)) (by grind)
      refine ⟨next', lesser', greater', ?_, ?_, ?_, fun a ha => ?_⟩
      · refine Returns.of_succ ?_
        simp only [partition, if_pos hlt]
        exact hreturns
      · simpa [hlt] using hlesser
      · simpa [hlt] using hgreater
      · rw [hsame a (by grind), hframe a (by grind), hoff a (by grind)]
    · obtain ⟨hnew, hframe⟩ := hg'.append hgr hnone
      obtain ⟨next', lesser', greater', hreturns, hlesser, hgreater, hsame⟩ := ih
        (hrest'.congr fun a ha => hframe a (by grind)) (hl'.congr fun a ha => hframe a (by grind)) hnew (by grind)
      refine ⟨next', lesser', greater', ?_, ?_, ?_, fun a ha => ?_⟩
      · refine Returns.of_succ ?_
        simp only [partition, if_neg hlt]
        exact hreturns
      · simpa [hlt] using hlesser
      · simpa [not_lt.mp hlt] using hgreater
      · rw [hsame a (by grind), hframe a (by grind), hoff a (by grind)]

/-! ## The end of a call -/

theorem splice_spec (h₁ : Holds next l₁ lesser) (h₂ : Holds next l₂ greater) (hnodup : (l₁ ++ pivot :: l₂).Nodup) :
    ∃ next' list, splice next pivot lesser greater = some (next', list) ∧ Holds next' (l₁ ++ pivot :: l₂) list ∧
      ∀ a ∉ l₁ ++ pivot :: l₂, next' a = next a := by
  obtain ⟨-, hright, hdisjoint⟩ := List.nodup_append.mp hnodup
  have hp₂ : pivot ∉ l₂ := (List.nodup_cons.mp hright).1
  have hp₁ : pivot ∉ l₁ := fun hmem => hdisjoint pivot hmem pivot List.mem_cons_self rfl
  have htail : greater.tail.or (some pivot) = (l₁ ++ pivot :: l₂).getLast? := by
    rw [h₂.tail, List.getLast?_append, List.getLast?_cons]
    cases l₂.getLast? <;> rfl
  rcases List.eq_nil_or_concat l₁ with rfl | ⟨init, t, rfl⟩
  · have hhead : lesser.head = none := h₁.path
    unfold splice
    rw [hhead]
    refine ⟨_, _, rfl, ⟨⟨rfl, ?_⟩, htail⟩, fun a ha => ?_⟩
    · rw [Function.update_self]
      exact h₂.path.update hp₂ _
    · exact Function.update_of_ne (by grind) _ _
  · rw [List.concat_eq_append] at *
    have ht : t ∉ init := by grind
    have ht₂ : t ∉ l₂ := by grind
    obtain ⟨h, hhead⟩ : ∃ h, lesser.head = some h := by
      refine Option.ne_none_iff_exists'.mp fun hnone => ?_
      simpa using h₁.head_eq_none_iff.mp hnone
    have hlast : lesser.tail = some t := by rw [h₁.tail, List.getLast?_concat]
    unfold splice
    simp only [hhead, hlast, Option.map_some]
    refine ⟨_, _, rfl, ⟨?_, htail⟩, fun a ha => ?_⟩
    · refine path_append.mpr ⟨some pivot, ?_, rfl, ?_⟩
      · rw [← hhead]
        exact (h₁.path.redirect ht _).update hp₁ _
      · rw [Function.update_self]
        exact (h₂.path.update ht₂ _).update hp₂ _
    · rw [Function.update_of_ne (by grind), Function.update_of_ne (by grind)]

/-! ## The sort -/

theorem sort_short (val : ν → Int) (h : Holds next l list) (hshort : l.length ≤ 1) :
    Returns (fun fuel => sort val fuel next list) (next, list) := by
  refine Returns.of_succ ?_
  match l, h, hshort with
  | [], h, _ =>
    have hhead : list.head = none := h.path
    simp only [sort, hhead]
    exact (returns_some _ _).mpr rfl
  | [pivot], h, _ =>
    obtain ⟨hhead, hlast⟩ := h.path
    have hnull : next pivot = none := hlast
    simp only [sort, hhead, if_pos hnull]
    exact (returns_some _ _).mpr rfl

theorem sort_parts {next₁ next₂ next₃ next₄ : Next ν} {lesser' greater' list' : NodeList ν}
    (hhead : list.head = some pivot) (hlast : next pivot ≠ none)
    (hpart : Returns (fun fuel => partition val pivot fuel next (next pivot) ⟨none, none⟩ ⟨none, none⟩)
      (next₁, lesser, greater))
    (hlesser : Returns (fun fuel => sort val fuel next₁ lesser) (next₂, lesser'))
    (hgreater : Returns (fun fuel => sort val fuel next₂ greater) (next₃, greater'))
    (hsplice : splice next₃ pivot lesser' greater' = some (next₄, list')) :
    Returns (fun fuel => sort val fuel next list) (next₄, list') := by
  refine Returns.of_succ ?_
  simp only [sort, hhead, if_neg hlast]
  refine hpart.bind (hlesser.bind (hgreater.bind ?_))
  exact ⟨0, fun _ _ => hsplice⟩

/-- A call returns with the same nodes, sorted, and no other node changes. -/
theorem sort_returns (val : ν → Int) (h : Holds next l list) : ∃ next' list' l',
    Returns (fun fuel => sort val fuel next list) (next', list') ∧ Holds next' l' list' ∧ StableSorts val l l' ∧
      ∀ a ∉ l, next' a = next a := by
  induction hn : l.length using Nat.strong_induction_on generalizing l next list with
  | _ n ih =>
    rcases Nat.lt_or_ge 1 n with hlong | hshort
    · obtain ⟨pivot, rest, rfl⟩ := List.exists_cons_of_length_pos (l := l) (by omega)
      obtain ⟨hhead, hrest⟩ := h.path
      have hlast : next pivot ≠ none := by
        intro hnull
        have hnil : rest = [] := (hnull ▸ hrest).unique rfl
        rw [hnil, List.length_singleton] at hn
        omega
      have hnodup : (pivot :: rest).Nodup := h.path.nodup
      obtain ⟨next₁, lesser, greater, hpart, hlesser, hgreater, hsame₁⟩ :=
        partition_spec val pivot hrest (holds_empty next) (holds_empty next) (List.nodup_cons.mp hnodup).2
      simp only [List.nil_append] at hlesser hgreater hsame₁
      have hless : ∀ q : ν → Bool, (rest.filter q).length < n := fun q => by
        have hle := List.length_filter_le q rest
        rw [List.length_cons] at hn
        omega
      obtain ⟨next₂, lesser', l₁, hsort₁, hholds₁, hsorts₁, hsame₂⟩ := ih _ (hless _) hlesser rfl
      have hgreater' := hgreater.congr fun a ha => hsame₂ a (by grind)
      obtain ⟨next₃, greater', l₂, hsort₂, hholds₂, hsorts₂, hsame₃⟩ := ih _ (hless _) hgreater' rfl
      have hjoin := hsorts₁.join hsorts₂
      have hholds₁' := hholds₁.congr fun a ha => hsame₃ a (by
        have hmem := hsorts₁.perm.subset ha
        grind)
      obtain ⟨next₄, list', hsplice, hholds, hsame₄⟩ :=
        splice_spec hholds₁' hholds₂ (hjoin.perm.nodup_iff.mpr hnodup)
      refine ⟨next₄, list', _, sort_parts hhead hlast hpart hsort₁ hsort₂ hsplice, hholds, hjoin, fun a ha => ?_⟩
      have hout : a ∉ l₁ ++ pivot :: l₂ := fun hmem => ha (hjoin.perm.subset hmem)
      rw [hsame₄ a hout, hsame₃ a (by grind), hsame₂ a (by grind), hsame₁ a (by grind)]
    · rw [← hn] at hshort
      exact ⟨next, list, l, sort_short val h hshort, h, .of_length_le hshort, fun _ _ => rfl⟩

/-- **The linked quicksort is stable.** The list ends as it began, with the last node as its tail, and
consists of the same nodes in the order of their values. Equal values keep their order. -/
theorem sort_stable (val : ν → Int) {next : Next ν} {nodes : List ν} {list : NodeList ν} (h : Holds next nodes list) :
    ∃ next' list' nodes', Returns (fun fuel => sort val fuel next list) (next', list') ∧
      Path next' list'.head nodes' none ∧ list'.tail = nodes'.getLast? ∧ nodes'.Perm nodes ∧
      (nodes'.Pairwise fun a b => val a ≤ val b) ∧ (∀ v, nodes'.filter (val · = v) = nodes.filter (val · = v)) ∧
      ∀ a ∉ nodes, next' a = next a := by
  obtain ⟨next', list', nodes', hreturns, hholds, hsorts, hsame⟩ := sort_returns val h
  exact ⟨next', list', nodes', hreturns, hholds.path, hholds.tail, hsorts.perm, hsorts.sorted, hsorts.stable, hsame⟩

theorem sort_stable_two : ∃ next' list' nodes',
    Returns (fun fuel => sort (fun a : Bool => if a then 1 else 2) fuel (fun a => if a then none else some true)
      ⟨some false, some true⟩) (next', list') ∧ Path next' list'.head nodes' none ∧ nodes'.Perm [false, true] := by
  have hholds : Holds (fun a : Bool => if a then none else some true) [false, true] ⟨some false, some true⟩ :=
    ⟨⟨rfl, rfl, rfl⟩, rfl⟩
  obtain ⟨next', list', nodes', hreturns, hpath, -, hperm, -⟩ := sort_stable (fun a : Bool => if a then 1 else 2) hholds
  exact ⟨next', list', nodes', hreturns, hpath, hperm⟩

end OsCoursework.Quicksort.Linked
