import OsCoursework.Quicksort.Linked

/-!
# The quicksort in place

A call sees its values between others, which it neither reads nor writes: what it makes of them
is the same for whatever comes before and after.
-/

open OsCoursework.Fuel OsCoursework.ForLoop OsCoursework.PivotSort

namespace OsCoursework.Quicksort.InPlace

variable {pre mid post lo gr rest l : List Int} {base : Nat} {i j v w pivot : Int}

/-! ## Access -/

theorem load_at (h0 : 0 ≤ i) (hi : base + i.toNat = pre.length) : load (pre ++ v :: post) base i = some v := by
  unfold load
  rw [if_pos h0]
  exact Checked.load_split hi

theorem store_at (h0 : 0 ≤ i) (hi : base + i.toNat = pre.length) :
    store (pre ++ v :: post) base i w = some (pre ++ w :: post) := by
  unfold store
  rw [if_pos h0]
  exact Checked.store_split hi

theorem swap_at (h0 : 0 ≤ i) (hi : base + i.toNat = pre.length) (hj0 : 0 ≤ j)
    (hj : base + j.toNat = pre.length + (mid.length + 1)) :
    swap (pre ++ v :: (mid ++ w :: post)) base i j = some (pre ++ w :: (mid ++ v :: post)) := by
  unfold swap
  rw [if_pos ⟨h0, hj0⟩]
  exact Checked.swap_split hi hj

theorem swap_self (h0 : 0 ≤ i) (hi : base + i.toNat = pre.length) :
    swap (pre ++ v :: post) base i i = some (pre ++ v :: post) := by
  unfold swap
  rw [if_pos ⟨h0, h0⟩]
  exact Checked.swap_self hi

/-! ## The loop -/

theorem partitionStep_lt (hv : v < pivot) (hi : i = 1 + lo.length + gr.length) :
    partitionStep pre.length pivot i (pre ++ w :: (lo ++ (gr ++ v :: (rest ++ post))), lo.length) =
      some (pre ++ w :: ((lo ++ [v]) ++ (gr.rotate 1 ++ (rest ++ post))), ((lo ++ [v]).length : Int)) := by
  have hload : pre ++ w :: (lo ++ (gr ++ v :: (rest ++ post))) =
      (pre ++ w :: (lo ++ gr)) ++ v :: (rest ++ post) := by simp
  have hlower : (lo.length : Int) + 1 = ((lo ++ [v]).length : Int) := by simp
  simp only [partitionStep]
  rw [hload, load_at (by omega) (by simp; omega), Option.bind_some, if_pos hv, hlower]
  cases gr with
  | nil =>
    have hsame : i = ((lo ++ [v]).length : Int) := by simpa [Int.add_comm] using hi
    rw [hsame, swap_self (by omega) (by simp)]
    simp
  | cons g gr =>
    have hsplit : (pre ++ w :: (lo ++ g :: gr)) ++ v :: (rest ++ post) =
        (pre ++ w :: lo) ++ g :: (gr ++ v :: (rest ++ post)) := by simp
    rw [hsplit, swap_at (by omega) (by simp) (by omega) (by simp at hi ⊢; omega)]
    simp

theorem partitionStep_ge (hv : ¬ v < pivot) (hi : i = 1 + lo.length + gr.length) :
    partitionStep pre.length pivot i (pre ++ w :: (lo ++ (gr ++ v :: (rest ++ post))), lo.length) =
      some (pre ++ w :: (lo ++ ((gr ++ [v]) ++ (rest ++ post))), (lo.length : Int)) := by
  have hload : pre ++ w :: (lo ++ (gr ++ v :: (rest ++ post))) =
      (pre ++ w :: (lo ++ gr)) ++ v :: (rest ++ post) := by simp
  simp only [partitionStep]
  rw [hload, load_at (by omega) (by simp; omega), Option.bind_some, if_neg hv]
  simp

theorem partition_returns (hlo : ∀ x ∈ lo, x < pivot) (hgr : ∀ x ∈ gr, pivot ≤ x) (hi : i = 1 + lo.length + gr.length)
    (hn : i + rest.length < 2 ^ 31) :
    ∃ lo' gr', (lo' ++ gr').Perm (lo ++ (gr ++ rest)) ∧ (∀ x ∈ lo', x < pivot) ∧ (∀ x ∈ gr', pivot ≤ x) ∧
      ∀ pre post, Returns (fun fuel => forLoop (i + rest.length) 1 (partitionStep pre.length pivot) fuel i
        (pre ++ w :: (lo ++ (gr ++ (rest ++ post))), lo.length)) (pre ++ w :: (lo' ++ (gr' ++ post)), lo'.length) := by
  induction rest generalizing lo gr i with
  | nil =>
    refine ⟨lo, gr, by simp, hlo, hgr, fun pre post => Returns.of_succ ?_⟩
    simp only [forLoop, List.length_nil, Nat.cast_zero, add_zero, lt_irrefl, if_false, List.nil_append]
    exact (returns_some _ _).mpr rfl
  | cons v rest ih =>
    have hnext : int32 (i + 1) = i + 1 := int32_of_fits (by omega) (by simp at hn; omega)
    have hbound : i + (v :: rest).length = (i + 1) + rest.length := by
      rw [List.length_cons]
      push_cast
      ring
    rw [hbound] at hn ⊢
    by_cases hv : v < pivot
    · obtain ⟨lo', gr', hperm, hlo', hgr', hreturns⟩ := @ih (lo ++ [v]) (gr.rotate 1) (i + 1)
        (by simpa [or_imp, forall_and] using ⟨hlo, hv⟩) (by simpa using hgr) (by simp; omega) hn
      refine ⟨lo', gr', hperm.trans ?_, hlo', hgr', fun pre post => Returns.of_succ ?_⟩
      · rw [List.append_assoc]
        refine List.Perm.append_left lo ?_
        refine List.Perm.trans ?_ List.perm_middle.symm
        exact ((List.rotate_perm gr 1).append_right rest).cons v
      · simp only [forLoop, if_pos (show i < i + 1 + rest.length by omega), List.cons_append, partitionStep_lt hv hi,
          Option.bind_some, hnext]
        exact hreturns pre post
    · obtain ⟨lo', gr', hperm, hlo', hgr', hreturns⟩ := @ih lo (gr ++ [v]) (i + 1)
        hlo (by simpa [or_imp, forall_and] using ⟨hgr, not_lt.mp hv⟩) (by simp; omega) hn
      refine ⟨lo', gr', ?_, hlo', hgr', fun pre post => Returns.of_succ ?_⟩
      · simpa using hperm
      · simp only [forLoop, if_pos (show i < i + 1 + rest.length by omega), List.cons_append, partitionStep_ge hv hi,
          Option.bind_some, hnext]
        exact hreturns pre post

/-! ## The sort -/

theorem exchange_pivot (pivot : Int) (lo : List Int) : ∃ lo', lo'.Perm lo ∧
    ∀ pre post : List Int, ∃ v, load (pre ++ pivot :: (lo ++ post)) pre.length lo.length = some v ∧
      ((store (pre ++ pivot :: (lo ++ post)) pre.length 0 v).bind fun mem =>
        store mem pre.length lo.length pivot) = some (pre ++ (lo' ++ pivot :: post)) := by
  rcases List.eq_nil_or_concat lo with rfl | ⟨init, t, rfl⟩
  · refine ⟨[], List.Perm.refl _, fun pre post => ⟨pivot, load_at le_rfl (by simp), ?_⟩⟩
    rw [store_at le_rfl (by simp), Option.bind_some]
    exact store_at le_rfl (by simp)
  · rw [List.concat_eq_append]
    refine ⟨t :: init, (List.perm_append_singleton t init).symm, fun pre post => ⟨t, ?_, ?_⟩⟩
    · have hsplit : pre ++ pivot :: (init ++ [t] ++ post) = (pre ++ pivot :: init) ++ t :: post := by simp
      rw [hsplit]
      exact load_at (by omega) (by simp)
    · rw [store_at le_rfl (by simp), Option.bind_some]
      have hsplit : pre ++ t :: (init ++ [t] ++ post) = (pre ++ t :: init) ++ t :: post := by simp
      rw [hsplit, store_at (by omega) (by simp)]
      simp

theorem sort_parts {mem mem₁ mem₂ mem₃ mem₄ : List Int} {n lower : Int} (hlong : 1 < n)
    (hpivot : load mem base 0 = some pivot)
    (hpart : Returns (fun fuel => forLoop n 1 (partitionStep base pivot) fuel 1 (mem, 0)) (mem₁, lower))
    (hlast : load mem₁ base lower = some v)
    (hstore : ((store mem₁ base 0 v).bind fun mem => store mem base lower pivot) = some mem₂)
    (hleft : Returns (fun fuel => sort fuel mem₂ base lower) mem₃)
    (hright : Returns (fun fuel => sort fuel mem₃ (base + lower.toNat + 1) (n - lower - 1)) mem₄) :
    Returns (fun fuel => sort fuel mem base n) mem₄ := by
  refine Returns.of_succ ?_
  simp only [sort, if_neg (not_le.mpr hlong), hpivot, Option.bind_some]
  refine hpart.bind ?_
  simp only [hlast, ← Option.bind_assoc, hstore, Option.bind_some]
  exact hleft.bind hright

theorem sort_returns (l : List Int) (hn : (l.length : Int) < 2 ^ 31) : ∃ l', Sorts id l l' ∧
    ∀ pre post, Returns (fun fuel => sort fuel (pre ++ (l ++ post)) pre.length l.length) (pre ++ (l' ++ post)) := by
  induction hlen : l.length using Nat.strong_induction_on generalizing l with
  | _ n ih =>
    rcases Nat.lt_or_ge 1 n with hlong | hshort
    · obtain ⟨pivot, rest, rfl⟩ := List.exists_cons_of_length_pos (l := l) (by omega)
      rw [List.length_cons] at hn hlen
      obtain ⟨lo, gr, hperm, hlo, hgr, hpart⟩ := @partition_returns [] [] rest 1 pivot pivot (by simp)
        (by simp) (by simp) (by omega)
      obtain ⟨lo', hperm', hexchange⟩ := exchange_pivot pivot lo
      have hlength : lo.length + gr.length = rest.length := by simpa using hperm.length_eq
      have hlength' : lo'.length = lo.length := hperm'.length_eq
      obtain ⟨l₁, hsorts₁, hsort₁⟩ := ih lo'.length (by omega) lo' (by omega) rfl
      obtain ⟨l₂, hsorts₂, hsort₂⟩ := ih gr.length (by omega) gr (by omega) rfl
      refine ⟨l₁ ++ pivot :: l₂, ?_, fun pre post => ?_⟩
      · refine hsorts₁.join hsorts₂ (fun x hx => (hlo x (hperm'.subset hx)).le) hgr ?_
        exact (hperm'.append_right gr).trans hperm
      · obtain ⟨v, hlast, hstore⟩ := hexchange pre (gr ++ post)
        have hbound : (n : Int) = 1 + rest.length := by omega
        have hpart' : Returns (fun fuel => forLoop n 1 (partitionStep pre.length pivot) fuel 1
            (pre ++ (pivot :: rest ++ post), 0)) (pre ++ pivot :: (lo ++ (gr ++ post)), (lo.length : Int)) := by
          rw [hbound]
          simpa using hpart pre post
        have hleft : Returns (fun fuel => sort fuel (pre ++ (lo' ++ pivot :: (gr ++ post))) pre.length lo.length)
            (pre ++ (l₁ ++ pivot :: (gr ++ post))) := by
          rw [← hlength']
          exact hsort₁ pre (pivot :: (gr ++ post))
        -- What is after the pivot is sorted with all that is before it.
        have hright : Returns (fun fuel => sort fuel (pre ++ (l₁ ++ pivot :: (gr ++ post)))
            (pre.length + (lo.length : Int).toNat + 1) (n - lo.length - 1)) (pre ++ (l₁ ++ pivot :: l₂ ++ post)) := by
          have hlen₁ : l₁.length = lo.length := hsorts₁.perm.length_eq.trans hlength'
          have hrest : (n : Int) - lo.length - 1 = gr.length := by omega
          have hplace : pre.length + (lo.length : Int).toNat + 1 = (pre ++ (l₁ ++ [pivot])).length := by
            simp [hlen₁]
            omega
          rw [hrest, hplace]
          simpa using hsort₂ (pre ++ (l₁ ++ [pivot])) post
        exact sort_parts (by omega) (load_at le_rfl (by simp)) hpart' hlast hstore hleft hright
    · refine ⟨l, .of_length_le (hlen ▸ hshort), fun pre post => Returns.of_succ ?_⟩
      have htrivial : (n : Int) ≤ 1 := by omega
      simp only [sort, if_pos htrivial]
      exact (returns_some _ _).mpr rfl

/-- **The quicksort in place sorts.** It ends, with the same values in order and nothing else changed, and they are
those that the linked one makes of a list with the same values. -/
theorem sort_sorted (seq rest : List Int) (hn : (seq.length : Int) < 2 ^ 31) : ∃ seq',
    Returns (fun fuel => sort fuel (seq ++ rest) 0 seq.length) (seq' ++ rest) ∧ seq'.Perm seq ∧
      seq'.Pairwise (· ≤ ·) ∧
      ∀ {ν : Type} [DecidableEq ν] (val : ν → Int) (next : Linked.Next ν) (list : Linked.NodeList ν) (nodes : List ν),
        Linked.Holds next nodes list → nodes.map val = seq → ∃ next' list' nodes',
          Returns (fun fuel => Linked.sort val fuel next list) (next', list') ∧ Linked.Holds next' nodes' list' ∧
            nodes'.map val = seq' := by
  obtain ⟨seq', hsorts, hreturns⟩ := sort_returns seq hn
  refine ⟨seq', hreturns [] rest, hsorts.perm, hsorts.sorted, ?_⟩
  intro ν _ val next list nodes hholds hval
  obtain ⟨next', list', nodes', hlinked, hholds', hsorts', -⟩ := Linked.sort_returns val hholds
  refine ⟨next', list', nodes', hlinked, hholds', ?_⟩
  have heq := hsorts'.toSorts.map_key_eq hsorts (by simpa using hval)
  simpa using heq

theorem sort_sorted_three : ∃ seq', Returns (fun fuel => sort fuel ([3, 1, 3] ++ [0]) 0 3) (seq' ++ [0]) ∧
    seq'.Perm [3, 1, 3] := by
  obtain ⟨seq', hreturns, hperm, -⟩ := sort_sorted [3, 1, 3] [0] (by simp)
  exact ⟨seq', hreturns, hperm⟩

end OsCoursework.Quicksort.InPlace
