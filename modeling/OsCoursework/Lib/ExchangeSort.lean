import Mathlib

/-!
# Exchange sort

For each place `i`, every later place `j` is swapped with it when its key is less.
After that the least of the rest is at `i`.
-/

open scoped List

namespace OsCoursework.ExchangeSort

variable {α κ : Type*} [LinearOrder κ]

/-- `if (key(list[j]) < key(list[i])) swap` -/
def exchange (key : α → κ) (i : Nat) (l : List α) (j : Nat) : List α :=
  match l[i]?, l[j]? with
  | some a, some b => if key b < key a then (l.set i b).set j a else l
  | _, _ => l

/-- The inner loop. -/
def sweep (key : α → κ) (l : List α) (i : Nat) : List α :=
  (List.range' (i + 1) (l.length - (i + 1))).foldl (exchange key i) l

def exchangeSort (key : α → κ) (l : List α) : List α := (List.range (l.length - 1)).foldl (sweep key) l

theorem exchange_split (key : α → κ) (pre mid post : List α) (a b : α) :
    exchange key pre.length (pre ++ a :: (mid ++ b :: post)) (pre.length + (mid.length + 1)) =
      if key b < key a then pre ++ b :: (mid ++ a :: post) else pre ++ a :: (mid ++ b :: post) := by
  unfold exchange
  have ha : (pre ++ a :: (mid ++ b :: post))[pre.length]? = some a := by simp
  have hb : (pre ++ a :: (mid ++ b :: post))[pre.length + (mid.length + 1)]? = some b := by simp
  rw [ha, hb]
  simp only
  congr 1
  rw [List.set_append_right _ _ le_rfl, Nat.sub_self, List.set_cons_zero, List.set_append_right _ _ (by omega),
    Nat.add_sub_cancel_left, List.set_cons_succ, List.set_append_right _ _ le_rfl, Nat.sub_self, List.set_cons_zero]

theorem exists_split {l : List α} {i j : Nat} (hij : i < j) (hj : j < l.length) :
    ∃ pre a mid b post, l = pre ++ a :: (mid ++ b :: post) ∧ pre.length = i ∧ i + (mid.length + 1) = j := by
  refine ⟨l.take i, l[i], (l.drop (i + 1)).take (j - (i + 1)), l[j], l.drop (j + 1), ?_, ?_, ?_⟩
  · have hmid : (l.drop (i + 1)).take (j - (i + 1)) ++ l[j] :: l.drop (j + 1) = l.drop (i + 1) := by
      have hdrop : (l.drop (i + 1)).drop (j - (i + 1)) = l[j] :: l.drop (j + 1) := by
        rw [List.drop_drop, Nat.add_sub_of_le hij]
        exact List.drop_eq_getElem_cons hj
      rw [← hdrop, List.take_append_drop]
    rw [hmid, ← List.drop_eq_getElem_cons, List.take_append_drop]
  · rw [List.length_take]
    omega
  · rw [List.length_take, List.length_drop]
    omega

theorem swap_perm (a b : α) (mid post : List α) : (b :: (mid ++ a :: post)).Perm (a :: (mid ++ b :: post)) :=
  calc b :: (mid ++ a :: post)
    _ ~ b :: a :: (mid ++ post) := List.perm_middle.cons b
    _ ~ a :: b :: (mid ++ post) := List.Perm.swap a b _
    _ ~ a :: (mid ++ b :: post) := List.perm_middle.symm.cons a

theorem exchange_perm (key : α → κ) (i j : Nat) (l : List α) (hij : i < j) : (exchange key i l j).Perm l := by
  by_cases hj : j < l.length
  · obtain ⟨pre, a, mid, b, post, rfl, rfl, rfl⟩ := exists_split hij hj
    rw [exchange_split]
    split_ifs with hlt
    · exact (swap_perm a b mid post).append_left pre
    · exact List.Perm.refl _
  · unfold exchange
    rw [List.getElem?_eq_none (not_lt.mp hj)]
    cases l[i]? <;> exact List.Perm.refl _

theorem foldl_exchange (key : α → κ) (pre : List α) (post mid : List α) (a : α) (hmid : ∀ b ∈ mid, key a ≤ key b) :
    ∃ m rest, (List.range' (pre.length + (mid.length + 1)) post.length).foldl (exchange key pre.length)
        (pre ++ a :: (mid ++ post)) = pre ++ m :: rest ∧
      (m :: rest).Perm (a :: (mid ++ post)) ∧ ∀ b ∈ rest, key m ≤ key b := by
  induction post generalizing mid a with
  | nil => exact ⟨a, mid, by simp, by simp, hmid⟩
  | cons b post ih =>
    rw [List.length_cons, List.range'_succ, List.foldl_cons, exchange_split]
    split_ifs with hlt
    · obtain ⟨m, rest, hfold, hperm, hle⟩ := ih (mid ++ [a]) b (by
        intro c hc
        rcases List.mem_append.mp hc with hc | hc
        · exact hlt.le.trans (hmid c hc)
        · rw [List.mem_singleton.mp hc]
          exact hlt.le)
      refine ⟨m, rest, ?_, hperm.trans ?_, hle⟩
      · simpa [add_assoc] using hfold
      · rw [List.append_assoc, List.singleton_append]
        exact swap_perm a b mid post
    · obtain ⟨m, rest, hfold, hperm, hle⟩ := ih (mid ++ [b]) a (by
        intro c hc
        rcases List.mem_append.mp hc with hc | hc
        · exact hmid c hc
        · rw [List.mem_singleton.mp hc]
          exact not_lt.mp hlt)
      refine ⟨m, rest, ?_, ?_, hle⟩
      · simpa [add_assoc] using hfold
      · simpa using hperm

theorem sweep_split (key : α → κ) (pre rest : List α) (a : α) :
    ∃ m rest', sweep key (pre ++ a :: rest) pre.length = pre ++ m :: rest' ∧ (m :: rest').Perm (a :: rest) ∧
      ∀ b ∈ rest', key m ≤ key b := by
  have h := foldl_exchange key pre rest [] a (by simp)
  unfold sweep
  have hlen : (pre ++ a :: rest).length - (pre.length + 1) = rest.length := by
    rw [List.length_append, List.length_cons]
    omega
  rw [hlen]
  exact h

theorem foldl_sweep (key : α → κ) (pre rest : List α) (hsorted : pre.Pairwise fun a b => key a ≤ key b)
    (hcross : ∀ a ∈ pre, ∀ b ∈ rest, key a ≤ key b) :
    ((List.range' pre.length (rest.length - 1)).foldl (sweep key) (pre ++ rest)).Perm (pre ++ rest) ∧
      ((List.range' pre.length (rest.length - 1)).foldl (sweep key) (pre ++ rest)).Pairwise
        fun a b => key a ≤ key b := by
  obtain ⟨n, hn⟩ : ∃ n, rest.length = n := ⟨_, rfl⟩
  induction n generalizing pre rest with
  | zero =>
    obtain rfl := List.length_eq_zero_iff.mp hn
    simpa using hsorted
  | succ n ih =>
    obtain ⟨a, rest, rfl⟩ := List.exists_cons_of_length_eq_add_one hn
    cases rest with
    | nil =>
      -- The last place has nothing after it.
      simp only [List.length_singleton, Nat.sub_self, List.range'_zero, List.foldl_nil]
      exact ⟨List.Perm.refl _, List.pairwise_append.mpr ⟨hsorted, by simp, hcross⟩⟩
    | cons c rest =>
      obtain ⟨m, rest', hsweep, hperm, hle⟩ := sweep_split key pre (c :: rest) a
      have hlen : rest'.length = rest.length + 1 := by simpa using hperm.length_eq
      have hcross' : ∀ b ∈ pre, ∀ d ∈ m :: rest', key b ≤ key d := fun b hb d hd => hcross b hb d (hperm.subset hd)
      have hsorted' : (pre ++ [m]).Pairwise fun a b => key a ≤ key b := by
        rw [List.pairwise_append]
        refine ⟨hsorted, by simp, fun b hb d hd => ?_⟩
        rw [List.mem_singleton.mp hd]
        exact hcross' b hb m List.mem_cons_self
      have hnext : ∀ b ∈ pre ++ [m], ∀ d ∈ rest', key b ≤ key d := by
        intro b hb d hd
        rcases List.mem_append.mp hb with hb | hb
        · exact hcross' b hb d (List.mem_cons_of_mem m hd)
        · rw [List.mem_singleton.mp hb]
          exact hle d hd
      have hrest := ih (pre ++ [m]) rest' hsorted' hnext (by simp at hn; omega)
      have hcount : (a :: c :: rest).length - 1 = (rest'.length - 1) + 1 := by simp [hlen]
      rw [hcount, List.range'_succ, List.foldl_cons, hsweep]
      rw [List.append_assoc, List.singleton_append, List.length_append, List.length_singleton] at hrest
      exact ⟨hrest.1.trans (hperm.append_left pre), hrest.2⟩

theorem exchangeSort_perm (key : α → κ) (l : List α) : (exchangeSort key l).Perm l := by
  have h := (foldl_sweep key [] l List.Pairwise.nil (by simp)).1
  rwa [List.length_nil, ← List.range_eq_range', List.nil_append] at h

theorem exchangeSort_sorted (key : α → κ) (l : List α) :
    (exchangeSort key l).Pairwise fun a b => key a ≤ key b := by
  have h := (foldl_sweep key [] l List.Pairwise.nil (by simp)).2
  rwa [List.length_nil, ← List.range_eq_range', List.nil_append] at h

end OsCoursework.ExchangeSort
