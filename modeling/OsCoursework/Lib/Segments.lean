import OsCoursework.Lib.Lines

/-!
# A stream that comes in segments

A reader with a buffer. Each read of the source delivers one segment, and takes the place of a
buffer that is used up. A reader that discards its buffer goes on with the next segment.
-/

namespace OsCoursework.Segments

universe u

variable {α : Type u} {segments front : List (List α)} {m n : Nat}

/-! ## Where the segments end -/

/-- The end of the segment that holds the last of the first `n` elements. -/
def endOf : List (List α) → Nat → Nat
  | _, 0 => 0
  | [], n + 1 => n + 1
  | seg :: segments, n + 1 => seg.length + endOf segments (n + 1 - seg.length)

@[simp] theorem endOf_zero (segments : List (List α)) : endOf segments 0 = 0 := by
  cases segments <;> rfl

@[simp] theorem endOf_nil (n : Nat) : endOf ([] : List (List α)) n = n := by
  cases n <;> rfl

theorem endOf_cons (seg : List α) (segments : List (List α)) (hn : 0 < n) :
    endOf (seg :: segments) n = seg.length + endOf segments (n - seg.length) := by
  obtain ⟨n, rfl⟩ := Nat.exists_eq_succ_of_ne_zero hn.ne'
  rfl

theorem le_endOf (segments : List (List α)) (n : Nat) : n ≤ endOf segments n := by
  induction segments generalizing n with
  | nil => simp
  | cons seg segments ih =>
    rcases Nat.eq_zero_or_pos n with rfl | hn
    · simp
    · have hrest := ih (n - seg.length)
      rw [endOf_cons _ _ hn]
      omega

theorem endOf_mono (segments : List (List α)) (h : m ≤ n) : endOf segments m ≤ endOf segments n := by
  induction segments generalizing m n with
  | nil => simpa using h
  | cons seg segments ih =>
    rcases Nat.eq_zero_or_pos m with rfl | hm
    · simp
    · have hrest := ih (Nat.sub_le_sub_right h seg.length)
      rw [endOf_cons _ _ hm, endOf_cons _ _ (hm.trans_le h)]
      omega

@[simp] theorem endOf_endOf (segments : List (List α)) (n : Nat) :
    endOf segments (endOf segments n) = endOf segments n := by
  induction segments generalizing n with
  | nil => simp
  | cons seg segments ih =>
    rcases Nat.eq_zero_or_pos n with rfl | hn
    · simp
    · have hpos : 0 < seg.length + endOf segments (n - seg.length) := by
        have hle := le_endOf segments (n - seg.length)
        omega
      rw [endOf_cons _ _ hn, endOf_cons _ _ hpos, Nat.add_sub_cancel_left, ih]

theorem endOf_append (front segments : List (List α)) (n : Nat) :
    endOf (front ++ segments) (front.flatten.length + n) = front.flatten.length + endOf segments n := by
  induction front with
  | nil => simp
  | cons seg front ih =>
    rw [List.cons_append, List.flatten_cons, List.length_append, Nat.add_assoc]
    rcases Nat.eq_zero_or_pos (seg.length + (front.flatten.length + n)) with hzero | hpos
    · obtain rfl : n = 0 := by omega
      rw [hzero, endOf_zero, endOf_zero]
      omega
    · rw [endOf_cons _ _ hpos, Nat.add_sub_cancel_left, ih, Nat.add_assoc]

/-! ## The reader -/

structure Reader (α : Type u) where
  buffer : List α
  segments : List (List α)

/-- The next element. A read that delivers nothing has come to the end. -/
def Reader.get : Reader α → Option (α × Reader α)
  | ⟨a :: buffer, segments⟩ => some (a, ⟨buffer, segments⟩)
  | ⟨[], (a :: buffer) :: segments⟩ => some (a, ⟨buffer, segments⟩)
  | ⟨[], _⟩ => none

def Reader.discard (r : Reader α) : Reader α := { r with buffer := [] }

/-- All that is still to come. -/
def Reader.contents (r : Reader α) : List α := r.buffer ++ r.segments.flatten

variable {r : Reader α}

/-- What a reader has done: these elements came out, and with them whole segments went. -/
structure Read (r : Reader α) (out : List α) (r' : Reader α) : Prop where
  contents : r.contents = out ++ r'.contents
  segments : ∃ front, r.segments = front ++ r'.segments
  /-- Nothing was read before it was needed. -/
  buffer : out.length + r'.buffer.length = r.buffer.length + endOf r.segments (out.length - r.buffer.length)

theorem read_nil (r : Reader α) : Read r [] r := ⟨rfl, ⟨[], rfl⟩, by simp⟩

theorem Read.cons {a : α} {out : List α} {r₁ r' : Reader α} (hget : r.get = some (a, r₁)) (h : Read r₁ out r') :
    Read r (a :: out) r' := by
  obtain ⟨hcontents, ⟨front, hfront⟩, hbuffer⟩ := h
  obtain ⟨buffer, segments⟩ := r
  rcases buffer with _ | ⟨b, buffer⟩
  · rcases segments with _ | ⟨_ | ⟨b, seg⟩, segments⟩
    · cases hget
    · cases hget
    · cases hget
      refine ⟨?_, ⟨(a :: seg) :: front, congrArg ((a :: seg) :: ·) hfront⟩, ?_⟩
      · rw [Reader.contents, List.nil_append, List.flatten_cons, List.cons_append, List.cons_append, ← hcontents]
        rfl
      · dsimp only at hbuffer ⊢
        rw [List.length_cons, List.length_nil, Nat.sub_zero, endOf_cons _ _ (Nat.succ_pos _), List.length_cons,
          Nat.succ_sub_succ]
        omega
  · cases hget
    refine ⟨?_, ⟨front, hfront⟩, ?_⟩
    · rw [Reader.contents, List.cons_append, List.cons_append, ← hcontents]
      rfl
    · dsimp only at hbuffer ⊢
      rw [List.length_cons, List.length_cons, Nat.add_sub_add_right]
      omega

theorem get_eq_none (hne : [] ∉ r.segments) (h : r.get = none) : r.contents = [] := by
  obtain ⟨buffer, segments⟩ := r
  rcases buffer with _ | ⟨b, buffer⟩
  · rcases segments with _ | ⟨_ | ⟨b, seg⟩, segments⟩
    · rfl
    · exact absurd List.mem_cons_self hne
    · cases h
  · cases h

theorem Read.nonempty {out : List α} {r' : Reader α} (h : Read r out r') (hne : [] ∉ r.segments) :
    [] ∉ r'.segments := by
  obtain ⟨front, hfront⟩ := h.segments
  rw [hfront] at hne
  exact fun hmem => hne (List.mem_append_right _ hmem)

variable [DecidableEq α] {sep : α} {room : Nat}

/-- A line, or as much of it as there is room for. -/
def Reader.fill (sep : α) : Nat → Reader α → List α × Reader α
  | 0, r => ([], r)
  | room + 1, r =>
    match r.get with
    | none => ([], r)
    | some (a, r) => if a = sep then ([a], r) else (a :: (fill sep room r).1, (fill sep room r).2)

theorem read_fill (sep : α) (room : Nat) (r : Reader α) : Read r (r.fill sep room).1 (r.fill sep room).2 := by
  induction room generalizing r with
  | zero => exact read_nil r
  | succ room ih =>
    unfold Reader.fill
    cases hget : r.get with
    | none => exact read_nil r
    | some p =>
      obtain ⟨a, r₁⟩ := p
      dsimp only
      split_ifs
      · exact (read_nil r₁).cons hget
      · exact (ih r₁).cons hget

/-- The segments do not show in what is read. -/
theorem fill_eq (hne : [] ∉ r.segments) : (r.fill sep room).1 = (Lines.fill sep room r.contents).1 := by
  induction room generalizing r with
  | zero => rfl
  | succ room ih =>
    unfold Reader.fill
    cases hget : r.get with
    | none =>
      rw [get_eq_none hne hget]
      rfl
    | some p =>
      obtain ⟨a, r₁⟩ := p
      have hread : Read r [a] r₁ := (read_nil r₁).cons hget
      have hrest := ih (hread.nonempty hne)
      rw [hread.contents, List.singleton_append, Lines.fill]
      dsimp only
      split_ifs
      · rfl
      · rw [hrest]

end OsCoursework.Segments
