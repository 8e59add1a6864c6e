import OsCoursework.Server.Code

/-!
# The buffers of the server

An insert overwrites the terminator, and the guard is on the index only. The text keeps a zero
exactly while there is another one behind the terminator.
-/

open OsCoursework.Cstring

namespace OsCoursework.Server

/-! ## The two loops -/

theorem getElem?_shiftRight {index i : Nat} (hi : i < stringLimit) (string : Buffer) (j : Nat) :
    (shiftRight index i string)[j]?.getD 0 =
      if index < j ∧ j ≤ i then string[j - 1]?.getD 0 else string[j]?.getD 0 := by
  induction i generalizing string with
  | zero => rw [shiftRight, if_neg (by omega)]
  | succ i ih =>
    unfold shiftRight
    by_cases hgt : i + 1 > index
    · rw [if_pos hgt, ih (by omega), getElem?_setIfInBounds_getD _ hi, getElem?_setIfInBounds_getD _ hi]
      by_cases hj : j = i + 1
      · subst hj
        rw [if_neg (by omega), if_pos rfl, if_pos (by omega), Nat.add_sub_cancel]
      · rw [if_neg hj]
        split_ifs <;> first | rfl | omega
    · rw [if_neg hgt, if_neg (by omega)]

theorem getElem?_shiftLeft_from (m : Nat) {i : Nat} (hi : i + m < stringLimit) (string : Buffer) (j : Nat) :
    ((List.range' i m).foldl (fun string i => string.setIfInBounds i (string[i + 1]?.getD 0)) string)[j]?.getD 0 =
      if i ≤ j ∧ j < i + m then string[j + 1]?.getD 0 else string[j]?.getD 0 := by
  induction m generalizing i string with
  | zero => rw [List.range'_zero, List.foldl_nil, if_neg (by omega)]
  | succ m ih =>
    rw [List.range'_succ, List.foldl_cons, ih (by omega), getElem?_setIfInBounds_getD _ (by omega),
      getElem?_setIfInBounds_getD _ (by omega)]
    by_cases hj : j = i
    · subst hj
      rw [if_neg (by omega), if_pos rfl, if_pos (by omega)]
    · rw [if_neg hj]
      split_ifs <;> first | rfl | omega

theorem getElem?_shiftLeft {index : Nat} (hi : index < stringLimit) (string : Buffer) (j : Nat) :
    (shiftLeft index string)[j]?.getD 0 =
      if index ≤ j ∧ j < stringLimit - 1 then string[j + 1]?.getD 0 else string[j]?.getD 0 := by
  unfold shiftLeft
  rw [getElem?_shiftLeft_from _ (by omega)]
  congr 2
  apply propext
  omega

/-! ## The history -/

/-- The saved texts end within their buffers. -/
def Saved (s : EditingString) : Prop := 0 ∈ s.prev1.toList ∧ 0 ∈ s.prev2.toList ∧ 0 ∈ s.prev3.toList

/-- The saved texts after the three copies. -/
structure Pushed (s : EditingString) (prev1 prev2 prev3 : Buffer) : Prop where
  saved : Saved { s with prev1, prev2, prev3 }
  text1 : text prev1.toList = text s.string.toList
  text2 : text prev2.toList = text s.prev1.toList
  text3 : text prev3.toList = text s.prev2.toList

theorem pushHistory_eq {s : EditingString} (h1 : 0 ∈ s.prev1.toList) (h2 : 0 ∈ s.prev2.toList)
    (h : 0 ∈ s.string.toList) :
    ∃ prev1 prev2 prev3, pushHistory s = some { s with prev1, prev2, prev3 } ∧ Pushed s prev1 prev2 prev3 := by
  obtain ⟨prev3, hcopy3, h3', htext3⟩ := strcpy_text h2 s.prev3
  obtain ⟨prev2, hcopy2, h2', htext2⟩ := strcpy_text h1 s.prev2
  obtain ⟨prev1, hcopy1, h1', htext1⟩ := strcpy_text h s.prev1
  refine ⟨prev1, prev2, prev3, ?_, ⟨h1', h2', h3'⟩, htext1, htext2, htext3⟩
  unfold pushHistory
  rw [hcopy3, Option.bind_some, hcopy2, Option.bind_some, hcopy1, Option.map_some]

/-- At the receive. -/
structure Ready (s : EditingString) : Prop where
  saved : Saved s
  zero : 0 ∈ s.string.toList
  len : s.len = strlen s.string.toList

theorem Ready.len_lt {s : EditingString} (h : Ready s) : s.len < stringLimit := by
  have hlt := ((terminated_iff s.string _).mpr ⟨h.zero, rfl⟩).lt
  rw [h.len]
  exact_mod_cast hlt

/-! ## Each command -/

theorem insert_eq {s : EditingString} (h : Ready s) {index : Int} (h0 : 0 ≤ index) (character : CChar) :
    (index > s.len ∧ insert s index character = some (1, s)) ∨
    (index ≤ s.len ∧ ∃ prev1 prev2 prev3, insert s index character = some (0, { s with
        prev1, prev2, prev3
        string := (shiftRight index.toNat s.len.toNat s.string).setIfInBounds index.toNat character
        numUndos := s.numUndos + 1 }) ∧
      Pushed s prev1 prev2 prev3) := by
  unfold insert
  split_ifs with hgt
  · exact Or.inl ⟨hgt, rfl⟩
  · right
    obtain ⟨prev1, prev2, prev3, hpush, hpushed⟩ := pushHistory_eq h.saved.1 h.saved.2.1 h.zero
    refine ⟨not_lt.mp hgt, prev1, prev2, prev3, ?_, hpushed⟩
    have hlen := h.len_lt
    rw [hpush, Option.bind_some, if_neg (by dsimp only; omega)]

theorem delete_eq {s : EditingString} (h : Ready s) {index : Int} (h0 : 0 ≤ index) :
    (index > s.len ∧ delete s index = some (1, s)) ∨
    (index ≤ s.len ∧ ∃ prev1 prev2 prev3, delete s index = some (0, { s with
        prev1, prev2, prev3
        string := shiftLeft index.toNat s.string
        numUndos := s.numUndos + 1 }) ∧
      Pushed s prev1 prev2 prev3) := by
  unfold delete
  by_cases hgt : index > s.len
  · exact Or.inl ⟨hgt, if_pos hgt⟩
  · right
    obtain ⟨prev1, prev2, prev3, hpush, hpushed⟩ := pushHistory_eq h.saved.1 h.saved.2.1 h.zero
    refine ⟨not_lt.mp hgt, prev1, prev2, prev3, ?_, hpushed⟩
    rw [if_neg hgt, hpush, Option.bind_some, if_neg (by omega)]

theorem undo_eq {s : EditingString} (h : Ready s) :
    (s.numUndos ≤ 0 ∧ undo s = some (1, s)) ∨
    (0 < s.numUndos ∧ ∃ string prev1 prev2, undo s = some (0, { s with
        string, prev1, prev2, numUndos := s.numUndos - 1 }) ∧
      strcpy s.string s.prev1 = some string ∧ 0 ∈ string.toList ∧ Saved { s with prev1, prev2 } ∧
      text prev1.toList = text s.prev2.toList ∧ text prev2.toList = text s.prev3.toList) := by
  unfold undo
  split_ifs with hpos
  · right
    obtain ⟨h1, h2, h3⟩ := h.saved
    obtain ⟨string, hcopy, h0, -⟩ := strcpy_text h1 s.string
    obtain ⟨prev1, hcopy1, h1', htext1⟩ := strcpy_text h2 s.prev1
    obtain ⟨prev2, hcopy2, h2', htext2⟩ := strcpy_text h3 s.prev2
    refine ⟨hpos, string, prev1, prev2, ?_, hcopy, h0, ⟨h1', h2', h3⟩, htext1, htext2⟩
    rw [hcopy, Option.bind_some, hcopy1, Option.bind_some, hcopy2, Option.map_some]
  · exact Or.inl ⟨not_lt.mp hpos, rfl⟩

/-! ## The zero -/

/-- What the request has to find so that the text keeps a zero: another one behind the terminator, for an
insert of a character and for a delete at the terminator. -/
def Keeps (s : EditingString) (request : ClientRequest) : Prop :=
  let len := strlen s.string.toList
  let zeroBehind := 0 ∈ s.string.toList.drop (len + 1)
  (request.command = letter 'i' → request.index ≤ len → request.character = 0 ∨ zeroBehind) ∧
  (request.command = letter 'd' → request.index = len → len = stringLimit - 1 ∨ zeroBehind)

instance (s : EditingString) (request : ClientRequest) : Decidable (Keeps s request) :=
  inferInstanceAs (Decidable ((_ → _ → _ ∨ _) ∧ (_ → _ → _ ∨ _)))

theorem zero_mem_inserted {string : Buffer} {k index : Nat} (h : Terminated string k) (hindex : index ≤ k)
    (character : CChar) :
    0 ∈ ((shiftRight index k string).setIfInBounds index character).toList ↔
      character = 0 ∨ 0 ∈ string.toList.drop (k + 1) := by
  have hlt := h.lt
  rw [zero_mem_iff, zero_mem_drop_iff]
  simp only [getElem?_setIfInBounds_getD _ (hindex.trans_lt hlt), getElem?_shiftRight hlt]
  constructor
  · rintro ⟨j, hj, hzero⟩
    split_ifs at hzero with h1 h2
    · exact Or.inl hzero
    · exact absurd hzero (h.before _ (by omega))
    · refine Or.inr ⟨j, hj, ?_, hzero⟩
      by_contra hle
      exact h.before j (by omega) hzero
  · rintro (rfl | ⟨j, hj, hk, hzero⟩)
    · exact ⟨index, by omega, by rw [if_pos rfl]⟩
    · exact ⟨j, hj, by rw [if_neg (by omega), if_neg (by omega), hzero]⟩

theorem zero_mem_deleted {string : Buffer} {k index : Nat} (h : Terminated string k) (hindex : index ≤ k) :
    0 ∈ (shiftLeft index string).toList ↔
      (index = k → k = stringLimit - 1 ∨ 0 ∈ string.toList.drop (k + 1)) := by
  have hlt := h.lt
  rw [zero_mem_iff, zero_mem_drop_iff]
  simp only [getElem?_shiftLeft (hindex.trans_lt hlt)]
  constructor
  · rintro ⟨j, hj, hzero⟩ rfl
    split_ifs at hzero with hin
    · exact Or.inr ⟨j + 1, by omega, by omega, hzero⟩
    · by_cases hlast : j = stringLimit - 1
      · by_cases hk : index = stringLimit - 1
        · exact Or.inl hk
        · exact Or.inr ⟨j, hj, by omega, hzero⟩
      · exact absurd hzero (h.before j (by omega))
  · intro hkeep
    by_cases hik : index = k
    · rcases hkeep hik with hk | ⟨j, hj, hkj, hzero⟩
      · exact ⟨k, hlt, by rw [if_neg (by omega), h.zero]⟩
      · exact ⟨j - 1, by omega, by rw [if_pos (by omega), Nat.sub_add_cancel (by omega), hzero]⟩
    · exact ⟨k - 1, by omega, by rw [if_pos (by omega), Nat.sub_add_cancel (by omega), h.zero]⟩

theorem letters_ne : letter 'd' ≠ letter 'i' ∧ letter 'u' ≠ letter 'i' ∧ letter 'u' ≠ letter 'd' ∧
    letter 'r' ≠ letter 'i' ∧ letter 'r' ≠ letter 'd' ∧ letter 'r' ≠ letter 'u' := by decide

theorem ready_eq {s : EditingString} (hsaved : Saved s) (h : 0 ∈ s.string.toList) :
    ∃ t, ready s = some t ∧ Ready t ∧ t.string = s.string ∧ t.prev1 = s.prev1 ∧ t.prev2 = s.prev2 ∧
      t.prev3 = s.prev3 ∧ t.numUndos = if s.numUndos > undoLimit then (undoLimit : Int) else s.numUndos := by
  refine ⟨_, if_pos h, ⟨hsaved, h, rfl⟩, rfl, rfl, rfl, rfl, rfl⟩

theorem dispatch_zero {s : EditingString} (h : Ready s) {request : ClientRequest} (h0 : 0 ≤ request.index) :
    ∃ status t, dispatch s request = some (status, t) ∧ Saved t ∧ (0 ∈ t.string.toList ↔ Keeps s request) := by
  have ht : Terminated s.string (strlen s.string.toList) := (terminated_iff _ _).mpr ⟨h.zero, rfl⟩
  have hlen := h.len
  have hne := letters_ne
  unfold dispatch Keeps
  split_ifs with hi hd hu hr
  · rcases insert_eq h h0 request.character with ⟨hgt, heq⟩ | ⟨hle, prev1, prev2, prev3, heq, hpushed⟩
    · refine ⟨_, _, heq, h.saved, iff_of_true h.zero ⟨fun _ hle => ?_, fun hd => ?_⟩⟩
      · omega
      · exact absurd (hd.symm.trans hi) hne.1
    · refine ⟨_, _, heq, hpushed.saved, ?_⟩
      rw [hlen, Int.toNat_natCast]
      refine (zero_mem_inserted ht (by omega) _).trans ⟨fun hz => ⟨fun _ _ => hz, fun hd => ?_⟩, fun hz => ?_⟩
      · exact absurd (hd.symm.trans hi) hne.1
      · exact hz.1 hi (by omega)
  · rcases delete_eq h h0 with ⟨hgt, heq⟩ | ⟨hle, prev1, prev2, prev3, heq, hpushed⟩
    · refine ⟨_, _, heq, h.saved, iff_of_true h.zero ⟨fun hi' => absurd hi' hi, fun _ heq => ?_⟩⟩
      omega
    · refine ⟨_, _, heq, hpushed.saved, ?_⟩
      refine (zero_mem_deleted ht (by omega)).trans ⟨fun hz => ⟨fun hi' => absurd hi' hi, fun _ heq => ?_⟩, ?_⟩
      · exact hz (by omega)
      · intro hz heq
        exact hz.2 hd (by omega)
  · rcases undo_eq h with ⟨-, heq⟩ | ⟨-, string, prev1, prev2, heq, -, hzero, hsaved, -⟩
    · exact ⟨_, _, heq, h.saved, iff_of_true h.zero ⟨fun h => absurd h hi, fun h => absurd h hd⟩⟩
    · exact ⟨_, _, heq, hsaved, iff_of_true hzero ⟨fun h => absurd h hi, fun h => absurd h hd⟩⟩
  · exact ⟨_, _, rfl, h.saved, iff_of_true h.zero ⟨fun h => absurd h hi, fun h => absurd h hd⟩⟩
  · exact ⟨_, _, rfl, h.saved, iff_of_true h.zero ⟨fun h => absurd h hi, fun h => absurd h hd⟩⟩

/-! ## Runs -/

/-- One turn of the loop, up to the reply. -/
def edit (argStr : EditingString) (request : ClientRequest) : Option EditingString :=
  (ready argStr).bind fun argStr => (dispatch argStr request).map Prod.snd

/-- What the requests make of the buffers. What is replied writes only to the message and to `temp`. -/
def edits : EditingString → List ClientRequest → Option EditingString
  | argStr, [] => some argStr
  | argStr, request :: requests => (edit argStr request).bind fun argStr => edits argStr requests

theorem edit_of_turn {s t : EditingString} {request : ClientRequest} {response : ServerResponse}
    (h : turn s request = some (response, t)) : edit s request = some t := by
  unfold turn answer at h
  unfold edit
  obtain ⟨u, hready, h⟩ := Option.bind_eq_some_iff.mp h
  obtain ⟨r, hdispatch, h⟩ := Option.bind_eq_some_iff.mp h
  obtain ⟨response', -, heq⟩ := Option.map_eq_some_iff.mp h
  cases heq
  rw [hready, Option.bind_some, hdispatch, Option.map_some]

theorem edits_of_serve {s t : EditingString} {requests : List ClientRequest} {responses : List ServerResponse}
    (h : serve s requests = some (responses, t)) : edits s requests = some t := by
  induction requests generalizing s responses with
  | nil =>
    cases h
    rfl
  | cons request requests ih =>
    obtain ⟨⟨response, u⟩, hturn, h⟩ := Option.bind_eq_some_iff.mp h
    obtain ⟨rest, hrest, heq⟩ := Option.map_eq_some_iff.mp h
    cases heq
    rw [edits, edit_of_turn hturn, Option.bind_some]
    exact ih hrest

theorem serve_cons {s t : EditingString} {request : ClientRequest} {response : ServerResponse}
    (h : turn s request = some (response, t)) (requests : List ClientRequest) :
    serve s (request :: requests) = (serve t requests).map fun rest => (response :: rest.1, rest.2) := by
  rw [serve, h, Option.bind_some]

theorem edit_zero {s : EditingString} (hsaved : Saved s) (h : 0 ∈ s.string.toList) {request : ClientRequest}
    (h0 : 0 ≤ request.index) :
    ∃ t, edit s request = some t ∧ Saved t ∧ (0 ∈ t.string.toList ↔ Keeps s request) := by
  obtain ⟨u, hready, hu, hstring, -⟩ := ready_eq hsaved h
  obtain ⟨status, t, hdispatch, ht, hzero⟩ := dispatch_zero hu h0
  refine ⟨t, ?_, ht, ?_⟩
  · unfold edit
    rw [hready, Option.bind_some, hdispatch, Option.map_some]
  · rw [hzero, Keeps, Keeps, hstring]

/-- The text has a zero after each of the requests, and no step ran over a buffer. -/
def Kept (s : EditingString) (requests : List ClientRequest) : Prop :=
  ∀ edited, edited <+: requests → ∃ t, edits s edited = some t ∧ 0 ∈ t.string.toList

theorem Kept.zero {s : EditingString} {requests : List ClientRequest} (h : Kept s requests) :
    0 ∈ s.string.toList := by
  obtain ⟨t, hedits, hzero⟩ := h [] List.nil_prefix
  cases hedits
  exact hzero

theorem edits_cons {s t : EditingString} {request : ClientRequest} (h : edit s request = some t)
    (requests : List ClientRequest) : edits s (request :: requests) = edits t requests := by
  rw [edits, h, Option.bind_some]

theorem kept_cons {s t : EditingString} {request : ClientRequest} (hs : 0 ∈ s.string.toList)
    (h : edit s request = some t) (requests : List ClientRequest) :
    Kept s (request :: requests) ↔ Kept t requests := by
  constructor
  · intro hkept edited hprefix
    have hlater := hkept (request :: edited) ((List.prefix_cons_inj request).mpr hprefix)
    rwa [edits_cons h] at hlater
  · intro hkept edited hprefix
    cases edited with
    | nil => exact ⟨s, rfl, hs⟩
    | cons r edited =>
      obtain ⟨rfl, hrest⟩ := List.cons_prefix_cons.mp hprefix
      rw [edits_cons h]
      exact hkept edited hrest

theorem kept_iff {s : EditingString} (hsaved : Saved s) (h : 0 ∈ s.string.toList) {requests : List ClientRequest}
    (h0 : ∀ r ∈ requests, 0 ≤ r.index) :
    Kept s requests ↔ ∀ edited r, edited ++ [r] <+: requests → ∀ t, edits s edited = some t → Keeps t r := by
  induction requests generalizing s with
  | nil =>
    constructor
    · intro _ edited r hprefix
      simp at hprefix
    · intro _ edited hprefix
      obtain rfl := List.prefix_nil.mp hprefix
      exact ⟨s, rfl, h⟩
  | cons request requests ih =>
    obtain ⟨t, hedit, ht, hzero⟩ := edit_zero hsaved h (h0 request List.mem_cons_self)
    rw [kept_cons h hedit]
    constructor
    · intro hkept edited r hprefix u hedits
      cases edited with
      | nil =>
        obtain ⟨rfl, -⟩ := List.cons_prefix_cons.mp hprefix
        cases hedits
        exact hzero.mp hkept.zero
      | cons r' edited =>
        obtain ⟨rfl, hlater⟩ := List.cons_prefix_cons.mp hprefix
        rw [edits_cons hedit] at hedits
        have hiff := ih ht hkept.zero fun r hr => h0 r (List.mem_cons_of_mem _ hr)
        exact hiff.mp hkept edited r hlater u hedits
    · intro hkeeps
      have hfirst : Keeps s request := hkeeps [] request (by simp) s rfl
      refine (ih ht (hzero.mpr hfirst) fun r hr => h0 r (List.mem_cons_of_mem _ hr)).mpr ?_
      intro edited r hprefix u hedits
      refine hkeeps (request :: edited) r ((List.prefix_cons_inj request).mpr hprefix) u ?_
      rw [edits_cons hedit, hedits]

/-! ## From the start -/

theorem start_eq {argStr s : EditingString} {argv1 : List CChar} (h : start argStr argv1 = some s) :
    s.string = initialString argv1 ∧ s.prev1 = argStr.prev1 ∧
      s.prev2 = argStr.prev2 ∧ s.prev3 = argStr.prev3 ∧ s.numUndos = 0 := by
  by_cases hnewline : letter '\n' ∈ text (initialString argv1).toList
  · rw [start, if_pos hnewline] at h
    exact absurd h.symm (Option.some_ne_none _)
  · rw [start, if_neg hnewline] at h
    rw [← Option.some.inj h]
    exact ⟨rfl, rfl, rfl, rfl, rfl⟩

theorem start_zero {argStr s : EditingString} {argv1 : List CChar} (h : start argStr argv1 = some s) :
    0 ∈ s.string.toList := by
  rw [(start_eq h).1, zero_mem_iff]
  unfold initialString
  exact ⟨stringLimit - 1, by decide, by rw [getElem?_setIfInBounds_getD _ (by decide), if_pos rfl]⟩

theorem start_saved {argStr s : EditingString} {argv1 : List CChar} (h : start argStr argv1 = some s)
    (hsaved : Saved argStr) : Saved s := by
  obtain ⟨-, h1, h2, h3, -⟩ := start_eq h
  unfold Saved
  rw [h1, h2, h3]
  exact hsaved

theorem index_nonneg {command : ClientCommand} {request : ClientRequest}
    (h : clientRequest command = some request) : 0 ≤ request.index := by
  unfold clientRequest at h
  dsimp only at h
  split_ifs at h with hneg
  cases h
  exact not_lt.mp hneg

/-- **The text keeps its zero, and no step runs over a buffer, exactly while each request finds another
zero where it needs one.** -/
theorem buffers_kept_iff {argStr s : EditingString} {argv1 : List CChar} (hsaved : Saved argStr)
    (hs : start argStr argv1 = some s) {requests : List ClientRequest}
    (hrequests : ∀ r ∈ requests, ∃ command, clientRequest command = some r) :
    (∀ edited, edited <+: requests → ∃ t, edits s edited = some t ∧ 0 ∈ t.string.toList) ↔
    ∀ edited r, edited ++ [r] <+: requests → ∀ t, edits s edited = some t → Keeps t r := by
  refine kept_iff (start_saved hs hsaved) (start_zero hs) fun r hr => ?_
  obtain ⟨command, hcommand⟩ := hrequests r hr
  exact index_nonneg hcommand

def blank : EditingString where
  string := Vector.replicate _ 0
  prev1 := Vector.replicate _ 0
  prev2 := Vector.replicate _ 0
  prev3 := Vector.replicate _ 0
  len := 0
  numUndos := 0

theorem start_blank (argv1 : List CChar) (h : letter '\n' ∉ text (initialString argv1).toList) :
    start blank argv1 = some { blank with string := initialString argv1, len := strlen argv1 } := by
  rw [start, if_neg h]
  rfl

theorem saved_blank : Saved blank := by
  unfold Saved
  decide

theorem buffers_kept_iff_one : ∃ s, start blank (ascii "ab") = some s ∧
    ∃ t, edits s [⟨letter 'i', 1, letter 'x'⟩] = some t ∧ 0 ∈ t.string.toList := by
  have hs := start_blank (ascii "ab") (by decide +kernel)
  refine ⟨_, hs, (buffers_kept_iff saved_blank hs ?_).mpr ?_ _ List.prefix_rfl⟩
  · intro r hr
    rw [List.mem_singleton.mp hr]
    exact ⟨.insert 1 (letter 'x'), rfl⟩
  · intro edited r hprefix t hedits
    obtain ⟨rfl, rfl⟩ : edited = [] ∧ r = ⟨letter 'i', 1, letter 'x'⟩ := by
      cases edited with
      | nil => simpa using hprefix
      | cons r' edited => simp at hprefix
    cases hedits
    decide +kernel

/-- A full text has no zero left after one insert, and the next receive is never reached. -/
theorem full_insert_overruns : ∃ s, start blank (List.replicate 75 (letter 'a')) = some s ∧
    (∃ t, edits s [⟨letter 'i', 0, letter 'x'⟩] = some t ∧ 0 ∉ t.string.toList) ∧
    edits s [⟨letter 'i', 0, letter 'x'⟩, ⟨letter 'u', 0, 0⟩] = none := by
  refine ⟨_, start_blank _ (by decide +kernel), ?_, ?_⟩
  · have h : ((edits { blank with
          string := initialString (List.replicate 75 (letter 'a')), len := strlen (List.replicate 75 (letter 'a')) }
        [⟨letter 'i', 0, letter 'x'⟩]).map fun t => decide (0 ∈ t.string.toList)) = some false := by decide +kernel
    obtain ⟨t, ht, hzero⟩ := Option.map_eq_some_iff.mp h
    exact ⟨t, ht, of_decide_eq_false hzero⟩
  · exact Option.isNone_iff_eq_none.mp (by decide +kernel)

end OsCoursework.Server
