import OsCoursework.Server.Shutdown
import OsCoursework.Server.Text

/-!
# The replies to delete and report

The guard of delete lets the place behind the text through, where the shared-memory editor
stops. The report is cut where its four characters no longer fit.
-/

open OsCoursework.Cstring

namespace OsCoursework.Server

/-! ## The states at the receive -/

/-- The server waits for a request, after some run from its start. -/
def Receives (s : EditingString) : Prop :=
  ∃ argStr argv1 s₀ requests responses t,
    start argStr argv1 = some s₀ ∧ serve s₀ requests = some (responses, t) ∧ ready t = some s

theorem ready_zero {s t : EditingString} (h : ready s = some t) :
    0 ∈ t.string.toList ∧ t.len = strlen t.string.toList := by
  unfold ready at h
  by_cases hzero : 0 ∈ s.string.toList
  · rw [if_pos hzero] at h
    cases h
    exact ⟨hzero, rfl⟩
  · rw [if_neg hzero] at h
    cases h

theorem ready_count {s t : EditingString} (h : ready s = some t) (h0 : 0 ≤ s.numUndos) :
    0 ≤ t.numUndos ∧ t.numUndos ≤ undoLimit := by
  unfold ready at h
  have hlimit : undoLimit = 3 := rfl
  split_ifs at h
  · cases h
    simp
  · cases h
    dsimp only
    omega

theorem dispatch_count {s t : EditingString} {request : ClientRequest} {status : Nat}
    (h : dispatch s request = some (status, t)) (h0 : 0 ≤ s.numUndos) : 0 ≤ t.numUndos := by
  unfold dispatch at h
  split_ifs at h with hi hd hu hr
  · rcases insert_cases h with ⟨-, rfl⟩ | ⟨-, hcount⟩
    · exact h0
    · omega
  · rcases delete_cases h with ⟨-, rfl⟩ | ⟨-, hcount⟩
    · exact h0
    · omega
  · rcases undo_cases h with ⟨-, rfl⟩ | ⟨hpos, hcount⟩
    · exact h0
    · omega
  · cases h
    exact h0
  · cases h
    exact h0

theorem turn_count {s t : EditingString} {request : ClientRequest} {response : ServerResponse}
    (h : turn s request = some (response, t)) (h0 : 0 ≤ s.numUndos) : 0 ≤ t.numUndos := by
  unfold turn answer at h
  obtain ⟨u, hready, h⟩ := Option.bind_eq_some_iff.mp h
  obtain ⟨⟨status, v⟩, hdispatch, h⟩ := Option.bind_eq_some_iff.mp h
  obtain ⟨response', -, heq⟩ := Option.map_eq_some_iff.mp h
  cases heq
  exact dispatch_count hdispatch (ready_count hready h0).1

theorem serve_count {s t : EditingString} {requests : List ClientRequest} {responses : List ServerResponse}
    (h : serve s requests = some (responses, t)) (h0 : 0 ≤ s.numUndos) : 0 ≤ t.numUndos := by
  induction requests generalizing s responses with
  | nil =>
    cases h
    exact h0
  | cons request requests ih =>
    obtain ⟨⟨response, u⟩, hturn, h⟩ := Option.bind_eq_some_iff.mp h
    obtain ⟨rest, hrest, heq⟩ := Option.map_eq_some_iff.mp h
    cases heq
    exact ih hrest (turn_count hturn h0)

theorem Receives.zero {s : EditingString} (h : Receives s) : 0 ∈ s.string.toList ∧ s.len = strlen s.string.toList := by
  obtain ⟨_, _, _, _, _, _, -, -, hready⟩ := h
  exact ready_zero hready

theorem Receives.count {s : EditingString} (h : Receives s) : 0 ≤ s.numUndos ∧ s.numUndos ≤ undoLimit := by
  obtain ⟨_, _, s₀, _, _, _, hstart, hserve, hready⟩ := h
  obtain ⟨-, -, -, -, hzero⟩ := start_eq hstart
  exact ready_count hready (serve_count hserve hzero.ge)

/-! ## Delete -/

/-- The text lost the character, and undo can bring it back. -/
structure Deleted (s t : EditingString) (index : Nat) : Prop where
  text : text t.string.toList = (text s.string.toList).take index ++ (text s.string.toList).drop (index + 1)
  text1 : Cstring.text t.prev1.toList = Cstring.text s.string.toList
  text2 : Cstring.text t.prev2.toList = Cstring.text s.prev1.toList
  text3 : Cstring.text t.prev3.toList = Cstring.text s.prev2.toList
  count : t.numUndos = s.numUndos + 1

/-- OK and one character less below the end of the text, and elsewhere ERROR and nothing else. -/
def DeletesExactly (s : EditingString) (request : ClientRequest) : Prop :=
  ∃ response t, answer s request = some (response, t) ∧
    if request.index < strlen s.string.toList then response = ok ∧ Deleted s t request.index.toNat
    else response = error ∧ t = s

theorem text_shiftLeft {b : Buffer} {k i : Nat} (h : Terminated b (k + 1)) (hi : i ≤ k) :
    text (shiftLeft i b).toList = (text b.toList).take i ++ (text b.toList).drop (i + 1) := by
  have hlt := h.lt
  refine h.text_of_deleted hi fun j hj => ?_
  have hinside : j < stringLimit - 1 := by omega
  rw [getElem?_shiftLeft (by omega)]
  simp only [hinside, and_true]

theorem pushHistory_zeros {s t : EditingString} (h : pushHistory s = some t) :
    0 ∈ s.prev1.toList ∧ 0 ∈ s.prev2.toList := by
  unfold pushHistory at h
  obtain ⟨prev3, hcopy3, h⟩ := Option.bind_eq_some_iff.mp h
  obtain ⟨prev2, hcopy2, h⟩ := Option.bind_eq_some_iff.mp h
  exact ⟨zero_mem_of_strcpy hcopy2, zero_mem_of_strcpy hcopy3⟩

theorem delete_inside {s : EditingString} (hzero : 0 ∈ s.string.toList ∧ s.len = strlen s.string.toList)
    (hprev1 : 0 ∈ s.prev1.toList) (hprev2 : 0 ∈ s.prev2.toList) {index : Int} (h0 : 0 ≤ index)
    (hindex : index < strlen s.string.toList) :
    ∃ t, delete s index = some (0, t) ∧ Deleted s t index.toNat := by
  obtain ⟨prev1, prev2, prev3, hpush, hpushed⟩ := pushHistory_eq hprev1 hprev2 hzero.1
  obtain ⟨k, hk⟩ : ∃ k, strlen s.string.toList = k + 1 := ⟨strlen s.string.toList - 1, by omega⟩
  have hterm : Terminated s.string (k + 1) := (terminated_iff _ _).mpr ⟨hzero.1, hk⟩
  refine ⟨{ s with prev1, prev2, prev3, string := shiftLeft index.toNat s.string, numUndos := s.numUndos + 1 }, ?_, ?_⟩
  · unfold delete
    rw [if_neg (by omega), hpush, Option.bind_some, if_neg (by omega)]
  · exact ⟨text_shiftLeft hterm (by omega), hpushed.text1, hpushed.text2, hpushed.text3, rfl⟩

theorem delete_accepted {s t : EditingString} {index : Int} {status : Nat} (h : delete s index = some (status, t))
    (hindex : index ≤ s.len) : status = 0 ∧ 0 ∈ s.prev1.toList ∧ 0 ∈ s.prev2.toList := by
  unfold delete at h
  rw [if_neg (by omega)] at h
  obtain ⟨u, hpush, h⟩ := Option.bind_eq_some_iff.mp h
  by_cases hneg : index < 0
  · rw [if_pos hneg] at h
    cases h
  · rw [if_neg hneg] at h
    cases h
    exact ⟨rfl, pushHistory_zeros hpush⟩

/-- **Delete is exact except at the end of the text.** There it replies OK. Below the end it copies the saved
texts, which were never written before the first edit. -/
theorem deletes_exactly_iff {s : EditingString} (hs : Receives s) {request : ClientRequest}
    (hd : request.command = letter 'd') (h0 : 0 ≤ request.index) :
    DeletesExactly s request ↔
      request.index ≠ strlen s.string.toList ∧
      (request.index < strlen s.string.toList → 0 ∈ s.prev1.toList ∧ 0 ∈ s.prev2.toList) := by
  have hzero := hs.zero
  have hlen := hzero.2
  have hdispatch : dispatch s request = delete s request.index := by
    unfold dispatch
    rw [if_neg (hd ▸ letters_ne.1), if_pos hd]
  unfold DeletesExactly answer
  rw [hdispatch]
  constructor
  · rintro ⟨response, t, hanswer, hreply⟩
    obtain ⟨⟨status, u⟩, hdelete, h⟩ := Option.bind_eq_some_iff.mp hanswer
    obtain ⟨response', hrespond, heq⟩ := Option.map_eq_some_iff.mp h
    cases heq
    constructor
    · intro hend
      obtain ⟨rfl, -⟩ := delete_accepted hdelete (by omega)
      rw [if_neg (by omega)] at hreply
      cases hrespond
      cases hreply.1
    · intro hlt
      exact (delete_accepted hdelete (by omega)).2
  · rintro ⟨hend, hsaved⟩
    by_cases hlt : request.index < strlen s.string.toList
    · obtain ⟨t, hdelete, ht⟩ := delete_inside hzero (hsaved hlt).1 (hsaved hlt).2 h0 hlt
      refine ⟨ok, t, by rw [hdelete]; rfl, ?_⟩
      rw [if_pos hlt]
      exact ⟨rfl, ht⟩
    · refine ⟨error, s, ?_, ?_⟩
      · unfold delete
        rw [if_pos (by omega)]
        rfl
      · rw [if_neg hlt]
        exact ⟨rfl, rfl⟩

theorem receives_blank (argv1 : List CChar) (h : letter '\n' ∉ text (initialString argv1).toList) :
    ∃ s, Receives s ∧ Saved s ∧ s.string = initialString argv1 ∧ s.numUndos = 0 := by
  have hs := start_blank argv1 h
  obtain ⟨s, hready, hr, hstring, -, -, -, hcount⟩ := ready_eq (start_saved hs saved_blank) (start_zero hs)
  exact ⟨s, ⟨blank, argv1, _, [], [], _, hs, rfl, hready⟩, hr.saved, hstring, hcount⟩

theorem deletes_exactly_iff_first : ∃ s, Receives s ∧ text s.string.toList = ascii "ac" ∧
    DeletesExactly s ⟨letter 'd', 0, 1⟩ := by
  have hline : letter '\n' ∉ text (initialString (ascii "ac")).toList := by decide +kernel
  obtain ⟨s, hs, hsaved, hstring, -⟩ := receives_blank (ascii "ac") hline
  have htext : text s.string.toList = ascii "ac" := by
    rw [hstring]
    decide +kernel
  have hlen : strlen s.string.toList = 2 := by
    rw [strlen, htext]
    rfl
  refine ⟨s, hs, htext, (deletes_exactly_iff hs rfl le_rfl).mpr ?_⟩
  rw [hlen]
  exact ⟨by decide, fun _ => ⟨hsaved.1, hsaved.2.1⟩⟩

/-- A delete behind the last character changes no text, and a step of the history is spent on it. -/
theorem end_deleted : ∃ s, Receives s ∧ text s.string.toList = ascii "ac" ∧ s.numUndos = 0 ∧
    (∃ t, answer s ⟨letter 'd', 2, 1⟩ = some (ok, t) ∧ text t.string.toList = ascii "ac" ∧ t.numUndos = 1) ∧
    ¬ DeletesExactly s ⟨letter 'd', 2, 1⟩ := by
  have hs := start_blank (ascii "ac") (by decide +kernel)
  have hrun : ((ready { blank with string := initialString (ascii "ac"), len := strlen (ascii "ac") }).map fun s =>
      (text s.string.toList, s.numUndos, (answer s ⟨letter 'd', 2, 1⟩).map fun r =>
        (r.1, text r.2.string.toList, r.2.numUndos))) =
      some (ascii "ac", 0, some (ok, ascii "ac", 1)) := by decide +kernel
  obtain ⟨s, hready, heq⟩ := Option.map_eq_some_iff.mp hrun
  simp only [Prod.mk.injEq] at heq
  obtain ⟨htext, hcount, hanswer⟩ := heq
  obtain ⟨⟨response, t⟩, hanswer, heq⟩ := Option.map_eq_some_iff.mp hanswer
  simp only [Prod.mk.injEq] at heq
  obtain ⟨rfl, htext', hcount'⟩ := heq
  refine ⟨s, ⟨blank, _, _, [], [], _, hs, rfl, hready⟩, htext, hcount, ⟨t, hanswer, htext', hcount'⟩, ?_⟩
  rintro ⟨response, u, hanswer', hreply⟩
  obtain ⟨rfl, -⟩ := Prod.mk.inj (Option.some.inj (hanswer.symm.trans hanswer'))
  have hlen : strlen s.string.toList = 2 := by
    rw [strlen, htext]
    rfl
  rw [hlen, if_neg (by decide)] at hreply
  cases hreply.1

/-! ## Report -/

/-- The message is the text, the count between its brackets and nothing else, and `temp` holds it. -/
def ReportsAll (s : EditingString) (request : ClientRequest) : Prop :=
  ∃ response, answer s request = some (response, s) ∧
    response.message = text s.string.toList ++ ascii (" [" ++ toString s.numUndos ++ "]") ∧
    tempFilled (text s.string.toList) s.numUndos ≤ stringLimit

theorem count_inj {n m : Int} (hn0 : 0 ≤ n) (hn3 : n ≤ undoLimit) (hm0 : 0 ≤ m) (hm3 : m ≤ undoLimit)
    (h : ascii (" [" ++ toString n ++ "]") = ascii (" [" ++ toString m ++ "]")) : n = m := by
  simp only [undoLimit] at hn3 hm3
  interval_cases n <;> interval_cases m <;> first | rfl | exact absurd h (by decide)

theorem answer_report {s : EditingString} (hs : Receives s) {request : ClientRequest}
    (hr : request.command = letter 'r') :
    answer s request = if strlen s.string.toList ≤ 71 then
      some (⟨2, reportMessage (text s.string.toList) s.numUndos⟩, s) else none := by
  have hne := letters_ne
  unfold answer dispatch
  rw [if_neg (hr ▸ hne.2.2.2.1), if_neg (hr ▸ hne.2.2.2.2.1), if_neg (hr ▸ hne.2.2.2.2.2), if_pos hr, Option.bind_some,
    respond_report hs.zero.1 hs.count.1 hs.count.2]
  split_ifs <;> rfl

theorem reportMessage_eq_iff {t : List CChar} {n : Int} (h0 : 0 ≤ n) (h3 : n ≤ undoLimit) :
    reportMessage t n = t ++ ascii (" [" ++ toString n ++ "]") ↔ t.length ≤ 71 := by
  have hcount := length_count h0 h3
  unfold reportMessage
  rw [take_report h0 h3, List.take_eq_self_iff, List.length_append, hcount]
  simp only [stringLimit]
  omega

/-- **The report is whole up to 71 characters.** From 72 on `temp` overflows. Up to there different states have
different reports. -/
theorem report_whole_iff (request : ClientRequest) (hr : request.command = letter 'r') :
    (∀ s, Receives s → (ReportsAll s request ↔ strlen s.string.toList ≤ 71)) ∧
    ∀ s s', Receives s → Receives s' → strlen s.string.toList ≤ 71 → strlen s'.string.toList ≤ 71 →
      ∀ response t t', answer s request = some (response, t) → answer s' request = some (response, t') →
      text s.string.toList = text s'.string.toList ∧ s.numUndos = s'.numUndos := by
  constructor
  · intro s hs
    obtain ⟨h0, h3⟩ := hs.count
    unfold ReportsAll
    constructor
    · rintro ⟨response, -, -, htemp⟩
      exact (tempFilled_le_iff h0 h3).mp htemp
    · intro hshort
      rw [answer_report hs hr, if_pos hshort]
      exact ⟨_, rfl, (reportMessage_eq_iff h0 h3).mpr hshort, (tempFilled_le_iff h0 h3).mpr hshort⟩
  · intro s s' hs hs' hshort hshort' response t t' hanswer hanswer'
    obtain ⟨h0, h3⟩ := hs.count
    obtain ⟨h0', h3'⟩ := hs'.count
    rw [answer_report hs hr, if_pos hshort] at hanswer
    rw [answer_report hs' hr, if_pos hshort'] at hanswer'
    cases hanswer
    have hmessage : reportMessage (text s'.string.toList) s'.numUndos = reportMessage (text s.string.toList) s.numUndos :=
      congrArg (fun r => r.1.message) (Option.some.inj hanswer')
    rw [(reportMessage_eq_iff h0 h3).mpr hshort, (reportMessage_eq_iff h0' h3').mpr hshort'] at hmessage
    obtain ⟨htext, hcount⟩ := List.append_inj' hmessage ((length_count h0' h3').trans (length_count h0 h3).symm)
    exact ⟨htext.symm, (count_inj h0' h3' h0 h3 hcount).symm⟩

theorem report_whole_iff_first : ∃ s, Receives s ∧ text s.string.toList = ascii "ac" ∧
    ReportsAll s ⟨letter 'r', 0, 0⟩ ∧ ∀ s', Receives s' → strlen s'.string.toList ≤ 71 →
      ∀ response t t', answer s ⟨letter 'r', 0, 0⟩ = some (response, t) →
      answer s' ⟨letter 'r', 0, 0⟩ = some (response, t') → text s'.string.toList = ascii "ac" := by
  have hline : letter '\n' ∉ text (initialString (ascii "ac")).toList := by decide +kernel
  obtain ⟨s, hs, -, hstring, -⟩ := receives_blank (ascii "ac") hline
  have htext : text s.string.toList = ascii "ac" := by
    rw [hstring]
    decide +kernel
  have hlen : strlen s.string.toList ≤ 71 := by
    rw [strlen, htext]
    decide
  obtain ⟨hreports, hdistinct⟩ := report_whole_iff ⟨letter 'r', 0, 0⟩ rfl
  refine ⟨s, hs, htext, (hreports s hs).mpr hlen, ?_⟩
  intro s' hs' hlen' response t t' hanswer hanswer'
  rw [← htext, (hdistinct s s' hs hs' hlen hlen' response t t' hanswer hanswer').1]

/-- 72 characters: a zero is written behind `temp`, and what would be sent of it has lost its bracket. -/
theorem long_report_cut : ∃ s, Receives s ∧ text s.string.toList = List.replicate 72 (letter 'a') ∧
    tempFilled (text s.string.toList) s.numUndos = 77 ∧
    reportMessage (text s.string.toList) s.numUndos = List.replicate 72 (letter 'a') ++ ascii " [0" ∧
    answer s ⟨letter 'r', 0, 0⟩ = none ∧ ¬ ReportsAll s ⟨letter 'r', 0, 0⟩ := by
  have hline : letter '\n' ∉ text (initialString (List.replicate 72 (letter 'a'))).toList := by decide +kernel
  obtain ⟨s, hs, -, hstring, hcount⟩ := receives_blank (List.replicate 72 (letter 'a')) hline
  have htext : text s.string.toList = List.replicate 72 (letter 'a') := by
    rw [hstring]
    decide +kernel
  have htemp : tempFilled (text s.string.toList) s.numUndos = 77 := by
    rw [htext, hcount]
    decide +kernel
  have hmessage : reportMessage (text s.string.toList) s.numUndos =
      List.replicate 72 (letter 'a') ++ ascii " [0" := by
    rw [htext, hcount]
    decide +kernel
  have hlong : ¬ strlen s.string.toList ≤ 71 := by
    rw [strlen, htext]
    decide
  refine ⟨s, hs, htext, htemp, hmessage, by rw [answer_report hs rfl, if_neg hlong], ?_⟩
  rintro ⟨response, -, -, hfits⟩
  rw [htemp] at hfits
  exact absurd hfits (by decide)

end OsCoursework.Server
