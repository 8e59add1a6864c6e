import OsCoursework.Lib.Strtol
import OsCoursework.Parking.Framing
import OsCoursework.Parking.Table

/-!
# Which lines park and leave accept

`handleClient` looks at the first three tokens of a line, and reads the third with
`atoi`. So a line can have more than the command, the plate and the number.
-/

open OsCoursework.Cstring

namespace OsCoursework.Parking

/-! ## One line -/

/-- The loop around `strtok`, with room for `room` more arguments: where the arguments are, and the
buffer at the end. -/
def tokenLoop (cmd : List CChar) (off : Nat) : Nat → List Nat × List CChar
  | 0 => ([], (strtok 0x20 cmd off).2.2)
  | room + 1 =>
    let call := strtok 0x20 cmd off
    match call.1 with
    | some token =>
      let rest := tokenLoop call.2.2 call.2.1 room
      (token :: rest.1, rest.2)
    | none => ([], call.2.2)

/-- The strings in `args`. -/
def arguments (cmd : List CChar) : List (List CChar) :=
  let (args, cmd) := tokenLoop cmd 0 3
  args.map (strAt cmd)

inductive Action where
  | invalid
  | quit
  | run (c : Command)

def dispatch : List (List CChar) → Action
  | [] => .invalid
  | name :: rest =>
    if name = ascii "quit" then .quit
    else if name = ascii "park" then
      match rest with
      | plate :: time :: _ => .run (.park plate (atoi time))
      | _ => .invalid
    else if name = ascii "leave" then
      match rest with
      | plate :: time :: _ => .run (.leave plate (atoi time))
      | _ => .invalid
    else if name = ascii "show" then .run .showTable
    else .invalid

def act (hourlyRate : ℚ) (table : List ParkingRecord) : Action → Option Reply × List ParkingRecord
  | .invalid => (some .invalidCommand, table)
  | .quit => (none, table)
  | .run c => ((c.exec hourlyRate table).1, (c.exec hourlyRate table).2)

/-- The buffer after the next line of the stream. -/
def receiveLine (cmd : List CChar) (stream : Stream) : List CChar :=
  stripNewline (fgets cmd (readChunk chunkSize stream).1)

/-- One turn of the loop of `handleClient`. -/
def handleLine (hourlyRate : ℚ) (table : List ParkingRecord) (cmd : List CChar) (stream : Stream) :
    Option Reply × List ParkingRecord :=
  let cmd := receiveLine cmd stream
  if strlen cmd = 0 then (none, table) else act hourlyRate table (dispatch (arguments cmd))

/-! ## The arguments -/

theorem tokenLoop_spec (room : Nat) (cmd : List CChar) (off : Nat) :
    (tokenLoop cmd off room).1.map (strAt (tokenLoop cmd off room).2) = (tokens 0x20 (strAt cmd off)).take room ∧
      ∀ q, q + (strAt cmd q).length ≤ off → strAt (tokenLoop cmd off room).2 q = strAt cmd q := by
  induction room generalizing cmd off with
  | zero =>
    refine ⟨rfl, fun q hq => ?_⟩
    cases htokens : tokens 0x20 (strAt cmd off) with
    | nil =>
      obtain ⟨off', hcall⟩ := strtok_none htokens
      rw [tokenLoop, hcall]
    | cons w ws =>
      obtain ⟨start, off', cmd', hcall, -, -, -, -, hkeep⟩ := strtok_some htokens
      rw [tokenLoop, hcall]
      exact hkeep q hq
  | succ room ih =>
    cases htokens : tokens 0x20 (strAt cmd off) with
    | nil =>
      obtain ⟨off', hcall⟩ := strtok_none htokens
      simp only [tokenLoop, hcall, List.map_nil, List.take_nil, implies_true, and_true]
    | cons w ws =>
      obtain ⟨start, off', cmd', hcall, hstart, hstop, hw, hws, hkeep⟩ := strtok_some htokens
      obtain ⟨hrest, hkeep'⟩ := ih cmd' off'
      -- The token is in front of where the next call starts.
      have htoken : strAt (tokenLoop cmd' off' room).2 start = w := by
        rw [hkeep' start (by rwa [hw]), hw]
      simp only [tokenLoop, hcall, List.map_cons, htoken, hrest, hws, List.take_succ_cons, true_and]
      intro q hq
      rw [hkeep' q (by rw [hkeep q hq]; omega), hkeep q hq]

theorem arguments_eq (cmd : List CChar) : arguments cmd = (tokens 0x20 (text cmd)).take 3 :=
  (tokenLoop_spec 3 cmd 0).1

/-- The stream goes on with this line, in any segments. -/
structure Stream.StartsWith (stream : Stream) (line : List CChar) : Prop where
  segments : [] ∉ stream.segments
  contents : ∃ rest, stream.contents = line ++ newline :: rest

theorem text_receiveLine {line : List CChar} {stream : Stream} (hlen : line.length ≤ 254) (h0 : 0 ∉ line)
    (hnl : newline ∉ line) (cmd : List CChar) (hstream : stream.StartsWith line) :
    text (receiveLine cmd stream) = lineText line := by
  have hchunk : 0 ∉ line ++ [newline] := by
    rw [List.mem_append, not_or]
    exact ⟨h0, by decide⟩
  have hroom : line.length < chunkSize := Nat.lt_succ_of_le hlen
  obtain ⟨rest, hcontents⟩ := hstream.contents
  rw [receiveLine, readChunk, Segments.fill_eq hstream.segments, hcontents, Lines.fill_line hnl hroom,
    ← lineText_newline line]
  exact command_eq hchunk cmd

/-! ## The grammar -/

inductive Verb where
  | park
  | leave

def Verb.word : Verb → List CChar
  | park => ascii "park"
  | leave => ascii "leave"

def Verb.command : Verb → List CChar → Int → Command
  | park => .park
  | leave => .leave

/-- 7 or 8 digits and capital letters, at most one of them a dash. -/
structure IsPlate (plate : List CChar) : Prop where
  length : plate.length = 7 ∨ plate.length = 8
  chars : ∀ c ∈ plate, c = 0x2d ∨ isdigit c = true ∨ isupper c = true
  dashes : plate.count 0x2d ≤ 1

/-- The line is the word, a plate and a number, with spaces between them. -/
def Grammar (verb : Verb) (line : List CChar) : Prop :=
  ∃ plate number, tokens 0x20 line = [verb.word, plate, number] ∧ IsPlate plate ∧
    (∀ c ∈ number, isDigit c = true) ∧ 1 ≤ numeral number ∧ numeral number ≤ 86400

/-- The server takes the buffer for a request that is valid. -/
def Accepts (verb : Verb) (cmd : List CChar) : Prop :=
  ∃ plate time, dispatch (arguments cmd) = .run (verb.command plate time) ∧ isValidPlate plate = true ∧
    0 < time ∧ time ≤ 86400

/-- What the code looks at: the first three tokens in front of the first carriage return. -/
def Checked (verb : Verb) (line : List CChar) : Prop :=
  ∃ plate time, (tokens 0x20 (lineText line)).take 3 = [verb.word, plate, time] ∧ IsPlate plate ∧
    0 < atoi time ∧ atoi time ≤ 86400

/-- No carriage return, at most three tokens, and a third token of digits that stand for an int. -/
structure Plain (line : List CChar) : Prop where
  no_return : carriageReturn ∉ line
  no_more : (tokens 0x20 line).length ≤ 3
  digits : ∀ t, (tokens 0x20 line)[2]? = some t → (∀ c ∈ t, isDigit c = true) ∧ numeral t < 2 ^ 31

theorem plateLoop_iff {l : List CChar} {dashCount : Nat} (hdash : dashCount ≤ 1) : plateLoop l dashCount = true ↔
    (∀ c ∈ l, c = 0x2d ∨ isdigit c = true ∨ isupper c = true) ∧ dashCount + l.count 0x2d ≤ 1 := by
  induction l generalizing dashCount with
  | nil => simpa [plateLoop] using hdash
  | cons c l ih =>
    rw [plateLoop, List.forall_mem_cons]
    by_cases hc : c = 0x2d
    · subst hc
      rw [if_pos rfl, List.count_cons_self]
      by_cases hone : dashCount + 1 > 1
      · rw [if_pos hone]
        refine iff_of_false Bool.false_ne_true fun h => ?_
        have hcount := h.2
        omega
      · rw [if_neg hone, ih (not_lt.mp hone), Nat.add_assoc, Nat.add_comm 1]
        exact and_congr_left' ⟨fun h => ⟨.inl rfl, h⟩, And.right⟩
    · rw [if_neg hc, List.count_cons_of_ne hc]
      by_cases hok : ¬ isdigit c = true ∧ ¬ isupper c = true
      · rw [if_pos hok]
        refine iff_of_false Bool.false_ne_true fun h => ?_
        rcases h.1.1 with hdash' | hdigit | hupper
        · exact hc hdash'
        · exact hok.1 hdigit
        · exact hok.2 hupper
      · rw [if_neg hok, ih hdash]
        have hchar : isdigit c = true ∨ isupper c = true := by
          by_contra h
          exact hok (not_or.mp h)
        exact and_congr_left' ⟨fun h => ⟨.inr hchar, h⟩, And.right⟩

theorem isValidPlate_iff {plate : List CChar} (h0 : 0 ∉ plate) : isValidPlate plate = true ↔ IsPlate plate := by
  rw [isValidPlate, strlen, text_eq_self h0]
  by_cases hlen : plate.length < 7 ∨ plate.length > 8
  · rw [if_pos hlen]
    refine iff_of_false Bool.false_ne_true fun h => ?_
    have hlength := h.length
    omega
  · rw [if_neg hlen, plateLoop_iff (Nat.zero_le 1), Nat.zero_add]
    exact ⟨fun h => ⟨by omega, h.1, h.2⟩, fun h => ⟨h.chars, h.dashes⟩⟩

/-! ## What is accepted -/

theorem dispatch_eq_run {verb : Verb} {args : List (List CChar)} {plate : List CChar} {time : Int} :
    dispatch args = .run (verb.command plate time) ↔ ∃ t more, args = verb.word :: plate :: t :: more ∧ atoi t = time := by
  constructor
  · intro h
    rcases args with _ | ⟨name, _ | ⟨p, _ | ⟨t, more⟩⟩⟩
    · cases h
    · simp only [dispatch] at h
      split_ifs at h
      all_goals cases verb <;> cases h
    · simp only [dispatch] at h
      split_ifs at h
      all_goals cases verb <;> cases h
    · simp only [dispatch] at h
      split_ifs at h with hq hp hl
      all_goals cases verb <;> cases h
      · exact ⟨t, more, by rw [hp, Verb.word], rfl⟩
      · exact ⟨t, more, by rw [hl, Verb.word], rfl⟩
  · rintro ⟨t, more, rfl, rfl⟩
    cases verb <;> rfl

theorem accepts_iff (verb : Verb) {line : List CChar} {stream : Stream} (hlen : line.length ≤ 254) (h0 : 0 ∉ line)
    (hnl : newline ∉ line) (cmd : List CChar) (hstream : stream.StartsWith line) :
    Accepts verb (receiveLine cmd stream) ↔ Checked verb line := by
  have htext := text_receiveLine hlen h0 hnl cmd hstream
  have hplate : ∀ plate ∈ (tokens 0x20 (lineText line)).take 3, isValidPlate plate = true ↔ IsPlate plate := by
    intro plate hmem
    apply isValidPlate_iff
    intro hzero
    have hin := (mem_tokens_iff.mp ⟨plate, List.mem_of_mem_take hmem, hzero⟩).1
    exact h0 ((List.takeWhile_prefix _).subset hin)
  rw [Accepts, Checked]
  simp only [dispatch_eq_run, arguments_eq, htext]
  constructor
  · rintro ⟨plate, time, ⟨t, more, hargs, rfl⟩, hvalid, h1, hmax⟩
    obtain rfl : more = [] := by
      have hthree := congrArg List.length hargs
      rw [List.length_take, List.length_cons, List.length_cons, List.length_cons] at hthree
      exact List.length_eq_zero_iff.mp (by omega)
    exact ⟨plate, t, hargs, (hplate plate (by rw [hargs]; simp)).mp hvalid, h1, hmax⟩
  · rintro ⟨plate, t, hargs, hvalid, h1, hmax⟩
    exact ⟨plate, _, ⟨t, [], hargs, rfl⟩, (hplate plate (by rw [hargs]; simp)).mpr hvalid, h1, hmax⟩

theorem lineText_eq_self {line : List CChar} (hcr : carriageReturn ∉ line) (hnl : newline ∉ line) :
    lineText line = line := by
  apply List.takeWhile_eq_self_iff.mpr
  intro c hc
  apply decide_eq_true
  rintro (rfl | rfl)
  · exact hcr hc
  · exact hnl hc

theorem Grammar.no_return {verb : Verb} {line : List CChar} (h : Grammar verb line) : carriageReturn ∉ line := by
  obtain ⟨plate, number, htokens, hplate, hdigits, -, -⟩ := h
  intro hcr
  obtain ⟨w, hw, hin⟩ := mem_tokens_iff.mpr ⟨hcr, show carriageReturn ≠ 0x20 by decide⟩
  simp only [htokens, List.mem_cons, List.not_mem_nil, or_false] at hw
  rcases hw with rfl | rfl | rfl
  · cases verb <;> exact absurd hin (by decide)
  · exact absurd (hplate.chars _ hin) (by decide)
  · exact absurd (hdigits _ hin) (by decide)

theorem grammar_iff {verb : Verb} {line : List CChar} (hnl : newline ∉ line) :
    Grammar verb line ↔ Plain line ∧ Checked verb line := by
  constructor
  · intro h
    have hcr := h.no_return
    obtain ⟨plate, number, htokens, hplate, hdigits, h1, hmax⟩ := h
    have hint : numeral number < 2 ^ 31 := by omega
    refine ⟨⟨hcr, (congrArg List.length htokens).le, fun t ht => ?_⟩, plate, number, ?_, hplate, ?_⟩
    · rw [htokens] at ht
      obtain rfl : number = t := Option.some.inj ht
      exact ⟨hdigits, hint⟩
    · rw [lineText_eq_self hcr hnl, htokens]
      rfl
    · rw [atoi_digits hdigits hint]
      omega
  · rintro ⟨hplain, plate, t, hargs, hplate, h1, hmax⟩
    rw [lineText_eq_self hplain.no_return hnl, List.take_of_length_le hplain.no_more] at hargs
    obtain ⟨hdigits, hint⟩ := hplain.digits t (by rw [hargs]; rfl)
    rw [atoi_digits hdigits hint] at h1 hmax
    exact ⟨plate, t, hargs, hplate, hdigits, by omega, by omega⟩

/-! ## What changes the table -/

theorem act_unchanged {action : Action} (h : ∀ verb plate time, action = .run (Verb.command verb plate time) →
    ¬ (isValidPlate plate = true ∧ 0 < time ∧ time ≤ 86400)) (hourlyRate : ℚ) (table : List ParkingRecord) :
    (act hourlyRate table action).2 = table := by
  have hreject (verb : Verb) (plate : List CChar) (time : Int) (hrun : action = .run (verb.command plate time)) :
      ¬ isValidPlate plate = true ∨ time ≤ 0 ∨ time > 86400 := by
    by_contra hgood
    simp only [not_or, not_not, not_le, gt_iff_lt, not_lt] at hgood
    exact h verb plate time hrun hgood
  rcases action with _ | _ | c
  · rfl
  · rfl
  · rcases c with ⟨plate, time⟩ | ⟨plate, time⟩ | _
    · rw [act, Command.exec, park, if_pos (hreject .park plate time rfl)]
    · rw [act, Command.exec, leave, if_pos (hreject .leave plate time rfl)]
    · rfl

/-- **Which lines are valid requests.** The code accepts a line when its first three tokens are the word, a
plate and a number for `atoi`. Every other line leaves the table as it is. For plain lines that is the
grammar. -/
theorem accepts_checked {line : List CChar} {stream : Stream} (hlen : line.length ≤ 254) (h0 : 0 ∉ line)
    (hnl : newline ∉ line) (cmd : List CChar) (hstream : stream.StartsWith line) :
    (∀ verb, Accepts verb (receiveLine cmd stream) ↔ Checked verb line) ∧
      ((∀ verb, ¬ Checked verb line) → ∀ hourlyRate table, (handleLine hourlyRate table cmd stream).2 = table) ∧
      ∀ verb, Grammar verb line ↔ Plain line ∧ Checked verb line := by
  have haccepts (verb : Verb) := accepts_iff verb hlen h0 hnl cmd hstream
  refine ⟨haccepts, fun hnone hourlyRate table => ?_, fun verb => grammar_iff hnl⟩
  unfold handleLine
  by_cases hempty : strlen (receiveLine cmd stream) = 0
  · simp only [hempty, if_true]
  · simp only [hempty, if_false]
    apply act_unchanged
    intro verb plate time hrun hvalid
    exact hnone verb ((haccepts verb).mp ⟨plate, time, hrun, hvalid⟩)

theorem isPlate_sample : IsPlate (ascii "ABC-1234") := ⟨by decide, by decide, by decide⟩

theorem accepts_checked_sample :
    Accepts .park (receiveLine [] (fdopen [ascii "park ABC", ascii "-1234 100\nshow\n"])) := by
  have hchecked : Checked .park (ascii "park ABC-1234 100") :=
    ⟨ascii "ABC-1234", ascii "100", by decide +kernel, isPlate_sample, by decide +kernel, by decide +kernel⟩
  have hlen : (ascii "park ABC-1234 100").length ≤ 254 := by decide
  have hstream : Stream.StartsWith (fdopen [ascii "park ABC", ascii "-1234 100\nshow\n"]) (ascii "park ABC-1234 100") :=
    ⟨by decide +kernel, ascii "show\n", by decide +kernel⟩
  exact ((accepts_checked hlen (by decide +kernel) (by decide +kernel) [] hstream).1 .park).mpr hchecked

/-- The number is followed by letters, and the line goes on. -/
theorem trailing_accepted :
    ¬ ∀ (verb : Verb) (line cmd : List CChar) (stream : Stream), line.length ≤ 254 → 0 ∉ line → newline ∉ line →
        stream.StartsWith line → Accepts verb (receiveLine cmd stream) → Grammar verb line := by
  intro h
  have htokens : tokens 0x20 (ascii "park ABC-1234 12abc xyz") =
      [ascii "park", ascii "ABC-1234", ascii "12abc", ascii "xyz"] := by decide +kernel
  have hlen : (ascii "park ABC-1234 12abc xyz").length ≤ 254 := by decide
  have h0 : 0 ∉ ascii "park ABC-1234 12abc xyz" := by decide +kernel
  have hnl : newline ∉ ascii "park ABC-1234 12abc xyz" := by decide +kernel
  have hchecked : Checked .park (ascii "park ABC-1234 12abc xyz") :=
    ⟨ascii "ABC-1234", ascii "12abc", by decide +kernel, isPlate_sample, by decide +kernel, by decide +kernel⟩
  have hstream : Stream.StartsWith (fdopen [ascii "park ABC-1234 12abc xyz\n"]) (ascii "park ABC-1234 12abc xyz") :=
    ⟨by decide +kernel, [], by decide +kernel⟩
  have haccepts := (accepts_iff .park hlen h0 hnl [] hstream).mpr hchecked
  obtain ⟨plate, number, hgrammar, -⟩ := h .park _ [] _ hlen h0 hnl hstream haccepts
  have hcount := congrArg List.length (htokens.symm.trans hgrammar)
  simp at hcount

end OsCoursework.Parking
