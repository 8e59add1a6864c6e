import OsCoursework.Stash.Shells
import OsCoursework.Stash.Words

/-!
# What is read of the words

The reads of the array of words, with the number of words of the current line and what they find
there. Nobody looks at that number before the first word is read, and `exit` not before the
second. A line whose only word begins with `&` leaves no name for `execvp`.
-/

open OsCoursework.Cstring OsCoursework.Transition OsCoursework.Words

namespace OsCoursework.Stash

/-! ## The reads -/

inductive Access where
  /-- A read of `words[index]`, when the line has `count` words. -/
  | read (index : Int) (count : Nat) (slot : Slot)
  /-- The first argument of `execvp`. -/
  | program (name : Slot)
  deriving DecidableEq

/-- Set, and not freed since. -/
def Slot.Live (slot : Slot) : Prop := slot ≠ .unset ∧ slot ≠ .freed

def Access.Valid : Access → Prop
  | .read index count slot => 0 ≤ index ∧ index < count ∧ slot.Live
  | .program name => ∃ str, name = .word str

/-- Nothing was ever set before the array. -/
def slotAt (words : Words) (index : Int) : Slot := if 0 ≤ index then words index.toNat else .unset

def readAt (words : Words) (args : Nat) (index : Int) : Access := .read index args (slotAt words index)

/-- The loop that frees the words. -/
def frees (words : Words) (args : Nat) : List Access := (List.range args).map fun i : Nat => readAt words args i

def isBackground (words : Words) (args : Nat) : Bool :=
  (slotAt words ((args : Int) - 1)).str.any fun str => str.head? = some 0x26

/-- `words[count] = NULL` -/
def terminated (words : Words) (args : Nat) : Words :=
  Function.update words (if isBackground words args then args - 1 else args) .null

def cdReads (words : Words) (args : Nat) : List Access :=
  (if args = 2 then [readAt words args 1] else []) ++ frees words args

def exitReads (words : Words) (args : Nat) : List Access :=
  readAt words args 1 :: if args = 2 ∧ (words 1).str.any scansInt then [] else frees words args

/-- Those of the parent up to its wait, and the name that the child gives to `execvp`. -/
def commandReads (words : Words) (args : Nat) (forks : Bool) : List Access :=
  readAt words args (args - 1) ::
    ((if forks then [.program (terminated words args 0)] else []) ++
      if isBackground words args then frees (terminated words args) args else [])

def lineReads (words : Words) (line : List CChar) (forks : Bool) : List Access :=
  if line.head? = some 0x0a then []
  else
    let (args, words) := parseCommand line words
    readAt words args 0 ::
      if words 0 = .word (ascii "cd") then cdReads words args
      else if words 0 = .word (ascii "exit") then exitReads words args
      else commandReads words args forks

def accesses (s : State) : Event → List Access
  | .line pid line _ forks =>
    match s.process pid with
    | .reading sh => lineReads sh.words line forks
    | _ => []
  | .execvp pid found =>
    match s.process pid with
    | .child sh args =>
      .program (sh.words 0) :: if found then [] else readAt sh.words args 0 :: frees sh.words args
    | _ => []
  | .wake pid _ =>
    match s.process pid with
    | .waiting _ sh args => frees sh.words args
    | _ => []
  | _ => []

/-- The line is empty, or has a word, is more than `exit`, and is not just a word that begins with `&`. -/
def Sound (line : List CChar) (forks : Bool) : Prop :=
  line.head? = some 0x0a ∨
    lineWords (text line) ≠ [] ∧ lineWords (text line) ≠ [ascii "exit"] ∧
      (forks = true → ∀ word, lineWords (text line) = [word] → word.length ≤ 99 → word.head? ≠ some 0x26)

instance (line : List CChar) (forks : Bool) : Decidable (Sound line forks) :=
  decidable_of_iff (line.head? = some 0x0a ∨
    lineWords (text line) ≠ [] ∧ lineWords (text line) ≠ [ascii "exit"] ∧
      (forks = true → ∀ word ∈ lineWords (text line), lineWords (text line) = [word] →
        word.length ≤ 99 → word.head? ≠ some 0x26)) (by
    refine or_congr_right (and_congr_right fun _ => and_congr_right fun _ => imp_congr_right fun _ => ?_)
    exact ⟨fun h word heq => h word (by simp [heq]) heq, fun h word _ heq => h word heq⟩)

def SoundLine : Event → Prop
  | .line _ line _ forks => Sound line forks
  | _ => True

instance : (e : Event) → Decidable (SoundLine e)
  | .line _ line _ forks => inferInstanceAs (Decidable (Sound line forks))
  | .execvp _ _ | .wake _ _ | .ends _ | .eof _ => isTrue trivial

/-! ## The words of a line -/

variable {line : List CChar} {words ws : Words} {args count turns : Nat} {forks : Bool} {word : List CChar}

theorem parseLoop_count (turns : Nat) (line : List CChar) (count : Nat) (ws : Words) :
    count ≤ (parseLoop turns line count ws).1 := by
  induction turns generalizing line count ws with
  | zero => exact le_rfl
  | succ turns ih =>
    by_cases hnone : firstWord isspace line = []
    · rw [parseLoop_done hnone]
    · rw [parseLoop_cut hnone]
      exact (Nat.le_succ count).trans (ih _ _ _)

theorem parseLoop_count_eq_iff : (parseLoop (turns + 1) line count ws).1 = count ↔ firstWord isspace line = [] := by
  by_cases hnone : firstWord isspace line = []
  · rw [parseLoop_done hnone]
    exact iff_of_true rfl hnone
  · refine iff_of_false (fun heq => ?_) hnone
    rw [parseLoop_cut hnone] at heq
    have hmore := parseLoop_count turns (afterScan line) (count + 1)
      (Function.update ws count (.word ((firstWord isspace line).take 99)))
    omega

theorem firstWord_eq_nil_iff : firstWord isspace line = [] ↔ lineWords line = [] := by
  have hwords : lineWords line = _ := words_eq line
  by_cases hnone : firstWord isspace line = []
  · rw [if_pos hnone] at hwords
    exact iff_of_true hnone hwords
  · rw [if_neg hnone] at hwords
    exact iff_of_false hnone (hwords ▸ List.cons_ne_nil _ _)

theorem firstWord_cut_ne_nil (hlong : 99 < (firstWord isspace line).length) :
    firstWord isspace (afterScan line) ≠ [] := by
  have hlen : ((firstWord isspace line).take 99).length = 99 := List.length_take_of_le hlong.le
  have hsplit : line.dropWhile isspace = firstWord isspace line ++ afterWord isspace line :=
    (List.takeWhile_append_dropWhile ..).symm
  rw [afterScan, hlen, ← List.drop_drop, drop_takeWhile, hsplit, List.drop_append_of_le_length hlong.le]
  have hrest : (firstWord isspace line).drop 99 ≠ [] := by
    rw [Ne, List.drop_eq_nil_iff]
    omega
  obtain ⟨c, rest, hcons⟩ := List.exists_cons_of_ne_nil hrest
  have hc : isspace c = false := by
    have hmem : c ∈ firstWord isspace line := List.mem_of_mem_drop (hcons ▸ List.mem_cons_self)
    simpa using List.mem_takeWhile_imp hmem
  rw [hcons]
  simp [firstWord, hc]

theorem parsed_word (line : List CChar) (ws : Words) {i : Nat} (hi : i < (parseCommand line ws).1) :
    ∃ str, (parseCommand line ws).2 i = .word str := by
  obtain ⟨str, hstr, -⟩ := (parseLoop_short maxWords (text line) 0 ws).2 i (Nat.zero_le i) hi
  exact ⟨str, hstr⟩

theorem parsed_none (hnone : lineWords (text line) = []) (ws : Words) : (parseCommand line ws).1 = 0 :=
  parseLoop_count_eq_iff.mpr (firstWord_eq_nil_iff.mpr hnone)

theorem parsed_first {rest : List (List CChar)} (hwords : lineWords (text line) = word :: rest) (ws : Words) :
    1 ≤ (parseCommand line ws).1 ∧ (parseCommand line ws).2 0 = .word (word.take 99) ∧
      ((parseCommand line ws).1 = 1 ↔ rest = [] ∧ word.length ≤ 99) := by
  have hne : firstWord isspace (text line) ≠ [] := by
    rw [Ne, firstWord_eq_nil_iff, hwords]
    exact List.cons_ne_nil _ _
  have heq : lineWords (text line) = _ := words_eq (text line)
  rw [hwords, if_neg hne, List.cons.injEq] at heq
  obtain ⟨rfl, rfl⟩ := heq
  have hparse : parseLoop (513 + 1) (text line) 0 ws = _ := parseLoop_cut hne
  change 1 ≤ (parseLoop (513 + 1) (text line) 0 ws).1 ∧ (parseLoop (513 + 1) (text line) 0 ws).2 0 = _ ∧
    ((parseLoop (513 + 1) (text line) 0 ws).1 = 1 ↔ _)
  rw [hparse]
  refine ⟨parseLoop_count _ _ _ _, ?_, ?_⟩
  · exact ((parseLoop_short 513 _ 1 _).1 0 Nat.zero_lt_one).trans (Function.update_self _ _ _)
  · rw [parseLoop_count_eq_iff]
    by_cases hlen : (firstWord isspace (text line)).length ≤ 99
    · rw [afterScan_short hlen, firstWord_eq_nil_iff]
      exact ⟨fun hnil => ⟨hnil, hlen⟩, fun h => h.1⟩
    · exact iff_of_false (firstWord_cut_ne_nil (not_le.mp hlen)) fun h => hlen h.2

/-! ## Lines -/

/-- Every word of the line is set. -/
def Loaded (words : Words) (args : Nat) : Prop := ∀ i < args, ∃ str, words i = .word str

/-- No word of the line was freed, and one of them may be null. -/
def Kept (words : Words) (args : Nat) : Prop := ∀ i < args, (words i).Live

theorem Loaded.kept (h : Loaded words args) : Kept words args := by
  intro i hi
  obtain ⟨str, hstr⟩ := h i hi
  rw [hstr]
  exact ⟨nofun, nofun⟩

theorem Kept.set_null (h : Kept words args) (i : Nat) : Kept (Function.update words i .null) args := by
  intro k hk
  by_cases hki : k = i
  · rw [hki, Function.update_self]
    exact ⟨nofun, nofun⟩
  · rw [Function.update_of_ne hki]
    exact h k hk

theorem readAt_valid_iff {index : Int} : (readAt words args index).Valid ↔
    0 ≤ index ∧ index < args ∧ (slotAt words index).Live := Iff.rfl

theorem Kept.readAt_valid (h : Kept words args) {i : Nat} (hi : i < args) : (readAt words args i).Valid :=
  ⟨Int.natCast_nonneg i, Int.ofNat_lt.mpr hi, h i hi⟩

theorem Kept.frees_valid (h : Kept words args) : ∀ a ∈ frees words args, a.Valid := by
  intro a ha
  obtain ⟨i, hi, rfl⟩ := List.mem_map.mp ha
  exact h.readAt_valid (List.mem_range.mp hi)

theorem Loaded.last_valid (h : Loaded words args) (hargs : 1 ≤ args) : (readAt words args (args - 1)).Valid := by
  have hlast : ((args : Int) - 1) = ((args - 1 : Nat) : Int) := by omega
  rw [hlast]
  exact h.kept.readAt_valid (by omega)

theorem isBackground_one {str : List CChar} (hword : words 0 = .word str) :
    isBackground words 1 = true ↔ str.head? = some 0x26 := by
  unfold isBackground slotAt
  simp [hword, Slot.str]

theorem terminated_zero (h : Loaded words args) (hargs : 1 ≤ args) :
    (∃ str, terminated words args 0 = .word str) ↔ ¬ (args = 1 ∧ isBackground words args = true) := by
  obtain ⟨str, hstr⟩ := h 0 (by omega)
  unfold terminated
  by_cases hbad : args = 1 ∧ isBackground words args = true
  · refine iff_of_false ?_ (not_not.mpr hbad)
    rw [if_pos hbad.2, hbad.1]
    rintro ⟨str', hstr'⟩
    cases hstr'
  · refine iff_of_true ⟨str, ?_⟩ hbad
    rw [Function.update_of_ne, hstr]
    split_ifs with hback
    · have hne : args ≠ 1 := fun h1 => hbad ⟨h1, hback⟩
      omega
    · omega

theorem commandReads_valid_iff (h : Loaded words args) (hargs : 1 ≤ args) :
    (∀ a ∈ commandReads words args forks, a.Valid) ↔
      (forks = true → ¬ (args = 1 ∧ isBackground words args = true)) := by
  unfold commandReads
  rw [← terminated_zero h hargs]
  constructor
  · intro hvalid hforks
    exact hvalid (.program (terminated words args 0)) (by simp [hforks])
  · intro hname a ha
    rcases List.mem_cons.mp ha with rfl | ha
    · exact h.last_valid hargs
    · rcases List.mem_append.mp ha with ha | ha
      · split_ifs at ha with hforks
        · rw [List.mem_singleton.mp ha]
          exact hname hforks
        · cases ha
      · split_ifs at ha
        · exact (h.kept.set_null _).frees_valid a ha
        · cases ha

theorem exitReads_valid_iff (h : Loaded words args) : (∀ a ∈ exitReads words args, a.Valid) ↔ 2 ≤ args := by
  unfold exitReads
  constructor
  · intro hvalid
    have hread := (readAt_valid_iff.mp (hvalid _ List.mem_cons_self)).2.1
    omega
  · intro hargs a ha
    rcases List.mem_cons.mp ha with rfl | ha
    · exact h.kept.readAt_valid (i := 1) (by omega)
    · split_ifs at ha
      · cases ha
      · exact h.kept.frees_valid a ha

theorem cdReads_valid (h : Loaded words args) : ∀ a ∈ cdReads words args, a.Valid := by
  unfold cdReads
  intro a ha
  rcases List.mem_append.mp ha with ha | ha
  · split_ifs at ha with hargs
    · rw [List.mem_singleton.mp ha]
      exact h.kept.readAt_valid (i := 1) (by omega)
    · cases ha
  · exact h.kept.frees_valid a ha

theorem take_eq_short {short : List CChar} (hshort : short.length < 99) : word.take 99 = short ↔ word = short := by
  constructor
  · intro h
    have hlen := congrArg List.length h
    rw [List.length_take] at hlen
    rwa [List.take_of_length_le (by omega)] at h
  · rintro rfl
    exact List.take_of_length_le hshort.le

theorem parsed_loaded (line : List CChar) (ws : Words) : Loaded (parseCommand line ws).2 (parseCommand line ws).1 :=
  fun _ hi => parsed_word line ws hi

/-- **The reads for one line.** -/
theorem lineReads_valid_iff (line : List CChar) (ws : Words) (forks : Bool) :
    (∀ a ∈ lineReads ws line forks, a.Valid) ↔ Sound line forks := by
  unfold lineReads Sound
  by_cases hempty : line.head? = some 0x0a
  · simp [hempty]
  rw [if_neg hempty]
  simp only [hempty, false_or, List.forall_mem_cons]
  have hloaded := parsed_loaded line ws
  cases hwords : lineWords (text line) with
  | nil =>
    have hzero := parsed_none hwords ws
    refine iff_of_false (fun h => ?_) (by simp)
    have hread := (readAt_valid_iff.mp h.1).2.1
    omega
  | cons word rest =>
    obtain ⟨hpos, hfirst, hone⟩ := parsed_first hwords ws
    generalize (parseCommand line ws).1 = args at hloaded hpos hone
    generalize (parseCommand line ws).2 = words at hloaded hfirst
    have hhead : (readAt words args 0).Valid := hloaded.kept.readAt_valid hpos
    have hcd : words 0 = .word (ascii "cd") ↔ word = ascii "cd" := by
      rw [hfirst, Slot.word.injEq, take_eq_short (by decide)]
    have hexit : words 0 = .word (ascii "exit") ↔ word = ascii "exit" := by
      rw [hfirst, Slot.word.injEq, take_eq_short (by decide)]
    simp only [hhead, true_and, hcd, hexit]
    split_ifs with hiscd hisexit
    · refine iff_of_true (cdReads_valid hloaded) ⟨List.cons_ne_nil _ _, ?_, fun _ word' heq _ => ?_⟩
      · rw [hiscd]
        exact fun heq => absurd (List.cons.inj heq).1 (by decide)
      · rw [← (List.cons.inj heq).1, hiscd]
        decide
    · rw [exitReads_valid_iff hloaded]
      have hlen : word.length ≤ 99 := by
        rw [hisexit]
        decide
      constructor
      · intro hargs
        refine ⟨List.cons_ne_nil _ _, fun heq => ?_, fun _ word' heq _ => ?_⟩
        · have hargs' := hone.mpr ⟨(List.cons.inj heq).2, hlen⟩
          omega
        · rw [← (List.cons.inj heq).1, hisexit]
          decide
      · rintro ⟨-, hne, -⟩
        by_contra hargs
        have hrest := (hone.mp (by omega)).1
        exact hne (by rw [hisexit, hrest])
    · rw [commandReads_valid_iff hloaded hpos]
      have hbad : args = 1 ∧ isBackground words args = true ↔
          rest = [] ∧ word.length ≤ 99 ∧ word.head? = some 0x26 := by
        rw [← and_assoc, ← hone]
        refine and_congr_right fun hargs => ?_
        rw [hargs, isBackground_one hfirst, List.take_of_length_le (hone.mp hargs).2]
      rw [hbad]
      constructor
      · intro h
        refine ⟨List.cons_ne_nil _ _, fun heq => hisexit (List.cons.inj heq).1, fun hforks word' heq hlen hamp => ?_⟩
        obtain ⟨rfl, hrest⟩ := List.cons.inj heq
        exact h hforks ⟨hrest, hlen, hamp⟩
      · rintro ⟨-, -, h⟩ hforks ⟨rfl, hlen, hamp⟩
        exact h hforks word rfl hlen hamp

theorem sound_command (h : Sound line forks) (hempty : ¬ line.head? = some 0x0a) {ws : Words}
    (hparse : parseCommand line ws = (args, words)) :
    Loaded words args ∧ 1 ≤ args ∧ ∃ command, words 0 = .word command ∧ (command = ascii "exit" → 2 ≤ args) ∧
      (command ≠ ascii "cd" → command ≠ ascii "exit" → forks = true →
        ¬ (args = 1 ∧ isBackground words args = true)) := by
  have hloaded := parsed_loaded line ws
  have hreads := (lineReads_valid_iff line ws forks).mpr h
  unfold lineReads at hreads
  rw [if_neg hempty] at hreads
  simp only [hparse, List.forall_mem_cons] at hloaded hreads
  obtain ⟨hfirst, hreads⟩ := hreads
  have hargs : 1 ≤ args := by
    have hcount := (readAt_valid_iff.mp hfirst).2.1
    omega
  obtain ⟨command, hword⟩ := hloaded 0 hargs
  simp only [hword, Slot.word.injEq] at hreads
  refine ⟨hloaded, hargs, command, hword, fun hexit => ?_, fun hcd hexit => ?_⟩
  · rw [if_neg (by rw [hexit]; decide), if_pos hexit] at hreads
    exact (exitReads_valid_iff hloaded).mp hreads
  · rw [if_neg hcd, if_neg hexit] at hreads
    exact (commandReads_valid_iff hloaded hargs).mp hreads

theorem sound_steps {s : State} {pid : Nat} {sh : Shell} (hpid : s.process pid = .reading sh) (hline : Delivered line)
    (h : Sound line forks) (found : Bool) : ∃ s', exec s (.line pid line found forks) = some s' := by
  simp only [exec, hpid, if_pos hline]
  unfold mainLoop
  by_cases hempty : line.head? = some 0x0a
  · exact ⟨_, if_pos hempty⟩
  · have hcount := parsed_count_lt hline sh.words
    cases hparse : parseCommand line sh.words with
    | mk args words =>
      obtain ⟨hloaded, hargs, command, hword, hexit, -⟩ := sound_command h hempty hparse
      rw [hparse] at hcount
      simp only [if_neg hempty, hword, State.follow]
      split_ifs with hiscd hisexit
      · unfold runCd
        by_cases htwo : args = 2
        · obtain ⟨str, hstr⟩ := hloaded 1 (by omega)
          rw [if_neg (not_not.mpr htwo)]
          simp only [hstr, Slot.str, Option.map_some]
          exact ⟨_, rfl⟩
        · exact ⟨_, if_pos htwo⟩
      · obtain ⟨str, hstr⟩ := hloaded 1 (hexit hisexit)
        unfold runExit
        simp only [hstr, State.follow]
        exact ⟨_, rfl⟩
      · obtain ⟨str, hstr⟩ := hloaded (args - 1) (by omega)
        unfold runCommand
        simp only [hstr, Slot.str, Option.bind_some]
        have hroom : (if decide (str.head? = some 0x26) = true then args - 1 else args) < maxWords := by
          split_ifs <;> omega
        rw [if_pos hroom]
        split_ifs <;> exact ⟨_, rfl⟩

/-! ## All runs -/

/-- What a process that has read a line still looks at. -/
def Process.Ready : Process → Prop
  | .waiting _ sh args => Kept sh.words args
  | .child sh args => Kept sh.words args ∧ 1 ≤ args ∧ ∃ str, sh.words 0 = .word str
  | _ => True

def AllReady (s : State) : Prop := ∀ pid, (s.process pid).Ready

variable {s s' : State} {pid q : Nat} {sh : Shell} {p : Process}

theorem AllReady.set (h : AllReady s) (hp : p.Ready) : AllReady (s.set q p) := by
  intro r
  rw [set_process]
  split_ifs
  · exact hp
  · exact h r

theorem AllReady.again (h : AllReady s) (pid : Nat) (sh : Shell) (args : Nat) : AllReady (s.again pid sh args) :=
  AllReady.set (s := s.print .prompt) h trivial

theorem AllReady.checkSibling (h : AllReady s) (pid : Nat) (sh : Shell) : AllReady (checkSibling s pid sh).1 := by
  unfold Stash.checkSibling
  split_ifs
  · exact AllReady.set (s := s.print _) h trivial
  · exact h

theorem checkSibling_words (s : State) (pid : Nat) (sh : Shell) : (checkSibling s pid sh).2.words = sh.words := by
  unfold checkSibling
  split_ifs <;> rfl

theorem AllReady.parentBranch (h : AllReady s) (hkept : Kept sh.words args) (pid : Nat) (background : Bool)
    (id : Option Nat) : AllReady (parentBranch s pid sh args background id) := by
  unfold Stash.parentBranch
  split_ifs
  · exact AllReady.again (s := s.print _) h pid _ args
  · exact h.set hkept

theorem runExit_ready (h : AllReady s) (hs : runExit s pid sh args = some s') : AllReady s' := by
  rcases follow_cases hs with ⟨word, -, hs⟩ | ⟨-, rfl⟩
  · cases hs
    split_ifs
    · exact AllReady.again (s := s.print .invalid) h pid sh args
    · exact h.set trivial
  · exact h.set trivial

theorem runCd_ready {found : Bool} (h : AllReady s) (hs : runCd s pid sh args found = some s') : AllReady s' := by
  unfold runCd at hs
  split_ifs at hs
  · cases hs
    exact AllReady.again (s := s.print .invalid) h pid sh args
  · obtain ⟨word, -, rfl⟩ := Option.map_eq_some_iff.mp hs
    exact h.again pid sh args
  · obtain ⟨word, -, rfl⟩ := Option.map_eq_some_iff.mp hs
    exact AllReady.again (s := s.print .invalid) h pid sh args

theorem isBackground_last {last : List CChar} (hargs : 1 ≤ args) (hlast : (words (args - 1)).str = some last) :
    isBackground words args = decide (last.head? = some 0x26) := by
  have hindex : slotAt words ((args : Int) - 1) = words (args - 1) := by
    unfold slotAt
    rw [if_pos (by omega)]
    congr 1
    omega
  unfold isBackground
  rw [hindex, hlast]
  rfl

theorem runCommand_ready (h : AllReady s) (hloaded : Loaded sh.words args) (hargs : 1 ≤ args)
    (hname : forks = true → ¬ (args = 1 ∧ isBackground sh.words args = true))
    (hs : runCommand s pid sh args forks = some s') : AllReady s' := by
  obtain ⟨last, hlast, hs⟩ := Option.bind_eq_some_iff.mp hs
  have hready := h.checkSibling pid sh
  have hback := isBackground_last hargs hlast
  simp only [checkSibling_words, ← hback, Option.ite_none_right_eq_some] at hs
  obtain ⟨-, hs⟩ := hs
  change (if forks then _ else _) = some s' at hs
  have hkept : Kept (terminated sh.words args) args := hloaded.kept.set_null _
  cases forks with
  | true =>
    cases hs
    refine AllReady.parentBranch ?_ hkept pid _ _
    exact AllReady.set (s := { (checkSibling s pid sh).1 with parent := _, nextPid := _ }) hready
      ⟨hkept, hargs, (terminated_zero hloaded hargs).mpr (hname rfl)⟩
  | false =>
    cases hs
    exact AllReady.parentBranch (s := (checkSibling s pid sh).1.print _) hready hkept pid _ _

theorem mainLoop_ready {found : Bool} (h : AllReady s) (hsound : Sound line forks)
    (hs : mainLoop s pid sh line found forks = some s') : AllReady s' := by
  unfold mainLoop at hs
  split_ifs at hs with hempty
  · cases hs
    exact AllReady.set (s := s.print .prompt) h trivial
  · cases hparse : parseCommand line sh.words with
    | mk args words =>
      obtain ⟨hloaded, hargs, command, hword, -, hname⟩ := sound_command hsound hempty hparse
      simp only [hparse, hword, State.follow] at hs
      split_ifs at hs with hcd hexit
      · exact runCd_ready h hs
      · exact runExit_ready h hs
      · have hrun : runCommand s pid { sh with words := words } args forks = some s' := hs
        exact runCommand_ready h hloaded hargs (hname hcd hexit) hrun

theorem reap_ready {id child : Option Nat} (h : AllReady s) (hs : reap s q id child = some s') : AllReady s' := by
  rcases reap_cases hs with rfl | ⟨c, rfl⟩
  · exact h
  · exact h.set trivial

theorem start_ready : AllReady start := by
  intro pid
  by_cases hpid : pid = firstPid
  · simp only [start, hpid, Function.update_self, Process.Ready]
  · simp only [start, Function.update_of_ne hpid, Process.Ready]

theorem Move.ready {e : Event} (h : Move s e s') (hready : AllReady s) (he : SoundLine e) : AllReady s' := by
  cases h with
  | line hpid hs => exact mainLoop_ready hready he hs
  | program hpid => exact hready.set trivial
  | noName hpid => exact hready.set trivial
  | @noProgram pid sh args command hpid => exact AllReady.again (s := s.print _) hready pid sh args
  | @wake pid id sh args child t hpid ht => exact (reap_ready hready ht).again pid sh args
  | ends hpid => exact hready.set trivial
  | eof hpid => exact hready.set trivial

theorem reachable_ready (h : Reachable (system.restrict fun _ => SoundLine) s) : AllReady s := by
  refine h.invariant ?_ ?_
  · rintro _ rfl
    exact start_ready
  · rintro s e s' - hready ⟨he, hstep⟩
    exact (move_of_exec hstep).ready hready he

theorem accesses_valid {e : Event} (h : AllReady s) (he : SoundLine e) : ∀ a ∈ accesses s e, a.Valid := by
  cases e with
  | line pid line found forks =>
    simp only [accesses]
    split
    case h_1 sh hpid => exact (lineReads_valid_iff line sh.words forks).mpr he
    case h_2 => simp
  | execvp pid found =>
    simp only [accesses]
    split
    case h_1 sh args hpid =>
      have hchild : (Process.child sh args).Ready := hpid ▸ h pid
      obtain ⟨hkept, hargs, hname⟩ := hchild
      rw [List.forall_mem_cons]
      refine ⟨hname, ?_⟩
      split_ifs
      · simp
      · rw [List.forall_mem_cons]
        exact ⟨hkept.readAt_valid hargs, hkept.frees_valid⟩
    case h_2 => simp
  | wake pid child =>
    simp only [accesses]
    split
    case h_1 id sh args hpid =>
      have hwaiting : (Process.waiting id sh args).Ready := hpid ▸ h pid
      exact hwaiting.frees_valid
    case h_2 => simp
  | ends _ | eof _ => simp [accesses]

/-- **When only words of the current line are read.** While every line was sound, whatever comes next
reads words of its own line and gives `execvp` a name, and for a line this is so exactly when it is sound. -/
theorem words_current (h : Reachable (system.restrict fun _ => SoundLine) s) :
    (∀ e, SoundLine e → ∀ a ∈ accesses s e, a.Valid) ∧
      ∀ pid sh line found forks, s.process pid = .reading sh →
        ((∀ a ∈ accesses s (.line pid line found forks), a.Valid) ↔ Sound line forks) := by
  have hready := reachable_ready h
  refine ⟨fun e he => accesses_valid hready he, fun pid sh line found forks hpid => ?_⟩
  simp only [accesses, hpid]
  exact lineReads_valid_iff line sh.words forks

def soundExec (s : State) (e : Event) : Option State := if SoundLine e then exec s e else none

theorem words_current_exit : ∃ s, runSteps soundExec start goodSession = some s ∧
    (s.process firstPid).inLoop = true ∧
      ∀ a ∈ accesses s (.line firstPid (ascii "exit 3\n") true true), a.Valid := by
  have hstate : (runSteps soundExec start goodSession).map (fun s => (s.process firstPid).inLoop) = some true := by
    decide +kernel
  obtain ⟨s, hs, hloop⟩ := Option.map_eq_some_iff.mp hstate
  have hreach : Reachable (system.restrict fun _ => SoundLine) s := by
    refine Reachable.runSteps (fun s e t _ he => ?_) (Reachable.init rfl) hs
    exact Option.ite_none_right_eq_some.mp he
  have hsound : Sound (ascii "exit 3\n") true := by decide +kernel
  exact ⟨s, hs, hloop, (words_current hreach).1 (.line firstPid _ true true) hsound⟩

/-- A first line of one space: the first word is read, and was never set. -/
theorem blank_line_unset : ¬ ∀ s, Reachable system s → ∀ pid line found forks, Delivered line →
    ∀ a ∈ accesses s (.line pid line found forks), a.Valid := by
  intro h
  have hvalid := h start (Reachable.init rfl) firstPid (ascii " \n") true true (by decide +kernel)
    (.read 0 0 .unset) (by decide +kernel)
  exact hvalid.2.2.1 rfl

/-- The others: `exit` alone reads a second word, and `&` alone gives `execvp` null. -/
example : .read 1 1 .unset ∈ accesses start (.line firstPid (ascii "exit\n") true true) ∧
    .program .null ∈ accesses start (.line firstPid (ascii "&\n") true true) := by decide +kernel

end OsCoursework.Stash
