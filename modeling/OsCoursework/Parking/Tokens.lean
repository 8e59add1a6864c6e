import OsCoursework.Lib.Strtok
import OsCoursework.Lib.Transition

/-!
# How client threads parse their lines

Every thread of `parkingServer.c` reads lines into its own buffer and takes them
apart with `strtok`, outside the lock. One step is one line read, or one call of
`strtok`. Where the next call resumes is kept once for the whole process.
-/

open OsCoursework.Cstring OsCoursework.Transition

namespace OsCoursework.Parking

abbrev commandSize : Nat := 256

/-- A place in the `cmd` buffer of a thread. -/
structure Ptr where
  thread : Nat
  off : Nat
  deriving DecidableEq

inductive Pc where
  /-- In `fgets`. -/
  | reading
  /-- Before `strtok( cmd, " " )`. -/
  | first
  /-- Before `strtok( NULL, " " )`. -/
  | next (args : List Ptr)
  | parsed (args : List Ptr)
  deriving DecidableEq

/-- The last line is done, and the thread can read the next one. -/
def Pc.betweenLines : Pc → Bool
  | .reading => true
  | .parsed _ => true
  | _ => false

structure Clients where
  cmd : Nat → List CChar
  pc : Nat → Pc
  /-- The position that `strtok` saves. -/
  olds : Option Ptr
  /-- The line that each thread works on, and who called `strtok` last. The code has neither. -/
  line : Nat → List CChar
  lastCaller : Option Nat

def fgets (cmd input : List CChar) : List CChar := input ++ 0 :: cmd.drop (input.length + 1)

def stripNewline (cmd : List CChar) : List CChar :=
  match (text cmd).findIdx? fun c => c = 0x0d ∨ c = 0x0a with
  | some newline => cmd.set newline 0
  | none => cmd

/-- A thread reads its next line. An empty one is skipped. -/
def receive (s : Clients) (t : Nat) (input : List CChar) : Clients :=
  let cmd := stripNewline (fgets (s.cmd t) input)
  { s with
    cmd := Function.update s.cmd t cmd
    line := Function.update s.line t (text cmd)
    pc := Function.update s.pc t (if strlen cmd = 0 then .reading else .first) }

/-- A call of `strtok` at `p`, and the loop around it up to the next call. -/
def callStrtok (s : Clients) (t : Nat) (p : Ptr) (args : List Ptr) : Clients :=
  let call := strtok 0x20 (s.cmd p.thread) p.off
  { s with
    cmd := Function.update s.cmd p.thread call.2.2
    olds := some ⟨p.thread, call.2.1⟩
    lastCaller := some t
    pc := Function.update s.pc t (match call.1 with
      | some token => if args.length < 3 then .next (args ++ [⟨p.thread, token⟩]) else .parsed args
      | none => .parsed args) }

inductive ParseEvent where
  | receive (t : Nat) (input : List CChar)
  | first (t : Nat)
  | next (t : Nat)

def ParseEvent.exec (s : Clients) : ParseEvent → Option Clients
  | .receive t input =>
    if (s.pc t).betweenLines ∧ input ≠ [] ∧ input.length < commandSize then some (Parking.receive s t input)
    else none
  | .first t => if s.pc t = .first then some (callStrtok s t ⟨t, 0⟩ []) else none
  | .next t =>
    match s.pc t with
    | .next args => s.olds.map fun p => callStrtok s t p args
    | _ => none

def parsing : System Clients ParseEvent where
  init s := (∀ t, (s.cmd t).length = commandSize ∧ s.pc t = .reading) ∧ s.olds = none ∧ s.lastCaller = none
  step s e s' := e.exec s = some s'

/-! ## What the threads get -/

def argText (s : Clients) (p : Ptr) : List CChar := strAt (s.cmd p.thread) p.off

/-- Every thread that is done with its line has the first three tokens of it. -/
def Isolated (s : Clients) : Prop :=
  ∀ t args, s.pc t = .parsed args → args.map (argText s) = (tokens 0x20 (s.line t)).take 3

/-- A thread goes on with its line only if no other thread has called `strtok` since. -/
def Undisturbed (s : Clients) : ParseEvent → Prop
  | .next t => s.lastCaller = some t
  | _ => True

/-- The tokens so far are in the buffer before `off`, and the others are behind it. -/
structure Underway (s : Clients) (t : Nat) (args : List Ptr) (off : Nat) : Prop where
  own : ∀ p ∈ args, p.thread = t ∧ p.off + (argText s p).length ≤ off
  short : args.length ≤ 3
  line : args.map (argText s) ++ tokens 0x20 (strAt (s.cmd t) off) = tokens 0x20 (s.line t)

def ThreadOk (s : Clients) (t : Nat) : Prop :=
  match s.pc t with
  | .reading => True
  | .first => text (s.cmd t) = s.line t
  | .next args => s.lastCaller = some t → ∃ off, s.olds = some ⟨t, off⟩ ∧ Underway s t args off
  | .parsed args => (∀ p ∈ args, p.thread = t) ∧ args.map (argText s) = (tokens 0x20 (s.line t)).take 3

variable {s : Clients} {t u : Nat} {args : List Ptr} {off : Nat}

theorem callStrtok_own (h : Underway s t args off) : ThreadOk (callStrtok s t ⟨t, off⟩ args) t := by
  have hbuffer : (callStrtok s t ⟨t, off⟩ args).cmd t = (strtok 0x20 (s.cmd t) off).2.2 :=
    Function.update_self _ _ _
  have hpc : (callStrtok s t ⟨t, off⟩ args).pc t = match (strtok 0x20 (s.cmd t) off).1 with
      | some token => if args.length < 3 then .next (args ++ [⟨t, token⟩]) else .parsed args
      | none => .parsed args := Function.update_self _ _ _
  have hline : (callStrtok s t ⟨t, off⟩ args).line t = s.line t := rfl
  have holds : (callStrtok s t ⟨t, off⟩ args).olds = some ⟨t, (strtok 0x20 (s.cmd t) off).2.1⟩ := rfl
  generalize callStrtok s t ⟨t, off⟩ args = s' at hbuffer hpc hline holds ⊢
  -- A string that is kept in the buffer is kept as an argument.
  have hargs (hkeep : ∀ q, q + (strAt (s.cmd t) q).length ≤ off → strAt (s'.cmd t) q = strAt (s.cmd t) q) :
      ∀ p ∈ args, argText s' p = argText s p := by
    intro p hp
    obtain ⟨rfl, hlen⟩ := h.own p hp
    exact hkeep p.off hlen
  have hthree : (args.map (argText s)).take 3 = args.map (argText s) :=
    List.take_of_length_le ((List.length_map _).trans_le h.short)
  cases htokens : tokens 0x20 (strAt (s.cmd t) off) with
  | nil =>
    obtain ⟨off', hcall⟩ := strtok_none htokens
    rw [hcall] at hbuffer hpc
    have hsame := hargs fun q _ => by rw [hbuffer]
    rw [ThreadOk, hpc, hline, ← h.line, htokens, List.append_nil, hthree]
    exact ⟨fun p hp => (h.own p hp).1, List.map_congr_left hsame⟩
  | cons w ws =>
    obtain ⟨start, off', b', hcall, hstart, hoff, hw, hws, hkeep⟩ := strtok_some htokens
    rw [hcall] at hbuffer hpc holds
    have hsame := hargs fun q hq => by rw [hbuffer]; exact hkeep q hq
    by_cases hfull : args.length < 3
    · rw [ThreadOk, hpc]
      simp only [hfull, if_true]
      have htoken : argText s' ⟨t, start⟩ = w := by rw [argText, hbuffer, hw]
      refine fun _ => ⟨off', holds, fun p hp => ?_, ?_, ?_⟩
      · rcases List.mem_append.mp hp with hp | hp
        · obtain ⟨howner, hlen⟩ := h.own p hp
          exact ⟨howner, by rw [hsame p hp]; omega⟩
        · obtain rfl := List.mem_singleton.mp hp
          exact ⟨rfl, by rw [htoken]; exact hoff⟩
      · rw [List.length_append, List.length_singleton]
        omega
      · rw [List.map_append, List.map_singleton, htoken, List.map_congr_left hsame, hbuffer, hws, hline,
          ← h.line, htokens, List.append_assoc, List.singleton_append]
    · -- The fourth token is looked for, but not kept.
      have hlen : (args.map (argText s)).length = 3 := by
        have hshort := h.short
        rw [List.length_map]
        omega
      rw [ThreadOk, hpc]
      simp only [hfull, if_false]
      refine ⟨fun p hp => (h.own p hp).1, ?_⟩
      rw [hline, ← h.line, List.map_congr_left hsame, List.take_left' hlen]

theorem ThreadOk.of_same {s' : Clients} (h : ThreadOk s u) (hcmd : s'.cmd u = s.cmd u) (hpc : s'.pc u = s.pc u)
    (hline : s'.line u = s.line u)
    (hlast : s'.lastCaller = some u → s.lastCaller = some u ∧ s'.olds = s.olds) : ThreadOk s' u := by
  have hargs : ∀ args : List Ptr, (∀ p ∈ args, p.thread = u) → ∀ p ∈ args, argText s' p = argText s p := by
    intro args hown p hp
    rw [argText, argText, hown p hp, hcmd]
  rw [ThreadOk] at h ⊢
  rw [hpc]
  cases hp : s.pc u with
  | reading => trivial
  | first =>
    rw [hp] at h
    exact (congrArg text hcmd).trans (h.trans hline.symm)
  | next args =>
    rw [hp] at h
    intro hl
    obtain ⟨hl', holds⟩ := hlast hl
    obtain ⟨off, ho, hw⟩ := h hl'
    have hsame := hargs args fun p hp => (hw.own p hp).1
    refine ⟨off, holds.trans ho, fun p hp => ?_, hw.short, ?_⟩
    · rw [hsame p hp]
      exact hw.own p hp
    · rw [List.map_congr_left hsame, hcmd, hline]
      exact hw.line
  | parsed args =>
    rw [hp] at h
    refine ⟨h.1, ?_⟩
    rw [List.map_congr_left (hargs args h.1), hline]
    exact h.2

theorem callStrtok_other (h : ThreadOk s u) (hne : u ≠ t) : ThreadOk (callStrtok s t ⟨t, off⟩ args) u := by
  refine h.of_same (Function.update_of_ne hne _ _) (Function.update_of_ne hne _ _) rfl fun hlast => ?_
  exact absurd (Option.some.inj hlast).symm hne

theorem receive_other {input : List CChar} (h : ThreadOk s u) (hne : u ≠ t) : ThreadOk (receive s t input) u :=
  h.of_same (Function.update_of_ne hne _ _) (Function.update_of_ne hne _ _) (Function.update_of_ne hne _ _)
    fun hlast => ⟨hlast, rfl⟩

theorem receive_own (s : Clients) (t : Nat) (input : List CChar) : ThreadOk (receive s t input) t := by
  have hpc : (receive s t input).pc t =
      if strlen (stripNewline (fgets (s.cmd t) input)) = 0 then .reading else .first := Function.update_self _ _ _
  have hline : (receive s t input).line t = text ((receive s t input).cmd t) := by
    simp only [receive, Function.update_self]
  rw [ThreadOk, hpc]
  split_ifs
  · trivial
  · exact hline.symm

/-! ## All runs -/

theorem threadOk_of_call {p : Ptr} (h : ∀ u, ThreadOk s u) (hp : p = ⟨t, off⟩) (hw : Underway s t args off) (u : Nat) :
    ThreadOk (callStrtok s t p args) u := by
  subst hp
  by_cases hne : u = t
  · subst hne
    exact callStrtok_own hw
  · exact callStrtok_other (h u) hne

theorem threadOk_of_receive {input : List CChar} (h : ∀ u, ThreadOk s u) (u : Nat) :
    ThreadOk (receive s t input) u := by
  by_cases hne : u = t
  · subst hne
    exact receive_own s u input
  · exact receive_other (h u) hne

theorem step_threadOk {e : ParseEvent} {s' : Clients} (h : ∀ u, ThreadOk s u) (hgood : Undisturbed s e)
    (hs : e.exec s = some s') : ∀ u, ThreadOk s' u := by
  cases e with
  | receive t input =>
    obtain ⟨-, hs⟩ := Option.ite_none_right_eq_some.mp hs
    obtain rfl := Option.some.inj hs
    exact threadOk_of_receive h
  | first t =>
    obtain ⟨hp, hs⟩ := Option.ite_none_right_eq_some.mp hs
    obtain rfl := Option.some.inj hs
    have hok := h t
    rw [ThreadOk, hp] at hok
    exact threadOk_of_call h rfl ⟨nofun, Nat.zero_le _, by simpa [strAt] using congrArg (tokens 0x20) hok⟩
  | next t =>
    rw [ParseEvent.exec] at hs
    cases hp : s.pc t with
    | next args =>
      rw [hp] at hs
      obtain ⟨p, holds, rfl⟩ := Option.map_eq_some_iff.mp hs
      have hok := h t
      rw [ThreadOk, hp] at hok
      obtain ⟨off, holds', hw⟩ := hok hgood
      exact threadOk_of_call h (Option.some.inj (holds.symm.trans holds')) hw
    | reading => rw [hp] at hs; cases hs
    | first => rw [hp] at hs; cases hs
    | parsed args => rw [hp] at hs; cases hs

/-- **When the threads are isolated.** In a run where no call of one thread comes between two calls
that another makes for one line, every thread gets the first three tokens of its own line. -/
theorem undisturbed_isolated (h : Reachable (parsing.restrict Undisturbed) s) : Isolated s := by
  have hok : ∀ u, ThreadOk s u := by
    apply h.invariant
    · rintro s ⟨hstart, -⟩ u
      rw [ThreadOk, (hstart u).2]
      trivial
    · rintro s e s' - hs ⟨hgood, hstep⟩
      exact step_threadOk hs hgood hstep
  intro t args hp
  have hparsed := hok t
  rw [ThreadOk, hp] at hparsed
  exact hparsed.2

instance (s : Clients) (e : ParseEvent) : Decidable (Undisturbed s e) := by
  cases e <;> unfold Undisturbed <;> infer_instance

def noClients : Clients where
  cmd _ := List.replicate commandSize 0
  pc _ := .reading
  olds := none
  line _ := []
  lastCaller := none

theorem noClients_init : parsing.init noClients := ⟨fun _ => ⟨List.length_replicate, rfl⟩, rfl, rfl⟩

def sampleLines : List ParseEvent :=
  [.receive 1 (ascii "park AAA1111 100\n"), .receive 2 (ascii "leave BBB2222 200\n")]

/-- The strings of a parsed line, and what they should be. -/
def parsedLine (s : Clients) (t : Nat) : Option (List (List CChar) × List (List CChar)) :=
  match s.pc t with
  | .parsed args => some (args.map (argText s), (tokens 0x20 (s.line t)).take 3)
  | _ => none

theorem parsedLine_eq_some {got wanted : List (List CChar)} (h : parsedLine s t = some (got, wanted)) :
    ∃ args, s.pc t = .parsed args ∧ args.map (argText s) = got ∧ (tokens 0x20 (s.line t)).take 3 = wanted := by
  rw [parsedLine] at h
  cases hp : s.pc t with
  | parsed args =>
    rw [hp, Option.some.injEq, Prod.mk.injEq] at h
    exact ⟨args, rfl, h.1, h.2⟩
  | reading => rw [hp] at h; cases h
  | first => rw [hp] at h; cases h
  | next args => rw [hp] at h; cases h

def inOrder : Option Clients :=
  runSteps (fun s e => if Undisturbed s e then e.exec s else none) noClients
    (sampleLines ++ [.first 1, .next 1, .next 1, .next 1, .first 2, .next 2, .next 2, .next 2])

theorem undisturbed_isolated_sample : ∃ s, inOrder = some s ∧ Isolated s ∧
    ∃ args, s.pc 2 = .parsed args ∧ args.map (argText s) = [ascii "leave", ascii "BBB2222", ascii "200"] := by
  have hline : inOrder.bind (parsedLine · 2) = some ([ascii "leave", ascii "BBB2222", ascii "200"],
      [ascii "leave", ascii "BBB2222", ascii "200"]) := by
    decide +kernel
  obtain ⟨s, hs, hparsed⟩ := Option.bind_eq_some_iff.mp hline
  obtain ⟨args, hp, hgot, -⟩ := parsedLine_eq_some hparsed
  have hreach : Reachable (parsing.restrict Undisturbed) s :=
    Reachable.runSteps (fun _ _ _ _ he => Option.ite_none_right_eq_some.mp he) (Reachable.init noClients_init) hs
  exact ⟨s, hs, undisturbed_isolated hreach, args, hp, hgot⟩

/-- The second thread starts on its line after the first call of the first thread. -/
def interleaved : Option Clients :=
  runSteps (fun s e => e.exec s) noClients (sampleLines ++ [.first 1, .first 2, .next 1, .next 1, .next 1])

/-- The first thread parks the car that the other client wanted to fetch. -/
theorem strtok_mixes_lines : ∃ s, Reachable parsing s ∧ ¬ Isolated s ∧ ∃ args, s.pc 1 = .parsed args ∧
    args.map (argText s) = [ascii "park", ascii "BBB2222", ascii "200"] ∧
    (tokens 0x20 (s.line 1)).take 3 = [ascii "park", ascii "AAA1111", ascii "100"] := by
  have hline : interleaved.bind (parsedLine · 1) = some ([ascii "park", ascii "BBB2222", ascii "200"],
      [ascii "park", ascii "AAA1111", ascii "100"]) := by
    decide +kernel
  obtain ⟨s, hs, hparsed⟩ := Option.bind_eq_some_iff.mp hline
  obtain ⟨args, hp, hgot, hwanted⟩ := parsedLine_eq_some hparsed
  have hreach : Reachable parsing s :=
    Reachable.runSteps (fun _ _ _ _ he => he) (Reachable.init noClients_init) hs
  refine ⟨s, hreach, fun hiso => ?_, args, hp, hgot, hwanted⟩
  have hsame := hiso 1 args hp
  rw [hgot, hwanted] at hsame
  exact absurd hsame (by decide +kernel)

end OsCoursework.Parking
