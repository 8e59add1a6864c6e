import OsCoursework.Parking.Service
import OsCoursework.Parking.Show

/-!
# The threads serve one line at a time

Where no thread comes between two calls of `strtok` that another makes for one line, the clients
get the same answers as from a car park that serves them one whole line after another.
-/

open OsCoursework.Cstring OsCoursework.Transition

namespace OsCoursework.Parking

variable {n : Nat} {hourlyRate : ℚ} {input : Nat → List (List CChar)} {s s' : Service} {a : CarPark n} {t : Nat}

/-! ## Steps of a thread -/

inductive Move (hourlyRate : ℚ) (s : Service) (t : Nat) : Service → Prop
  | accept (hstage : (s.conn t).stage = .absent) : Move hourlyRate s t (s.set t ((s.conn t).goto .accepted))
  | greet (hstage : (s.conn t).stage = .accepted) :
    Move hourlyRate s t (s.set t (((s.conn t).send [.prompt]).goto .reading))
  | finish (hstage : (s.conn t).stage = .reading)
      (hend : (readChunk chunkSize (s.conn t).stream).1 = []) :
    Move hourlyRate s t (s.set t ((s.conn t).goto .closed))
  | receive {chunk : List CChar} {rest : Stream} (hstage : (s.conn t).stage = .reading)
      (hchunk : readChunk chunkSize (s.conn t).stream = (chunk, rest)) (hne : chunk ≠ []) :
    Move hourlyRate s t ({ s with clients := receive s.clients t chunk }.set t
      (if strlen ((receive s.clients t chunk).cmd t) = 0 then
        Connection.send ⟨.reading, rest, (s.conn t).out⟩ [.prompt]
      else Connection.goto ⟨.reading, rest, (s.conn t).out⟩ .parsing))
  | call {p : Ptr} {args : List Ptr} (e : ParseEvent) (hstage : (s.conn t).stage = .parsing)
      (hexec : e.exec s.clients = some (callStrtok s.clients t p args))
      (hgood : s.Undisturbed t → Undisturbed s.clients e)
      (hown : ThreadOk s.clients t → s.Undisturbed t → p.thread = t) :
    Move hourlyRate s t { s with clients := callStrtok s.clients t p args }
  | dispatch {args : List Ptr} (hstage : (s.conn t).stage = .parsing) (hpc : s.clients.pc t = .parsed args) :
    Move hourlyRate s t (s.set t ((s.conn t).dispatch s.clients args))
  | lock {asked : Asked} (hstage : (s.conn t).stage = .locking asked) (hfree : s.tableLock = none) :
    Move hourlyRate s t ({ s with tableLock := some t }.set t ((s.conn t).goto (.inside asked)))
  | search {asked : Asked} (hstage : (s.conn t).stage = .inside asked) :
    Move hourlyRate s t (s.set t ((s.conn t).goto (asked.search hourlyRate s.clients s.parkingTable)))
  | park {plate : Ptr} {arrival : Int} (hstage : (s.conn t).stage = .parking plate arrival) :
    Move hourlyRate s t (s.set t ((s.conn t).goto
      (.writing (parkFree s.parkingTable (argText s.clients plate) arrival).1
        (parkFree s.parkingTable (argText s.clients plate) arrival).2)))
  | miss {plate : Ptr} (hstage : (s.conn t).stage = .missing plate) :
    Move hourlyRate s t (s.set t ((s.conn t).goto
      (.writing (.notFound (text (argText s.clients plate))) s.parkingTable)))
  | write {reply : Reply} {table : List ParkingRecord} (hstage : (s.conn t).stage = .writing reply table) :
    Move hourlyRate s t ({ s with parkingTable := table }.set t (((s.conn t).send [.reply reply]).goto .unlocking))
  | unlock (hstage : (s.conn t).stage = .unlocking) :
    Move hourlyRate s t ({ s with tableLock := none }.set t (((s.conn t).send [.prompt]).goto .reading))

theorem move_of_exec (h : s.exec hourlyRate t = some s') : Move hourlyRate s t s' := by
  unfold Service.exec at h
  cases hstage : (s.conn t).stage with
  | absent =>
    simp only [hstage] at h
    cases h
    exact .accept hstage
  | accepted =>
    simp only [hstage] at h
    cases h
    exact .greet hstage
  | reading =>
    rcases hchunk : readChunk chunkSize (s.conn t).stream with ⟨chunk, rest⟩
    simp only [hstage, hchunk] at h
    by_cases hne : chunk = []
    · simp only [hne, if_true] at h
      cases h
      exact .finish hstage (by rw [hchunk]; exact hne)
    · simp only [hne, if_false] at h
      cases h
      exact .receive hstage hchunk hne
  | parsing =>
    simp only [hstage] at h
    cases hpc : s.clients.pc t with
    | reading => simp [hpc] at h
    | first =>
      simp only [hpc] at h
      cases h
      exact .call (.first t) hstage (if_pos hpc) (fun _ => trivial) fun _ _ => rfl
    | next args =>
      simp only [hpc] at h
      obtain ⟨p, hp, rfl⟩ := Option.map_eq_some_iff.mp h
      refine .call (.next t) hstage ?_ (fun hgood => hgood args hpc) fun hok hgood => ?_
      · simp only [ParseEvent.exec, hpc, hp, Option.map_some]
      · rw [ThreadOk, hpc] at hok
        obtain ⟨off, holds, -⟩ := hok (hgood args hpc)
        rw [Option.some.inj (hp.symm.trans holds)]
    | parsed args =>
      simp only [hpc] at h
      cases h
      exact .dispatch hstage hpc
  | locking asked =>
    simp only [hstage] at h
    split_ifs at h with hfree
    cases h
    exact .lock hstage hfree
  | inside asked =>
    simp only [hstage] at h
    cases h
    exact .search hstage
  | parking plate arrival =>
    simp only [hstage] at h
    cases h
    exact .park hstage
  | missing plate =>
    simp only [hstage] at h
    cases h
    exact .miss hstage
  | writing reply table =>
    simp only [hstage] at h
    cases h
    exact .write hstage
  | unlocking =>
    simp only [hstage] at h
    cases h
    exact .unlock hstage
  | closed => simp [hstage] at h

theorem Service.set_conn (s : Service) (t : Nat) (c : Connection) : (s.set t c).conn t = c := Function.update_self _ _ _

theorem Service.set_other {u : Nat} (hu : u ≠ t) (s : Service) (c : Connection) : (s.set t c).conn u = s.conn u :=
  Function.update_of_ne hu _ _

/-! ## The lock -/

def LockOk (conn : Nat → Connection) (tableLock : Option Nat) : Prop :=
  ∀ u, (conn u).stage.inLock = true ↔ tableLock = some u

/-- A thread in the loop around `strtok` has a line, and the position is there for its next call. -/
def PcOk (clients : Clients) (c : Connection) (pc : Pc) : Prop :=
  c.stage = .parsing → pc ≠ .reading ∧ ∀ args, pc = .next args → clients.olds ≠ none

structure Inv (s : Service) : Prop where
  lock : LockOk s.conn s.tableLock
  pc : ∀ u, PcOk s.clients (s.conn u) (s.clients.pc u)

theorem LockOk.one {conn : Nat → Connection} {tableLock : Option Nat} {u : Nat} (h : LockOk conn tableLock)
    (hu : (conn u).stage.inLock = true) (ht : (conn t).stage.inLock = true) : u = t :=
  Option.some.inj (((h u).mp hu).symm.trans ((h t).mp ht))

theorem LockOk.stay {conn : Nat → Connection} {tableLock : Option Nat} {c : Connection} (h : LockOk conn tableLock)
    (hsame : c.stage.inLock = (conn t).stage.inLock) : LockOk (Function.update conn t c) tableLock := by
  intro u
  by_cases hu : u = t
  · subst hu
    rw [Function.update_self, hsame]
    exact h u
  · rw [Function.update_of_ne hu]
    exact h u

theorem LockOk.take {conn : Nat → Connection} {c : Connection} (h : LockOk conn none) (hin : c.stage.inLock = true) :
    LockOk (Function.update conn t c) (some t) := by
  intro u
  by_cases hu : u = t
  · subst hu
    rw [Function.update_self]
    exact iff_of_true hin rfl
  · rw [Function.update_of_ne hu]
    refine iff_of_false (fun hlocked => ?_) fun hsame => hu (Option.some.inj hsame).symm
    exact nomatch (h u).mp hlocked

theorem LockOk.give {conn : Nat → Connection} {c : Connection} {tableLock : Option Nat} (h : LockOk conn tableLock)
    (hin : (conn t).stage.inLock = true) (hout : c.stage.inLock = false) :
    LockOk (Function.update conn t c) none := by
  intro u
  by_cases hu : u = t
  · subst hu
    rw [Function.update_self, hout]
    exact iff_of_false Bool.false_ne_true nofun
  · rw [Function.update_of_ne hu]
    exact iff_of_false (fun hlocked => hu (h.one hlocked hin)) nofun

/-! ## What holds in every run -/

theorem inv_init (h : (service n hourlyRate input).init s) : Inv s := by
  obtain ⟨-, -, -, hconn, -, hlock⟩ := h
  have habsent : ∀ u, (s.conn u).stage = .absent := fun u => by rw [hconn]
  refine ⟨fun u => ?_, fun u => ?_⟩
  · rw [habsent u, hlock]
    exact iff_of_false Bool.false_ne_true nofun
  · rw [PcOk, habsent u]
    exact nofun

theorem Inv.next (h : Inv s) (hlock : LockOk s'.conn s'.tableLock) (hconn : ∀ u, u ≠ t → s'.conn u = s.conn u)
    (hpcs : ∀ u, u ≠ t → s'.clients.pc u = s.clients.pc u) (holds : s.clients.olds ≠ none → s'.clients.olds ≠ none)
    (hpc : PcOk s'.clients (s'.conn t) (s'.clients.pc t)) : Inv s' where
  lock := hlock
  pc u := by
    by_cases hu : u = t
    · rw [hu]
      exact hpc
    · rw [hconn u hu, hpcs u hu]
      intro hstage
      obtain ⟨hline, hnext⟩ := h.pc u hstage
      exact ⟨hline, fun args hp => holds (hnext args hp)⟩

theorem Inv.set (h : Inv s) {c : Connection} {tableLock : Option Nat} {parkingTable : List ParkingRecord}
    (hlock : LockOk (Function.update s.conn t c) tableLock) (hpc : c.stage ≠ .parsing) :
    Inv ({ s with tableLock, parkingTable }.set t c) := by
  refine h.next hlock (fun u hu => Service.set_other hu _ c) (fun _ _ => rfl) id ?_
  rw [Service.set_conn]
  exact fun hstage => absurd hstage hpc

theorem callStrtok_pc (clients : Clients) (t : Nat) (p : Ptr) (args : List Ptr) :
    (callStrtok clients t p args).pc t ≠ .reading ∧ (callStrtok clients t p args).olds ≠ none := by
  refine ⟨?_, nofun⟩
  unfold callStrtok
  dsimp only
  rw [Function.update_self]
  split
  · split_ifs <;> nofun
  · nofun

theorem dispatch_stage (c : Connection) (clients : Clients) (args : List Ptr) :
    (c.dispatch clients args).stage ≠ .parsing ∧ (c.dispatch clients args).stage.inLock = false := by
  unfold Connection.dispatch
  split
  · exact ⟨nofun, rfl⟩
  · exact ⟨nofun, rfl⟩
  · split_ifs <;> exact ⟨nofun, rfl⟩

theorem search_inLock (hourlyRate : ℚ) (clients : Clients) (table : List ParkingRecord) (asked : Asked) :
    (asked.search hourlyRate clients table).inLock = true := by
  unfold Asked.search
  split
  · split_ifs <;> rfl
  · split <;> rfl
  · rfl

theorem Stage.inLock_ne_parsing {stage : Stage} (h : stage.inLock = true) : stage ≠ .parsing := by
  rintro rfl
  cases h

theorem Inv.receive (h : Inv s) (hstage : (s.conn t).stage = .reading) (chunk : List CChar) (rest : Stream) :
    Inv ({ s with clients := Parking.receive s.clients t chunk }.set t
      (if strlen ((Parking.receive s.clients t chunk).cmd t) = 0 then
        Connection.send ⟨.reading, rest, (s.conn t).out⟩ [.prompt]
      else Connection.goto ⟨.reading, rest, (s.conn t).out⟩ .parsing)) := by
  refine h.next (h.lock.stay ?_) (fun u hu => Service.set_other hu _ _) (fun u hu => Function.update_of_ne hu _ _) id ?_
  · rw [hstage]
    split_ifs <;> rfl
  · rw [Service.set_conn]
    by_cases hblank : strlen ((Parking.receive s.clients t chunk).cmd t) = 0
    · rw [if_pos hblank]
      intro hparsing
      cases hparsing
    · have hpc : (Parking.receive s.clients t chunk).pc t = .first :=
        (Function.update_self _ _ _).trans (if_neg (by simpa [Parking.receive] using hblank))
      rw [if_neg hblank]
      intro _
      dsimp only [Service.set]
      rw [hpc]
      exact ⟨Pc.noConfusion, fun _ hnext => Pc.noConfusion hnext⟩

theorem Move.inv (h : Move hourlyRate s t s') (hinv : Inv s) : Inv s' := by
  cases h with
  | accept hstage => exact hinv.set (hinv.lock.stay (by rw [hstage]; rfl)) nofun
  | greet hstage => exact hinv.set (hinv.lock.stay (by rw [hstage]; rfl)) nofun
  | finish hstage => exact hinv.set (hinv.lock.stay (by rw [hstage]; rfl)) nofun
  | receive hstage => exact hinv.receive hstage _ _
  | @call p args e hstage hexec hgood hown =>
    obtain ⟨hpc, holds⟩ := callStrtok_pc s.clients t p args
    exact hinv.next hinv.lock (fun _ _ => rfl) (fun u hu => Function.update_of_ne hu _ _) (fun _ => holds)
      fun _ => ⟨hpc, fun _ _ => holds⟩
  | @dispatch args hstage hpc =>
    obtain ⟨hparsing, hout⟩ := dispatch_stage (s.conn t) s.clients args
    exact hinv.set (hinv.lock.stay (by rw [hout, hstage]; rfl)) hparsing
  | lock hstage hfree => exact hinv.set (LockOk.take (hfree ▸ hinv.lock) rfl) nofun
  | @search asked hstage =>
    have hin := search_inLock hourlyRate s.clients s.parkingTable asked
    exact hinv.set (hinv.lock.stay (by rw [hstage]; exact hin)) (Stage.inLock_ne_parsing hin)
  | park hstage => exact hinv.set (hinv.lock.stay (by rw [hstage]; rfl)) nofun
  | miss hstage => exact hinv.set (hinv.lock.stay (by rw [hstage]; rfl)) nofun
  | write hstage => exact hinv.set (hinv.lock.stay (by rw [hstage]; rfl)) nofun
  | unlock hstage => exact hinv.set (hinv.lock.give (by rw [hstage]; rfl) rfl) nofun

theorem reachable_inv (h : Reachable (service n hourlyRate input) s) : Inv s :=
  h.invariant (fun _ => inv_init) fun _ _ _ _ hinv hstep => (move_of_exec hstep).inv hinv

/-! ## What the commands answer -/

theorem showTable_lists {table : List ParkingRecord} {m : Lot n} (h : Represents table m) :
    m.Lists (showTable table) where
  nodup := by
    have hkeys : ((showTable table).map fun r => text r.plate.toList).Perm
        ((table.filter (·.occupied)).map fun r => text r.plate.toList) := (showTable_perm table).map _
    rw [hkeys.nodup_iff, ← keys_entries]
    exact h.distinct
  mem plate arrival := by
    rw [h.lookup_eq_some]
    simp only [(showTable_perm table).mem_iff, List.mem_filter, and_assoc]
  sorted := showTable_sorted table

theorem exec_answers {table : List ParkingRecord} {m : Lot n} (h : Represents table m) (hr : 0 < hourlyRate)
    (c : Command) : ∃ m', m.Answers hourlyRate c (c.exec hourlyRate table).1 m' ∧
      Represents (c.exec hourlyRate table).2 m' := by
  cases c with
  | park plate arrival =>
    obtain ⟨hreply, htable⟩ := park_represents h plate arrival
    refine ⟨_, ?_, htable⟩
    rw [Command.exec, hreply]
    exact .park plate arrival
  | leave plate leaveTime =>
    obtain ⟨hreply, htable⟩ := leave_represents h hr plate leaveTime
    refine ⟨_, ?_, htable⟩
    rw [Command.exec, hreply]
    exact .leave plate leaveTime
  | showTable => exact ⟨m, .showTable (showTable_lists h), h⟩

theorem answers_unchecked {c : Command} (h : ¬ c.checked = true) (hourlyRate : ℚ) (m : Lot n) :
    m.Answers hourlyRate c .invalidCommand m := by
  cases c with
  | park plate arrival =>
    have hbad : ¬ isValidPlate plate = true ∨ arrival ≤ 0 ∨ arrival > 86400 := by
      simpa only [Command.checked, decide_eq_true_eq, not_not] using h
    have hpark : m.park plate arrival = (.invalidCommand, m) := if_pos hbad
    have hanswer : m.Answers hourlyRate (.park plate arrival) (m.park plate arrival).1 (m.park plate arrival).2 :=
      .park plate arrival
    rw [hpark] at hanswer
    exact hanswer
  | leave plate leaveTime =>
    have hbad : ¬ isValidPlate plate = true ∨ leaveTime ≤ 0 ∨ leaveTime > 86400 := by
      simpa only [Command.checked, decide_eq_true_eq, not_not] using h
    have hleave : m.leave hourlyRate plate leaveTime = (.invalidCommand, m) := if_pos hbad
    have hanswer : m.Answers hourlyRate (.leave plate leaveTime) (m.leave hourlyRate plate leaveTime).1
        (m.leave hourlyRate plate leaveTime).2 :=
      .leave plate leaveTime
    rw [hleave] at hanswer
    exact hanswer
  | showTable => exact absurd rfl h

/-! ## The places of the plates -/

/-- The plate is in the buffer of thread `u`. -/
def Asked.Owned (u : Nat) : Asked → Prop
  | .park plate _ | .leave plate _ => plate.thread = u
  | .showTable => True

/-- The command, with the plate that is in the buffer now. -/
def Asked.command (clients : Clients) : Asked → Command
  | .park plate arrival => .park (argText clients plate) arrival
  | .leave plate leaveTime => .leave (argText clients plate) leaveTime
  | .showTable => .showTable

theorem argText_congr {clients clients' : Clients} {p : Ptr} (hp : p.thread = t) (hcmd : clients'.cmd t = clients.cmd t) :
    argText clients' p = argText clients p := by
  rw [argText, argText, hp, hcmd]

theorem Asked.Owned.command_congr {clients clients' : Clients} {asked : Asked} (h : asked.Owned t)
    (hcmd : clients'.cmd t = clients.cmd t) : asked.command clients' = asked.command clients := by
  cases asked with
  | park plate arrival => rw [Asked.command, argText_congr h hcmd, Asked.command]
  | leave plate leaveTime => rw [Asked.command, argText_congr h hcmd, Asked.command]
  | showTable => rfl

theorem asked_command {clients : Clients} {args : List Ptr} {command : Command}
    (h : Parking.dispatch (args.map (argText clients)) = .run command) (hown : ∀ p ∈ args, p.thread = t) :
    (command.asked args).Owned t ∧ (command.asked args).command clients = command := by
  have hplate : ∀ (verb : Verb) (plate : List CChar) (time : Int), command = verb.command plate time →
      (plateArg args).thread = t ∧ argText clients (plateArg args) = plate := by
    rintro verb plate time rfl
    obtain ⟨number, more, htexts, -⟩ := dispatch_eq_run.mp h
    obtain ⟨name, rest, rfl, -, hrest⟩ := List.map_eq_cons_iff.mp htexts
    obtain ⟨p, rest, rfl, htext, -⟩ := List.map_eq_cons_iff.mp hrest
    exact ⟨hown p (List.mem_cons_of_mem _ List.mem_cons_self), htext⟩
  cases command with
  | park plate arrival =>
    obtain ⟨hthread, htext⟩ := hplate .park plate arrival rfl
    exact ⟨hthread, congrArg (Command.park · arrival) htext⟩
  | leave plate leaveTime =>
    obtain ⟨hthread, htext⟩ := hplate .leave plate leaveTime rfl
    exact ⟨hthread, congrArg (Command.leave · leaveTime) htext⟩
  | showTable => exact ⟨trivial, rfl⟩

theorem leaveLoop_none {plate : List CChar} {leaveTime : Int} {table : List ParkingRecord}
    (h : (leaveLoop hourlyRate plate leaveTime table).1 = none) : (leaveLoop hourlyRate plate leaveTime table).2 = table := by
  induction table with
  | nil => rfl
  | cons r table ih =>
    rw [leaveLoop] at h ⊢
    by_cases hfound : r.occupied ∧ r.hasPlate plate
    · rw [if_pos hfound] at h
      split_ifs at h
    · rw [if_neg hfound] at h ⊢
      exact congrArg (r :: ·) (ih h)

theorem search_cases {clients : Clients} {table : List ParkingRecord} {asked : Asked}
    (h : (asked.command clients).checked = true) :
    (∃ plate arrival, asked = .park plate arrival ∧
      asked.search hourlyRate clients table = .parking plate arrival ∧
      (asked.command clients).exec hourlyRate table = parkFree table (argText clients plate) arrival) ∨
    (∃ plate leaveTime, asked = .leave plate leaveTime ∧ asked.search hourlyRate clients table = .missing plate ∧
      (asked.command clients).exec hourlyRate table = (.notFound (text (argText clients plate)), table)) ∨
    ∃ reply table', asked.search hourlyRate clients table = .writing reply table' ∧
      (asked.command clients).exec hourlyRate table = (reply, table') := by
  cases asked with
  | park plate arrival =>
    have hgood : ¬ (¬ isValidPlate (argText clients plate) = true ∨ arrival ≤ 0 ∨ arrival > 86400) := of_decide_eq_true h
    have hexec : (Asked.command clients (.park plate arrival)).exec hourlyRate table =
        if duplicate table (argText clients plate) then (.invalidCommand, table)
        else parkFree table (argText clients plate) arrival := if_neg hgood
    by_cases hdup : duplicate table (argText clients plate) = true
    · refine Or.inr (Or.inr ⟨.invalidCommand, table, if_pos hdup, ?_⟩)
      rw [hexec, if_pos hdup]
    · refine Or.inl ⟨plate, arrival, rfl, if_neg hdup, ?_⟩
      rw [hexec, if_neg hdup]
  | leave plate leaveTime =>
    have hgood : ¬ (¬ isValidPlate (argText clients plate) = true ∨ leaveTime ≤ 0 ∨ leaveTime > 86400) :=
      of_decide_eq_true h
    have hexec : (Asked.command clients (.leave plate leaveTime)).exec hourlyRate table =
        ((leaveLoop hourlyRate (argText clients plate) leaveTime table).1.getD (.notFound (text (argText clients plate))),
          (leaveLoop hourlyRate (argText clients plate) leaveTime table).2) := if_neg hgood
    have hnone := @leaveLoop_none hourlyRate (argText clients plate) leaveTime table
    rw [hexec, Asked.search]
    rcases hloop : leaveLoop hourlyRate (argText clients plate) leaveTime table with ⟨_ | reply, table'⟩
    · rw [hloop] at hnone
      exact Or.inr (Or.inl ⟨plate, leaveTime, rfl, rfl, congrArg (Prod.mk _) (hnone rfl)⟩)
    · exact Or.inr (Or.inr ⟨reply, table', rfl, rfl⟩)
  | showTable => exact Or.inr (Or.inr ⟨_, _, rfl, rfl⟩)

/-! ## The lines -/

theorem command_congr (cmd chunk : List CChar) : command cmd chunk = command [] chunk := by
  by_cases h0 : 0 ∈ chunk
  · obtain ⟨line, more, rfl, hline⟩ := List.eq_append_cons_of_mem h0
    have htext : ∀ cmd : List CChar, command cmd (line ++ 0 :: more) = lineText line := by
      intro cmd
      unfold command fgets
      rw [List.append_assoc, List.cons_append]
      exact text_stripNewline hline _
    rw [htext, htext]
  · rw [command_eq h0, command_eq h0]

theorem line_receive (clients : Clients) (t : Nat) (chunk : List CChar) :
    (receive clients t chunk).line t = command [] chunk := by
  rw [← command_congr (clients.cmd t)]
  exact Function.update_self _ _ _

theorem strlen_receive (clients : Clients) (t : Nat) (chunk : List CChar) :
    strlen ((receive clients t chunk).cmd t) = 0 ↔ command [] chunk = [] := by
  have hcmd : (receive clients t chunk).cmd t = stripNewline (fgets (clients.cmd t) chunk) := Function.update_self _ _ _
  rw [hcmd, strlen, List.length_eq_zero_iff, ← command_congr (clients.cmd t)]
  rfl

/-! ## The relation -/

/-- The thread has taken this line from the stream. -/
def Taken (c : Connection) (d : Session) (line : List CChar) : Prop :=
  ∃ chunk, readChunk chunkSize d.stream = (chunk, c.stream) ∧ command [] chunk = line ∧ line ≠ []

/-- The session waits for the answer to the line. -/
def Serving (c : Connection) (d : Session) (line : List CChar) : Prop :=
  d.state = .opened ∧ Taken c d line ∧ d.out = c.out

/-- The line asks for a command that comes to this. -/
def Yields (hourlyRate : ℚ) (table : List ParkingRecord) (line : List CChar)
    (result : Reply × List ParkingRecord) : Prop :=
  ∃ command, request line = .run command ∧ command.exec hourlyRate table = result

/-- A line is served when the table is changed, or when it turns out that it does not need the table. -/
def Matches (hourlyRate : ℚ) (table : List ParkingRecord) (clients : Clients) (u : Nat) (c : Connection)
    (d : Session) : Prop :=
  match c.stage with
  | .absent | .accepted => d.state = .absent ∧ d.stream = c.stream ∧ d.out = c.out
  | .reading => d.state = .opened ∧ d.stream = c.stream ∧ d.out = c.out
  | .parsing => Serving c d (clients.line u)
  | .locking asked | .inside asked =>
    Serving c d (clients.line u) ∧ asked.Owned u ∧ (asked.command clients).checked = true ∧
      request (clients.line u) = .run (asked.command clients)
  | .parking plate arrival =>
    Serving c d (clients.line u) ∧ plate.thread = u ∧
      Yields hourlyRate table (clients.line u) (parkFree table (argText clients plate) arrival)
  | .missing plate =>
    Serving c d (clients.line u) ∧ plate.thread = u ∧
      Yields hourlyRate table (clients.line u) (.notFound (text (argText clients plate)), table)
  | .writing reply table' => Serving c d (clients.line u) ∧ Yields hourlyRate table (clients.line u) (reply, table')
  | .unlocking => d.state = .opened ∧ d.stream = fprintf c.stream ∧ d.out = c.out ++ [.prompt]
  | .closed => d.state = .closed ∧ d.out = c.out

structure Linear (hourlyRate : ℚ) (s : Service) (a : CarPark n) : Prop where
  threads : ∀ u, ThreadOk s.clients u
  table : Represents s.parkingTable a.lot
  conn : ∀ u, Matches hourlyRate s.parkingTable s.clients u (s.conn u) (a.session u)

/-- The line and the buffer of a thread are its own, and only who has the lock has read the table. -/
theorem Matches.frame {table table' : List ParkingRecord} {clients clients' : Clients} {u : Nat} {c : Connection}
    {d : Session} (h : Matches hourlyRate table clients u c d) (hline : clients'.line u = clients.line u)
    (hcmd : clients'.cmd u = clients.cmd u) (htable : c.stage.inLock = true → table' = table) :
    Matches hourlyRate table' clients' u c d := by
  unfold Matches at h ⊢
  rw [hline]
  cases hstage : c.stage with
  | locking asked | inside asked =>
    rw [hstage] at h
    dsimp only at h ⊢
    rw [h.2.1.command_congr hcmd]
    exact h
  | parking plate arrival =>
    rw [hstage] at h htable
    dsimp only at h ⊢
    rw [htable rfl, argText_congr h.2.1 hcmd]
    exact h
  | missing plate =>
    rw [hstage] at h htable
    dsimp only at h ⊢
    rw [htable rfl, argText_congr h.2.1 hcmd]
    exact h
  | writing reply table'' =>
    rw [hstage] at h htable
    rw [htable rfl]
    exact h
  | _ =>
    rw [hstage] at h
    exact h

theorem Linear.next (h : Linear hourlyRate s a) {lot : Lot n} {d : Session} (hthreads : ∀ u, ThreadOk s'.clients u)
    (hline : ∀ u, u ≠ t → s'.clients.line u = s.clients.line u) (hcmd : ∀ u, u ≠ t → s'.clients.cmd u = s.clients.cmd u)
    (hconn : ∀ u, u ≠ t → s'.conn u = s.conn u) (htable : Represents s'.parkingTable lot)
    (hsame : ∀ u, u ≠ t → (s.conn u).stage.inLock = true → s'.parkingTable = s.parkingTable)
    (hmatch : Matches hourlyRate s'.parkingTable s'.clients t (s'.conn t) d) :
    Linear hourlyRate s' ⟨lot, Function.update a.session t d⟩ where
  threads := hthreads
  table := htable
  conn u := by
    dsimp only
    by_cases hu : u = t
    · subst hu
      rw [Function.update_self]
      exact hmatch
    · rw [hconn u hu, Function.update_of_ne hu]
      exact (h.conn u).frame (hline u hu) (hcmd u hu) (hsame u hu)

theorem Linear.stay (h : Linear hourlyRate s a) (hthreads : ∀ u, ThreadOk s'.clients u)
    (hline : ∀ u, u ≠ t → s'.clients.line u = s.clients.line u) (hcmd : ∀ u, u ≠ t → s'.clients.cmd u = s.clients.cmd u)
    (hconn : ∀ u, u ≠ t → s'.conn u = s.conn u) (htable : s'.parkingTable = s.parkingTable)
    (hmatch : Matches hourlyRate s.parkingTable s'.clients t (s'.conn t) (a.session t)) :
    Linear hourlyRate s' a := by
  rw [← htable] at hmatch
  have hnext := h.next hthreads hline hcmd hconn (htable ▸ h.table) (fun _ _ _ => htable) hmatch
  rwa [Function.update_eq_self] at hnext

/-! ## Steps of the car park -/

theorem CarPark.serve {lot : Lot n} {d : Session} (h : (a.session t).Serves hourlyRate a.lot lot d) :
    (carPark n hourlyRate input).step a t ⟨lot, Function.update a.session t d⟩ := ⟨d, h, rfl⟩

theorem Linear.set (h : Linear hourlyRate s a) {c : Connection} {tableLock : Option Nat}
    (hmatch : Matches hourlyRate s.parkingTable s.clients t c (a.session t)) :
    Linear hourlyRate ({ s with tableLock }.set t c) a := by
  refine h.stay h.threads (fun _ _ => rfl) (fun _ _ => rfl) (fun u hu => Service.set_other hu { s with tableLock } c) rfl ?_
  rw [Service.set_conn]
  exact hmatch

theorem Linear.serve (h : Linear hourlyRate s a) {c : Connection} {d : Session}
    (hmatch : Matches hourlyRate s.parkingTable s.clients t c d) :
    Linear hourlyRate (s.set t c) ⟨a.lot, Function.update a.session t d⟩ := by
  refine h.next h.threads (fun _ _ => rfl) (fun _ _ => rfl) (fun u hu => Service.set_other hu s c) h.table
    (fun _ _ _ => rfl) ?_
  rw [Service.set_conn]
  exact hmatch

theorem Linear.call (h : Linear hourlyRate s a) {p : Ptr} {args : List Ptr} (hstage : (s.conn t).stage = .parsing)
    (hown : p.thread = t) (hthreads : ∀ u, ThreadOk (callStrtok s.clients t p args) u) :
    Linear hourlyRate { s with clients := callStrtok s.clients t p args } a := by
  refine h.stay (t := t) hthreads (fun _ _ => rfl) (fun u hu => ?_) (fun _ _ => rfl) rfl ?_
  · rw [← hown] at hu
    exact Function.update_of_ne hu _ _
  · have hmatch := h.conn t
    unfold Matches at hmatch ⊢
    rw [hstage] at hmatch ⊢
    exact hmatch

theorem Linear.receive (h : Linear hourlyRate s a) {chunk : List CChar} {rest : Stream}
    (hstage : (s.conn t).stage = .reading) (hchunk : readChunk chunkSize (s.conn t).stream = (chunk, rest))
    (hne : chunk ≠ []) :
    ∃ a', (a' = a ∨ (carPark n hourlyRate input).step a t a') ∧
      Linear hourlyRate ({ s with clients := receive s.clients t chunk }.set t
        (if strlen ((receive s.clients t chunk).cmd t) = 0 then
          Connection.send ⟨.reading, rest, (s.conn t).out⟩ [.prompt]
        else Connection.goto ⟨.reading, rest, (s.conn t).out⟩ .parsing)) a' := by
  have hmatch := h.conn t
  unfold Matches at hmatch
  rw [hstage] at hmatch
  obtain ⟨hopened, hstream, hout⟩ := hmatch
  have hthreads : ∀ u, ThreadOk (Parking.receive s.clients t chunk) u := threadOk_of_receive h.threads
  have hline : ∀ u, u ≠ t → (Parking.receive s.clients t chunk).line u = s.clients.line u :=
    fun u hu => Function.update_of_ne hu _ _
  have hcmd : ∀ u, u ≠ t → (Parking.receive s.clients t chunk).cmd u = s.clients.cmd u :=
    fun u hu => Function.update_of_ne hu _ _
  have hother : ∀ c u, u ≠ t → ({ s with clients := Parking.receive s.clients t chunk }.set t c).conn u = s.conn u :=
    fun c u hu => Service.set_other hu _ c
  have htaken : readChunk chunkSize (a.session t).stream = (chunk, rest) := by rw [hstream, hchunk]
  by_cases hblank : command [] chunk = []
  · rw [if_pos ((strlen_receive s.clients t chunk).mpr hblank)]
    refine ⟨_, .inr (CarPark.serve (.blank hopened htaken hne hblank)), h.next hthreads hline hcmd (hother _) h.table
      (fun _ _ _ => rfl) ?_⟩
    rw [Service.set_conn]
    exact ⟨hopened, rfl, congrArg (· ++ [Sent.prompt]) hout⟩
  · rw [if_neg (mt (strlen_receive s.clients t chunk).mp hblank)]
    refine ⟨a, .inl rfl, h.stay hthreads hline hcmd (hother _) rfl ?_⟩
    rw [Service.set_conn]
    exact ⟨hopened, ⟨chunk, htaken, (line_receive s.clients t chunk).symm, line_receive s.clients t chunk ▸ hblank⟩, hout⟩

theorem Linear.dispatch (h : Linear hourlyRate s a) {args : List Ptr} (hstage : (s.conn t).stage = .parsing)
    (hpc : s.clients.pc t = .parsed args) :
    ∃ a', (a' = a ∨ (carPark n hourlyRate input).step a t a') ∧
      Linear hourlyRate (s.set t ((s.conn t).dispatch s.clients args)) a' := by
  have hmatch := h.conn t
  unfold Matches at hmatch
  rw [hstage] at hmatch
  obtain ⟨hopened, ⟨chunk, htaken, hline, hne⟩, hout⟩ := hmatch
  have hthread := h.threads t
  rw [ThreadOk, hpc] at hthread
  have hrequest : Parking.dispatch (args.map (argText s.clients)) = request (s.clients.line t) := by
    rw [hthread.2]
    rfl
  have hcommand := fun command (hrun : request (s.clients.line t) = .run command) =>
    asked_command (hrequest.trans hrun) hthread.1
  unfold Connection.dispatch
  rw [hrequest]
  rw [← hline] at hne hcommand ⊢
  cases hasked : request (command [] chunk) with
  | invalid =>
    refine ⟨_, .inr (CarPark.serve (.invalid hopened htaken hne hasked)), h.serve ?_⟩
    exact ⟨hopened, rfl, congrArg (· ++ [Sent.reply .invalidCommand, .prompt]) hout⟩
  | quit =>
    refine ⟨_, .inr (CarPark.serve (.quit hopened htaken hne hasked)), h.serve ?_⟩
    exact ⟨rfl, hout⟩
  | run asked =>
    obtain ⟨howned, htext⟩ := hcommand asked hasked
    by_cases hchecked : asked.checked = true
    · simp only [hchecked, if_true]
      refine ⟨a, .inl rfl, h.set ⟨⟨hopened, ⟨chunk, htaken, hline, hline ▸ hne⟩, hout⟩, howned, ?_, ?_⟩⟩
      · rw [htext]
        exact hchecked
      · rw [htext, ← hline]
        exact hasked
    · simp only [hchecked]
      have hrefused := answers_unchecked hchecked hourlyRate a.lot
      refine ⟨_, .inr (CarPark.serve (.run hopened htaken hne hasked hrefused)), h.serve ?_⟩
      exact ⟨hopened, rfl, congrArg (· ++ [Sent.reply .invalidCommand, .prompt]) hout⟩

theorem Linear.search (h : Linear hourlyRate s a) {asked : Asked} (hstage : (s.conn t).stage = .inside asked) :
    Linear hourlyRate (s.set t ((s.conn t).goto (asked.search hourlyRate s.clients s.parkingTable))) a := by
  have hmatch := h.conn t
  unfold Matches at hmatch
  rw [hstage] at hmatch
  obtain ⟨hserving, howned, hchecked, hasked⟩ := hmatch
  refine h.set ?_
  rcases @search_cases hourlyRate s.clients s.parkingTable asked hchecked with
    ⟨plate, arrival, rfl, hsearch, hexec⟩ | ⟨plate, leaveTime, rfl, hsearch, hexec⟩ | ⟨reply, table', hsearch, hexec⟩
  · rw [hsearch]
    exact ⟨hserving, howned, _, hasked, hexec⟩
  · rw [hsearch]
    exact ⟨hserving, howned, _, hasked, hexec⟩
  · rw [hsearch]
    exact ⟨hserving, _, hasked, hexec⟩

theorem Linear.write (h : Linear hourlyRate s a) (hr : 0 < hourlyRate) (hlock : LockOk s.conn s.tableLock)
    {reply : Reply} {table : List ParkingRecord} (hstage : (s.conn t).stage = .writing reply table) :
    ∃ a', (carPark n hourlyRate input).step a t a' ∧ Linear hourlyRate
      ({ s with parkingTable := table }.set t (((s.conn t).send [.reply reply]).goto .unlocking)) a' := by
  have hmatch := h.conn t
  unfold Matches at hmatch
  rw [hstage] at hmatch
  obtain ⟨⟨hopened, ⟨chunk, htaken, hline, hne⟩, hout⟩, asked, hasked, hexec⟩ := hmatch
  obtain ⟨lot, hanswer, htable⟩ := exec_answers h.table hr asked
  rw [hexec] at hanswer htable
  rw [← hline] at hne hasked
  refine ⟨_, CarPark.serve (.run hopened htaken hne hasked hanswer), h.next h.threads (fun _ _ => rfl) (fun _ _ => rfl)
    (fun u hu => Service.set_other hu _ _) htable (fun u hu hin => ?_) ?_⟩
  · exact absurd (hlock.one hin (by rw [hstage]; rfl)) hu
  · rw [Service.set_conn]
    refine ⟨hopened, rfl, ?_⟩
    rw [Connection.goto, Connection.send, List.append_assoc, ← hout]
    rfl

theorem linear_step (hr : 0 < hourlyRate) (hinv : Inv s) (h : Linear hourlyRate s a) (hgood : s.Undisturbed t)
    (hstep : s.exec hourlyRate t = some s') :
    ∃ a', (a' = a ∨ (carPark n hourlyRate input).step a t a') ∧ Linear hourlyRate s' a' := by
  have hmatch := h.conn t
  unfold Matches at hmatch
  cases move_of_exec hstep with
  | accept hstage =>
    rw [hstage] at hmatch
    exact ⟨a, .inl rfl, h.set hmatch⟩
  | greet hstage =>
    rw [hstage] at hmatch
    obtain ⟨habsent, hstream, hout⟩ := hmatch
    refine ⟨_, .inr (CarPark.serve (.greet habsent)), h.serve ?_⟩
    exact ⟨rfl, congrArg fprintf hstream, congrArg (· ++ [Sent.prompt]) hout⟩
  | finish hstage hend =>
    rw [hstage] at hmatch
    obtain ⟨hopened, hstream, hout⟩ := hmatch
    refine ⟨_, .inr (CarPark.serve (.finish hopened (by rw [hstream]; exact hend))), h.serve ?_⟩
    exact ⟨rfl, hout⟩
  | receive hstage hchunk hne => exact h.receive hstage hchunk hne
  | call e hstage hexec hquiet hown =>
    exact ⟨a, .inl rfl, h.call hstage (hown (h.threads t) hgood) (step_threadOk h.threads (hquiet hgood) hexec)⟩
  | dispatch hstage hpc => exact h.dispatch hstage hpc
  | lock hstage hfree =>
    rw [hstage] at hmatch
    exact ⟨a, .inl rfl, h.set hmatch⟩
  | search hstage => exact ⟨a, .inl rfl, h.search hstage⟩
  | park hstage =>
    rw [hstage] at hmatch
    exact ⟨a, .inl rfl, h.set ⟨hmatch.1, hmatch.2.2⟩⟩
  | miss hstage =>
    rw [hstage] at hmatch
    exact ⟨a, .inl rfl, h.set ⟨hmatch.1, hmatch.2.2⟩⟩
  | write hstage =>
    obtain ⟨a', ha, hlinear⟩ := h.write hr hinv.lock hstage
    exact ⟨a', .inr ha, hlinear⟩
  | unlock hstage =>
    rw [hstage] at hmatch
    exact ⟨a, .inl rfl, h.set hmatch⟩

/-! ## All runs -/

theorem exec_inLock (hourlyRate : ℚ) (h : (s.conn t).stage.inLock = true) : ∃ s', s.exec hourlyRate t = some s' := by
  unfold Service.exec
  cases hstage : (s.conn t).stage with
  | inside | parking | missing | writing | unlocking =>
    simp only [hstage]
    exact ⟨_, rfl⟩
  | _ =>
    rw [hstage] at h
    exact nomatch h

/-- A connection that is open is not stuck: it can go on, or who has the lock can. -/
theorem exists_step (hourlyRate : ℚ) (hinv : Inv s) (habsent : (s.conn t).stage ≠ .absent)
    (hclosed : (s.conn t).stage ≠ .closed) :
    ∃ u s', (s.conn u).stage ≠ .absent ∧ s.exec hourlyRate u = some s' := by
  have hown : (∃ s', s.exec hourlyRate t = some s') →
      ∃ u s', (s.conn u).stage ≠ .absent ∧ s.exec hourlyRate u = some s' := by
    rintro ⟨s', hs⟩
    exact ⟨t, s', habsent, hs⟩
  cases hstage : (s.conn t).stage with
  | absent => exact absurd hstage habsent
  | closed => exact absurd hstage hclosed
  | locking asked =>
    cases hlock : s.tableLock with
    | none =>
      apply hown
      refine ⟨{ s with tableLock := some t }.set t ((s.conn t).goto (.inside asked)), ?_⟩
      unfold Service.exec
      simp only [hstage, hlock, if_true]
    | some u =>
      have hin : (s.conn u).stage.inLock = true := (hinv.lock u).mpr hlock
      obtain ⟨s', hs⟩ := exec_inLock hourlyRate hin
      refine ⟨u, s', fun hu => ?_, hs⟩
      rw [hu] at hin
      cases hin
  | parsing =>
    obtain ⟨hline, hnext⟩ := hinv.pc t hstage
    apply hown
    unfold Service.exec
    simp only [hstage]
    cases hpc : s.clients.pc t with
    | reading => exact absurd hpc hline
    | next args =>
      obtain ⟨p, hp⟩ := Option.ne_none_iff_exists'.mp (hnext args hpc)
      exact ⟨_, by rw [hp]; rfl⟩
    | _ => exact ⟨_, rfl⟩
  | reading =>
    apply hown
    unfold Service.exec
    simp only [hstage]
    split_ifs <;> exact ⟨_, rfl⟩
  | accepted | inside | parking | missing | writing | unlocking =>
    apply hown
    unfold Service.exec
    simp only [hstage]
    exact ⟨_, rfl⟩

theorem linear_init (h : (service n hourlyRate input).init s) :
    ∃ a, (carPark n hourlyRate input).init a ∧ Linear hourlyRate s a := by
  obtain ⟨-, -, ⟨hpc, -⟩, hconn, htable, -⟩ := h
  refine ⟨⟨BoundedMap.empty, fun t => ⟨.absent, fdopen (input t), []⟩⟩, ⟨rfl, rfl⟩, fun u => ?_, ?_, fun u => ?_⟩
  · rw [ThreadOk, (hpc u).2]
    trivial
  · rw [htable]
    exact represents_start n
  · rw [hconn]
    exact ⟨rfl, rfl, rfl⟩

theorem linear_simulation : Simulation ((service n hourlyRate input).restrict Service.Undisturbed)
    (carPark n hourlyRate input).lazy fun s a => 0 < hourlyRate ∧ Inv s ∧ Linear hourlyRate s a where
  init s hs := by
    obtain ⟨a, ha, hlinear⟩ := linear_init hs
    exact ⟨a, ha, hs.2.1, inv_init hs, hlinear⟩
  step s t s' a h hstep := by
    obtain ⟨hr, hinv, hlinear⟩ := h
    obtain ⟨a', ha, hlinear'⟩ := linear_step hr hinv hlinear hstep.1 hstep.2
    exact ⟨a', ha, hr, (move_of_exec hstep.2).inv hinv, hlinear'⟩

/-- **The server is linearizable**, where the threads do not mix up their lines. The table is that of a car
park that serves one whole line after another, and a client that it has served so far has got the same. -/
theorem clients_linearize (h : Reachable ((service n hourlyRate input).restrict Service.Undisturbed) s) :
    ∃ a, Reachable (carPark n hourlyRate input) a ∧ Represents s.parkingTable a.lot ∧
      (∀ t, (s.conn t).stage = .reading →
        (a.session t).state = .opened ∧ (a.session t).stream = (s.conn t).stream ∧
          (a.session t).out = (s.conn t).out) ∧
      ∀ t, (s.conn t).stage = .closed → (a.session t).state = .closed ∧ (a.session t).out = (s.conn t).out := by
  obtain ⟨a, ha, -, -, hlinear⟩ := linear_simulation.reachable h
  refine ⟨a, ha.of_lazy, hlinear.table, fun t hstage => ?_, fun t hstage => ?_⟩
  · have hmatch := hlinear.conn t
    unfold Matches at hmatch
    rwa [hstage] at hmatch
  · have hmatch := hlinear.conn t
    unfold Matches at hmatch
    rwa [hstage] at hmatch

instance (s : Service) (t : Nat) : Decidable (s.Undisturbed t) :=
  match hpc : s.clients.pc t with
  | .next _ => decidable_of_iff (s.clients.lastCaller = some t) ⟨fun h _ _ => h, fun h => h _ hpc⟩
  | .reading | .first | .parsed _ => isTrue fun _ hnext => nomatch hpc.symm.trans hnext

/-- What two clients send. -/
def sampleInput (t : Nat) : List (List CChar) :=
  if t = 1 then [ascii "park AAA1111 100\n"] else if t = 2 then [ascii "park BBB2222 50\n", ascii "show\n"] else []

/-- The second client sends its line while the first one is served, and waits for the lock. -/
def sampleRun : Option Service :=
  runSteps (fun s t => if s.Undisturbed t then s.exec 1 t else none)
    ⟨noClients, fun t => ⟨.absent, fdopen (sampleInput t), []⟩, List.replicate 2 blankRecord, none⟩
    [1, 2, 1, 2, 1, 2, 1, 1, 1, 1, 1, 1, 2, 2, 2, 2, 1, 2, 1, 1, 1, 2, 2, 2, 2, 2, 2, 2, 2, 2, 2, 2, 2, 2]

def Stage.isReading : Stage → Bool
  | .reading => true
  | _ => false

theorem Stage.eq_reading {stage : Stage} (h : stage.isReading = true) : stage = .reading := by
  cases stage <;> first | rfl | exact nomatch h

theorem sampleRun_reachable : ∃ s, sampleRun = some s ∧ (s.conn 1).stage = .reading ∧ (s.conn 2).stage = .reading ∧
    s.parkingTable.map (fun r => text r.plate.toList) = [ascii "AAA1111", ascii "BBB2222"] ∧
    (s.conn 2).out.length = 5 ∧
    Reachable ((service 2 1 sampleInput).restrict Service.Undisturbed) s := by
  have hends : sampleRun.map (fun s => ((s.conn 1).stage.isReading, (s.conn 2).stage.isReading,
      s.parkingTable.map (fun r => text r.plate.toList), (s.conn 2).out.length)) =
      some (true, true, [ascii "AAA1111", ascii "BBB2222"], 5) := by
    decide +kernel
  obtain ⟨s, hs, hplace⟩ := Option.map_eq_some_iff.mp hends
  simp only [Prod.mk.injEq] at hplace
  refine ⟨s, hs, Stage.eq_reading hplace.1, Stage.eq_reading hplace.2.1, hplace.2.2.1, hplace.2.2.2, ?_⟩
  refine Reachable.runSteps (fun _ _ _ _ he => Option.ite_none_right_eq_some.mp he) (Reachable.init ?_) hs
  exact ⟨Nat.two_pos, one_pos, noClients_init, rfl, rfl, rfl⟩

theorem clients_linearize_sample :
    ∃ s a, sampleRun = some s ∧ Reachable (carPark 2 1 sampleInput) a ∧ Represents s.parkingTable a.lot ∧
      (a.session 1).out = (s.conn 1).out ∧ (a.session 2).out = (s.conn 2).out ∧ (a.session 2).out.length = 5 := by
  obtain ⟨s, hs, hone, htwo, -, hlength, h⟩ := sampleRun_reachable
  obtain ⟨a, ha, htable, hreading, -⟩ := clients_linearize h
  have hout := (hreading 2 htwo).2.2
  exact ⟨s, a, hs, ha, htable, (hreading 1 hone).2.2, hout, (congrArg List.length hout).trans hlength⟩

end OsCoursework.Parking
