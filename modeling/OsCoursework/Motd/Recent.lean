import OsCoursework.Lib.BoundedStack
import OsCoursework.Motd.Listing

/-!
# The newest messages

Requests are served one at a time. What the server keeps is a bounded stack, onto which every message
is pushed when it has been cut to its size.
-/

open OsCoursework.Cstring

namespace OsCoursework.Motd

inductive Request where
  | add (message : List CChar)
  | get (i : Int)
  | count

inductive Reply where
  | added
  | message (text : List CChar)
  | count (n : Nat)
  deriving DecidableEq

def serve (s : Server) : Request → Reply × Server
  | .add message => (.added, add1Svc s message)
  | .get i => (.message (get1Svc s i), s)
  | .count => (.count (count1Svc s), s)

def serveAll (requests : List Request) : Server := requests.foldl (fun s r => (serve s r).2) .init

/-- A message as it fits into its row. -/
def cut (message : List CChar) : List CChar := (text message).take messageMax

def Request.added? : Request → Option (List CChar)
  | .add message => some message
  | _ => none

/-- All messages that were added, newest first. -/
def added (requests : List Request) : List (List CChar) := (requests.filterMap Request.added?).reverse

/-! ## The stack -/

/-- The messages of the server are the items of the stack. -/
structure Shows (s : Server) (stack : BoundedStack (List CChar) historyMax) : Prop where
  le : s.mCount ≤ historyMax
  history : s.history = stack.items

variable {s : Server} {stack : BoundedStack (List CChar) historyMax}

theorem shows_init : Shows .init .empty := ⟨Nat.zero_le _, rfl⟩

theorem Shows.add (h : Shows s stack) (message : List CChar) :
    Shows (add1Svc s message) (stack.push (cut message)) where
  le := (add1Svc_le h.le message).1
  history := by
    rw [(history_add h.le message).2, h.history]
    rfl

theorem foldl_shows (requests : List Request) (h : Shows s stack) :
    Shows (requests.foldl (fun s r => (serve s r).2) s)
      (((requests.filterMap Request.added?).map cut).foldl BoundedStack.push stack) := by
  induction requests generalizing s stack with
  | nil => exact h
  | cons r requests ih =>
    cases r with
    | add message => exact ih (h.add message)
    | get i => exact ih h
    | count => exact ih h

theorem history_serveAll (requests : List Request) :
    (serveAll requests).mCount ≤ historyMax ∧
      (serveAll requests).history = ((added requests).map cut).take historyMax := by
  have h := foldl_shows requests shows_init
  refine ⟨h.le, h.history.trans ?_⟩
  rw [BoundedStack.items_foldl_push, ← List.map_reverse]
  exact congrArg (List.take historyMax) (List.append_nil _)

/-- **The server keeps the three newest messages.** Whatever was asked of it before, `count` is the number of
messages up to three, `get` gives the messages from the newest on, and an index that none of them has is an error.
Neither changes the server. -/
theorem serve_recent (requests : List Request) :
    let s := serveAll requests
    let count := min historyMax (added requests).length
    serve s .count = (.count count, s) ∧
    (∀ i : Int, 0 ≤ i → i < count → ∃ message, (added requests)[i.toNat]? = some message ∧
      serve s (.get i) = (.message ((text message).take messageMax), s)) ∧
    (∀ i : Int, ¬ (0 ≤ i ∧ i < count) → serve s (.get i) = (.message (ascii "error"), s)) := by
  intro s count
  obtain ⟨hle, hhistory⟩ := history_serveAll requests
  have hcount : s.mCount = count := by
    have hlength := congrArg List.length hhistory
    rwa [length_history hle, List.length_take, List.length_map] at hlength
  refine ⟨?_, fun i h0 hi => ?_, fun i hi => ?_⟩
  · unfold serve count1Svc
    rw [hcount]
  · obtain ⟨n, rfl⟩ := Int.eq_ofNat_of_zero_le h0
    have hn : n < s.mCount := by omega
    have hline := get1Svc_eq hle hn
    rw [hhistory, List.getElem?_take_of_lt (by omega), List.getElem?_map] at hline
    obtain ⟨message, hmessage, htext⟩ := Option.map_eq_some_iff.mp hline
    exact ⟨message, hmessage, congrArg (fun text => (Reply.message text, s)) htext.symm⟩
  · have herror : get1Svc s i = ascii "error" := by
      unfold get1Svc
      rw [if_pos (by omega)]
    exact congrArg (fun text => (Reply.message text, s)) herror

end OsCoursework.Motd
