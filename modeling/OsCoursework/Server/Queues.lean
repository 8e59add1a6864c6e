import OsCoursework.Server.Bounds

/-!
# The queues between the clients and the server

Any clients, each with one request. All responses go through one queue, and the client that
reads it first gets the oldest. The state keeps beside the queues who sent, what was answered
and who received, in order.
-/

open OsCoursework.Cstring OsCoursework.Transition

namespace OsCoursework.Server.Queues

/-- `mq_maxmsg` -/
def maxMsg : Nat := 10

inductive ClientPc where
  | sending
  | receiving
  | printed (response : ServerResponse)
  deriving DecidableEq

structure State (χ : Type) where
  argStr : EditingString
  serverQueue : List (χ × ClientRequest)
  /-- The response that the server is about to send. -/
  response : Option (χ × ServerResponse)
  clientQueue : List (χ × ServerResponse)
  client : χ → ClientPc
  sent : List χ
  answered : List (χ × ServerResponse)
  received : List χ

def begin (χ : Type) (argStr : EditingString) : State χ where
  argStr := argStr
  serverQueue := []
  response := none
  clientQueue := []
  client _ := .sending
  sent := []
  answered := []
  received := []

inductive Event (χ : Type) where
  | clientSend (c : χ)
  | serverReceive
  | serverSend
  | clientReceive (c : χ)

variable {χ : Type}

/-- `none` is a call that blocks, or a step of the server that runs over a buffer. -/
def exec [DecidableEq χ] (request : χ → ClientRequest) (s : State χ) : Event χ → Option (State χ)
  | .clientSend c =>
    if s.client c = .sending ∧ s.serverQueue.length < maxMsg then
      some { s with
        serverQueue := s.serverQueue ++ [(c, request c)]
        client := Function.update s.client c .receiving
        sent := s.sent ++ [c] }
    else none
  | .serverReceive =>
    match s.response, s.serverQueue with
    | none, (c, r) :: serverQueue =>
      (turn s.argStr r).map fun t => { s with
        argStr := t.2
        serverQueue := serverQueue
        response := some (c, t.1)
        answered := s.answered ++ [(c, t.1)] }
    | _, _ => none
  | .serverSend =>
    match s.response with
    | some response =>
      if s.clientQueue.length < maxMsg then
        some { s with response := none, clientQueue := s.clientQueue ++ [response] }
      else none
    | none => none
  | .clientReceive c =>
    match s.client c, s.clientQueue with
    | .receiving, (_, response) :: clientQueue =>
      some { s with
        clientQueue := clientQueue
        client := Function.update s.client c (.printed response)
        received := s.received ++ [c] }
    | _, _ => none

def system [DecidableEq χ] (request : χ → ClientRequest) (argStr : EditingString) : System (State χ) (Event χ) where
  init s := s = begin χ argStr
  step s e s' := exec request s e = some s'

/-! ## The invariant -/

variable {request : χ → ClientRequest} {argStr : EditingString} {s s' : State χ}

structure Inv (request : χ → ClientRequest) (argStr : EditingString) (s : State χ) : Prop where
  /-- The requests are answered in the order in which they were sent. -/
  order : s.answered.map Prod.fst ++ s.serverQueue.map Prod.fst = s.sent
  own : ∀ q ∈ s.serverQueue, q.2 = request q.1
  served : serve argStr (s.answered.map fun a => request a.1) = some (s.answered.map Prod.snd, s.argStr)
  /-- The responses leave in the order in which they were made. -/
  fifo : s.answered.drop s.received.length = s.clientQueue ++ s.response.toList
  room : s.received.length ≤ s.answered.length
  sentOnce : s.sent.Nodup
  receivedOnce : s.received.Nodup
  mem_sent : ∀ c, c ∈ s.sent ↔ s.client c ≠ .sending
  mem_received : ∀ c, c ∈ s.received ↔ ∃ response, s.client c = .printed response
  printed : ∀ (k : Nat) c, s.received[k]? = some c →
    ∃ d response, s.answered[k]? = some (d, response) ∧ s.client c = .printed response

theorem inv_begin (request : χ → ClientRequest) (argStr : EditingString) : Inv request argStr (begin χ argStr) where
  order := rfl
  own q h := by cases h
  served := rfl
  fifo := rfl
  room := le_rfl
  sentOnce := List.nodup_nil
  receivedOnce := List.nodup_nil
  mem_sent c := by simp [begin]
  mem_received c := by simp [begin]
  printed k c h := by simp [begin] at h

/-! ## The steps -/

theorem serve_append {argStr t u : EditingString} {requests : List ClientRequest} {r : ClientRequest}
    {responses : List ServerResponse} {response : ServerResponse} (h : serve argStr requests = some (responses, t))
    (hturn : turn t r = some (response, u)) : serve argStr (requests ++ [r]) = some (responses ++ [response], u) := by
  induction requests generalizing argStr responses with
  | nil =>
    cases h
    rw [List.nil_append, serve, hturn]
    rfl
  | cons r' requests ih =>
    rw [serve] at h
    obtain ⟨q, hq, h⟩ := Option.bind_eq_some_iff.mp h
    obtain ⟨rest, hrest, heq⟩ := Option.map_eq_some_iff.mp h
    obtain ⟨rfl, rfl⟩ := Prod.mk.inj heq
    rw [List.cons_append, serve, hq, Option.bind_some, ih hrest, Option.map_some, List.cons_append]

theorem Inv.serverReceive {c : χ} {r : ClientRequest} {serverQueue : List (χ × ClientRequest)}
    {t : ServerResponse × EditingString} (h : Inv request argStr s) (hidle : s.response = none)
    (hqueue : s.serverQueue = (c, r) :: serverQueue) (hturn : turn s.argStr r = some t) :
    Inv request argStr { s with
      argStr := t.2
      serverQueue := serverQueue
      response := some (c, t.1)
      answered := s.answered ++ [(c, t.1)] } := by
  have hown := h.own
  rw [hqueue] at hown
  have hr : r = request c := hown (c, r) List.mem_cons_self
  refine { h with
    order := ?_
    own := fun q hq => hown q (List.mem_cons_of_mem _ hq)
    served := ?_
    fifo := ?_
    room := ?_
    printed := ?_ }
  · rw [← h.order, hqueue, List.map_append, List.append_assoc]
    rfl
  · rw [List.map_append, List.map_append]
    rw [hr] at hturn
    exact serve_append h.served hturn
  · have hfifo := h.fifo
    rw [hidle, Option.toList_none, List.append_nil] at hfifo
    rw [List.drop_append_of_le_length h.room, hfifo]
    rfl
  · exact h.room.trans (by simp)
  · intro k d hk
    obtain ⟨e, response, hanswer, hprinted⟩ := h.printed k d hk
    have hlt := (List.getElem?_eq_some_iff.mp hanswer).1
    exact ⟨e, response, by rw [List.getElem?_append_left hlt, hanswer], hprinted⟩

theorem Inv.serverSend {response : χ × ServerResponse} (h : Inv request argStr s)
    (hresponse : s.response = some response) : Inv request argStr { s with
      response := none, clientQueue := s.clientQueue ++ [response] } := by
  refine { h with fifo := ?_ }
  have hfifo := h.fifo
  rw [hresponse, Option.toList_some] at hfifo
  rw [hfifo, Option.toList_none, List.append_nil]

theorem Inv.answered_prefix (h : Inv request argStr s) : s.answered.map Prod.fst <+: s.sent :=
  ⟨_, h.order⟩

theorem Inv.received_subset (h : Inv request argStr s) : s.received ⊆ s.sent := by
  intro c hc
  obtain ⟨response, hprinted⟩ := (h.mem_received c).mp hc
  rw [h.mem_sent, hprinted]
  exact ClientPc.noConfusion

variable [DecidableEq χ]

inductive Move (request : χ → ClientRequest) (s : State χ) : State χ → Prop
  | clientSend {c : χ} (hc : s.client c = .sending) : Move request s { s with
      serverQueue := s.serverQueue ++ [(c, request c)]
      client := Function.update s.client c .receiving
      sent := s.sent ++ [c] }
  | serverReceive {c : χ} {r : ClientRequest} {serverQueue : List (χ × ClientRequest)}
      {t : ServerResponse × EditingString} (hidle : s.response = none) (hqueue : s.serverQueue = (c, r) :: serverQueue)
      (hturn : turn s.argStr r = some t) : Move request s { s with
      argStr := t.2
      serverQueue := serverQueue
      response := some (c, t.1)
      answered := s.answered ++ [(c, t.1)] }
  | serverSend {response : χ × ServerResponse} (hresponse : s.response = some response) : Move request s { s with
      response := none, clientQueue := s.clientQueue ++ [response] }
  | clientReceive {c d : χ} {response : ServerResponse} {clientQueue : List (χ × ServerResponse)}
      (hc : s.client c = .receiving) (hqueue : s.clientQueue = (d, response) :: clientQueue) : Move request s { s with
      clientQueue := clientQueue
      client := Function.update s.client c (.printed response)
      received := s.received ++ [c] }

theorem move_of_exec {e : Event χ} (h : exec request s e = some s') : Move request s s' := by
  cases e with
  | clientSend c =>
    simp only [exec] at h
    split_ifs at h with hc
    cases h
    exact .clientSend hc.1
  | serverReceive =>
    simp only [exec] at h
    split at h
    · rename_i c r serverQueue hidle hqueue
      obtain ⟨t, hturn, rfl⟩ := Option.map_eq_some_iff.mp h
      exact .serverReceive hidle hqueue hturn
    · cases h
  | serverSend =>
    simp only [exec] at h
    split at h
    · rename_i response hresponse
      split_ifs at h
      cases h
      exact .serverSend hresponse
    · cases h
  | clientReceive c =>
    simp only [exec] at h
    split at h
    · rename_i d response clientQueue hc hqueue
      cases h
      exact .clientReceive hc hqueue
    · cases h

theorem Inv.clientSend {c : χ} (h : Inv request argStr s) (hc : s.client c = .sending) : Inv request argStr { s with
    serverQueue := s.serverQueue ++ [(c, request c)]
    client := Function.update s.client c .receiving
    sent := s.sent ++ [c] } := by
  have hnotSent : c ∉ s.sent := fun hm => (h.mem_sent c).mp hm hc
  have hnotReceived : c ∉ s.received := by
    intro hm
    obtain ⟨response, hprinted⟩ := (h.mem_received c).mp hm
    rw [hc] at hprinted
    cases hprinted
  refine { h with
    order := ?_
    own := ?_
    sentOnce := ?_
    mem_sent := ?_
    mem_received := ?_
    printed := ?_ }
  · rw [List.map_append, ← List.append_assoc, h.order]
    rfl
  · intro q hq
    rcases List.mem_append.mp hq with hq | hq
    · exact h.own q hq
    · rw [List.mem_singleton.mp hq]
  · exact h.sentOnce.append (List.nodup_singleton c) (by simpa using hnotSent)
  · intro d
    by_cases hd : d = c
    · subst hd
      simp
    · simp [hd, h.mem_sent d]
  · intro d
    by_cases hd : d = c
    · subst hd
      simp [hnotReceived]
    · simp [hd, h.mem_received d]
  · intro k d hk
    have hd : d ≠ c := fun hd => hnotReceived (hd ▸ List.mem_of_getElem? hk)
    simpa [hd] using h.printed k d hk

theorem Inv.clientReceive {c d : χ} {response : ServerResponse} {clientQueue : List (χ × ServerResponse)}
    (h : Inv request argStr s) (hc : s.client c = .receiving) (hqueue : s.clientQueue = (d, response) :: clientQueue) :
    Inv request argStr { s with
      clientQueue := clientQueue
      client := Function.update s.client c (.printed response)
      received := s.received ++ [c] } := by
  have hnotReceived : c ∉ s.received := by
    intro hm
    obtain ⟨response', hprinted⟩ := (h.mem_received c).mp hm
    rw [hc] at hprinted
    cases hprinted
  have hfifo := h.fifo
  rw [hqueue, List.cons_append] at hfifo
  have hhead : s.answered[s.received.length]? = some (d, response) := by
    rw [← List.head?_drop, hfifo, List.head?_cons]
  have hlt := (List.getElem?_eq_some_iff.mp hhead).1
  refine { h with
    fifo := ?_
    room := ?_
    receivedOnce := ?_
    mem_sent := ?_
    mem_received := ?_
    printed := ?_ }
  · rw [List.length_append, List.length_singleton, ← List.drop_drop, hfifo]
    rfl
  · rw [List.length_append, List.length_singleton]
    exact hlt
  · exact h.receivedOnce.append (List.nodup_singleton c) (by simpa using hnotReceived)
  · intro e
    by_cases he : e = c
    · subst he
      simp [h.mem_sent e, hc]
    · simp [he, h.mem_sent e]
  · intro e
    by_cases he : e = c
    · subst he
      simp
    · simp [he, h.mem_received e]
  · intro k e hk
    rw [List.getElem?_append] at hk
    split_ifs at hk with hlt'
    · have he : e ≠ c := fun he => hnotReceived (he ▸ List.mem_of_getElem? hk)
      simpa [he] using h.printed k e hk
    · have hk0 : k = s.received.length := by
        have := (List.getElem?_eq_some_iff.mp hk).1
        rw [List.length_singleton] at this
        omega
      subst hk0
      rw [Nat.sub_self] at hk
      obtain rfl : c = e := Option.some.inj hk
      exact ⟨d, response, hhead, Function.update_self ..⟩

theorem reachable_inv (h : Reachable (system request argStr) s) : Inv request argStr s := by
  refine h.invariant ?_ ?_
  · rintro _ rfl
    exact inv_begin request argStr
  · intro s e s' _ hinv hstep
    cases move_of_exec hstep with
    | clientSend hc => exact hinv.clientSend hc
    | serverReceive hidle hqueue hturn => exact hinv.serverReceive hidle hqueue hturn
    | serverSend hresponse => exact hinv.serverSend hresponse
    | clientReceive hc hqueue => exact hinv.clientReceive hc hqueue

/-! ## Who gets which response -/

theorem Inv.printed_eq (h : Inv request argStr s) {c : χ} {response : ServerResponse}
    (hc : s.client c = .printed response) :
    ∃ d, s.sent[s.received.idxOf c]? = some d ∧ s.answered[s.received.idxOf c]? = some (d, response) := by
  have hmem : c ∈ s.received := (h.mem_received c).mpr ⟨response, hc⟩
  have hk : s.received[s.received.idxOf c]? = some c := List.getElem?_idxOf hmem
  obtain ⟨d, response', hanswer, hprinted⟩ := h.printed _ c hk
  obtain rfl : response = response' := ClientPc.printed.inj (hc.symm.trans hprinted)
  refine ⟨d, ?_, hanswer⟩
  have hfst : (s.answered.map Prod.fst)[s.received.idxOf c]? = some d := by rw [List.getElem?_map, hanswer]; rfl
  rw [← h.order, List.getElem?_append_left (List.getElem?_eq_some_iff.mp hfst).1, hfst]

theorem Inv.exists_step (h : Inv request argStr s) {c : χ} (hc : ∀ response, s.client c ≠ .printed response) :
    (∃ e, (exec request s e).isSome) ∨
      ∃ q, s.serverQueue.head? = some q ∧ turn s.argStr q.2 = none := by
  have horder := congrArg List.length h.order
  have hfifo := congrArg List.length h.fifo
  simp only [List.length_append, List.length_map, List.length_drop] at horder hfifo
  cases hqueue : s.clientQueue with
  | cons response clientQueue =>
    -- Somebody has sent and not yet received.
    rw [hqueue, List.length_cons] at hfifo
    obtain ⟨d, hd, hd'⟩ : ∃ d ∈ s.sent, d ∉ s.received := by
      by_contra hall
      have hsub : s.sent ⊆ s.received := fun d hd => by_contra fun hd' => hall ⟨d, hd, hd'⟩
      have hlen := (h.sentOnce.subperm hsub).length_le
      omega
    have hreceiving : s.client d = .receiving := by
      cases hclient : s.client d with
      | sending => exact absurd hclient ((h.mem_sent d).mp hd)
      | receiving => rfl
      | printed response => exact absurd ((h.mem_received d).mpr ⟨response, hclient⟩) hd'
    exact Or.inl ⟨.clientReceive d, by simp [exec, hreceiving, hqueue]⟩
  | nil =>
    cases hresponse : s.response with
    | some response => exact Or.inl ⟨.serverSend, by simp [exec, hresponse, hqueue, maxMsg]⟩
    | none =>
      cases hserver : s.serverQueue with
      | cons q serverQueue =>
        cases hturn : turn s.argStr q.2 with
        | none => exact Or.inr ⟨q, rfl, hturn⟩
        | some t => exact Or.inl ⟨.serverReceive, by simp [exec, hresponse, hserver, hturn]⟩
      | nil =>
        -- Nothing is on the way, so who has sent has received.
        rw [hqueue, hresponse, List.length_nil, Option.toList_none, List.length_nil] at hfifo
        rw [hserver, List.length_nil] at horder
        have hsub : s.sent ⊆ s.received := by
          refine ((h.receivedOnce.subperm h.received_subset).perm_of_length_le ?_).symm.subset
          omega
        have hsending : s.client c = .sending := by
          by_contra hsent
          obtain ⟨response, hprinted⟩ := (h.mem_received c).mp (hsub ((h.mem_sent c).mpr hsent))
          exact hc response hprinted
        exact Or.inl ⟨.clientSend c, by simp [exec, hsending, hserver, maxMsg]⟩

/-- **The answers come in the order of the requests, and so do the prints.** -/
theorem responses_in_order {χ : Type} [DecidableEq χ] {request : χ → ClientRequest} {argStr : EditingString}
    {s : State χ} (h : Reachable (system request argStr) s) :
    (s.sent.Nodup ∧ (∀ c, c ∈ s.sent ↔ s.client c ≠ .sending) ∧ s.answered.map Prod.fst <+: s.sent ∧
      serve argStr (s.answered.map fun a => request a.1) = some (s.answered.map Prod.snd, s.argStr)) ∧
    (∀ c response, s.client c = .printed response →
      ∃ d, s.sent[s.received.idxOf c]? = some d ∧ s.answered[s.received.idxOf c]? = some (d, response) ∧
        (d = c ↔ s.sent.idxOf c = s.received.idxOf c)) ∧
    (∀ c, (∀ response, s.client c ≠ .printed response) →
      (∃ e, (exec request s e).isSome) ∨ ∃ q, s.serverQueue.head? = some q ∧ turn s.argStr q.2 = none) ∧
    (s.serverQueue = [] → s.answered.map Prod.fst = s.sent) := by
  have hinv := reachable_inv h
  refine ⟨⟨hinv.sentOnce, hinv.mem_sent, hinv.answered_prefix, hinv.served⟩, fun c response hc => ?_,
    fun c hc => hinv.exists_step hc, fun hqueue => ?_⟩
  · obtain ⟨d, hsent, hanswer⟩ := hinv.printed_eq hc
    refine ⟨d, hsent, hanswer, fun hd => ?_, fun heq => ?_⟩
    · subst hd
      obtain ⟨hlt, hget⟩ := List.getElem?_eq_some_iff.mp hsent
      have hidx := hinv.sentOnce.idxOf_getElem _ hlt
      rwa [hget] at hidx
    · have hmem : c ∈ s.sent := hinv.received_subset ((hinv.mem_received c).mpr ⟨response, hc⟩)
      rw [← heq, List.getElem?_idxOf hmem] at hsent
      exact (Option.some.inj hsent).symm
  · have horder := hinv.order
    rwa [hqueue, List.map_nil, List.append_nil] at horder

/-- `true` asks for a report, `false` inserts. -/
def twoClients (c : Bool) : ClientRequest := if c then ⟨letter 'r', 0, 0⟩ else ⟨letter 'i', 0, letter 'x'⟩

theorem responses_in_order_two : ∃ argStr, start blank (ascii "ab") = some argStr ∧
    ∃ s, runSteps (exec twoClients) (begin Bool argStr)
        [.clientSend true, .serverReceive, .serverSend, .clientSend false, .clientReceive true] = some s ∧
      s.serverQueue.length = 1 ∧ s.answered.map Prod.fst <+: s.sent := by
  refine ⟨_, start_blank _ (by decide +kernel), ?_⟩
  have hrun : (runSteps (exec twoClients) (begin Bool
      { blank with string := initialString (ascii "ab"), len := strlen (ascii "ab") })
      [.clientSend true, .serverReceive, .serverSend, .clientSend false, .clientReceive true]).map
      (fun s => s.serverQueue.length) = some 1 := by decide +kernel
  obtain ⟨s, hs, hlen⟩ := Option.map_eq_some_iff.mp hrun
  have hreach : Reachable (system twoClients _) s := (Reachable.init rfl).runSteps (fun _ _ _ _ hstep => hstep) hs
  exact ⟨s, hs, hlen, (responses_in_order hreach).1.2.2.1⟩

/-- Two clients at one time, and each prints the response to the other. -/
theorem responses_crossed : ∃ argStr, start blank (ascii "ab") = some argStr ∧
    ∃ s, runSteps (exec twoClients) (begin Bool argStr)
        [.clientSend true, .clientSend false, .serverReceive, .serverSend, .serverReceive, .serverSend,
          .clientReceive false, .clientReceive true] = some s ∧
      s.answered = [(true, ⟨2, ascii "ab [0]"⟩), (false, ⟨0, ascii "OK"⟩)] ∧
      s.client false = .printed ⟨2, ascii "ab [0]"⟩ ∧ s.client true = .printed ⟨0, ascii "OK"⟩ := by
  refine ⟨_, start_blank _ (by decide +kernel), ?_⟩
  have hrun : (runSteps (exec twoClients) (begin Bool
      { blank with string := initialString (ascii "ab"), len := strlen (ascii "ab") })
      [.clientSend true, .clientSend false, .serverReceive, .serverSend, .serverReceive, .serverSend,
        .clientReceive false, .clientReceive true]).map (fun s => (s.answered, s.client false, s.client true)) =
      some ([(true, ⟨2, ascii "ab [0]"⟩), (false, ⟨0, ascii "OK"⟩)], .printed ⟨2, ascii "ab [0]"⟩,
        .printed ⟨0, ascii "OK"⟩) := by decide +kernel
  obtain ⟨s, hs, heq⟩ := Option.map_eq_some_iff.mp hrun
  obtain ⟨hanswered, heq⟩ := Prod.mk.inj heq
  obtain ⟨hfalse, htrue⟩ := Prod.mk.inj heq
  exact ⟨s, hs, hanswered, hfalse, htrue⟩

end OsCoursework.Server.Queues
