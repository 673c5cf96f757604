import Mathlib.Data.List.ReduceOption
import NeoGo.Network.Peer

/-! # The peer's send queues and the goroutine that drains them

A `TCPPeer` sends through three buffered channels, `hpSendQ`, `p2pSendQ` and `sendQ`, of 4, 16
and 32 packets. Producers put packets into them with `putPacketIntoQueue` once the peer is
handshaked, and one goroutine, `handleQueues`, takes them out and writes them to the
connection. Each of its iterations runs up to three `select`s: the first takes an HP packet if
one is waiting; the second, skipped when `p2pSkipCounter` is a multiple of four, an HP or a P2P
packet; the third waits for a packet of any queue. A `select` takes one of its cases that can
proceed, at random, and `default` only when none can; a nil packet taken by the first two counts
as none.

A session's state is the peer, the three buffers, whether the connection is closed, and where
the writer is. Every atomic action of a goroutine is a step: a method of the peer (`Disconnect`
closing `done` among them), `Disconnect` closing the connection, a producer's `select`, and each
`select` and write of the writer, with the case a `select` takes given by the run. A run is
indexed by the packets put into the queues and the packets handed to `conn.Write`. On every run:

* each queue holds at most its size, and the non-nil packets of a queue that were handed to
  `conn.Write`, the one the writer holds, and those still queued are, in order, the non-nil
  packets put into it (`Reach.conserved`);
* while every iteration starts with a non-nil HP packet waiting, only HP packets are written
  (`hp_only`);
* while HP is empty and a non-nil P2P packet heads its queue, every packet written comes from
  `sendQ` or `p2pSendQ`, and any two `sendQ` packets are written at least four writes apart
  (`send_writes_spaced`).
-/

namespace NeoGo.Network

/-- A `[]byte` on a queue; `none` is Go's nil slice. -/
abbrev Packet := Option (List UInt8)

/-- The send queues: `sendQ`, `p2pSendQ` and `hpSendQ`. -/
inductive Queue where
  | send
  | p2p
  | hp
  deriving DecidableEq

/-- `requestQueueSize`, `p2pMsgQueueSize` and `hpRequestQueueSize`. -/
def Queue.size : Queue → Nat
  | .send => 32
  | .p2p => 16
  | .hp => 4

def p2pSkipDivisor : UInt32 := 4

/-- Where `handleQueues` is: at its first, second or third `select`, about to write the packet
it took (beside it the queue it came from, which the code does not keep), or gone: returned on
`done`, or stopped after a failed write. -/
inductive Writer where
  | first
  | second
  | third
  | write (q : Queue) (msg : Packet)
  | returned
  | stopped
  deriving DecidableEq

/-- A peer's session: the peer, the queues' buffers, whether `conn` is closed, where
`handleQueues` is, and its `p2pSkipCounter`. -/
structure Session where
  peer : TCPPeer
  sendQ : List Packet
  p2pSendQ : List Packet
  hpSendQ : List Packet
  closed : Bool
  writer : Writer
  p2pSkipCounter : UInt32
  deriving DecidableEq

/-- `NewTCPPeer`, with `handleQueues` started. -/
def newSession : Session := ⟨newTCPPeer, [], [], [], false, .first, 0⟩

namespace Session

variable (s : Session)

/-- A queue's buffer. -/
def buffer : Queue → List Packet
  | .send => s.sendQ
  | .p2p => s.p2pSendQ
  | .hp => s.hpSendQ

/-- The session with a queue's buffer replaced. -/
def setBuffer : Queue → List Packet → Session
  | .send, l => { s with sendQ := l }
  | .p2p, l => { s with p2pSendQ := l }
  | .hp, l => { s with hpSendQ := l }

@[simp] theorem buffer_setBuffer (q q' : Queue) (l : List Packet) :
    (s.setBuffer q l).buffer q' = if q' = q then l else s.buffer q' := by
  cases q <;> cases q' <;> rfl

@[simp] theorem setBuffer_writer (q : Queue) (l : List Packet) :
    (s.setBuffer q l).writer = s.writer := by cases q <;> rfl

@[simp] theorem setBuffer_peer (q : Queue) (l : List Packet) :
    (s.setBuffer q l).peer = s.peer := by cases q <;> rfl

@[simp] theorem setBuffer_p2pSkipCounter (q : Queue) (l : List Packet) :
    (s.setBuffer q l).p2pSkipCounter = s.p2pSkipCounter := by cases q <;> rfl

/-! ## Producers -/

/-- What `putPacketIntoQueue` returns: `errStateMismatch`, `errGone` or nil. -/
inductive PutResult where
  | errStateMismatch
  | errGone
  | ok
  deriving DecidableEq

/-- `putPacketIntoQueue` on queue `q`, its `select` taking the send (`true`) or `<-p.done`
(`false`): the result and the session after, or `none` while that case cannot proceed. -/
def putPacketIntoQueue (q : Queue) (msg : Packet) (send : Bool) : Option (PutResult × Session) :=
  if !s.peer.handshaked then some (.errStateMismatch, s)
  else if send then
    if (s.buffer q).length < q.size then some (.ok, s.setBuffer q (s.buffer q ++ [msg])) else none
  else if s.peer.done then some (.errGone, s) else none

def enqueuePacket (msg : Packet) (send : Bool) : Option (PutResult × Session) :=
  s.putPacketIntoQueue .send msg send

def enqueueP2PPacket (msg : Packet) (send : Bool) : Option (PutResult × Session) :=
  s.putPacketIntoQueue .p2p msg send

def enqueueHPPacket (msg : Packet) (send : Bool) : Option (PutResult × Session) :=
  s.putPacketIntoQueue .hp msg send

end Session

/-! ## The writer -/

/-- The case a `select` of `handleQueues` takes: `<-p.done`, a receive, or `default`. -/
inductive Case where
  | done
  | recv (q : Queue)
  | default
  deriving DecidableEq

namespace Session

variable (s : Session)

/-- A `select` of `handleQueues` on `<-p.done` and on receiving from each of `qs`, taking case
`c`: on `done` the goroutine returns; a received packet leads where `received` says, and
`default`, if the `select` has one, to `onDefault`; `none` if case `c` cannot be taken. -/
def select (qs : List Queue) (onDefault : Option Writer) (received : Queue → Packet → Writer) :
    Case → Option Session
  | .done => if s.peer.done then some { s with writer := .returned } else none
  | .recv q =>
    if q ∈ qs then
      match s.buffer q with
      | [] => none
      | msg :: rest => some { s.setBuffer q rest with writer := received q msg }
    else none
  | .default =>
    match onDefault with
    | some w => if !s.peer.done && qs.all (fun q => s.buffer q = []) then some { s with writer := w }
      else none
    | none => none

/-- After the first `select` left `msg` nil: the second `select`, unless `p2pSkipCounter` is a
multiple of `p2pSkipDivisor`, else the third. -/
def afterFirst : Writer := if s.p2pSkipCounter % p2pSkipDivisor != 0 then .second else .third

/-- Where a packet taken by the first or second `select` leads: a nil one on to `next`, any
other to its write. -/
def onPacket (next : Writer) (q : Queue) (msg : Packet) : Writer :=
  if msg.isNone then next else .write q msg

/-- The writer's `select`, taking case `c`. -/
def handleQueuesSelect (c : Case) : Option Session :=
  match s.writer with
  | .first => s.select [.hp] (some s.afterFirst) (onPacket s.afterFirst) c
  | .second => s.select [.hp, .p2p] (some .third) (onPacket .third) c
  | .third => s.select [.hp, .p2p, .send] none .write c
  | _ => none

/-- `p.conn.Write(msg)` returning without an error (`true`) or with one; a closed connection
only errs. Without an error, `p2pSkipCounter++` and the next iteration; with one, the loop
breaks and `p.Disconnect(err)` closes `done`. -/
def handleQueuesWrite (ok : Bool) : Option Session :=
  match s.writer with
  | .write _ _ =>
    if ok then
      if s.closed then none
      else some { s with writer := .first, p2pSkipCounter := s.p2pSkipCounter + 1 }
    else some { s with writer := .stopped, peer := s.peer.disconnect }
  | _ => none

end Session

/-! ## Runs -/

/-- An atomic action of one of the session's goroutines: a method of the peer, its ping timer
or a disconnection (closing `done`); `Disconnect` then closing the connection; a producer's
`putPacketIntoQueue`; the writer's `select`; or its write. -/
inductive Action where
  | peer (e : Event)
  | closeConn
  | put (q : Queue) (msg : Packet) (send : Bool)
  | select (c : Case)
  | write (ok : Bool)

namespace Session

variable (s : Session)

/-- The session after an action, `none` if it cannot happen now. -/
def step : Action → Option Session
  | .peer e => some { s with peer := (s.peer.step e).2 }
  | .closeConn => if s.peer.done && !s.closed then some { s with closed := true } else none
  | .put q msg send => (s.putPacketIntoQueue q msg send).map Prod.snd
  | .select c => s.handleQueuesSelect c
  | .write ok => s.handleQueuesWrite ok

/-- The packet an action puts into a queue. -/
def puts : Action → List (Queue × Packet)
  | .put q msg send =>
    match s.putPacketIntoQueue q msg send with
    | some (.ok, _) => [(q, msg)]
    | _ => []
  | _ => []

/-- The packet an action hands to `conn.Write`. -/
def written : Action → List (Queue × Packet)
  | .write _ =>
    match s.writer with
    | .write q msg => [(q, msg)]
    | _ => []
  | _ => []

end Session

/-- The sessions runs from `newSession` reach, with the packets put into the queues and the
packets handed to `conn.Write`, in order. -/
inductive Reach : Session → List (Queue × Packet) → List (Queue × Packet) → Prop where
  | init : Reach newSession [] []
  | step {s s' : Session} {P W : List (Queue × Packet)} (a : Action) :
      Reach s P W → s.step a = some s' → Reach s' (P ++ s.puts a) (W ++ s.written a)

/-- Runs from `s` to `s'` through states that all satisfy `c` before each step, with the
packets handed to `conn.Write`. -/
inductive Steps (c : Session → Bool) : Session → List (Queue × Packet) → Session → Prop where
  | refl (s : Session) : Steps c s [] s
  | step {s s' s'' : Session} {W : List (Queue × Packet)} (a : Action) :
      c s = true → s.step a = some s' → Steps c s' W s'' → Steps c s (s.written a ++ W) s''

/-! ## What each step does -/

namespace Session

variable {s s' : Session}

/-- **What a `select` can do**: return on `done`, take the head of one of its queues, or take
`default` when `done` is open and all its queues are empty. -/
theorem select_cases {qs : List Queue} {onDefault : Option Writer}
    {received : Queue → Packet → Writer} {c : Case}
    (h : s.select qs onDefault received c = some s') :
    (s.peer.done = true ∧ s' = { s with writer := .returned }) ∨
      (∃ q msg rest, q ∈ qs ∧ s.buffer q = msg :: rest ∧
        s' = { s.setBuffer q rest with writer := received q msg }) ∨
      (∃ w, onDefault = some w ∧ s.peer.done = false ∧ (∀ q ∈ qs, s.buffer q = []) ∧
        s' = { s with writer := w }) := by
  cases c with
  | done =>
    simp only [select] at h
    split at h
    · exact .inl ⟨‹_›, (Option.some.inj h).symm⟩
    · cases h
  | recv q =>
    simp only [select] at h
    split at h
    · split at h
      · cases h
      · exact .inr (.inl ⟨q, _, _, ‹_›, ‹_›, (Option.some.inj h).symm⟩)
    · cases h
  | default =>
    simp only [select] at h
    split at h
    · split at h
      · rename_i hok
        simp only [Bool.and_eq_true, Bool.not_eq_true', List.all_eq_true, decide_eq_true_eq] at hok
        exact .inr (.inr ⟨_, rfl, hok.1, hok.2, (Option.some.inj h).symm⟩)
      · cases h
    · cases h

/-- What `putPacketIntoQueue` can do: leave the session as it is with an error, or append the
packet to a queue with room. -/
theorem putPacketIntoQueue_cases {q : Queue} {msg : Packet} {send : Bool} {r : PutResult}
    (h : s.putPacketIntoQueue q msg send = some (r, s')) :
    (r ≠ .ok ∧ s' = s) ∨
      (r = .ok ∧ (s.buffer q).length < q.size ∧ s' = s.setBuffer q (s.buffer q ++ [msg])) := by
  simp only [putPacketIntoQueue] at h
  split at h
  · obtain ⟨rfl, rfl⟩ := Prod.mk.inj (Option.some.inj h)
    exact .inl ⟨by decide, rfl⟩
  · split at h
    · split at h
      · obtain ⟨rfl, rfl⟩ := Prod.mk.inj (Option.some.inj h)
        exact .inr ⟨rfl, ‹_›, rfl⟩
      · cases h
    · split at h
      · obtain ⟨rfl, rfl⟩ := Prod.mk.inj (Option.some.inj h)
        exact .inl ⟨by decide, rfl⟩
      · cases h

/-- What a write can do: with the writer holding a packet, go to the next iteration with the
counter one up, or stop with `done` closed. -/
theorem handleQueuesWrite_cases {ok : Bool} (h : s.handleQueuesWrite ok = some s') :
    ∃ q msg, s.writer = .write q msg ∧
      ((ok = true ∧ s.closed = false ∧
          s' = { s with writer := .first, p2pSkipCounter := s.p2pSkipCounter + 1 }) ∨
        (ok = false ∧ s' = { s with writer := .stopped, peer := s.peer.disconnect })) := by
  simp only [handleQueuesWrite] at h
  split at h
  · rename_i q msg hw
    refine ⟨q, msg, hw, ?_⟩
    cases ok
    · exact .inr ⟨rfl, (Option.some.inj h).symm⟩
    · simp only [if_true] at h
      split at h
      · cases h
      · rename_i hc
        exact .inl ⟨rfl, by simpa using hc, (Option.some.inj h).symm⟩
  · cases h

end Session

/-! ## No packet lost, duplicated or reordered -/

/-- The packets of queue `q` in a log. -/
def ofQueue (q : Queue) (l : List (Queue × Packet)) : List Packet :=
  l.filterMap fun e => if e.1 = q then some e.2 else none

@[simp] theorem ofQueue_nil (q : Queue) : ofQueue q [] = [] := rfl

@[simp] theorem ofQueue_append (q : Queue) (l l' : List (Queue × Packet)) :
    ofQueue q (l ++ l') = ofQueue q l ++ ofQueue q l' := List.filterMap_append _ _ _

@[simp] theorem ofQueue_singleton (q q' : Queue) (msg : Packet) :
    ofQueue q [(q', msg)] = if q' = q then [msg] else [] := by
  by_cases h : q' = q <;> simp [ofQueue, h]

/-- The packet the writer holds for its write, if it came from queue `q`. -/
def Writer.holding : Writer → Queue → List Packet
  | .write q' msg, q => if q' = q then [msg] else []
  | _, _ => []

/-- What every run keeps: each queue within its size, and each queue's non-nil packets that
were handed to `conn.Write`, held by the writer, or still queued are, in order, the non-nil
packets put into it. -/
structure Conserved (s : Session) (P W : List (Queue × Packet)) : Prop where
  bounded : ∀ q, (s.buffer q).length ≤ q.size
  fifo : ∀ q, (ofQueue q W ++ s.writer.holding q ++ s.buffer q).reduceOption =
    (ofQueue q P).reduceOption

theorem Conserved.of_buffer_writer {s s' : Session} {P W : List (Queue × Packet)}
    (hc : Conserved s P W) (hb : ∀ q, s'.buffer q = s.buffer q)
    (hw : ∀ q, s'.writer.holding q = s.writer.holding q) : Conserved s' P W :=
  ⟨fun q => hb q ▸ hc.bounded q, fun q => by rw [hb, hw]; exact hc.fifo q⟩

/-- A `select` from a point that holds no packet, whose `default` leads to one that holds none,
and whose received packets are held by the writer unless nil, keeps the invariant. -/
theorem Conserved.select {s s' : Session} {P W : List (Queue × Packet)} (hc : Conserved s P W)
    (hw : ∀ q, s.writer.holding q = []) {qs : List Queue} {onDefault : Option Writer}
    {received : Queue → Packet → Writer} {c : Case}
    (hd : ∀ w, onDefault = some w → ∀ q, w.holding q = [])
    (hr : ∀ q msg q', ((received q msg).holding q').reduceOption = (if q = q' then [msg] else []).reduceOption)
    (h : s.select qs onDefault received c = some s') : Conserved s' P W := by
  rcases Session.select_cases h with ⟨-, rfl⟩ | ⟨q, msg, rest, -, hq, rfl⟩ | ⟨w, hw', -, -, rfl⟩
  · exact hc.of_buffer_writer (fun q => by cases q <;> rfl) fun q => by rw [hw]; rfl
  · have hb : ∀ q', ({ s.setBuffer q rest with writer := received q msg } : Session).buffer q' =
        (s.setBuffer q rest).buffer q' := fun q' => by cases q' <;> rfl
    constructor
    · intro q'
      rw [hb, Session.buffer_setBuffer]
      split_ifs with hq'
      · subst hq'
        have := hc.bounded q'
        rw [hq, List.length_cons] at this
        omega
      · exact hc.bounded q'
    · intro q'
      rw [hb, Session.buffer_setBuffer, ← hc.fifo q', hw, List.reduceOption_append,
        List.reduceOption_append, hr, List.reduceOption_append]
      by_cases hq' : q' = q
      · subst hq'
        rw [hq]
        cases msg <;> simp [List.reduceOption_cons_of_none, List.reduceOption_cons_of_some]
      · simp [hq', Ne.symm hq']
  · exact hc.of_buffer_writer (fun q => by cases q <;> rfl) fun q => by rw [hd w hw' q, hw]

theorem Conserved.put {s s' : Session} {P W : List (Queue × Packet)} (hc : Conserved s P W)
    {q : Queue} {msg : Packet} {send : Bool} (h : (s.step (.put q msg send)) = some s') :
    Conserved s' (P ++ s.puts (.put q msg send)) W := by
  obtain ⟨⟨r, s''⟩, hput, rfl⟩ := Option.map_eq_some'.mp h
  have hputs : s.puts (.put q msg send) = if r = .ok then [(q, msg)] else [] := by
    simp only [Session.puts, hput]
    cases r <;> rfl
  rw [hputs]
  rcases Session.putPacketIntoQueue_cases hput with ⟨hr, rfl⟩ | ⟨rfl, hlen, rfl⟩
  · simpa [hr] using hc
  · constructor
    · intro q'
      rw [Session.buffer_setBuffer]
      split_ifs with hq'
      · subst hq'
        rw [List.length_append, List.length_singleton]
        exact hlen
      · exact hc.bounded q'
    · intro q'
      rw [Session.buffer_setBuffer, Session.setBuffer_writer, if_pos rfl]
      by_cases hq' : q' = q
      · subst hq'
        rw [if_pos rfl, ofQueue_append, ofQueue_singleton, if_pos rfl, ← List.append_assoc,
          List.reduceOption_append, hc.fifo q', ← List.reduceOption_append]
      · rw [if_neg hq', ofQueue_append, ofQueue_singleton, if_neg (Ne.symm hq'), List.append_nil]
        exact hc.fifo q'

theorem Conserved.write {s s' : Session} {P W : List (Queue × Packet)} (hc : Conserved s P W)
    {ok : Bool} (h : s.handleQueuesWrite ok = some s') :
    Conserved s' P (W ++ s.written (.write ok)) := by
  obtain ⟨q, msg, hw, hcase⟩ := Session.handleQueuesWrite_cases h
  have hwr : s.written (.write ok) = [(q, msg)] := by simp only [Session.written, hw]
  have hb : ∀ q', s'.buffer q' = s.buffer q' := by
    rcases hcase with ⟨-, -, rfl⟩ | ⟨-, rfl⟩ <;> intro q' <;> cases q' <;> rfl
  have hh : ∀ q', s'.writer.holding q' = [] := by
    rcases hcase with ⟨-, -, rfl⟩ | ⟨-, rfl⟩ <;> intro q' <;> rfl
  refine ⟨fun q' => hb q' ▸ hc.bounded q', fun q' => ?_⟩
  rw [hb, hh, hwr, ← hc.fifo q', hw, ofQueue_append, ofQueue_singleton]
  simp [Writer.holding]

theorem afterFirst_holding (s : Session) (q : Queue) : s.afterFirst.holding q = [] := by
  simp only [Session.afterFirst]
  split <;> rfl

theorem onPacket_holding {next : Writer} (hn : ∀ q, next.holding q = []) (q : Queue) (msg : Packet)
    (q' : Queue) : ((Session.onPacket next q msg).holding q').reduceOption =
      (if q = q' then [msg] else []).reduceOption := by
  cases msg with
  | none => by_cases h : q = q' <;> simp [Session.onPacket, hn, h]
  | some m => simp [Session.onPacket, Writer.holding]

/-- **Every step keeps the invariant.** -/
theorem Conserved.step {s s' : Session} {P W : List (Queue × Packet)} (hc : Conserved s P W)
    {a : Action} (h : s.step a = some s') : Conserved s' (P ++ s.puts a) (W ++ s.written a) := by
  cases a with
  | peer e =>
    obtain rfl := (Option.some.inj h).symm
    show Conserved _ (P ++ []) (W ++ [])
    rw [List.append_nil, List.append_nil]
    exact hc.of_buffer_writer (fun q => by cases q <;> rfl) fun _ => rfl
  | closeConn =>
    simp only [Session.step] at h
    split at h
    · obtain rfl := (Option.some.inj h).symm
      show Conserved _ (P ++ []) (W ++ [])
      rw [List.append_nil, List.append_nil]
      exact hc.of_buffer_writer (fun q => by cases q <;> rfl) fun _ => rfl
    · cases h
  | put q msg send => simpa [Session.written] using hc.put h
  | select c =>
    show Conserved _ (P ++ []) (W ++ [])
    rw [List.append_nil, List.append_nil]
    simp only [Session.step, Session.handleQueuesSelect] at h
    split at h <;> rename_i hw
    · refine hc.select (fun q => by rw [hw]; rfl) ?_ (onPacket_holding (afterFirst_holding s)) h
      rintro w ⟨⟩ q
      exact afterFirst_holding s q
    · refine hc.select (fun q => by rw [hw]; rfl) ?_ ?_ h
      · rintro w ⟨⟩ q
        rfl
      · exact onPacket_holding fun _ => rfl
    · refine hc.select (fun q => by rw [hw]; rfl) ?_ (fun q msg q' => by simp [Writer.holding]) h
      rintro w ⟨⟩
    · cases h
  | write ok => simpa [Session.puts] using hc.write h

theorem conserved_newSession : Conserved newSession [] [] :=
  ⟨fun q => by cases q <;> decide, fun q => by cases q <;> rfl⟩

/-- **No packet is lost, duplicated or reordered.** On every run of a session, each queue holds
at most its size, and the non-nil packets of each queue that were handed to `conn.Write`, held
by the writer for its write, or still queued are, in order, the non-nil packets put into it. -/
theorem Reach.conserved {s : Session} {P W : List (Queue × Packet)} (h : Reach s P W) :
    Conserved s P W := by
  induction h with
  | init => exact conserved_newSession
  | step _ _ hs ih => exact ih.step hs

namespace Session

/-- A run of actions from the session: the session after, the packets put and those handed to
`conn.Write`; `none` if an action cannot happen when its turn comes. -/
def exec : Session → List Action → Option (Session × List (Queue × Packet) × List (Queue × Packet))
  | s, [] => some (s, [], [])
  | s, a :: as => (s.step a).bind fun s' =>
    (s'.exec as).map fun r => (r.1, s.puts a ++ r.2.1, s.written a ++ r.2.2)

/-- Whether every state of a run satisfies `c` before its action, and every action can happen. -/
def along (c : Session → Bool) : Session → List Action → Bool
  | _, [] => true
  | s, a :: as => c s && ((s.step a).map fun s' => s'.along c as).getD false

end Session

theorem Reach.exec {s : Session} {P W : List (Queue × Packet)} (h : Reach s P W) :
    ∀ {as : List Action} {s' : Session} {P' W' : List (Queue × Packet)},
      s.exec as = some (s', P', W') → Reach s' (P ++ P') (W ++ W')
  | [], _, _, _, he => by
    cases he
    simpa using h
  | a :: as, s', P', W', he => by
    obtain ⟨s₁, h₁, he⟩ := Option.bind_eq_some.mp he
    obtain ⟨⟨s₂, P₂, W₂⟩, h₂, he⟩ := Option.map_eq_some'.mp he
    cases he
    simpa [List.append_assoc] using (h.step a h₁).exec h₂

/-- A handshake, then an HP packet and a default packet put and both written. -/
def twoPacketRun : List Action :=
  handshake.map .peer ++
    [.put .hp (some [1]) true, .put .send (some [2]) true, .select (.recv .hp), .write true,
      .select .default, .select .default, .select (.recv .send), .write true]

theorem conserved_on_twoPacketRun :
    ∃ s, newSession.exec twoPacketRun =
        some (s, [(.hp, some [1]), (.send, some [2])], [(.hp, some [1]), (.send, some [2])]) ∧
      Reach s [(.hp, some [1]), (.send, some [2])] [(.hp, some [1]), (.send, some [2])] ∧
      Conserved s [(.hp, some [1]), (.send, some [2])] [(.hp, some [1]), (.send, some [2])] := by
  obtain ⟨s, hs⟩ : ∃ s, newSession.exec twoPacketRun =
      some (s, [(.hp, some [1]), (.send, some [2])], [(.hp, some [1]), (.send, some [2])]) :=
    ⟨_, rfl⟩
  have hr := Reach.init.exec hs
  exact ⟨s, hs, hr, Reach.conserved hr⟩

/-! ## The writer's priorities -/

namespace Session

variable {s s' : Session}

/-- The actions of the peer, of `Disconnect` and of the producers leave the writer and its
counter as they are, and write nothing. -/
theorem step_writer_eq {a : Action} (hs : ∀ c, a ≠ .select c) (hw : ∀ ok, a ≠ .write ok)
    (h : s.step a = some s') :
    s'.writer = s.writer ∧ s'.p2pSkipCounter = s.p2pSkipCounter ∧ s.written a = [] := by
  cases a with
  | peer e => cases h; exact ⟨rfl, rfl, rfl⟩
  | closeConn =>
    simp only [step] at h
    split at h
    · cases h; exact ⟨rfl, rfl, rfl⟩
    · cases h
  | put q msg send =>
    obtain ⟨⟨r, s''⟩, hput, rfl⟩ := Option.map_eq_some'.mp h
    rcases putPacketIntoQueue_cases hput with ⟨-, rfl⟩ | ⟨-, -, rfl⟩
    · exact ⟨rfl, rfl, rfl⟩
    · exact ⟨setBuffer_writer _ _ _, setBuffer_p2pSkipCounter _ _ _, rfl⟩
  | select c => exact absurd rfl (hs c)
  | write ok => exact absurd rfl (hw ok)

theorem select_counter {c : Case} (h : s.step (.select c) = some s') :
    s'.p2pSkipCounter = s.p2pSkipCounter := by
  simp only [step, handleQueuesSelect] at h
  split at h <;>
  first
  | cases h
  | rcases select_cases h with ⟨-, rfl⟩ | ⟨q, -, rest, -, -, rfl⟩ | ⟨-, -, -, -, rfl⟩ <;>
      simp only [setBuffer_p2pSkipCounter]

theorem step_gone {a : Action} (hg : s.writer = .returned ∨ s.writer = .stopped)
    (h : s.step a = some s') : s'.writer = s.writer ∧ s.written a = [] := by
  cases a with
  | select c =>
    simp only [step, handleQueuesSelect] at h
    rcases hg with hg | hg <;> simp [hg] at h
  | write ok =>
    simp only [step, handleQueuesWrite] at h
    rcases hg with hg | hg <;> simp [hg] at h
  | _ =>
    obtain ⟨hw, -, hn⟩ := step_writer_eq (fun _ h => by cases h) (fun _ h => by cases h) h
    exact ⟨hw, hn⟩

end Session

theorem Steps.gone {c : Session → Bool} {s s' : Session} {W : List (Queue × Packet)}
    (h : Steps c s W s') (hg : s.writer = .returned ∨ s.writer = .stopped) : W = [] := by
  induction h with
  | refl => rfl
  | step a _ hs _ ih =>
    obtain ⟨hw, hn⟩ := Session.step_gone hg hs
    rw [hn, ih (hw ▸ hg)]
    rfl

/-- A non-nil packet heads the queue. -/
def headNonNil : List Packet → Bool
  | some _ :: _ => true
  | _ => false

/-- An iteration starts only with a non-nil HP packet waiting. -/
def Session.hpAtFirst (s : Session) : Bool := s.writer != .first || headNonNil s.hpSendQ

/-- Where the writer is while it serves HP alone. -/
def HpServed (w : Writer) : Prop := w = .first ∨ (∃ m, w = .write .hp m) ∨ w = .returned ∨ w = .stopped

theorem HpServed.step {s s' : Session} {a : Action} (hw : HpServed s.writer)
    (hc : s.hpAtFirst = true) (h : s.step a = some s') :
    HpServed s'.writer ∧ ∀ e ∈ s.written a, e.1 = .hp := by
  cases a with
  | select c =>
    have hw' : s.writer = .first := by
      rcases hw with hw | ⟨m, hw⟩ | hw | hw <;> simp [Session.step, Session.handleQueuesSelect, hw] at h
      exact hw
    have hhead : headNonNil s.hpSendQ = true := by simpa [Session.hpAtFirst, hw'] using hc
    simp only [Session.step, Session.handleQueuesSelect, hw'] at h
    refine ⟨?_, fun _ => nofun⟩
    rcases Session.select_cases h with ⟨-, rfl⟩ | ⟨q, msg, rest, hq, hb, rfl⟩ | ⟨-, -, -, hnil, -⟩
    · exact .inr (.inr (.inl rfl))
    · obtain rfl : q = .hp := by simpa using hq
      change s.hpSendQ = msg :: rest at hb
      rw [hb] at hhead
      cases msg with
      | none => cases hhead
      | some m => exact .inr (.inl ⟨some m, rfl⟩)
    · have hnil : s.hpSendQ = [] := hnil .hp (List.mem_singleton_self _)
      rw [hnil] at hhead
      cases hhead
  | write ok =>
    obtain ⟨q, msg, hwq, hcase⟩ := Session.handleQueuesWrite_cases h
    obtain rfl : q = .hp := by
      rcases hw with hw | ⟨m, hw⟩ | hw | hw <;> rw [hwq] at hw <;> cases hw
      rfl
    refine ⟨?_, fun e he => ?_⟩
    · rcases hcase with ⟨-, -, rfl⟩ | ⟨-, rfl⟩
      · exact .inl rfl
      · exact .inr (.inr (.inr rfl))
    · simp only [Session.written, hwq, List.mem_singleton] at he
      rw [he]
  | _ =>
    obtain ⟨hw', -, hn⟩ := Session.step_writer_eq (fun _ h => by cases h) (fun _ h => by cases h) h
    exact ⟨hw' ▸ hw, by simp [hn]⟩

/-- **While an HP packet always waits, only HP packets are written.** On every run from the
start of an iteration along which every iteration starts with a non-nil packet heading
`hpSendQ`, every packet handed to `conn.Write` comes from `hpSendQ`: `p2pSendQ` and `sendQ`
are not served at all. -/
theorem hp_only {s s' : Session} {W : List (Queue × Packet)} (h : Steps Session.hpAtFirst s W s')
    (hs : s.writer = .first) : ∀ e ∈ W, e.1 = .hp := by
  suffices ∀ {s W s'}, Steps Session.hpAtFirst s W s' → HpServed s.writer → ∀ e ∈ W, e.1 = .hp from
    this h (.inl hs)
  intro s W s' h
  induction h with
  | refl => intro _ _ he; cases he
  | step a hc hs _ ih =>
    intro hw e he
    obtain ⟨hw', hwr⟩ := HpServed.step hw hc hs
    rcases List.mem_append.mp he with he | he
    · exact hwr e he
    · exact ih hw' e he

/-- HP is empty and a non-nil packet heads P2P. -/
def Session.p2pBacklogged (s : Session) : Bool := s.hpSendQ.isEmpty && headNonNil s.p2pSendQ

/-- While P2P is backlogged, the writer never holds an HP packet, and it is at its third
`select`, or about to write a `sendQ` packet, only when its counter is a multiple of four. -/
structure Spaced (s : Session) : Prop where
  notHp : ∀ m, s.writer ≠ .write .hp m
  third : s.writer = .third → s.p2pSkipCounter.toNat % 4 = 0
  send : ∀ m, s.writer = .write .send m → s.p2pSkipCounter.toNat % 4 = 0

theorem afterFirst_eq_third {s : Session} (h : s.afterFirst = .third) :
    s.p2pSkipCounter.toNat % 4 = 0 := by
  simp only [Session.afterFirst, p2pSkipDivisor] at h
  split at h
  · cases h
  · rename_i hc
    simp only [bne_iff_ne, ne_eq, Decidable.not_not] at hc
    simpa using congrArg UInt32.toNat hc

theorem Spaced.step {s s' : Session} {a : Action} (hs : Spaced s) (hc : s.p2pBacklogged = true)
    (h : s.step a = some s') : Spaced s' := by
  simp only [Session.p2pBacklogged, Bool.and_eq_true, List.isEmpty_iff] at hc
  obtain ⟨hhp, hp2p⟩ := hc
  cases a with
  | select c =>
    have hcount := Session.select_counter h
    simp only [Session.step, Session.handleQueuesSelect] at h
    split at h <;> rename_i hw
    · rcases Session.select_cases h with ⟨-, rfl⟩ | ⟨q, msg, rest, hq, hb, rfl⟩ | ⟨w, hw', -, -, rfl⟩
      · exact ⟨nofun, nofun, nofun⟩
      · obtain rfl : q = .hp := by simpa using hq
        change s.hpSendQ = msg :: rest at hb
        rw [hhp] at hb
        cases hb
      · cases hw'
        have hnw : ∀ q m, s.afterFirst ≠ .write q m := fun q m h3 => by
          simp only [Session.afterFirst] at h3
          split at h3 <;> cases h3
        exact ⟨hnw _, fun h3 => hcount ▸ afterFirst_eq_third h3, fun m h3 => absurd h3 (hnw _ m)⟩
    · rcases Session.select_cases h with ⟨-, rfl⟩ | ⟨q, msg, rest, hq, hb, rfl⟩ | ⟨w, -, -, hnil, -⟩
      · exact ⟨nofun, nofun, nofun⟩
      · simp only [List.mem_cons, List.mem_singleton, List.not_mem_nil, or_false] at hq
        rcases hq with rfl | rfl
        · change s.hpSendQ = msg :: rest at hb
          rw [hhp] at hb
          cases hb
        · change s.p2pSendQ = msg :: rest at hb
          rw [hb] at hp2p
          cases msg with
          | none => cases hp2p
          | some m => exact ⟨fun _ h3 => (by cases h3), nofun, fun _ h3 => by cases h3⟩
      · have : s.p2pSendQ = [] := hnil .p2p (by simp)
        rw [this] at hp2p
        cases hp2p
    · rcases Session.select_cases h with ⟨-, rfl⟩ | ⟨q, msg, rest, -, hb, rfl⟩ | ⟨w, hw', -⟩
      · exact ⟨nofun, nofun, nofun⟩
      · refine ⟨fun m h3 => ?_, nofun, fun m h3 => ?_⟩
        · cases h3
          change s.hpSendQ = msg :: rest at hb
          rw [hhp] at hb
          cases hb
        · cases h3
          rw [hcount]
          exact hs.third hw
      · cases hw'
    · cases h
  | write ok =>
    obtain ⟨q, msg, -, hcase⟩ := Session.handleQueuesWrite_cases h
    rcases hcase with ⟨-, -, rfl⟩ | ⟨-, rfl⟩ <;> exact ⟨nofun, nofun, nofun⟩
  | _ =>
    obtain ⟨hw, hcount, -⟩ := Session.step_writer_eq (fun _ h => by cases h) (fun _ h => by cases h) h
    exact ⟨fun m h3 => hs.notHp m (hw ▸ h3), fun h3 => hcount ▸ hs.third (hw ▸ h3),
      fun m h3 => hcount ▸ hs.send m (hw ▸ h3)⟩

/-- While P2P is backlogged, every packet handed to `conn.Write` comes from `sendQ` or
`p2pSendQ`. -/
theorem Steps.written_not_hp {s s' : Session} {W : List (Queue × Packet)}
    (h : Steps Session.p2pBacklogged s W s') (hs : Spaced s) :
    ∀ e ∈ W, e.1 = .send ∨ e.1 = .p2p := by
  induction h with
  | refl => intro e he; cases he
  | step a hc hstep _ ih =>
    intro e he
    rcases List.mem_append.mp he with he | he
    · cases a with
      | write ok =>
        obtain ⟨q, msg, hw, -⟩ := Session.handleQueuesWrite_cases hstep
        simp only [Session.written, hw, List.mem_singleton] at he
        subst he
        cases q with
        | hp => exact absurd hw (hs.notHp msg)
        | send => exact .inl rfl
        | p2p => exact .inr rfl
      | _ => simp [Session.written] at he
    · exact ih (hs.step hc hstep) e he

theorem toNat_add_one (c : UInt32) : (c + 1).toNat = (c.toNat + 1) % 4294967296 :=
  BitVec.toNat_add c.toBitVec 1

/-- While P2P is backlogged, the `i`-th packet handed to `conn.Write` comes from `sendQ` only
when the counter the run starts with, plus `i`, is a multiple of four. -/
theorem Steps.send_positions {s s' : Session} {W : List (Queue × Packet)}
    (h : Steps Session.p2pBacklogged s W s') (hs : Spaced s) :
    ∀ i, (W[i]?).map Prod.fst = some .send → (s.p2pSkipCounter.toNat + i) % 4 = 0 := by
  induction h with
  | refl => intro i hi; simp at hi
  | @step s s₁ s₂ W a hc hstep hrest ih =>
    have hs₁ := hs.step hc hstep
    cases a with
    | write ok =>
      obtain ⟨q, msg, hw, hcase⟩ := Session.handleQueuesWrite_cases hstep
      have hwr : s.written (.write ok) = [(q, msg)] := by simp only [Session.written, hw]
      rw [hwr]
      rintro (_ | i) hi
      · simp only [List.singleton_append, List.getElem?_cons_zero, Option.map_some'] at hi
        cases hi
        simpa using hs.send msg hw
      · simp only [List.singleton_append, List.getElem?_cons_succ] at hi
        rcases hcase with ⟨-, -, rfl⟩ | ⟨-, rfl⟩
        · have := ih hs₁ i hi
          simp only [toNat_add_one] at this
          omega
        · rw [hrest.gone (.inr rfl)] at hi
          simp at hi
    | select c =>
      intro i hi
      rw [← Session.select_counter hstep]
      exact ih hs₁ i hi
    | _ =>
      obtain ⟨-, hcount, hn⟩ :=
        Session.step_writer_eq (fun _ h => by cases h) (fun _ h => by cases h) hstep
      intro i hi
      rw [hn, List.nil_append] at hi
      rw [← hcount]
      exact ih hs₁ i hi

/-- **While HP is idle and P2P backlogged, P2P gets at least three writes in four.** On every
run from the start of an iteration along which `hpSendQ` is empty and a non-nil packet heads
`p2pSendQ`, every packet handed to `conn.Write` comes from `sendQ` or `p2pSendQ`, and any two
from `sendQ` are at least four writes apart: of any four consecutive writes, at most one is a
`sendQ` packet and the others are P2P packets. -/
theorem send_writes_spaced {s s' : Session} {W : List (Queue × Packet)}
    (h : Steps Session.p2pBacklogged s W s') (hs : s.writer = .first) :
    (∀ e ∈ W, e.1 = .send ∨ e.1 = .p2p) ∧
      ∀ i j, i < j → (W[i]?).map Prod.fst = some .send → (W[j]?).map Prod.fst = some .send →
        i + 4 ≤ j := by
  have hsp : Spaced s := ⟨fun _ h3 => absurd (hs.symm.trans h3) nofun,
    fun h3 => absurd (hs.symm.trans h3) nofun, fun _ h3 => absurd (hs.symm.trans h3) nofun⟩
  refine ⟨h.written_not_hp hsp, fun i j hij hi hj => ?_⟩
  have h₁ := h.send_positions hsp i hi
  have h₂ := h.send_positions hsp j hj
  omega

theorem Steps.of_exec {c : Session → Bool} :
    ∀ {s : Session} {as : List Action} {s' : Session} {P W : List (Queue × Packet)},
      s.along c as = true → s.exec as = some (s', P, W) → Steps c s W s'
  | _, [], _, _, _, _, he => by cases he; exact .refl _
  | s, a :: as, s', P, W, hc, he => by
    obtain ⟨s₁, h₁, he⟩ := Option.bind_eq_some.mp he
    obtain ⟨⟨s₂, P₂, W₂⟩, h₂, he⟩ := Option.map_eq_some'.mp he
    cases he
    simp only [Session.along, h₁, Option.map_some', Option.getD_some, Bool.and_eq_true] at hc
    exact .step a hc.1 h₁ (Steps.of_exec hc.2 h₂)

/-- Two HP packets waiting, and a P2P and a default packet. -/
def hpBusy : Session :=
  { newSession with hpSendQ := [some [1], some [2]], p2pSendQ := [some [5]], sendQ := [some [9]] }

/-- Both HP packets written while the others wait. -/
theorem hp_only_on_hpBusy :
    ∃ s', hpBusy.exec [.select (.recv .hp), .write true, .select (.recv .hp), .write true] =
        some (s', [], [(.hp, some [1]), (.hp, some [2])]) ∧
      ∀ e ∈ [((.hp : Queue), (some [1] : Packet)), (.hp, some [2])], e.1 = .hp := by
  obtain ⟨s', he⟩ : ∃ s', hpBusy.exec [.select (.recv .hp), .write true, .select (.recv .hp),
      .write true] = some (s', [], [(.hp, some [1]), (.hp, some [2])]) := ⟨_, rfl⟩
  exact ⟨s', he, hp_only (Steps.of_exec (by rfl) he) rfl⟩

/-- Four P2P packets and two default packets waiting, with HP empty. -/
def p2pBusy : Session :=
  { newSession with p2pSendQ := [some [1], some [2], some [3], some [4]],
                    sendQ := [some [8], some [9]] }

/-- Five iterations: a default packet, three P2P packets, a default packet. -/
def p2pBusyRun : List Action :=
  [.select .default, .select (.recv .send), .write true] ++
    (List.replicate 3 [.select .default, .select (.recv .p2p), .write true]).flatten ++
    [.select .default, .select (.recv .send), .write true]

/-- What `p2pBusyRun` hands to `conn.Write`. -/
def p2pBusyWrites : List (Queue × Packet) :=
  [(.send, some [8]), (.p2p, some [1]), (.p2p, some [2]), (.p2p, some [3]), (.send, some [9])]

/-- The writes of `p2pBusyRun`: default and P2P packets only, the default ones four apart. -/
theorem send_writes_spaced_on_p2pBusy :
    ∃ s', p2pBusy.exec p2pBusyRun = some (s', [], p2pBusyWrites) ∧
      (∀ e ∈ p2pBusyWrites, e.1 = .send ∨ e.1 = .p2p) ∧
      ∀ i j, i < j → (p2pBusyWrites[i]?).map Prod.fst = some .send →
        (p2pBusyWrites[j]?).map Prod.fst = some .send → i + 4 ≤ j := by
  obtain ⟨s', he⟩ : ∃ s', p2pBusy.exec p2pBusyRun = some (s', [], p2pBusyWrites) := ⟨_, rfl⟩
  exact ⟨s', he, send_writes_spaced (Steps.of_exec (by rfl) he) rfl⟩

end NeoGo.Network
