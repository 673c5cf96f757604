import Mathlib.Tactic.Common

/-! # The TCP peer's session: handshake, keepalive and disconnection

A `TCPPeer` (`pkg/network/tcp_peer.go`) keeps four handshake bits, the `done` channel that
`Disconnect` closes, a count of pings sent and not answered, and at most one ping timer,
made by `time.AfterFunc` to disconnect the peer when it goes off. The model is the peer's
state under its lock, with each method a function of it; the connection, the send queues
and the server the peer reports to are left out. The environment's events are the methods
called, the ping timer going off, the timer's function running `Disconnect` in the goroutine
`AfterFunc` starts for it, and a disconnection from elsewhere.

`SendPing` arms the timer only when the peer has none, and `HandlePong` stops and drops it
on any pong. A pong thus takes away the guard of every ping still outstanding, and between the
timer going off and its `Disconnect` the peer is connected with a timer that no longer stops:
`ping_outstanding_without_pending_timer` gives both runs. On runs that send a ping only when
none is outstanding, every outstanding ping is guarded by a timer that is pending or has gone
off (`PingState.OnePing.reachable`). On all runs the timer the peer holds while connected is
absent, pending, or gone off with its `Disconnect` still to run (`PingState.Live.reachable`).

The handshake's four calls each check the stage bits before setting their own. `stageStep` is
what every event does to the stage; from it, on every run from `NewTCPPeer` each of the four
calls returns nil at most once (`handshake_call_once`), the VerAck calls only after both
Version calls have (`verAck_after_versions`), and `Handshaked` holds exactly once all four have
(`handshaked_iff_calls`).
-/

namespace NeoGo.Network

/-- `versionSent`, `versionReceived`, `verAckSent` and `verAckReceived`: the bits of
`handShakeStage`. -/
def versionSent : UInt8 := 1
def versionReceived : UInt8 := 2
def verAckSent : UInt8 := 4
def verAckReceived : UInt8 := 8

/-- The errors the modelled methods return. -/
inductive PeerError where
  /-- `errStateMismatch`: "tried to send protocol message before handshake completed". -/
  | errStateMismatch
  /-- `errPingPong`: "ping/pong timeout". -/
  | errPingPong
  /-- `errUnexpectedPong`: "pong message wasn't expected". -/
  | errUnexpectedPong
  /-- The connection's error from `writeMsg`. -/
  | errWrite
  /-- One of the handshake checks' `errors.New`, by its text. -/
  | invalidHandshake (text : String)
  deriving DecidableEq

/-- A `*time.Timer` made by `time.AfterFunc`, with the goroutine it starts for its function:
waiting, gone off with its function not yet run, gone off with its function run, or stopped. -/
inductive Timer where
  | pending
  | expired
  | fired
  | stopped
  deriving DecidableEq

/-- `Timer.Stop`: whether it stopped a timer that was still waiting, and the timer after. -/
def Timer.stop : Timer → Bool × Timer
  | .pending => (true, .stopped)
  | t => (false, t)

/-- `payload.Version`: of its fields, the peer reads the start height. -/
structure VersionPayload where
  startHeight : UInt32
  deriving DecidableEq

/-- The state of a `TCPPeer` that its methods read and write. -/
structure TCPPeer where
  version : Option VersionPayload
  lastBlockIndex : UInt32
  handShake : UInt8
  /-- `done` is closed: `Disconnect` has run. -/
  done : Bool
  pingSent : Int
  pingTimer : Option Timer
  deriving DecidableEq

def newTCPPeer : TCPPeer :=
  { version := none, lastBlockIndex := 0, handShake := 0, done := false, pingSent := 0,
    pingTimer := none }

namespace TCPPeer

variable (p : TCPPeer)

/-! ## Handshake -/

def handshaked : Bool :=
  p.handShake == (verAckReceived ||| verAckSent ||| versionReceived ||| versionSent)

/-- `SendVersion`, with whether the connection took the message. -/
def sendVersion (written : Bool) : Option PeerError × TCPPeer :=
  if p.handShake &&& versionSent != 0 then
    (some (.invalidHandshake "invalid handshake: already sent Version"), p)
  else if written then (none, { p with handShake := p.handShake ||| versionSent })
  else (some .errWrite, p)

def handleVersion (version : VersionPayload) : Option PeerError × TCPPeer :=
  if p.handShake &&& versionReceived != 0 then
    (some (.invalidHandshake "invalid handshake: already received Version"), p)
  else
    (none, { p with version := some version, lastBlockIndex := version.startHeight,
                    handShake := p.handShake ||| versionReceived })

/-- `SendVersionAck`, with whether the connection took the message. -/
def sendVersionAck (written : Bool) : Option PeerError × TCPPeer :=
  if p.handShake &&& versionReceived == 0 then
    (some (.invalidHandshake
      "invalid handshake: tried to send VersionAck, but no version received yet"), p)
  else if p.handShake &&& versionSent == 0 then
    (some (.invalidHandshake
      "invalid handshake: tried to send VersionAck, but didn't send Version yet"), p)
  else if p.handShake &&& verAckSent != 0 then
    (some (.invalidHandshake "invalid handshake: already sent VersionAck"), p)
  else if written then (none, { p with handShake := p.handShake ||| verAckSent })
  else (some .errWrite, p)

def handleVersionAck : Option PeerError × TCPPeer :=
  if p.handShake &&& versionSent == 0 then
    (some (.invalidHandshake "invalid handshake: received VersionAck, but no version sent yet"), p)
  else if p.handShake &&& versionReceived == 0 then
    (some (.invalidHandshake
      "invalid handshake: received VersionAck, but no version received yet"), p)
  else if p.handShake &&& verAckReceived != 0 then
    (some (.invalidHandshake "invalid handshake: already received VersionAck"), p)
  else (none, { p with handShake := p.handShake ||| verAckReceived })

/-! ## Keepalive -/

/-- `Disconnect`: `finale.Do` closes `done` the first time; later calls do nothing. -/
def disconnect : TCPPeer := { p with done := true }

/-- `SendPing`: one more ping outstanding, and a new timer when the peer has none. The ping
is then enqueued; the send queue is left out, and with it the error enqueueing returns. -/
def sendPing : Option PeerError × TCPPeer :=
  if !p.handshaked then (some .errStateMismatch, p)
  else
    let p := { p with pingSent := p.pingSent + 1 }
    match p.pingTimer with
    | none => (none, { p with pingTimer := some .pending })
    | some _ => (none, p)

/-- `p.pingTimer != nil && !p.pingTimer.Stop()`, with the timer after the call. -/
def stopFailed : Option Timer → Bool × Option Timer
  | none => (false, none)
  | some t => let (stopped, t) := t.stop; (!stopped, some t)

/-- `HandlePong`, with the pong's last block index. -/
def handlePong (lastBlockIndex : UInt32) : Option PeerError × TCPPeer :=
  let (failed, timer) := stopFailed p.pingTimer
  if failed then (some .errPingPong, { p with pingTimer := timer })
  else
    let p := { p with pingTimer := none, pingSent := p.pingSent - 1 }
    if p.pingSent < 0 then (some .errUnexpectedPong, p)
    else (none, { p with lastBlockIndex })

/-- The ping timer goes off: `Stop` fails from then on, and its function is started in a
goroutine of its own. Only a pending timer goes off. -/
def pingTimeout : TCPPeer :=
  match p.pingTimer with
  | some .pending => { p with pingTimer := some .expired }
  | _ => p

/-- The goroutine of the timer that went off runs its function, `p.Disconnect(errPingPong)`. -/
def pingTimerFunc : TCPPeer :=
  match p.pingTimer with
  | some .expired => { p.disconnect with pingTimer := some .fired }
  | _ => p

end TCPPeer

/-! ## Runs -/

/-- What happens to a peer: a method called, its ping timer going off, the function of the
timer that went off running, or a disconnection from elsewhere. -/
inductive Event where
  | sendVersion (written : Bool)
  | handleVersion (version : VersionPayload)
  | sendVersionAck (written : Bool)
  | handleVersionAck
  | sendPing
  | handlePong (lastBlockIndex : UInt32)
  | pingTimeout
  | pingTimerFunc
  | disconnect
  deriving DecidableEq

namespace TCPPeer

/-- One event, with the error the method returns. -/
def step (p : TCPPeer) : Event → Option PeerError × TCPPeer
  | .sendVersion written => p.sendVersion written
  | .handleVersion version => p.handleVersion version
  | .sendVersionAck written => p.sendVersionAck written
  | .handleVersionAck => p.handleVersionAck
  | .sendPing => p.sendPing
  | .handlePong lastBlockIndex => p.handlePong lastBlockIndex
  | .pingTimeout => (none, p.pingTimeout)
  | .pingTimerFunc => (none, p.pingTimerFunc)
  | .disconnect => (none, p.disconnect)

/-- The events in order. -/
def run (p : TCPPeer) (es : List Event) : TCPPeer := es.foldl (fun p e => (p.step e).2) p

end TCPPeer

/-- The events the environment may send in a state. -/
abbrev Allowed := TCPPeer → Event → Bool

/-- Every event. -/
def anyEvent : Allowed := fun _ _ => true

/-- A ping is sent only when none is outstanding. -/
def onePingAtATime : Allowed
  | p, .sendPing => decide (p.pingSent ≤ 0)
  | _, _ => true

/-- The states a peer reaches from `NewTCPPeer` by allowed events. -/
inductive Reachable (ok : Allowed) : TCPPeer → Prop where
  | init : Reachable ok newTCPPeer
  | step {p : TCPPeer} (e : Event) : Reachable ok p → ok p e = true → Reachable ok (p.step e).2

/-- Every event of the run is allowed where it happens. -/
def runOk (ok : Allowed) : TCPPeer → List Event → Bool
  | _, [] => true
  | p, e :: es => ok p e && runOk ok (p.step e).2 es

theorem Reachable.run {ok : Allowed} {p : TCPPeer} (hr : Reachable ok p) :
    ∀ es, runOk ok p es = true → Reachable ok (p.run es)
  | [], _ => hr
  | e :: es, h => by
    simp only [runOk, Bool.and_eq_true] at h
    exact (hr.step e h.1).run es h.2

/-! ## The keepalive on its own

The keepalive reads and writes only `done`, the pings outstanding and the timer.
`PingState.step` is what each event does to them, as a machine of its own;
`TCPPeer.pingState_step` says that the peer's methods act on them so. -/

/-- What the keepalive reads and writes. -/
structure PingState where
  done : Bool
  pingSent : Int
  pingTimer : Option Timer

/-- An event's effect on the keepalive, for a peer that has or has not finished its
handshake. -/
def PingState.step (s : PingState) (handshaked : Bool) : Event → PingState
  | .sendPing =>
    if handshaked then
      { s with pingSent := s.pingSent + 1,
               pingTimer := match s.pingTimer with | none => some .pending | t => t }
    else s
  | .handlePong _ =>
    match s.pingTimer with
    | some .expired | some .fired | some .stopped => s
    | _ => { s with pingSent := s.pingSent - 1, pingTimer := none }
  | .pingTimeout =>
    match s.pingTimer with
    | some .pending => { s with pingTimer := some .expired }
    | _ => s
  | .pingTimerFunc =>
    match s.pingTimer with
    | some .expired => { s with done := true, pingTimer := some .fired }
    | _ => s
  | .disconnect => { s with done := true }
  | _ => s

namespace TCPPeer

/-- The peer's keepalive. -/
def pingState (p : TCPPeer) : PingState := ⟨p.done, p.pingSent, p.pingTimer⟩

/-- **Every method acts on the keepalive as `PingState.step` says.** -/
theorem pingState_step (p : TCPPeer) (e : Event) :
    (p.step e).2.pingState = p.pingState.step p.handshaked e := by
  cases e with
  | sendVersion _ | handleVersion _ | sendVersionAck _ | handleVersionAck =>
    simp only [step, sendVersion, handleVersion, sendVersionAck, handleVersionAck,
      apply_ite (fun x : Option PeerError × TCPPeer => x.2.pingState)]
    simp only [pingState, PingState.step, ite_self]
  | sendPing =>
    simp only [step, sendPing, PingState.step, pingState]
    cases p.handshaked <;> rcases h : p.pingTimer with _ | t <;> simp [h]
  | handlePong b =>
    simp only [step, handlePong, PingState.step]
    rcases h : p.pingTimer with _ | _ | _ | _ | _ <;>
      simp only [stopFailed, Timer.stop, pingState, h, Bool.not_true, Bool.not_false,
        Bool.false_eq_true, if_true, if_false] <;>
      split_ifs <;> rfl
  | pingTimeout =>
    simp only [step, TCPPeer.pingTimeout, PingState.step, pingState]
    split <;> rename_i h <;> simp [h]
  | pingTimerFunc =>
    simp only [step, TCPPeer.pingTimerFunc, PingState.step, pingState]
    split <;> rename_i h <;> simp [h, disconnect]
  | disconnect => rfl

end TCPPeer

theorem Reachable.pingState {ok : Allowed} {P : PingState → Prop}
    (hinit : P newTCPPeer.pingState)
    (hstep : ∀ p e, ok p e = true → P p.pingState → P (p.pingState.step p.handshaked e))
    {p : TCPPeer} (hr : Reachable ok p) : P p.pingState := by
  induction hr with
  | init => exact hinit
  | step e _ he ih => rw [TCPPeer.pingState_step]; exact hstep _ e he ih

/-! ## On every run the timer held while connected is live -/

/-- The keepalive never holds a stopped timer, and holds one whose function has run only once
disconnected. -/
@[mk_iff] structure PingState.Live (s : PingState) : Prop where
  notStopped : s.pingTimer ≠ some .stopped
  firedDone : s.pingTimer = some .fired → s.done = true

theorem PingState.Live.step {s : PingState} (h : s.Live) (handshaked : Bool) (e : Event) :
    (s.step handshaked e).Live := by
  obtain ⟨done, sent, timer⟩ := s
  rw [PingState.live_iff] at h ⊢
  cases e with
  | sendPing =>
    cases handshaked
    · exact h
    · rcases timer with _ | _ | _ | _ | _ <;> simp only [PingState.step] <;> simp_all
  | handlePong | pingTimeout | pingTimerFunc =>
    rcases timer with _ | _ | _ | _ | _ <;> simp only [PingState.step] <;> simp_all
  | disconnect => simp_all [PingState.step]
  | _ => exact h

/-- On every run, a connected peer's ping timer is absent, pending, or gone off with its
function still to run. -/
theorem PingState.Live.reachable {ok : Allowed} {p : TCPPeer} (hr : Reachable ok p) :
    p.pingState.Live :=
  hr.pingState ⟨by decide, by decide⟩ fun _ e _ h => h.step _ e

/-! ## With one ping at a time, every outstanding ping is guarded -/

/-- The keepalive invariant of runs that send one ping at a time. -/
@[mk_iff] structure PingState.OnePing (s : PingState) : Prop where
  live : s.Live
  atMostOne : s.pingSent ≤ 1
  guarded : s.done = false → 0 < s.pingSent →
    s.pingTimer = some .pending ∨ s.pingTimer = some .expired

theorem PingState.OnePing.step {s : PingState} (h : s.OnePing) (handshaked : Bool) (e : Event)
    (he : e = .sendPing → s.pingSent ≤ 0) : (s.step handshaked e).OnePing := by
  refine ⟨h.live.step handshaked e, ?_, ?_⟩
  · obtain ⟨done, sent, timer⟩ := s
    have hle : sent ≤ 1 := h.atMostOne
    cases e with
    | sendPing =>
      have : sent ≤ 0 := he rfl
      cases handshaked
      · exact hle
      · show sent + 1 ≤ 1; omega
    | handlePong => simp only [PingState.step]; split <;> dsimp only <;> omega
    | pingTimeout | pingTimerFunc => simp only [PingState.step]; split <;> exact hle
    | _ => exact hle
  · obtain ⟨done, sent, timer⟩ := s
    obtain ⟨⟨hstop, hfired⟩, hle, hg⟩ := h
    cases e with
    | sendPing =>
      cases handshaked
      · exact hg
      · intro hd _
        change done = false at hd
        rcases timer with _ | _ | _ | _ | _
        · exact .inl rfl
        · exact .inl rfl
        · exact .inr rfl
        · exact absurd (hfired rfl) (by simp [hd])
        · exact absurd rfl hstop
    | handlePong =>
      simp only [PingState.step]
      split <;> first | exact hg | (intro _ h; dsimp only at h hle; omega)
    | pingTimeout =>
      simp only [PingState.step]; split <;> first | exact fun _ _ => .inr rfl | exact hg
    | pingTimerFunc => simp only [PingState.step]; split <;> first | exact hg | (intro h; cases h)
    | disconnect => exact nofun
    | _ => exact hg

theorem onePingAtATime_sendPing {p : TCPPeer} {e : Event} (he : onePingAtATime p e = true) :
    e = .sendPing → p.pingSent ≤ 0 := by
  rintro rfl
  simpa [onePingAtATime] using he

/-- Every state of a run that sends one ping at a time keeps the invariant. -/
theorem PingState.OnePing.reachable {p : TCPPeer} (hr : Reachable onePingAtATime p) :
    p.pingState.OnePing :=
  hr.pingState ⟨⟨by decide, by decide⟩, by decide, by decide⟩
    fun _ e he h => h.step _ e (onePingAtATime_sendPing he)

/-- **With one ping outstanding at a time, every outstanding ping is guarded.** On every run,
a connected peer's ping timer is absent, pending, or gone off with its `Disconnect` still to
run; on runs that send a ping only when none is outstanding, a connected peer with a ping
outstanding holds a timer that is pending or has gone off. -/
theorem pingTimer_guarded_of_one_ping_at_a_time :
    (∀ p, Reachable anyEvent p → p.done = false →
      p.pingTimer = none ∨ p.pingTimer = some .pending ∨ p.pingTimer = some .expired) ∧
    ∀ p, Reachable onePingAtATime p → p.done = false → 0 < p.pingSent →
      p.pingTimer = some .pending ∨ p.pingTimer = some .expired := by
  refine ⟨fun p hr hd => ?_, fun p hr => (PingState.OnePing.reachable hr).guarded⟩
  obtain ⟨hstop, hfired⟩ := PingState.Live.reachable hr
  rcases h : p.pingTimer with _ | _ | _ | _ | _
  · exact .inl rfl
  · exact .inr (.inl rfl)
  · exact .inr (.inr rfl)
  · exact absurd (hfired h) (by simp [TCPPeer.pingState, hd])
  · exact absurd h hstop

/-- The handshake of a peer that offers start height 5. -/
def handshake : List Event :=
  [.sendVersion true, .handleVersion ⟨5⟩, .sendVersionAck true, .handleVersionAck]

/-- One ping whose timer goes off: the peer is connected, the ping outstanding, and the timer
has gone off with its `Disconnect` still to run. -/
theorem pingTimer_guarded_after_expiry :
    let p := newTCPPeer.run (handshake ++ [.sendPing, .pingTimeout])
    (Reachable anyEvent p ∧ p.done = false ∧
        (p.pingTimer = none ∨ p.pingTimer = some .pending ∨ p.pingTimer = some .expired)) ∧
      Reachable onePingAtATime p ∧ p.done = false ∧ 0 < p.pingSent ∧
        (p.pingTimer = some .pending ∨ p.pingTimer = some .expired) := by
  intro p
  have hr : Reachable onePingAtATime p := Reachable.init.run _ (by decide)
  have hr' : Reachable anyEvent p := Reachable.init.run _ rfl
  exact ⟨⟨hr', by decide, pingTimer_guarded_of_one_ping_at_a_time.1 p hr' (by decide)⟩, hr,
    by decide, by decide, pingTimer_guarded_of_one_ping_at_a_time.2 p hr (by decide) (by decide)⟩

/-- **A connected peer with a ping outstanding need not hold a pending timer.** Two pings and
one pong leave a ping outstanding with no timer: the pong stops and drops the only timer, which
guarded both pings. One ping whose timer has gone off leaves the ping outstanding and the peer
connected, with a timer that `Stop` no longer stops, until the timer's goroutine runs
`Disconnect`. -/
theorem ping_outstanding_without_pending_timer :
    (let p := newTCPPeer.run (handshake ++ [.sendPing, .sendPing, .handlePong 5]);
      Reachable anyEvent p ∧ p.done = false ∧ p.pingSent = 1 ∧ p.pingTimer = none) ∧
    (let p := newTCPPeer.run (handshake ++ [.sendPing, .pingTimeout]);
      Reachable onePingAtATime p ∧ p.done = false ∧ p.pingSent = 1 ∧
        p.pingTimer = some .expired ∧ (TCPPeer.stopFailed p.pingTimer).1 = true) :=
  ⟨⟨Reachable.init.run _ rfl, by decide, by decide, by decide⟩,
    ⟨Reachable.init.run _ (by decide), by decide, by decide, by decide, by decide⟩⟩

/-! ## The handshake over runs

A handshake call that succeeds sets its bit of `handShake`, after checking that the bit is clear
and, for the two VerAck calls, that both Version bits are set. `stageStep` is what each event
does to the stage, and the stages a peer reaches are the seven of `handshakeStages`. -/

/-- The stage bit a handshake call sets when it returns nil. -/
def Event.setsBit : Event → Option UInt8
  | .sendVersion _ => some versionSent
  | .handleVersion _ => some versionReceived
  | .sendVersionAck _ => some verAckSent
  | .handleVersionAck => some verAckReceived
  | _ => none

/-- The four stage bits. -/
def stageBits : List UInt8 := [versionSent, versionReceived, verAckSent, verAckReceived]

/-- What an event does to `handShake`. -/
def stageStep (x : UInt8) : Event → UInt8
  | .sendVersion written =>
    if x &&& versionSent != 0 then x else if written then x ||| versionSent else x
  | .handleVersion _ => if x &&& versionReceived != 0 then x else x ||| versionReceived
  | .sendVersionAck written =>
    if x &&& versionReceived == 0 then x else if x &&& versionSent == 0 then x
    else if x &&& verAckSent != 0 then x else if written then x ||| verAckSent else x
  | .handleVersionAck =>
    if x &&& versionSent == 0 then x else if x &&& versionReceived == 0 then x
    else if x &&& verAckReceived != 0 then x else x ||| verAckReceived
  | _ => x

/-- The stages: no Version, one, or both, and with both, one or both VerAcks. -/
def handshakeStages : List UInt8 := [0, 1, 2, 3, 7, 11, 15]

namespace TCPPeer

/-- **Every event acts on the stage as `stageStep` says.** -/
theorem handShake_step (p : TCPPeer) (e : Event) :
    (p.step e).2.handShake = stageStep p.handShake e := by
  cases e with
  | sendVersion _ | handleVersion _ | sendVersionAck _ | handleVersionAck =>
    simp only [step, sendVersion, handleVersion, sendVersionAck, handleVersionAck, stageStep,
      apply_ite (fun x : Option PeerError × TCPPeer => x.2.handShake)]
  | sendPing =>
    simp only [step, sendPing, stageStep]
    split
    · rfl
    · split <;> rfl
  | handlePong b =>
    simp only [step, handlePong, stageStep]
    split_ifs <;> rfl
  | pingTimeout => simp only [step, pingTimeout, stageStep]; split <;> rfl
  | pingTimerFunc => simp only [step, pingTimerFunc, stageStep]; split <;> rfl
  | disconnect => rfl

/-- **What a handshake call does**: it returns nil, having found its bit clear and, for a VerAck,
both Version bits set, and sets its bit; or it returns an error and leaves the stage. -/
theorem step_call (p : TCPPeer) {e : Event} {b : UInt8} (hb : e.setsBit = some b) :
    ((p.step e).1 = none ∧ p.handShake &&& b = 0 ∧ (p.step e).2.handShake = p.handShake ||| b ∧
        (b = verAckSent ∨ b = verAckReceived →
          p.handShake &&& versionSent ≠ 0 ∧ p.handShake &&& versionReceived ≠ 0)) ∨
      ((p.step e).1 ≠ none ∧ (p.step e).2.handShake = p.handShake) := by
  cases e with
  | sendVersion w =>
    cases hb
    simp only [step, sendVersion]
    split
    · exact .inr ⟨nofun, rfl⟩
    · split
      · rename_i h1 _
        simp only [bne_iff_ne, ne_eq, Decidable.not_not] at h1
        exact .inl ⟨rfl, h1, rfl, by rintro (h | h) <;> cases h⟩
      · exact .inr ⟨nofun, rfl⟩
  | handleVersion v =>
    cases hb
    simp only [step, handleVersion]
    split
    · exact .inr ⟨nofun, rfl⟩
    · rename_i h1
      simp only [bne_iff_ne, ne_eq, Decidable.not_not] at h1
      exact .inl ⟨rfl, h1, rfl, by rintro (h | h) <;> cases h⟩
  | sendVersionAck w =>
    cases hb
    simp only [step, sendVersionAck]
    split
    · exact .inr ⟨nofun, rfl⟩
    · split
      · exact .inr ⟨nofun, rfl⟩
      · split
        · exact .inr ⟨nofun, rfl⟩
        · split
          · rename_i h1 h2 h3 _
            simp only [bne_iff_ne, beq_iff_eq, ne_eq, Decidable.not_not] at h1 h2 h3
            exact .inl ⟨rfl, h3, rfl, fun _ => ⟨h2, h1⟩⟩
          · exact .inr ⟨nofun, rfl⟩
  | handleVersionAck =>
    cases hb
    simp only [step, handleVersionAck]
    split
    · exact .inr ⟨nofun, rfl⟩
    · split
      · exact .inr ⟨nofun, rfl⟩
      · split
        · exact .inr ⟨nofun, rfl⟩
        · rename_i h1 h2 h3
          simp only [bne_iff_ne, beq_iff_eq, ne_eq, Decidable.not_not] at h1 h2 h3
          exact .inl ⟨rfl, h3, rfl, fun _ => ⟨h1, h2⟩⟩
  | _ => cases hb

theorem step_ok (p : TCPPeer) {e : Event} {b : UInt8} (hb : e.setsBit = some b)
    (hok : (p.step e).1 = none) : p.handShake &&& b = 0 ∧
      (p.step e).2.handShake = p.handShake ||| b ∧ (b = verAckSent ∨ b = verAckReceived →
        p.handShake &&& versionSent ≠ 0 ∧ p.handShake &&& versionReceived ≠ 0) :=
  ((step_call p hb).resolve_right fun h => h.1 hok).2

end TCPPeer

theorem stageStep_mem {x : UInt8} (hx : x ∈ handshakeStages) :
    ∀ e, stageStep x e ∈ handshakeStages
  | .sendVersion w => by revert x; cases w <;> decide
  | .handleVersion _ => by
    revert x
    exact (by decide : ∀ x ∈ handshakeStages, stageStep x (.handleVersion ⟨0⟩) ∈ handshakeStages)
  | .sendVersionAck w => by revert x; cases w <;> decide
  | .handleVersionAck => by revert x; decide
  | .sendPing | .handlePong _ | .pingTimeout | .pingTimerFunc | .disconnect => hx

theorem stageStep_keeps {x : UInt8} (hx : x ∈ handshakeStages) {b : UInt8} (hb : b ∈ stageBits)
    (hset : x &&& b ≠ 0) : ∀ e, stageStep x e &&& b ≠ 0
  | .sendVersion w => by revert x b; cases w <;> decide
  | .handleVersion _ => by
    revert x b
    exact (by decide : ∀ x ∈ handshakeStages, ∀ b ∈ stageBits, x &&& b ≠ 0 →
      stageStep x (.handleVersion ⟨0⟩) &&& b ≠ 0)
  | .sendVersionAck w => by revert x b; cases w <;> decide
  | .handleVersionAck => by revert x b; decide
  | .sendPing | .handlePong _ | .pingTimeout | .pingTimerFunc | .disconnect => hset

theorem stageStep_sets {x : UInt8} (hx : x ∈ handshakeStages) {b : UInt8} (hb : b ∈ stageBits)
    (hclear : x &&& b = 0) : ∀ e, stageStep x e &&& b ≠ 0 → e.setsBit = some b
  | .sendVersion w => by revert x b; cases w <;> decide
  | .handleVersion _ => by
    revert x b
    exact (by decide : ∀ x ∈ handshakeStages, ∀ b ∈ stageBits, x &&& b = 0 →
      stageStep x (.handleVersion ⟨0⟩) &&& b ≠ 0 → (Event.handleVersion ⟨0⟩).setsBit = some b)
  | .sendVersionAck w => by revert x b; cases w <;> decide
  | .handleVersionAck => by revert x b; decide
  | .sendPing | .handlePong _ | .pingTimeout | .pingTimerFunc | .disconnect => fun h => absurd hclear h

theorem stage_or_bit : ∀ x ∈ handshakeStages, ∀ b ∈ stageBits, (x ||| b) &&& b ≠ 0 := by
  decide

theorem setsBit_mem {e : Event} {b : UInt8} (hb : e.setsBit = some b) : b ∈ stageBits := by
  cases e <;> cases hb <;> decide

namespace TCPPeer

theorem run_append (p : TCPPeer) (es es' : List Event) : p.run (es ++ es') = (p.run es).run es' :=
  List.foldl_append _ _ _ _

theorem handShake_run_mem {p : TCPPeer} (hp : p.handShake ∈ handshakeStages) :
    ∀ es, (p.run es).handShake ∈ handshakeStages
  | [] => hp
  | e :: es => handShake_run_mem (by rw [handShake_step]; exact stageStep_mem hp e) es

theorem run_keeps {p : TCPPeer} (hp : p.handShake ∈ handshakeStages) {b : UInt8}
    (hb : b ∈ stageBits) (hset : p.handShake &&& b ≠ 0) : ∀ es, (p.run es).handShake &&& b ≠ 0
  | [] => hset
  | e :: es => run_keeps (by rw [handShake_step]; exact stageStep_mem hp e) hb
      (by rw [handShake_step]; exact stageStep_keeps hp hb hset e) es

/-- A stage bit set along a run was set before it, or by a call of its method that returned
nil. -/
theorem bit_of_run {b : UInt8} (hb : b ∈ stageBits) : ∀ (p : TCPPeer) (es : List Event),
    p.handShake ∈ handshakeStages → (p.run es).handShake &&& b ≠ 0 →
      p.handShake &&& b ≠ 0 ∨ ∃ es₁ e es₂, es = es₁ ++ e :: es₂ ∧ e.setsBit = some b ∧
        ((p.run es₁).step e).1 = none
  | _, [], _, hset => .inl hset
  | p, e :: es, hp, hset => by
    have hp' : (p.step e).2.handShake ∈ handshakeStages := by
      rw [handShake_step]; exact stageStep_mem hp e
    rcases bit_of_run hb (p.step e).2 es hp' hset with h | ⟨es₁, e', es₂, rfl, he', hok⟩
    · by_cases hclear : p.handShake &&& b = 0
      · have hsets := stageStep_sets hp hb hclear e (by rwa [handShake_step] at h)
        rcases step_call p hsets with ⟨hok, -⟩ | ⟨-, hsame⟩
        · exact .inr ⟨[], e, es, rfl, hsets, hok⟩
        · rw [hsame, hclear] at h
          exact absurd rfl h
      · exact .inl hclear
    · exact .inr ⟨e :: es₁, e', es₂, rfl, he', hok⟩

theorem bit_set_after_ok (es₁ es₂ : List Event) {e : Event} {b : UInt8} (hb : e.setsBit = some b)
    (hok : ((newTCPPeer.run es₁).step e).1 = none) :
    (newTCPPeer.run (es₁ ++ e :: es₂)).handShake &&& b ≠ 0 := by
  have hmem := handShake_run_mem (p := newTCPPeer) (by decide) es₁
  have hmem' : ((newTCPPeer.run es₁).step e).2.handShake ∈ handshakeStages := by
    rw [handShake_step]; exact stageStep_mem hmem e
  rw [run_append]
  refine run_keeps hmem' (setsBit_mem hb) ?_ es₂
  rw [(step_ok _ hb hok).2.1]
  exact stage_or_bit _ hmem b (setsBit_mem hb)

end TCPPeer

/-- **Each handshake call succeeds at most once.** On every run from `NewTCPPeer`, once a call of
`SendVersion`, `HandleVersion`, `SendVersionAck` or `HandleVersionAck` has returned nil, every
later call of the same method returns an error. -/
theorem handshake_call_once (es₁ es₂ : List Event) {e e' : Event} {b : UInt8}
    (hb : e.setsBit = some b) (hb' : e'.setsBit = some b)
    (hok : ((newTCPPeer.run es₁).step e).1 = none) :
    ((newTCPPeer.run (es₁ ++ e :: es₂)).step e').1 ≠ none := by
  intro hok'
  exact TCPPeer.bit_set_after_ok es₁ es₂ hb hok (TCPPeer.step_ok _ hb' hok').1

/-- After a handshake's `SendVersion`, a second one, with a Version received between, fails. -/
theorem handshake_call_once_on_sendVersion :
    ((newTCPPeer.run []).step (.sendVersion true)).1 = none ∧
      ((newTCPPeer.run ([] ++ .sendVersion true :: [.handleVersion ⟨5⟩])).step
        (.sendVersion true)).1 ≠ none :=
  ⟨rfl, handshake_call_once [] [.handleVersion ⟨5⟩] rfl rfl rfl⟩

/-- **The VerAck calls succeed only after both Version calls.** On every run from `NewTCPPeer`, a
call of `SendVersionAck` or `HandleVersionAck` that returns nil comes after a call of
`SendVersion` and a call of `HandleVersion` that returned nil. -/
theorem verAck_after_versions (es : List Event) {e : Event}
    (he : e.setsBit = some verAckSent ∨ e.setsBit = some verAckReceived)
    (hok : ((newTCPPeer.run es).step e).1 = none) :
    ∀ b ∈ [versionSent, versionReceived], ∃ es₁ e' es₂, es = es₁ ++ e' :: es₂ ∧
      e'.setsBit = some b ∧ ((newTCPPeer.run es₁).step e').1 = none := by
  obtain ⟨b₀, hb₀, hack⟩ : ∃ b₀, e.setsBit = some b₀ ∧ (b₀ = verAckSent ∨ b₀ = verAckReceived) := by
    rcases he with he | he
    · exact ⟨_, he, .inl rfl⟩
    · exact ⟨_, he, .inr rfl⟩
  obtain ⟨hvs, hvr⟩ := (TCPPeer.step_ok _ hb₀ hok).2.2 hack
  intro b hb
  simp only [List.mem_cons, List.mem_singleton, List.not_mem_nil, or_false] at hb
  have hfrom := fun hbit hset => TCPPeer.bit_of_run (b := b) hbit newTCPPeer es (by decide) hset
  rcases hb with rfl | rfl
  · exact (hfrom (by decide) hvs).resolve_left (by decide)
  · exact (hfrom (by decide) hvr).resolve_left (by decide)

/-- The handshake's `SendVersionAck` comes after its `SendVersion` and `HandleVersion`. -/
theorem verAck_after_versions_on_handshake :
    ((newTCPPeer.run [.sendVersion true, .handleVersion ⟨5⟩]).step (.sendVersionAck true)).1 =
        none ∧
      ∀ b ∈ [versionSent, versionReceived], ∃ es₁ e' es₂,
        [Event.sendVersion true, .handleVersion ⟨5⟩] = es₁ ++ e' :: es₂ ∧ e'.setsBit = some b ∧
          ((newTCPPeer.run es₁).step e').1 = none :=
  ⟨rfl, verAck_after_versions _ (e := .sendVersionAck true) (.inl rfl) rfl⟩

/-- **`Handshaked` holds exactly after the four handshake calls.** On every run from
`NewTCPPeer`, the peer is handshaked exactly when each of `SendVersion`, `HandleVersion`,
`SendVersionAck` and `HandleVersionAck` has been called and returned nil. -/
theorem handshaked_iff_calls (es : List Event) :
    (newTCPPeer.run es).handshaked = true ↔ ∀ b ∈ stageBits, ∃ es₁ e es₂,
      es = es₁ ++ e :: es₂ ∧ e.setsBit = some b ∧ ((newTCPPeer.run es₁).step e).1 = none := by
  have hmem := TCPPeer.handShake_run_mem (p := newTCPPeer) (by decide) es
  have hfull : ∀ x ∈ handshakeStages,
      (x == (verAckReceived ||| verAckSent ||| versionReceived ||| versionSent)) = true ↔
        ∀ b ∈ stageBits, x &&& b ≠ 0 := by decide
  have hnew : ∀ b ∈ stageBits, ¬ newTCPPeer.handShake &&& b ≠ 0 := by decide
  rw [TCPPeer.handshaked, hfull _ hmem]
  refine forall₂_congr fun b hb => ⟨fun hset => ?_, ?_⟩
  · exact (TCPPeer.bit_of_run hb newTCPPeer es (by decide) hset).resolve_left (hnew b hb)
  · rintro ⟨es₁, e, es₂, rfl, he, hok⟩
    exact TCPPeer.bit_set_after_ok es₁ es₂ he hok

end NeoGo.Network
