import Cathole.Lib.Matching
import Cathole.Lib.Simulation
import Cathole.Datagram.Tunnel
import Cathole.Proxy.Isolation
import Cathole.Proxy.Order

/-!
# A whole UDP session

The relay of both ends over the tunnel that carries it: the listeners and the
workers call `Sender::send`, which seals one fragment after the other while other
calls do the same, the network does with the datagrams as it likes, and both
loops take their packets from `read_packet`.

`PlainRelay` is the same session with a channel in the place of the tunnel, one
that hands over what was sent, in any order, each packet at most once.
`refines_relay` says that the tunnel is such a channel: whatever the network does,
a session looks like a run of `PlainRelay`.
-/

namespace Cathole

/-- A task of the server in `Sender::send`. -/
inductive Calling
  | running (call : Nat)
  -- The call returned an error, and so did the task.
  | failed
  deriving DecidableEq, Repr

structure Session where
  tunnel : Tunnel
  relay : Relay
  -- The listeners in `Sender::send`.
  sending : Table UInt16 Calling
  -- What `read_packet` returned to the loop of the server.
  packet : Option Packet
  -- The workers in `Sender::send`, with the number of the call.
  answering : Table Nat Nat
  deriving DecidableEq

inductive SessionAction
  -- A step of the registration.
  | exchange (side : Role) (action : Action)
  -- A listener receives a public datagram and looks up its flow.
  | arrive (service : UInt16) (peer : SocketAddr) (payload : Bytes) (now : Nat)
  -- It calls `Sender::send`, and the call takes its steps.
  | send (service : UInt16)
  | advance (service : UInt16) (queued : Bool)
  -- The loop of the server: a tick, a turn of `read_packet`, and the two halves
  -- of the packet branch.
  | expire (clock : UInt64 → Nat) (now : Nat)
  | receive (bytes : Bytes) (now : Nat)
  | reply (now : Nat)
  | sendTo
  -- The loop of the client.
  | deliver (bytes : Bytes) (now : Nat)
  | tick (now : Nat)
  | join (i : Nat)
  -- A worker, except for the replies of its local service.
  | worker (i : Nat) (event : WorkerEvent)
  -- A reply and the steps of the call that sends it.
  | answer (i : Nat) (payload : Bytes)
  | advanceAnswer (i : Nat) (queued : Bool)

def Action.isExchange : Action → Bool
  | .request _ | .reply _ | .accept _ | .confirm => true
  | _ => false

def WorkerEvent.isReply : WorkerEvent → Bool
  | .reply .. => true
  | _ => false

def Endpoint.returned (call : Nat) (e : Endpoint) : Option (Except Fault Unit) :=
  match e.calls[call]? with
  | some ⟨_, .returned result⟩ => some result
  | _ => none

namespace Session

def new (destinations : Table UInt16 SocketAddr) : Session where
  tunnel := .new
  relay := .new destinations
  sending := ∅
  packet := none
  answering := ∅

section

variable (encrypt : Role → Nat → Bytes → Option Bytes) (serverLimit clientLimit idle : Nat)

/-- The loop of the server is in its `select!`. -/
def selecting (s : Session) : Bool :=
  s.tunnel.server.stage = .live && s.packet.isNone && s.relay.replying.isNone

def send (service : UInt16) (s : Session) : Session :=
  match s.relay.listeners.lookup service with
  | none => s
  | some (id, payload) =>
    match (s.tunnel.server.sender.start service id payload).1 with
    | .ok _ =>
      { s with
        tunnel := s.tunnel.step encrypt (.server, .send service id payload)
        relay :=
          { s.relay with
            outgoing := s.relay.outgoing ++ [⟨service, id, payload⟩]
            listeners := s.relay.listeners.erase service }
        sending := s.sending.insert service (.running s.tunnel.server.calls.length) }
    | .error _ => { s with sending := s.sending.insert service .failed }

def advance (service : UInt16) (queued : Bool) (s : Session) : Session :=
  match s.sending.lookup service with
  | some (.running call) =>
    let tunnel := s.tunnel.step encrypt (.server, .advance call queued)
    { s with
      tunnel
      sending :=
        match tunnel.server.returned call with
        | none => s.sending
        | some (.ok _) => s.sending.erase service
        | some (.error _) => s.sending.insert service .failed }
  | _ => s

def deliver (bytes : Bytes) (now : Nat) (s : Session) : Session :=
  let tunnel := s.tunnel.step encrypt (.client, .receive bytes now)
  match tunnel.client.delivered[s.tunnel.client.delivered.length]? with
  | some p =>
    { s with
      tunnel
      relay := { s.relay with client := s.relay.client.step clientLimit (.packet p) } }
  | none => { s with tunnel }

def answer (i : Nat) (payload : Bytes) (w : Worker) (s : Session) : Session :=
  if payload.length ≤ maxPayload then
    match (s.tunnel.client.sender.start w.key.1 w.key.2 payload).1 with
    | .ok _ =>
      { s with
        tunnel := s.tunnel.step encrypt (.client, .send w.key.1 w.key.2 payload)
        relay :=
          { s.relay with
            client := s.relay.client.step clientLimit (.worker i (.reply payload true)) }
        answering := s.answering.insert i s.tunnel.client.calls.length }
    | .error _ =>
      { s with
        relay :=
          { s.relay with
            client := s.relay.client.step clientLimit (.worker i (.reply payload false)) } }
  else
    { s with
      relay :=
        { s.relay with
          client := s.relay.client.step clientLimit (.worker i (.reply payload true)) } }

/-- A call that fails makes its worker return. -/
def advanceAnswer (i : Nat) (queued : Bool) (s : Session) : Session :=
  match s.answering.lookup i with
  | none => s
  | some call =>
    let tunnel := s.tunnel.step encrypt (.client, .advance call queued)
    match tunnel.client.returned call with
    | none => { s with tunnel }
    | some (.ok _) => { s with tunnel, answering := s.answering.erase i }
    | some (.error _) =>
      { s with
        tunnel
        relay := { s.relay with client := s.relay.client.step clientLimit (.worker i .failed) }
        answering := s.answering.erase i }

/-- A step a task is not ready for does nothing; a failure that ends the session
ends the run. -/
def step (s : Session) : SessionAction → Session
  | .exchange side action =>
    if action.isExchange then { s with tunnel := s.tunnel.step encrypt (side, action) } else s
  | .arrive service peer payload now =>
    if s.tunnel.server.stage = .live ∧ service ∉ s.relay.listeners ∧ service ∉ s.sending then
      { s with relay := s.relay.arrive serverLimit service peer payload now }
    else s
  | .send service =>
    if s.tunnel.server.stage = .live ∧ service ∉ s.sending then s.send encrypt service else s
  | .advance service queued => s.advance encrypt service queued
  | .expire clock now =>
    if s.selecting then
      { s with
        tunnel := s.tunnel.step encrypt (.server, .tick now)
        relay := { s.relay with table := s.relay.table.expire idle clock } }
    else s
  | .receive bytes now =>
    if s.selecting then
      let tunnel := s.tunnel.step encrypt (.server, .receive bytes now)
      { s with tunnel, packet := tunnel.server.delivered[s.tunnel.server.delivered.length]? }
    else s
  | .reply now =>
    match s.packet with
    | some p => { s with relay := s.relay.reply p now, packet := none }
    | none => s
  | .sendTo =>
    match s.relay.replying with
    | some forward =>
      { s with
        relay := { s.relay with forwarded := s.relay.forwarded ++ [forward], replying := none } }
    | none => s
  | .deliver bytes now =>
    if s.tunnel.client.stage = .live then s.deliver encrypt clientLimit bytes now else s
  | .tick now => { s with tunnel := s.tunnel.step encrypt (.client, .tick now) }
  | .join i =>
      { s with relay := { s.relay with client := s.relay.client.step clientLimit (.join i) } }
  | .worker i event =>
    if i ∈ s.answering ∨ event.isReply then s
    else
      { s with
        relay := { s.relay with client := s.relay.client.step clientLimit (.worker i event) } }
  | .answer i payload =>
    match s.relay.client.workers[i]? with
    | some w =>
      if s.tunnel.client.stage = .live ∧ w.phase = .waiting ∧ i ∉ s.answering then
        s.answer encrypt clientLimit i payload w
      else s
    | none => s
  | .advanceAnswer i queued => s.advanceAnswer encrypt clientLimit i queued

def run (destinations : Table UInt16 SocketAddr) (actions : List SessionAction) : Session :=
  actions.foldl (step encrypt serverLimit clientLimit idle) (new destinations)

end

end Session

-- ---------------------------------------------------------------------------
-- The relay over plain channels
-- ---------------------------------------------------------------------------

structure PlainRelay where
  relay : Relay
  -- The places in their channels of the packets that were handed over.
  delivered : List Nat
  replied : List Nat
  deriving DecidableEq

namespace PlainRelay

def new (destinations : Table UInt16 SocketAddr) : PlainRelay where
  relay := .new destinations
  delivered := []
  replied := []

/-- A step of the relay, except that a packet that was handed over is gone. -/
def step (serverLimit clientLimit idle : Nat) (p : PlainRelay) : RelayAction → PlainRelay
  | .deliver k =>
    if k < p.relay.outgoing.length ∧ k ∉ p.delivered then
      { p with
        relay := p.relay.step serverLimit clientLimit idle (.deliver k)
        delivered := p.delivered ++ [k] }
    else p
  | .reply k now =>
    if k < p.relay.client.outgoing.length ∧ k ∉ p.replied ∧ p.relay.replying = none then
      { p with
        relay := p.relay.step serverLimit clientLimit idle (.reply k now)
        replied := p.replied ++ [k] }
    else p
  | action => { p with relay := p.relay.step serverLimit clientLimit idle action }

def run (serverLimit clientLimit idle : Nat) (destinations : Table UInt16 SocketAddr)
    (actions : List RelayAction) : PlainRelay :=
  actions.foldl (step serverLimit clientLimit idle) (new destinations)

theorem relay_run (serverLimit clientLimit idle : Nat) (destinations : Table UInt16 SocketAddr)
    (actions : List RelayAction) :
    ∃ actions', (run serverLimit clientLimit idle destinations actions).relay =
      Relay.run serverLimit clientLimit idle destinations actions' := by
  have hsim : Simulates (step serverLimit clientLimit idle)
      (Relay.step serverLimit clientLimit idle) (Through (fun _ => True) PlainRelay.relay) := by
    refine .through (fun _ _ _ => trivial) fun p action _ => ?_
    cases action with
    | deliver k =>
      simp only [step]
      split
      · exact ⟨[.deliver k], rfl⟩
      · exact ⟨[], rfl⟩
    | reply k now =>
      simp only [step]
      split
      · exact ⟨[.reply k now], rfl⟩
      · exact ⟨[], rfl⟩
    | arrive service peer payload now => exact ⟨[.arrive service peer payload now], rfl⟩
    | send service => exact ⟨[.send service], rfl⟩
    | expire clock => exact ⟨[.expire clock], rfl⟩
    | sendTo => exact ⟨[.sendTo], rfl⟩
    | worker i event => exact ⟨[.worker i event], rfl⟩
    | join i => exact ⟨[.join i], rfl⟩
  exact hsim.view_run trivial actions

end PlainRelay

/-- An action that takes nothing out of a channel. -/
def RelayAction.isInternal : RelayAction → Bool
  | .deliver _ | .reply .. => false
  | _ => true

theorem PlainRelay.foldl_internal {p : PlainRelay} {actions : List RelayAction}
    (serverLimit clientLimit idle : Nat)
    (hinternal : ∀ action ∈ actions, action.isInternal = true) :
    actions.foldl (step serverLimit clientLimit idle) p =
      { p with relay := actions.foldl (Relay.step serverLimit clientLimit idle) p.relay } := by
  induction actions generalizing p with
  | nil => rfl
  | cons action actions ih =>
    have hstep : p.step serverLimit clientLimit idle action =
        { p with relay := p.relay.step serverLimit clientLimit idle action } := by
      have hhead := hinternal action List.mem_cons_self
      cases action <;> first | rfl | cases hhead
    rw [List.foldl_cons, List.foldl_cons, hstep,
      ih fun a ha => hinternal a (List.mem_cons_of_mem _ ha)]

-- ---------------------------------------------------------------------------
-- What a step of an endpoint does to its calls and deliveries
-- ---------------------------------------------------------------------------

namespace Endpoint

variable {e : Endpoint} {encrypt decrypt : Nat → Bytes → Option Bytes}

theorem message_advance (queued : Bool) (sender : Sender) (call : Send) :
    (call.advance encrypt queued sender).1.message = call.message := by
  unfold Send.advance
  split
  · split
    · split <;> rfl
    · rfl
  · split <;> rfl
  · rfl

theorem messages_advanceSend (k : Nat) (queued : Bool) :
    (e.advanceSend encrypt k queued).messages = e.messages := by
  unfold advanceSend
  split
  · rfl
  rename_i call hcall
  simp only [messages, List.map_set, message_advance]
  obtain ⟨hk, rfl⟩ := List.getElem?_eq_some_iff.mp hcall
  rw [← List.map_set, List.set_getElem_self]

theorem messages_step (hsend : ∀ service flow payload, action ≠ .send service flow payload) :
    (e.step encrypt decrypt action).messages = e.messages := by
  unfold step
  split
  · unfold sealFrame
    split <;> rfl
  · unfold openFrame
    split <;> rfl
  · unfold openFrame
    split <;> rfl
  · unfold sealFrame
    split <;> rfl
  · exact absurd rfl (hsend _ _ _)
  · exact messages_advanceSend _ _
  · unfold readDatagram
    split <;> rfl
  · rfl
  · rfl

theorem delivered_step (hreceive : ∀ bytes now, action ≠ .receive bytes now) :
    (e.step encrypt decrypt action).delivered = e.delivered := by
  unfold step
  split
  · unfold sealFrame
    split <;> rfl
  · unfold openFrame
    split <;> rfl
  · unfold openFrame
    split <;> rfl
  · unfold sealFrame
    split <;> rfl
  · unfold startSend
    split <;> rfl
  · unfold advanceSend
    split <;> rfl
  · exact absurd rfl (hreceive _ _)
  · rfl
  · rfl

theorem delivered_receive (bytes : Bytes) (now : Nat) :
    (e.step encrypt decrypt (.receive bytes now)).delivered =
      e.delivered ++
        ((e.step encrypt decrypt (.receive bytes now)).delivered[e.delivered.length]?).toList := by
  have hnone : e.delivered = e.delivered ++ (e.delivered[e.delivered.length]?).toList := by
    simp
  unfold step
  split
  case h_7 =>
    simp only [readDatagram]
    split
    · exact hnone
    · rename_i plain crypto _
      simp only
      unfold handedOn
      split
      · simp
      · simp
  all_goals first
    | exact hnone
    | contradiction

theorem messages_send (hlive : e.stage = .live)
    (hstart : (e.sender.start service flow payload).1 = .ok call) :
    (e.step encrypt decrypt (.send service flow payload)).messages.map (·.packet) =
      e.messages.map (·.packet) ++ [⟨service, flow, payload⟩] := by
  have hstep : e.step encrypt decrypt (.send service flow payload) =
      e.startSend service flow payload := by
    simp [step, hlive]
  rw [hstep]
  unfold startSend Sender.start
  unfold Sender.start at hstart
  split at hstart
  · rename_i hlen
    split at hstart
    · simp [hlen, messages, Message.packet]
    · cases hstart
  · cases hstart

end Endpoint

namespace Client

variable {c : Client} {w : Worker}

theorem outgoing_trySend (i : Nat) (payload : Bytes) : (c.trySend i payload).outgoing =
    c.outgoing := by
  unfold trySend
  split
  · rfl
  · split <;> rfl

theorem outgoing_enqueue (hc : c.enqueue key payload = .ok c') : c'.outgoing = c.outgoing := by
  unfold enqueue at hc
  split at hc
  · split at hc
    · cases hc
      exact outgoing_trySend _ _
    · cases hc
  · cases hc
    rfl

theorem outgoing_packet (limit : Nat) (p : Packet) : (c.step limit (.packet p)).outgoing =
    c.outgoing := by
  simp only [step]
  split
  · rename_i c' hc
    unfold packet at hc
    split at hc
    · cases hc
      rfl
    · dsimp only at hc
      split at hc
      · exact outgoing_enqueue hc
      · split at hc
        · cases hc
          rfl
        · exact (outgoing_enqueue hc).trans rfl
  · rfl

theorem outgoing_join (limit i : Nat) : (c.step limit (.join i)).outgoing = c.outgoing := by
  simp only [step]
  split
  · split <;> rfl
  · rfl

theorem outgoing_worker (hreply : event.isReply = false) (limit i : Nat) :
    (c.step limit (.worker i event)).outgoing = c.outgoing := by
  simp only [step]
  split
  · unfold workerStep
    split
    case h_8 => cases hreply
    case h_5 => split <;> rfl
    all_goals rfl
  · rfl

theorem outgoing_reply (hw : c.workers[i]? = some w) (hphase : w.phase = .waiting) (limit : Nat)
    (payload : Bytes) (ok : Bool) :
    (c.step limit (.worker i (.reply payload ok))).outgoing =
      c.outgoing ++ if payload.length ≤ maxPayload ∧ ok = true then [⟨w.key.1, w.key.2, payload⟩]
        else [] := by
  simp only [step, hw, workerStep, hphase]
  by_cases hlen : payload.length ≤ maxPayload
  · cases ok with
    | true => simp [hlen]
    | false => simp [hlen, exit]
  · simp [hlen]

theorem outgoing_prefix (limit : Nat) (action : ClientAction) :
    c.outgoing <+: (c.step limit action).outgoing := by
  cases action with
  | packet p => rw [outgoing_packet]
  | join i => rw [outgoing_join]
  | worker i event =>
    simp only [step]
    split
    · unfold workerStep
      split
      case h_5 => split <;> exact List.prefix_rfl
      case h_8 =>
        dsimp only
        split
        · split
          · exact List.prefix_append _ _
          · exact List.prefix_rfl
        · exact List.prefix_rfl
      all_goals exact List.prefix_rfl
    · exact List.prefix_rfl

end Client

namespace Relay

variable {r : Relay}

theorem arrive_rest (limit : Nat) (service : UInt16) (peer : SocketAddr)
    (payload : Bytes) (now : Nat) :
    (r.arrive limit service peer payload now).outgoing = r.outgoing ∧
      (r.arrive limit service peer payload now).client = r.client ∧
      (r.arrive limit service peer payload now).replying = r.replying := by
  unfold Relay.arrive
  dsimp only
  split
  · exact ⟨rfl, rfl, rfl⟩
  · split <;> exact ⟨rfl, rfl, rfl⟩

theorem reply_rest (p : Packet) (now : Nat) :
    (r.reply p now).outgoing = r.outgoing ∧ (r.reply p now).client = r.client := by
  unfold Relay.reply
  split <;> exact ⟨rfl, rfl⟩

theorem step_prefix (serverLimit clientLimit idle : Nat) (action : RelayAction) :
    r.outgoing <+: (r.step serverLimit clientLimit idle action).outgoing ∧
      r.client.outgoing <+: (r.step serverLimit clientLimit idle action).client.outgoing := by
  have hsame : ∀ r' : Relay, r'.outgoing = r.outgoing → r'.client = r.client →
      r.outgoing <+: r'.outgoing ∧ r.client.outgoing <+: r'.client.outgoing := by
    intro r' houtgoing hclient
    rw [houtgoing, hclient]
    exact ⟨List.prefix_rfl, List.prefix_rfl⟩
  cases action with
  | arrive service peer payload now =>
    simp only [step]
    split
    · exact hsame r rfl rfl
    · obtain ⟨houtgoing, hclient, -⟩ := r.arrive_rest serverLimit service peer payload now
      exact hsame _ houtgoing hclient
  | send service =>
    simp only [step]
    split
    · exact ⟨List.prefix_append _ _, List.prefix_rfl⟩
    · exact hsame r rfl rfl
  | expire clock =>
    simp only [step]
    split <;> exact hsame _ rfl rfl
  | reply k now =>
    simp only [step]
    split
    · rename_i p _ _
      obtain ⟨houtgoing, hclient⟩ := r.reply_rest p now
      exact hsame _ houtgoing hclient
    · exact hsame r rfl rfl
  | sendTo =>
    simp only [step]
    split <;> exact hsame _ rfl rfl
  | deliver k =>
    simp only [step]
    split
    · exact ⟨List.prefix_rfl, Client.outgoing_prefix clientLimit _⟩
    · exact hsame r rfl rfl
  | worker i event => exact ⟨List.prefix_rfl, Client.outgoing_prefix clientLimit _⟩
  | join i => exact ⟨List.prefix_rfl, Client.outgoing_prefix clientLimit _⟩

theorem foldl_prefix (serverLimit clientLimit idle : Nat) (actions : List RelayAction) :
    let r' := actions.foldl (step serverLimit clientLimit idle) r
    r.outgoing <+: r'.outgoing ∧ r.client.outgoing <+: r'.client.outgoing := by
  induction actions generalizing r with
  | nil => exact ⟨List.prefix_rfl, List.prefix_rfl⟩
  | cons action actions ih =>
    have hfirst := r.step_prefix serverLimit clientLimit idle action
    have hrest := ih (r := r.step serverLimit clientLimit idle action)
    exact ⟨hfirst.1.trans hrest.1, hfirst.2.trans hrest.2⟩

end Relay

-- ---------------------------------------------------------------------------
-- The tunnel is a channel
-- ---------------------------------------------------------------------------

/-- What was delivered was sent, each message at most once. -/
theorem Endpoint.Receives.subperm {x y : Endpoint} (h : Receives x y taken sources) :
    y.delivered.Subperm (x.messages.map (·.packet)) := by
  have hsent : sources ⊆ x.messages := fun m hm => (h.complete m hm 0 (Chunks.count_pos _ _)).1
  obtain ⟨sent, hperm, hsub⟩ := List.subperm_of_subset h.nodup hsent
  rw [h.delivered]
  exact ⟨sent.map (·.packet), hperm.map _, hsub.map _⟩

namespace Tunnel

variable {t : Tunnel}

theorem Inv.toServer (h : Inv t) : t.server.delivered.Subperm
    (t.client.messages.map (·.packet)) := by
  obtain ⟨_, _, hreceives⟩ := h.linked.forward
  exact hreceives.subperm

theorem Inv.toClient (h : Inv t) : t.client.delivered.Subperm
    (t.server.messages.map (·.packet)) := by
  obtain ⟨_, _, hreceives⟩ := h.linked.back
  exact hreceives.subperm

end Tunnel

namespace Session

/-- The relay has the calls of `send` on both sides for its channel. -/
structure Inv (s : Session) : Prop where
  tunnel : s.tunnel.Inv
  outgoing : s.relay.outgoing = s.tunnel.server.messages.map (·.packet)
  answers : s.relay.client.outgoing = s.tunnel.client.messages.map (·.packet)
  packet : ∀ p, s.packet = some p → p ∈ s.tunnel.server.delivered ∧ s.relay.replying = none

theorem inv_new (destinations : Table UInt16 SocketAddr) : Inv (new destinations) where
  tunnel := Tunnel.inv_new
  outgoing := rfl
  answers := rfl
  packet := by simp [new]

variable {s : Session} {encrypt : Role → Nat → Bytes → Option Bytes}
  {serverLimit clientLimit idle : Nat}

/-- The packets that `read_packet` returned on both sides are those the channels
handed over, one that the loop of the server has not looked at yet apart. -/
structure Follows (s : Session) (p : PlainRelay) : Prop where
  inv : Inv s
  relay : p.relay = s.relay
  delivered : Picked p.delivered s.relay.outgoing s.tunnel.client.delivered
  replied : ∃ handled, s.tunnel.server.delivered = handled ++ s.packet.toList ∧
    Picked p.replied s.relay.client.outgoing handled

theorem follows_new (destinations : Table UInt16 SocketAddr) :
    Follows (new destinations) (PlainRelay.new destinations) where
  inv := inv_new destinations
  relay := rfl
  delivered := .nil
  replied := ⟨[], rfl, .nil⟩

/-- The steps of the plain relay that a step of the session looks like. -/
def Looks (serverLimit clientLimit idle : Nat) (s s' : Session) : Prop :=
  Inv s' ∧ ∀ p, Follows s p → ∃ actions : List RelayAction,
    Follows s' (actions.foldl (PlainRelay.step serverLimit clientLimit idle) p)

/-- Steps of the relay that take nothing out of a channel, while `read_packet`
returns nothing. -/
theorem Looks.internal {s' : Session} (hinv : Inv s') (actions : List RelayAction)
    (hrelay : s'.relay = actions.foldl (Relay.step serverLimit clientLimit idle) s.relay)
    (hinternal : ∀ action ∈ actions, action.isInternal = true)
    (hclient : s'.tunnel.client.delivered = s.tunnel.client.delivered)
    (hserver : s'.tunnel.server.delivered = s.tunnel.server.delivered)
    (hpacket : s'.packet = s.packet) : Looks serverLimit clientLimit idle s s' := by
  refine ⟨hinv, fun p h => ⟨actions, ?_⟩⟩
  obtain ⟨hout, hanswers⟩ := s.relay.foldl_prefix serverLimit clientLimit idle actions
  obtain ⟨handled, hhandled, hreplied⟩ := h.replied
  rw [PlainRelay.foldl_internal serverLimit clientLimit idle hinternal]
  refine ⟨hinv, ?_, ?_, handled, ?_, ?_⟩
  · rw [hrelay, h.relay]
  · rw [hclient, hrelay]
    exact h.delivered.grow hout
  · rw [hserver, hpacket]
    exact hhandled
  · rw [hrelay]
    exact hreplied.grow hanswers

theorem Inv.stays (h : Inv s) : Looks serverLimit clientLimit idle s s :=
  .internal h [] rfl (by simp) rfl rfl rfl

theorem delivered_tunnelStep (encrypt : Role → Nat → Bytes → Option Bytes)
    (t : Tunnel) (side : Role) (action : Action)
    (hreceive : ∀ bytes now, action ≠ .receive bytes now) :
    (t.step encrypt (side, action)).client.delivered = t.client.delivered ∧
      (t.step encrypt (side, action)).server.delivered = t.server.delivered := by
  cases side with
  | client => exact ⟨Endpoint.delivered_step hreceive, rfl⟩
  | server => exact ⟨rfl, Endpoint.delivered_step hreceive⟩

theorem Inv.tunnelStep (h : Inv s) (encrypt : Role → Nat → Bytes → Option Bytes) (side : Role)
    (action : Action) (hsend : ∀ service flow payload, action ≠ .send service flow payload)
    (hreceive : ∀ bytes now, action ≠ .receive bytes now) :
    Inv { s with tunnel := s.tunnel.step encrypt (side, action) } := by
  have htunnel := h.tunnel.step encrypt (side, action)
  cases side with
  | client =>
    refine ⟨htunnel, h.outgoing, ?_, h.packet⟩
    rw [Tunnel.step, Endpoint.messages_step hsend]
    exact h.answers
  | server =>
    refine ⟨htunnel, ?_, h.answers, fun p hp => ?_⟩
    · rw [Tunnel.step, Endpoint.messages_step hsend]
      exact h.outgoing
    · rw [Tunnel.step, Endpoint.delivered_step hreceive]
      exact h.packet p hp

theorem Inv.send (h : Inv s) (hlive : s.tunnel.server.stage = .live) (service : UInt16) :
    Looks serverLimit clientLimit idle s (s.send encrypt service) := by
  unfold Session.send
  split
  · exact h.stays
  rename_i id payload hheld
  split
  · rename_i call hstart
    obtain ⟨hclient, hserver⟩ := delivered_tunnelStep encrypt s.tunnel .server
      (.send service id payload) (by simp)
    refine .internal
      ⟨h.tunnel.step encrypt (.server, .send service id payload), ?_, h.answers, fun p hp => ?_⟩
      [.send service] ?_ (by simp [RelayAction.isInternal]) hclient hserver rfl
    · rw [Tunnel.step, Endpoint.messages_send hlive hstart, h.outgoing]
    · rw [hserver]
      exact h.packet p hp
    · simp only [List.foldl_cons, List.foldl_nil, Relay.step, hheld]
  · exact .internal ⟨h.tunnel, h.outgoing, h.answers, h.packet⟩ [] rfl (by simp) rfl rfl rfl

theorem Inv.advance (h : Inv s) (service : UInt16) (queued : Bool) :
    Looks serverLimit clientLimit idle s (s.advance encrypt service queued) := by
  unfold Session.advance
  split
  · rename_i call _
    have hnext := h.tunnelStep encrypt .server (.advance call queued) (by simp) (by simp)
    obtain ⟨hclient, hserver⟩ := delivered_tunnelStep encrypt s.tunnel .server
      (.advance call queued) (by simp)
    exact .internal ⟨hnext.tunnel, hnext.outgoing, hnext.answers, hnext.packet⟩ [] rfl (by simp)
      hclient hserver rfl
  · exact h.stays

theorem Inv.receive (h : Inv s) (hloop : s.selecting = true) (bytes : Bytes) (now : Nat) :
    Looks serverLimit clientLimit idle s
      (s.step encrypt serverLimit clientLimit idle (.receive bytes now)) := by
  simp only [selecting, Bool.and_eq_true, Option.isNone_iff_eq_none] at hloop
  have hloop' : s.selecting = true := by simp [selecting, hloop]
  simp only [step, hloop', if_true]
  refine ⟨⟨h.tunnel.step encrypt (.server, .receive bytes now), ?_, h.answers,
    fun p hp => ⟨List.mem_of_getElem? hp, hloop.2⟩⟩, fun p hp => ⟨[], ?_⟩⟩
  · rw [Tunnel.step, Endpoint.messages_step (by simp)]
    exact h.outgoing
  · obtain ⟨handled, hhandled, hreplied⟩ := hp.replied
    refine ⟨⟨h.tunnel.step encrypt (.server, .receive bytes now), ?_, h.answers,
      fun p hp => ⟨List.mem_of_getElem? hp, hloop.2⟩⟩, hp.relay, hp.delivered,
      s.tunnel.server.delivered, ?_, ?_⟩
    · rw [Tunnel.step, Endpoint.messages_step (by simp)]
      exact h.outgoing
    · exact Endpoint.delivered_receive bytes now
    · rw [hhandled, hloop.1.2, Option.toList_none, List.append_nil]
      exact hreplied

/-- The loop of the server looks the packet up that `read_packet` returned: the
client sent it, and it was not handed over before. -/
theorem Inv.reply (h : Inv s) (hp : s.packet = some received) (now : Nat) :
    Looks serverLimit clientLimit idle s
      { s with relay := s.relay.reply received now, packet := none } := by
  obtain ⟨-, hreplying⟩ := h.packet received hp
  obtain ⟨houtgoing, hclient⟩ := s.relay.reply_rest received now
  have hinv : Inv { s with relay := s.relay.reply received now, packet := none } :=
    ⟨h.tunnel, houtgoing.trans h.outgoing, hclient ▸ h.answers, by simp⟩
  refine ⟨hinv, fun p hfollows => ?_⟩
  obtain ⟨handled, hhandled, hreplied⟩ := hfollows.replied
  rw [hp] at hhandled
  have hsub := h.tunnel.toServer
  rw [← h.answers, hhandled] at hsub
  obtain ⟨k, hk, hnew, hpicked⟩ := hreplied.next hsub
  refine ⟨[.reply k now], ?_⟩
  have hready : k < p.relay.client.outgoing.length ∧ k ∉ p.replied ∧ p.relay.replying = none := by
    rw [hfollows.relay]
    exact ⟨(List.getElem?_eq_some_iff.mp hk).1, hnew, hreplying⟩
  simp only [List.foldl_cons, List.foldl_nil, PlainRelay.step, if_pos hready]
  refine ⟨hinv, ?_, ?_, handled ++ [received], ?_, ?_⟩
  · simp only [hfollows.relay, Relay.step, hreplying, hk]
  · rw [houtgoing]
    exact hfollows.delivered
  · rw [hhandled]
    simp
  · rw [hclient]
    exact hpicked

theorem Inv.deliver (h : Inv s) (bytes : Bytes) (now : Nat) :
    Looks serverLimit clientLimit idle s (s.deliver encrypt clientLimit bytes now) := by
  have htunnel := h.tunnel.step encrypt (.client, .receive bytes now)
  have hanswers : (s.tunnel.step encrypt (.client, .receive bytes now)).client.messages =
      s.tunnel.client.messages := Endpoint.messages_step (by simp)
  have hdelivered : (s.tunnel.step encrypt (.client, .receive bytes now)).client.delivered =
      s.tunnel.client.delivered ++
        ((s.tunnel.step encrypt (.client, .receive bytes now)).client.delivered[
        s.tunnel.client.delivered.length]?).toList := Endpoint.delivered_receive bytes now
  unfold Session.deliver
  dsimp only
  split
  · rename_i packet hpacket
    have hinv : Inv
        { s with
          tunnel := s.tunnel.step encrypt (.client, .receive bytes now)
          relay :=
            { s.relay with
              client := s.relay.client.step clientLimit (.packet packet) } } := by
      refine ⟨htunnel, h.outgoing, ?_, h.packet⟩
      rw [hanswers, ← h.answers]
      exact Client.outgoing_packet clientLimit packet
    refine ⟨hinv, fun p hfollows => ?_⟩
    have hnext : (s.tunnel.step encrypt (.client, .receive bytes now)).client.delivered =
        s.tunnel.client.delivered ++ [packet] := by
      rw [hdelivered, hpacket, Option.toList_some]
    have hsub := htunnel.toClient
    rw [hnext] at hsub
    obtain ⟨k, hk, hnew, hpicked⟩ := hfollows.delivered.next (a := packet) (h.outgoing ▸ hsub)
    refine ⟨[.deliver k], ?_⟩
    have hready : k < p.relay.outgoing.length ∧ k ∉ p.delivered := by
      rw [hfollows.relay]
      exact ⟨(List.getElem?_eq_some_iff.mp hk).1, hnew⟩
    obtain ⟨handled, hhandled, hreplied⟩ := hfollows.replied
    simp only [List.foldl_cons, List.foldl_nil, PlainRelay.step, if_pos hready]
    refine ⟨hinv, ?_, ?_, handled, hhandled, ?_⟩
    · simp only [hfollows.relay, Relay.step, hk]
    · rw [hnext]
      exact hpicked
    · rw [Client.outgoing_packet]
      exact hreplied
  · rename_i hnone
    have hnext : (s.tunnel.step encrypt (.client, .receive bytes now)).client.delivered =
        s.tunnel.client.delivered := by
      rw [hdelivered, hnone, Option.toList_none, List.append_nil]
    exact .internal ⟨htunnel, h.outgoing, hanswers ▸ h.answers, h.packet⟩ [] rfl
      (by simp) hnext rfl rfl

theorem Inv.workerStep (h : Inv s) (i : Nat) (event : WorkerEvent)
    (hsame : (s.relay.client.step clientLimit (.worker i event)).outgoing =
      s.relay.client.outgoing) :
    Looks serverLimit clientLimit idle s
      { s with
        relay := { s.relay with client := s.relay.client.step clientLimit (.worker i event) } } :=
  .internal ⟨h.tunnel, h.outgoing, hsame.trans h.answers, h.packet⟩ [.worker i event] rfl
    (by simp [RelayAction.isInternal]) rfl rfl rfl

theorem Inv.answer (h : Inv s) (hlive : s.tunnel.client.stage = .live)
    (hw : s.relay.client.workers[i]? = some w) (hphase : w.phase = .waiting) (payload : Bytes) :
    Looks serverLimit clientLimit idle s (s.answer encrypt clientLimit i payload w) := by
  have hreply := Client.outgoing_reply hw hphase clientLimit payload
  unfold Session.answer
  split
  · rename_i hlen
    split
    · rename_i call hstart
      obtain ⟨hclient, hserver⟩ := delivered_tunnelStep encrypt s.tunnel .client
        (.send w.key.1 w.key.2 payload) (by simp)
      refine .internal
        ⟨h.tunnel.step encrypt (.client, .send w.key.1 w.key.2 payload), h.outgoing, ?_, h.packet⟩
        [.worker i (.reply payload true)] rfl (by simp [RelayAction.isInternal]) hclient hserver rfl
      rw [Tunnel.step, Endpoint.messages_send hlive hstart, hreply, if_pos ⟨hlen, rfl⟩, h.answers]
    · exact h.workerStep i _ (by simp [hreply])
  · rename_i hlen
    exact h.workerStep i _ (by simp [hreply, hlen])

theorem Inv.advanceAnswer (h : Inv s) (i : Nat) (queued : Bool) :
    Looks serverLimit clientLimit idle s (s.advanceAnswer encrypt clientLimit i queued) := by
  unfold Session.advanceAnswer
  split
  · exact h.stays
  rename_i call _
  have hnext := h.tunnelStep encrypt .client (.advance call queued) (by simp) (by simp)
  obtain ⟨hclient, hserver⟩ := delivered_tunnelStep encrypt s.tunnel .client
    (.advance call queued) (by simp)
  dsimp only
  split
  · exact .internal hnext [] rfl (by simp) hclient hserver rfl
  · exact .internal ⟨hnext.tunnel, hnext.outgoing, hnext.answers, hnext.packet⟩ [] rfl (by simp)
      hclient hserver rfl
  · refine .internal ⟨hnext.tunnel, hnext.outgoing, ?_, hnext.packet⟩ [.worker i .failed] rfl
      (by simp [RelayAction.isInternal]) hclient hserver rfl
    exact (Client.outgoing_worker rfl clientLimit i).trans hnext.answers

theorem Inv.looks (h : Inv s) (encrypt : Role → Nat → Bytes → Option Bytes)
    (serverLimit clientLimit idle : Nat) (action : SessionAction) :
    Looks serverLimit clientLimit idle s (s.step encrypt serverLimit clientLimit idle action) := by
  cases action with
  | exchange side action =>
    simp only [step]
    split
    · rename_i hexchange
      have hreceive : ∀ bytes now, action ≠ .receive bytes now := by
        rintro _ _ rfl
        cases hexchange
      obtain ⟨hclient, hserver⟩ := delivered_tunnelStep encrypt s.tunnel side action hreceive
      refine .internal (h.tunnelStep encrypt side action ?_ hreceive) [] rfl
        (by simp) hclient hserver rfl
      rintro _ _ _ rfl
      cases hexchange
    · exact h.stays
  | arrive service peer payload now =>
    simp only [step]
    split
    · rename_i hready
      obtain ⟨houtgoing, hclient, hreplying⟩ :=
        s.relay.arrive_rest serverLimit service peer payload now
      refine .internal ⟨h.tunnel, houtgoing.trans h.outgoing, ?_, fun p hp => ?_⟩
        [.arrive service peer payload now] ?_ (by simp [RelayAction.isInternal]) rfl rfl rfl
      · rw [hclient]
        exact h.answers
      · rw [hreplying]
        exact h.packet p hp
      · simp only [List.foldl_cons, List.foldl_nil, Relay.step, if_neg hready.2.1]
    · exact h.stays
  | send service =>
    simp only [step]
    split
    · rename_i hready
      exact h.send hready.1 service
    · exact h.stays
  | advance service queued => exact h.advance service queued
  | expire clock now =>
    simp only [step]
    split
    · rename_i hloop
      simp only [selecting, Bool.and_eq_true, Option.isNone_iff_eq_none] at hloop
      have hnext := h.tunnelStep encrypt .server (.tick now) (by simp) (by simp)
      obtain ⟨hclient, hserver⟩ :=
        delivered_tunnelStep encrypt s.tunnel .server (.tick now) (by simp)
      refine .internal ⟨hnext.tunnel, hnext.outgoing, hnext.answers, hnext.packet⟩
        [.expire clock] ?_
        (by simp [RelayAction.isInternal]) hclient hserver rfl
      simp [Relay.step, hloop.2]
    · exact h.stays
  | receive bytes now =>
    by_cases hloop : s.selecting = true
    · exact h.receive hloop bytes now
    · simp only [step, if_neg hloop]
      exact h.stays
  | reply now =>
    simp only [step]
    split
    · exact h.reply ‹_› now
    · exact h.stays
  | sendTo =>
    simp only [step]
    split
    · rename_i forward hforward
      refine .internal ⟨h.tunnel, h.outgoing, h.answers, fun p hp => ⟨(h.packet p hp).1, rfl⟩⟩
        [.sendTo] ?_ (by simp [RelayAction.isInternal]) rfl rfl rfl
      simp only [List.foldl_cons, List.foldl_nil, Relay.step, hforward]
    · exact h.stays
  | deliver bytes now =>
    simp only [step]
    split
    · exact h.deliver bytes now
    · exact h.stays
  | tick now =>
    obtain ⟨hclient, hserver⟩ := delivered_tunnelStep encrypt s.tunnel .client (.tick now) (by simp)
    exact .internal (h.tunnelStep encrypt .client (.tick now) (by simp) (by simp)) [] rfl (by simp)
      hclient hserver rfl
  | join i =>
    refine .internal ⟨h.tunnel, h.outgoing, ?_, h.packet⟩ [.join i] rfl
      (by simp [RelayAction.isInternal]) rfl rfl rfl
    exact (Client.outgoing_join clientLimit i).trans h.answers
  | worker i event =>
    simp only [step]
    split
    · exact h.stays
    · rename_i hready
      rw [not_or, Bool.not_eq_true] at hready
      exact h.workerStep i event (Client.outgoing_worker hready.2 clientLimit i)
  | answer i payload =>
    simp only [step]
    split
    · rename_i w hw
      split
      · rename_i hready
        exact h.answer hready.1 hw hready.2.1 payload
      · exact h.stays
    · exact h.stays
  | advanceAnswer i queued => exact h.advanceAnswer i queued

theorem simulates (encrypt : Role → Nat → Bytes → Option Bytes)
    (serverLimit clientLimit idle : Nat) :
    Simulates (step encrypt serverLimit clientLimit idle)
      (PlainRelay.step serverLimit clientLimit idle) Follows :=
  fun _ p action h => (h.inv.looks encrypt serverLimit clientLimit idle action).2 p h

theorem follows_run (encrypt : Role → Nat → Bytes → Option Bytes)
    (serverLimit clientLimit idle : Nat) (destinations : Table UInt16 SocketAddr)
    (actions : List SessionAction) :
    ∃ actions', Follows (run encrypt serverLimit clientLimit idle destinations actions)
      (PlainRelay.run serverLimit clientLimit idle destinations actions') :=
  (simulates encrypt serverLimit clientLimit idle).run (follows_new destinations) actions

theorem inv_run (encrypt : Role → Nat → Bytes → Option Bytes) (serverLimit clientLimit idle : Nat)
    (destinations : Table UInt16 SocketAddr) (actions : List SessionAction) :
    Inv (run encrypt serverLimit clientLimit idle destinations actions) := by
  obtain ⟨_, h⟩ := follows_run encrypt serverLimit clientLimit idle destinations actions
  exact h.inv

theorem relay_run (encrypt : Role → Nat → Bytes → Option Bytes) (serverLimit clientLimit idle : Nat)
    (destinations : Table UInt16 SocketAddr) (actions : List SessionAction) :
    ∃ actions', (run encrypt serverLimit clientLimit idle destinations actions).relay =
      Relay.run serverLimit clientLimit idle destinations actions' := by
  obtain ⟨plain, h⟩ := follows_run encrypt serverLimit clientLimit idle destinations actions
  rw [← h.relay]
  exact PlainRelay.relay_run serverLimit clientLimit idle destinations plain

/-- Whatever the calls of `send` on both sides, however they interleave or fail,
and whatever the network hands to either side: the flow table, the sockets and
the workers go through a run of `PlainRelay`. Its channels were given what
`Sender::send` was called with, and handed over, each packet at most once, what
`read_packet` returned; a packet that the loop of the server holds is still in
its channel. -/
theorem refines_relay (encrypt : Role → Nat → Bytes → Option Bytes)
    (serverLimit clientLimit idle : Nat) (destinations : Table UInt16 SocketAddr)
    (actions : List SessionAction) :
    let s := run encrypt serverLimit clientLimit idle destinations actions
    s.relay.outgoing = s.tunnel.server.calls.map (·.message.packet) ∧
    s.relay.client.outgoing = s.tunnel.client.calls.map (·.message.packet) ∧
    ∃ actions', let p := PlainRelay.run serverLimit clientLimit idle destinations actions'
      p.relay = s.relay ∧ Picked p.delivered s.relay.outgoing s.tunnel.client.delivered ∧
        ∃ handled, s.tunnel.server.delivered = handled ++ s.packet.toList ∧
          Picked p.replied s.relay.client.outgoing handled := by
  intro s
  obtain ⟨plain, h⟩ := follows_run encrypt serverLimit clientLimit idle destinations actions
  refine ⟨?_, ?_, plain, h.relay, h.delivered, h.replied⟩
  · rw [h.inv.outgoing, Endpoint.messages, List.map_map]
    rfl
  · rw [h.inv.answers, Endpoint.messages, List.map_map]
    rfl

end Session

end Cathole
