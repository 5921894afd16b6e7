import Cathole.Proxy.Legs

/-!
# A request is answered

What the session is for, from one end to the other and back: a datagram of a
public peer goes to the local service, and the service's answer goes to that
peer from the socket it wrote to. `Forwarding` says that nothing else is
forwarded; here the two ends have room for the datagrams, the network passes
them on and nothing else happens, and then they are.
-/

namespace Cathole

-- ---------------------------------------------------------------------------
-- The flow and its worker
-- ---------------------------------------------------------------------------

theorem Traced.lookup_arrival {t : Traced} {id : UInt64} (h : t.Inv limit)
    (hid : (t.arrival limit service peer now).1 = .ok (some id)) :
    ∃ touched, (t.arrival limit service peer now).2.flows.byId.lookup id =
      some ⟨service, peer, ⟨service⟩, touched⟩ := by
  have harrives := h.wf.arrives ⟨service⟩ service peer now
  simp only [Traced.arrival] at hid ⊢
  generalize t.flows.arrival limit ⟨service⟩ service peer now = outcome at harrives hid ⊢
  cases harrives with
  | @known id' flow hpeer hflow hservice hsource =>
    cases hid
    have hsocket := h.wf.socket id flow hflow
    refine ⟨now, ?_⟩
    rw [Flows.touch, AList.lookup_insert, hsocket, hservice, hsource]
  | allocated hpeer hroom hnext =>
    cases hid
    exact ⟨now, AList.lookup_insert _⟩
  | exhausted | full => cases hid

theorem Traced.reply_of_lookup {t : Traced} {id : UInt64}
    (h : t.flows.byId.lookup id = some ⟨service, peer, socket, touched⟩) (now : Nat) :
    (t.reply service id now).1 = some (socket, peer) := by
  simp only [Traced.reply, Flows.reply, h, if_true]

namespace Client

variable {c : Client} {key : FlowKey} {limit i : Nat} {payload : Bytes}

/-- Worker `i` of the flow waits with an empty queue, or can be spawned. -/
inductive Ready (limit : Nat) (key : FlowKey) (i : Nat) (c : Client) : Prop
  | waiting (hflow : c.flows.lookup key = some i)
      (hw : c.workers[i]? = some ⟨key, destination, [], .waiting⟩)
  | new (hnew : key ∉ c.flows) (hroom : c.flows.size < limit) (hi : i = c.workers.length)

theorem trySend_idle (hw : c.workers[i]? = some ⟨key, destination, [], phase⟩)
    (hphase : phase = .starting ∨ phase = .waiting) (payload : Bytes) :
    (c.trySend i payload).sent = c.sent ∧
      (c.trySend i payload).workers[i]? = some ⟨key, destination, [payload], phase⟩ := by
  have hi := (List.getElem?_eq_some_iff.mp hw).1
  have hreceiving : Worker.receiving ⟨key, destination, [], phase⟩ = true := by
    rcases hphase with rfl | rfl <;> rfl
  have hstep : c.trySend i payload =
      { c with
        workers := c.workers.set i ⟨key, destination, [payload], phase⟩
        queueBytes := c.queueBytes - weight payload } := by
    rw [trySend, hw]
    exact if_pos ⟨hreceiving, by simp [queueSlots]⟩
  rw [hstep]
  exact ⟨rfl, by simp [hi]⟩

theorem Ready.packet (h : Ready limit key i c) (hdestination : key.1 ∈ c.destinations)
    (hbytes : weight payload ≤ c.queueBytes) :
    let c' := c.step limit (.packet ⟨key.1, key.2, payload⟩)
    c'.sent = c.sent ∧ ∃ destination phase, (phase = .starting ∨ phase = .waiting) ∧
      c'.workers[i]? = some ⟨key, destination, [payload], phase⟩ := by
  obtain ⟨destination, hdestination⟩ :=
    Option.isSome_iff_exists.mp (AList.lookup_isSome.mpr hdestination)
  cases h with
  | @waiting destination' hflow hw =>
    have hmem : key ∈ c.flows := AList.mem_of_lookup hflow
    have hstep : c.step limit (.packet ⟨key.1, key.2, payload⟩) = c.trySend i payload := by
      simp only [step, Client.packet, hdestination, hmem, if_true, enqueue, hbytes, hflow]
    rw [hstep]
    obtain ⟨hsent, hworker⟩ := trySend_idle hw (.inr rfl) payload
    exact ⟨hsent, destination', .waiting, .inr rfl, hworker⟩
  | new hnew hroom hi =>
    have hlookup : (c.spawn key destination).flows.lookup key = some i := by
      rw [hi]
      exact AList.lookup_insert _
    have hbytes' : weight payload ≤ (c.spawn key destination).queueBytes := hbytes
    have hstep : c.step limit (.packet ⟨key.1, key.2, payload⟩) =
        (c.spawn key destination).trySend i payload := by
      simp only [step, Client.packet, hdestination, hnew, if_false, ge_iff_le,
        Nat.not_le.mpr hroom, enqueue, hbytes', if_true, hlookup]
    have hw : (c.spawn key destination).workers[i]? = some ⟨key, destination, [], .starting⟩ := by
      rw [hi]
      exact List.getElem?_concat_length
    rw [hstep]
    obtain ⟨hsent, hworker⟩ := trySend_idle hw (.inl rfl) payload
    exact ⟨hsent, destination, .starting, .inl rfl, hworker⟩

def sends (i : Nat) : List ClientAction :=
  [.worker i (.bound true), .worker i .take, .worker i (.sent true)]

theorem worker_sends (hw : c.workers[i]? = some ⟨key, destination, [payload], phase⟩)
    (hphase : phase = .starting ∨ phase = .waiting) (limit : Nat) :
    let c' := (sends i).foldl (step limit) c
    c'.sent = c.sent ++ [(key, payload)] ∧
    c'.workers[i]? = some ⟨key, destination, [], .waiting⟩ := by
  have hi := (List.getElem?_eq_some_iff.mp hw).1
  have hbound : c.step limit (.worker i (.bound true)) =
      c.setWorker i ⟨key, destination, [payload], .waiting⟩ := by
    rcases hphase with rfl | rfl
    · simp only [step, hw, workerStep]
    · obtain ⟨_, hget⟩ := List.getElem?_eq_some_iff.mp hw
      simp only [step, hw, workerStep, setWorker]
      rw [← hget, List.set_getElem_self]
  simp only [sends, List.foldl_cons, List.foldl_nil, hbound]
  simp [step, setWorker, hi, workerStep]

end Client

-- ---------------------------------------------------------------------------
-- There and back
-- ---------------------------------------------------------------------------

/-- The network hands over every datagram of `m`, in any order and any number of
times, within two seconds of the first, and the first finds room. -/
def Message.GetsThrough (m : Message) (arrivals : List (Nat × Nat)) (r : Reassembler) : Prop :=
  ∃ i first rest, arrivals = (i, first) :: rest ∧
    (∀ e ∈ arrivals, e.1 < m.count ∧ e.2 - first < lifetime) ∧
    (∀ j < m.count, j ∈ arrivals.map Prod.fst) ∧
    (m.count = 1 ∨ (r.expire first).pending.size < maxAssemblies)

structure Exchange where
  service : UInt16
  peer : SocketAddr
  payload : Bytes
  answer : Bytes
  -- The flow of the peer, and the number of its worker.
  flow : UInt64
  worker : Nat
  -- When the listener and the loop of the server get to them.
  arrived : Nat
  returned : Nat
  -- The fragments that the network hands over both ways, and when.
  there : List (Nat × Nat)
  back : List (Nat × Nat)

namespace Exchange

variable (encrypt : Role → Nat → Bytes → Option Bytes) (s : Session) (x : Exchange)

def request : Message := ⟨x.service, x.flow, s.tunnel.server.sender.nextMessage, x.payload⟩

def response : Message := ⟨x.service, x.flow, s.tunnel.client.sender.nextMessage, x.answer⟩

def outward : List SessionAction :=
  .arrive x.service x.peer x.payload x.arrived :: .send x.service ::
    (List.replicate (2 * (x.request s).count + 1) (.advance x.service true) ++
      x.there.map fun e =>
        .deliver ((x.request s).datagram (encrypt .server) s.tunnel.server.crypto.next e.1) e.2)

def serving : List SessionAction :=
  [.worker x.worker (.bound true), .worker x.worker .take, .worker x.worker (.sent true),
    .answer x.worker x.answer]

def homeward : List SessionAction :=
  List.replicate (2 * (x.response s).count + 1) (.advanceAnswer x.worker true) ++
    ((x.back.map fun e =>
        .receive ((x.response s).datagram (encrypt .client) s.tunnel.client.crypto.next e.1) e.2) ++
      [.reply x.returned, .sendTo])

/-- Both ends are idle and have room for the datagrams, and the network passes
them on. -/
structure Possible (serverLimit clientLimit : Nat) : Prop where
  selecting : s.selecting = true
  listener : x.service ∉ s.relay.listeners ∧ x.service ∉ s.sending
  flow : (s.relay.table.arrival serverLimit x.service x.peer x.arrived).1 = .ok (some x.flow)
  send : Endpoint.CanSend (encrypt .server) (x.request s) s.tunnel.server
  there : (x.request s).GetsThrough x.there s.tunnel.client.assembly
  destination : x.service ∈ s.relay.client.destinations
  worker : s.relay.client.Ready clientLimit (x.service, x.flow) x.worker
  bytes : weight x.payload ≤ s.relay.client.queueBytes
  free : x.worker < s.relay.client.workers.length → x.worker ∉ s.answering
  answer : Endpoint.CanSend (encrypt .client) (x.response s) s.tunnel.client
  back : (x.response s).GetsThrough x.back s.tunnel.server.assembly

end Exchange

theorem Tunnel.gets_through {t : Tunnel} {encrypt : Role → Nat → Bytes → Option Bytes} (role : Role)
    (h : ∃ actions, t = run encrypt actions)
    (hsend : Endpoint.CanSend (encrypt role) m (t.side role))
    (hlive : (t.side role.other).stage = .live)
    (hthrough : m.GetsThrough arrivals (t.side role.other).assembly) :
    let k := (t.side role).calls.length
    let n := (t.side role).crypto.next
    let t₁ := ((m.sending k).map (role, ·)).foldl (step encrypt) t
    let t₂ := ((m.handover (encrypt role) n arrivals).map (role.other, ·)).foldl (step encrypt) t₁
    (t₁.side role).returned k = some (.ok ()) ∧
      (t₂.side role.other).delivered = (t.side role.other).delivered ++ [m.packet] := by
  obtain ⟨actions, rfl⟩ := h
  obtain ⟨i, first, rest, rfl, harrivals, hall, hroom⟩ := hthrough
  intro k n t₁ t₂
  obtain ⟨-, -, hdelivered⟩ :=
    passes (inv_run encrypt actions) (ahead_run encrypt actions role) hsend hlive harrivals hall
  rw [if_pos hroom] at hdelivered
  obtain ⟨hcall, -⟩ := hsend.sends (authentic ((run encrypt actions).side role.other).crypto.state)
  rw [← (foldl_side encrypt role (m.sending k) (run encrypt actions)).1] at hcall
  exact ⟨by rw [Endpoint.returned, hcall], hdelivered⟩

namespace Exchange.Possible

open Session (step)

variable {encrypt : Role → Nat → Bytes → Option Bytes} {serverLimit clientLimit : Nat} {s : Session}
  {x : Exchange}

theorem called (h : Possible encrypt s x serverLimit clientLimit) (idle : Nat) :
    let s' := step encrypt serverLimit clientLimit idle
      (step encrypt serverLimit clientLimit idle s (.arrive x.service x.peer x.payload x.arrived))
      (.send x.service)
    s'.sending.lookup x.service = some (.running s.tunnel.server.calls.length) ∧
    ∃ arrivals listeners outgoing sending, s' =
      { s with
        tunnel := s.tunnel.step encrypt (.server, .send x.service x.flow x.payload)
        relay := { s.relay with
          table := (s.relay.table.arrival serverLimit x.service x.peer x.arrived).2
          arrivals, listeners, outgoing }
        sending } := by
  have hlive := h.send.live
  have hlen : ¬x.payload.length > maxPayload := Nat.not_lt.mpr h.send.length
  have harrival : s.relay.table.arrival serverLimit x.service x.peer x.arrived =
      (.ok (some x.flow), (s.relay.table.arrival serverLimit x.service x.peer x.arrived).2) :=
    Prod.ext h.flow rfl
  have harrive :
      step encrypt serverLimit clientLimit idle s (.arrive x.service x.peer x.payload x.arrived) =
      { s with relay := { s.relay with
        table := (s.relay.table.arrival serverLimit x.service x.peer x.arrived).2
        arrivals := s.relay.arrivals ++ [(x.service, x.peer, x.payload)]
        listeners := s.relay.listeners.insert x.service (x.flow, x.payload) } } := by
    simp only [step, hlive, h.listener.1, h.listener.2, not_false_eq_true, and_self, if_true,
      Relay.arrive, hlen, if_false]
    rw [harrival]
  have hstart : (s.tunnel.server.sender.start x.service x.flow x.payload).1 =
      .ok ⟨x.request s, .fragment 0⟩ := by
    have hids : s.tunnel.server.sender.nextMessage.toNat + 1 < 2 ^ 64 := h.send.ids
    have hlen' : x.payload.length ≤ maxPayload := h.send.length
    simp only [Sender.start, hlen', if_true, Words.checkedSucc, hids]
    rfl
  rw [harrive]
  simp only [step, hlive, h.listener.2, not_false_eq_true, and_self, if_true, Session.send,
    AList.lookup_insert, hstart]
  exact ⟨trivial, _, _, _, _, rfl⟩

theorem sent (h : Possible encrypt s x serverLimit clientLimit) (idle : Nat) :
    ∃ arrivals listeners outgoing sending,
      (List.replicate (2 * (x.request s).count + 1) (.advance x.service true)).foldl
        (step encrypt serverLimit clientLimit idle)
        (step encrypt serverLimit clientLimit idle
          (step encrypt serverLimit clientLimit idle s
            (.arrive x.service x.peer x.payload x.arrived))
          (.send x.service)) =
      { s with
        tunnel := (((x.request s).sending s.tunnel.server.calls.length).map (Role.server, ·)).foldl
          (Tunnel.step encrypt) s.tunnel
        relay := { s.relay with
          table := (s.relay.table.arrival serverLimit x.service x.peer x.arrived).2
          arrivals, listeners, outgoing }
        sending } := by
  obtain ⟨hrunning, arrivals, listeners, outgoing, sending, hcalled⟩ := h.called idle
  obtain ⟨sending', hsent⟩ :=
    Session.Calls.advance (.inl hrunning) encrypt serverLimit clientLimit idle
    (2 * (x.request s).count + 1)
  refine ⟨arrivals, listeners, outgoing, sending', hsent.trans ?_⟩
  rw [hcalled, Message.sending, List.map_cons, List.foldl_cons, List.map_replicate]
  rfl

theorem outward (h : Possible encrypt s x serverLimit clientLimit)
    (hrun : ∃ actions, s.tunnel = Tunnel.run encrypt actions) (idle : Nat) :
    let s' := (x.outward encrypt s).foldl (step encrypt serverLimit clientLimit idle) s
    s'.relay.table = (s.relay.table.arrival serverLimit x.service x.peer x.arrived).2 ∧
    s'.relay.client = s.relay.client.step clientLimit (.packet ⟨x.service, x.flow, x.payload⟩) ∧
    s'.relay.forwarded = s.relay.forwarded ∧ s'.answering = s.answering ∧ s'.selecting = true ∧
    Endpoint.CanSend (encrypt .client) (x.response s) s'.tunnel.client ∧
    s'.tunnel.client.crypto.next = s.tunnel.client.crypto.next ∧
    s'.tunnel.server.assembly = s.tunnel.server.assembly := by
  obtain ⟨arrivals, listeners, outgoing, sending, hsent⟩ := h.sent idle
  obtain ⟨-, hdelivered⟩ := Tunnel.gets_through .server hrun h.send h.answer.live h.there
  obtain ⟨hserver, hclient⟩ := Tunnel.foldl_side encrypt .server
    ((x.request s).sending s.tunnel.server.calls.length) s.tunnel
  obtain ⟨hstage, hassembly, -⟩ := Endpoint.stepAll_sending (encrypt .server)
    (authentic s.tunnel.client.crypto.state)
    (x.request s) s.tunnel.server.calls.length s.tunnel.server
  simp only [Tunnel.side, Role.other] at hdelivered hserver hclient
  rw [← hserver] at hstage hassembly
  generalize (((x.request s).sending s.tunnel.server.calls.length).map (Role.server, ·)).foldl
    (Tunnel.step encrypt) s.tunnel = t₁ at hsent hdelivered hserver hclient hstage hassembly
  -- The client reads the datagrams.
  let datagrams := x.there.map fun e =>
    ((x.request s).datagram (encrypt .server) s.tunnel.server.crypto.next e.1, e.2)
  have hhandover :
      ((x.request s).handover (encrypt .server) s.tunnel.server.crypto.next x.there).map
      (Role.client, ·) = datagrams.map fun d => (Role.client, Action.receive d.1 d.2) := by
    rw [Message.handover, List.map_map, List.map_map]
    rfl
  obtain ⟨hreceiver, hsender⟩ := Tunnel.foldl_side encrypt .client
    ((x.request s).handover (encrypt .server) s.tunnel.server.crypto.next x.there) t₁
  simp only [Tunnel.side, Role.other] at hreceiver hsender
  obtain ⟨hanswer, -, hnext⟩ :=
    h.answer.handover (encrypt .client) (authentic t₁.server.crypto.state)
    ((x.request s).handover (encrypt .server) s.tunnel.server.crypto.next x.there)
    fun action haction => by
      obtain ⟨e, -, rfl⟩ := List.mem_map.mp haction
      exact ⟨_, _, rfl⟩
  rw [← hclient, ← hreceiver] at hanswer
  rw [hclient] at hreceiver
  rw [← hreceiver] at hnext
  rw [← hclient, hhandover] at hdelivered
  rw [hhandover] at hanswer hnext hsender
  generalize hstate : ({ s with
      tunnel := t₁
      relay := { s.relay with
        table := (s.relay.table.arrival serverLimit x.service x.peer x.arrived).2
        arrivals, listeners, outgoing }
      sending } : Session) = state at hsent
  obtain rfl : t₁ = state.tunnel := by rw [← hstate]
  have hleg :=
    Session.deliver_leg encrypt serverLimit clientLimit idle (hclient ▸ h.answer.live)
      datagrams hdelivered
  have hs' : (x.outward encrypt s).foldl (step encrypt serverLimit clientLimit idle) s =
      (datagrams.map fun d => .deliver d.1 d.2).foldl
      (step encrypt serverLimit clientLimit idle) state := by
    rw [Exchange.outward, List.foldl_cons, List.foldl_cons, List.foldl_append, hsent, List.map_map]
    rfl
  rw [hs', hleg]
  obtain ⟨hrelay, hpacket, hanswering⟩ : state.relay = { s.relay with
      table := (s.relay.table.arrival serverLimit x.service x.peer x.arrived).2
      arrivals, listeners, outgoing } ∧ state.packet = s.packet ∧
      state.answering = s.answering := by
    rw [← hstate]
    exact ⟨rfl, rfl, rfl⟩
  rw [hrelay, hpacket, hanswering]
  refine ⟨rfl, rfl, rfl, rfl, ?_, hanswer, hnext, ?_⟩
  · have hselecting := h.selecting
    simp only [Session.selecting, Bool.and_eq_true, decide_eq_true_eq] at hselecting ⊢
    exact ⟨⟨by rw [hsender, hstage]; exact hselecting.1.1, hselecting.1.2⟩, hselecting.2⟩
  · rw [hsender, hassembly]

theorem served (h : Possible encrypt s x serverLimit clientLimit) (idle : Nat)
    (hfree : x.worker ∉ s'.answering)
    (hanswer : Endpoint.CanSend (encrypt .client) (x.response s) s'.tunnel.client)
    (hclient : s'.relay.client = s.relay.client.step clientLimit
      (.packet ⟨x.service, x.flow, x.payload⟩)) :
    ∃ client : Client, client.sent = s.relay.client.sent ++ [((x.service, x.flow), x.payload)] ∧
      x.serving.foldl (step encrypt serverLimit clientLimit idle) s' =
        { s' with
          tunnel := s'.tunnel.step encrypt (.client, .send x.service x.flow x.answer)
          relay := { s'.relay with client }
          answering := s'.answering.insert x.worker s'.tunnel.client.calls.length } := by
  obtain ⟨hsent, destination, phase, hphase, hw⟩ := h.worker.packet h.destination h.bytes
  rw [← hclient] at hsent hw
  obtain ⟨hsends, hwaiting⟩ := Client.worker_sends hw hphase clientLimit
  have hworker : [SessionAction.worker x.worker (.bound true), .worker x.worker .take,
      .worker x.worker (.sent true)].foldl (step encrypt serverLimit clientLimit idle) s' =
      { s' with relay := { s'.relay with
        client := (Client.sends x.worker).foldl (Client.step clientLimit) s'.relay.client } } := by
    simp only [List.foldl_cons, List.foldl_nil, step, WorkerEvent.isReply, hfree, or_self, if_false,
      Bool.false_eq_true, Client.sends]
  generalize (Client.sends x.worker).foldl (Client.step clientLimit) s'.relay.client = client
    at hsends hwaiting hworker
  have hids : s'.tunnel.client.sender.nextMessage.toNat + 1 < 2 ^ 64 :=
    hanswer.message ▸ hanswer.ids
  have hlen : x.answer.length ≤ maxPayload := hanswer.length
  have hanswered :
      step encrypt serverLimit clientLimit idle { s' with relay := { s'.relay with client } }
      (.answer x.worker x.answer) =
      { s' with
        tunnel := s'.tunnel.step encrypt (.client, .send x.service x.flow x.answer)
        relay :=
          { s'.relay with
            client := client.step clientLimit (.worker x.worker (.reply x.answer true)) }
        answering := s'.answering.insert x.worker s'.tunnel.client.calls.length } := by
    simp only [step, hwaiting, hanswer.live, hfree, not_false_eq_true, and_self, if_true,
      Session.answer, hlen, Sender.start, Words.checkedSucc, hids]
  refine ⟨client.step clientLimit (.worker x.worker (.reply x.answer true)), ?_, ?_⟩
  · simp only [Client.step, hwaiting, Client.workerStep, hlen, if_true]
    rw [hsends, hsent]
  · rw [Exchange.serving, ← hanswered, ← hworker]
    rfl

theorem homeward (h : Possible encrypt s x serverLimit clientLimit) (idle : Nat) {s' : Session}
    (hrun : ∃ actions, s'.tunnel = Tunnel.run encrypt actions) (hselecting : s'.selecting = true)
    (hanswer : Endpoint.CanSend (encrypt .client) (x.response s) s'.tunnel.client)
    (hnext : s'.tunnel.client.crypto.next = s.tunnel.client.crypto.next)
    (hassembly : s'.tunnel.server.assembly = s.tunnel.server.assembly)
    (hflow : s'.relay.table.flows.byId.lookup x.flow =
      some ⟨x.service, x.peer, ⟨x.service⟩, touched⟩)
    (client : Client) :
    let last := (x.homeward encrypt s).foldl (step encrypt serverLimit clientLimit idle)
      { s' with
        tunnel := s'.tunnel.step encrypt (.client, .send x.service x.flow x.answer)
        relay := { s'.relay with client }
        answering := s'.answering.insert x.worker s'.tunnel.client.calls.length }
    last.relay.client = client ∧
      last.relay.forwarded = s'.relay.forwarded ++ [⟨⟨x.service⟩, x.peer, x.answer⟩] := by
  simp only [Session.selecting, Bool.and_eq_true, decide_eq_true_eq] at hselecting
  obtain ⟨⟨hlive, hpacket⟩, hreplying⟩ := hselecting
  obtain ⟨hreturned, hdelivered⟩ :=
    Tunnel.gets_through .client hrun hanswer hlive (hassembly ▸ h.back)
  obtain ⟨hclient, hserver⟩ := Tunnel.foldl_side encrypt .client
    ((x.response s).sending s'.tunnel.client.calls.length) s'.tunnel
  simp only [Tunnel.side, Role.other] at hreturned hdelivered hclient hserver
  rw [hnext] at hdelivered
  have hsending :
      (((x.response s).sending s'.tunnel.client.calls.length).map (Role.client, ·)).foldl
      (Tunnel.step encrypt) s'.tunnel =
      (List.replicate (2 * (x.response s).count + 1)
        (Role.client, Action.advance s'.tunnel.client.calls.length true)).foldl
        (Tunnel.step encrypt)
        (s'.tunnel.step encrypt (.client, .send x.service x.flow x.answer)) := by
    rw [Message.sending, List.map_cons, List.foldl_cons, List.map_replicate]
    rfl
  rw [hsending] at hreturned hdelivered hserver
  generalize hstart : ({ s' with
      tunnel := s'.tunnel.step encrypt (.client, .send x.service x.flow x.answer)
      relay := { s'.relay with client }
      answering := s'.answering.insert x.worker s'.tunnel.client.calls.length } : Session) = start
  obtain ⟨htunnel, hrelay, hidle, hlookup⟩ :
      start.tunnel = s'.tunnel.step encrypt (.client, .send x.service x.flow x.answer) ∧
      start.relay = { s'.relay with client } ∧ start.packet = s'.packet ∧
      start.answering.lookup x.worker = some s'.tunnel.client.calls.length := by
    rw [← hstart]
    exact ⟨rfl, rfl, rfl, AList.lookup_insert _⟩
  rw [← htunnel] at hreturned hdelivered hserver
  obtain ⟨answering, hleg⟩ := Session.advanceAnswer_leg encrypt serverLimit clientLimit idle
    (2 * (x.response s).count + 1) (.inl hlookup) hreturned
  generalize (List.replicate (2 * (x.response s).count + 1)
    (Role.client, Action.advance s'.tunnel.client.calls.length true)).foldl (Tunnel.step encrypt)
      start.tunnel = t₁ at hdelivered hserver hleg
  generalize hsent : ({ start with tunnel := t₁, answering } : Session) = sent at hleg
  obtain rfl : t₁ = sent.tunnel := by rw [← hsent]
  -- The server reads the datagrams.
  have hloop : sent.selecting = true := by
    simp only [Session.selecting, Bool.and_eq_true, decide_eq_true_eq]
    rw [hserver, ← hsent, hrelay, hidle]
    exact ⟨⟨hlive, hpacket⟩, hreplying⟩
  let datagrams := x.back.map fun e =>
    ((x.response s).datagram (encrypt .client) s.tunnel.client.crypto.next e.1, e.2)
  have hhandover :
      ((x.response s).handover (encrypt .client) s.tunnel.client.crypto.next x.back).map
      (Role.server, ·) = datagrams.map fun d => (Role.server, Action.receive d.1 d.2) := by
    rw [Message.handover, List.map_map, List.map_map]
    rfl
  rw [← hserver, hhandover] at hdelivered
  obtain ⟨hread, hsame⟩ :=
    Session.receive_leg encrypt serverLimit clientLimit idle hloop datagrams hdelivered
  have hlast : (x.homeward encrypt s).foldl (step encrypt serverLimit clientLimit idle) start =
      step encrypt serverLimit clientLimit idle (step encrypt serverLimit clientLimit idle
        ((datagrams.map fun d => .receive d.1 d.2).foldl
          (step encrypt serverLimit clientLimit idle) sent)
        (.reply x.returned)) .sendTo := by
    rw [Exchange.homeward, List.foldl_append, hleg, List.foldl_append, List.map_map]
    rfl
  rw [hlast]
  generalize (datagrams.map fun d => .receive d.1 d.2).foldl
    (step encrypt serverLimit clientLimit idle)
    sent = read at hread hsame
  have hrelay' : read.relay = { s'.relay with client } := by
    rw [hsame, ← hsent, hrelay]
  have hto := Traced.reply_of_lookup hflow x.returned
  have hreply : step encrypt serverLimit clientLimit idle read (.reply x.returned) =
      { read with
        relay := { s'.relay with
          client
          table := (s'.relay.table.reply x.service x.flow x.returned).2
          replying := some ⟨⟨x.service⟩, x.peer, x.answer⟩ }
        packet := none } := by
    simp only [step, hread, hrelay', Relay.reply, Message.packet, Exchange.response]
    rw [show s'.relay.table.reply x.service x.flow x.returned =
      (some (⟨x.service⟩, x.peer), (s'.relay.table.reply x.service x.flow x.returned).2)
        from Prod.ext hto rfl]
  rw [hreply]
  exact ⟨rfl, rfl⟩

end Exchange.Possible

namespace Session

/-- Whatever a session has done before: if both ends are idle and have room, also in
their reassemblers, the network passes the datagrams on, and nothing else happens
meanwhile (no tick, no worker that times out, no other traffic), then the datagram of
a public peer reaches the local service, once, and the answer of the service leaves
the public socket for that peer. -/
theorem request_answered (encrypt : Role → Nat → Bytes → Option Bytes)
    (serverLimit clientLimit idle : Nat) (destinations : Table UInt16 SocketAddr)
    (before : List SessionAction) (x : Exchange) :
    let s := run encrypt serverLimit clientLimit idle destinations before
    let s' := run encrypt serverLimit clientLimit idle destinations
      (before ++ x.outward encrypt s ++ x.serving ++ x.homeward encrypt s)
    x.Possible encrypt s serverLimit clientLimit →
      s'.relay.client.sent = s.relay.client.sent ++ [((x.service, x.flow), x.payload)] ∧
      s'.relay.forwarded = s.relay.forwarded ++ [⟨⟨x.service⟩, x.peer, x.answer⟩] := by
  intro s s' h
  have hrun := tunnel_run encrypt serverLimit clientLimit idle destinations
  obtain ⟨htable, hclient, hforwarded, hanswering, hselecting, hanswer, hnext, hassembly⟩ :=
    h.outward (hrun before) idle
  have hrun' : ∃ actions,
      ((x.outward encrypt s).foldl (step encrypt serverLimit clientLimit idle) s).tunnel =
        Tunnel.run encrypt actions := by
    have hlonger := hrun (before ++ x.outward encrypt s)
    rw [run, List.foldl_append] at hlonger
    exact hlonger
  have hs' : s' = (x.homeward encrypt s).foldl (step encrypt serverLimit clientLimit idle)
      (x.serving.foldl (step encrypt serverLimit clientLimit idle)
        ((x.outward encrypt s).foldl (step encrypt serverLimit clientLimit idle) s)) := by
    simp only [s', s, run, List.foldl_append]
  have hfree : x.worker ∉ s.answering := fun hmem =>
    h.free (spawned_run encrypt serverLimit clientLimit idle destinations before x.worker hmem) hmem
  rw [← hanswering] at hfree
  obtain ⟨touched, hflow⟩ := Traced.lookup_arrival
    (relayInv_run encrypt serverLimit clientLimit idle destinations before).table h.flow
  rw [← htable] at hflow
  obtain ⟨client, hsent, hserved⟩ := h.served idle hfree hanswer hclient
  obtain ⟨hlast, hforward⟩ := h.homeward idle hrun' hselecting hanswer hnext hassembly hflow client
  rw [hs', hserved, hlast, hforward]
  exact ⟨hsent, congrArg (· ++ _) hforwarded⟩

/-- The first datagram of a peer, with a longer answer that arrives in the wrong
order. -/
theorem request_answered_first :
    let encrypt (_ : Role) (_ : Nat) (plain : Bytes) := some (plain ++ List.replicate 16 7)
    let frame (plain : Bytes) : Bytes := Words.toBe 8 0 ++ (plain ++ List.replicate 16 7)
    let before :=
      [SessionAction.exchange .client (.request [1]), .exchange .server (.accept (frame [1])),
      .exchange .server .confirm, .exchange .client (.reply (frame okReply))]
    let x : Exchange :=
      ⟨1, .v4 9 4000, [1, 2, 3], List.replicate 1001 8, 0, 0, 5, 9, [(0, 5)], [(1, 6), (0, 7)]⟩
    let s := run encrypt 4 4 60 (AList.singleton 1 (.v4 1 53)) before
    let s' := run encrypt 4 4 60 (AList.singleton 1 (.v4 1 53))
      (before ++ x.outward encrypt s ++ x.serving ++ x.homeward encrypt s)
    s'.relay.client.sent = [((1, 0), [1, 2, 3])] ∧
      s'.relay.forwarded = [⟨⟨1⟩, .v4 9 4000, List.replicate 1001 8⟩] := by
  intro encrypt frame before x s s'
  have hthere : (x.request s).GetsThrough x.there s.tunnel.client.assembly :=
    ⟨0, 5, [], rfl, by decide +kernel, by decide +kernel, by decide +kernel⟩
  have hback : (x.response s).GetsThrough x.back s.tunnel.server.assembly :=
    ⟨1, 6, [(0, 7)], rfl, by decide +kernel, by decide +kernel, by decide +kernel⟩
  have hsend : Endpoint.CanSend (encrypt .server) (x.request s) s.tunnel.server :=
    ⟨by decide +kernel, by decide +kernel, rfl, by decide +kernel, by decide +kernel,
      fun i _ => ⟨_, rfl, by simp⟩⟩
  have hanswer : Endpoint.CanSend (encrypt .client) (x.response s) s.tunnel.client :=
    ⟨by decide +kernel, by decide +kernel, rfl, by decide +kernel, by decide +kernel,
      fun i _ => ⟨_, rfl, by simp⟩⟩
  have hworker : s.relay.client.Ready 4 (x.service, x.flow) x.worker :=
    .new (by decide +kernel) (by decide +kernel) (by decide +kernel)
  obtain ⟨hsent, hforwarded⟩ :=
    request_answered encrypt 4 4 60 (AList.singleton 1 (.v4 1 53)) before x
    ⟨by decide +kernel, by decide +kernel, by decide +kernel, hsend,
      hthere, by decide +kernel, hworker,
      by decide +kernel, by decide +kernel, hanswer, hback⟩
  exact ⟨hsent, hforwarded⟩

end Session

end Cathole
