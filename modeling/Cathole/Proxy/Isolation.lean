import Cathole.Proxy.Client

/-!
# UDP sources stay apart

One session end to end: the public listeners and the session loop of the server
around its flow table, the client's loop with its workers, and the tunnel
between them. The tunnel delivers any packet the other side ever sent, in any
order and as often as it likes, or not at all; the two tables expire on their
own.

The server's flow IDs are never reused, so a packet that was under way while its
flow expired still names the pair it was made for, and so does every payload on
the client's sockets. Both ends only ever look a flow up by the ID in a packet.
-/

namespace Cathole

structure Forward where
  socket : UdpSocket
  peer : SocketAddr
  payload : Bytes
  deriving DecidableEq, Repr

structure Relay where
  table : Traced
  -- Public datagrams, with the listener that received them.
  arrivals : List (UInt16 × SocketAddr × Bytes)
  -- Listeners between the lock and `Sender::send`.
  listeners : Table UInt16 (UInt64 × Bytes)
  -- What the server gave to `Sender::send`.
  outgoing : List Packet
  -- The session loop between the lock and `send_to`.
  replying : Option Forward
  forwarded : List Forward
  client : Client
  deriving DecidableEq

inductive RelayAction
  -- A listener receives a public datagram and looks up its flow.
  | arrive (service : UInt16) (peer : SocketAddr) (payload : Bytes) (now : Nat)
  -- A listener hands its datagram to the tunnel.
  | send (service : UInt16)
  | expire (clock : UInt64 → Nat)
  -- The session loop receives the `k`-th packet the client sent.
  | reply (k : Nat) (now : Nat)
  | sendTo
  -- The client's loop receives the `k`-th packet the server sent.
  | deliver (k : Nat)
  | worker (i : Nat) (event : WorkerEvent)
  | join (i : Nat)

namespace Relay

def new (destinations : Table UInt16 SocketAddr) : Relay where
  table := .new
  arrivals := []
  listeners := ∅
  outgoing := []
  replying := none
  forwarded := []
  client := .new destinations

/-- `udp_listener` up to the end of the locked region. -/
def arrive (limit : Nat) (service : UInt16) (peer : SocketAddr) (payload : Bytes) (now : Nat)
    (r : Relay) : Relay :=
  let r := { r with arrivals := r.arrivals ++ [(service, peer, payload)] }
  if payload.length > maxPayload then r
  else
    match r.table.arrival limit service peer now with
    | (.ok (some id), table) =>
      { r with table, listeners := r.listeners.insert service (id, payload) }
    | (_, table) => { r with table }

/-- The packet branch of the session loop up to the end of the locked region. -/
def reply (p : Packet) (now : Nat) (r : Relay) : Relay :=
  match r.table.reply p.service p.flow now with
  | (some (socket, peer), table) => { r with table, replying := some ⟨socket, peer, p.payload⟩ }
  | (none, table) => { r with table }

/-- A step with the limits of the server and the client. Steps a task is not
ready for do nothing; a failure that ends the session ends the run. -/
def step (serverLimit clientLimit idle : Nat) (r : Relay) : RelayAction → Relay
  | .arrive service peer payload now =>
    if service ∈ r.listeners then r else r.arrive serverLimit service peer payload now
  | .send service =>
    match r.listeners.lookup service with
    | some (id, payload) =>
      { r with
        outgoing := r.outgoing ++ [⟨service, id, payload⟩]
        listeners := r.listeners.erase service }
    | none => r
  | .expire clock => if r.replying.isSome then r else { r with table := r.table.expire idle clock }
  | .reply k now =>
    match r.replying, r.client.outgoing[k]? with
    | none, some p => r.reply p now
    | _, _ => r
  | .sendTo =>
    match r.replying with
    | some forward => { r with forwarded := r.forwarded ++ [forward], replying := none }
    | none => r
  | .deliver k =>
    match r.outgoing[k]? with
    | some p => { r with client := r.client.step clientLimit (.packet p) }
    | none => r
  | .worker i event => { r with client := r.client.step clientLimit (.worker i event) }
  | .join i => { r with client := r.client.step clientLimit (.join i) }

def run (serverLimit clientLimit idle : Nat) (destinations : Table UInt16 SocketAddr)
    (actions : List RelayAction) : Relay :=
  actions.foldl (step serverLimit clientLimit idle) (new destinations)

-- ---------------------------------------------------------------------------
-- Every packet names the pair it was made for
-- ---------------------------------------------------------------------------

/-- The packet carries a public datagram of the pair its flow belongs to. -/
def Genuine (r : Relay) (p : Packet) : Prop :=
  ∃ peer, ⟨p.flow, p.service, peer⟩ ∈ r.table.allocated ∧ (p.service, peer, p.payload) ∈ r.arrivals

/-- The reply came from a local socket of a flow that belongs to its peer. -/
def Answers (r : Relay) (forward : Forward) : Prop :=
  ∃ id, ⟨id, forward.socket.listener, forward.peer⟩ ∈ r.table.allocated ∧
    ((forward.socket.listener, id), forward.payload) ∈ r.client.received

structure Inv (limit : Nat) (r : Relay) : Prop where
  table : r.table.Inv limit
  listeners : ∀ service id payload, r.listeners.lookup service = some (id, payload) →
    r.Genuine ⟨service, id, payload⟩
  outgoing : ∀ p ∈ r.outgoing, r.Genuine p
  client : r.client.Keyed fun p => p ∈ r.outgoing
  replying : ∀ forward, r.replying = some forward → r.Answers forward
  forwarded : ∀ forward ∈ r.forwarded, r.Answers forward

variable {r r' : Relay} {limit : Nat} {id : UInt64}

theorem inv_new (limit : Nat) (destinations : Table UInt16 SocketAddr) :
    Inv limit (new destinations) where
  table := Traced.inv_new limit
  listeners := by simp [new]
  outgoing := by simp [new]
  client := Client.keyed_new destinations
  replying := by simp [new]
  forwarded := by simp [new]

theorem Genuine.mono (h : Genuine r p) (ht : r.table.allocated ⊆ r'.table.allocated)
    (ha : r.arrivals ⊆ r'.arrivals) : Genuine r' p := by
  obtain ⟨peer, hid, harrived⟩ := h
  exact ⟨peer, ht hid, ha harrived⟩

theorem Answers.mono (h : Answers r forward) (ht : r.table.allocated ⊆ r'.table.allocated)
    (hc : r.client.received ⊆ r'.client.received) : Answers r' forward := by
  obtain ⟨id, hid, hreceived⟩ := h
  exact ⟨id, ht hid, hc hreceived⟩

/-- Nothing that was recorded is lost, and what is new in the relay is genuine. -/
theorem Inv.grow (h : Inv limit r) (htable : r'.table.Inv limit)
    (ht : r.table.allocated ⊆ r'.table.allocated) (ha : r.arrivals ⊆ r'.arrivals)
    (hc : r.client.received ⊆ r'.client.received)
    (hlisteners : ∀ service id payload, r'.listeners.lookup service = some (id, payload) →
      r.listeners.lookup service = some (id, payload) ∨ r'.Genuine ⟨service, id, payload⟩)
    (houtgoing : ∀ p ∈ r'.outgoing, p ∈ r.outgoing ∨ r'.Genuine p)
    (hclient : r'.client.Keyed fun p => p ∈ r'.outgoing)
    (hreplying : ∀ forward, r'.replying = some forward →
      r.replying = some forward ∨ r'.Answers forward)
    (hforwarded : ∀ forward ∈ r'.forwarded, forward ∈ r.forwarded ∨ r'.Answers forward) :
    Inv limit r' where
  table := htable
  listeners := fun service id payload hl =>
    (hlisteners service id payload hl).elim
    (fun hl => (h.listeners _ _ _ hl).mono ht ha) fun hg => hg
  outgoing := fun p hp =>
    (houtgoing p hp).elim (fun hp => (h.outgoing p hp).mono ht ha) fun hg => hg
  client := hclient
  replying := fun forward hf =>
    (hreplying forward hf).elim (fun hf => (h.replying forward hf).mono ht hc) fun ha => ha
  forwarded := fun forward hf =>
    (hforwarded forward hf).elim (fun hf => (h.forwarded forward hf).mono ht hc) fun ha => ha

theorem Inv.arrive (h : Inv limit r) (service : UInt16) (peer : SocketAddr) (payload : Bytes)
    (now : Nat) : Inv limit (r.arrive limit service peer payload now) := by
  have ha : r.arrivals ⊆ r.arrivals ++ [(service, peer, payload)] := List.subset_append_left _ _
  unfold Relay.arrive
  dsimp only
  split
  · exact h.grow h.table (List.Subset.refl _) ha (List.Subset.refl _) (fun _ _ _ hl => .inl hl)
      (fun _ hp => .inl hp) h.client (fun _ hf => .inl hf) fun _ hf => .inl hf
  have ht : r.table.allocated ⊆ (r.table.arrival limit service peer now).2.allocated :=
    List.subset_append_left _ _
  obtain ⟨htable, hnew⟩ := h.table.arrival service peer now
  split
  · rename_i id table he
    rw [he] at ht htable hnew
    refine h.grow htable ht ha (List.Subset.refl _) (fun service' id' payload' hl => ?_)
      (fun _ hp => .inl hp) h.client (fun _ hf => .inl hf) fun _ hf => .inl hf
    rw [AList.lookup_insert_eq] at hl
    split at hl
    · rename_i hs
      cases hl
      exact .inr ⟨peer, hs ▸ hnew id rfl, by simp [hs]⟩
    · exact .inl hl
  · rename_i table _ he
    rw [he] at ht htable
    exact h.grow htable ht ha (List.Subset.refl _) (fun _ _ _ hl => .inl hl)
      (fun _ hp => .inl hp) h.client (fun _ hf => .inl hf) fun _ hf => .inl hf

theorem Inv.send (h : Inv limit r) (hl : r.listeners.lookup service = some (id, payload)) :
    Inv limit
      { r with
        outgoing := r.outgoing ++ [⟨service, id, payload⟩]
        listeners := r.listeners.erase service } := by
  refine h.grow h.table (List.Subset.refl _) (List.Subset.refl _) (List.Subset.refl _)
    (fun service' id' payload' hl' => ?_) (fun p hp => ?_)
    (h.client.mono fun p hp => List.mem_append_left _ hp) (fun _ hf => .inl hf) fun _ hf => .inl hf
  · rw [AList.lookup_erase_eq] at hl'
    split at hl'
    · cases hl'
    · exact .inl hl'
  · rcases List.mem_append.mp hp with hp | hp
    · exact .inl hp
    · cases List.mem_singleton.mp hp
      exact .inr (h.listeners service id payload hl)

theorem Inv.reply (h : Inv limit r) (hp : p ∈ r.client.outgoing) (now : Nat) :
    Inv limit (r.reply p now) := by
  obtain ⟨htable, ht, hdestination⟩ := h.table.reply p.service p.flow now
  have hreceived := h.client.outgoing p hp
  unfold Relay.reply
  split
  · rename_i socket peer table he
    rw [he] at htable ht hdestination
    obtain ⟨rfl, hid⟩ := hdestination socket peer rfl
    refine h.grow htable (ht ▸ List.Subset.refl _) (List.Subset.refl _) (List.Subset.refl _)
      (fun _ _ _ hl => .inl hl) (fun _ hp => .inl hp) h.client (fun forward hf => ?_)
      fun _ hf => .inl hf
    cases hf
    exact .inr ⟨p.flow, ht ▸ hid, hreceived⟩
  · rename_i table he
    rw [he] at htable ht
    exact h.grow htable (ht ▸ List.Subset.refl _) (List.Subset.refl _) (List.Subset.refl _)
      (fun _ _ _ hl => .inl hl) (fun _ hp => .inl hp) h.client
      (fun _ hf => .inl hf) fun _ hf => .inl hf

theorem Inv.clientStep (h : Inv limit r) (clientLimit : Nat) (action : ClientAction)
    (hfed : ∀ p, action = .packet p → p ∈ r.outgoing) :
    Inv limit { r with client := r.client.step clientLimit action } :=
  h.grow h.table (List.Subset.refl _) (List.Subset.refl _)
    (Client.received_step clientLimit action r.client) (fun _ _ _ hl => .inl hl)
    (fun _ hp => .inl hp) (h.client.step clientLimit action hfed) (fun _ hf => .inl hf)
    fun _ hf => .inl hf

theorem Inv.step (h : Inv limit r) (clientLimit idle : Nat) (action : RelayAction) :
    Inv limit (r.step limit clientLimit idle action) := by
  cases action with
  | arrive service peer payload now =>
    simp only [Relay.step]
    split
    · exact h
    · exact h.arrive service peer payload now
  | send service =>
    simp only [Relay.step]
    split
    · exact h.send ‹_›
    · exact h
  | expire clock =>
    simp only [Relay.step]
    split
    · exact h
    · exact ⟨h.table.expire idle clock, h.listeners, h.outgoing, h.client, h.replying, h.forwarded⟩
  | reply k now =>
    simp only [Relay.step]
    split
    · exact h.reply (List.mem_of_getElem? ‹_›) now
    · exact h
  | sendTo =>
    simp only [Relay.step]
    split
    · rename_i forward hf
      refine ⟨h.table, h.listeners, h.outgoing, h.client, by simp, fun f hf' => ?_⟩
      rcases List.mem_append.mp hf' with hf' | hf'
      · exact h.forwarded f hf'
      · cases List.mem_singleton.mp hf'
        exact h.replying forward hf
    · exact h
  | deliver k =>
    simp only [Relay.step]
    split
    · rename_i p hp
      refine h.clientStep clientLimit (.packet p) fun p' he => ?_
      cases he
      exact List.mem_of_getElem? hp
    · exact h
  | worker i event => exact h.clientStep clientLimit (.worker i event) fun p he => by cases he
  | join i => exact h.clientStep clientLimit (.join i) fun p he => by cases he

theorem inv_run (serverLimit clientLimit idle : Nat) (destinations : Table UInt16 SocketAddr)
    (actions : List RelayAction) :
    Inv serverLimit (run serverLimit clientLimit idle destinations actions) :=
  List.foldlRecOn actions (Relay.step serverLimit clientLimit idle)
    (inv_new serverLimit destinations)
    fun _ h action _ => h.step clientLimit idle action

/-- Whenever the server sends a reply to `peer` from the socket of a service,
the reply was received on a client socket of a flow that was allocated to that
service and peer and to no other pair, and everything the client ever sent on a
socket of that flow was received from that peer on that service. -/
theorem sources_isolated (serverLimit clientLimit idle : Nat)
    (destinations : Table UInt16 SocketAddr) (actions : List RelayAction) :
    let r := run serverLimit clientLimit idle destinations actions
    ∀ service peer payload, ⟨⟨service⟩, peer, payload⟩ ∈ r.forwarded →
      ∃ id, ⟨id, service, peer⟩ ∈ r.table.allocated ∧
        (∀ a ∈ r.table.allocated, a.id = id → a.service = service ∧ a.peer = peer) ∧
        ((service, id), payload) ∈ r.client.received ∧
        ∀ sent, ((service, id), sent) ∈ r.client.sent → (service, peer, sent) ∈ r.arrivals := by
  intro r service peer payload hf
  have h : Inv serverLimit r := inv_run serverLimit clientLimit idle destinations actions
  obtain ⟨id, hid, hreceived⟩ := h.forwarded _ hf
  have honly : ∀ a ∈ r.table.allocated, a.id = id → a = ⟨id, service, peer⟩ :=
    fun a ha he => h.table.unique ha hid he
  refine ⟨id, hid, fun a ha he => ?_, hreceived, fun sent hs => ?_⟩
  · cases honly a ha he
    exact ⟨rfl, rfl⟩
  · -- The packet that carried it names the same flow, hence the same pair.
    obtain ⟨peer', hid', harrived⟩ := h.outgoing _ (h.client.sent _ hs)
    cases honly _ hid' rfl
    exact harrived

-- The flow of the first peer expires; a late reply to it goes nowhere, although
-- the peer has a new flow by then.
example :
    let peer : SocketAddr := .v4 7 1000
    let common : List RelayAction :=
      [.arrive 0 peer [1] 0, .send 0, .deliver 0, .worker 0 (.bound true), .worker 0 .take,
        .worker 0 (.sent true), .worker 0 (.reply [2] true)]
    let run := run 4 4 60 ((∅ : Table UInt16 SocketAddr).insert 0 (.v4 8 53))
    (run (common ++ [.reply 0 1, .sendTo])).forwarded = [⟨⟨0⟩, peer, [2]⟩] ∧
      (run (common ++ [.expire fun _ => 60, .arrive 0 peer [3] 61, .reply 0 61,
        .sendTo])).forwarded = [] := by
  decide +kernel

end Relay

end Cathole
