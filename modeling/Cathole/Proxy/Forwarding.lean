import Cathole.Proxy.Session

/-!
# Datagrams end to end

What the public peers send and what the local services are given are matched one
to one, and so are the replies: over the tunnel, the queues of the client and the
flow table of the server nothing is made up, changed or doubled, and nothing
changes hands between peers.

The channel of `Relay` may deliver a packet twice, so the counting is split. What
goes into the channel is counted in `Relay.Counted`, over the runs of the relay;
what comes out of it in `Session.Books`, over those of the session, where the
tunnel delivers each packet at most once.
-/

namespace Cathole

def Packet.entry (p : Packet) : FlowKey × Bytes := (p.key, p.payload)

theorem Packet.entry_injective : Function.Injective Packet.entry := by
  rintro ⟨service, flow, payload⟩ ⟨service', flow', payload'⟩ h
  cases h
  rfl

/-- The payload came from a public peer, and the flow is the one of that peer. -/
def Carries (allocated : List Allocation) (entry : FlowKey × Bytes)
    (arrival : UInt16 × SocketAddr × Bytes) : Prop :=
  arrival.1 = entry.1.1 ∧ arrival.2.2 = entry.2 ∧ ⟨entry.1.2, entry.1.1, arrival.2.1⟩ ∈ allocated

/-- The reply came from a local socket, and goes to the peer of its flow. -/
def Answering (allocated : List Allocation) (forward : Forward) (entry : FlowKey × Bytes) : Prop :=
  forward.socket.listener = entry.1.1 ∧ forward.payload = entry.2 ∧
    ⟨entry.1.2, entry.1.1, forward.peer⟩ ∈ allocated

-- ---------------------------------------------------------------------------
-- Into the channel
-- ---------------------------------------------------------------------------

namespace Client

variable {c : Client} {w : Worker}

def Answered (c : Client) : Prop := (c.outgoing.map Packet.entry).Sublist c.received

theorem Answered.workerStep (h : Answered c) (i : Nat) (event : WorkerEvent) :
    Answered (c.workerStep i event w) := by
  unfold Client.workerStep
  split
  case h_5 => split <;> exact h
  case h_8 =>
    rename_i payload ok _
    dsimp only
    split
    · cases ok with
      | true =>
        simp only [Answered, if_true, List.map_append]
        exact h.append (List.Sublist.refl _)
      | false => exact h.trans (List.sublist_append_left _ _)
    · exact h.trans (List.sublist_append_left _ _)
  all_goals exact h

theorem Answered.step (h : Answered c) (limit : Nat) (action : ClientAction) :
    Answered (c.step limit action) := by
  cases action with
  | packet p =>
    unfold Answered
    rw [outgoing_packet]
    simp only [Client.step]
    split
    · rename_i hc
      rw [received_packet hc]
      exact h
    · exact h
  | worker i event =>
    simp only [Client.step]
    split
    · exact h.workerStep i event
    · exact h
  | join i =>
    simp only [Client.step]
    split
    · split <;> exact h
    · exact h

end Client

namespace Relay

def held (r : Relay) : List (FlowKey × Bytes) :=
  r.listeners.entries.map fun e => ((e.1, e.2.1), e.2.2)

structure Counted (r : Relay) : Prop where
  admitted : Matched (Carries r.table.allocated) (r.outgoing.map Packet.entry ++ r.held) r.arrivals
  answered : r.client.Answered

variable {r : Relay} {limit : Nat} {id : UInt64} {service : UInt16}

theorem counted_new (destinations : Table UInt16 SocketAddr) : Counted (new destinations) where
  admitted := Matched.nil
  answered := List.Sublist.refl _

theorem Carries.mono {allocated allocated' : List Allocation} (hsub : allocated ⊆ allocated')
    (entry : FlowKey × Bytes) (arrival : UInt16 × SocketAddr × Bytes)
    (h : Carries allocated entry arrival) :
    Carries allocated' entry arrival := ⟨h.1, h.2.1, hsub h.2.2⟩

theorem Counted.arrive (h : Counted r) (hinv : Inv limit r) (hready : service ∉ r.listeners)
    (peer : SocketAddr) (payload : Bytes) (now : Nat) :
    Counted (r.arrive limit service peer payload now) := by
  have hmore : r.arrivals.Subperm (r.arrivals ++ [(service, peer, payload)]) :=
    (List.sublist_append_left _ _).subperm
  unfold Relay.arrive
  dsimp only
  split
  · exact ⟨h.admitted.grow hmore, h.answered⟩
  have ht : r.table.allocated ⊆ (r.table.arrival limit service peer now).2.allocated :=
    List.subset_append_left _ _
  have hkept := h.admitted.mono (Carries.mono ht)
  have hnew := (hinv.table.arrival service peer now).2
  split
  · rename_i id table he
    rw [he] at hkept hnew
    refine ⟨(hkept.concat (a := ((service, id), payload)) ⟨rfl, rfl, hnew id rfl⟩).some ?_,
      h.answered⟩
    rw [held, AList.entries_insert_of_notMem hready, List.map_cons, List.append_assoc]
    exact ((List.perm_append_singleton _ _).symm.append_left _).subperm
  · rename_i table _ he
    rw [he] at hkept
    exact ⟨hkept.grow hmore, h.answered⟩

theorem Counted.send (h : Counted r) (hl : r.listeners.lookup service = some (id, payload)) :
    Counted
      { r with
        outgoing := r.outgoing ++ [⟨service, id, payload⟩]
        listeners := r.listeners.erase service } := by
  refine ⟨h.admitted.some ?_, h.answered⟩
  have hperm := (AList.entries_perm_erase hl).map fun e => ((e.1, e.2.1), e.2.2)
  rw [List.map_append, List.append_assoc]
  exact (hperm.symm.append_left _).subperm

theorem Counted.reply (h : Counted r) (hinv : Inv limit r) (p : Packet) (now : Nat) :
    Counted (r.reply p now) := by
  have ht := (hinv.table.reply p.service p.flow now).2.1
  unfold Relay.reply
  split
  · rename_i he
    rw [he] at ht
    exact ⟨h.admitted.mono (Carries.mono (ht ▸ List.Subset.refl _)), h.answered⟩
  · rename_i he
    rw [he] at ht
    exact ⟨h.admitted.mono (Carries.mono (ht ▸ List.Subset.refl _)), h.answered⟩

theorem Counted.step (h : Counted r) (hinv : Inv limit r) (clientLimit idle : Nat)
    (action : RelayAction) :
    Counted (r.step limit clientLimit idle action) := by
  cases action with
  | arrive service peer payload now =>
    simp only [Relay.step]
    split
    · exact h
    · exact h.arrive hinv ‹_› peer payload now
  | send service =>
    simp only [Relay.step]
    split
    · exact h.send ‹_›
    · exact h
  | expire clock =>
    simp only [Relay.step]
    split
    · exact h
    · exact ⟨h.admitted, h.answered⟩
  | reply k now =>
    simp only [Relay.step]
    split
    · exact h.reply hinv _ now
    · exact h
  | sendTo =>
    simp only [Relay.step]
    split
    · exact ⟨h.admitted, h.answered⟩
    · exact h
  | deliver k =>
    simp only [Relay.step]
    split
    · exact ⟨h.admitted, h.answered.step clientLimit _⟩
    · exact h
  | worker i event => exact ⟨h.admitted, h.answered.step clientLimit _⟩
  | join i => exact ⟨h.admitted, h.answered.step clientLimit _⟩

theorem counted_run (serverLimit clientLimit idle : Nat) (destinations : Table UInt16 SocketAddr)
    (actions : List RelayAction) :
      Counted (run serverLimit clientLimit idle destinations actions) := by
  have hboth : Inv serverLimit (run serverLimit clientLimit idle destinations actions) ∧
      Counted (run serverLimit clientLimit idle destinations actions) :=
    List.foldlRecOn (motive := fun r => Inv serverLimit r ∧ Counted r) actions
      (Relay.step serverLimit clientLimit idle)
      ⟨inv_new serverLimit destinations, counted_new destinations⟩
      fun _ h action _ => ⟨h.1.step clientLimit idle action, h.2.step h.1 clientLimit idle action⟩
  exact hboth.2

end Relay

-- ---------------------------------------------------------------------------
-- Out of the channel
-- ---------------------------------------------------------------------------

theorem Tunnel.delivered_step (t : Tunnel)
    (encrypt : Role → Nat → Bytes → Option Bytes) (side : Role) (action : Action)
    (hreceive : ∀ bytes now, action ≠ .receive bytes now) :
    (t.step encrypt (side, action)).client.delivered = t.client.delivered ∧
      (t.step encrypt (side, action)).server.delivered = t.server.delivered := by
  cases side with
  | client => exact ⟨Endpoint.delivered_step hreceive, rfl⟩
  | server => exact ⟨rfl, Endpoint.delivered_step hreceive⟩

namespace Session

/-- The loop of the client was given what its side of the tunnel delivered, and
the loop of the server sent what it sent for packets of its own. -/
structure Books (clientLimit : Nat) (destinations : Table UInt16 SocketAddr)
    (s : Session) : Prop where
  client : ∃ actions, s.relay.client = Client.run clientLimit destinations actions ∧
    Client.fed actions = s.tunnel.client.delivered
  server : ∃ handled, s.tunnel.server.delivered = handled ++ s.packet.toList ∧
    Matched (Answering s.relay.table.allocated) (s.relay.forwarded ++ s.relay.replying.toList)
      (handled.map Packet.entry)

variable {s s' : Session} {encrypt : Role → Nat → Bytes → Option Bytes}
  {serverLimit clientLimit idle : Nat} {destinations : Table UInt16 SocketAddr}

theorem books_new (clientLimit : Nat) (destinations : Table UInt16 SocketAddr) :
    Books clientLimit destinations (new destinations) where
  client := ⟨[], rfl, rfl⟩
  server := ⟨[], rfl, Matched.nil⟩

theorem Books.clientStep (h : Books clientLimit destinations s) (action : ClientAction)
    (hclient : s'.relay.client = s.relay.client.step clientLimit action)
    (hfed : s'.tunnel.client.delivered = s.tunnel.client.delivered ++ action.packets)
    (hserver : s'.tunnel.server.delivered = s.tunnel.server.delivered)
    (hpacket : s'.packet = s.packet) (htable : s'.relay.table = s.relay.table)
    (hforwarded : s'.relay.forwarded = s.relay.forwarded)
    (hreplying : s'.relay.replying = s.relay.replying) : Books clientLimit destinations s' := by
  obtain ⟨actions, hrun, hactions⟩ := h.client
  refine ⟨⟨actions ++ [action], ?_, ?_⟩, ?_⟩
  · rw [hclient, hrun]
    simp [Client.run]
  · rw [hfed, ← hactions]
    simp [Client.fed]
  · rw [hserver, hpacket, htable, hforwarded, hreplying]
    exact h.server

theorem Books.still (h : Books clientLimit destinations s)
    (hclient : s'.relay.client = s.relay.client)
    (hfed : s'.tunnel.client.delivered = s.tunnel.client.delivered)
    (hserver : s'.tunnel.server.delivered = s.tunnel.server.delivered)
    (hpacket : s'.packet = s.packet) (htable : s.relay.table.allocated ⊆ s'.relay.table.allocated)
    (hforwarded : s'.relay.forwarded = s.relay.forwarded)
    (hreplying : s'.relay.replying = s.relay.replying) : Books clientLimit destinations s' := by
  refine ⟨?_, ?_⟩
  · rw [hclient, hfed]
    exact h.client
  · obtain ⟨handled, hdelivered, hmatched⟩ := h.server
    rw [hserver, hpacket, hforwarded, hreplying]
    exact ⟨handled, hdelivered, hmatched.mono fun _ _ ha => ⟨ha.1, ha.2.1, htable ha.2.2⟩⟩

theorem Books.send (h : Books clientLimit destinations s) (service : UInt16) :
    Books clientLimit destinations (s.send encrypt service) := by
  unfold Session.send
  split
  · exact h
  · rename_i id payload _
    split
    · have hdelivered :=
        s.tunnel.delivered_step encrypt .server (.send service id payload) (by simp)
      exact h.still rfl hdelivered.1 hdelivered.2 rfl (List.Subset.refl _) rfl rfl
    · exact h.still rfl rfl rfl rfl (List.Subset.refl _) rfl rfl

theorem Books.advance (h : Books clientLimit destinations s) (service : UInt16) (queued : Bool) :
    Books clientLimit destinations (s.advance encrypt service queued) := by
  unfold Session.advance
  split
  · rename_i call _
    have hdelivered := s.tunnel.delivered_step encrypt .server (.advance call queued) (by simp)
    exact h.still rfl hdelivered.1 hdelivered.2 rfl (List.Subset.refl _) rfl rfl
  · exact h

theorem Books.receive (h : Books clientLimit destinations s) (hloop : s.selecting = true)
    (bytes : Bytes) (now : Nat) :
    Books clientLimit destinations
      (s.step encrypt serverLimit clientLimit idle (.receive bytes now)) := by
  have hpacket : s.packet = none := by
    simp only [selecting, Bool.and_eq_true, Option.isNone_iff_eq_none] at hloop
    exact hloop.1.2
  obtain ⟨handled, hdelivered, hmatched⟩ := h.server
  rw [hpacket, Option.toList_none, List.append_nil] at hdelivered
  simp only [step, hloop, if_true]
  refine ⟨h.client, handled, ?_, hmatched⟩
  rw [← hdelivered]
  exact Endpoint.delivered_receive bytes now

theorem Books.reply (h : Books clientLimit destinations s) (hinv : s.relay.Inv serverLimit)
    (hp : s.packet = some p) (hreplying : s.relay.replying = none) (now : Nat) :
    Books clientLimit destinations { s with relay := s.relay.reply p now, packet := none } := by
  obtain ⟨handled, hdelivered, hmatched⟩ := h.server
  rw [hreplying, Option.toList_none, List.append_nil] at hmatched
  have hhandled : s.tunnel.server.delivered = (handled ++ [p]) ++ [] := by
    rw [hdelivered, hp, List.append_nil]
    rfl
  obtain ⟨-, ht, hdestination⟩ := hinv.table.reply p.service p.flow now
  unfold Relay.reply
  split
  · rename_i socket peer table he
    rw [he] at ht hdestination
    obtain ⟨rfl, hid⟩ := hdestination socket peer rfl
    refine ⟨h.client, handled ++ [p], hhandled, ?_⟩
    rw [List.map_append]
    refine (hmatched.mono fun _ _ ha => ?_).concat ⟨rfl, rfl, ht ▸ hid⟩
    exact ⟨ha.1, ha.2.1, ht ▸ ha.2.2⟩
  · rename_i table he
    rw [he] at ht
    refine ⟨h.client, handled ++ [p], hhandled, ?_⟩
    rw [List.map_append]
    simp only [hreplying, Option.toList_none, List.append_nil]
    refine (hmatched.mono fun _ _ ha => ?_).grow (List.sublist_append_left _ _).subperm
    exact ⟨ha.1, ha.2.1, ht ▸ ha.2.2⟩

theorem Books.sendTo (h : Books clientLimit destinations s) (hf : s.relay.replying = some forward) :
    Books clientLimit destinations
      { s with
        relay :=
          { s.relay with
            forwarded := s.relay.forwarded ++ [forward]
            replying := none } } := by
  obtain ⟨handled, hdelivered, hmatched⟩ := h.server
  refine ⟨h.client, handled, hdelivered, ?_⟩
  rw [hf] at hmatched
  simpa using hmatched

theorem Books.deliver (h : Books clientLimit destinations s) (bytes : Bytes) (now : Nat) :
    Books clientLimit destinations (s.deliver encrypt clientLimit bytes now) := by
  have hdelivered : (s.tunnel.step encrypt (.client, .receive bytes now)).client.delivered = _ :=
    Endpoint.delivered_receive bytes now
  unfold Session.deliver
  dsimp only
  split
  · rename_i p hp
    refine h.clientStep (.packet p) rfl (hdelivered.trans ?_) rfl rfl rfl rfl rfl
    exact congrArg (fun more => s.tunnel.client.delivered ++ Option.toList more) hp
  · rename_i hp
    refine h.still rfl (hdelivered.trans ?_) rfl rfl (List.Subset.refl _) rfl rfl
    refine (congrArg (fun more => s.tunnel.client.delivered ++ Option.toList more) hp).trans ?_
    exact List.append_nil _

theorem Books.answer (h : Books clientLimit destinations s) (i : Nat) (payload : Bytes)
    (w : Worker) :
    Books clientLimit destinations (s.answer encrypt clientLimit i payload w) := by
  unfold Session.answer
  split
  · split
    · have hdelivered :=
        s.tunnel.delivered_step encrypt .client (.send w.key.1 w.key.2 payload) (by simp)
      refine h.clientStep (.worker i (.reply payload true)) rfl
        (hdelivered.1.trans ?_) hdelivered.2 rfl rfl
        rfl rfl
      exact (List.append_nil _).symm
    · exact h.clientStep (.worker i (.reply payload false)) rfl
        (List.append_nil _).symm rfl rfl rfl rfl rfl
  · exact h.clientStep (.worker i (.reply payload true)) rfl
      (List.append_nil _).symm rfl rfl rfl rfl rfl

theorem Books.advanceAnswer (h : Books clientLimit destinations s) (i : Nat) (queued : Bool) :
    Books clientLimit destinations (s.advanceAnswer encrypt clientLimit i queued) := by
  unfold Session.advanceAnswer
  split
  · exact h
  rename_i call _
  have hdelivered := s.tunnel.delivered_step encrypt .client (.advance call queued) (by simp)
  dsimp only
  split
  · exact h.still rfl hdelivered.1 hdelivered.2 rfl (List.Subset.refl _) rfl rfl
  · exact h.still rfl hdelivered.1 hdelivered.2 rfl (List.Subset.refl _) rfl rfl
  · refine h.clientStep (.worker i .failed) rfl (hdelivered.1.trans ?_) hdelivered.2 rfl rfl rfl rfl
    exact (List.append_nil _).symm

theorem Books.arrive (h : Books clientLimit destinations s) (service : UInt16) (peer : SocketAddr)
    (payload : Bytes) (now : Nat) :
    Books clientLimit destinations
      { s with relay := s.relay.arrive serverLimit service peer payload now } := by
  unfold Relay.arrive
  dsimp only
  split
  · exact h.still rfl rfl rfl rfl (List.Subset.refl _) rfl rfl
  have ht : s.relay.table.allocated ⊆
      (s.relay.table.arrival serverLimit service peer now).2.allocated :=
    List.subset_append_left _ _
  split
  · rename_i he
    rw [he] at ht
    exact h.still rfl rfl rfl rfl ht rfl rfl
  · rename_i he
    rw [he] at ht
    exact h.still rfl rfl rfl rfl ht rfl rfl

theorem Books.step (h : Books clientLimit destinations s) (hinv : Inv s)
    (hrelay : s.relay.Inv serverLimit) (encrypt : Role → Nat → Bytes → Option Bytes) (idle : Nat)
    (action : SessionAction) :
    Books clientLimit destinations (s.step encrypt serverLimit clientLimit idle action) := by
  cases action with
  | exchange side action =>
    simp only [Session.step]
    split
    · rename_i hexchange
      have hdelivered := s.tunnel.delivered_step encrypt side action fun _ _ he => by
        subst he
        cases hexchange
      exact h.still rfl hdelivered.1 hdelivered.2 rfl (List.Subset.refl _) rfl rfl
    · exact h
  | arrive service peer payload now =>
    simp only [Session.step]
    split
    · exact h.arrive service peer payload now
    · exact h
  | send service =>
    simp only [Session.step]
    split
    · exact h.send service
    · exact h
  | advance service queued => exact h.advance service queued
  | expire clock now =>
    simp only [Session.step]
    split
    · have hdelivered := s.tunnel.delivered_step encrypt .server (.tick now) (by simp)
      exact h.still rfl hdelivered.1 hdelivered.2 rfl (List.Subset.refl _) rfl rfl
    · exact h
  | receive bytes now =>
    by_cases hloop : s.selecting = true
    · exact h.receive hloop bytes now
    · simp only [Session.step, if_neg hloop]
      exact h
  | reply now =>
    simp only [Session.step]
    split
    · rename_i p hp
      exact h.reply hrelay hp (hinv.packet p hp).2 now
    · exact h
  | sendTo =>
    simp only [Session.step]
    split
    · exact h.sendTo ‹_›
    · exact h
  | deliver bytes now =>
    simp only [Session.step]
    split
    · exact h.deliver bytes now
    · exact h
  | tick now =>
    have hdelivered := s.tunnel.delivered_step encrypt .client (.tick now) (by simp)
    exact h.still rfl hdelivered.1 hdelivered.2 rfl (List.Subset.refl _) rfl rfl
  | join i => exact h.clientStep (.join i) rfl (List.append_nil _).symm rfl rfl rfl rfl rfl
  | worker i event =>
    simp only [Session.step]
    split
    · exact h
    · exact h.clientStep (.worker i event) rfl (List.append_nil _).symm rfl rfl rfl rfl rfl
  | answer i payload =>
    simp only [Session.step]
    split
    · split
      · exact h.answer i payload _
      · exact h
    · exact h
  | advanceAnswer i queued => exact h.advanceAnswer i queued

theorem relayInv_run (encrypt : Role → Nat → Bytes → Option Bytes)
    (serverLimit clientLimit idle : Nat) (destinations : Table UInt16 SocketAddr)
    (actions : List SessionAction) :
    (run encrypt serverLimit clientLimit idle destinations actions).relay.Inv serverLimit := by
  obtain ⟨actions', hrun⟩ := relay_run encrypt serverLimit clientLimit idle destinations actions
  rw [hrun]
  exact Relay.inv_run serverLimit clientLimit idle destinations actions'

theorem books_run (encrypt : Role → Nat → Bytes → Option Bytes) (serverLimit clientLimit idle : Nat)
    (destinations : Table UInt16 SocketAddr) (actions : List SessionAction) :
    Books clientLimit destinations
      (run encrypt serverLimit clientLimit idle destinations actions) := by
  induction actions using List.reverseRecOn with
  | nil => exact books_new clientLimit destinations
  | append_singleton actions action ih =>
    have hinv := inv_run encrypt serverLimit clientLimit idle destinations actions
    have hrelay := relayInv_run encrypt serverLimit clientLimit idle destinations actions
    have hstep := ih.step hinv hrelay encrypt idle action
    rwa [run, List.foldl_append]

/-- What the local services were given is some of what the tunnel delivered. -/
theorem Books.sent (h : Books clientLimit destinations s) :
    s.relay.client.sent.Subperm (s.tunnel.client.delivered.map Packet.entry) := by
  obtain ⟨actions, hrun, hfed⟩ := h.client
  have hfifo := Client.fifo_run clientLimit destinations actions
  have hadmitted := Client.admitted_sublist clientLimit (Client.new destinations) actions
  rw [← hrun] at hfifo
  rw [hfed] at hadmitted
  have hsub := List.subperm_of_fibers Prod.fst Prod.snd Packet.key Packet.payload fun key =>
    ((List.sublist_append_left _ _).trans
      ((hfifo.order key).trans (payloadsOf_sublist key hadmitted))).subperm
  rwa [List.map_id'' fun _ => rfl] at hsub

/-- Over any network and any interleaving of the tasks of both ends, flow IDs
belong to one peer each, and datagrams are forwarded one for one: every payload
given to a local service was received from the peer that owns the flow, every
reply that left a public socket was received from a local socket of a flow of
the peer it went to, and no two of them are the same datagram. -/
theorem datagrams_matched (encrypt : Role → Nat → Bytes → Option Bytes)
    (serverLimit clientLimit idle : Nat) (destinations : Table UInt16 SocketAddr)
    (actions : List SessionAction) :
    let s := run encrypt serverLimit clientLimit idle destinations actions
    let allocated := s.relay.table.allocated
    (allocated.map (·.id)).Nodup ∧
      Matched (Carries allocated) s.relay.client.sent s.relay.arrivals ∧
      Matched (Answering allocated) s.relay.forwarded s.relay.client.received := by
  intro s allocated
  have h : Inv s := inv_run encrypt serverLimit clientLimit idle destinations actions
  have hrelay : s.relay.Inv serverLimit :=
    relayInv_run encrypt serverLimit clientLimit idle destinations actions
  have hbooks : Books clientLimit destinations s :=
    books_run encrypt serverLimit clientLimit idle destinations actions
  have hcounted : s.relay.Counted := by
    obtain ⟨actions', hrun⟩ := relay_run encrypt serverLimit clientLimit idle destinations actions
    rw [show s.relay = _ from hrun]
    exact Relay.counted_run serverLimit clientLimit idle destinations actions'
  refine ⟨hrelay.table.nodup, ?_, ?_⟩
  · -- sent, delivered, given to `Sender::send`, received by a listener
    have hdelivered : (s.tunnel.client.delivered.map Packet.entry).Subperm
        (s.relay.outgoing.map Packet.entry) := by
      rw [h.outgoing]
      exact h.tunnel.toClient.map Packet.entry_injective
    have houtgoing : (s.relay.outgoing.map Packet.entry).Subperm
        (s.relay.outgoing.map Packet.entry ++ s.relay.held) :=
        (List.sublist_append_left _ _).subperm
    exact hcounted.admitted.some ((hbooks.sent.trans hdelivered).trans houtgoing)
  · obtain ⟨handled, hhandled, hmatched⟩ := hbooks.server
    have hforwarded := hmatched.some (List.sublist_append_left s.relay.forwarded _).subperm
    have hdelivered :
        (handled.map Packet.entry).Subperm (s.tunnel.server.delivered.map Packet.entry) := by
      rw [hhandled, List.map_append]
      exact (List.sublist_append_left _ _).subperm
    have hsent : (s.tunnel.server.delivered.map Packet.entry).Subperm
        (s.relay.client.outgoing.map Packet.entry) := by
      rw [h.answers]
      exact h.tunnel.toServer.map Packet.entry_injective
    exact hforwarded.grow ((hdelivered.trans hsent).trans hcounted.answered.subperm)

end Session

end Cathole
