import Cathole.Datagram.Passage
import Cathole.Proxy.Forwarding

/-!
# The legs of a session

Runs in which one task of a session does its part while the others wait: a
listener or a worker in `Sender::send`, and the loops of both ends in
`read_packet`. Each is a fold of one kind of step, and does to the tunnel what
`Passage` is about.
-/

namespace Cathole

namespace Endpoint

variable {e : Endpoint} {encrypt decrypt : Nat → Bytes → Option Bytes}

theorem step_returned (h : e.returned k = some result) (queued : Bool) :
    e.step encrypt decrypt (.advance k queued) = e := by
  by_cases hlive : e.stage = .live
  · rw [step_advance hlive]
    unfold returned at h
    split at h
    · rename_i m outcome hcall
      obtain ⟨hk, hget⟩ := List.getElem?_eq_some_iff.mp hcall
      rw [advanceSend, hcall]
      simp only [Send.advance, List.append_nil]
      rw [← hget, List.set_getElem_self]
    · cases h
  · unfold step
    split <;> first | rfl | contradiction

theorem stepAll_returned (h : e.returned k = some result) (n : Nat) :
    stepAll encrypt decrypt (List.replicate n (.advance k true)) e = e := by
  induction n with
  | zero => rfl
  | succ n ih =>
    rw [List.replicate_succ, stepAll, List.foldl_cons, step_returned h]
    exact ih

theorem step_receive_sending (encrypt decrypt : Nat → Bytes → Option Bytes)
    (bytes : Bytes) (now : Nat) (e : Endpoint) :
    let e' := e.step encrypt decrypt (.receive bytes now)
    e'.stage = e.stage ∧ e'.sender.nextMessage = e.sender.nextMessage ∧
    e'.crypto.next = e.crypto.next ∧
      e'.calls = e.calls := by
  by_cases hlive : e.stage = .live
  · rw [step_receive hlive]
    unfold readDatagram
    have hnext : (DatagramCrypto.open' decrypt bytes e.crypto).2.next = e.crypto.next :=
      DatagramCrypto.open'_next
    split <;> rename_i hopen <;> rw [hopen] at hnext <;> exact ⟨rfl, rfl, hnext, rfl⟩
  · unfold step
    split <;> first | exact ⟨rfl, rfl, rfl, rfl⟩ | contradiction

theorem CanSend.handover (h : CanSend encrypt m e) (encrypt' decrypt : Nat → Bytes → Option Bytes)
    (actions : List Action)
    (hactions : ∀ action ∈ actions, ∃ bytes now, action = .receive bytes now) :
    let e' := stepAll encrypt' decrypt actions e
    CanSend encrypt m e' ∧ e'.calls = e.calls ∧ e'.crypto.next = e.crypto.next := by
  refine List.foldlRecOn actions _ (motive := fun e' : Endpoint => CanSend encrypt m e' ∧
    e'.calls = e.calls ∧
    e'.crypto.next = e.crypto.next) ⟨h, rfl, rfl⟩ fun e' he' action haction => ?_
  obtain ⟨bytes, now, rfl⟩ := hactions action haction
  obtain ⟨hstage, hmessage, hnext, hcalls⟩ := step_receive_sending encrypt' decrypt bytes now e'
  obtain ⟨hsend, hold, hn⟩ := he'
  refine ⟨⟨hstage.trans hsend.live, hsend.length, hsend.message.trans hmessage.symm,
    hsend.ids, ?_, ?_⟩, hcalls.trans hold, hnext.trans hn⟩
  · rw [hnext]
    exact hsend.nonces
  · rw [hnext]
    exact hsend.encrypts

theorem stepAll_sending (encrypt decrypt : Nat → Bytes → Option Bytes) (m : Message) (k : Nat)
    (e : Endpoint) :
    let e' := stepAll encrypt decrypt (m.sending k) e
    e'.stage = e.stage ∧ e'.assembly = e.assembly ∧ e'.delivered = e.delivered := by
  refine List.foldlRecOn (m.sending k) _ (motive := fun e' : Endpoint => e'.stage = e.stage ∧
    e'.assembly = e.assembly ∧
    e'.delivered = e.delivered) ⟨rfl, rfl, rfl⟩ fun e' he' action haction => ?_
  have hkeeps : (e'.step encrypt decrypt action).stage = e'.stage ∧
      (e'.step encrypt decrypt action).assembly = e'.assembly ∧
      (e'.step encrypt decrypt action).delivered = e'.delivered := by
    by_cases hlive : e'.stage = .live
    · rcases List.mem_cons.mp haction with rfl | haction
      · have hstep : e'.step encrypt decrypt (.send m.service m.flow m.payload) =
            e'.startSend m.service m.flow m.payload := by
          simp only [step, hlive]
        rw [hstep]
        unfold startSend
        split <;> exact ⟨rfl, rfl, rfl⟩
      · rw [List.eq_of_mem_replicate haction, step_advance hlive]
        unfold advanceSend
        split <;> exact ⟨rfl, rfl, rfl⟩
    · rcases List.mem_cons.mp haction with rfl | haction
      · unfold step
        split <;> first | exact ⟨rfl, rfl, rfl⟩ | contradiction
      · rw [List.eq_of_mem_replicate haction]
        unfold step
        split <;> first | exact ⟨rfl, rfl, rfl⟩ | contradiction
  exact ⟨hkeeps.1.trans he'.1, hkeeps.2.1.trans he'.2.1, hkeeps.2.2.trans he'.2.2⟩

end Endpoint

namespace Session

variable {s : Session}

theorem tunnel_step (encrypt : Role → Nat → Bytes → Option Bytes)
    (serverLimit clientLimit idle : Nat) (s : Session) (action : SessionAction) :
    (s.step encrypt serverLimit clientLimit idle action).tunnel = s.tunnel ∨
      ∃ action', (s.step encrypt serverLimit clientLimit idle action).tunnel =
        s.tunnel.step encrypt action' := by
  cases action with
  | exchange side action =>
    simp only [step]
    split
    · exact .inr ⟨(side, action), rfl⟩
    · exact .inl rfl
  | arrive => simp only [step]; split <;> exact .inl rfl
  | send service =>
    simp only [step, send]
    split
    · split
      · exact .inl rfl
      · split
        · exact .inr ⟨(.server, .send _ _ _), rfl⟩
        · exact .inl rfl
    · exact .inl rfl
  | advance service queued =>
    simp only [step, advance]
    split
    · exact .inr ⟨(.server, .advance _ _), rfl⟩
    · exact .inl rfl
  | expire =>
    simp only [step]
    split
    · exact .inr ⟨(.server, .tick _), rfl⟩
    · exact .inl rfl
  | receive =>
    simp only [step]
    split
    · exact .inr ⟨(.server, .receive _ _), rfl⟩
    · exact .inl rfl
  | reply | sendTo => simp only [step]; split <;> exact .inl rfl
  | deliver bytes now =>
    simp only [step, deliver]
    split
    · split <;> exact .inr ⟨(.client, .receive _ _), rfl⟩
    · exact .inl rfl
  | tick now => exact .inr ⟨(.client, .tick now), rfl⟩
  | join => exact .inl rfl
  | worker => simp only [step]; split <;> exact .inl rfl
  | answer i payload =>
    simp only [step, answer]
    split
    · split
      · split
        · split
          · exact .inr ⟨(.client, .send _ _ _), rfl⟩
          · exact .inl rfl
        · exact .inl rfl
      · exact .inl rfl
    · exact .inl rfl
  | advanceAnswer i queued =>
    simp only [step, advanceAnswer]
    split
    · exact .inl rfl
    · split <;> exact .inr ⟨(.client, .advance _ _), rfl⟩

theorem tunnel_run (encrypt : Role → Nat → Bytes → Option Bytes)
    (serverLimit clientLimit idle : Nat) (destinations : Table UInt16 SocketAddr)
    (actions : List SessionAction) :
    ∃ actions', (run encrypt serverLimit clientLimit idle destinations actions).tunnel =
      Tunnel.run encrypt actions' := by
  induction actions using List.reverseRecOn with
  | nil => exact ⟨[], rfl⟩
  | append_singleton actions action ih =>
    obtain ⟨before, hbefore⟩ := ih
    obtain hsame | ⟨action', hstep⟩ := tunnel_step encrypt serverLimit clientLimit idle
      (run encrypt serverLimit clientLimit idle destinations actions) action
    · exact ⟨before, by rw [run, List.foldl_append]; exact hsame.trans hbefore⟩
    · refine ⟨before ++ [action'], ?_⟩
      rw [run, List.foldl_append, Tunnel.run, List.foldl_append]
      rw [hbefore] at hstep
      exact hstep

-- ---------------------------------------------------------------------------
-- The legs of the way
-- ---------------------------------------------------------------------------

def Calls (service : UInt16) (k : Nat) (s : Session) : Prop :=
  s.sending.lookup service = some (.running k) ∨
    (∃ result, s.tunnel.server.returned k = some result) ∧
    ∀ k', s.sending.lookup service ≠ some (.running k')

theorem Calls.advance (h : Calls service k s) (encrypt : Role → Nat → Bytes → Option Bytes)
    (serverLimit clientLimit idle n : Nat) :
    ∃ sending, (List.replicate n (.advance service true)).foldl
      (step encrypt serverLimit clientLimit idle) s =
      { s with
        tunnel := (List.replicate n (.server, .advance k true)).foldl (Tunnel.step encrypt) s.tunnel
        sending } := by
  induction n generalizing s with
  | zero => exact ⟨s.sending, rfl⟩
  | succ n ih =>
    rw [List.replicate_succ, List.foldl_cons, List.replicate_succ, List.foldl_cons]
    rcases h with hrunning | ⟨⟨result, hreturned⟩, hnot⟩
    · cases hresult : (s.tunnel.step encrypt (.server, .advance k true)).server.returned k with
      | none =>
        have hstep : step encrypt serverLimit clientLimit idle s (.advance service true) =
            { s with tunnel := s.tunnel.step encrypt (.server, .advance k true) } := by
          simp only [step, Session.advance, hrunning, hresult]
        rw [hstep]
        exact ih (.inl hrunning)
      | some result =>
        obtain ⟨sending, hsending, hstep⟩ : ∃ sending : Table UInt16 Calling,
            (∀ k', sending.lookup service ≠ some (.running k')) ∧
            step encrypt serverLimit clientLimit idle s (.advance service true) =
              { s with tunnel := s.tunnel.step encrypt (.server, .advance k true), sending } := by
          cases result with
          | ok value =>
            refine ⟨s.sending.erase service, fun k' => ?_,
              by simp only [step, Session.advance, hrunning, hresult]⟩
            rw [AList.lookup_erase]
            simp
          | error fault =>
            refine ⟨s.sending.insert service .failed, fun k' => ?_,
              by simp only [step, Session.advance, hrunning, hresult]⟩
            rw [AList.lookup_insert]
            simp
        rw [hstep]
        exact ih (.inr ⟨⟨result, hresult⟩, hsending⟩)
    · have hstep : step encrypt serverLimit clientLimit idle s (.advance service true) = s := by
        cases hlookup : s.sending.lookup service with
        | none => simp only [step, Session.advance, hlookup]
        | some calling =>
          cases calling with
          | running k' => exact absurd hlookup (hnot k')
          | failed => simp only [step, Session.advance, hlookup]
      have htunnel : s.tunnel.step encrypt (.server, .advance k true) = s.tunnel := by
        rw [Tunnel.step, Endpoint.step_returned hreturned]
      rw [hstep, htunnel]
      exact ih (.inr ⟨⟨result, hreturned⟩, hnot⟩)

theorem advanceAnswer_leg (encrypt : Role → Nat → Bytes → Option Bytes)
    (serverLimit clientLimit idle n : Nat) (h : s.answering.lookup i = some k ∨
      i ∉ s.answering ∧ s.tunnel.client.returned k = some (.ok ()))
    (hok : ((List.replicate n (.client, .advance k true)).foldl (Tunnel.step encrypt)
      s.tunnel).client.returned k = some (.ok ())) :
    ∃ answering, (List.replicate n (.advanceAnswer i true)).foldl
      (step encrypt serverLimit clientLimit idle) s =
      { s with
        tunnel := (List.replicate n (.client, .advance k true)).foldl (Tunnel.step encrypt) s.tunnel
        answering } := by
  induction n generalizing s with
  | zero => exact ⟨s.answering, rfl⟩
  | succ n ih =>
    rw [List.replicate_succ, List.foldl_cons] at hok
    rw [List.replicate_succ, List.foldl_cons, List.replicate_succ, List.foldl_cons]
    rcases h with hcalls | ⟨hnot, hreturned⟩
    · cases hresult : (s.tunnel.step encrypt (.client, .advance k true)).client.returned k with
      | none =>
        have hstep : step encrypt serverLimit clientLimit idle s (.advanceAnswer i true) =
            { s with tunnel := s.tunnel.step encrypt (.client, .advance k true) } := by
          simp only [step, Session.advanceAnswer, hcalls, hresult]
        rw [hstep]
        exact ih (.inl hcalls) hok
      | some result =>
        have hstill : ((List.replicate n (.client, .advance k true)).foldl (Tunnel.step encrypt)
            (s.tunnel.step encrypt (.client, .advance k true))).client =
            (s.tunnel.step encrypt (.client, .advance k true)).client := by
          have hside := (Tunnel.foldl_side encrypt .client (List.replicate n (.advance k true))
            (s.tunnel.step encrypt (.client, .advance k true))).1
          rw [List.map_replicate] at hside
          exact hside.trans (Endpoint.stepAll_returned hresult n)
        rw [hstill, hresult] at hok
        cases hok
        have hstep : step encrypt serverLimit clientLimit idle s (.advanceAnswer i true) =
            { s with
              tunnel := s.tunnel.step encrypt (.client, .advance k true)
              answering := s.answering.erase i } := by
          simp only [step, Session.advanceAnswer, hcalls, hresult]
        rw [hstep]
        refine ih (.inr ⟨fun hmem => ?_, hresult⟩) (by rw [hstill, hresult])
        exact (AList.mem_erase.mp hmem).1 rfl
    · have hnone : s.answering.lookup i = none := AList.lookup_eq_none.mpr hnot
      have hstep : step encrypt serverLimit clientLimit idle s (.advanceAnswer i true) = s := by
        simp only [step, Session.advanceAnswer, hnone]
      have htunnel : s.tunnel.step encrypt (.client, .advance k true) = s.tunnel := by
        rw [Tunnel.step, Endpoint.step_returned hreturned]
      rw [htunnel] at hok
      rw [hstep, htunnel]
      exact ih (.inr ⟨hnot, hreturned⟩) hok

end Session

theorem Tunnel.delivered_prefix (encrypt : Role → Nat → Bytes → Option Bytes) (role : Role)
    (datagrams : List (Bytes × Nat)) (t : Tunnel) :
    (t.side role).delivered <+:
      (((datagrams.map fun d => (role, Action.receive d.1 d.2)).foldl (step encrypt) t).side
        role).delivered := by
  induction datagrams generalizing t with
  | nil => exact List.prefix_rfl
  | cons d rest ih =>
    rw [List.map_cons, List.foldl_cons]
    refine List.IsPrefix.trans ?_ (ih (t.step encrypt (role, .receive d.1 d.2)))
    have hside : (t.step encrypt (role, .receive d.1 d.2)).side role =
        (t.side role).step (encrypt role) (authentic (t.side role.other).crypto.state)
        (.receive d.1 d.2) := by
      cases role <;> rfl
    rw [hside, Endpoint.delivered_receive]
    exact List.prefix_append _ _

namespace Session

variable {s : Session} (encrypt : Role → Nat → Bytes → Option Bytes)
  (serverLimit clientLimit idle : Nat)

theorem deliver_leg (hlive : s.tunnel.client.stage = .live) (datagrams : List (Bytes × Nat))
    (hpackets : ((datagrams.map fun d => (Role.client, Action.receive d.1 d.2)).foldl
      (Tunnel.step encrypt)
      s.tunnel).client.delivered = s.tunnel.client.delivered ++ packets) :
    (datagrams.map fun d => .deliver d.1 d.2).foldl (step encrypt serverLimit clientLimit idle) s =
      { s with
        tunnel := (datagrams.map fun d => (Role.client, Action.receive d.1 d.2)).foldl
          (Tunnel.step encrypt)
          s.tunnel
        relay := { s.relay with
          client := packets.foldl (fun c p => c.step clientLimit (.packet p))
            s.relay.client } } := by
  induction datagrams generalizing s packets with
  | nil =>
    obtain rfl : packets = [] := by simpa using hpackets
    rfl
  | cons d rest ih =>
    rw [List.map_cons, List.foldl_cons] at hpackets
    rw [List.map_cons, List.foldl_cons, List.map_cons, List.foldl_cons]
    have hgrows : (s.tunnel.step encrypt (.client, .receive d.1 d.2)).client.delivered =
        s.tunnel.client.delivered ++
          ((s.tunnel.step encrypt (.client, .receive d.1 d.2)).client.delivered[
          s.tunnel.client.delivered.length]?).toList := Endpoint.delivered_receive d.1 d.2
    have hstage : (s.tunnel.step encrypt (.client, .receive d.1 d.2)).client.stage = .live :=
      (Endpoint.step_receive_sending _ _ d.1 d.2 s.tunnel.client).1.trans hlive
    have hstep : step encrypt serverLimit clientLimit idle s (.deliver d.1 d.2) =
        { s with
          tunnel := s.tunnel.step encrypt (.client, .receive d.1 d.2)
          relay := { s.relay with
            client := ((s.tunnel.step encrypt (.client, .receive d.1 d.2)).client.delivered[
              s.tunnel.client.delivered.length]?).toList.foldl
                (fun c p => c.step clientLimit (.packet p))
                s.relay.client } } := by
      simp only [step, hlive, if_true, deliver]
      split <;> rename_i hp <;> simp only [hp] <;> rfl
    generalize hmore : ((s.tunnel.step encrypt (.client, .receive d.1 d.2)).client.delivered[
      s.tunnel.client.delivered.length]?).toList = more at hgrows hstep
    obtain ⟨later, hlater⟩ := Tunnel.delivered_prefix encrypt .client rest
      (s.tunnel.step encrypt (.client, .receive d.1 d.2))
    simp only [Tunnel.side] at hlater
    have hsplit : packets = more ++ later := by
      rw [← hlater, hgrows, List.append_assoc] at hpackets
      exact (List.append_cancel_left hpackets).symm
    rw [hstep, hsplit, List.foldl_append]
    exact ih hstage hlater.symm

/-- While the loop of the server handles a packet, it reads no other. -/
theorem receive_busy (hpacket : s.packet = some p) (datagrams : List (Bytes × Nat)) :
    (datagrams.map fun d => .receive d.1 d.2).foldl
    (step encrypt serverLimit clientLimit idle) s = s := by
  induction datagrams with
  | nil => rfl
  | cons d rest ih =>
    have hstep : step encrypt serverLimit clientLimit idle s (.receive d.1 d.2) = s := by
      simp [step, selecting, hpacket]
    rw [List.map_cons, List.foldl_cons, hstep]
    exact ih

theorem receive_leg (hloop : s.selecting = true) (datagrams : List (Bytes × Nat))
    (hpacket : ((datagrams.map fun d => (Role.server, Action.receive d.1 d.2)).foldl
      (Tunnel.step encrypt)
      s.tunnel).server.delivered = s.tunnel.server.delivered ++ [p]) :
    let s' := (datagrams.map fun d => .receive d.1 d.2).foldl
      (step encrypt serverLimit clientLimit idle) s
    s'.packet = some p ∧ s'.relay = s.relay := by
  induction datagrams generalizing s with
  | nil => simp at hpacket
  | cons d rest ih =>
    rw [List.map_cons, List.foldl_cons] at hpacket
    rw [List.map_cons, List.foldl_cons]
    have hstep : step encrypt serverLimit clientLimit idle s (.receive d.1 d.2) =
        { s with
          tunnel := s.tunnel.step encrypt (.server, .receive d.1 d.2)
          packet := (s.tunnel.step encrypt (.server, .receive d.1 d.2)).server.delivered[
            s.tunnel.server.delivered.length]? } := by
      simp only [step, hloop, if_true]
    have hgrows : (s.tunnel.step encrypt (.server, .receive d.1 d.2)).server.delivered =
        s.tunnel.server.delivered ++
          ((s.tunnel.step encrypt (.server, .receive d.1 d.2)).server.delivered[
          s.tunnel.server.delivered.length]?).toList := Endpoint.delivered_receive d.1 d.2
    rw [hstep]
    cases hread : (s.tunnel.step encrypt (.server, .receive d.1 d.2)).server.delivered[
        s.tunnel.server.delivered.length]? with
    | none =>
      rw [hread, Option.toList_none, List.append_nil] at hgrows
      rw [← hgrows] at hpacket
      refine ih ?_ hpacket
      simp only [selecting, Bool.and_eq_true, decide_eq_true_eq] at hloop ⊢
      exact ⟨⟨(Endpoint.step_receive_sending _ _ d.1 d.2 s.tunnel.server).1.trans hloop.1.1, rfl⟩,
        hloop.2⟩
    | some q =>
      obtain ⟨later, hlater⟩ := Tunnel.delivered_prefix encrypt .server rest
        (s.tunnel.step encrypt (.server, .receive d.1 d.2))
      simp only [Tunnel.side] at hlater
      rw [← hlater, hgrows, hread, Option.toList_some, List.append_assoc] at hpacket
      obtain ⟨rfl, -⟩ : q = p ∧ later = [] := by simpa using List.append_cancel_left hpacket
      rw [receive_busy _ _ _ _ rfl]
      exact ⟨rfl, rfl⟩

end Session

theorem Client.length_workers_le (limit : Nat) (action : ClientAction) (c : Client) :
    c.workers.length ≤ (c.step limit action).workers.length := by
  have hmoves : ∀ {c c' : Client}, Moves limit c c' → c.workers.length ≤ c'.workers.length := by
    intro c c' hm
    cases hm with
    | noted _ hworkers => rw [hworkers]
    | spawned _ _ heq => simp [heq, spawn]
    | advanced _ _ _ hworkers | joined _ _ _ hworkers => rw [hworkers, List.length_set]
  obtain ⟨mid, hfirst, hsecond⟩ := moves_step limit c action
  exact (hmoves hfirst).trans (hmoves hsecond)

namespace Session

variable {s : Session} {encrypt : Role → Nat → Bytes → Option Bytes}
  {serverLimit clientLimit idle : Nat}

def Spawned (s : Session) : Prop := ∀ i ∈ s.answering, i < s.relay.client.workers.length

theorem Spawned.clientStep (h : Spawned s) (clientLimit : Nat) (action : ClientAction)
    (hanswering : ∀ i ∈ s'.answering, i ∈ s.answering)
    (hclient : s'.relay.client = s.relay.client.step clientLimit action) : Spawned s' := by
  intro i hi
  rw [hclient]
  exact (h i (hanswering i hi)).trans_le (Client.length_workers_le clientLimit action _)

theorem Spawned.answer (h : Spawned s) (hw : s.relay.client.workers[i]? = some w)
    (payload : Bytes) :
    Spawned (s.answer encrypt clientLimit i payload w) := by
  have hi : i < s.relay.client.workers.length := (List.getElem?_eq_some_iff.mp hw).1
  unfold Session.answer
  split
  · split
    · intro j hj
      have hle := Client.length_workers_le clientLimit
        (.worker i (.reply payload true)) s.relay.client
      rcases (AList.mem_insert _).mp hj with rfl | hj
      · exact hi.trans_le hle
      · exact (h j hj).trans_le hle
    · exact h.clientStep clientLimit (.worker i (.reply payload false)) (fun _ hj => hj) rfl
  · exact h.clientStep clientLimit (.worker i (.reply payload true)) (fun _ hj => hj) rfl

theorem Spawned.advanceAnswer (h : Spawned s) (i : Nat) (queued : Bool) :
    Spawned (s.advanceAnswer encrypt clientLimit i queued) := by
  unfold Session.advanceAnswer
  split
  · exact h
  · dsimp only
    split
    · exact h
    · exact fun j hj => h j (AList.mem_erase.mp hj).2
    · exact h.clientStep clientLimit (.worker i .failed) (fun j hj => (AList.mem_erase.mp hj).2) rfl

theorem Spawned.arrive (h : Spawned s) (limit : Nat) (service : UInt16) (peer : SocketAddr)
    (payload : Bytes) (now : Nat) :
    Spawned { s with relay := s.relay.arrive limit service peer payload now } := by
  unfold Relay.arrive
  dsimp only
  split
  · exact h
  · split <;> exact h

theorem Spawned.step (h : Spawned s) (action : SessionAction) :
    Spawned (s.step encrypt serverLimit clientLimit idle action) := by
  cases action with
  | exchange | expire | receive => simp only [Session.step]; split <;> exact h
  | arrive service peer payload now =>
    simp only [Session.step]
    split
    · exact h.arrive serverLimit service peer payload now
    · exact h
  | send service =>
    simp only [Session.step, send]
    split
    · split
      · exact h
      · split <;> exact h
    · exact h
  | advance service queued => simp only [Session.step, advance]; split <;> exact h
  | reply now =>
    simp only [Session.step]
    split
    · unfold Relay.reply
      split <;> exact h
    · exact h
  | sendTo => simp only [Session.step]; split <;> exact h
  | deliver bytes now =>
    simp only [Session.step, deliver]
    split
    · split
      · exact h.clientStep clientLimit (.packet _) (fun _ hj => hj) rfl
      · exact h
    · exact h
  | tick => exact h
  | join i => exact h.clientStep clientLimit (.join i) (fun _ hj => hj) rfl
  | worker i event =>
    simp only [Session.step]
    split
    · exact h
    · exact h.clientStep clientLimit (.worker i event) (fun _ hj => hj) rfl
  | answer i payload =>
    simp only [Session.step]
    split
    · split
      · exact h.answer ‹_› payload
      · exact h
    · exact h
  | advanceAnswer i queued => exact h.advanceAnswer i queued

theorem spawned_run (encrypt : Role → Nat → Bytes → Option Bytes)
    (serverLimit clientLimit idle : Nat) (destinations : Table UInt16 SocketAddr)
    (actions : List SessionAction) :
    Spawned (run encrypt serverLimit clientLimit idle destinations actions) := by
  refine List.foldlRecOn actions _ ?_ fun s h action _ => h.step action
  simp [Spawned, new]

end Session

end Cathole
