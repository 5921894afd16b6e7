import Cathole.Crypto.Exchange
import Cathole.Proxy.Agreement

/-!
# Registration and stream setup between two parties

What `session` of `client.rs` and of `server.rs`, and `tcp_client` and
`tcp_server` of `proxy.rs` do inside their setup timeouts, as programs over the
frames of one stream, the client on the left. A party that fails closes the
connection, which ends the other; `Orderly` is about the runs up to there.

The operating system's answer to the bind of a service is a parameter.
-/

namespace Cathole

open Words (toBe fromBe)

def registrationContext : Bytes := "registration".toUTF8.data.toList

/-- `context` of `proxy.rs`. -/
def tcpContext (service stream : Nat) : Bytes :=
  "tcp".toUTF8.data.toList ++ toBe 2 service ++ toBe 8 stream

namespace Peer

variable {σ : Type} (peer : Peer σ)

/-- `session` of `client.rs`. -/
def clientSession (fuel : Nat) (serde : Serde) (cfg : Side) : Talk (σ × DatagramCrypto) := do
  let (keys, dataCrypto, reply) ← peer.initiateDatagram fuel cfg.transport.noise registrationContext
    (serde.toVec cfg.registration)
  ensure (reply = okReply) "service registration rejected"
  Talk.finish
  let last ← Talk.readFrame .last
  ensure last.isNone "unexpected control data"
  pure (keys, dataCrypto)

def register (serde : Serde) (bind : String × Service → Except Fault β) (cfg : Side) (keys : σ)
    (dataCrypto : DatagramCrypto) (payload : Bytes) : Talk (σ × DatagramCrypto × List β) := do
  let reg ← orFault (serde.fromSlice payload) .json
  let definitions ← cfg.validate reg
  let bound ← (definitions.mapM bind : Except Fault (List β))
  let (sealed, dataCrypto) := dataCrypto.seal' (peer.encrypt keys) okReply
  Talk.writeFrame .reply (← sealed)
  Talk.finish
  let last ← Talk.readFrame .last
  ensure last.isNone "unexpected control data"
  pure (keys, dataCrypto, bound)

/-- `session` of `server.rs`. -/
def serverSession (fuel : Nat) (serde : Serde) (bind : String × Service → Except Fault β)
    (cfg : Side) :
    Talk (σ × DatagramCrypto × List β) := do
  let (keys, dataCrypto, payload) ← peer.receiveDatagram fuel cfg.transport.noise
      registrationContext
  peer.register serde bind cfg keys dataCrypto payload

def tcpServer (fuel : Nat) (cfg : Side) (service : UInt16) (stream : Nat) :
    Talk (TransportState σ) := do
  Talk.writeFrame .header (tcpHeader service)
  let (state, payload) ← peer.receiveStream fuel cfg.transport.noise
      (tcpContext service.toNat stream)
  ensure payload.isEmpty "unexpected TCP handshake payload"
  peer.writeTransport state .reply okReply

def tcpClient (fuel : Nat) (cfg : Side) (stream : Nat) : Talk (TransportState σ × Service) := do
  let header ← Talk.readFrame .header
  let service ← cfg.tcpService header
  let id := fromBe (header.getD [])
  let (state, reply) ← peer.initiateStream fuel cfg.transport.noise (tcpContext id stream) []
  ensure (reply = okReply) "TCP handshake rejected"
  pure (state, service)

-- ---------------------------------------------------------------------------
-- The registration
-- ---------------------------------------------------------------------------

open Dialogue (State Step Steps Ends SamePlaces)

variable {client : Peer σ} {server : Peer τ} {serde : Serde} {cfg cfg' : Side}
  {bind : String × Service → Except Fault β}

/-- The handshakes of the two parties for a purpose belong together and take `k`
messages. -/
def Meets (client : Peer σ) (server : Peer τ) (noise noise' : Noise) (purpose : Bytes)
    (k : Nat) : Prop :=
  ∃ i r, handshake client.snow client.decode client.exporter noise true purpose = .ok i ∧
    handshake server.snow server.decode server.exporter noise' false purpose = .ok r ∧
    Paired client server k true i r

def registering (client : Peer σ) (server : Peer τ) (fuel fuel' : Nat) (serde : Serde)
    (bind : String × Service → Except Fault β) (cfg cfg' : Side) :
    State Place Bytes Fault (σ × DatagramCrypto) (τ × DatagramCrypto × List β) where
  left := { prog := client.clientSession fuel serde cfg }
  right := { prog := server.serverSession fuel' serde bind cfg' }

def Accepts (serde : Serde) (bind : String × Service → Except Fault β) (cfg : Side)
    (payload : Bytes) : Prop :=
  ∃ reg definitions bound, serde.fromSlice payload = some reg ∧ cfg.validate reg = .ok definitions ∧
    definitions.mapM bind = .ok bound

/-- The request fits a frame, and the server takes it. -/
def Granted (serde : Serde) (bind : String × Service → Except Fault β) (cfg cfg' : Side) : Prop :=
  (serde.toVec cfg.registration).length + 24 ≤ maxFrame ∧
    Accepts serde bind cfg' (serde.toVec cfg.registration)

theorem register_refused (h : ¬Accepts serde bind cfg payload) (server : Peer τ) (keys : τ)
    (crypto : DatagramCrypto) :
    ∃ fault, server.register serde bind cfg keys crypto payload = .done (.error fault) := by
  unfold register
  cases hreg : serde.fromSlice payload with
  | none => exact ⟨_, rfl⟩
  | some reg =>
    cases hvalidate : cfg.validate reg with
    | error fault => exact ⟨fault, by simp [orFault, hvalidate]⟩
    | ok definitions =>
      cases hbound : (definitions.mapM bind : Except Fault (List β)) with
      | error fault => exact ⟨fault, by simp [orFault, hvalidate, hbound]⟩
      | ok bound => exact absurd ⟨reg, definitions, bound, hreg, hvalidate, hbound⟩ h

theorem register_accepted (h : Accepts serde bind cfg payload)
    (hseal : crypto.seal' (server.encrypt keys) okReply = (.ok data, crypto'))
    (hlen : data.length ≤ maxFrame) :
    ∃ bound, server.register serde bind cfg keys crypto payload =
      .write .reply data fun isOpen => .done (accept isOpen .stream) >>= fun _ =>
        .finish fun isOpen => .done (accept isOpen .stream) >>= fun _ =>
          .read .last fun last => .done (ensure last.isNone "unexpected control data") >>= fun _ =>
            pure (keys, crypto', bound) := by
  obtain ⟨reg, definitions, bound, hreg, hvalidate, hbound⟩ := h
  refine ⟨bound, ?_⟩
  simp only [register, hreg, orFault, Dialogue.Prog.lift_eq, Dialogue.Prog.ok_bind,
    hvalidate, hbound, hseal, Talk.writeFrame_bind hlen, Talk.finish_bind, Talk.readFrame_bind]

/-- One run of the registration: both parties return if it is granted, and one
of them fails if it is not. -/
theorem registering_ends
    (h : Meets client server cfg.transport.noise cfg'.transport.noise registrationContext k)
    (hfuel : k ≤ fuel) (hfuel' : k ≤ fuel') :
    Ends (fun z => Granted serde bind cfg cfg' ∧ z.Done true ∨
      ¬Granted serde bind cfg cfg' ∧ z.Broken)
      (registering client server fuel fuel' serde bind cfg cfg') := by
  obtain ⟨i, r, hi, hr, hpaired⟩ := h
  simp only [registering, clientSession, serverSession, initiateDatagram, receiveDatagram,
    completeHandshake, hi, hr, Dialogue.Prog.lift_eq, Dialogue.Prog.ok_bind,
    Dialogue.Prog.bind_assoc]
  refine ends_of_exchange hpaired hfuel hfuel' Dialogue.samePlaces_nil Dialogue.samePlaces_nil ?_
  intro i r read read' hagreed hread hread'
  simp only [intoStatelessTransportMode_ok hagreed.initiator,
    intoStatelessTransportMode_ok hagreed.responder, Dialogue.Prog.ok_bind, Talk.readFrame_bind]
  rcases Nat.lt_or_ge maxFrame ((serde.toVec cfg.registration).length + 24) with hlarge | hlen
  -- The client fails over its own request, and the server waits for it.
  · have hno : ¬Granted serde bind cfg cfg' := fun hgranted => absurd hgranted.1 (by omega)
    rcases seal'_too_large (c := .new {}) hagreed.toResponder rfl hlarge with
      ⟨fault, crypto, hseal⟩ | ⟨data, crypto, hseal, hdata⟩
    · simp only [hseal, Dialogue.Prog.error_bind]
      exact .now (.inr ⟨hno, State.broken_left hread hread'⟩)
    · simp only [hseal, Dialogue.Prog.ok_bind, Talk.writeFrame_too_large hdata]
      exact .now (.inr ⟨hno, State.broken_left hread hread'⟩)
  obtain ⟨data, crypto, crypto₁, hseal, hfits, hreplay, hopen, hnext⟩ :=
    sealed_opens (c := .new {}) hagreed.toResponder rfl
      (rfl : (DatagramCrypto.new {}).replay = _) _ hlen
  simp only [hseal, Dialogue.Prog.ok_bind, Talk.writeFrame_bind hfits]
  refine Ends.after ?_ Dialogue.left_to_right
  simp only [accept, if_true, context, Dialogue.Prog.ok_bind, Dialogue.Prog.pure_eq, hopen]
  by_cases haccepts : Accepts serde bind cfg' (serde.toVec cfg.registration)
  · obtain ⟨data', crypto₂, crypto₃, hseal', hfits', -, hopen', -⟩ :=
      sealed_opens hagreed.toInitiator hnext hreplay okReply (by decide)
    obtain ⟨bound, hregister⟩ := register_accepted haccepts hseal' hfits'
    simp only [hregister]
    refine Ends.after ?_ Dialogue.right_to_left
    simp only [Dialogue.Prog.ok_bind, hopen', decide_true, ensure_true, Talk.finish_bind]
    refine Ends.after ?_ (Dialogue.both_finish rfl rfl)
    exact .now (.inl ⟨⟨hlen, haccepts⟩, ⟨⟨_, rfl⟩, _, rfl⟩, ⟨rfl, rfl⟩, hread.snoc _,
      hread'.snoc _⟩)
  · obtain ⟨fault, hregister⟩ := register_refused haccepts server r crypto₁
    simp only [hregister]
    exact .now (.inr ⟨fun hgranted => haccepts hgranted.2,
      State.broken_right hread (hread'.snoc _)⟩)

-- ---------------------------------------------------------------------------
-- A TCP stream
-- ---------------------------------------------------------------------------

def opening (client : Peer σ) (server : Peer τ) (fuel fuel' : Nat) (cfg cfg' : Side)
    (service : UInt16) (stream : Nat) : State Place Bytes Fault (TransportState σ × Service)
    (TransportState τ) where
  left := { prog := client.tcpClient fuel cfg stream }
  right := { prog := server.tcpServer fuel' cfg' service stream }

/-- The client has a TCP service for the header. -/
def Served (cfg : Side) (service : UInt16) : Prop :=
  ∃ s, cfg.tcpService (some (tcpHeader service)) = .ok s

theorem length_tcpHeader_le (service : UInt16) : (tcpHeader service).length ≤ maxFrame := by
  rw [tcpHeader, Words.length_toBe]
  decide

theorem fromBe_tcpHeader (service : UInt16) : fromBe (tcpHeader service) = service.toNat :=
  Words.fromBe_toBe service.toNat_lt

/-- The end of a run in which the client has the service: both parties have used
their keys once in each direction, and the stream is empty. -/
structure Opened (client : Peer σ) (server : Peer τ) (s : Service) (i : σ) (r : τ)
    (z : State Place Bytes Fault (TransportState σ × Service) (TransportState τ)) : Prop where
  agreed : Agreed client server i r
  left : z.left.prog = .done (.ok (⟨i, 1, 1⟩, s))
  right : z.right.prog = .done (.ok ⟨r, 1, 1⟩)
  toRight : z.toRight = {}
  toLeft : z.toLeft = {}

theorem opening_opened
    (h : Meets client server cfg.transport.noise cfg'.transport.noise
      (tcpContext service.toNat stream) (k + 1))
    (hfuel : k + 1 ≤ fuel) (hfuel' : k + 1 ≤ fuel')
    (hserved : cfg.tcpService (some (tcpHeader service)) = .ok s) :
    Ends (fun z => (∃ i r, Opened client server s i r z) ∧ z.Done false)
      (opening client server fuel fuel' cfg cfg' service stream) := by
  obtain ⟨i, r, hi, hr, hpaired⟩ := h
  simp only [opening, tcpClient, tcpServer, initiateStream, receiveStream, completeHandshake, hr,
    Dialogue.Prog.lift_eq, Dialogue.Prog.ok_bind, Dialogue.Prog.bind_assoc, Talk.readFrame_bind,
    Talk.writeFrame_bind (length_tcpHeader_le service)]
  refine Ends.after ?_ Dialogue.right_to_left
  simp only [accept, if_true, Option.getD_some, fromBe_tcpHeader, hi, hserved,
    Dialogue.Prog.ok_bind]
  refine ends_of_exchange hpaired hfuel hfuel' (Dialogue.samePlaces_nil.snoc _)
    Dialogue.samePlaces_nil ?_
  intro i r read read' hagreed hread hread'
  obtain ⟨cipher, hencrypt, hcipher, hdecrypt⟩ := encrypt_first hagreed.toResponder [] (by decide)
  obtain ⟨cipher', hencrypt', hcipher', hdecrypt'⟩ :=
    encrypt_first hagreed.toInitiator okReply (by decide)
  simp only [intoTransportMode_ok hagreed.initiator, intoTransportMode_ok hagreed.responder,
    Dialogue.Prog.ok_bind, writeTransport_eq hencrypt hcipher, Dialogue.Prog.write_bind,
    readTransport_bind]
  refine Ends.after ?_ Dialogue.left_to_right
  simp only [accept, if_true, Dialogue.Prog.ok_bind, Dialogue.Prog.pure_eq, hdecrypt,
    orFault, context, List.isEmpty_nil, ensure_true, writeTransport_eq hencrypt' hcipher']
  refine Ends.after ?_ Dialogue.right_to_left
  simp only [Dialogue.Prog.ok_bind, hdecrypt', decide_true, ensure_true]
  refine .now ⟨⟨i, r, hagreed, rfl, rfl, rfl, rfl⟩, ?_⟩
  exact ⟨⟨⟨_, rfl⟩, _, rfl⟩, ⟨rfl, rfl⟩, hread.snoc _, hread'.snoc _⟩

theorem opening_ends
    (h : Meets client server cfg.transport.noise cfg'.transport.noise
      (tcpContext service.toNat stream) (k + 1))
    (hfuel : k + 1 ≤ fuel) (hfuel' : k + 1 ≤ fuel') :
    Ends (fun z => Served cfg service ∧ z.Done false ∨ ¬Served cfg service ∧ z.Broken)
      (opening client server fuel fuel' cfg cfg' service stream) := by
  cases hserved : cfg.tcpService (some (tcpHeader service)) with
  | error fault =>
    -- The client fails over the header; the server waits for the first message.
    have hno : ¬Served cfg service := by
      rintro ⟨s, hs⟩
      cases hserved.symm.trans hs
    obtain ⟨i, r, hi, hr, hpaired⟩ := h
    simp only [opening, tcpClient, tcpServer, initiateStream, receiveStream, completeHandshake, hr,
      Dialogue.Prog.lift_eq, Dialogue.Prog.ok_bind, Dialogue.Prog.bind_assoc, Talk.readFrame_bind,
      Talk.writeFrame_bind (length_tcpHeader_le service)]
    refine Ends.after ?_ Dialogue.right_to_left
    obtain ⟨n', rfl⟩ : ∃ n', fuel' = n' + 1 := ⟨fuel' - 1, by omega⟩
    simp only [hserved, Dialogue.Prog.error_bind, exchange_read hpaired.2.1]
    exact .now (.inr ⟨hno, State.broken_left
      (Dialogue.samePlaces_nil.snoc _) Dialogue.samePlaces_nil⟩)
  | ok s =>
    obtain ⟨n, z, hz, -, hdone⟩ := opening_opened h hfuel hfuel' hserved
    exact ⟨n, z, hz, .inl ⟨⟨s, hserved⟩, hdone⟩⟩

-- ---------------------------------------------------------------------------
-- Every run
-- ---------------------------------------------------------------------------

/-- Two parties whose handshakes belong together, in any order of their steps:
the registration and the setup of a stream neither get stuck nor out of step,
and leave nothing on the stream, which is finished after the registration and
open after the setup. They fail only if the registration is not granted, or the
client does not have the service. -/
theorem setup_orderly (client : Peer σ) (server : Peer τ) (cfg cfg' : Side) (hk : 1 ≤ k)
    (hfuel : k ≤ fuel) (hfuel' : k ≤ fuel') :
    (∀ (β : Type) (serde : Serde) (bind : String × Service → Except Fault β),
      Meets client server cfg.transport.noise cfg'.transport.noise registrationContext k →
      (registering client server fuel fuel' serde bind cfg cfg').Orderly true ∧
        (Granted serde bind cfg cfg' →
          (registering client server fuel fuel' serde bind cfg cfg').Succeeds)) ∧
    ∀ (service : UInt16) (stream : Nat),
      Meets client server cfg.transport.noise cfg'.transport.noise
        (tcpContext service.toNat stream) k →
      (opening client server fuel fuel' cfg cfg' service stream).Orderly false ∧
        (Served cfg service → (opening client server fuel fuel' cfg cfg' service
          stream).Succeeds) := by
  constructor
  · intro β serde bind hmeets
    exact (registering_ends hmeets hfuel hfuel').decides
  · intro service stream hmeets
    obtain ⟨n, rfl⟩ : ∃ n, k = n + 1 := ⟨k - 1, by omega⟩
    exact (opening_ends hmeets hfuel hfuel').decides

end Peer

namespace Sample

def peer : Peer Nat where
  snow :=
    { parses := snow.parses
      takesPrologue := snow.takesPrologue
      generateKeypair := snow.generateKeypair
      takesKey := snow.takesKey
      build _ _ := some 3 }
  decode := base64
  exporter := exporter
  isHandshakeFinished hs := hs == 0
  writeMessage hs := if hs = 0 then none else some (List.replicate 48 0, hs - 1)
  readMessage hs _ := if hs = 0 then none else some (hs - 1)
  encrypt _ _ plain :=
    if plain.length + 16 ≤ maxFrame then some (plain ++ List.replicate 16 0) else none
  decrypt _ _ cipher := some (cipher.take (cipher.length - 16))

theorem peer_opens (keys keys' : Nat) : Peer.Opens peer peer keys keys' where
  opens nonce plain _ hlen := by
    refine ⟨plain ++ List.replicate 16 0, if_pos hlen, by simp, ?_⟩
    simp [peer]
  limit nonce plain hlen := if_neg (by omega)

theorem peer_paired : Peer.Paired peer peer 3 true 3 3 := by
  refine ⟨rfl, rfl, _, 2, 2, rfl, by decide, rfl, ?_⟩
  refine ⟨rfl, rfl, _, 1, 1, rfl, by decide, rfl, ?_⟩
  refine ⟨rfl, rfl, _, 0, 0, rfl, by decide, rfl, ?_⟩
  exact ⟨rfl, rfl, peer_opens 0 0, peer_opens 0 0⟩

theorem peer_parses : peer.snow.parses transport.noise.pattern = true := by
  decide +kernel

theorem peer_localKey : transport.noise.localKey peer.snow peer.decode = .ok
    (some (List.replicate 32 7)) := by
  decide +kernel

theorem peer_remoteKey : transport.noise.remoteKey peer.decode = .ok none := by
  decide +kernel

theorem peer_handshake (initiator : Bool) (purpose : Bytes) :
    handshake peer.snow peer.decode peer.exporter transport.noise initiator purpose = .ok 3 := by
  simp only [handshake, handshakeBuilder, peer_parses, peer_localKey, peer_remoteKey, accept,
    if_true, ok_bind]
  rfl

theorem peer_meets (purpose : Bytes) :
    Peer.Meets peer peer client.transport.noise server.transport.noise purpose 3 :=
  ⟨3, 3, peer_handshake true purpose, peer_handshake false purpose, peer_paired⟩

theorem registration_granted : Peer.Granted serde (fun d => .ok d.1) client server := by
  have hvalidate : server.validate client.registration =
      .ok [("dns", { kind := .udp, bindAddr := some "0.0.0.0:53" }),
        ("web", { token := some "www", bindAddr := some "0.0.0.0:80" })] := by
    decide +kernel
  exact ⟨by decide +kernel, client.registration, _, ["dns", "web"], by simp [serde], hvalidate, rfl⟩

theorem web_served : Peer.Served client 1 := by
  have hservice : client.tcpService (some (tcpHeader 1)) =
      .ok { localAddr := some "127.0.0.1:8080" } := by
    decide +kernel
  exact ⟨_, hservice⟩

end Sample

open Sample in
theorem setup_orderly_xx :
    (Peer.registering peer peer 3 3 serde (fun d => .ok d.1) client server).Succeeds ∧
      (Peer.opening peer peer 3 3 client server 1 0).Succeeds := by
  have hsetup := Peer.setup_orderly peer peer client server (k := 3) (by decide) (Nat.le_refl 3)
    (Nat.le_refl 3)
  obtain ⟨-, hregistering⟩ := hsetup.1 _ serde (fun d => .ok d.1) (peer_meets _)
  obtain ⟨-, hopening⟩ := hsetup.2 1 0 (peer_meets _)
  exact ⟨hregistering registration_granted, hopening web_served⟩

end Cathole
