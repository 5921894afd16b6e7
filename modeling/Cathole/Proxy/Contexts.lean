import Cathole.Proxy.Setup

/-!
# The contexts of the handshakes

The prologue of a handshake is a fixed tag, 32 exported bytes and a context, one
behind the other and without lengths. There are two kinds of contexts, and they
differ in length; within a TCP context every field has a fixed width. So a
prologue has one reading.

The header of a TCP stream is not part of any handshake. What the client makes
of it goes into its own prologue, which has to be that of the server.
-/

namespace Cathole

open Words (fromBe)

/-- What a handshake is for, and where: the stream and the service of a TCP
connection. -/
inductive Purpose
  | registration
  | tcp (service : UInt16) (stream : UInt64)
  deriving DecidableEq, Repr

def Purpose.context : Purpose → Bytes
  | .registration => registrationContext
  | .tcp service stream => tcpContext service.toNat stream.toNat

-- ---------------------------------------------------------------------------
-- One reading
-- ---------------------------------------------------------------------------

theorem length_registrationContext : registrationContext.length = 12 := by
  decide

theorem length_tcpContext (service stream : Nat) : (tcpContext service stream).length = 13 := by
  have htag : "tcp".toUTF8.data.toList.length = 3 := by
    decide
  simp only [tcpContext, List.length_append, Words.length_toBe, htag]

theorem tcpContext_inj {service service' : UInt16} {stream stream' : UInt64}
    (h : tcpContext service.toNat stream.toNat = tcpContext service'.toNat stream'.toNat) :
    service = service' ∧ stream = stream' := by
  simp only [tcpContext, List.append_assoc] at h
  obtain ⟨hservice, hstream⟩ := List.append_inj (List.append_cancel_left h) (by simp)
  refine ⟨UInt16.toNat_inj.mp ?_, UInt64.toNat_inj.mp ?_⟩
  · exact Words.toBe_inj service.toNat_lt service'.toNat_lt hservice
  · exact Words.toBe_inj stream.toNat_lt stream'.toNat_lt hstream

theorem context_inj {purpose purpose' : Purpose} (h : purpose.context = purpose'.context) :
    purpose = purpose' := by
  cases purpose with
  | registration =>
    cases purpose' with
    | registration => rfl
    | tcp service stream =>
      have hlen := congrArg List.length h
      simp [Purpose.context, length_registrationContext, length_tcpContext] at hlen
  | tcp service stream =>
    cases purpose' with
    | registration =>
      have hlen := congrArg List.length h
      simp [Purpose.context, length_registrationContext, length_tcpContext] at hlen
    | tcp service' stream' =>
      obtain ⟨rfl, rfl⟩ := tcpContext_inj h
      rfl

/-- The tag and the exported bytes have the same length in every prologue. -/
theorem prologue_inj {binding binding' : Binding}
    (h : binding.prologue ctx = binding'.prologue ctx') :
    binding = binding' ∧ ctx = ctx' := by
  simp only [Binding.prologue, List.append_assoc] at h
  obtain ⟨hbinding, hctx⟩ :=
    List.append_inj (List.append_cancel_left h) (binding.property.trans binding'.property.symm)
  exact ⟨Subtype.ext hbinding, hctx⟩

theorem prologue_handshakeBuilder {snow : Snow σ} {b : Builder}
    (h : handshakeBuilder snow decode exporter noise ctx = .ok b) :
    ∃ binding, exporter "cathole-noise-v1" ctx = some binding ∧
      b.prologue = binding.prologue ctx := by
  simp only [handshakeBuilder, bind_eq_ok, pure_eq_ok, context_eq_ok] at h
  obtain ⟨binding, hbinding, _, -, _, -, _, -, _, -, _, -, _, -, rfl⟩ := h
  exact ⟨binding, hbinding, rfl⟩

theorem prologue_eq_iff {snow : Snow σ} {snow' : Snow τ} {purpose purpose' : Purpose}
    {b b' : Builder} (hb : handshakeBuilder snow decode exporter noise purpose.context = .ok b)
    (hb' : handshakeBuilder snow' decode' exporter' noise' purpose'.context = .ok b') :
    b.prologue = b'.prologue ↔
      exporter "cathole-noise-v1" purpose.context = exporter' "cathole-noise-v1" purpose'.context ∧
        purpose = purpose' := by
  obtain ⟨binding, hbinding, hprologue⟩ := prologue_handshakeBuilder hb
  obtain ⟨binding', hbinding', hprologue'⟩ := prologue_handshakeBuilder hb'
  rw [hprologue, hprologue', hbinding, hbinding']
  constructor
  · intro h
    obtain ⟨rfl, hctx⟩ := prologue_inj h
    exact ⟨rfl, context_inj hctx⟩
  · rintro ⟨heq, rfl⟩
    rw [Option.some.inj heq]

-- ---------------------------------------------------------------------------
-- A stream and its header
-- ---------------------------------------------------------------------------

/-- A task of the server that answers a handshake, and the connection it runs
on: `session` for a registration, `tcp_server` for a TCP stream. -/
structure Responder (κ τ : Type) where
  conn : κ
  purpose : Purpose
  peer : Peer τ
  cfg : Side

namespace Responder

variable {κ τ : Type}

def program (fuel : Nat) (serde : Serde) (bind : String × Service → Except Fault Unit)
    (responder : Responder κ τ) : Talk Unit :=
  match responder.purpose with
  | .registration => do
    let _ ← responder.peer.serverSession fuel serde bind responder.cfg
  | .tcp service stream => do
    let _ ← responder.peer.tcpServer fuel responder.cfg service stream.toNat

def builder (responder : Responder κ τ) : Except Fault Builder :=
  handshakeBuilder responder.peer.snow responder.peer.decode responder.peer.exporter
    responder.cfg.transport.noise responder.purpose.context

end Responder

namespace Peer

open Dialogue.Prog (Returns)

variable {σ τ κ : Type} {client : Peer σ} {cfg : Side}

/-- With these messages coming in, a handshake that the client initiates
completes only for this prologue. -/
def CompletesOnlyFor (client : Peer σ) (incoming : List (Option Bytes)) (prologue : Bytes) : Prop :=
  ∀ b i fuel hs received, received <+: incoming → client.snow.build b true = some i →
    Returns (client.exchange fuel 0 i true) received hs → b.prologue = prologue

theorem completeHandshake_returns {peer : Peer σ}
    (h : Returns (peer.completeHandshake fuel noise ctx initiator) frames hs) :
    ∃ b i, handshakeBuilder peer.snow peer.decode peer.exporter noise ctx = .ok b ∧
      peer.snow.build b initiator = some i ∧
      Returns (peer.exchange fuel 0 i initiator) frames hs := by
  obtain ⟨i, start, received, rfl, hstart, hexchange⟩ := h.of_bind
  obtain ⟨hi, rfl⟩ := Dialogue.Prog.returns_done.mp hstart
  obtain ⟨b, hb, hbuild⟩ := bind_eq_ok.mp hi
  exact ⟨b, i, hb, orFault_eq_ok.mp hbuild, hexchange⟩

theorem initiateStream_returns {result : TransportState σ × Bytes}
    (h : Returns (client.initiateStream fuel noise ctx payload) frames result) :
    ∃ received b i hs, received <+: frames ∧
      handshakeBuilder client.snow client.decode client.exporter noise ctx = .ok b ∧
      client.snow.build b true = some i ∧ Returns (client.exchange fuel 0 i true) received hs := by
  obtain ⟨hs, received, back, rfl, hcomplete, -⟩ := h.of_bind
  obtain ⟨b, i, hb, hi, hexchange⟩ := completeHandshake_returns hcomplete
  exact ⟨received, b, i, hs, List.prefix_append .., hb, hi, hexchange⟩

/-- The setup of a stream reads a header, selects a service by it and completes
a handshake for that service and the stream. -/
theorem tcpClient_returns {header : Option Bytes} {result : TransportState σ × Service}
    (h : Returns (client.tcpClient fuel cfg stream) (header :: incoming) result) :
    ∃ received b i hs, cfg.tcpService header = .ok result.2 ∧ received <+: incoming ∧
      handshakeBuilder client.snow client.decode client.exporter cfg.transport.noise
        (tcpContext (fromBe (header.getD [])) stream) = .ok b ∧
      client.snow.build b true = some i ∧ Returns (client.exchange fuel 0 i true) received hs := by
  simp only [tcpClient, Talk.readFrame_bind, Dialogue.Prog.lift_eq] at h
  cases h with
  | read _ h =>
    obtain ⟨service, start, rest, hframes, hselect, h⟩ := h.of_bind
    obtain ⟨hservice, rfl⟩ := Dialogue.Prog.returns_done.mp hselect
    obtain rfl : incoming = rest := hframes
    obtain ⟨⟨state, reply⟩, front, back, rfl, hinitiate, h⟩ := h.of_bind
    obtain ⟨_, _, _, -, -, h⟩ := h.of_bind
    obtain ⟨hresult, -⟩ := Dialogue.Prog.returns_done.mp h
    cases hresult
    obtain ⟨received, b, i, hs, hreceived, hb, hi, hexchange⟩ := initiateStream_returns hinitiate
    refine ⟨received, b, i, hs, hservice, ?_, hb, hi, hexchange⟩
    exact hreceived.trans (List.prefix_append ..)

theorem header_of_tcpService {header : Option Bytes} (h : cfg.tcpService header = .ok service) :
    ∃ id : UInt16, header = some (tcpHeader id) ∧ fromBe (header.getD []) = id.toNat ∧
      cfg.services.values[id.toNat]? = some service := by
  simp only [Side.tcpService, bind_eq_ok, pure_eq_ok, ensure_eq_ok, context_eq_ok, beq_iff_eq] at h
  obtain ⟨bytes, rfl, _, hlen, _, hget, _, -, rfl⟩ := h
  have hlt : fromBe bytes < 2 ^ 16 := by
    have hlt := Words.fromBe_lt bytes
    rwa [hlen] at hlt
  have hid : (UInt16.ofNat (fromBe bytes)).toNat = fromBe bytes := UInt16.toNat_ofNat_of_lt' hlt
  refine ⟨UInt16.ofNat (fromBe bytes), ?_, hid.symm, hid.symm ▸ hget⟩
  rw [tcpHeader, hid, ← hlen, Words.toBe_fromBe]

end Peer

open Dialogue.Prog (Returns)

theorem Responder.builder_of_returns {responder : Responder κ τ}
    {bind : String × Service → Except Fault Unit}
    (h : Returns (responder.program fuel serde bind) frames ()) :
      ∃ b, responder.builder = .ok b := by
  unfold program at h
  unfold builder
  cases hpurpose : responder.purpose with
  | registration =>
    simp only [hpurpose] at h
    obtain ⟨_, _, _, -, hsession, -⟩ := h.of_bind
    obtain ⟨_, _, _, -, hreceive, -⟩ := hsession.of_bind
    obtain ⟨_, _, _, -, hcomplete, -⟩ := hreceive.of_bind
    obtain ⟨b, _, hb, -⟩ := Peer.completeHandshake_returns hcomplete
    exact ⟨b, hb⟩
  | tcp service stream =>
    simp only [hpurpose] at h
    obtain ⟨_, _, _, -, hserver, -⟩ := h.of_bind
    obtain ⟨_, _, _, -, -, hrest⟩ := hserver.of_bind
    obtain ⟨_, _, _, -, hreceive, -⟩ := hrest.of_bind
    obtain ⟨_, _, _, -, hcomplete, -⟩ := hreceive.of_bind
    obtain ⟨b, _, hb, -⟩ := Peer.completeHandshake_returns hcomplete
    exact ⟨b, hb⟩

/-- The prologues of two handshakes are the same exactly if the exported bytes
are and both are for a registration, or for the same service and stream. With
exported bytes that are those of one connection only, and handshakes that
complete only between equal prologues, the setup of a TCP stream on the client
goes through, whatever bytes it read as the header, only if it is `tcp_server`
that answers, on the same stream of the same connection and for the service the
header says. -/
theorem contexts_separate {σ τ κ : Type} (exporter : κ → String → Bytes → Option Binding)
    (hexporter : ∀ conn conn' ctx binding, exporter conn "cathole-noise-v1" ctx = some binding →
      exporter conn' "cathole-noise-v1" ctx = some binding → conn = conn') :
    (∀ (snow : Snow σ) (snow' : Snow τ) decode decode' exporter exporter' noise noise'
      (purpose purpose' : Purpose) b b',
      handshakeBuilder snow decode exporter noise purpose.context = .ok b →
      handshakeBuilder snow' decode' exporter' noise' purpose'.context = .ok b' →
      (b.prologue = b'.prologue ↔
        exporter "cathole-noise-v1" purpose.context =
          exporter' "cathole-noise-v1" purpose'.context ∧
          purpose = purpose')) ∧
    (∀ (responder : Responder κ τ) fuel serde bind frames,
      Returns (responder.program fuel serde bind) frames () → ∃ b, responder.builder = .ok b) ∧
    ∀ (conn : κ) (client : Peer σ) (responder : Responder κ τ) (cfg : Side)
      (stream : UInt64) fuel header
      incoming b' state service,
      client.exporter = exporter conn → responder.peer.exporter = exporter responder.conn →
      responder.builder = .ok b' → client.CompletesOnlyFor incoming b'.prologue →
      Returns (client.tcpClient fuel cfg stream.toNat) (header :: incoming) (state, service) →
      ∃ id : UInt16, header = some (tcpHeader id) ∧ cfg.services.values[id.toNat]? = some service ∧
        responder.conn = conn ∧ responder.purpose = .tcp id stream := by
  refine ⟨?_, fun responder fuel serde bind frames => Responder.builder_of_returns, ?_⟩
  · intro snow snow' decode decode' exporter exporter' noise noise' purpose purpose' b b' hb hb'
    exact prologue_eq_iff hb hb'
  · intro conn client responder cfg stream fuel header incoming b' state service hclient
      hserver hb' hnoise h
    obtain ⟨received, b, i, hs, hservice, hreceived, hb, hi, hexchange⟩ := Peer.tcpClient_returns h
    obtain ⟨id, hheader, hid, hget⟩ := Peer.header_of_tcpService hservice
    have hprologue := hnoise b i fuel hs received hreceived hi hexchange
    rw [hid] at hb
    have hown : handshakeBuilder client.snow client.decode client.exporter cfg.transport.noise
        (Purpose.tcp id stream).context = .ok b := hb
    obtain ⟨hbinding, hpurpose⟩ := (prologue_eq_iff hown hb').mp hprologue
    obtain ⟨binding, hexport, -⟩ := prologue_handshakeBuilder hown
    rw [hexport, hserver, ← hpurpose] at hbinding
    rw [hclient] at hexport
    refine ⟨id, hheader, hget, ?_, hpurpose.symm⟩
    exact hexporter _ _ _ binding hbinding.symm hexport

namespace Sample

/-- A handshake of three messages that consist of the prologue, which the reader
of a message compares with its own. -/
def checking (conn : UInt8) : Peer (Nat × Bytes) where
  snow :=
    { parses := snow.parses
      takesPrologue := snow.takesPrologue
      generateKeypair := snow.generateKeypair
      takesKey := snow.takesKey
      build b _ := some (3, b.prologue) }
  decode := base64
  exporter _ _ := some ⟨List.replicate 32 conn, by simp⟩
  isHandshakeFinished hs := hs.1 == 0
  writeMessage hs := if hs.1 = 0 then none else some (hs.2, hs.1 - 1, hs.2)
  readMessage hs data := if hs.1 ≠ 0 ∧ data = hs.2 then some (hs.1 - 1, hs.2) else none
  encrypt _ := peer.encrypt 0
  decrypt _ := peer.decrypt 0

def prologue (conn : UInt8) (ctx : Bytes) : Bytes :=
  Binding.prologue ⟨List.replicate 32 conn, by simp⟩ ctx

theorem checking_builder (conn : UInt8) (ctx : Bytes) :
    handshakeBuilder (checking conn).snow (checking conn).decode
      (checking conn).exporter transport.noise ctx =
      .ok ⟨transport.noise.pattern, prologue conn ctx, some (List.replicate 32 7), none⟩ := by
  have hparses : (checking conn).snow.parses transport.noise.pattern = true := peer_parses
  have hlocal : transport.noise.localKey (checking conn).snow (checking conn).decode =
      .ok (some (List.replicate 32 7)) := peer_localKey
  have hremote : transport.noise.remoteKey (checking conn).decode = .ok none := peer_remoteKey
  simp only [handshakeBuilder, hparses, hlocal, hremote, accept, if_true, ok_bind]
  rfl

theorem writeFrame_returns (h : Returns (Talk.writeFrame place data) frames u) : frames = [] := by
  obtain ⟨_, front, back, rfl, hensure, hwrite⟩ := h.of_bind
  obtain ⟨-, rfl⟩ := Dialogue.Prog.returns_done.mp hensure
  cases hwrite with
  | write isOpen h => exact (Dialogue.Prog.returns_done.mp h).2

theorem checking_completes (conn : UInt8) (prologue : Bytes) (rest : List (Option Bytes)) :
    (checking conn).CompletesOnlyFor (some prologue :: rest) prologue := by
  intro b i fuel hs received hbegins hbuild h
  obtain rfl : (3, b.prologue) = i := Option.some.inj hbuild
  have hthree : (checking conn).isHandshakeFinished (3, b.prologue) = false := rfl
  have htwo : (checking conn).isHandshakeFinished (2, b.prologue) = false := rfl
  cases fuel with
  | zero =>
    simp only [Peer.exchange, hthree, Bool.false_eq_true, if_false] at h
    cases h
  | succ fuel =>
    simp only [Peer.exchange, hthree, Bool.false_eq_true, if_false, if_true] at h
    obtain ⟨⟨data, hs₁⟩, start, back, hreceived, hwrite, h⟩ := h.of_bind
    obtain ⟨hdata, rfl⟩ := Dialogue.Prog.returns_done.mp hwrite
    cases hdata
    obtain ⟨_, front, back', hback, hframe, h⟩ := h.of_bind
    cases writeFrame_returns hframe
    obtain rfl : received = back' := hreceived.trans hback
    cases fuel with
    | zero =>
      simp only [Peer.exchange, Nat.reduceSub, htwo, Bool.false_eq_true, if_false] at h
      cases h
    | succ fuel =>
      simp only [Peer.exchange, Nat.reduceSub, htwo, Bool.false_eq_true, if_false, Bool.not_true,
        Talk.readFrame_bind] at h
      cases h with
      | read got h =>
        -- The second message is the first that the client reads.
        obtain rfl : got = some prologue := (List.cons_prefix_cons.mp hbegins).1
        obtain ⟨data, _, _, -, hdata, h⟩ := h.of_bind
        cases (Dialogue.Prog.returns_done.mp hdata).1
        obtain ⟨hs₂, _, _, -, hread, -⟩ := h.of_bind
        have hsome := orFault_eq_ok.mp (Dialogue.Prog.returns_done.mp hread).1
        simp only [checking] at hsome
        split at hsome
        · rename_i hsame
          exact hsame.2.symm
        · cases hsome

theorem checking_returns (conn : UInt8) (stream : Nat) :
    ∃ state, Returns ((checking conn).tcpClient 3 client stream)
      [some (tcpHeader 1), some (prologue conn (tcpContext 1 stream)),
        some (okReply ++ List.replicate 16 0)]
      (state, { localAddr := some "127.0.0.1:8080" }) := by
  have hservice : client.tcpService (some (tcpHeader 1)) =
      .ok { localAddr := some "127.0.0.1:8080" } := by
    decide +kernel
  have hid : fromBe ((some (tcpHeader 1)).getD []) = 1 := rfl
  have hnoise : client.transport.noise = transport.noise := rfl
  have hlen : (prologue conn (tcpContext 1 stream)).length ≤ maxFrame := by
    have htag : "cathole/1".toUTF8.data.toList.length = 9 := by
      decide
    simp only [prologue, Binding.prologue, List.length_append, htag, length_tcpContext,
      List.length_replicate]
    decide
  have hstart : handshake (checking conn).snow (checking conn).decode (checking conn).exporter
      transport.noise true (tcpContext 1 stream) =
        .ok (3, prologue conn (tcpContext 1 stream)) := by
    rw [handshake, checking_builder]
    rfl
  generalize prologue conn (tcpContext 1 stream) = message at hlen hstart ⊢
  have hwrite : ∀ n, (checking conn).writeMessage (n + 1, message) = some (message, n, message) :=
    fun n => rfl
  have hthree : (checking conn).isHandshakeFinished (3, message) = false := rfl
  have htwo : (checking conn).isHandshakeFinished (2, message) = false := rfl
  have hone : (checking conn).isHandshakeFinished (1, message) = false := rfl
  have hfinished : (checking conn).isHandshakeFinished (0, message) = true := rfl
  have hread : (checking conn).readMessage (2, message) message = some (1, message) :=
    if_pos ⟨by simp, rfl⟩
  have hencrypt : (checking conn).encrypt (0, message) 0 [] = some (List.replicate 16 0) := rfl
  have hcipher : (List.replicate 16 0 : Bytes).length ≤ maxFrame := by
    simp [maxFrame]
  have hdecrypt : (checking conn).decrypt (0, message) 0 (okReply ++ List.replicate 16 0) =
      some okReply := rfl
  simp only [Peer.tcpClient, Peer.initiateStream, Peer.completeHandshake, Dialogue.Prog.lift_eq,
    Talk.readFrame_bind, Dialogue.Prog.bind_assoc]
  refine ⟨⟨(0, message), 1, 1⟩, .read _ ?_⟩
  simp only [hservice, hid, hnoise, hstart, Dialogue.Prog.ok_bind,
    Peer.exchange_write hthree (hwrite 2) hlen]
  refine .write true ?_
  simp only [accept, if_true, Dialogue.Prog.ok_bind, Peer.exchange_read htwo]
  refine .read _ ?_
  simp only [context, hread, orFault, Dialogue.Prog.ok_bind,
    Peer.exchange_write hone (hwrite 0) hlen]
  refine .write true ?_
  simp only [accept, if_true, Dialogue.Prog.ok_bind, Peer.exchange_finished hfinished,
    Dialogue.Prog.pure_eq, Peer.intoTransportMode_ok hfinished, Peer.writeTransport_eq
      hencrypt hcipher]
  refine .write true ?_
  simp only [if_true, Dialogue.Prog.ok_bind, Peer.readTransport_bind]
  refine .read _ ?_
  simp only [hdecrypt, orFault, Dialogue.Prog.ok_bind, decide_true, ensure_true]
  exact .done

end Sample

open Sample in
theorem contexts_separate_web :
    (∃ state, Returns ((checking 1).tcpClient 3 client (4 : UInt64).toNat)
      [some (tcpHeader 1), some (prologue 1 (tcpContext 1 4)),
        some (okReply ++ List.replicate 16 0)]
      (state, { localAddr := some "127.0.0.1:8080" })) ∧
    ∃ id : UInt16, tcpHeader 1 = tcpHeader id ∧ Purpose.tcp 1 4 = .tcp id 4 := by
  obtain ⟨-, -, hclient⟩ := contexts_separate (σ := Nat × Bytes) (τ := Nat × Bytes)
    (fun conn => (checking conn).exporter) (by
      intro conn conn' ctx binding h h'
      have heq := congrArg Subtype.val (Option.some.inj (h.trans h'.symm))
      exact (List.replicate_right_injective (by decide : (32 : Nat) ≠ 0)) heq)
  obtain ⟨state, hreturns⟩ := checking_returns 1 4
  refine ⟨⟨state, hreturns⟩, ?_⟩
  obtain ⟨id, hheader, -, -, hpurpose⟩ :=
    hclient 1 (checking 1) ⟨1, .tcp 1 4, checking 1, server⟩ client 4 3
    _ _ _ state _ rfl rfl (checking_builder 1 (tcpContext 1 4)) (checking_completes 1 _ _) hreturns
  exact ⟨id, Option.some.inj hheader, hpurpose⟩

end Cathole
