import Cathole.Address
import Cathole.Crypto.Handshake

/-!
# The QUIC endpoints

`transport.rs`: the settings of the QUIC transport and the outer TLS of the two
roles. A server presents the configured certificate or one it makes up, and a
client trusts the configured root or leaves authentication to Noise. Files,
sockets, `rustls`, `rcgen` and the conversions of `quinn` are a `Host`.

`peer_authenticated` puts validation, the outer TLS and the Noise handshake
together: an accepted client never runs with both layers deferring to the other.
-/

namespace Cathole

/-- What the libraries and the system answer. -/
structure Host where
  read : String → Option Bytes
  -- `rcgen::generate_simple_self_signed`: a certificate and its key.
  selfSigned : String → Option (Bytes × Bytes)
  -- `RootCertStore::add`.
  takesRoot : Bytes → Bool
  -- `with_single_cert` and `QuicServerConfig::try_from`.
  takesIdentity : Bytes → Bytes → Bool
  -- `QuicClientConfig::try_from`.
  takesClient : Bool
  -- The idle timeout of a number of milliseconds.
  idleTimeout : Nat → Option Nat
  -- `socket` and `Endpoint::new`, with the buffer size to ask for.
  bind : SocketAddr → UInt64 → Bool

structure TransportConfig where
  -- Seconds, absent when zero was configured.
  keepAliveInterval : Option Nat
  maxIdleTimeout : Option Nat
  maxConcurrentBidiStreams : UInt32
  maxConcurrentUniStreams : UInt32
  streamReceiveWindow : UInt32
  receiveWindow : UInt32
  sendWindow : UInt32
  datagramReceiveBufferSize : Option Nat
  datagramSendBufferSize : Nat
  deriving DecidableEq, Repr

inductive Verifier
  -- Chains to a root of this store.
  | roots (store : List Bytes)
  -- Accepts any certificate.
  | noiseAuthenticatedOuterTls
  deriving DecidableEq, Repr

structure ServerEndpoint where
  certificate : Bytes
  key : Bytes
  alpnProtocols : List String
  config : TransportConfig
  addr : SocketAddr
  deriving DecidableEq, Repr

structure ClientEndpoint where
  verifier : Verifier
  alpnProtocols : List String
  config : TransportConfig
  addr : SocketAddr
  deriving DecidableEq, Repr

namespace Transport

def idle (host : Host) (q : Quic) : Except Fault (Option Nat) :=
  if q.maxIdleTimeout > 0 then do
    let timeout ← orFault (host.idleTimeout (q.maxIdleTimeout.toNat * 1000)) .stream
    pure (some timeout)
  else pure none

def transport (host : Host) (q : Quic) : Except Fault TransportConfig := do
  let maxIdleTimeout ← idle host q
  let maxConcurrentBidiStreams ← Checked.addU32 q.maxStreams 1
  pure
    { keepAliveInterval := if q.keepAliveInterval > 0 then some q.keepAliveInterval.toNat else none
      maxIdleTimeout
      maxConcurrentBidiStreams
      maxConcurrentUniStreams := 0
      streamReceiveWindow := q.streamReceiveWindow
      receiveWindow := q.receiveWindow
      sendWindow := q.sendWindow
      datagramReceiveBufferSize := some (1024 * 1024)
      datagramSendBufferSize := 1024 * 1024 }

def identity (host : Host) (q : Quic) : Except Fault (Bytes × Bytes) :=
  match q.certificate, q.privateKey with
  | some certificate, some privateKey => do
    let certificate ← orFault (host.read certificate) .io
    let key ← orFault (host.read privateKey) .io
    pure (certificate, key)
  | _, _ => orFault (host.selfSigned q.hostname) .tls

def server (host : Host) (addr : SocketAddr) (q : Quic) : Except Fault ServerEndpoint := do
  let (certificate, key) ← identity host q
  accept (host.takesIdentity certificate key) .tls
  let config ← transport host q
  accept (host.bind addr q.socketBuffer) .io
  pure { certificate, key, alpnProtocols := ["cathole/1"], config, addr }

def verifier (host : Host) (q : Quic) : Except Fault Verifier :=
  match q.trustedRoot with
  | some root => do
    let certificate ← orFault (host.read root) .io
    accept (host.takesRoot certificate) .tls
    pure (.roots [certificate])
  | none => pure .noiseAuthenticatedOuterTls

def client (host : Host) (addr : SocketAddr) (q : Quic) : Except Fault ClientEndpoint := do
  let verifier ← verifier host q
  accept host.takesClient .tls
  let config ← transport host q
  accept (host.bind addr q.socketBuffer) .io
  pure { verifier, alpnProtocols := ["cathole/1"], config, addr }

end Transport

-- ---------------------------------------------------------------------------
-- Who authenticates the peer
-- ---------------------------------------------------------------------------

section

variable {host : Host} {q : Quic} {decode : String → Option Bytes}

theorem verifier_noise (h : Transport.verifier host q = .ok .noiseAuthenticatedOuterTls) :
    q.trustedRoot = none := by
  unfold Transport.verifier at h
  cases hroot : q.trustedRoot with
  | none => rfl
  | some root =>
    simp only [hroot, bind_eq_ok, pure_eq_ok] at h
    obtain ⟨_, -, _, -, ⟨⟩⟩ := h

theorem verifier_root (hroot : q.trustedRoot = some root) (h : Transport.verifier host q = .ok v) :
    ∃ certificate, host.read root = some certificate ∧ v = .roots [certificate] := by
  simp only [Transport.verifier, hroot, bind_eq_ok, pure_eq_ok, orFault_eq_ok] at h
  obtain ⟨certificate, hread, _, -, rfl⟩ := h
  exact ⟨certificate, hread, rfl⟩

theorem clientEndpoint_ok (h : Transport.client host addr q = .ok endpoint) :
    Transport.verifier host q = .ok endpoint.verifier := by
  simp only [Transport.client, bind_eq_ok, pure_eq_ok] at h
  obtain ⟨verifier, hverifier, _, -, _, -, _, -, rfl⟩ := h
  exact hverifier

theorem serverEndpoint_ok (h : Transport.server host addr q = .ok endpoint) :
    Transport.identity host q = .ok (endpoint.certificate, endpoint.key) := by
  simp only [Transport.server, bind_eq_ok, pure_eq_ok] at h
  obtain ⟨⟨certificate, key⟩, hidentity, _, -, _, -, _, -, rfl⟩ := h
  exact hidentity

/-- A client without a trust root has a pattern that authenticates the server,
and configures the key it does it with. -/
theorem Side.Accepted.remote_key (h : Side.Accepted decode false side)
    (hroot : side.transport.quic.trustedRoot = none) :
    side.transport.noise.pattern ∈ [Noise.nk, Noise.kk] ∧
      ∃ text k, side.transport.noise.remotePublicKey = some text ∧ decode text = some k ∧
        k.length = 32 := by
  rcases validateNoise_ok h.noise with ⟨hnk, -, hremote⟩ | ⟨hkk, -, hremote⟩ | ⟨-, hpinned⟩
  · obtain ⟨k, hk⟩ := hremote rfl
    obtain ⟨text, htext, hdecode, hlen⟩ := key_ok.mp hk
    exact ⟨by simp [hnk], text, k, htext, hdecode, hlen⟩
  · obtain ⟨k, hk⟩ := hremote
    obtain ⟨text, htext, hdecode, hlen⟩ := key_ok.mp hk
    exact ⟨by simp [hkk], text, k, htext, hdecode, hlen⟩
  · simp [Side.pinnedTls, hroot] at hpinned

/-- XX is accepted only with a certificate to check. -/
theorem Side.Accepted.xx_pinned (h : Side.Accepted decode server side)
    (hxx : side.transport.noise.pattern = Noise.xx) : side.pinnedTls server = true := by
  rcases validateNoise_ok h.noise with ⟨hnk, -⟩ | ⟨hkk, -⟩ | ⟨-, hpinned⟩
  · rw [hxx] at hnk
    exact absurd hnk (by decide)
  · rw [hxx] at hkk
    exact absurd hkk (by decide)
  · exact hpinned

theorem Side.Accepted.xx_identity (h : Side.Accepted decode true side)
    (hxx : side.transport.noise.pattern = Noise.xx)
    (hidentity : Transport.identity host side.transport.quic = .ok (certificate, key)) :
    ∃ certFile keyFile, side.transport.quic.certificate = some certFile ∧
      side.transport.quic.privateKey = some keyFile ∧ host.read certFile = some certificate ∧
      host.read keyFile = some key := by
  have hcert : side.transport.quic.certificate.isSome = true := h.xx_pinned hxx
  have haddr := h.addresses
  simp only [validateAddresses, ↓reduceIte, bind_eq_ok, ensure_eq_ok] at haddr
  obtain ⟨_, -, hboth⟩ := haddr
  rw [beq_iff_eq, hcert] at hboth
  obtain ⟨certFile, hcertFile⟩ := Option.isSome_iff_exists.mp hcert
  obtain ⟨keyFile, hkeyFile⟩ := Option.isSome_iff_exists.mp hboth.symm
  simp only [Transport.identity, hcertFile, hkeyFile, bind_eq_ok, pure_eq_ok,
    orFault_eq_ok] at hidentity
  obtain ⟨_, hreadCert, _, hreadKey, hpair⟩ := hidentity
  obtain ⟨rfl, rfl⟩ := Prod.mk.inj hpair
  exact ⟨certFile, keyFile, hcertFile, hkeyFile, hreadCert, hreadKey⟩

/-- No accepted configuration runs without peer authentication. A client that
leaves the certificate unchecked runs NK or KK with the configured key of the
server; an XX client trusts the configured root and no other; an XX server
presents the configured certificate. The file may have been parsed or read,
with its paths rewritten. -/
theorem peer_authenticated
    (hc : (∃ toml text, Config.parse decode toml text = .ok c) ∨
      ∃ toml paths path content, Config.read decode toml paths path content = .ok c)
    (host : Host) :
    (∀ side, c.client = some side →
      (∀ addr endpoint, Transport.client host addr side.transport.quic = .ok endpoint →
        Transport.verifier host side.transport.quic = .ok endpoint.verifier) ∧
      (Transport.verifier host side.transport.quic = .ok .noiseAuthenticatedOuterTls →
        side.transport.noise.pattern ∈ [Noise.nk, Noise.kk] ∧
          ∃ text k, side.transport.noise.remotePublicKey = some text ∧ decode text = some k ∧
            k.length = 32 ∧
            ∀ (σ : Type) (snow : Snow σ) exporter purpose b,
              handshakeBuilder snow decode exporter side.transport.noise purpose = .ok b →
              b.pattern = side.transport.noise.pattern ∧ b.remotePublicKey = some k) ∧
      (side.transport.noise.pattern = Noise.xx →
        ∃ root, side.transport.quic.trustedRoot = some root ∧
          ∀ verifier, Transport.verifier host side.transport.quic = .ok verifier →
            ∃ certificate, host.read root = some certificate ∧ verifier = .roots [certificate])) ∧
    ∀ side, c.server = some side → side.transport.noise.pattern = Noise.xx →
      ∀ addr endpoint, Transport.server host addr side.transport.quic = .ok endpoint →
        ∃ certFile keyFile, side.transport.quic.certificate = some certFile ∧
          side.transport.quic.privateKey = some keyFile ∧
          host.read certFile = some endpoint.certificate ∧
          host.read keyFile = some endpoint.key := by
  have haccepted : c.Accepted decode := by
    rcases hc with ⟨toml, text, hparse⟩ | ⟨toml, paths, path, content, hread⟩
    · exact parse_accepted hparse
    · exact read_accepted hread
  constructor
  · intro side hside
    have h := haccepted.client side hside
    refine ⟨fun addr endpoint hclient => clientEndpoint_ok hclient, ?_, ?_⟩
    · intro hverifier
      obtain ⟨hpattern, text, k, htext, hdecode, hlen⟩ := h.remote_key (verifier_noise hverifier)
      refine ⟨hpattern, text, k, htext, hdecode, hlen, ?_⟩
      intro σ snow exporter purpose b hb
      obtain ⟨hsame, -, hremote⟩ := handshakeBuilder_ok hb
      obtain ⟨k', hk', -, hgiven⟩ := Noise.remoteKey_some htext hremote
      rw [hdecode] at hk'
      cases hk'
      exact ⟨hsame, hgiven⟩
    · intro hxx
      obtain ⟨root, hroot⟩ := Option.isSome_iff_exists.mp (h.xx_pinned hxx)
      exact ⟨root, hroot, fun verifier hverifier => verifier_root hroot hverifier⟩
  · intro side hside hxx addr endpoint hserver
    exact (haccepted.server side hside).xx_identity hxx (serverEndpoint_ok hserver)

-- ---------------------------------------------------------------------------
-- An accepted side does not make them panic
-- ---------------------------------------------------------------------------

theorem transport_safe (h : Side.Accepted decode server side) :
    Safe (Transport.transport host side.transport.quic) := by
  have hstreams : side.transport.quic.maxStreams.toNat ≤ 4096 :=
    UInt32.le_iff_toNat_le.mp h.streams.2
  have hone : (1 : UInt32).toNat = 1 := rfl
  obtain ⟨streams, hadd, -⟩ :=
    Checked.addU32_of_lt (a := side.transport.quic.maxStreams) (b := 1) (by rw [hone]; omega)
  refine Safe.bind ?_ fun _ _ => ?_
  · unfold Transport.idle
    split
    · exact Safe.bind (safe_orFault _ (by decide)) fun _ _ => safe_pure _
    · exact safe_pure _
  · rw [hadd]
    exact safe_pure _

theorem serverEndpoint_safe (h : Side.Accepted decode server side) :
    Safe (Transport.server host addr side.transport.quic) := by
  refine Safe.bind ?_ fun _ _ => ?_
  · unfold Transport.identity
    split
    · refine Safe.bind (safe_orFault _ (by decide)) fun _ _ => ?_
      exact Safe.bind (safe_orFault _ (by decide)) fun _ _ => safe_pure _
    · exact safe_orFault _ (by decide)
  · refine Safe.bind (safe_accept _ (by decide)) fun _ _ => ?_
    refine Safe.bind (transport_safe h) fun _ _ => ?_
    exact Safe.bind (safe_accept _ (by decide)) fun _ _ => safe_pure _

theorem clientEndpoint_safe (h : Side.Accepted decode server side) :
    Safe (Transport.client host addr side.transport.quic) := by
  refine Safe.bind ?_ fun _ _ => ?_
  · unfold Transport.verifier
    split
    · refine Safe.bind (safe_orFault _ (by decide)) fun _ _ => ?_
      exact Safe.bind (safe_accept _ (by decide)) fun _ _ => safe_pure _
    · exact safe_pure _
  · refine Safe.bind (safe_accept _ (by decide)) fun _ _ => ?_
    refine Safe.bind (transport_safe h) fun _ _ => ?_
    exact Safe.bind (safe_accept _ (by decide)) fun _ _ => safe_pure _

end

namespace Sample

def host : Host where
  read path := if path = "/etc/root.der" then some [48, 130] else none
  selfSigned _ := some ([48, 131], [48, 132])
  takesRoot certificate := certificate == [48, 130]
  takesIdentity _ _ := true
  takesClient := true
  idleTimeout ms := if ms < 2 ^ 62 then some ms else none
  bind _ _ := true

end Sample

open Sample in
theorem peer_authenticated_nk :
    Config.parse base64 (fun _ => .ok ⟨none, some (nkClient zeroKey)⟩) "" =
        .ok ⟨none, some ((nkClient zeroKey).withHeartbeat false)⟩ ∧
      Transport.verifier host ((nkClient zeroKey).withHeartbeat false).transport.quic =
        .ok .noiseAuthenticatedOuterTls ∧
      ∃ b, handshakeBuilder snow base64 exporter
        ((nkClient zeroKey).withHeartbeat false).transport.noise
          [1] = .ok b ∧ b.remotePublicKey = some (List.replicate 32 0) := by
  have hparse : Config.parse base64 (fun _ => .ok ⟨none, some (nkClient zeroKey)⟩) "" =
      .ok ⟨none, some ((nkClient zeroKey).withHeartbeat false)⟩ := by
    decide +kernel
  have hverifier : Transport.verifier host ((nkClient zeroKey).withHeartbeat false).transport.quic =
      .ok .noiseAuthenticatedOuterTls := rfl
  have hauth := (peer_authenticated (.inl ⟨_, _, hparse⟩) host).1 _ rfl
  obtain ⟨-, text, k, ⟨⟩, hk, -, hgiven⟩ := hauth.2.1 hverifier
  obtain rfl : List.replicate 32 0 = k := Option.some.inj hk
  have hbuilder : ∃ b, handshakeBuilder snow base64 exporter
      ((nkClient zeroKey).withHeartbeat false).transport.noise [1] = .ok b :=
    ⟨⟨Noise.nk, Binding.prologue ⟨List.replicate 32 1, by simp⟩ [1], some (List.replicate 32 0),
      some (List.replicate 32 0)⟩, by decide +kernel⟩
  obtain ⟨b, hb⟩ := hbuilder
  exact ⟨hparse, hverifier, b, hb, (hgiven Builder snow exporter [1] b hb).2⟩

end Cathole
