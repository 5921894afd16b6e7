import Cathole.Fault
import Cathole.Lib.Table
import Cathole.Lib.Words
import Mathlib.Data.String.Basic

/-!
# Configuration

`config.rs`: the two sides of a configuration file and the checks a file has to
pass. `BTreeMap` iterates in the order of its keys, so the services of a side are
an `OrderedMap`. The TOML and base64 libraries are the parameters `toml` and
`decode`; a TOML error is the byte range it names. What a path is depends on the
platform, so the functions of `std::path` are a parameter too.

`Side.Accepted` says everything a side that passed the checks is known to have.

Fields that no function here reads are left out: the remaining settings of the
compatibility sections.
-/

namespace Cathole

def pattern : String := "Noise_NK_25519_ChaChaPoly_BLAKE2s"

inductive Kind
  | tcp
  | udp
  deriving DecidableEq, Repr

structure Service where
  kind : Kind := .tcp
  token : Option String := none
  bindAddr : Option String := none
  localAddr : Option String := none
  preferIpv6 : Bool := false
  retryInterval : Option UInt64 := none
  deriving DecidableEq, Repr

structure TcpCompat where
  proxy : Option String := none
  deriving DecidableEq, Repr

structure Noise where
  pattern : String := Cathole.pattern
  localPrivateKey : Option String := none
  remotePublicKey : Option String := none
  deriving DecidableEq, Repr

structure Quic where
  certificate : Option String := none
  privateKey : Option String := none
  trustedRoot : Option String := none
  hostname : String := "cathole"
  keepAliveInterval : UInt64 := 15
  maxIdleTimeout : UInt64 := 60
  udpIdleTimeout : UInt64 := 60
  maxConnections : UInt64 := 128
  maxStreams : UInt32 := 256
  maxUdpFlows : UInt64 := 4096
  streamReceiveWindow : UInt32 := 16 * 1024 * 1024
  receiveWindow : UInt32 := 32 * 1024 * 1024
  sendWindow : UInt32 := 32 * 1024 * 1024
  socketBuffer : UInt64 := 4 * 1024 * 1024
  deriving DecidableEq, Repr

structure Transport where
  kind : String := "quic"
  tcp : TcpCompat := {}
  noise : Noise := {}
  quic : Quic := {}
  deriving DecidableEq, Repr

structure Side where
  bindAddr : Option String := none
  remoteAddr : Option String := none
  defaultToken : Option String := none
  preferIpv6 : Bool := false
  heartbeatTimeout : UInt64 := 40
  heartbeatInterval : UInt64 := 30
  retryInterval : UInt64 := 1
  transport : Transport := {}
  services : OrderedMap String Service
  deriving DecidableEq

structure Config where
  server : Option Side
  client : Option Side
  deriving DecidableEq

namespace Side

def token (s : Side) (service : Service) : String :=
  (service.token.or s.defaultToken).getD ""

def serviceRetry (s : Side) (service : Service) : UInt64 :=
  service.retryInterval.getD s.retryInterval

end Side

section

variable (decode : String → Option Bytes)

def Config.key (value : Option String) : Except Fault Bytes := do
  let value ← context value "missing Noise key"
  let bytes ← orFault (decode value) .base64
  ensure (bytes.length == 32) "Noise X25519 key must decode to 32 bytes"
  pure bytes

/-- `pattern.split('_').nth(1)`. -/
def Noise.handshake (noise : Noise) : Option String :=
  ((noise.pattern.toList.splitOn '_').map String.ofList)[1]?

def validateNoise (noise : Noise) (server pinnedTls : Bool) : Except Fault Unit := do
  ensure (["Noise_NK_25519_ChaChaPoly_BLAKE2s", "Noise_KK_25519_ChaChaPoly_BLAKE2s",
      "Noise_XX_25519_ChaChaPoly_BLAKE2s"].contains noise.pattern)
    "supported Noise patterns are NK, KK, and XX with 25519/ChaChaPoly/BLAKE2s"
  match noise.handshake with
  | some "NK" =>
    if server then
      let _ ← Config.key decode noise.localPrivateKey
    else
      let _ ← Config.key decode noise.remotePublicKey
  | some "KK" =>
    let _ ← Config.key decode noise.localPrivateKey
    let _ ← Config.key decode noise.remotePublicKey
  | some "XX" => ensure pinnedTls "Noise XX requires QUIC certificate authentication"
  | _ => .error .panic

/-- The body of the loop over the services in `validate_side`. -/
def validateService (s : Side) (server : Bool) (name : String) (service : Service) :
    Except Fault Unit := do
  ensure (name.utf8ByteSize != 0 && name.utf8ByteSize ≤ 128) "service name length must be 1..128"
  ensure ((s.token service).utf8ByteSize != 0 && (s.token service).utf8ByteSize ≤ 512)
    ("service " ++ name ++ " requires a token of 1..512 bytes")
  ensure (service.retryInterval.getD s.retryInterval ≤ 86400)
    ("service " ++ name ++ " retry_interval out of range")
  ensure (!(server && (service.bindAddr.isNone || service.localAddr.isSome)))
    ("server service " ++ name ++ " requires bind_addr only")
  ensure (!(!server && (service.localAddr.isNone || service.bindAddr.isSome)))
    ("client service " ++ name ++ " requires local_addr only")

/-- The tunnel address and the identity files a role needs. -/
def validateAddresses (s : Side) (server : Bool) : Except Fault Unit :=
  let q := s.transport.quic
  if server then do
    ensure (s.bindAddr.isSome && s.remoteAddr.isNone) "server requires bind_addr only"
    ensure (q.certificate.isSome == q.privateKey.isSome)
      "provide both QUIC certificate and private_key, or neither in Noise mode"
  else ensure (s.remoteAddr.isSome && s.bindAddr.isNone) "client requires remote_addr only"

/-- The heartbeat of a side takes the place of one QUIC setting. -/
def Side.withHeartbeat (s : Side) (server : Bool) : Side :=
  let q := s.transport.quic
  { s with
    transport :=
      { s.transport with
        quic :=
          if server then { q with keepAliveInterval := s.heartbeatInterval }
          else { q with maxIdleTimeout := s.heartbeatTimeout } } }

def validateSide (s : Side) (server : Bool) : Except Fault Side := do
  ensure (["noise", "quic"].contains s.transport.kind)
    "Cathole always transports over QUIC/UDP; use transport.type = noise or quic"
  ensure s.transport.tcp.proxy.isNone "HTTP/SOCKS TCP proxy settings cannot carry the UDP tunnel"
  let s := s.withHeartbeat server
  let q := s.transport.quic
  ensure (65536 ≤ q.streamReceiveWindow && q.streamReceiveWindow ≤ 268435456 &&
      (q.streamReceiveWindow ≤ q.receiveWindow && q.receiveWindow ≤ 536870912) &&
      (65536 ≤ q.sendWindow && q.sendWindow ≤ 536870912) &&
      (65536 ≤ q.socketBuffer && q.socketBuffer ≤ 16777216))
    "flow-control or socket buffer limits out of range"
  ensure (q.keepAliveInterval ≤ 86400 && q.maxIdleTimeout ≤ 86400 &&
      (1 ≤ q.udpIdleTimeout && q.udpIdleTimeout ≤ 86400))
    "timeouts out of range"
  ensure ((1 ≤ q.maxConnections && q.maxConnections ≤ 4096) &&
      (1 ≤ q.maxStreams && q.maxStreams ≤ 4096) &&
      (1 ≤ q.maxUdpFlows && q.maxUdpFlows ≤ 65536))
    "resource limits out of range"
  ensure (s.services.size != 0 && s.services.size ≤ 256) "configure 1..256 services"
  validateAddresses s server
  let pinnedTls := if server then q.certificate.isSome else q.trustedRoot.isSome
  validateNoise decode s.transport.noise server pinnedTls
  ensure (s.retryInterval ≤ 86400) "retry_interval out of range"
  s.services.entries.forM fun (name, service) => validateService s server name service
  pure s

namespace Config

/-- `Config::parse`. The two sides are checked and returned with their
heartbeat settings applied. -/
def parse (toml : String → Except String Config) (text : String) : Except Fault Config := do
  let c ← (toml text).mapError fun span =>
    .message ("invalid TOML or unsupported field at byte range " ++ span)
  ensure (c.server.isSome || c.client.isSome) "configure [server], [client], or both"
  let server ← c.server.mapM (validateSide decode · true)
  let client ← c.client.mapM (validateSide decode · false)
  pure { server, client }

end Config

-- ---------------------------------------------------------------------------
-- Files and roles
-- ---------------------------------------------------------------------------

/-- `std::path` on one platform. -/
structure Paths where
  parent : String → Option String
  isRelative : String → Bool
  join : String → String → String

def Quic.relativeTo (paths : Paths) (dir : String) (q : Quic) : Quic :=
  let rewrite := fun p => if paths.isRelative p then paths.join dir p else p
  { q with
    certificate := q.certificate.map rewrite
    privateKey := q.privateKey.map rewrite
    trustedRoot := q.trustedRoot.map rewrite }

def Side.relativeTo (paths : Paths) (dir : String) (s : Side) : Side :=
  { s with transport := { s.transport with quic := s.transport.quic.relativeTo paths dir } }

namespace Config

/-- `fs::read_to_string`, given what the file holds when it is read. -/
def readToString (content : Option Bytes) : Except Fault String := do
  let bytes ← orFault content .io
  orFault (String.fromUTF8? ⟨bytes.toArray⟩) .io

/-- `Config::read`, given what the file holds when it is read. -/
def read (toml : String → Except String Config) (paths : Paths) (path : String)
    (content : Option Bytes) : Except Fault Config := do
  let text ← readToString content
  let c ← parse decode toml text
  let dir := (paths.parent path).getD "."
  pure
    { server := c.server.map (·.relativeTo paths dir)
      client := c.client.map (·.relativeTo paths dir) }

def select (server : Bool) (c : Config) : Except Fault Config :=
  if server then do
    ensure c.server.isSome "--server requires [server]"
    pure { c with client := none }
  else do
    ensure c.client.isSome "--client requires [client]"
    pure { c with server := none }

end Config

-- ---------------------------------------------------------------------------
-- What an accepted side is known to have
-- ---------------------------------------------------------------------------

/-- The side authenticates its peer, or is authenticated, by a certificate. -/
def Side.pinnedTls (s : Side) (server : Bool) : Bool :=
  if server then s.transport.quic.certificate.isSome else s.transport.quic.trustedRoot.isSome

structure Side.Accepted (server : Bool) (s : Side) : Prop where
  keepAlive : server = true → s.transport.quic.keepAliveInterval = s.heartbeatInterval
  maxIdle : server = false → s.transport.quic.maxIdleTimeout = s.heartbeatTimeout
  timeouts : s.transport.quic.keepAliveInterval ≤ 86400 ∧ s.transport.quic.maxIdleTimeout ≤ 86400 ∧
    1 ≤ s.transport.quic.udpIdleTimeout ∧ s.transport.quic.udpIdleTimeout ≤ 86400
  connections : 1 ≤ s.transport.quic.maxConnections ∧ s.transport.quic.maxConnections ≤ 4096
  streams : 1 ≤ s.transport.quic.maxStreams ∧ s.transport.quic.maxStreams ≤ 4096
  flows : 1 ≤ s.transport.quic.maxUdpFlows ∧ s.transport.quic.maxUdpFlows ≤ 65536
  some_service : s.services.size ≠ 0
  size : s.services.size ≤ 256
  addresses : validateAddresses s server = .ok ()
  noise : validateNoise decode s.transport.noise server (s.pinnedTls server) = .ok ()
  retry : s.retryInterval ≤ 86400
  service : ∀ e ∈ s.services.entries, validateService s server e.1 e.2 = .ok ()

structure Config.Accepted (c : Config) : Prop where
  some_side : c.server.isSome || c.client.isSome
  server : ∀ s, c.server = some s → s.Accepted decode true
  client : ∀ s, c.client = some s → s.Accepted decode false

variable {decode} {s side : Side} {server : Bool}

theorem validateSide_accepted (h : validateSide decode s server = .ok side) :
    side.Accepted decode server := by
  simp only [validateSide, bind_eq_ok, pure_eq_ok, ensure_eq_ok] at h
  obtain ⟨_, -, _, -, _, -, _, htimeouts, _, hlimits, _, hsize, _, haddr, _, hnoise, _, hretry, ⟨⟩,
    hservices, rfl⟩ := h
  simp only [Bool.and_eq_true, decide_eq_true_eq, bne_iff_ne] at htimeouts hlimits hsize hretry
  exact
    { keepAlive := by
        rintro rfl
        rfl
      maxIdle := by
        rintro rfl
        rfl
      timeouts := ⟨htimeouts.1.1, htimeouts.1.2, htimeouts.2⟩
      connections := hlimits.1.1
      streams := hlimits.1.2
      flows := hlimits.2
      some_service := hsize.1
      size := hsize.2
      addresses := haddr
      noise := hnoise
      retry := hretry
      service := forM_eq_ok.mp hservices }

theorem validateSide_ok (h : validateSide decode s server = .ok side) :
    side.services.size ≤ 256 ∧
      ∀ e ∈ side.services.entries, validateService side server e.1 e.2 = .ok () :=
  ⟨(validateSide_accepted h).size, (validateSide_accepted h).service⟩

theorem validateService_server (h : validateService s true name service = .ok ()) :
    ∃ addr, service.bindAddr = some addr := by
  simp only [validateService, bind_eq_ok, ensure_eq_ok] at h
  obtain ⟨_, -, _, -, _, -, _, haddr, -⟩ := h
  cases hb : service.bindAddr with
  | none => simp [hb] at haddr
  | some addr => exact ⟨addr, rfl⟩

theorem validateService_client (h : validateService s false name service = .ok ()) :
    ∃ addr, service.localAddr = some addr := by
  simp only [validateService, bind_eq_ok, ensure_eq_ok] at h
  obtain ⟨_, -, _, -, _, -, _, -, haddr⟩ := h
  cases hl : service.localAddr with
  | none => simp [hl] at haddr
  | some addr => exact ⟨addr, rfl⟩

theorem mapM_eq_ok {f : Side → Except Fault Side} {x : Option Side}
    (h : x.mapM f = .ok (some side)) :
    ∃ raw, f raw = .ok side := by
  cases x with
  | none => cases h
  | some raw =>
    obtain ⟨side', hraw, hsome⟩ := bind_eq_ok.mp h
    cases hsome
    exact ⟨raw, hraw⟩

theorem mapM_isSome {f : Side → Except Fault Side} {x y : Option Side} (h : x.mapM f = .ok y) :
    y.isSome = x.isSome := by
  cases x with
  | none =>
    cases h
    rfl
  | some raw =>
    obtain ⟨side, -, hsome⟩ := bind_eq_ok.mp h
    cases hsome
    rfl

theorem parse_ok (h : Config.parse decode toml text = .ok c) :
    (∀ side, c.server = some side → ∃ raw, validateSide decode raw true = .ok side) ∧
      ∀ side, c.client = some side → ∃ raw, validateSide decode raw false = .ok side := by
  simp only [Config.parse, bind_eq_ok, pure_eq_ok] at h
  obtain ⟨_, -, _, -, server, hserver, client, hclient, rfl⟩ := h
  constructor
  · rintro side rfl
    exact mapM_eq_ok hserver
  · rintro side rfl
    exact mapM_eq_ok hclient

theorem readToString_toUTF8 (text : String) :
    Config.readToString (some text.toUTF8.data.toList) = .ok text := by
  have hvalid : String.fromUTF8? text.toUTF8 = some text := dif_pos text.isValidUTF8
  change orFault (String.fromUTF8? text.toUTF8) .io = .ok text
  rw [hvalid]
  rfl

theorem parse_accepted (h : Config.parse decode toml text = .ok c) : c.Accepted decode := by
  obtain ⟨hserver, hclient⟩ := parse_ok h
  refine ⟨?_, ?_, ?_⟩
  · simp only [Config.parse, bind_eq_ok, pure_eq_ok, ensure_eq_ok] at h
    obtain ⟨raw, -, _, hside, server, hs, client, hc, rfl⟩ := h
    rw [← mapM_isSome hs, ← mapM_isSome hc] at hside
    exact hside
  · intro side hside
    obtain ⟨raw, hraw⟩ := hserver side hside
    exact validateSide_accepted hraw
  · intro side hside
    obtain ⟨raw, hraw⟩ := hclient side hside
    exact validateSide_accepted hraw

theorem Side.Accepted.relativeTo (h : side.Accepted decode server) (paths : Paths) (dir : String) :
    (side.relativeTo paths dir).Accepted decode server where
  keepAlive := h.keepAlive
  maxIdle := h.maxIdle
  timeouts := h.timeouts
  connections := h.connections
  streams := h.streams
  flows := h.flows
  some_service := h.some_service
  size := h.size
  addresses := by
    have haddr := h.addresses
    simpa [validateAddresses, Side.relativeTo, Quic.relativeTo] using haddr
  noise := by
    have hpinned : (side.relativeTo paths dir).pinnedTls server = side.pinnedTls server := by
      simp [Side.pinnedTls, Side.relativeTo, Quic.relativeTo]
    rw [hpinned]
    exact h.noise
  retry := h.retry
  service := h.service

theorem read_accepted (h : Config.read decode toml paths path content = .ok c) :
    c.Accepted decode := by
  simp only [Config.read, bind_eq_ok, pure_eq_ok] at h
  obtain ⟨text, -, c', hparse, rfl⟩ := h
  have hc := parse_accepted hparse
  refine ⟨?_, ?_, ?_⟩
  · simpa using hc.some_side
  · intro side hside
    obtain ⟨raw, hraw, rfl⟩ := Option.map_eq_some_iff.mp hside
    exact (hc.server raw hraw).relativeTo paths _
  · intro side hside
    obtain ⟨raw, hraw, rfl⟩ := Option.map_eq_some_iff.mp hside
    exact (hc.client raw hraw).relativeTo paths _

def Config.forRole (server : Bool) (c : Config) : Option Side :=
  if server then c.server else c.client

theorem select_ok (h : Config.select server c = .ok c') :
    ∃ side, c.forRole server = some side ∧ c'.forRole server = some side ∧
      c'.forRole (!server) = none := by
  cases server with
  | true =>
    simp only [Config.select, ↓reduceIte, bind_eq_ok, ensure_eq_ok, pure_eq_ok] at h
    obtain ⟨_, hsome, rfl⟩ := h
    obtain ⟨side, hside⟩ := Option.isSome_iff_exists.mp hsome
    exact ⟨side, hside, hside, rfl⟩
  | false =>
    simp only [Config.select, Bool.false_eq_true, ↓reduceIte, bind_eq_ok, ensure_eq_ok,
      pure_eq_ok] at h
    obtain ⟨_, hsome, rfl⟩ := h
    obtain ⟨side, hside⟩ := Option.isSome_iff_exists.mp hsome
    exact ⟨side, hside, hside, rfl⟩

theorem Config.Accepted.forRole (h : c.Accepted decode) (hside : Config.forRole server c = some s) :
    s.Accepted decode server := by
  cases server with
  | true => exact h.server s hside
  | false => exact h.client s hside

-- ---------------------------------------------------------------------------
-- The Noise settings
-- ---------------------------------------------------------------------------

namespace Noise

def nk : String := "Noise_NK_25519_ChaChaPoly_BLAKE2s"
def kk : String := "Noise_KK_25519_ChaChaPoly_BLAKE2s"
def xx : String := "Noise_XX_25519_ChaChaPoly_BLAKE2s"

theorem handshake_nk (h : noise.pattern = nk) : handshake noise = some "NK" := by
  rw [handshake, h]
  decide +kernel

theorem handshake_kk (h : noise.pattern = kk) : handshake noise = some "KK" := by
  rw [handshake, h]
  decide +kernel

theorem handshake_xx (h : noise.pattern = xx) : handshake noise = some "XX" := by
  rw [handshake, h]
  decide +kernel

end Noise

theorem validateNoise_ok {noise : Noise}
    (h : validateNoise decode noise server pinnedTls = .ok ()) :
    (noise.pattern = Noise.nk ∧
      (server = true → ∃ k, Config.key decode noise.localPrivateKey = .ok k) ∧
      (server = false → ∃ k, Config.key decode noise.remotePublicKey = .ok k)) ∨
    (noise.pattern = Noise.kk ∧ (∃ k, Config.key decode noise.localPrivateKey = .ok k) ∧
      ∃ k, Config.key decode noise.remotePublicKey = .ok k) ∨
    (noise.pattern = Noise.xx ∧ pinnedTls = true) := by
  simp only [validateNoise, bind_eq_ok, ensure_eq_ok] at h
  obtain ⟨_, hpattern, h⟩ := h
  simp only [List.contains_cons, List.contains_nil, Bool.or_false, Bool.or_eq_true,
    beq_iff_eq] at hpattern
  rcases hpattern with hnk | hkk | hxx
  · rw [Noise.handshake_nk hnk] at h
    refine .inl ⟨hnk, ?_, ?_⟩
    · rintro rfl
      obtain ⟨k, hk, -⟩ := bind_eq_ok.mp h
      exact ⟨k, hk⟩
    · rintro rfl
      obtain ⟨k, hk, -⟩ := bind_eq_ok.mp h
      exact ⟨k, hk⟩
  · rw [Noise.handshake_kk hkk] at h
    obtain ⟨k, hk, h⟩ := bind_eq_ok.mp h
    obtain ⟨k', hk', -⟩ := bind_eq_ok.mp h
    exact .inr (.inl ⟨hkk, ⟨k, hk⟩, k', hk'⟩)
  · rw [Noise.handshake_xx hxx] at h
    exact .inr (.inr ⟨hxx, ensure_eq_ok.mp h⟩)

theorem key_ok : Config.key decode value = .ok k ↔
    ∃ text, value = some text ∧ decode text = some k ∧ k.length = 32 := by
  simp only [Config.key, bind_eq_ok, context_eq_ok, orFault_eq_ok, ensure_eq_ok, pure_eq_ok]
  constructor
  · rintro ⟨text, htext, bytes, hbytes, _, hlen, rfl⟩
    exact ⟨text, htext, hbytes, by simpa using hlen⟩
  · rintro ⟨text, htext, hbytes, hlen⟩
    exact ⟨text, htext, k, hbytes, (), by simpa using hlen, rfl⟩

-- ---------------------------------------------------------------------------
-- Reading a configuration does not panic
-- ---------------------------------------------------------------------------

theorem key_safe (value : Option String) : Safe (Config.key decode value) := by
  refine Safe.bind (safe_context _ _) fun text _ => ?_
  refine Safe.bind (safe_orFault _ (by decide)) fun bytes _ => ?_
  exact Safe.bind (safe_ensure _ _) fun _ _ => safe_pure _

/-- The patterns that pass the first check are the ones the match knows. -/
theorem validateNoise_safe (noise : Noise) (server pinnedTls : Bool) :
    Safe (validateNoise decode noise server pinnedTls) := by
  refine Safe.bind (safe_ensure _ _) fun _ hpattern => ?_
  simp only [ensure_eq_ok, List.contains_cons, List.contains_nil, Bool.or_false, Bool.or_eq_true,
    beq_iff_eq] at hpattern
  rcases hpattern with hnk | hkk | hxx
  · rw [Noise.handshake_nk hnk]
    cases server with
    | true => exact Safe.bind (key_safe _) fun _ _ => safe_pure _
    | false => exact Safe.bind (key_safe _) fun _ _ => safe_pure _
  · rw [Noise.handshake_kk hkk]
    exact Safe.bind (key_safe _) fun _ _ => Safe.bind (key_safe _) fun _ _ => safe_pure _
  · rw [Noise.handshake_xx hxx]
    exact safe_ensure _ _

theorem validateService_safe (s : Side) (server : Bool) (name : String) (service : Service) :
    Safe (validateService s server name service) := by
  refine Safe.bind (safe_ensure _ _) fun _ _ => ?_
  refine Safe.bind (safe_ensure _ _) fun _ _ => ?_
  refine Safe.bind (safe_ensure _ _) fun _ _ => ?_
  exact Safe.bind (safe_ensure _ _) fun _ _ => safe_ensure _ _

theorem validateAddresses_safe (s : Side) (server : Bool) : Safe (validateAddresses s server) := by
  cases server with
  | true => exact Safe.bind (safe_ensure _ _) fun _ _ => safe_ensure _ _
  | false => exact safe_ensure _ _

theorem validateSide_safe (s : Side) (server : Bool) : Safe (validateSide decode s server) := by
  refine Safe.bind (safe_ensure _ _) fun _ _ => ?_
  refine Safe.bind (safe_ensure _ _) fun _ _ => ?_
  refine Safe.bind (safe_ensure _ _) fun _ _ => ?_
  refine Safe.bind (safe_ensure _ _) fun _ _ => ?_
  refine Safe.bind (safe_ensure _ _) fun _ _ => ?_
  refine Safe.bind (safe_ensure _ _) fun _ _ => ?_
  refine Safe.bind (validateAddresses_safe _ _) fun _ _ => ?_
  refine Safe.bind (validateNoise_safe _ _ _) fun _ _ => ?_
  refine Safe.bind (safe_ensure _ _) fun _ _ => ?_
  refine Safe.bind (safe_forM fun e _ => validateService_safe _ _ e.1 e.2) fun _ _ => ?_
  exact safe_pure _

theorem safe_mapM {f : Side → Except Fault Side} (hf : ∀ s, Safe (f s)) (x : Option Side) :
    Safe (x.mapM f) := by
  cases x with
  | none => exact safe_pure none
  | some s => exact Safe.bind (hf s) fun side _ => safe_pure _

theorem parse_safe (toml : String → Except String Config) (text : String) :
    Safe (Config.parse decode toml text) := by
  refine Safe.bind ?_ fun c _ => ?_
  · cases toml text with
    | error span =>
      intro h
      cases h
    | ok c => exact safe_ok c
  refine Safe.bind (safe_ensure _ _) fun _ _ => ?_
  refine Safe.bind (safe_mapM (fun s => validateSide_safe s true) _) fun _ _ => ?_
  exact Safe.bind (safe_mapM (fun s => validateSide_safe s false) _) fun _ _ => safe_pure _

theorem read_safe (toml : String → Except String Config) (paths : Paths) (path : String)
    (content : Option Bytes) : Safe (Config.read decode toml paths path content) := by
  refine Safe.bind ?_ fun text _ => ?_
  · refine Safe.bind (safe_orFault _ (by decide)) fun _ _ => ?_
    exact safe_orFault _ (by decide)
  · exact Safe.bind (parse_safe toml text) fun _ _ => safe_pure _

theorem select_safe (server : Bool) (c : Config) : Safe (c.select server) := by
  cases server with
  | true => exact Safe.bind (safe_ensure _ _) fun _ _ => safe_pure _
  | false => exact Safe.bind (safe_ensure _ _) fun _ _ => safe_pure _

end

end Cathole
