import Cathole.Lib.Disk
import Cathole.Proxy.Readiness
import Cathole.Proxy.Run
import Cathole.Supervisor

/-!
# Fresh identities

`initialize` of `main.rs`, behind `--init`: a new directory with a certificate, its
key and an example configuration for either role. What it makes is random, and the
system may stop it at every step. The libraries are a `Toolbox`, the system is a
`Storage`; a path names an object of the disk by `locate`, and two spellings may
name the same one.

The two files it writes are read again by `Config::read`. `serverSide` and
`clientSide` are what they say.
-/

namespace Cathole

-- ---------------------------------------------------------------------------
-- The files
-- ---------------------------------------------------------------------------

def fileText (lines : List String) : String :=
  lines.foldr (fun line rest => line ++ "\n" ++ rest) ""

def quoted (text : String) : String := "\"" ++ text ++ "\""

def serverToml (token privateKey : String) : String :=
  fileText
    ["[server]",
      "bind_addr = \"127.0.0.1:2333\"",
      "default_token = " ++ quoted token,
      "",
      "[server.transport]",
      "type = \"quic\"",
      "[server.transport.noise]",
      "local_private_key = " ++ quoted privateKey,
      "[server.transport.quic]",
      "certificate = \"server.der\"",
      "private_key = \"server-key.der\"",
      "keep_alive_interval = 15",
      "max_idle_timeout = 60",
      "",
      "[server.services.echo]",
      "type = \"tcp\"",
      "bind_addr = \"127.0.0.1:5202\"",
      "[server.services.echo_udp]",
      "type = \"udp\"",
      "bind_addr = \"127.0.0.1:5202\""]

def clientToml (token publicKey : String) : String :=
  fileText
    ["[client]",
      "remote_addr = \"127.0.0.1:2333\"",
      "default_token = " ++ quoted token,
      "",
      "[client.transport]",
      "type = \"quic\"",
      "[client.transport.noise]",
      "remote_public_key = " ++ quoted publicKey,
      "[client.transport.quic]",
      "trusted_root = \"server.der\"",
      "hostname = \"cathole\"",
      "keep_alive_interval = 15",
      "max_idle_timeout = 60",
      "",
      "[client.services.echo]",
      "type = \"tcp\"",
      "local_addr = \"127.0.0.1:5201\"",
      "[client.services.echo_udp]",
      "type = \"udp\"",
      "local_addr = \"127.0.0.1:5201\""]

structure Keypair where
  privateKey : Bytes
  publicKey : Bytes
  deriving DecidableEq, Repr

/-- What the libraries return to one run of `initialize`. -/
structure Toolbox where
  -- `snow`: whether it knows a pattern, and a new key pair for it.
  parses : String → Bool
  generateKeypair : String → Option Keypair
  -- `rcgen::generate_simple_self_signed`: a certificate and its key.
  selfSigned : List String → Option (Bytes × Bytes)
  -- `rand::random`.
  random : Bytes
  -- `STANDARD.encode`.
  encode : Bytes → String

/-- What the system does during it. -/
structure Storage (κ : Type) where
  locate : String → κ
  makesDir : String → Bool
  permits : String → Permit
  unix : Bool

section

variable {κ : Type}

def Storage.mode (storage : Storage κ) : Option Nat := if storage.unix then some 0o600 else none

def Storage.read [DecidableEq κ] (storage : Storage κ) (d : Disk κ) (path : String) :
    Option Bytes :=
  match d.lookup (storage.locate path) with
  | some (.file _ bytes) => some bytes
  | _ => none

def create [DecidableEq κ] (storage : Storage κ) (path : String) (bytes : Bytes) :
    Job κ Fault Unit :=
  Job.createNew .io (storage.permits path) storage.mode (storage.locate path) bytes

/-- `initialize`. -/
def initializeDir [DecidableEq κ] (tools : Toolbox) (storage : Storage κ) (paths : Paths)
    (dir : String) : Job κ Fault Unit := do
  Job.createDir (.message "identity directory must not already exist") (storage.makesDir dir)
    (storage.locate dir)
  Job.lift (accept (tools.parses pattern) .noise)
  let keys ← Job.lift (orFault (tools.generateKeypair pattern) .noise)
  let cert ← Job.lift (orFault (tools.selfSigned ["cathole"]) .tls)
  create storage (paths.join dir "server.der") cert.1
  create storage (paths.join dir "server-key.der") cert.2
  let token := tools.encode tools.random
  let server := serverToml token (tools.encode keys.privateKey)
  let client := clientToml token (tools.encode keys.publicKey)
  create storage (paths.join dir "server.toml") server.toUTF8.data.toList
  create storage (paths.join dir "client.toml") client.toUTF8.data.toList

end

-- ---------------------------------------------------------------------------
-- What the files say
-- ---------------------------------------------------------------------------

def serverSide (token privateKey : String) : Side where
  bindAddr := some "127.0.0.1:2333"
  defaultToken := some token
  transport :=
    { kind := "quic"
      noise := { localPrivateKey := some privateKey }
      quic :=
        { certificate := some "server.der"
          privateKey := some "server-key.der"
          keepAliveInterval := 15
          maxIdleTimeout := 60 } }
  services :=
    { entries :=
        [("echo", { kind := .tcp, bindAddr := some "127.0.0.1:5202" }),
          ("echo_udp", { kind := .udp, bindAddr := some "127.0.0.1:5202" })]
      sorted := by decide +kernel }

def clientSide (token publicKey : String) : Side where
  remoteAddr := some "127.0.0.1:2333"
  defaultToken := some token
  transport :=
    { kind := "quic"
      noise := { remotePublicKey := some publicKey }
      quic :=
        { trustedRoot := some "server.der"
          hostname := "cathole"
          keepAliveInterval := 15
          maxIdleTimeout := 60 } }
  services :=
    { entries :=
        [("echo", { kind := .tcp, localAddr := some "127.0.0.1:5201" }),
          ("echo_udp", { kind := .udp, localAddr := some "127.0.0.1:5201" })]
      sorted := by decide +kernel }

def exampleSide (server : Bool) (token key : String) : Side :=
  if server then serverSide token key else clientSide token key

def Side.alone (server : Bool) (s : Side) : Config :=
  if server then ⟨some s, none⟩ else ⟨none, some s⟩

section

variable {decode : String → Option Bytes} {server : Bool} {token key : String} {k : Bytes}

theorem validateNoise_example (hkey : Config.key decode (some key) = .ok k) (pinnedTls : Bool) :
    validateNoise decode (exampleSide server token key).transport.noise server pinnedTls =
      .ok () := by
  cases server with
  | true =>
    simp only [validateNoise, bind_eq_ok, ensure_eq_ok]
    refine ⟨(), rfl, ?_⟩
    rw [Noise.handshake_nk rfl]
    simp only [exampleSide, serverSide, ↓reduceIte, hkey]
    rfl
  | false =>
    simp only [validateNoise, bind_eq_ok, ensure_eq_ok]
    refine ⟨(), rfl, ?_⟩
    rw [Noise.handshake_nk rfl]
    simp only [exampleSide, clientSide, Bool.false_eq_true, ↓reduceIte, hkey]
    rfl

theorem validateService_example (server : Bool) (key : String) (htoken : token.utf8ByteSize = 44) :
    ∀ e ∈ (exampleSide server token key).services.entries,
      validateService ((exampleSide server token key).withHeartbeat server) server e.1 e.2 =
        .ok () := by
  have hsize : (token.utf8ByteSize != 0 && decide (token.utf8ByteSize ≤ 512)) = true := by
    rw [htoken]
    rfl
  intro e he
  simp only [validateService, bind_eq_ok, ensure_eq_ok]
  cases server with
  | true =>
    simp only [exampleSide, serverSide, ↓reduceIte, List.mem_cons, List.not_mem_nil, or_false] at he
    rcases he with rfl | rfl
    · exact ⟨(), rfl, (), hsize, (), rfl, (), rfl, rfl⟩
    · exact ⟨(), rfl, (), hsize, (), rfl, (), rfl, rfl⟩
  | false =>
    simp only [exampleSide, clientSide, Bool.false_eq_true, ↓reduceIte, List.mem_cons,
      List.not_mem_nil, or_false] at he
    rcases he with rfl | rfl
    · exact ⟨(), rfl, (), hsize, (), rfl, (), rfl, rfl⟩
    · exact ⟨(), rfl, (), hsize, (), rfl, (), rfl, rfl⟩

/-- Validation takes the examples, and puts the heartbeat in place of one of the
timeouts they set. -/
theorem validateSide_example (server : Bool) (htoken : token.utf8ByteSize = 44)
    (hkey : Config.key decode (some key) = .ok k) :
    validateSide decode (exampleSide server token key) server =
      .ok ((exampleSide server token key).withHeartbeat server) := by
  have hservices := forM_eq_ok.mpr (validateService_example server key htoken)
  simp only [validateSide, bind_eq_ok, ensure_eq_ok, pure_eq_ok]
  cases server with
  | true =>
    exact ⟨(), rfl, (), rfl, (), rfl, (), rfl, (), rfl, (), rfl, (), rfl, (),
      validateNoise_example hkey _, (), rfl, (), hservices, trivial⟩
  | false =>
    exact ⟨(), rfl, (), rfl, (), rfl, (), rfl, (), rfl, (), rfl, (), rfl, (),
      validateNoise_example hkey _, (), rfl, (), hservices, trivial⟩

theorem start_alone {p : Program} {s s' : Side} (hrole : p.args.role = none)
    (htoml : p.toml text = .ok (s.alone server)) (hvalid : validateSide p.decode s server = .ok s')
    (hfiles : validateFiles host
      ((s'.relativeTo p.paths ((p.paths.parent p.path).getD ".")).alone server) = .ok ()) :
    p.start host (some text.toUTF8.data.toList) =
      .ok (server, (s'.relativeTo p.paths ((p.paths.parent p.path).getD ".")).alone server) := by
  have hparse : Config.parse p.decode p.toml text = .ok (s'.alone server) := by
    cases server with
    | true => simp [Config.parse, htoml, Side.alone, Except.mapError, ok_bind, hvalid]
    | false => simp [Config.parse, htoml, Side.alone, Except.mapError, ok_bind, hvalid]
  have hread : Config.read p.decode p.toml p.paths p.path (some text.toUTF8.data.toList) =
      .ok ((s'.relativeTo p.paths ((p.paths.parent p.path).getD ".")).alone server) := by
    rw [Config.read, readToString_toUTF8, ok_bind, hparse, ok_bind]
    cases server with
    | true => rfl
    | false => rfl
  have hserver : ∀ side : Side, p.roleServer (side.alone server) = .ok server := by
    intro side
    rw [Program.roleServer, hrole]
    cases server with
    | true => rfl
    | false => rfl
  have hselect : ∀ side : Side, (side.alone server).select server = .ok (side.alone server) := by
    intro side
    cases server with
    | true => rfl
    | false => rfl
  rw [Program.start, hread, ok_bind, hserver, ok_bind, hselect, ok_bind, hfiles]
  rfl

end

-- ---------------------------------------------------------------------------
-- A run of `initialize`
-- ---------------------------------------------------------------------------

section

variable {κ : Type} [DecidableEq κ] {tools : Toolbox} {storage : Storage κ} {paths : Paths}
  {dir : String} {d d' : Disk κ}

def identityFiles (tools : Toolbox) (keys : Keypair) (cert : Bytes × Bytes) :
    List (String × Bytes) :=
  let token := tools.encode tools.random
  [("server.der", cert.1), ("server-key.der", cert.2),
    ("server.toml", (serverToml token (tools.encode keys.privateKey)).toUTF8.data.toList),
    ("client.toml", (clientToml token (tools.encode keys.publicKey)).toUTF8.data.toList)]

/-- The new directory, or one of the files in it up to where its write failed. -/
def Fresh (tools : Toolbox) (storage : Storage κ) (paths : Paths) (dir : String) (k : κ)
    (e : Entry) : Prop :=
  (k = storage.locate dir ∧ e = .directory) ∨
    ∃ keys cert, tools.generateKeypair pattern = some keys ∧
      tools.selfSigned ["cathole"] = some cert ∧
      ∃ f ∈ identityFiles tools keys cert, ∃ n,
        k = storage.locate (paths.join dir f.1) ∧ e = .file storage.mode (f.2.take n)

theorem initializeDir_adds (tools : Toolbox) (storage : Storage κ) (paths : Paths) (dir : String) :
    Disk.Adds (Fresh tools storage paths dir) (initializeDir tools storage paths dir) := by
  refine (Disk.adds_createDir _ _ (.inl ⟨rfl, rfl⟩)).bind fun _ => ?_
  refine Disk.adds_lift_bind fun _ _ => Disk.adds_lift_bind fun keys hkeys => ?_
  refine Disk.adds_lift_bind fun cert hcert => ?_
  rw [orFault_eq_ok] at hkeys hcert
  have hfile : ∀ f ∈ identityFiles tools keys cert,
      Disk.Adds (Fresh tools storage paths dir) (create storage (paths.join dir f.1) f.2) :=
    fun f hf => Disk.adds_createNew _ _ fun n => .inr ⟨keys, cert, hkeys, hcert, f, hf, n, rfl, rfl⟩
  simp only [identityFiles, List.forall_mem_cons] at hfile
  obtain ⟨hcertificate, hkey, hserver, hclient, -⟩ := hfile
  exact hcertificate.bind fun _ => hkey.bind fun _ => hserver.bind fun _ => hclient

theorem create_ok (h : create storage path bytes d = (.ok u, d')) :
    Disk.Grows (fun _ _ => True) d d' ∧
    d'.lookup (storage.locate path) = some (.file storage.mode bytes) := by
  obtain ⟨hnew, rfl⟩ := Job.createNew_ok h
  exact ⟨.insert hnew trivial, AList.lookup_insert _⟩

/-- A run that succeeds leaves all four files, whole. -/
theorem initializeDir_ok (h : initializeDir tools storage paths dir d = (.ok u, d')) :
    ∃ keys cert, tools.generateKeypair pattern = some keys ∧
      tools.selfSigned ["cathole"] = some cert ∧
      ∀ f ∈ identityFiles tools keys cert,
        d'.lookup (storage.locate (paths.join dir f.1)) = some (.file storage.mode f.2) := by
  obtain ⟨_, _, -, h⟩ := Job.bind_ok h
  obtain ⟨_, _, -, h⟩ := Job.bind_ok h
  obtain ⟨keys, _, hkeys, h⟩ := Job.bind_ok h
  obtain ⟨cert, _, hcert, h⟩ := Job.bind_ok h
  obtain ⟨_, _, hcertificate, h⟩ := Job.bind_ok h
  obtain ⟨_, _, hkey, h⟩ := Job.bind_ok h
  obtain ⟨_, _, hserver, hclient⟩ := Job.bind_ok h
  refine ⟨keys, cert, orFault_eq_ok.mp (Job.lift_ok hkeys).1,
    orFault_eq_ok.mp (Job.lift_ok hcert).1, ?_⟩
  -- Each file stays while the next ones are written.
  obtain ⟨-, hcertificate⟩ := create_ok hcertificate
  obtain ⟨hgrows₁, hkey⟩ := create_ok hkey
  obtain ⟨hgrows₂, hserver⟩ := create_ok hserver
  obtain ⟨hgrows₃, hclient⟩ := create_ok hclient
  simp only [identityFiles, List.forall_mem_cons]
  exact ⟨((hgrows₁.trans hgrows₂).trans hgrows₃).kept _ _ hcertificate,
    (hgrows₂.trans hgrows₃).kept _ _ hkey, hgrows₃.kept _ _ hserver, hclient, by simp⟩

end

-- ---------------------------------------------------------------------------
-- The two roles work together
-- ---------------------------------------------------------------------------

section

variable {κ : Type} [DecidableEq κ]

/-- `main` with one of the new files and no other arguments. -/
def programFor (decode : String → Option Bytes) (toml : String → Except String Config)
    (paths : Paths) (dir : String) (server : Bool) : Program where
  decode
  toml
  paths
  path := paths.join dir (if server then "server.toml" else "client.toml")
  args := {}

/-- What the libraries make of the files when they are read again. -/
structure Readable (decode : String → Option Bytes)
    (toml : String → Except String Config) (host : Host) (tools : Toolbox) (storage : Storage κ)
    (paths : Paths) (dir : String) (keys : Keypair) (cert : Bytes × Bytes) : Prop where
  -- Base64 of 32 bytes has 44 characters.
  encodes : ∀ bytes ∈ [keys.privateKey, keys.publicKey, tools.random], bytes.length = 32 ∧
    decode (tools.encode bytes) = some bytes ∧ (tools.encode bytes).utf8ByteSize = 44
  server : toml (serverToml (tools.encode tools.random) (tools.encode keys.privateKey)) =
    .ok ⟨some (serverSide (tools.encode tools.random) (tools.encode keys.privateKey)), none⟩
  client : toml (clientToml (tools.encode tools.random) (tools.encode keys.publicKey)) =
    .ok ⟨none, some (clientSide (tools.encode tools.random) (tools.encode keys.publicKey))⟩
  relative : ∀ name ∈ ["server.der", "server-key.der"], paths.isRelative name = true
  -- The directory of a file in a directory is that directory.
  beside : ∀ name ∈ ["server.toml", "client.toml"], ∀ other ∈ ["server.der", "server-key.der"],
    storage.locate (paths.join ((paths.parent (paths.join dir name)).getD ".") other) =
      storage.locate (paths.join dir other)
  -- `rustls` takes what `rcgen` made.
  identity : host.takesIdentity cert.1 cert.2 = true
  root : host.takesRoot cert.1 = true
  tls : host.takesClient = true
  idle : ∀ ms ≤ 86400000, ∃ timeout, host.idleTimeout ms = some timeout
  loopback : ∀ buffer, host.bind (.v4 0x7f000001 0) buffer = true

/-- A server and a client that belong together. -/
structure Pair (decode : String → Option Bytes) (host : Host) (keys : Keypair)
    (cert : Bytes × Bytes) (server client : Side) : Prop where
  serverAccepted : server.Accepted decode true
  clientAccepted : client.Accepted decode false
  -- The client goes where the server listens.
  address : client.remoteAddr = server.bindAddr
  presents : Transport.identity host server.transport.quic = .ok cert
  trusts : Transport.verifier host client.transport.quic = .ok (.roots [cert.1])
  hostname : client.transport.quic.hostname = "cathole"
  handshakes : ∀ (σ : Type) (snow : Snow σ) exporter purpose binding, snow.Lawful →
    exporter "cathole-noise-v1" purpose = some binding →
      handshakeBuilder snow decode exporter server.transport.noise purpose =
          .ok ⟨pattern, binding.prologue purpose, some keys.privateKey, none⟩ ∧
        handshakeBuilder snow decode exporter client.transport.noise purpose =
          .ok ⟨pattern, binding.prologue purpose, none, some keys.publicKey⟩ ∧
        (∃ state, handshake snow decode exporter server.transport.noise false purpose = .ok state) ∧
        ∃ state, handshake snow decode exporter client.transport.noise true purpose = .ok state
  serves : server.Serves client
  ports : server.portsFor client = [⟨.tcp, "127.0.0.1:5202"⟩, ⟨.udp, "127.0.0.1:5202"⟩]

variable {decode : String → Option Bytes} {toml : String → Except String Config} {host : Host}
  {tools : Toolbox} {storage : Storage κ} {paths : Paths} {dir : String} {keys : Keypair}
  {cert : Bytes × Bytes} {now : Disk κ} {side : Side} {server : Bool}
  {token key : String} {k : Bytes}

theorem validateFiles_server (h : side.Accepted decode true)
    (hidentity : Transport.identity host side.transport.quic = .ok cert)
    (htakes : host.takesIdentity cert.1 cert.2 = true)
    (hidle : ∀ ms ≤ 86400000, ∃ timeout, host.idleTimeout ms = some timeout)
    (hbind : ∀ buffer, host.bind (.v4 0x7f000001 0) buffer = true) :
    validateFiles host (side.alone true) = .ok () := by
  obtain ⟨config, hconfig, -⟩ := transport_ok h hidle
  change (Transport.server host (.v4 0x7f000001 0) side.transport.quic >>= fun _ => pure ()) = _
  simp only [Transport.server, hidentity, ok_bind, accept, htakes, hconfig, hbind, ↓reduceIte]
  rfl

theorem validateFiles_client (h : side.Accepted decode false)
    (hverifier : Transport.verifier host side.transport.quic = .ok verifier)
    (htakes : host.takesClient = true)
    (hidle : ∀ ms ≤ 86400000, ∃ timeout, host.idleTimeout ms = some timeout)
    (hbind : ∀ buffer, host.bind (.v4 0x7f000001 0) buffer = true) :
    validateFiles host (side.alone false) = .ok () := by
  obtain ⟨config, hconfig, -⟩ := transport_ok h hidle
  change (Transport.client host (.v4 0x7f000001 0) side.transport.quic >>= fun _ => pure ()) = _
  simp only [Transport.client, hverifier, ok_bind, accept, htakes, hconfig, hbind, ↓reduceIte]
  rfl

def loadedSide (paths : Paths) (dir : String) (server : Bool) (token key : String) : Side :=
  ((exampleSide server token key).withHeartbeat server).relativeTo paths
    ((paths.parent (paths.join dir (if server then "server.toml" else "client.toml"))).getD ".")

theorem loadedSide_accepted (paths : Paths) (dir : String) (server : Bool)
    (htoken : token.utf8ByteSize = 44) (hkey : Config.key decode (some key) = .ok k) :
    (loadedSide paths dir server token key).Accepted decode server :=
  (validateSide_accepted (validateSide_example server htoken hkey)).relativeTo paths _

theorem serves_examples (paths : Paths) (dir token key key' : String) :
    (loadedSide paths dir true token key).Serves (loadedSide paths dir false token key') := by
  intro e he
  have he : e ∈ (clientSide token key').services.entries := he
  simp only [clientSide, List.mem_cons, List.not_mem_nil, or_false] at he
  rcases he with rfl | rfl
  · exact ⟨{ kind := .tcp, bindAddr := some "127.0.0.1:5202" }, rfl, rfl, rfl⟩
  · exact ⟨{ kind := .udp, bindAddr := some "127.0.0.1:5202" }, rfl, rfl, rfl⟩

theorem Noise.localKey_of_key {noise : Noise} {snow : Snow σ}
    (htext : noise.localPrivateKey = some text) (hkey : Config.key decode (some text) = .ok k) :
    noise.localKey snow decode = .ok (some k) := by
  simp only [Noise.localKey, htext, Option.isSome_some, ↓reduceIte, hkey]
  rfl

theorem Noise.remoteKey_of_key {noise : Noise} (htext : noise.remotePublicKey = some text)
    (hkey : Config.key decode (some text) = .ok k) : noise.remoteKey decode = .ok (some k) := by
  simp only [Noise.remoteKey, htext, Option.isSome_some, ↓reduceIte, hkey]
  rfl

theorem Noise.localKey_nk {noise : Noise} {snow : Snow σ} (hpattern : noise.pattern = Noise.nk)
    (hnone : noise.localPrivateKey = none) : noise.localKey snow decode = .ok none := by
  have hxx : noise.handshake.getD "" ≠ "XX" := by
    rw [Noise.handshake_nk hpattern]
    decide
  simp only [Noise.localKey, hnone, Option.isSome_none, Bool.false_eq_true, ↓reduceIte, hxx]
  rfl

theorem Builder.complete_nk {b : Builder} (hpattern : b.pattern = Noise.nk)
    (hkey : if initiator then b.remotePublicKey.isSome else b.localPrivateKey.isSome) :
    b.Complete initiator := by
  refine ⟨fun _ => hkey, fun hkk => ?_, fun hxx => ?_⟩
  · exact absurd (hpattern.symm.trans hkk) (by decide)
  · exact absurd (hpattern.symm.trans hxx) (by decide)

theorem Readable.pair (h : Readable decode toml host tools storage paths dir keys cert)
    (hfiles : ∀ f ∈ identityFiles tools keys cert,
      now.lookup (storage.locate (paths.join dir f.1)) = some (.file storage.mode f.2)) :
    Pair decode { host with read := storage.read now } keys cert
      (loadedSide paths dir true (tools.encode tools.random) (tools.encode keys.privateKey))
      (loadedSide paths dir false (tools.encode tools.random) (tools.encode keys.publicKey)) := by
  have hencodes := h.encodes
  simp only [List.forall_mem_cons] at hencodes
  obtain ⟨⟨hlen, hdecode, -⟩, ⟨hlen', hdecode', -⟩, ⟨-, -, htoken⟩, -⟩ := hencodes
  have hprivate : Config.key decode (some (tools.encode keys.privateKey)) = .ok keys.privateKey :=
    key_ok.mpr ⟨_, rfl, hdecode, hlen⟩
  have hpublic : Config.key decode (some (tools.encode keys.publicKey)) = .ok keys.publicKey :=
    key_ok.mpr ⟨_, rfl, hdecode', hlen'⟩
  have hread : ∀ name ∈ ["server.toml", "client.toml"], ∀ f ∈ identityFiles tools keys cert,
      f.1 ∈ ["server.der", "server-key.der"] →
      storage.read now (paths.join ((paths.parent (paths.join dir name)).getD ".") f.1) =
        some f.2 := by
    intro name hname f hf hbeside
    rw [Storage.read, h.beside name hname f.1 hbeside, hfiles f hf]
  have hcert : paths.isRelative "server.der" = true := h.relative _ (by simp)
  have hkey : paths.isRelative "server-key.der" = true := h.relative _ (by simp)
  refine
    { serverAccepted := loadedSide_accepted paths dir true htoken hprivate
      clientAccepted := loadedSide_accepted paths dir false htoken hpublic
      address := rfl
      presents := ?_
      trusts := ?_
      hostname := rfl
      handshakes := ?_
      serves := serves_examples paths dir _ _ _
      ports := rfl }
  · have hserver := hread "server.toml" (by simp)
    simp only [identityFiles, List.forall_mem_cons] at hserver
    obtain ⟨hreadCert, hreadKey, -⟩ := hserver
    simp only [loadedSide, exampleSide, serverSide, Side.withHeartbeat, Side.relativeTo,
      Quic.relativeTo, ↓reduceIte, Option.map_some, hcert, hkey, Transport.identity]
    rw [hreadCert (by simp), hreadKey (by simp)]
    rfl
  · have hclient := hread "client.toml" (by simp)
    simp only [identityFiles, List.forall_mem_cons] at hclient
    simp only [loadedSide, exampleSide, clientSide, Side.withHeartbeat, Side.relativeTo,
      Quic.relativeTo, ↓reduceIte, Bool.false_eq_true, Option.map_some, hcert, Transport.verifier]
    rw [hclient.1 (by simp)]
    simp only [orFault, ok_bind, accept, h.root, ↓reduceIte]
    rfl
  · intro σ snow exporter purpose binding hsnow hexport
    let token := tools.encode tools.random
    have hlocal :
        (serverSide token (tools.encode keys.privateKey)).transport.noise.localKey snow decode =
        .ok (some keys.privateKey) := Noise.localKey_of_key rfl hprivate
    have hremote :
        (clientSide token (tools.encode keys.publicKey)).transport.noise.remoteKey decode =
        .ok (some keys.publicKey) := Noise.remoteKey_of_key rfl hpublic
    have hnk : Noise.nk ∈ [Noise.nk, Noise.kk, Noise.xx] := List.mem_cons_self
    have hserver :
        (Builder.mk pattern (binding.prologue purpose) (some keys.privateKey) none).Sized :=
      ⟨by simpa using hlen, by simp⟩
    have hclient :
        (Builder.mk pattern (binding.prologue purpose) none (some keys.publicKey)).Sized :=
      ⟨by simp, by simpa using hlen'⟩
    exact ⟨handshakeBuilder_eq hsnow hexport hnk hlocal rfl hserver,
      handshakeBuilder_eq hsnow hexport hnk (Noise.localKey_nk rfl rfl) hremote hclient,
      handshake_starts hsnow hexport hnk hlocal rfl hserver (Builder.complete_nk rfl rfl),
      handshake_starts hsnow hexport hnk (Noise.localKey_nk rfl rfl) hremote hclient
        (Builder.complete_nk rfl rfl)⟩

theorem Readable.starts (h : Readable decode toml host tools storage paths dir keys cert)
    (hfiles : ∀ f ∈ identityFiles tools keys cert,
      now.lookup (storage.locate (paths.join dir f.1)) = some (.file storage.mode f.2)) :
    (programFor decode toml paths dir true).start { host with read := storage.read now }
        (storage.read now (paths.join dir "server.toml")) =
      .ok (true, ⟨some (loadedSide paths dir true (tools.encode tools.random)
        (tools.encode keys.privateKey)), none⟩) ∧
    (programFor decode toml paths dir false).start { host with read := storage.read now }
        (storage.read now (paths.join dir "client.toml")) =
      .ok (false, ⟨none, some (loadedSide paths dir false (tools.encode tools.random)
        (tools.encode keys.publicKey))⟩) := by
  have hpair := h.pair hfiles
  have hencodes := h.encodes
  simp only [List.forall_mem_cons] at hencodes
  obtain ⟨⟨hlen, hdecode, -⟩, ⟨hlen', hdecode', -⟩, ⟨-, -, htoken⟩, -⟩ := hencodes
  have hread : ∀ f ∈ identityFiles tools keys cert,
      storage.read now (paths.join dir f.1) = some f.2 := by
    intro f hf
    rw [Storage.read, hfiles f hf]
  simp only [identityFiles, List.forall_mem_cons] at hread
  obtain ⟨-, -, hserver, hclient, -⟩ := hread
  rw [hserver, hclient]
  constructor
  · have hvalid := validateSide_example true htoken (key_ok.mpr ⟨_, rfl, hdecode, hlen⟩)
    refine start_alone (p := programFor decode toml paths dir true) rfl h.server hvalid ?_
    exact validateFiles_server hpair.serverAccepted hpair.presents h.identity h.idle h.loopback
  · have hvalid := validateSide_example false htoken (key_ok.mpr ⟨_, rfl, hdecode', hlen'⟩)
    refine start_alone (p := programFor decode toml paths dir false) rfl h.client hvalid ?_
    exact validateFiles_client hpair.clientAccepted hpair.trusts h.tls h.idle h.loopback

/-- Whatever the libraries return and wherever the system stops it, `initialize`
leaves alone what is there, and all it adds is the directory and files of that
directory, readable by their owner only; a directory that exists is an error. If it
succeeds, both roles start on their files as long as these stay. The client trusts
the certificate that the server presents and no other, their handshakes start with
the two halves of the new key pair, and a server that has the ports of the examples
free by then, whatever its sessions have done, gives the client its tunnel if the
setup is left alone. -/
theorem identities_usable (tools : Toolbox) (storage : Storage κ) (paths : Paths) (dir : String)
    (d : Disk κ) :
    let ran := initializeDir tools storage paths dir d
    Disk.Grows (Fresh tools storage paths dir) d ran.2 ∧
    (storage.locate dir ∈ d →
      ran = (.error (.message "identity directory must not already exist"), d)) ∧
    (ran.1 = .ok () → ∃ keys cert, tools.generateKeypair pattern = some keys ∧
      tools.selfSigned ["cathole"] = some cert ∧
      ∀ decode toml host now, Readable decode toml host tools storage paths dir keys cert →
        Disk.Grows (fun _ _ => True) ran.2 now →
        ∃ server client,
          (programFor decode toml paths dir true).start { host with read := storage.read now }
            (storage.read now (paths.join dir "server.toml")) = .ok (true, ⟨some server, none⟩) ∧
          (programFor decode toml paths dir false).start { host with read := storage.read now }
            (storage.read now (paths.join dir "client.toml")) = .ok (false, ⟨none, some client⟩) ∧
          Pair decode { host with read := storage.read now } keys cert server client ∧
          ∀ (serde : Serde) (before : List PortAction) (i : Nat),
            let payload := serde.toVec client.registration
            let r := before.foldl (Registry.step serde server) (.opened server)
            serde.fromSlice payload = some client.registration → payload.length + 24 ≤ maxFrame →
            r.sessions[i]?.map (·.phase) = some .waiting →
            (∀ kind, ⟨kind, "127.0.0.1:5202"⟩ ∉ r.taken) →
            ((Registry.attempt i payload client.services.size).foldl
              (Registry.step serde server) r).sessions[i]?.map (·.phase) = some .forwarding) := by
  intro ran
  refine ⟨initializeDir_adds tools storage paths dir d, fun hexists => ?_, fun hok => ?_⟩
  · exact Job.bind_of_error (Job.createDir_of_mem _ _ hexists)
  obtain ⟨keys, cert, hkeys, hcert, hwritten⟩ :=
    initializeDir_ok (show initializeDir tools storage paths dir d =
      (.ok (), ran.2) from Prod.ext hok rfl)
  refine ⟨keys, cert, hkeys, hcert, fun decode toml host now h hnow => ?_⟩
  have hfiles : ∀ f ∈ identityFiles tools keys cert,
      now.lookup (storage.locate (paths.join dir f.1)) = some (.file storage.mode f.2) :=
    fun f hf => hnow.kept _ _ (hwritten f hf)
  have hpair := h.pair hfiles
  obtain ⟨hserver, hclient⟩ := h.starts hfiles
  refine ⟨_, _, hserver, hclient, hpair, fun serde before i hjson hfits hwaiting hfree => ?_⟩
  refine (Side.Ready.forwarding hpair.serverAccepted hpair.clientAccepted hjson hfits hwaiting ?_).1
  refine ⟨hpair.serves, ?_, ?_⟩
  · rw [hpair.ports]
    decide
  · rw [hpair.ports]
    intro port hport
    simp only [List.mem_cons, List.not_mem_nil, or_false] at hport
    rcases hport with rfl | rfl
    · exact hfree .tcp
    · exact hfree .udp

end

namespace Sample

def keypair : Keypair where
  privateKey := List.replicate 32 0
  publicKey :=
    [47, 229, 125, 163, 71, 205, 98, 67, 21, 40, 218, 172, 95, 187, 41, 7, 48, 255, 246, 132,
      175, 196, 207, 194, 237, 144, 153, 95, 88, 203, 59, 116]

def tokenBytes : Bytes :=
  [0, 1, 2, 3, 4, 5, 6, 7, 8, 9, 10, 11, 12, 13, 14, 15, 16, 17, 18, 19, 20, 21, 22, 23, 24, 25,
    26, 27, 28, 29, 30, 31]

def encodings : List (Bytes × String) :=
  [(keypair.privateKey, zeroKey),
    (keypair.publicKey, "L+V9o0fNYkMVKNqsX7spBzD/9oSvxM/C7ZCZX1jLO3Q="),
    (tokenBytes, "AAECAwQFBgcICQoLDA0ODxAREhMUFRYXGBkaGxwdHh8=")]

def tools : Toolbox where
  parses pattern := [Noise.nk, Noise.kk, Noise.xx].contains pattern
  generateKeypair _ := some keypair
  selfSigned _ := some ([48, 131], [48, 132])
  random := tokenBytes
  encode bytes := ((encodings.find? fun e => e.1 = bytes).map (·.2)).getD ""

def decoding (text : String) : Option Bytes := (encodings.find? fun e => e.2 = text).map (·.1)

def disk : Storage String where
  locate path := path
  makesDir _ := true
  permits _ := .grant
  unix := true

def localPaths : Paths where
  parent path := if path ∈ ["ids/server.toml", "ids/client.toml"] then some "ids" else none
  isRelative path := !path.startsWith "/"
  join dir path := dir ++ "/" ++ path

def token : String := tools.encode tokenBytes

def parsed (text : String) : Except String Config :=
  if text = serverToml token zeroKey then .ok ⟨some (serverSide token zeroKey), none⟩
  else if text = clientToml token (tools.encode keypair.publicKey) then
    .ok ⟨none, some (clientSide token (tools.encode keypair.publicKey))⟩
  else .error "0..1"

def laptop : Host where
  read _ := none
  selfSigned _ := none
  takesRoot certificate := certificate == [48, 131]
  takesIdentity certificate key := certificate == [48, 131] && key == [48, 132]
  takesClient := true
  idleTimeout ms := if ms < 2 ^ 62 then some ms else none
  bind _ _ := true

end Sample

open Sample in
theorem identities_usable_once :
    let ran := initializeDir tools disk localPaths "ids" ∅
    ran.1 = .ok () ∧ ran.2.size = 5 ∧
      (initializeDir tools disk localPaths "ids" ran.2).1 =
        .error (.message "identity directory must not already exist") ∧
      ∃ server client,
        (programFor decoding parsed localPaths "ids" true).start
          { laptop with read := disk.read ran.2 }
          (disk.read ran.2 "ids/server.toml") = .ok (true, ⟨some server, none⟩) ∧
        (programFor decoding parsed localPaths "ids" false).start
          { laptop with read := disk.read ran.2 }
          (disk.read ran.2 "ids/client.toml") = .ok (false, ⟨none, some client⟩) ∧
        server.Serves client := by
  intro ran
  have hok : ran.1 = .ok () := by decide +kernel
  have hdir : disk.locate "ids" ∈ ran.2 := by decide +kernel
  have hagain := (identities_usable tools disk localPaths "ids" ran.2).2.1 hdir
  have hreadable : Readable decoding parsed laptop tools disk localPaths "ids" keypair
      ([48, 131], [48, 132]) := {
    encodes := by decide +kernel
    server := by decide +kernel
    client := by decide +kernel
    relative := by decide +kernel
    beside := by decide +kernel
    identity := rfl
    root := rfl
    tls := rfl
    idle := fun ms hms => ⟨ms, if_pos (by omega)⟩
    loopback := fun _ => rfl }
  obtain ⟨keys, cert, hkeys, hcert, huse⟩ :=
    (identities_usable tools disk localPaths "ids" ∅).2.2 hok
  cases hkeys
  cases hcert
  obtain ⟨server, client, hserver, hclient, hpair, -⟩ := huse _ _ _ ran.2 hreadable (.refl _)
  exact ⟨hok, by decide +kernel, by rw [hagain], server, client, hserver, hclient, hpair.serves⟩

end Cathole
