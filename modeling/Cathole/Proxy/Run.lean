import Cathole.Proxy.Registration
import Cathole.Transport

/-!
# Starting and reconnecting

The server's `run` up to its accept loop, the client's `connect` up to the
connection, and the loop of the client's `run` that waits and connects again.
The outcome of a connection only matters for how long it lasted, and the jitter
is what `rand` drew.

`validated_safe` follows the checks of `config.rs` to the places that rely on
them: the unwraps, the arithmetic and the conversions of both roles.
-/

namespace Cathole

namespace Side

/-- The endpoint on which the server's `run` accepts. -/
def listen (host : Host) (lookupHost : String → Option (List SocketAddr)) (cfg : Side) :
    Except Fault ServerEndpoint := do
  let addr ← Checked.unwrap cfg.bindAddr
  let addr ← resolve lookupHost addr cfg.preferIpv6
  Transport.server host addr cfg.transport.quic

/-- The endpoint from which `connect` connects, and the address it connects
to. -/
def dial (host : Host) (lookupHost : String → Option (List SocketAddr)) (cfg : Side) :
    Except Fault (ClientEndpoint × SocketAddr) := do
  let addr ← Checked.unwrap cfg.remoteAddr
  let remote ← resolve lookupHost addr cfg.preferIpv6
  let bind : SocketAddr := if remote.isIpv6 then .v6 0 0 0 0 else .v4 0 0
  let endpoint ← Transport.client host bind cfg.transport.quic
  pure (endpoint, remote)

end Side

/-- One turn of the reconnect loop: how long the connection lasted, in
nanoseconds, and the jitter drawn for the wait after it. -/
structure Attempt where
  elapsed : Nat
  jitter : Fin 1001
  deriving DecidableEq, Repr

namespace Reconnect

/-- The wait after a connection, in milliseconds. -/
def wait (base delay : UInt64) (jitter : Fin 1001) : Except Fault UInt64 :=
  if base = 0 then .ok 100
  else do
    let millis ← Checked.mulU64 (max delay base) 1000
    Checked.addU64 millis (UInt64.ofNat jitter.val)

def next (base delay : UInt64) : Except Fault UInt64 := do
  let doubled ← Checked.mulU64 (max delay base) 2
  pure (min doubled (max 30 base))

/-- The wait of one turn, and the delay the next one starts from. -/
def turn (base delay : UInt64) (a : Attempt) : Except Fault (UInt64 × UInt64) := do
  let delay := if a.elapsed > 60_000_000_000 then 1 else delay
  let millis ← wait base delay a.jitter
  let delay ← next base delay
  pure (millis, delay)

def turns (base : UInt64) : UInt64 → List Attempt → Except Fault (List UInt64 × UInt64)
  | delay, [] => .ok ([], delay)
  | delay, a :: rest => do
    let (millis, delay) ← turn base delay a
    let (waits, delay) ← turns base delay rest
    pure (millis :: waits, delay)

def run (base : UInt64) (attempts : List Attempt) : Except Fault (List UInt64 × UInt64) :=
  turns base 1 attempts

theorem toNat_max (a b : UInt64) : (max a b).toNat = max a.toNat b.toNat := by
  change (if a ≤ b then b else a).toNat = _
  split
  · rename_i h
    rw [UInt64.le_iff_toNat_le] at h
    omega
  · rename_i h
    rw [UInt64.le_iff_toNat_le] at h
    omega

theorem toNat_min (a b : UInt64) : (min a b).toNat = min a.toNat b.toNat := by
  change (if a ≤ b then a else b).toNat = _
  split
  · rename_i h
    rw [UInt64.le_iff_toNat_le] at h
    omega
  · rename_i h
    rw [UInt64.le_iff_toNat_le] at h
    omega

def Capped (base delay : UInt64) : Prop := delay.toNat ≤ max 30 base.toNat

theorem toNat_max_le (hbase : base ≤ 86400) (hdelay : Capped base delay) :
    (max delay base).toNat ≤ 86400 := by
  have hb : base.toNat ≤ 86400 := UInt64.le_iff_toNat_le.mp hbase
  unfold Capped at hdelay
  rw [toNat_max]
  omega

theorem wait_ok (hbase : base ≤ 86400) (hdelay : Capped base delay) (jitter : Fin 1001) :
    ∃ millis, wait base delay jitter = .ok millis ∧ (base = 0 → millis = 100) ∧
      (base ≠ 0 → millis.toNat = max delay.toNat base.toNat * 1000 + jitter.val) := by
  unfold wait
  split
  · rename_i hzero
    exact ⟨100, rfl, fun _ => rfl, fun hpos => absurd hzero hpos⟩
  rename_i hpos
  have hmax := toNat_max_le hbase hdelay
  have hthousand : (1000 : UInt64).toNat = 1000 := rfl
  have hjitter : (UInt64.ofNat jitter.val).toNat = jitter.val :=
    UInt64.toNat_ofNat_of_lt' (lt_trans jitter.isLt (by decide))
  obtain ⟨millis, hmul, hmillis⟩ := Checked.mulU64_of_lt (a := max delay base) (b := 1000) (by
    rw [hthousand]
    omega)
  obtain ⟨total, hadd, htotal⟩ :=
    Checked.addU64_of_lt (a := millis) (b := UInt64.ofNat jitter.val) (by
    have hlt := jitter.isLt
    rw [hmillis, hthousand, hjitter]
    omega)
  refine ⟨total, by rw [hmul, ok_bind, hadd], fun hzero => absurd hzero hpos, fun _ => ?_⟩
  rw [htotal, hmillis, hthousand, hjitter, toNat_max]

theorem next_ok (hbase : base ≤ 86400) (hdelay : Capped base delay) :
    ∃ delay', next base delay = .ok delay' ∧
      delay'.toNat = min (max delay.toNat base.toNat * 2) (max 30 base.toNat) := by
  have hmax := toNat_max_le hbase hdelay
  have htwo : (2 : UInt64).toNat = 2 := rfl
  obtain ⟨doubled, hmul, hdoubled⟩ := Checked.mulU64_of_lt (a := max delay base) (b := 2) (by
    rw [htwo]
    omega)
  refine ⟨min doubled (max 30 base), by rw [next, hmul, ok_bind]; rfl, ?_⟩
  rw [toNat_min, toNat_max, hdoubled, htwo, toNat_max]
  rfl

theorem capped_one : Capped base 1 := by
  have hone : (1 : UInt64).toNat = 1 := rfl
  rw [Capped, hone]
  omega

/-- A turn from a delay under the cap, in numbers. -/
theorem turn_ok (hbase : base ≤ 86400) (hdelay : Capped base delay) (a : Attempt) :
    let d := if a.elapsed > 60_000_000_000 then 1 else delay.toNat
    ∃ millis delay', turn base delay a = .ok (millis, delay') ∧ (base = 0 → millis = 100) ∧
      (base ≠ 0 → millis.toNat = max d base.toNat * 1000 + a.jitter.val) ∧
      delay'.toNat = min (max d base.toNat * 2) (max 30 base.toNat) := by
  intro d
  have hd : (if a.elapsed > 60_000_000_000 then 1 else delay).toNat = d := by
    simp only [d]
    split <;> rfl
  have hreset : Capped base (if a.elapsed > 60_000_000_000 then 1 else delay) := by
    split
    · exact capped_one
    · exact hdelay
  obtain ⟨millis, hwait, hzero, hpos⟩ := wait_ok hbase hreset a.jitter
  obtain ⟨delay', hnext, hdelay'⟩ := next_ok hbase hreset
  rw [hd] at hpos hdelay'
  refine ⟨millis, delay', ?_, hzero, hpos, hdelay'⟩
  simp only [turn, hwait, hnext, ok_bind]
  rfl

theorem capped_of_eq {delay : UInt64} (h : delay.toNat = min n (max 30 base.toNat)) :
    Capped base delay := by
  rw [Capped, h]
  exact Nat.min_le_right _ _

theorem turns_ok (hbase : base ≤ 86400) (hdelay : Capped base delay) (attempts : List Attempt) :
    ∃ waits delay', turns base delay attempts = .ok (waits, delay') ∧ Capped base delay' := by
  induction attempts generalizing delay with
  | nil => exact ⟨[], delay, rfl, hdelay⟩
  | cons a rest ih =>
    obtain ⟨millis, delay', hturn, -, -, hdelay'⟩ := turn_ok hbase hdelay a
    obtain ⟨waits, last, hrest, hlast⟩ := ih (capped_of_eq hdelay')
    refine ⟨millis :: waits, last, ?_, hlast⟩
    simp only [turns, hturn, hrest, ok_bind]
    rfl

theorem run_ok (hbase : base ≤ 86400) (attempts : List Attempt) :
    ∃ waits delay, run base attempts = .ok (waits, delay) ∧ Capped base delay :=
  turns_ok hbase capped_one attempts

end Reconnect

-- ---------------------------------------------------------------------------
-- What the checks protect
-- ---------------------------------------------------------------------------

section

variable {decode : String → Option Bytes} {host : Host} {cfg : Side} {server : Bool}
  {lookupHost : String → Option (List SocketAddr)}

theorem validateService_limits (h : validateService cfg server name service = .ok ()) :
    1 ≤ (cfg.token service).utf8ByteSize ∧ (cfg.token service).utf8ByteSize ≤ 512 ∧
      cfg.serviceRetry service ≤ 86400 := by
  simp only [validateService, bind_eq_ok, ensure_eq_ok] at h
  obtain ⟨_, -, _, htoken, _, hretry, -⟩ := h
  simp only [Bool.and_eq_true, decide_eq_true_eq, bne_iff_ne] at htoken hretry
  exact ⟨Nat.one_le_iff_ne_zero.mpr htoken.1, htoken.2, hretry⟩

theorem addresses_server (h : validateAddresses cfg true = .ok ()) :
    ∃ addr, cfg.bindAddr = some addr := by
  simp only [validateAddresses, ↓reduceIte, bind_eq_ok, ensure_eq_ok, Bool.and_eq_true] at h
  obtain ⟨_, haddr, -⟩ := h
  exact Option.isSome_iff_exists.mp haddr.1

theorem addresses_client (h : validateAddresses cfg false = .ok ()) :
    ∃ addr, cfg.remoteAddr = some addr := by
  simp only [validateAddresses, Bool.false_eq_true, ↓reduceIte, ensure_eq_ok, Bool.and_eq_true] at h
  exact Option.isSome_iff_exists.mp h.1

theorem transport_ok (h : Side.Accepted decode server cfg)
    (hidle : ∀ ms ≤ 86400000, ∃ timeout, host.idleTimeout ms = some timeout) :
    ∃ config, Transport.transport host cfg.transport.quic = .ok config ∧
      config.maxConcurrentBidiStreams.toNat = cfg.transport.quic.maxStreams.toNat + 1 := by
  have hstreams : cfg.transport.quic.maxStreams.toNat ≤ 4096 :=
    UInt32.le_iff_toNat_le.mp h.streams.2
  have htimeout : cfg.transport.quic.maxIdleTimeout.toNat ≤ 86400 :=
    UInt64.le_iff_toNat_le.mp h.timeouts.2.1
  have hone : (1 : UInt32).toNat = 1 := rfl
  obtain ⟨streams, hadd, hcount⟩ :=
    Checked.addU32_of_lt (a := cfg.transport.quic.maxStreams) (b := 1) (by rw [hone]; omega)
  have hconvert : ∃ timeout, Transport.idle host cfg.transport.quic = .ok timeout := by
    unfold Transport.idle
    split
    · obtain ⟨timeout, ht⟩ := hidle (cfg.transport.quic.maxIdleTimeout.toNat * 1000) (by omega)
      exact ⟨some timeout, by rw [ht]; rfl⟩
    · exact ⟨none, rfl⟩
  obtain ⟨timeout, ht⟩ := hconvert
  refine ⟨_, by rw [Transport.transport, ht, ok_bind, hadd, ok_bind]; rfl, ?_⟩
  exact hcount

theorem resolve_safe (addr : String) (preferIpv6 : Bool) :
    Safe (resolve lookupHost addr preferIpv6) :=
  Safe.bind (safe_orFault _ (by decide)) fun _ _ => safe_context _ _

theorem destination_safe (haddr : ∃ addr, service.localAddr = some addr) :
    Safe (cfg.destination lookupHost service) := by
  obtain ⟨addr, haddr⟩ := haddr
  rw [Side.destination, haddr]
  refine Safe.bind (safe_ok addr) fun _ _ => ?_
  exact Safe.bind (resolve_safe _ _) fun _ _ => safe_pure _

theorem fillDestinations_safe {services : List Service}
    (haddr : ∀ service ∈ services, ∃ addr, service.localAddr = some addr) (id : Nat)
    (table : Table UInt16 SocketAddr) :
      Safe (cfg.fillDestinations lookupHost id services table) := by
  induction services generalizing id table with
  | nil => exact safe_ok _
  | cons service rest ih =>
    obtain ⟨hservice, hrest⟩ := List.forall_mem_cons.mp haddr
    unfold Side.fillDestinations
    split
    · exact Safe.bind (destination_safe hservice) fun _ _ => ih hrest _ _
    · exact ih hrest _ _

theorem tcpTarget_safe
    (haddr : ∀ service ∈ cfg.services.values, ∃ addr, service.localAddr = some addr)
    (header : Option Bytes) : Safe (cfg.tcpTarget lookupHost header) := by
  refine Safe.bind ?_ fun service hservice => ?_
  · refine Safe.bind (safe_context _ _) fun _ _ => ?_
    refine Safe.bind (safe_ensure _ _) fun _ _ => ?_
    refine Safe.bind (safe_context _ _) fun _ _ => ?_
    exact Safe.bind (safe_ensure _ _) fun _ _ => safe_pure _
  · simp only [Side.tcpService, bind_eq_ok, context_eq_ok, pure_eq_ok] at hservice
    obtain ⟨_, -, _, -, service, hget, _, -, rfl⟩ := hservice
    exact destination_safe (haddr service (List.mem_of_getElem? hget))

theorem listen_safe (h : Side.Accepted decode true cfg) : Safe (cfg.listen host lookupHost) := by
  obtain ⟨addr, haddr⟩ := addresses_server h.addresses
  unfold Side.listen
  rw [haddr]
  refine Safe.bind (safe_ok addr) fun _ _ => ?_
  exact Safe.bind (resolve_safe _ _) fun _ _ => serverEndpoint_safe h

theorem dial_safe (h : Side.Accepted decode false cfg) : Safe (cfg.dial host lookupHost) := by
  obtain ⟨addr, haddr⟩ := addresses_client h.addresses
  unfold Side.dial
  rw [haddr]
  refine Safe.bind (safe_ok addr) fun _ _ => ?_
  refine Safe.bind (resolve_safe _ _) fun _ _ => ?_
  exact Safe.bind (clientEndpoint_safe h) fun _ _ => safe_pure _

/-- What the checks give the code that runs a side, for either role. -/
theorem Side.Accepted.limits (h : Side.Accepted decode server cfg) :
    (∀ e ∈ cfg.services.entries,
      (server = true → ∃ addr, e.2.bindAddr = some addr) ∧
      (server = false → ∃ addr, e.2.localAddr = some addr) ∧
      1 ≤ (cfg.token e.2).utf8ByteSize ∧ (cfg.token e.2).utf8ByteSize ≤ 512 ∧
      cfg.serviceRetry e.2 ≤ 86400) ∧
    (server = true → ∃ addr, cfg.bindAddr = some addr) ∧
    (server = false → ∃ addr, cfg.remoteAddr = some addr) := by
  refine ⟨?_, ?_, ?_⟩
  · intro e he
    have hservice := h.service e he
    refine ⟨?_, ?_, validateService_limits hservice⟩
    · rintro rfl
      exact validateService_server hservice
    · rintro rfl
      exact validateService_client hservice
  · rintro rfl
    exact addresses_server h.addresses
  · rintro rfl
    exact addresses_client h.addresses

/-- A configuration that was parsed and selected for a role cannot make the
code that runs it panic or overflow. Parsing itself never panics. -/
theorem validated_safe {toml : String → Except String Config}
    (hparse : Config.parse decode toml text = .ok c) (hselect : c.select server = .ok c')
    (hidle : ∀ ms < 2 ^ 62, ∃ timeout, host.idleTimeout ms = some timeout) :
    (∀ text, Config.parse decode toml text ≠ .error .panic) ∧
    ∃ side, c'.forRole server = some side ∧ c'.forRole (!server) = none ∧
      ((server = true → ∃ addr, side.bindAddr = some addr) ∧
        (server = false → ∃ addr, side.remoteAddr = some addr)) ∧
      (∀ e ∈ side.services.entries,
        (server = true → ∃ addr, e.2.bindAddr = some addr) ∧
        (server = false → ∃ addr, e.2.localAddr = some addr) ∧
        1 ≤ (side.token e.2).utf8ByteSize ∧ (side.token e.2).utf8ByteSize ≤ 512 ∧
        side.serviceRetry e.2 ≤ 86400) ∧
      (∀ lookupHost,
        (server = true → side.listen host lookupHost ≠ .error .panic) ∧
        (server = false → side.dial host lookupHost ≠ .error .panic ∧
          side.destinations lookupHost ≠ .error .panic ∧
          ∀ header, side.tcpTarget lookupHost header ≠ .error .panic)) ∧
      (∃ config, Transport.transport host side.transport.quic = .ok config ∧
        config.maxConcurrentBidiStreams.toNat = side.transport.quic.maxStreams.toNat + 1) ∧
      ((server = true → side.transport.quic.keepAliveInterval = side.heartbeatInterval) ∧
        (server = false → side.transport.quic.maxIdleTimeout = side.heartbeatTimeout) ∧
        side.transport.quic.keepAliveInterval ≤ 86400 ∧
        side.transport.quic.maxIdleTimeout ≤ 86400) ∧
      side.retryInterval ≤ 86400 ∧
      ∀ attempts, ∃ waits delay, Reconnect.run side.retryInterval attempts =
        .ok (waits, delay) := by
  refine ⟨fun text => parse_safe toml text, ?_⟩
  obtain ⟨side, hside, hselected, hother⟩ := select_ok hselect
  have h : side.Accepted decode server := (parse_accepted hparse).forRole hside
  obtain ⟨hservices, haddrs⟩ := h.limits
  have hday : ∀ ms ≤ 86400000, ∃ timeout, host.idleTimeout ms = some timeout := by
    intro ms hms
    exact hidle ms (by omega)
  refine ⟨side, hselected, hother, haddrs, hservices, ?_, transport_ok h hday,
    ⟨h.keepAlive, h.maxIdle, h.timeouts.1, h.timeouts.2.1⟩, h.retry, ?_⟩
  · intro lookupHost
    constructor
    · rintro rfl
      exact listen_safe h
    · rintro rfl
      have hlocal : ∀ service ∈ side.services.values, ∃ addr, service.localAddr = some addr := by
        intro service hservice
        obtain ⟨e, he, rfl⟩ := List.mem_map.mp hservice
        exact (hservices e he).2.1 rfl
      exact ⟨dial_safe h, fillDestinations_safe hlocal 0 ∅, tcpTarget_safe hlocal⟩
  · intro attempts
    obtain ⟨waits, delay, hrun, -⟩ := Reconnect.run_ok h.retry attempts
    exact ⟨waits, delay, hrun⟩

end

open Sample in
theorem validated_safe_nk :
    (Config.select false ⟨none, some ((nkClient zeroKey).withHeartbeat false)⟩ =
      .ok ⟨none, some ((nkClient zeroKey).withHeartbeat false)⟩) ∧
      ∃ config, Transport.transport host ((nkClient zeroKey).withHeartbeat false).transport.quic =
        .ok config ∧ config.maxConcurrentBidiStreams.toNat = 257 := by
  have hparse : Config.parse base64 (fun _ => .ok ⟨none, some (nkClient zeroKey)⟩) "" =
      .ok ⟨none, some ((nkClient zeroKey).withHeartbeat false)⟩ := by
    decide +kernel
  have hselect : Config.select false ⟨none, some ((nkClient zeroKey).withHeartbeat false)⟩ =
      .ok ⟨none, some ((nkClient zeroKey).withHeartbeat false)⟩ := rfl
  have hidle : ∀ ms < 2 ^ 62, ∃ timeout, host.idleTimeout ms = some timeout := by
    intro ms hms
    exact ⟨ms, by simpa [host] using hms⟩
  obtain ⟨-, side, hside, -, -, -, -, hconfig, -⟩ := validated_safe hparse hselect hidle
  cases hside
  exact ⟨hselect, hconfig⟩

end Cathole
