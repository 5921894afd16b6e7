import Cathole.Proxy.Ports

/-!
# Client and server mean the same service by an ID

A service ID is never sent: it is a position, counted in four places. The server
counts its listeners, which follow the offers; the client counts the entries of
its service map, once for the offers, once for `destinations` and once for each
TCP stream. This file shows that the four counts agree, although the map of the
server may have other services in between.
-/

namespace Cathole

open Words (fromBe)

namespace Side

variable {lookupHost : String → Option (List SocketAddr)} {cfg : Side}
  {table out : Table UInt16 SocketAddr} {services : List Service} {id : Nat}

-- ---------------------------------------------------------------------------
-- The destinations of the client
-- ---------------------------------------------------------------------------

theorem fillDestinations_cons
    (h : cfg.fillDestinations lookupHost id (s :: rest) table = .ok out) :
    (s.kind = .udp ∧ ∃ addr, cfg.destination lookupHost s = .ok addr ∧
      cfg.fillDestinations lookupHost (id + 1) rest (table.insert (UInt16.ofNat id) addr) =
        .ok out) ∨
    (s.kind ≠ .udp ∧ cfg.fillDestinations lookupHost (id + 1) rest table = .ok out) := by
  unfold fillDestinations at h
  split at h
  · obtain ⟨addr, haddr, h⟩ := bind_eq_ok.mp h
    exact .inl ⟨‹_›, addr, haddr, h⟩
  · exact .inr ⟨‹_›, h⟩

theorem fillDestinations_other (h : cfg.fillDestinations lookupHost id services table = .ok out)
    (hk : ∀ j s, services[j]? = some s → s.kind = .udp → k ≠ UInt16.ofNat (id + j)) :
    out.lookup k = table.lookup k := by
  induction services generalizing id table with
  | nil =>
    cases h
    rfl
  | cons s rest ih =>
    have hrest : ∀ j s, rest[j]? = some s → s.kind = .udp → k ≠ UInt16.ofNat (id + 1 + j) := by
      intro j t ht hudp
      rw [Nat.add_assoc, Nat.add_comm 1]
      exact hk (j + 1) t ht hudp
    obtain ⟨hudp, addr, -, h⟩ | ⟨-, h⟩ := fillDestinations_cons h
    · have hne : k ≠ UInt16.ofNat id := hk 0 s rfl hudp
      rw [ih h hrest, AList.lookup_insert_eq, if_neg hne]
    · exact ih h hrest

theorem fillDestinations_udp (h : cfg.fillDestinations lookupHost id services table = .ok out)
    (hlen : id + services.length ≤ 65536) (hs : services[j]? = some s) (hudp : s.kind = .udp) :
    ∃ addr, cfg.destination lookupHost s = .ok addr ∧
      out.lookup (UInt16.ofNat (id + j)) = some addr := by
  induction services generalizing id table j with
  | nil => cases hs
  | cons t rest ih =>
    rw [List.length_cons] at hlen
    have hstep := fillDestinations_cons h
    cases j with
    | zero =>
      cases hs
      obtain ⟨-, addr, haddr, h⟩ | ⟨htcp, -⟩ := hstep
      · refine ⟨addr, haddr, ?_⟩
        -- The IDs after this one are others, as they stay below 65536.
        have hother := fillDestinations_other h (k := UInt16.ofNat id) fun j s hj _ he => by
          have hlt : j < rest.length := (List.getElem?_eq_some_iff.mp hj).1
          have hnat := congrArg UInt16.toNat he
          simp only [UInt16.toNat_ofNat'] at hnat
          omega
        rw [Nat.add_zero, hother, AList.lookup_insert_eq, if_pos rfl]
      · exact absurd hudp htcp
    | succ j =>
      have hid : id + (j + 1) = id + 1 + j := by omega
      rw [hid]
      obtain ⟨-, addr, -, h⟩ | ⟨-, h⟩ := hstep
      · exact ih h (by omega) hs
      · exact ih h (by omega) hs

theorem destinations_udp (h : cfg.destinations lookupHost = .ok out)
    (hsize : cfg.services.size ≤ 256) (hs : cfg.services.values[id]? = some s)
    (hudp : s.kind = .udp) :
    ∃ addr, cfg.destination lookupHost s = .ok addr ∧ out.lookup (UInt16.ofNat id) = some addr := by
  have hlen : 0 + cfg.services.values.length ≤ 65536 := by
    rw [OrderedMap.length_values]
    omega
  rw [← Nat.zero_add id]
  exact fillDestinations_udp h hlen hs hudp

theorem mem_destinations (h : cfg.destinations lookupHost = .ok out)
    (hsize : cfg.services.size ≤ 256) (k : UInt16) : k ∈ out ↔ ∃ s, cfg.services.values[k.toNat]? =
    some s ∧ s.kind = .udp := by
  constructor
  · intro hmem
    by_contra hno
    have hnone : out.lookup k = none := by
      refine (fillDestinations_other h fun j s hj hudp he => hno ⟨s, ?_, hudp⟩).trans rfl
      have hlt : j < cfg.services.size := by simpa using (List.getElem?_eq_some_iff.mp hj).1
      rw [he, UInt16.toNat_ofNat', Nat.zero_add, Nat.mod_eq_of_lt (by omega)]
      exact hj
    exact AList.lookup_eq_none.mp hnone hmem
  · rintro ⟨s, hs, hudp⟩
    obtain ⟨addr, -, hlookup⟩ := destinations_udp h hsize hs hudp
    rw [UInt16.ofNat_toNat] at hlookup
    exact AList.mem_of_lookup hlookup

theorem tcpService_header (hsize : cfg.services.size ≤ 256) (hs : cfg.services.values[id]? = some s)
    (htcp : s.kind = .tcp) : cfg.tcpService (some (tcpHeader (UInt16.ofNat id))) = .ok s := by
  have hlt : id < cfg.services.size := by simpa using (List.getElem?_eq_some_iff.mp hs).1
  have hid : fromBe (tcpHeader (UInt16.ofNat id)) = id := by
    rw [tcpHeader, Words.fromBe_toBe (UInt16.toNat_lt _), UInt16.toNat_ofNat',
      Nat.mod_eq_of_lt (by omega)]
  have hlen : (tcpHeader (UInt16.ofNat id)).length = 2 := Words.length_toBe _ _
  simp only [tcpService, bind_eq_ok, pure_eq_ok, ensure_eq_ok, context_eq_ok]
  exact ⟨_, rfl, (), by simp [hlen], s, by rw [hid]; exact hs, (), by simp [htcp], rfl⟩

end Side

-- ---------------------------------------------------------------------------
-- The agreement
-- ---------------------------------------------------------------------------

section

variable {decode : String → Option Bytes} {toml : String → Except String Config}
  {serde : Serde} {server client : Side}
  {before after : List PortAction} {s : Setup} {i id : Nat} {b : Bound}

theorem client_ok (h : Config.parse decode toml text = .ok c) (hc : c.client = some client) :
    client.services.size ≤ 256 ∧
      ∀ name service, (name, service) ∈ client.services.entries →
        ∃ addr, service.localAddr = some addr := by
  obtain ⟨raw, hraw⟩ := (parse_ok h).2 client hc
  obtain ⟨hsize, hservices⟩ := validateSide_ok hraw
  exact ⟨hsize, fun name service hmem => validateService_client (hservices (name, service) hmem)⟩

structure Agree (server client : Side) (b : Bound) (service : Service) : Prop where
  offered : server.services.get b.name = some b.service
  configured : client.services.get b.name = some service
  kind : b.service.kind = service.kind
  token : server.token b.service = client.token service

/-- The listeners of an accepted client are its services, in the order of its map. -/
theorem listeners_agree {bound : List Bound}
    (h : List.Forall₂ (Registry.Listens server) client.registration.services bound)
    (hb : bound[id]? = some b) :
    ∃ service, client.services.entries[id]? = some (b.name, service) ∧
      Agree server client b service := by
  obtain ⟨offer, hoffer, ⟨hname, hservice, hkind, htoken⟩, -⟩ := partner_left h hb
  rw [Side.registration, List.getElem?_map] at hoffer
  obtain ⟨⟨name, service⟩, hentry, rfl⟩ := Option.map_eq_some_iff.mp hoffer
  obtain rfl : b.name = name := hname
  have hget := OrderedMap.get_eq_some_iff.mpr (List.mem_of_getElem? hentry)
  exact ⟨service, hentry, hservice, hget, hkind.symm, htoken⟩

theorem length_listeners {bound : List Bound}
    (h : List.Forall₂ (Registry.Listens server) client.registration.services bound) :
    bound.length = client.services.size := by
  rw [← h.length_eq, Side.registration, List.length_map]
  rfl

theorem mem_destinations_listeners {bound : List Bound}
    (h : List.Forall₂ (Registry.Listens server) client.registration.services bound)
    (hsize : client.services.size ≤ 256) (hdest : client.destinations lookupHost = .ok destinations)
    (k : UInt16) : k ∈ destinations ↔ ∃ b, bound[k.toNat]? = some b ∧ b.service.kind = .udp := by
  rw [Side.mem_destinations hdest hsize]
  constructor
  · rintro ⟨service, hvalue, hudp⟩
    obtain ⟨name, hentry⟩ := OrderedMap.getElem?_values.mp hvalue
    have hlt : k.toNat < bound.length :=
      length_listeners h ▸ (List.getElem?_eq_some_iff.mp hentry).1
    have hb := List.getElem?_eq_getElem hlt
    obtain ⟨service', hentry', hagree⟩ := listeners_agree h hb
    cases hentry.symm.trans hentry'
    exact ⟨_, hb, hagree.kind.trans hudp⟩
  · rintro ⟨b, hb, hudp⟩
    obtain ⟨service, hentry, hagree⟩ := listeners_agree h hb
    exact ⟨service, OrderedMap.getElem?_values.mpr ⟨b.name, hentry⟩, hagree.kind.symm.trans hudp⟩

theorem forwarding_listens
    (hjson : serde.fromSlice (serde.toVec client.registration) = some client.registration)
    (hwaiting : ((Registry.run serde server before).sessions[i]?.map (·.phase)) = some .waiting)
    (hs : (Registry.run serde server (before ++
      .register i (serde.toVec client.registration) :: after)).sessions[i]? = some s)
    (hforwarding : s.phase = .forwarding) :
    List.Forall₂ (Registry.Listens server) client.registration.services s.bound := by
  obtain ⟨s₀, hs₀, hphase⟩ := Option.map_eq_some_iff.mp hwaiting
  obtain ⟨s', hs', hreg'⟩ := Registry.register_run hs₀ hphase hjson
  cases hs.symm.trans hs'
  obtain ⟨reg, hreg, -, hlisten⟩ :=
    ((Registry.inv_run serde server _).wf s (List.mem_of_getElem? hs)).forwarding hforwarding
  cases hreg.symm.trans hreg'
  exact hlisten

/-- Whatever else the server configures: once it forwards for a client, each listener is for the
service with its name and position in the map of the client, has its kind and token, and is
mapped to the local address of that service and to no other. -/
theorem services_agree (lookupHost : String → Option (List SocketAddr))
    (hparse : Config.parse decode toml text = .ok config) (hclient : config.client = some client)
    (hjson : serde.fromSlice (serde.toVec client.registration) = some client.registration)
    (hwaiting : ((Registry.run serde server before).sessions[i]?.map (·.phase)) = some .waiting)
    (hs : (Registry.run serde server (before ++
      .register i (serde.toVec client.registration) :: after)).sessions[i]? = some s)
    (hforwarding : s.phase = .forwarding) :
    s.bound.length = client.services.size ∧
    (∀ (id : Nat) (b : Bound), s.bound[id]? = some b → (UInt16.ofNat id).toNat = id ∧
      ∃ service addr, client.services.entries[id]? = some (b.name, service) ∧
        service.localAddr = some addr ∧ Agree server client b service ∧
        (b.service.kind = .tcp →
          client.tcpService (some (tcpHeader (UInt16.ofNat id))) = .ok service ∧
          client.tcpTarget lookupHost (some (tcpHeader (UInt16.ofNat id))) =
            resolveLocal lookupHost addr (service.preferIpv6 || client.preferIpv6)) ∧
        (b.service.kind = .udp → ∀ destinations, client.destinations lookupHost = .ok destinations →
          ∃ target, resolveLocal lookupHost addr (service.preferIpv6 || client.preferIpv6) =
            .ok target ∧
            destinations.lookup (UInt16.ofNat id) = some target)) ∧
    ∀ destinations, client.destinations lookupHost = .ok destinations → ∀ k : UInt16,
      k ∈ destinations ↔ ∃ b, s.bound[k.toNat]? = some b ∧ b.service.kind = .udp := by
  obtain ⟨hsize, hlocal⟩ := client_ok hparse hclient
  have hlisten := forwarding_listens hjson hwaiting hs hforwarding
  have hlength := length_listeners hlisten
  refine ⟨hlength, fun id b hb => ?_, fun _ hdest => mem_destinations_listeners hlisten hsize hdest⟩
  have hid : id < client.services.size := hlength ▸ (List.getElem?_eq_some_iff.mp hb).1
  obtain ⟨service, hentry, hagree⟩ := listeners_agree hlisten hb
  obtain ⟨addr, haddr⟩ := hlocal b.name service (List.mem_of_getElem? hentry)
  have hvalue := OrderedMap.getElem?_values.mpr ⟨b.name, hentry⟩
  have htarget : client.destination lookupHost service =
      resolveLocal lookupHost addr (service.preferIpv6 || client.preferIpv6) := by
    rw [Side.destination, haddr]
    rfl
  refine ⟨?_, service, addr, hentry, haddr, hagree, fun htcp => ?_,
    fun hudp destinations hdest => ?_⟩
  · rw [UInt16.toNat_ofNat', Nat.mod_eq_of_lt (by omega)]
  · have hservice := Side.tcpService_header hsize hvalue (hagree.kind ▸ htcp)
    refine ⟨hservice, ?_⟩
    rw [Side.tcpTarget, hservice, ← htarget]
    rfl
  · rw [← htarget]
    exact Side.destinations_udp hdest hsize hvalue (hagree.kind ▸ hudp)

end

-- ---------------------------------------------------------------------------
-- A client that uses two of the three services of a server
-- ---------------------------------------------------------------------------

namespace Sample

def transport : Transport where
  noise := { pattern := "Noise_XX_25519_ChaChaPoly_BLAKE2s" }
  quic :=
    { certificate := some "cert.pem", privateKey := some "key.pem", trustedRoot := some "root.pem" }

def server : Side where
  bindAddr := some "0.0.0.0:2333"
  defaultToken := some "s3cret"
  transport := transport
  services :=
    { entries :=
        [("dns", { kind := .udp, bindAddr := some "0.0.0.0:53" }),
          ("mail", { bindAddr := some "0.0.0.0:25" }),
          ("web", { token := some "www", bindAddr := some "0.0.0.0:80" })]
      sorted := by decide +kernel }

def file : Side where
  remoteAddr := some "192.0.2.1:2333"
  defaultToken := some "www"
  transport := transport
  services :=
    { entries :=
        [("dns", { kind := .udp, token := some "s3cret", localAddr := some "127.0.0.1:5353" }),
          ("web", { localAddr := some "127.0.0.1:8080" })]
      sorted := by decide +kernel }

def client : Side := file.withHeartbeat false

def json : Bytes :=
  ("\x7b\"version\":1,\"services\":[" ++
    "\x7b\"name\":\"dns\",\"kind\":\"udp\",\"token\":\"s3cret\"\x7d," ++
    "\x7b\"name\":\"web\",\"kind\":\"tcp\",\"token\":\"www\"\x7d]\x7d").toList.map
    fun c => UInt8.ofNat c.toNat

def serde : Serde where
  toVec _ := json
  fromSlice bytes := if bytes = json then some client.registration else none

def before : List PortAction := [.connect, .connect]

def after : List PortAction := [.bind 1, .bind 1, .reply 1 true, .confirm 1 true]

def session : Setup where
  phase := .forwarding
  registration := some client.registration
  bound :=
    [⟨"dns", { kind := .udp, bindAddr := some "0.0.0.0:53" }, "0.0.0.0:53"⟩,
      ⟨"web", { token := some "www", bindAddr := some "0.0.0.0:80" }, "0.0.0.0:80"⟩]

def lookupHost : String → Option (List SocketAddr)
  | "127.0.0.1:5353" => some [.v4 0x7f000001 5353]
  | "127.0.0.1:8080" => some [.v4 0x7f000001 8080]
  | _ => none

end Sample

open Sample in
theorem services_agree_two_of_three :
    (Registry.run serde server (before ++
      .register 1 (serde.toVec client.registration) :: after)).sessions[1]? = some session ∧
      session.bound.length = client.services.size ∧
      ∀ destinations, client.destinations lookupHost = .ok destinations → ∀ k : UInt16,
        k ∈ destinations ↔ ∃ b, session.bound[k.toNat]? = some b ∧ b.service.kind = .udp := by
  have hparse : Config.parse (fun _ => none) (fun _ => .ok ⟨none, some file⟩) "" =
      .ok ⟨none, some client⟩ := by
    decide +kernel
  have hwaiting : (Registry.run serde server before).sessions[1]?.map (·.phase) =
      some .waiting := by
    decide +kernel
  have hs : (Registry.run serde server (before ++
      .register 1 (serde.toVec client.registration) :: after)).sessions[1]? = some session := by
    decide +kernel
  have hjson : serde.fromSlice (serde.toVec client.registration) = some client.registration := by
    simp [serde]
  have hagree := services_agree lookupHost hparse rfl hjson hwaiting hs rfl
  exact ⟨hs, hagree.1, hagree.2.2⟩

end Cathole
