import Cathole.Config
import Cathole.Proxy.Flows

/-!
# Registration and service IDs

What `proxy.rs`, `proxy/client.rs` and `proxy/server.rs` make of a registration:
the offers the client sends, the checks with which the server turns them into
the services it will bind, and the three places where the client counts its
services to give meaning to an ID. The JSON library is a `Serde`.
-/

namespace Cathole

open Words (toBe fromBe)

structure Offer where
  name : String
  kind : Kind
  token : String
  deriving DecidableEq, Repr

structure Registration where
  version : UInt8
  services : List Offer
  deriving DecidableEq, Repr

/-- `serde_json` for registrations. -/
structure Serde where
  toVec : Registration → Bytes
  fromSlice : Bytes → Option Registration

theorem partner_left {R : α → β → Prop} {l : List α} {l' : List β} {k : Nat} {b : β}
    (h : List.Forall₂ R l l') (hb : l'[k]? = some b) : ∃ a, l[k]? = some a ∧ R a b := by
  obtain ⟨hlt, rfl⟩ := List.getElem?_eq_some_iff.mp hb
  have hlt' : k < l.length := h.length_eq ▸ hlt
  exact ⟨l[k], List.getElem?_eq_getElem hlt', h.get hlt' hlt⟩

theorem partner_right {R : α → β → Prop} {l : List α} {l' : List β} {k : Nat} {a : α}
    (h : List.Forall₂ R l l') (ha : l[k]? = some a) : ∃ b, l'[k]? = some b ∧ R a b :=
  partner_left (R := fun b a => R a b) h.flip ha

-- ---------------------------------------------------------------------------
-- The server
-- ---------------------------------------------------------------------------

namespace Side

/-- The loop over the offers; `names` are those of the offers before. -/
def validateOffers (cfg : Side) (names : List String) :
    List Offer → Except Fault (List (String × Service))
  | [] => .ok []
  | offer :: rest => do
    ensure (offer.name ∉ names) "duplicate service"
    let service ← context (cfg.services.get offer.name) "service authentication failed"
    ensure (offer.kind = service.kind && cfg.token service = offer.token)
      "service authentication failed"
    let definitions ← cfg.validateOffers (offer.name :: names) rest
    pure ((offer.name, service) :: definitions)

/-- What the server checks before it binds anything. -/
def validate (cfg : Side) (reg : Registration) : Except Fault (List (String × Service)) := do
  ensure (reg.version = 1 && !reg.services.isEmpty && reg.services.length ≤ 256)
    "invalid registration"
  cfg.validateOffers [] reg.services

/-- The offer stands for this service of the server. -/
structure Grants (cfg : Side) (offer : Offer) (definition : String × Service) : Prop where
  name : definition.1 = offer.name
  service : cfg.services.get offer.name = some definition.2
  kind : offer.kind = definition.2.kind
  token : cfg.token definition.2 = offer.token

/-- Version, number and names of the offers are right, and each stands for a
service of the server. -/
structure Authorised (cfg : Side) (reg : Registration) : Prop where
  version : reg.version = 1
  some_offer : reg.services ≠ []
  limit : reg.services.length ≤ 256
  names : (reg.services.map (·.name)).Nodup
  offers : ∀ offer ∈ reg.services, ∃ service, cfg.services.get offer.name = some service ∧
    offer.kind = service.kind ∧ offer.token = cfg.token service

variable {cfg : Side} {reg : Registration} {definitions : List (String × Service)}

theorem validateOffers_ok (h : cfg.validateOffers names offers = .ok definitions) :
    List.Forall₂ cfg.Grants offers definitions ∧ (offers.map (·.name)).Nodup ∧
      ∀ offer ∈ offers, offer.name ∉ names := by
  induction offers generalizing names definitions with
  | nil =>
    cases h
    exact ⟨.nil, .nil, by simp⟩
  | cons offer rest ih =>
    simp only [validateOffers, bind_eq_ok, pure_eq_ok, ensure_eq_ok, context_eq_ok] at h
    obtain ⟨_, hname, service, hservice, _, hauth, more, hmore, rfl⟩ := h
    simp only [Bool.and_eq_true, decide_eq_true_eq] at hname hauth
    obtain ⟨hgrants, hnodup, hfresh⟩ := ih hmore
    refine ⟨.cons ⟨rfl, hservice, hauth.1, hauth.2⟩ hgrants, ?_, ?_⟩
    · rw [List.map_cons, List.nodup_cons]
      refine ⟨?_, hnodup⟩
      rintro hmem
      obtain ⟨other, hother, he⟩ := List.mem_map.mp hmem
      exact hfresh other hother (he ▸ List.mem_cons_self)
    · intro other hother
      rcases List.mem_cons.mp hother with rfl | hother
      · exact hname
      · exact fun hmem => hfresh other hother (List.mem_cons_of_mem _ hmem)

theorem validate_ok (h : cfg.validate reg = .ok definitions) :
    cfg.Authorised reg ∧ List.Forall₂ cfg.Grants reg.services definitions := by
  simp only [validate, bind_eq_ok, ensure_eq_ok] at h
  obtain ⟨_, hreg, h⟩ := h
  simp only [Bool.and_eq_true, decide_eq_true_eq, Bool.not_eq_true',
    List.isEmpty_eq_false_iff] at hreg
  obtain ⟨hgrants, hnodup, -⟩ := validateOffers_ok h
  refine ⟨⟨hreg.1.1, hreg.1.2, hreg.2, hnodup, fun offer hoffer => ?_⟩, hgrants⟩
  obtain ⟨k, hk⟩ := List.getElem?_of_mem hoffer
  obtain ⟨definition, -, hgrant⟩ := partner_right hgrants hk
  exact ⟨definition.2, hgrant.service, hgrant.kind, hgrant.token.symm⟩

end Side

-- ---------------------------------------------------------------------------
-- The client
-- ---------------------------------------------------------------------------

section

variable (lookupHost : String → Option (List SocketAddr))

namespace Side

def registration (cfg : Side) : Registration where
  version := 1
  services := cfg.services.entries.map fun (name, s) => ⟨name, s.kind, cfg.token s⟩

def destination (cfg : Side) (s : Service) : Except Fault SocketAddr := do
  let addr ← orFault s.localAddr .panic
  resolveLocal lookupHost addr (s.preferIpv6 || cfg.preferIpv6)

/-- The loop that fills the client's `destinations`, from `id` on. -/
def fillDestinations (cfg : Side) (id : Nat) :
    List Service → Table UInt16 SocketAddr → Except Fault (Table UInt16 SocketAddr)
  | [], table => .ok table
  | s :: rest, table => do
    if s.kind = .udp then
      let addr ← cfg.destination lookupHost s
      cfg.fillDestinations (id + 1) rest (table.insert (UInt16.ofNat id) addr)
    else cfg.fillDestinations (id + 1) rest table

def destinations (cfg : Side) : Except Fault (Table UInt16 SocketAddr) :=
  cfg.fillDestinations lookupHost 0 cfg.services.values ∅

/-- The service `tcp_client` selects for the first frame of a stream. -/
def tcpService (cfg : Side) (header : Option Bytes) : Except Fault Service := do
  let header ← context header "missing TCP header"
  ensure (header.length == 2) "invalid TCP header"
  let service ← context cfg.services.values[fromBe header]? "unknown service"
  ensure (service.kind = .tcp) "wrong service type"
  pure service

def tcpTarget (cfg : Side) (header : Option Bytes) : Except Fault SocketAddr := do
  let service ← cfg.tcpService header
  cfg.destination lookupHost service

end Side

end

/-- The first frame `tcp_server` writes on a stream. -/
def tcpHeader (service : UInt16) : Bytes := toBe 2 service.toNat

end Cathole
