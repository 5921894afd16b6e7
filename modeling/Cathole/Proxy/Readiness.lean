import Cathole.Crypto.Frame
import Cathole.Proxy.Agreement

/-!
# When a client gets its tunnel

Which registrations are served: the checks before the binding accept every
authorised registration, and the binding then succeeds exactly if the ports of the
services it asks for are free and distinct. Nothing keeps a configuration from
naming one port for two services, or that of the tunnel; a client that wants them
never gets a tunnel, nor does one whose registration is longer than a frame.
-/

namespace Cathole

namespace Side

variable {cfg : Side} {reg : Registration}

theorem validateOffers_complete (hnodup : (offers.map Offer.name).Nodup)
    (hfresh : ∀ offer ∈ offers, offer.name ∉ names)
    (hoffers : ∀ offer ∈ offers, ∃ service, cfg.services.get offer.name = some service ∧
      offer.kind = service.kind ∧ offer.token = cfg.token service) :
    ∃ definitions, cfg.validateOffers names offers = .ok definitions := by
  induction offers generalizing names with
  | nil => exact ⟨[], rfl⟩
  | cons offer rest ih =>
    rw [List.map_cons, List.nodup_cons] at hnodup
    obtain ⟨service, hservice, hkind, htoken⟩ := hoffers offer List.mem_cons_self
    have hnew : ∀ other ∈ rest, other.name ∉ offer.name :: names := by
      intro other hother hmem
      rcases List.mem_cons.mp hmem with he | hmem
      · exact hnodup.1 (he ▸ List.mem_map_of_mem hother)
      · exact hfresh other (List.mem_cons_of_mem _ hother) hmem
    obtain ⟨definitions, hrest⟩ := ih hnodup.2 hnew
      fun other hother => hoffers other (List.mem_cons_of_mem _ hother)
    refine ⟨(offer.name, service) :: definitions, ?_⟩
    simp only [validateOffers, bind_eq_ok, pure_eq_ok, ensure_eq_ok, context_eq_ok]
    refine ⟨(), by simpa using hfresh offer List.mem_cons_self, service, hservice, (),
      ?_, definitions, hrest, rfl⟩
    simp [hkind, htoken]

theorem Authorised.validate (h : cfg.Authorised reg) :
    ∃ definitions, cfg.validate reg = .ok definitions := by
  have hfresh : ∀ offer ∈ reg.services, offer.name ∉ ([] : List String) := by simp
  obtain ⟨definitions, hoffers⟩ := validateOffers_complete h.names hfresh h.offers
  refine ⟨definitions, ?_⟩
  simp only [Side.validate, bind_eq_ok, ensure_eq_ok]
  refine ⟨(), ?_, hoffers⟩
  simp [h.version, h.some_offer, h.limit]

end Side

namespace Registry

variable {serde : Serde} {cfg : Side} {s : Setup} {taken : Finset Port}

/-- The steps of a session that nothing disturbs. A client cannot send a registration
that does not fit a frame with its nonce and its tag; it closes the connection. -/
def attempt (i : Nat) (payload : Bytes) (n : Nat) : List PortAction :=
  if payload.length + 24 ≤ maxFrame then
    .register i payload :: (List.replicate n (.bind i) ++ [.reply i true, .confirm i true])
  else [.abort i]

theorem session_attempt (i : Nat) (payload : Bytes) (n : Nat) :
    ∀ action ∈ attempt i payload n, session action = some i := by
  unfold attempt
  split
  · simp +contextual [session, or_imp]
  · simp [session]

def portOf (definition : String × Service) : Option Port :=
  definition.2.bindAddr.map fun addr => ⟨definition.2.kind, addr⟩

def advances (serde : Serde) (cfg : Side) (state : Setup × Finset Port) (action : PortAction) :
    Setup × Finset Port := advance serde cfg action state.1 state.2

theorem foldl_step_session (serde : Serde) (cfg : Side) {r : Registry}
    (hs : r.sessions[i]? = some s) (actions : List PortAction)
    (hactions : ∀ action ∈ actions, session action = some i) :
    (actions.foldl (step serde cfg) r).sessions[i]? =
        some (actions.foldl (advances serde cfg) (s, r.taken)).1 ∧
      (actions.foldl (step serde cfg) r).taken =
      (actions.foldl (advances serde cfg) (s, r.taken)).2 := by
  induction actions generalizing r s with
  | nil => exact ⟨hs, rfl⟩
  | cons action rest ih =>
    have hi := hactions action List.mem_cons_self
    have hafter := getElem?_set_of hs (advance serde cfg action s r.taken).1 i
    rw [if_pos rfl] at hafter
    rw [List.foldl_cons, List.foldl_cons, step_session hi hs]
    exact ih hafter fun action ha => hactions action (List.mem_cons_of_mem _ ha)

-- ---------------------------------------------------------------------------
-- The loop that binds
-- ---------------------------------------------------------------------------

structure Free (taken : Finset Port) (definitions : List (String × Service)) (ports : List Port) :
    Prop where
  wanted : List.Forall₂ (fun definition port => portOf definition = some port) definitions ports
  distinct : ports.Nodup
  free : ∀ port ∈ ports, port ∉ taken

variable {definition : String × Service} {rest : List (String × Service)} {port : Port}
  {ports : List Port}

theorem free_cons : Free taken (definition :: rest) (port :: ports) ↔
    portOf definition = some port ∧ port ∉ taken ∧ Free (insert port taken) rest ports := by
  constructor
  · rintro ⟨hwanted, hdistinct, hfree⟩
    rw [List.forall₂_cons] at hwanted
    rw [List.nodup_cons] at hdistinct
    refine ⟨hwanted.1, hfree port List.mem_cons_self, hwanted.2, hdistinct.2,
      fun other hother hmem => ?_⟩
    rcases Finset.mem_insert.mp hmem with rfl | hmem
    · exact hdistinct.1 hother
    · exact hfree other (List.mem_cons_of_mem _ hother) hmem
  · rintro ⟨hport, hnew, hwanted, hdistinct, hfree⟩
    refine ⟨.cons hport hwanted, List.nodup_cons.mpr ⟨fun hmem => ?_, hdistinct⟩,
      fun other hother => ?_⟩
    · exact hfree port hmem (Finset.mem_insert_self _ _)
    · rcases List.mem_cons.mp hother with rfl | hother
      · exact hnew
      · exact fun hmem => hfree other hother (Finset.mem_insert_of_mem hmem)

theorem foldl_closing (hs : s.phase = .closing) (actions : List PortAction)
    (hactions : ∀ action ∈ actions, ∀ i j, action ≠ .release i j) :
    actions.foldl (advances serde cfg) (s, taken) = (s, taken) := by
  induction actions with
  | nil => rfl
  | cons action rest ih =>
    have hne := hactions action List.mem_cons_self
    have hsame : advances serde cfg (s, taken) action = (s, taken) := by
      cases action with
      | release i j => exact absurd rfl (hne i j)
      | _ => simp [advances, advance, hs]
    rw [List.foldl_cons, hsame]
    exact ih fun action ha => hactions action (List.mem_cons_of_mem _ ha)

theorem bindNext_cases (name : String) (service : Service)
    (rest : List (String × Service)) (s : Setup) (taken : Finset Port) :
    (∃ port s', portOf (name, service) = some port ∧ port ∉ taken ∧ s'.phase = .binding rest ∧
      bindNext name service rest s taken = (s', insert port taken)) ∨
    ∃ s', (∀ port, portOf (name, service) = some port → port ∈ taken) ∧ s'.phase = .closing ∧
      bindNext name service rest s taken = (s', taken) := by
  unfold bindNext
  split
  · rename_i haddr
    exact .inr ⟨_, by simp [portOf, haddr], rfl, rfl⟩
  · rename_i addr haddr
    have hport : portOf (name, service) = some (Bound.port ⟨name, service, addr⟩) := by
      simp [portOf, haddr, Bound.port]
    dsimp only
    split
    · rename_i htaken
      refine .inr ⟨_, fun port he => ?_, rfl, rfl⟩
      cases hport.symm.trans he
      exact htaken
    · exact .inl ⟨_, _, hport, ‹_›, rfl, rfl⟩

/-- The loop binds everything, or ends with the session. -/
theorem bindAll (taken : Finset Port) (serde : Serde) (cfg : Side) (i : Nat)
    (hs : s.phase = .binding rest) :
    let last := (List.replicate rest.length (.bind i)).foldl (advances serde cfg) (s, taken)
    (last.1.phase = .binding [] ∧ ∃ ports, Free taken rest ports ∧
      last.2 = taken ∪ ports.toFinset) ∨
      (last.1.phase = .closing ∧ ∀ ports, ¬Free taken rest ports) := by
  induction rest generalizing s taken with
  | nil => exact .inl ⟨hs, [], ⟨.nil, .nil, by simp⟩, by simp⟩
  | cons definition rest ih =>
    obtain ⟨name, service⟩ := definition
    have hadvance : advances serde cfg (s, taken) (.bind i) =
        bindNext name service rest s taken := by
      simp [advances, advance, hs]
    rw [List.length_cons, List.replicate_succ, List.foldl_cons, hadvance]
    obtain ⟨port, s', hport, hnew, hphase, he⟩ | ⟨s', htaken, hphase, he⟩ :=
      bindNext_cases name service rest s taken
    · rw [he]
      obtain ⟨hlast, ports, hfree, htook⟩ | ⟨hlast, hno⟩ := ih _ hphase
      · refine .inl ⟨hlast, port :: ports, free_cons.mpr ⟨hport, hnew, hfree⟩, ?_⟩
        rw [htook, List.toFinset_cons, Finset.insert_union, Finset.union_insert]
      · refine .inr ⟨hlast, fun ports hfree => ?_⟩
        cases ports with
        | nil => cases hfree.wanted
        | cons port' ports =>
          obtain ⟨hport', -, hrest⟩ := free_cons.mp hfree
          cases hport.symm.trans hport'
          exact hno ports hrest
    · rw [he, foldl_closing hphase _ (by simp +contextual [List.mem_replicate])]
      refine .inr ⟨hphase, fun ports hfree => ?_⟩
      cases ports with
      | nil => cases hfree.wanted
      | cons port' ports =>
        obtain ⟨hport', hnew, -⟩ := free_cons.mp hfree
        exact hnew (htaken port' hport')

theorem attempt_forwarding (cfg : Side) (taken : Finset Port) (i : Nat) (hs : s.phase = .waiting)
    (hfits : payload.length + 24 ≤ maxFrame) (hparse : serde.fromSlice payload = some reg) :
    let last := (attempt i payload reg.services.length).foldl (advances serde cfg) (s, taken)
    (last.1.phase = .forwarding ∧ ∃ definitions ports, cfg.validate reg = .ok definitions ∧
        Free taken definitions ports ∧ last.2 = taken ∪ ports.toFinset) ∨
      (last.1.phase = .closing ∧
        ∀ definitions, cfg.validate reg = .ok definitions →
          ∀ ports, ¬Free taken definitions ports) := by
  cases hvalid : cfg.validate reg with
  | error e =>
    have hregister : advances serde cfg (s, taken) (.register i payload) =
        ({ s with phase := .closing, registration := some reg }, taken) := by
      simp [advances, advance, hs, register, hparse, hvalid]
    rw [attempt, if_pos hfits, List.foldl_cons, hregister,
      foldl_closing rfl _ (by simp +contextual [or_imp])]
    exact .inr ⟨rfl, fun definitions hok => by cases hok⟩
  | ok definitions =>
    have hregister : advances serde cfg (s, taken) (.register i payload) =
        ({ s with phase := .binding definitions, registration := some reg }, taken) := by
      simp [advances, advance, hs, register, hparse, hvalid]
    have hlength : reg.services.length = definitions.length := (Side.validate_ok hvalid).2.length_eq
    have hbinds := bindAll taken serde cfg i
      (s := { s with phase := .binding definitions, registration := some reg }) rfl
    rw [attempt, if_pos hfits, List.foldl_cons, hregister, List.foldl_append, hlength]
    dsimp only at hbinds
    generalize (List.replicate definitions.length (PortAction.bind i)).foldl
      (advances serde cfg) _ = bound
      at hbinds ⊢
    obtain ⟨s', taken'⟩ := bound
    obtain ⟨hphase, ports, hfree, htook⟩ | ⟨hphase, hno⟩ := hbinds
    · have hends :
          [PortAction.reply i true, .confirm i true].foldl (advances serde cfg) (s', taken') =
          ({ s' with phase := .forwarding }, taken') := by
        dsimp only at hphase
        simp [advances, advance, hphase]
      rw [hends]
      exact .inl ⟨rfl, definitions, ports, rfl, hfree, htook⟩
    · rw [foldl_closing hphase _ (by simp)]
      refine .inr ⟨hphase, fun definitions' hok => ?_⟩
      cases hok
      exact hno

end Registry

-- ---------------------------------------------------------------------------
-- A client and a server
-- ---------------------------------------------------------------------------

section

variable {decode : String → Option Bytes} {serde : Serde} {server client : Side} {i : Nat}
  {before : List PortAction}

def Side.portFor (server : Side) (name : String) : Option Port :=
  (server.services.get name).bind fun service => Registry.portOf (name, service)

def Side.portsFor (server client : Side) : List Port :=
  client.services.entries.filterMap fun e => server.portFor e.1

/-- The server has every service of the client, with its kind and token. -/
def Side.Serves (server client : Side) : Prop :=
  ∀ e ∈ client.services.entries, ∃ service, server.services.get e.1 = some service ∧
    service.kind = e.2.kind ∧ server.token service = client.token e.2

theorem Side.authorised_iff (hclient : client.Accepted decode false) :
    server.Authorised client.registration ↔ server.Serves client := by
  constructor
  · intro h e he
    obtain ⟨service, hservice, hkind, htoken⟩ := h.offers ⟨e.1, e.2.kind, client.token e.2⟩
      (List.mem_map.mpr ⟨e, he, rfl⟩)
    exact ⟨service, hservice, hkind.symm, htoken.symm⟩
  · intro h
    have hsize : client.registration.services.length = client.services.size := List.length_map ..
    refine ⟨rfl, ?_, hsize ▸ hclient.size, ?_, ?_⟩
    · intro hnil
      rw [hnil] at hsize
      exact hclient.some_service hsize.symm
    · rw [Side.registration, List.map_map]
      exact client.services.nodup_keys
    · intro offer hoffer
      obtain ⟨e, he, rfl⟩ := List.mem_map.mp hoffer
      obtain ⟨service, hservice, hkind, htoken⟩ := h e he
      exact ⟨service, hservice, hkind.symm, htoken.symm⟩

theorem Side.portsFor_eq {entries : List (String × Service)}
    (hgrants : List.Forall₂ server.Grants (entries.map fun e => ⟨e.1, e.2.kind, client.token e.2⟩)
      definitions)
    (hwanted : List.Forall₂ (fun definition port => Registry.portOf definition = some port)
      definitions ports) :
    (entries.filterMap fun e => server.portFor e.1) = ports := by
  induction entries generalizing definitions ports with
  | nil =>
    cases hgrants
    cases hwanted
    rfl
  | cons e rest ih =>
    cases hgrants with
    | cons hgrant hgrants =>
      cases hwanted with
      | @cons definition port _ _ hport hwanted =>
        have hfor : server.portFor e.1 = some port := by
          rw [Side.portFor, hgrant.service]
          exact hport
        simp only [List.filterMap_cons, hfor, ih hgrants hwanted]

theorem Side.exists_ports (hserver : server.Accepted decode true)
    (hgrants : List.Forall₂ server.Grants offers definitions) :
    ∃ ports, List.Forall₂ (fun definition port => Registry.portOf definition = some port)
      definitions ports := by
  induction hgrants with
  | nil => exact ⟨[], .nil⟩
  | @cons offer definition _ _ hgrant _ ih =>
    obtain ⟨ports, hports⟩ := ih
    have hmem := OrderedMap.get_eq_some_iff.mp hgrant.service
    obtain ⟨addr, haddr⟩ := validateService_server (hserver.service _ hmem)
    refine ⟨⟨definition.2.kind, addr⟩ :: ports, .cons ?_ hports⟩
    rw [Registry.portOf, haddr]
    rfl

structure Side.Ready (server client : Side) (taken : Finset Port) : Prop where
  serves : server.Serves client
  distinct : (server.portsFor client).Nodup
  free : ∀ port ∈ server.portsFor client, port ∉ taken

theorem Side.Ready.definitions (hserver : server.Accepted decode true)
    (hclient : client.Accepted decode false) (h : server.Ready client taken) :
    ∃ definitions, server.validate client.registration = .ok definitions ∧
      Registry.Free taken definitions (server.portsFor client) := by
  obtain ⟨definitions, hvalid⟩ := ((Side.authorised_iff hclient).mpr h.serves).validate
  have hgrants := (Side.validate_ok hvalid).2
  obtain ⟨ports, hwanted⟩ := Side.exists_ports hserver hgrants
  obtain rfl : server.portsFor client = ports := Side.portsFor_eq hgrants hwanted
  exact ⟨definitions, hvalid, hwanted, h.distinct, h.free⟩

theorem Registry.attempt_run {r : Registry} (server : Side)
    (hjson : serde.fromSlice (serde.toVec client.registration) = some client.registration)
    (hfits : (serde.toVec client.registration).length + 24 ≤ maxFrame)
    (hwaiting : r.sessions[i]?.map (·.phase) = some .waiting) :
    let r' := (attempt i (serde.toVec client.registration) client.services.size).foldl
      (step serde server) r
    (r'.sessions[i]?.map (·.phase) = some .forwarding ∧
      ∃ definitions, server.validate client.registration = .ok definitions ∧
        Free r.taken definitions (server.portsFor client) ∧
        r'.taken = r.taken ∪ (server.portsFor client).toFinset) ∨
    (r'.sessions[i]?.map (·.phase) = some .closing ∧
      ∀ definitions, server.validate client.registration = .ok definitions →
        ∀ ports, ¬Free r.taken definitions ports) := by
  intro r'
  obtain ⟨s, hs, hphase⟩ := Option.map_eq_some_iff.mp hwaiting
  have hsize : client.registration.services.length = client.services.size := List.length_map ..
  have hattempt := attempt_forwarding server r.taken i hphase hfits hjson
  obtain ⟨hafter, htaken⟩ := foldl_step_session serde server hs
    (attempt i (serde.toVec client.registration) client.services.size) (session_attempt i _ _)
  rw [hsize] at hattempt
  dsimp only at hattempt
  rw [hafter, htaken, Option.map_some]
  obtain ⟨hforwarding, definitions, ports, hvalid, hfree, htook⟩ | ⟨hclosing, hno⟩ := hattempt
  · -- The ports of a registration that passes the checks are those of the client.
    obtain rfl : server.portsFor client = ports :=
      Side.portsFor_eq (Side.validate_ok hvalid).2 hfree.wanted
    exact .inl ⟨congrArg some hforwarding, definitions, hvalid, hfree, htook⟩
  · exact .inr ⟨congrArg some hclosing, hno⟩

theorem Side.Ready.forwarding {r : Registry} (hserver : server.Accepted decode true)
    (hclient : client.Accepted decode false)
    (hjson : serde.fromSlice (serde.toVec client.registration) = some client.registration)
    (hfits : (serde.toVec client.registration).length + 24 ≤ maxFrame)
    (hwaiting : r.sessions[i]?.map (·.phase) = some .waiting) (h : server.Ready client r.taken) :
    let r' := (Registry.attempt i (serde.toVec client.registration) client.services.size).foldl
      (Registry.step serde server) r
    r'.sessions[i]?.map (·.phase) = some .forwarding ∧
      r'.taken = r.taken ∪ (server.portsFor client).toFinset := by
  obtain ⟨definitions, hvalid, hfree⟩ := h.definitions hserver hclient
  obtain ⟨hforwarding, -, -, -, htook⟩ | ⟨-, hno⟩ :=
    Registry.attempt_run server hjson hfits hwaiting
  · exact ⟨hforwarding, htook⟩
  · exact absurd hfree (hno definitions hvalid _)

-- ---------------------------------------------------------------------------
-- The socket of the tunnel itself
-- ---------------------------------------------------------------------------

def Side.socket (cfg : Side) : Finset Port := (cfg.bindAddr.map (Port.mk .udp)).toFinset

/-- The endpoint is open, and no session has come yet. -/
def Registry.opened (cfg : Side) : Registry where
  sessions := []
  taken := cfg.socket

end

end Cathole
