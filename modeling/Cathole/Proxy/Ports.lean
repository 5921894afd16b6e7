import Cathole.Lib.Ownership
import Cathole.Proxy.Registration

/-!
# Who holds the public ports

Any number of sessions of `proxy/server.rs` on one machine, from the connection
to the forwarding loop. They share the port table of the operating system:
binding succeeds if and only if the port is free, and dropping a listener frees
it. Sessions interleave between any two binds, and a session that fails or ends
drops its listeners one by one, in any order, while others go on.
-/

namespace Cathole

structure Port where
  kind : Kind
  addr : String
  deriving DecidableEq, Repr

structure Bound where
  name : String
  service : Service
  addr : String
  deriving DecidableEq, Repr

def Bound.port (b : Bound) : Port where
  kind := b.service.kind
  addr := b.addr

def Bound.definition (b : Bound) : String × Service := (b.name, b.service)

inductive Phase
  -- Up to the registration.
  | waiting
  -- The registration was accepted; these services are still to be bound.
  | binding (rest : List (String × Service))
  -- The reply was sent, and the client's FIN is awaited.
  | confirming
  | forwarding
  -- The session failed or ended, and is being dropped.
  | closing
  | ended
  deriving DecidableEq, Repr

structure Setup where
  phase : Phase
  registration : Option Registration
  bound : List Bound
  deriving DecidableEq, Repr

def Setup.new : Setup where
  phase := .waiting
  registration := none
  bound := []

def Setup.ports (s : Setup) : List Port := s.bound.map (·.port)

structure Registry where
  sessions : List Setup
  taken : Finset Port
  deriving DecidableEq

inductive PortAction
  | connect
  | register (i : Nat) (payload : Bytes)
  | bind (i : Nat)
  -- The reply is sealed and written.
  | reply (i : Nat) (ok : Bool)
  -- The client finishes its stream, or does something else.
  | confirm (i : Nat) (ok : Bool)
  -- A timeout, a failed handshake, or the end of a running session.
  | abort (i : Nat)
  -- A closing session drops its `j`-th listener, or is gone when it has none.
  | release (i j : Nat)
  deriving DecidableEq, Repr

namespace Registry

def new : Registry where
  sessions := []
  taken := ∅

section

variable (serde : Serde) (cfg : Side)

def register (payload : Bytes) (s : Setup) : Setup :=
  match serde.fromSlice payload with
  | none => { s with phase := .closing }
  | some reg =>
    match cfg.validate reg with
    | .ok definitions => { s with phase := .binding definitions, registration := some reg }
    | .error _ => { s with phase := .closing, registration := some reg }

def bindNext (name : String) (service : Service) (rest : List (String × Service)) (s : Setup)
    (taken : Finset Port) : Setup × Finset Port :=
  match service.bindAddr with
  | none => ({ s with phase := .closing }, taken)
  | some addr =>
    let b : Bound := { name, service, addr }
    if b.port ∈ taken then ({ s with phase := .closing }, taken)
    else ({ s with phase := .binding rest, bound := s.bound ++ [b] }, insert b.port taken)

def releaseAt (j : Nat) (s : Setup) (taken : Finset Port) : Setup × Finset Port :=
  match s.bound[j]? with
  | none => ({ s with phase := if s.bound.isEmpty then .ended else s.phase }, taken)
  | some b => ({ s with bound := s.bound.eraseIdx j }, taken.erase b.port)

/-- What an action does to its session and to the port table. -/
def advance (action : PortAction) (s : Setup) (taken : Finset Port) : Setup × Finset Port :=
  match action, s.phase with
  | .register _ payload, .waiting => (register serde cfg payload s, taken)
  | .bind _, .binding ((name, service) :: rest) => bindNext name service rest s taken
  | .reply _ ok, .binding [] => ({ s with phase := if ok then .confirming else .closing }, taken)
  | .confirm _ ok, .confirming => ({ s with phase := if ok then .forwarding else .closing }, taken)
  | .abort _, .closing => (s, taken)
  | .abort _, .ended => (s, taken)
  | .abort _, _ => ({ s with phase := .closing }, taken)
  | .release _ j, .closing => releaseAt j s taken
  | _, _ => (s, taken)

def session : PortAction → Option Nat
  | .connect => none
  | .register i _ | .bind i | .reply i _ | .confirm i _ | .abort i | .release i _ => some i

def step (r : Registry) (action : PortAction) : Registry :=
  match session action with
  | none => { r with sessions := r.sessions ++ [.new] }
  | some i =>
    match r.sessions[i]? with
    | none => r
    | some s =>
      let (s, taken) := advance serde cfg action s r.taken
      { sessions := r.sessions.set i s, taken }

def run (actions : List PortAction) : Registry := actions.foldl (step serde cfg) new

end

-- ---------------------------------------------------------------------------
-- What one session holds
-- ---------------------------------------------------------------------------

variable {serde : Serde} {cfg : Side} {s s' : Setup} {taken taken' : Finset Port}

/-- The session's registration was accepted, and `definitions` are its services. -/
def Registered (cfg : Side) (s : Setup) (definitions : List (String × Service)) : Prop :=
  ∃ reg, s.registration = some reg ∧ cfg.validate reg = .ok definitions

structure Wf (cfg : Side) (s : Setup) : Prop where
  addr : ∀ b ∈ s.bound, b.service.bindAddr = some b.addr
  held : ∀ b ∈ s.bound, ∃ definitions, Registered cfg s definitions ∧ b.definition ∈ definitions
  phase : match s.phase with
    | .waiting | .ended => s.bound = []
    | .binding rest => Registered cfg s (s.bound.map (·.definition) ++ rest)
    | .confirming | .forwarding => Registered cfg s (s.bound.map (·.definition))
    | .closing => True

theorem wf_connect : Wf cfg .new := ⟨by simp [Setup.new], by simp [Setup.new], rfl⟩

theorem Wf.closing (h : Wf cfg s) : Wf cfg { s with phase := .closing } := ⟨h.addr, h.held, trivial⟩

theorem Wf.register (h : Wf cfg s) (hs : s.phase = .waiting) :
    Wf cfg (Registry.register serde cfg payload s) := by
  have hbound : s.bound = [] := by
    have hphase := h.phase
    rwa [hs] at hphase
  unfold Registry.register
  split
  · exact h.closing
  · split
    · rename_i reg _ _ definitions hvalid
      refine ⟨by simp [hbound], by simp [hbound], ?_⟩
      exact ⟨reg, rfl, by simpa [hbound] using hvalid⟩
    · exact ⟨by simp [hbound], by simp [hbound], trivial⟩

theorem Wf.bindNext (h : Wf cfg s) (hs : s.phase = .binding ((name, service) :: rest)) :
    Wf cfg (Registry.bindNext name service rest s taken).1 := by
  have hphase := h.phase
  rw [hs] at hphase
  unfold Registry.bindNext
  split
  · exact h.closing
  · rename_i addr haddr
    dsimp only
    split
    · exact h.closing
    · have hdefs : Registered cfg s
          ((s.bound ++ [(⟨name, service, addr⟩ : Bound)]).map (·.definition) ++ rest) := by
        simpa [Bound.definition] using hphase
      refine ⟨fun b hb => ?_, fun b hb => ?_, hdefs⟩
      · rcases List.mem_append.mp hb with hb | hb
        · exact h.addr b hb
        · cases List.mem_singleton.mp hb
          exact haddr
      · exact ⟨_, hdefs, List.mem_append_left _ (List.mem_map_of_mem hb)⟩

theorem Wf.releaseAt (h : Wf cfg s) (hs : s.phase = .closing) :
    Wf cfg (Registry.releaseAt j s taken).1 := by
  unfold Registry.releaseAt
  split
  · refine ⟨h.addr, h.held, ?_⟩
    cases hbound : s.bound with
    | nil => simp
    | cons b bound =>
      simp only [List.isEmpty_cons, Bool.false_eq_true, if_false, hs]
  · have hsub : ∀ x ∈ s.bound.eraseIdx j, x ∈ s.bound := fun x hx => List.mem_of_mem_eraseIdx hx
    refine ⟨fun x hx => h.addr x (hsub x hx), fun x hx => h.held x (hsub x hx), ?_⟩
    rw [hs]
    trivial

theorem Wf.advance (h : Wf cfg s) (action : PortAction) :
    Wf cfg (Registry.advance serde cfg action s taken).1 := by
  have hphase := h.phase
  unfold Registry.advance
  split
  · exact h.register ‹_›
  · exact h.bindNext ‹_›
  · rename_i ok hs
    rw [hs] at hphase
    cases ok with
    | true =>
      dsimp only at hphase
      rw [List.append_nil] at hphase
      exact ⟨h.addr, h.held, hphase⟩
    | false => exact h.closing
  · rename_i ok hs
    rw [hs] at hphase
    cases ok with
    | true => exact ⟨h.addr, h.held, hphase⟩
    | false => exact h.closing
  · exact h
  · exact h
  · exact h.closing
  · exact h.releaseAt ‹_›
  · exact h

-- ---------------------------------------------------------------------------
-- The port table
-- ---------------------------------------------------------------------------

/-- Everything an action can do to the ports of its session. -/
theorem advance_trade (serde : Serde) (cfg : Side) (action : PortAction) (s : Setup)
    (taken : Finset Port) :
    Trade s.ports taken (advance serde cfg action s taken).1.ports
      (advance serde cfg action s taken).2 := by
  unfold advance
  split
  · unfold register
    split
    · exact .same
    · split <;> exact .same
  · unfold bindNext
    split
    · exact .same
    · dsimp only
      split
      · exact .same
      · rename_i hfree
        simp only [Setup.ports, List.map_append, List.map_cons, List.map_nil]
        exact .took hfree
  · exact .same
  · exact .same
  · exact .same
  · exact .same
  · exact .same
  · rename_i j _
    unfold releaseAt
    split
    · exact .same
    · rename_i b hb
      obtain ⟨hlt, rfl⟩ := List.getElem?_eq_some_iff.mp hb
      exact .gave ((List.getElem_cons_eraseIdx_perm hlt).map Bound.port)
  · exact .same

-- ---------------------------------------------------------------------------
-- All the sessions
-- ---------------------------------------------------------------------------

variable {r : Registry} {i : Nat}

theorem getElem?_set_of {sessions : List Setup} (hs : sessions[i]? = some s)
    (s' : Setup) (j : Nat) :
    (sessions.set i s')[j]? = if j = i then some s' else sessions[j]? := by
  rw [List.getElem?_set]
  by_cases h : i = j
  · subst h
    simp [(List.getElem?_eq_some_iff.mp hs).1]
  · simp [h, Ne.symm h]

theorem step_connect (h : session action = none) :
    step serde cfg r action = { r with sessions := r.sessions ++ [.new] } := by
  unfold step
  rw [h]

theorem step_session (h : session action = some i) (hs : r.sessions[i]? = some s) :
    step serde cfg r action =
      { sessions := r.sessions.set i (advance serde cfg action s r.taken).1
        taken := (advance serde cfg action s r.taken).2 } := by
  unfold step
  rw [h]
  dsimp only
  rw [hs]

theorem step_unknown (h : session action = some i) (hs : r.sessions[i]? = none) :
    step serde cfg r action = r := by
  unfold step
  rw [h]
  dsimp only
  rw [hs]

def held (r : Registry) (j : Nat) : List Port := (r.sessions[j]?.map Setup.ports).getD []

theorem held_eq {s : Setup} (hs : r.sessions[j]? = some s) : r.held j = s.ports := by
  rw [held, hs]
  rfl

theorem mem_held : port ∈ r.held j ↔ ∃ s, r.sessions[j]? = some s ∧ port ∈ s.ports := by
  cases hs : r.sessions[j]? with
  | none => simp [held, hs]
  | some s => simp [held_eq hs]

theorem held_connect : held { r with sessions := r.sessions ++ [.new] } = r.held := by
  funext j
  unfold held
  rcases Nat.lt_trichotomy j r.sessions.length with hlt | rfl | hlt
  · rw [List.getElem?_append_left hlt]
  · simp [Setup.ports, Setup.new]
  · have hlong : (r.sessions ++ [Setup.new]).length ≤ j := by simpa using hlt
    rw [List.getElem?_eq_none hlong, List.getElem?_eq_none hlt.le]

theorem step_trade (serde : Serde) (cfg : Side) (r : Registry) (action : PortAction) :
    ∃ j ports, (r.step serde cfg action).held = Function.update r.held j ports ∧
      Trade (r.held j) r.taken ports (r.step serde cfg action).taken := by
  cases hj : session action with
  | none =>
    rw [step_connect hj, held_connect]
    exact ⟨0, r.held 0, (Function.update_eq_self 0 r.held).symm, .same⟩
  | some j =>
    cases hs : r.sessions[j]? with
    | none =>
      rw [step_unknown hj hs]
      exact ⟨j, r.held j, (Function.update_eq_self j r.held).symm, .same⟩
    | some s =>
      rw [step_session hj hs]
      refine ⟨j, (advance serde cfg action s r.taken).1.ports, ?_, ?_⟩
      · funext k
        simp only [held, getElem?_set_of hs, Function.update_apply]
        split <;> rfl
      · rw [held_eq hs]
        exact advance_trade serde cfg action s r.taken

/-- Some steps of the `i`-th of many registries on one table. -/
theorem owned_foldl {held : Nat × Nat → List Port} (h : Owned held r.taken)
    (hheld : ∀ j, held (i, j) = r.held j) (serde : Serde) (cfg : Side) (actions : List PortAction) :
    ∃ held', Owned held' (actions.foldl (step serde cfg) r).taken ∧
      (∀ j, held' (i, j) = (actions.foldl (step serde cfg) r).held j) ∧
      ∀ k j, k ≠ i → held' (k, j) = held (k, j) := by
  induction actions generalizing r held with
  | nil => exact ⟨held, h, hheld, fun _ _ _ => rfl⟩
  | cons action rest ih =>
    obtain ⟨j, ports, hstep, htrade⟩ := step_trade serde cfg r action
    rw [← hheld j] at htrade
    have hafter : ∀ k, Function.update held (i, j) ports (i, k) =
        (r.step serde cfg action).held k := by
      intro k
      rw [hstep]
      simp only [Function.update_apply, Prod.mk.injEq, true_and, hheld]
    obtain ⟨held', howned, hheld', hother⟩ := ih (h.trade htrade) hafter
    refine ⟨held', howned, hheld', fun k j' hk => (hother k j' hk).trans ?_⟩
    exact Function.update_of_ne (fun he => hk (congrArg Prod.fst he)) ..

def AllWf (cfg : Side) (r : Registry) : Prop := ∀ s ∈ r.sessions, Wf cfg s

theorem AllWf.step (h : AllWf cfg r) (action : PortAction) :
    AllWf cfg (r.step serde cfg action) := by
  intro s hmem
  cases hj : session action with
  | none =>
    rw [step_connect hj] at hmem
    rcases List.mem_append.mp hmem with hmem | hmem
    · exact h s hmem
    · cases List.mem_singleton.mp hmem
      exact wf_connect
  | some j =>
    cases hs : r.sessions[j]? with
    | none =>
      rw [step_unknown hj hs] at hmem
      exact h s hmem
    | some s₀ =>
      rw [step_session hj hs] at hmem
      rcases List.mem_or_eq_of_mem_set hmem with hmem | rfl
      · exact h s hmem
      · exact (h s₀ (List.mem_of_getElem? hs)).advance action

theorem AllWf.foldl (h : AllWf cfg r) (serde : Serde) (actions : List PortAction) :
    AllWf cfg (actions.foldl (Registry.step serde cfg) r) :=
  List.foldlRecOn actions (Registry.step serde cfg) h fun _ h action _ => h.step action

/-- Each port in the table is held by one session, once. -/
structure Inv (cfg : Side) (r : Registry) : Prop where
  wf : AllWf cfg r
  owned : Owned r.held r.taken

theorem inv_new : Inv cfg new := ⟨by simp [AllWf, new], Owned.empty⟩

theorem Inv.step (h : Inv cfg r) (action : PortAction) : Inv cfg (step serde cfg r action) := by
  obtain ⟨j, ports, hheld, htrade⟩ := step_trade serde cfg r action
  refine ⟨h.wf.step action, ?_⟩
  rw [hheld]
  exact h.owned.trade htrade

theorem inv_run (serde : Serde) (cfg : Side) (actions : List PortAction) :
    Inv cfg (run serde cfg actions) := by
  induction actions using List.reverseRecOn with
  | nil => exact inv_new
  | append_singleton actions action ih =>
    rw [run, List.foldl_append]
    exact ih.step action

-- ---------------------------------------------------------------------------
-- A session that fails
-- ---------------------------------------------------------------------------

/-- The ways in which an action makes its session fail. -/
inductive Fails (serde : Serde) (cfg : Side) (taken : Finset Port) (s : Setup) : PortAction → Prop
  | parse {i : Nat} {payload : Bytes} (hs : s.phase = .waiting)
      (hparse : serde.fromSlice payload = none) : Fails serde cfg taken s (.register i payload)
  | validation {i : Nat} {payload : Bytes} {reg : Registration} {e : Fault}
      (hs : s.phase = .waiting) (hparse : serde.fromSlice payload = some reg)
      (hvalid : cfg.validate reg = .error e) :
      Fails serde cfg taken s (.register i payload)
  | address {i : Nat} {name : String} {service : Service} {rest : List (String × Service)}
      (hs : s.phase = .binding ((name, service) :: rest)) (haddr : service.bindAddr = none) :
      Fails serde cfg taken s (.bind i)
  | bind {i : Nat} {name : String} {service : Service} {rest : List (String × Service)}
      {addr : String} (hs : s.phase = .binding ((name, service) :: rest))
      (haddr : service.bindAddr = some addr) (htaken : ⟨service.kind, addr⟩ ∈ taken) :
      Fails serde cfg taken s (.bind i)
  | reply {i : Nat} (hs : s.phase = .binding []) : Fails serde cfg taken s (.reply i false)
  | confirm {i : Nat} (hs : s.phase = .confirming) : Fails serde cfg taken s (.confirm i false)
  | abort {i : Nat} (hs : s.phase ≠ .closing) (hs' : s.phase ≠ .ended) :
      Fails serde cfg taken s (.abort i)

theorem Fails.advance (h : Fails serde cfg taken s action) :
    (advance serde cfg action s taken).1.phase = .closing ∧
      (advance serde cfg action s taken).1.bound = s.bound := by
  cases h with
  | parse hs hparse => simp [Registry.advance, hs, register, hparse]
  | validation hs hparse hvalid => simp [Registry.advance, hs, register, hparse, hvalid]
  | address hs haddr => simp [Registry.advance, hs, bindNext, haddr]
  | bind hs haddr htaken => simp [Registry.advance, hs, bindNext, haddr, Bound.port, htaken]
  | reply hs => simp [Registry.advance, hs]
  | confirm hs => simp [Registry.advance, hs]
  | abort hs hs' => cases hp : s.phase <;> simp_all [Registry.advance]

/-- A session that is being dropped, with some of the listeners it had. -/
def Dropping (bound : List Bound) (s : Setup) : Prop :=
  (s.phase = .closing ∨ s.phase = .ended) ∧ s.bound.Sublist bound

theorem Dropping.advance (h : Dropping bound s) (action : PortAction) :
    Dropping bound (advance serde cfg action s taken).1 := by
  obtain ⟨hphase, hsub⟩ := h
  rcases hphase with hs | hs
  · cases action with
    | release i j =>
      simp only [Registry.advance, hs, releaseAt]
      split
      · refine ⟨?_, hsub⟩
        cases s.bound <;> simp
      · exact ⟨.inl rfl, (List.eraseIdx_sublist s.bound j).trans hsub⟩
    | _ => exact ⟨.inl (by simp [Registry.advance, hs]), by simpa [Registry.advance, hs] using hsub⟩
  · cases action <;>
      exact ⟨.inr (by simp [Registry.advance, hs]), by simpa [Registry.advance, hs] using hsub⟩

/-- What every action keeps of a session is there in the rest of the run. -/
theorem keeps_run {P : Setup → Prop} (hs : r.sessions[i]? = some s) (h : P s)
    (hP : ∀ s taken action, P s → P (advance serde cfg action s taken).1) (more : List PortAction) :
    ∃ s', (more.foldl (step serde cfg) r).sessions[i]? = some s' ∧ P s' := by
  induction more generalizing r s with
  | nil => exact ⟨s, hs, h⟩
  | cons action more ih =>
    rw [List.foldl_cons]
    cases hk : session action with
    | none =>
      rw [step_connect hk]
      refine ih ?_ h
      rw [List.getElem?_append_left (List.getElem?_eq_some_iff.mp hs).1]
      exact hs
    | some k =>
      cases ht : r.sessions[k]? with
      | none =>
        rw [step_unknown hk ht]
        exact ih hs h
      | some t =>
        rw [step_session hk ht]
        have hget := getElem?_set_of ht (advance serde cfg action t r.taken).1 i
        by_cases hik : i = k
        · subst hik
          cases hs.symm.trans ht
          rw [if_pos rfl] at hget
          exact ih hget (hP s r.taken action h)
        · rw [if_neg hik] at hget
          exact ih (hget.trans hs) h

theorem Dropping.finish (hs : r.sessions[i]? = some s) (h : Dropping bound s)
    (hn : s.phase = .ended ∨ s.bound.length < n) :
    ∃ s', ((List.replicate n (.release i 0)).foldl (Registry.step serde cfg) r).sessions[i]? =
      some s' ∧
      s'.phase = .ended := by
  induction n generalizing r s with
  | zero => exact ⟨s, hs, hn.resolve_right (Nat.not_lt_zero _)⟩
  | succ n ih =>
    rw [List.replicate_succ, List.foldl_cons, step_session rfl hs]
    have hafter := getElem?_set_of hs (Registry.advance serde cfg (.release i 0) s r.taken).1 i
    rw [if_pos rfl] at hafter
    refine ih hafter (h.advance _) ?_
    rcases h.1 with hphase | hphase
    · simp only [Registry.advance, hphase, releaseAt]
      cases hbound : s.bound with
      | nil => simp
      | cons b rest =>
        rcases hn with hn | hn
        · rw [hphase] at hn
          cases hn
        · rw [hbound, List.length_cons] at hn
          exact .inr (by simpa using hn)
    · exact .inl (by simp [Registry.advance, hphase])

theorem run_append (actions more : List PortAction) :
    run serde cfg (actions ++ more) = more.foldl (step serde cfg) (run serde cfg actions) :=
  List.foldl_append

/-- A failed attempt takes nothing more, and leaves nothing once it is dropped. -/
theorem failed_attempt {actions : List PortAction} {action : PortAction}
    (hs : (run serde cfg actions).sessions[i]? = some s) (hi : session action = some i)
    (h : Fails serde cfg (run serde cfg actions).taken s action) (more : List PortAction) :
    (∃ s', (run serde cfg (actions ++ action :: more)).sessions[i]? = some s' ∧
      Dropping s.bound s') ∧
    ∃ s', (run serde cfg (actions ++ action :: more ++
        List.replicate (s.bound.length + 1) (.release i 0))).sessions[i]? = some s' ∧
      s'.phase = .ended ∧ s'.bound = [] := by
  obtain ⟨hclosing, hbound⟩ := h.advance
  have hafter : (step serde cfg (run serde cfg actions) action).sessions[i]? =
      some (advance serde cfg action s (run serde cfg actions).taken).1 := by
    rw [step_session hi hs, getElem?_set_of hs, if_pos rfl]
  have hdrop : Dropping s.bound (advance serde cfg action s (run serde cfg actions).taken).1 :=
    ⟨.inl hclosing, hbound ▸ List.Sublist.refl _⟩
  obtain ⟨s', hs', hdrop'⟩ :
      ∃ s', (run serde cfg (actions ++ action :: more)).sessions[i]? = some s' ∧
      Dropping s.bound s' := by
    rw [run_append, List.foldl_cons]
    exact keeps_run hafter hdrop (fun _ _ action h => h.advance action) more
  refine ⟨⟨s', hs', hdrop'⟩, ?_⟩
  rw [run_append]
  have hlen : s'.bound.length < s.bound.length + 1 := Nat.lt_succ_of_le hdrop'.2.length_le
  obtain ⟨last, hlast, hended⟩ := hdrop'.finish hs' (.inr hlen)
  refine ⟨last, hlast, hended, ?_⟩
  rw [← run_append] at hlast
  have hphase := ((inv_run serde cfg _).wf last (List.mem_of_getElem? hlast)).phase
  rwa [hended] at hphase

def Settled (reg : Option Registration) (s : Setup) : Prop :=
  s.phase ≠ .waiting ∧ s.registration = reg

theorem Settled.advance (h : Settled reg s) (action : PortAction) :
    Settled reg (advance serde cfg action s taken).1 := by
  obtain ⟨hphase, hreg⟩ := h
  unfold Registry.advance
  split
  · contradiction
  · unfold bindNext
    split
    · exact ⟨by simp, hreg⟩
    · dsimp only
      split <;> exact ⟨by simp, hreg⟩
  · exact ⟨by dsimp only; split <;> simp, hreg⟩
  · exact ⟨by dsimp only; split <;> simp, hreg⟩
  · exact ⟨hphase, hreg⟩
  · exact ⟨hphase, hreg⟩
  · exact ⟨by simp, hreg⟩
  · unfold releaseAt
    split
    · exact ⟨by dsimp only; split <;> simp_all, hreg⟩
    · exact ⟨hphase, hreg⟩
  · exact ⟨hphase, hreg⟩

theorem register_run {before after : List PortAction}
    (hs : (run serde cfg before).sessions[i]? = some s) (hwait : s.phase = .waiting)
    (hparse : serde.fromSlice payload = some reg) :
    ∃ s', (run serde cfg (before ++ .register i payload :: after)).sessions[i]? = some s' ∧
      s'.registration = some reg := by
  have hafter : (step serde cfg (run serde cfg before) (.register i payload)).sessions[i]? =
      some (register serde cfg payload s) := by
    rw [step_session rfl hs, getElem?_set_of hs, if_pos rfl]
    simp only [advance, hwait]
  have hsettled : Settled (some reg) (register serde cfg payload s) := by
    unfold register
    rw [hparse]
    dsimp only
    split <;> exact ⟨by simp, rfl⟩
  rw [run_append, List.foldl_cons]
  obtain ⟨s', hs', h⟩ := keeps_run hafter hsettled (fun _ _ action h => h.advance action) after
  exact ⟨s', hs', h.2⟩

def Listens (cfg : Side) (offer : Offer) (b : Bound) : Prop :=
  cfg.Grants offer b.definition ∧ b.service.bindAddr = some b.addr

theorem Wf.forwarding (h : Wf cfg s) (hs : s.phase = .forwarding) :
    ∃ reg, s.registration = some reg ∧ cfg.Authorised reg ∧
      List.Forall₂ (Listens cfg) reg.services s.bound := by
  have hphase := h.phase
  rw [hs] at hphase
  obtain ⟨reg, hreg, hvalid⟩ := hphase
  obtain ⟨hauth, hgrants⟩ := Side.validate_ok hvalid
  refine ⟨reg, hreg, hauth, ?_⟩
  rw [List.forall₂_map_right_iff] at hgrants
  refine List.forall₂_iff_get.mpr ⟨hgrants.length_eq, fun k hk hk' => ⟨hgrants.get hk hk', ?_⟩⟩
  exact h.addr _ (List.get_mem _ _)

theorem Wf.authorised (h : Wf cfg s) (hport : port ∈ s.ports) :
    ∃ reg, s.registration = some reg ∧ cfg.Authorised reg ∧ ∃ offer ∈ reg.services, ∃ service,
      cfg.services.get offer.name = some service ∧ service.kind = port.kind ∧
        service.bindAddr = some port.addr := by
  obtain ⟨b, hb, rfl⟩ := List.mem_map.mp hport
  obtain ⟨definitions, ⟨reg, hreg, hvalid⟩, hmem⟩ := h.held b hb
  obtain ⟨hauth, hgrants⟩ := Side.validate_ok hvalid
  obtain ⟨k, hk⟩ := List.getElem?_of_mem hmem
  obtain ⟨offer, hoffer, hgrant⟩ := partner_left hgrants hk
  exact ⟨reg, hreg, hauth, offer, List.mem_of_getElem? hoffer, b.service, hgrant.service, rfl,
    h.addr b hb⟩

/-- In every state of every run of any number of sessions: a port is taken if and only if a
session holds it, and then one session, once; what a session holds is authorised; a session
that forwards has one listener for each offer; and a failed attempt leaves nothing. -/
theorem registration_all_or_nothing (serde : Serde) (cfg : Side) (actions : List PortAction) :
    (∀ port, port ∈ (run serde cfg actions).taken ↔
      ∃ (i : Nat) (s : Setup), (run serde cfg actions).sessions[i]? = some s ∧ port ∈ s.ports) ∧
    (∀ (i j : Nat) (s t : Setup) (port : Port), (run serde cfg actions).sessions[i]? = some s →
      (run serde cfg actions).sessions[j]? = some t → port ∈ s.ports → port ∈ t.ports → i = j) ∧
    ∀ (i : Nat) (s : Setup), (run serde cfg actions).sessions[i]? = some s →
      s.ports.Nodup ∧
      (∀ port ∈ s.ports, ∃ reg, s.registration = some reg ∧ cfg.Authorised reg ∧
        ∃ offer ∈ reg.services, ∃ service, cfg.services.get offer.name = some service ∧
          service.kind = port.kind ∧ service.bindAddr = some port.addr) ∧
      (s.phase = .forwarding → ∃ reg, s.registration = some reg ∧ cfg.Authorised reg ∧
        List.Forall₂ (Listens cfg) reg.services s.bound) ∧
      (s.phase = .ended → s.bound = []) ∧
      ∀ (action : PortAction) (more : List PortAction), session action = some i →
        Fails serde cfg (run serde cfg actions).taken s action →
        (∃ s', (run serde cfg (actions ++ action :: more)).sessions[i]? = some s' ∧
          Dropping s.bound s') ∧
        ∃ s', (run serde cfg (actions ++ action :: more ++
            List.replicate (s.bound.length + 1) (.release i 0))).sessions[i]? = some s' ∧
          s'.phase = .ended ∧ s'.bound = [] := by
  have h := inv_run serde cfg actions
  refine ⟨fun port => ?_, fun i j s t port hs ht hp hp' => ?_, fun i s hs => ?_⟩
  · rw [h.owned.taken_iff]
    exact exists_congr fun i => mem_held
  · exact h.owned.apart i j port (mem_held.mpr ⟨s, hs, hp⟩) (mem_held.mpr ⟨t, ht, hp'⟩)
  have hwf := h.wf s (List.mem_of_getElem? hs)
  refine ⟨held_eq hs ▸ h.owned.nodup i, ?_, ?_, ?_, ?_⟩
  · exact fun port hport => hwf.authorised hport
  · exact fun hphase => hwf.forwarding hphase
  · intro hended
    have hphase := hwf.phase
    rwa [hended] at hphase
  · exact fun action more hi hfails => failed_attempt hs hi hfails more

end Registry

end Cathole
