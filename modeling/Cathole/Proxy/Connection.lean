import Cathole.Crypto.Bridge
import Cathole.Lib.Interruption
import Cathole.Proxy.Setup

/-!
# A forwarded TCP connection

One public connection from the time a listener accepts it: `tcp_server` and
`tcp_client` set the stream up, `tcp_client` connects to the local service, and
both go over to `bridge`. The server may be there long before the client, and its
frames wait for it on the stream.

Both setups are behind a timeout, which may elapse anywhere, and a party may fail
for other reasons. Its halves of the stream and its socket are dropped then,
wherever the other party is.
-/

namespace Cathole

open Words (fromBe)
open Relation (ReflTransGen)

-- ---------------------------------------------------------------------------
-- The setup of the stream
-- ---------------------------------------------------------------------------

namespace Peer

open Dialogue (State Step Steps Ends SamePlaces Strict)

variable {σ τ : Type} {client : Peer σ} {server : Peer τ} {cfg cfg' : Side}

theorem strict_writeFrame (place : Place) (data : Bytes) : Strict (Talk.writeFrame place data) := by
  refine Strict.bind (.done _) fun _ => .write ⟨.stream, rfl⟩ ?_
  exact .done _

theorem strict_exchange (peer : Peer σ) (fuel message : Nat) (hs : σ) (ourTurn : Bool) :
    Strict (peer.exchange fuel message hs ourTurn) := by
  induction fuel generalizing message hs ourTurn with
  | zero =>
    unfold exchange
    split <;> exact .done _
  | succ fuel ih =>
    unfold exchange
    split
    · exact .done _
    · split
      · refine Strict.bind (.done _) fun sent => ?_
        exact (strict_writeFrame _ _).bind fun _ => ih ..
      · rw [Talk.readFrame_bind]
        refine .read ⟨_, rfl⟩ fun frame => ?_
        refine Strict.bind (.done _) fun data => Strict.bind (.done _) fun hs' => ?_
        exact ih ..

theorem strict_completeHandshake (peer : Peer σ) (fuel : Nat) (noise : Noise) (purpose : Bytes)
    (initiator : Bool) : Strict (peer.completeHandshake fuel noise purpose initiator) :=
  Strict.bind (.done _) fun _ => strict_exchange ..

theorem strict_writeTransport (peer : Peer σ) (state : TransportState σ) (place : Place)
    (payload : Bytes) : Strict (peer.writeTransport state place payload) :=
  Strict.bind (.done _) fun _ => (strict_writeFrame _ _).bind fun _ => .done _

theorem strict_readTransport (peer : Peer σ) (state : TransportState σ) (place : Place)
    {f : TransportState σ × Option Bytes → Talk α}
    (hnone : ∀ state, ∃ e, f (state, none) = .done (.error e))
    (hsome : ∀ state payload, Strict (f (state, some payload))) :
    Strict (peer.readTransport state place >>= f) := by
  rw [readTransport_bind]
  refine .read (hnone state) fun frame => ?_
  exact Strict.bind (.done _) fun plain => hsome _ plain

theorem strict_tcpServer (fuel : Nat) (cfg : Side) (service : UInt16) (stream : Nat) :
    Strict (server.tcpServer fuel cfg service stream) := by
  refine (strict_writeFrame _ _).bind fun _ => Strict.bind ?_ fun received => ?_
  · refine (strict_completeHandshake ..).bind fun hs => Strict.bind (.done _) fun state => ?_
    exact strict_readTransport _ _ _ (fun _ => ⟨_, rfl⟩) fun _ _ => .done _
  · exact Strict.bind (.done _) fun _ => strict_writeTransport ..

theorem strict_tcpClient (fuel : Nat) (cfg : Side) (stream : Nat) :
    Strict (client.tcpClient fuel cfg stream) := by
  unfold tcpClient
  rw [Talk.readFrame_bind]
  refine .read ⟨_, rfl⟩ fun header => ?_
  refine Strict.bind (.done _) fun service => Strict.bind ?_ fun opened => ?_
  · refine (strict_completeHandshake ..).bind fun hs => Strict.bind (.done _) fun state => ?_
    refine (strict_writeTransport ..).bind fun state => ?_
    exact strict_readTransport _ _ _ (fun _ => ⟨_, rfl⟩) fun _ _ => .done _
  · exact Strict.bind (.done _) fun _ => .done _

end Peer

-- ---------------------------------------------------------------------------
-- The two tasks
-- ---------------------------------------------------------------------------

inductive Accepted
  | opening
  | bridging
  | closed
  deriving DecidableEq, Repr

inductive Dialing
  -- Up to `resolve_local`.
  | opening
  | connecting (target : SocketAddr)
  -- Between two attempts to connect.
  | sleeping (target : SocketAddr)
  | bridging (target : SocketAddr)
  | closed
  deriving DecidableEq, Repr

namespace Dialing

def target : Dialing → Option SocketAddr
  | .connecting target | .sleeping target | .bridging target => some target
  | .opening | .closed => none

def isSetup : Dialing → Bool
  | .opening | .connecting _ | .sleeping _ => true
  | .bridging _ | .closed => false

end Dialing

def BridgeAction.leg : BridgeAction → Leg
  | .pipe leg action => action.owner leg
  | .fault leg _ => leg

structure Forwarded (σ τ : Type) where
  setup : Dialogue.State Place Bytes Fault (TransportState σ × Service) (TransportState τ)
  server : Accepted
  client : Dialing
  bridges : Bridges

namespace Forwarded

variable {σ τ : Type}

def bridging (f : Forwarded σ τ) : Leg → Prop
  | .server => f.server = .bridging
  | .client => ∃ target, f.client = .bridging target

def start (client : Peer σ) (server : Peer τ) (fuel fuel' : Nat) (cfg cfg' : Side)
    (service : UInt16) (stream : Nat) (input : Leg → Bytes) : Forwarded σ τ where
  setup := Peer.opening client server fuel fuel' cfg cfg' service stream
  server := .opening
  client := .opening
  bridges := .new input

section

variable (cfg : Side) (lookupHost : String → Option (List SocketAddr)) (noise : Leg → Cipher)

/-- A step in which nothing fails but an attempt to connect that is repeated. -/
inductive Calm : Forwarded σ τ → Forwarded σ τ → Prop
  | talk (h : Dialogue.Step f.setup s) : Calm f { f with setup := s }
  | accepted (hserver : f.server = .opening) (hdone : f.setup.right.prog = .done (.ok state)) :
    Calm f { f with server := .bridging }
  | resolved (hclient : f.client = .opening)
      (hdone : f.setup.left.prog = .done (.ok (state, service)))
      (htarget : cfg.destination lookupHost service = .ok target) :
    Calm f { f with client := .connecting target }
  | connected (hclient : f.client = .connecting target) :
      Calm f { f with client := .bridging target }
  | refused (hclient : f.client = .connecting target)
      (hdone : f.setup.left.prog = .done (.ok (state, service)))
      (hretry : 0 < cfg.serviceRetry service) :
    Calm f { f with client := .sleeping target }
  | slept (hclient : f.client = .sleeping target) : Calm f { f with client := .connecting target }
  | bridge (leg : Leg) (action : PipeAction) (hleg : f.bridging (action.owner leg)) :
    Calm f { f with bridges := f.bridges.step noise (.pipe leg action) }

inductive Step : Forwarded σ τ → Forwarded σ τ → Prop
  | calm (h : Calm cfg lookupHost noise f f') : Step f f'
  -- The setup of a party fails, or takes too long.
  | leaveServer (fault : Fault) (hserver : f.server = .opening)
      (hopen : ∀ state, f.setup.right.prog ≠ .done (.ok state)) :
    Step f
      { f with
        setup := f.setup.leaveRight fault, server := .closed, bridges := f.bridges.fail .server }
  | leaveClient (fault : Fault) (hclient : f.client.isSetup = true) :
    Step f
      { f with
        setup := f.setup.leaveLeft fault, client := .closed, bridges := f.bridges.fail .client }
  -- A bridge fails.
  | fault (leg : Leg) (cause : Cause) (hleg : f.bridging leg) :
    Step f { f with bridges := f.bridges.step noise (.fault leg cause) }

end

-- ---------------------------------------------------------------------------
-- What stays in step
-- ---------------------------------------------------------------------------

theorem tx_receiveStep {p p' : Pipe} (h : p.receiveStep n = .ok p') : p'.tx = p.tx := by
  unfold Pipe.receiveStep at h
  split at h
  · split at h
    · split at h
      · split at h
        · cases h
          rfl
        · cases h
      · cases h
        rfl
    · split at h
      · obtain ⟨got, -, h⟩ := bind_eq_ok.mp h
        cases got with
        | none =>
          cases h
          rfl
        | some cipher =>
          obtain ⟨plain, -, h⟩ := bind_eq_ok.mp h
          cases h
          rfl
      · cases h
        rfl
  · cases h
    rfl

theorem tx_fail (s : Bridges) (hne : d ≠ leg) : ((s.fail leg).pipe d).tx = (s.pipe d).tx := by
  rw [Bridges.pipe_fail, if_neg hne, Pipe.dropRx]
  split <;> rfl

/-- A step of one bridge does not touch the loop in which the other one sends. -/
theorem tx_step (noise : Leg → Cipher) (s : Bridges) (action : BridgeAction)
    (hne : d ≠ action.leg) :
    ((s.step noise action).pipe d).tx = (s.pipe d).tx := by
  cases action with
  | fault leg cause =>
    have hleg : d ≠ leg := hne
    simp only [Bridges.step]
    split
    · cases cause with
      | noiseWrite n =>
        dsimp only
        rw [tx_fail _ hleg, Bridges.pipe_set, if_neg hleg]
      | tcpRead | stopped | noiseRead | tcpWrite | tcpShutdown => exact tx_fail s hleg
    · rfl
  | pipe leg action =>
    simp only [Bridges.step]
    split
    · rename_i p hok
      rw [Bridges.pipe_set]
      split
      · rename_i hd
        subst hd
        cases action with
        | read n => exact absurd rfl hne
        | write n => exact absurd rfl hne
        | receive n => exact tx_receiveStep hok
        | flush n =>
          cases hok
          unfold Pipe.flushStep
          split
          · split <;> rfl
          · rfl
        | closed =>
          cases hok
          unfold Pipe.closedStep
          split <;> rfl
      · rfl
    · exact tx_fail s hne

/-- A party that has not come to its bridge fails like one whose socket fails at
the first read. -/
theorem fail_eq_step (noise : Leg → Cipher) (s : Bridges) (htx : (s.pipe leg).tx = .reading) :
    s.fail leg = s.step noise (.fault leg .tcpRead) := by
  have hcan : s.canFail leg .tcpRead = true := by
    simp [Bridges.canFail, htx]
  simp [Bridges.step, hcan]

section

variable {client : Peer σ} {server : Peer τ} {fuel fuel' : Nat} {cfg cfg' : Side} {service : UInt16}
  {stream : Nat} {input : Leg → Bytes} {lookupHost : String → Option (List SocketAddr)}
  {noise : Leg → Cipher} {f f' : Forwarded σ τ}

def before (f : Forwarded σ τ) : Leg → Prop
  | .server => f.server = .opening
  | .client => f.client.isSetup = true

structure Inv (first : Forwarded σ τ) (cfg : Side) (lookupHost : String → Option (List SocketAddr))
    (noise : Leg → Cipher) (input : Leg → Bytes) (f : Forwarded σ τ) : Prop where
  covered : ∃ m c, Dialogue.Steps Dialogue.Step m first.setup c ∧ Dialogue.Covered c f.setup
  server : f.server = .bridging → ∃ state, f.setup.right.prog = .done (.ok state)
  client : ∀ target, f.client.target = some target →
    ∃ state service, f.setup.left.prog = .done (.ok (state, service)) ∧
      cfg.destination lookupHost service = .ok target
  run : ∃ actions, f.bridges = Bridges.run noise input actions
  idle : ∀ leg, f.before leg → (f.bridges.pipe leg).tx = .reading

theorem inv_start (client : Peer σ) (server : Peer τ) (fuel fuel' : Nat) (cfg cfg' : Side)
    (service : UInt16) (stream : Nat) (input : Leg → Bytes)
    (lookupHost : String → Option (List SocketAddr)) (noise : Leg → Cipher) :
    let first := start client server fuel fuel' cfg cfg' service stream input
    Inv first cfg lookupHost noise input first where
  covered := by
    refine ⟨0, _, .refl _, .inl rfl, .inl rfl, .inr rfl, .inr rfl, ⟨?_, ?_⟩, rfl, rfl⟩
    · exact Peer.strict_tcpClient ..
    · exact Peer.strict_tcpServer ..
  server := by
    rintro ⟨⟩
  client := by
    rintro target ⟨⟩
  run := ⟨[], rfl⟩
  idle := by
    intro leg _
    cases leg <;> rfl

variable {first : Forwarded σ τ}

theorem covered_disturbed
    {s s' first : Dialogue.State Place Bytes Fault (TransportState σ × Service) (TransportState τ)}
    (h : ∃ m c, Dialogue.Steps Dialogue.Step m first c ∧ Dialogue.Covered c s)
    (hd : Dialogue.Disturbed s s') :
    ∃ m c, Dialogue.Steps Dialogue.Step m first c ∧ Dialogue.Covered c s' := by
  obtain ⟨m, c, hc, hcovered⟩ := h
  obtain ⟨c', rfl | hstep, hcovered'⟩ := hcovered.disturbed hd
  · exact ⟨m, c', hc, hcovered'⟩
  · exact ⟨m + 1, c', hc.trans (.single hstep), hcovered'⟩

theorem not_bridging_of_before (h : f.before leg) : ¬f.bridging leg := by
  intro hbridging
  cases leg with
  | server =>
    have hopening : f.server = .opening := h
    have hserver : f.server = .bridging := hbridging
    simp [hopening] at hserver
  | client =>
    obtain ⟨target, hclient⟩ := hbridging
    have hsetup : f.client.isSetup = true := h
    simp [hclient, Dialing.isSetup] at hsetup

theorem Inv.bridge (h : Inv first cfg lookupHost noise input f) (action : BridgeAction)
    (hleg : f.bridging action.leg) :
    Inv first cfg lookupHost noise input { f with bridges := f.bridges.step noise action } := by
  refine ⟨h.covered, h.server, h.client, ?_, fun leg hbefore => ?_⟩
  · obtain ⟨actions, hrun⟩ := h.run
    refine ⟨actions ++ [action], ?_⟩
    rw [Bridges.run, List.foldl_append, ← Bridges.run, ← hrun]
    rfl
  · have hne : leg ≠ action.leg := by
      rintro rfl
      exact not_bridging_of_before hbefore hleg
    exact (tx_step noise f.bridges action hne).trans (h.idle leg hbefore)

theorem Inv.fail (h : Inv first cfg lookupHost noise input f) (hbefore : f.before leg) :
    (∃ actions, f.bridges.fail leg = Bridges.run noise input actions) ∧
      ∀ d, d ≠ leg → f.before d → ((f.bridges.fail leg).pipe d).tx = .reading := by
  constructor
  · obtain ⟨actions, hrun⟩ := h.run
    refine ⟨actions ++ [.fault leg .tcpRead], ?_⟩
    rw [fail_eq_step noise f.bridges (h.idle leg hbefore), Bridges.run, List.foldl_append,
      ← Bridges.run, ← hrun]
    rfl
  · intro d hne hd
    rw [tx_fail _ hne]
    exact h.idle d hd

theorem Inv.dial (h : Inv first cfg lookupHost noise input f) {next : Dialing}
    (htarget : ∀ target, next.target = some target →
      ∃ state service, f.setup.left.prog = .done (.ok (state, service)) ∧
        cfg.destination lookupHost service = .ok target)
    (hsetup : next.isSetup = true → f.client.isSetup = true) :
    Inv first cfg lookupHost noise input { f with client := next } := by
  refine ⟨h.covered, h.server, htarget, h.run, fun leg hbefore => ?_⟩
  cases leg with
  | server => exact h.idle .server hbefore
  | client => exact h.idle .client (hsetup hbefore)

theorem Inv.dial_same (h : Inv first cfg lookupHost noise input f) {next : Dialing}
    (htarget : f.client.target = next.target)
    (hsetup : next.isSetup = true → f.client.isSetup = true) :
    Inv first cfg lookupHost noise input { f with client := next } :=
  h.dial (fun target hnext => h.client target (htarget.trans hnext)) hsetup

theorem Inv.calm (h : Inv first cfg lookupHost noise input f)
    (hc : Calm cfg lookupHost noise f f') :
    Inv first cfg lookupHost noise input f' := by
  cases hc with
  | talk hstep =>
    refine ⟨covered_disturbed h.covered (.step hstep), fun hserver => ?_, fun target htarget => ?_,
      h.run, h.idle⟩
    · obtain ⟨state, hdone⟩ := h.server hserver
      refine ⟨state, ?_⟩
      cases hstep with
      | left hp => exact hdone
      | right hp => simp [Dialogue.Party.step, hdone] at hp
    · obtain ⟨state, service, hdone, hdestination⟩ := h.client target htarget
      refine ⟨state, service, ?_, hdestination⟩
      cases hstep with
      | left hp => simp [Dialogue.Party.step, hdone] at hp
      | right hp => exact hdone
  | accepted hserver hdone =>
    refine ⟨h.covered, fun _ => ⟨_, hdone⟩, h.client, h.run, fun leg hbefore => ?_⟩
    cases leg with
    | server => cases hbefore
    | client => exact h.idle .client hbefore
  | resolved hclient hdone htarget =>
    refine h.dial ?_ fun _ => by rw [hclient]; rfl
    rintro target ⟨⟩
    exact ⟨_, _, hdone, htarget⟩
  | connected hclient => exact h.dial_same (by rw [hclient]; rfl) fun _ => by rw [hclient]; rfl
  | refused hclient hdone hretry =>
    exact h.dial_same (by rw [hclient]; rfl) fun _ => by rw [hclient]; rfl
  | slept hclient => exact h.dial_same (by rw [hclient]; rfl) fun _ => by rw [hclient]; rfl
  | bridge leg action hleg => exact h.bridge (.pipe leg action) hleg

theorem Inv.step (h : Inv first cfg lookupHost noise input f)
    (hs : Step cfg lookupHost noise f f') :
    Inv first cfg lookupHost noise input f' := by
  cases hs with
  | calm hc => exact h.calm hc
  | fault leg cause hleg => exact h.bridge (.fault leg cause) hleg
  | leaveServer fault hserver hopen =>
    have hbefore : f.before .server := hserver
    obtain ⟨hrun, hidle⟩ := h.fail hbefore
    refine ⟨covered_disturbed h.covered (.right fault), ?_, h.client, hrun, fun leg hbefore => ?_⟩
    · rintro ⟨⟩
    · cases leg with
      | server => cases hbefore
      | client => exact hidle .client (by simp) hbefore
  | leaveClient fault hclient =>
    have hbefore : f.before .client := hclient
    obtain ⟨hrun, hidle⟩ := h.fail hbefore
    refine ⟨covered_disturbed h.covered (.left fault), h.server, ?_, hrun, fun leg hbefore => ?_⟩
    · rintro target ⟨⟩
    · cases leg with
      | server => exact hidle .server (by simp) hbefore
      | client => cases hbefore

theorem Inv.reaches (h : Inv first cfg lookupHost noise input f)
    (hf : ReflTransGen (Step cfg lookupHost noise) f f') :
      Inv first cfg lookupHost noise input f' := by
  induction hf with
  | refl => exact h
  | tail _ hlast ih => exact ih.step hlast

theorem Inv.intact (h : Inv first cfg lookupHost noise input f) (d : Leg) :
    (f.bridges.pipe d).written <+: (f.bridges.pipe d).read ∧
    (f.bridges.pipe d).read <+: input d := by
  obtain ⟨actions, hrun⟩ := h.run
  have hwf : (f.bridges.pipe d).Wf (input d) := hrun ▸ Bridges.wf_run noise input actions d
  have htake : Pipe.text ((f.bridges.pipe d).records.take (f.bridges.pipe d).opened) <+:
      Pipe.text (f.bridges.pipe d).records := by
    refine ⟨Pipe.text ((f.bridges.pipe d).records.drop (f.bridges.pipe d).opened), ?_⟩
    rw [← Pipe.text_append, List.take_append_drop]
  exact ⟨(hwf.receiving.given.trans htake).trans hwf.sending.taken, _, hwf.sending.input⟩

-- ---------------------------------------------------------------------------
-- Runs in which nothing fails
-- ---------------------------------------------------------------------------

structure Undisturbed (first : Forwarded σ τ) (noise : Leg → Cipher) (input : Leg → Bytes)
    (f : Forwarded σ τ) : Prop where
  steps : ∃ m, Dialogue.Steps Dialogue.Step m first.setup f.setup
  good : Bridges.Good input f.bridges
  server : f.server ≠ .closed
  client : f.client ≠ .closed

theorem Undisturbed.calm (h : Undisturbed first noise input f)
    (hc : Calm cfg lookupHost noise f f') :
    Undisturbed first noise input f' := by
  obtain ⟨⟨m, hsteps⟩, hgood, hserver, hclient⟩ := h
  cases hc with
  | talk hstep => exact ⟨⟨m + 1, hsteps.trans (.single hstep)⟩, hgood, hserver, hclient⟩
  | accepted => exact ⟨⟨m, hsteps⟩, hgood, by simp, hclient⟩
  | resolved | connected | refused | slept => exact ⟨⟨m, hsteps⟩, hgood, hserver, by simp⟩
  | bridge leg action => exact ⟨⟨m, hsteps⟩, hgood.step noise leg action, hserver, hclient⟩

theorem undisturbed_of_calm (hf : ReflTransGen (Calm cfg lookupHost noise)
      (start client server fuel fuel' cfg cfg' service stream input) f) :
    Undisturbed (start client server fuel fuel' cfg cfg' service stream input) noise input f := by
  induction hf with
  | refl => exact ⟨⟨0, .refl _⟩, Bridges.good_new input, by simp [start], by simp [start]⟩
  | tail _ hlast ih => exact ih.calm hlast

section

variable {z : Dialogue.State Place Bytes Fault (TransportState σ × Service) (TransportState τ)}
  {s : Service} {i : σ} {r : τ} (hz : Dialogue.Steps Dialogue.Step n first.setup z)
  (hopened : Peer.Opened client server s i r z)
include hz hopened

theorem Inv.opened (h : Inv first cfg lookupHost noise input f) :
    (∀ state, f.setup.left.prog = .done (.ok state) → state = (⟨i, 1, 1⟩, s)) ∧
    (∀ state, f.setup.right.prog = .done (.ok state) → state = ⟨r, 1, 1⟩) ∧
    ∀ a b, f.setup.left.prog = .done (.ok a) → f.setup.right.prog = .done (.ok b) →
      f.setup.toRight.queue = [] ∧ f.setup.toLeft.queue = [] := by
  obtain ⟨m, c, hc, hcovered⟩ := h.covered
  have hstopped : z.Stopped := Dialogue.State.Finished.stopped ⟨⟨_, hopened.left⟩, _, hopened.right⟩
  obtain ⟨k, -, hrest⟩ := hz.rest Dialogue.diamond hstopped hc
  obtain ⟨hleft, hright, hqueues⟩ := hcovered.returns hrest hopened.left hopened.right
  rw [hopened.toRight, hopened.toLeft] at hqueues
  exact ⟨hleft, hright, hqueues⟩

/-- If nothing fails and nothing is left to do, both tasks have come to their
bridges and everything was delivered. -/
theorem Undisturbed.complete (h : Undisturbed first noise input f)
    (htarget : cfg.destination lookupHost s = .ok target)
    (hstuck : ∀ f', Calm cfg lookupHost noise f f' → f' = f) :
    (∀ leg, f.bridging leg) ∧ ∀ d, (f.bridges.pipe d).Complete (input d) := by
  obtain ⟨m, hm⟩ := h.steps
  have hstopped : z.Stopped := Dialogue.State.Finished.stopped ⟨⟨_, hopened.left⟩, _, hopened.right⟩
  obtain ⟨k, -, hrest⟩ := hz.rest Dialogue.diamond hstopped hm
  have hsetup : f.setup = z := by
    rcases hrest.progress with hsame | ⟨s', hstep⟩
    · exact hsame
    · have hloop := congrArg Forwarded.setup (hstuck _ (.talk hstep))
      exact absurd hloop (hrest.ne_of_step hstopped hstep)
  have hleft := hsetup ▸ hopened.left
  have hright := hsetup ▸ hopened.right
  have hserver : f.server = .bridging := by
    cases hs : f.server with
    | opening =>
      have hsame := congrArg Forwarded.server (hstuck _ (.accepted hs hright))
      exact hs.symm.trans hsame.symm
    | bridging => rfl
    | closed => exact absurd hs h.server
  have hclient : ∃ target, f.client = .bridging target := by
    cases hc : f.client with
    | opening =>
      have hsame := congrArg Forwarded.client (hstuck _ (.resolved hc hleft htarget))
      cases hc.symm.trans hsame.symm
    | connecting target =>
      have hsame := congrArg Forwarded.client (hstuck _ (.connected hc))
      cases hc.symm.trans hsame.symm
    | sleeping target =>
      have hsame := congrArg Forwarded.client (hstuck _ (.slept hc))
      cases hc.symm.trans hsame.symm
    | bridging target => exact ⟨target, rfl⟩
    | closed => exact absurd hc h.client
  have hbridging : ∀ leg, f.bridging leg := by
    intro leg
    cases leg with
    | server => exact hserver
    | client => exact hclient
  refine ⟨hbridging, fun d => ?_⟩
  have hrest : ∀ action, f.bridges.step noise (.pipe d action) = f.bridges := fun action =>
    congrArg Forwarded.bridges (hstuck _ (.bridge d action (hbridging _)))
  exact h.good.complete hrest

end

end

end Forwarded

-- ---------------------------------------------------------------------------
-- The connection of a listener
-- ---------------------------------------------------------------------------

section

variable {decode : String → Option Bytes} {toml : String → Except String Config} {serde : Serde}
  {server client : Side} {before after : List PortAction} {s : Setup} {i id : Nat} {b : Bound}
  {σ τ : Type} {initiator : Peer σ} {responder : Peer τ} {fuel fuel' stream : Nat}

/-- A public connection that a listener of a running session has accepted, whatever
fails and in whatever order the parties take their steps: it is connected to the
address of the service of that name at the client, and to nothing else; both
bridges start with keys that belong together, at the same position, and with an
empty stream; and what arrives at either end is the beginning of what was sent at
the other. If nothing fails, all of it arrives. -/
theorem connection_forwarded (hparse : Config.parse decode toml text = .ok config)
    (hclient : config.client = some client)
    (hjson : serde.fromSlice (serde.toVec client.registration) = some client.registration)
    (hwaiting : ((Registry.run serde server before).sessions[i]?.map (·.phase)) = some .waiting)
    (hs : (Registry.run serde server (before ++
      .register i (serde.toVec client.registration) :: after)).sessions[i]? = some s)
    (hforwarding : s.phase = .forwarding) (hb : s.bound[id]? = some b)
    (htcp : b.service.kind = .tcp)
    (hmeets : Peer.Meets initiator responder client.transport.noise server.transport.noise
      (tcpContext id stream) (k + 1)) (hfuel : k + 1 ≤ fuel) (hfuel' : k + 1 ≤ fuel')
    (lookupHost : String → Option (List SocketAddr)) (noise : Leg → Cipher) (input : Leg → Bytes) :
    ∃ service addr, client.services.entries[id]? = some (b.name, service) ∧
      service.localAddr = some addr ∧ Agree server client b service ∧
      let first :=
        Forwarded.start initiator responder fuel fuel' client server (UInt16.ofNat id) stream input
      let target := resolveLocal lookupHost addr (service.preferIpv6 || client.preferIpv6)
      ∀ f, ReflTransGen (Forwarded.Step client lookupHost noise) first f →
        (∀ address, f.client.target = some address → target = .ok address) ∧
        (f.bridging .server → f.bridging .client →
          ∃ i r, Peer.Agreed initiator responder i r ∧
            f.setup.left.prog = .done (.ok (⟨i, 1, 1⟩, service)) ∧
            f.setup.right.prog = .done (.ok ⟨r, 1, 1⟩) ∧
            f.setup.toRight.queue = [] ∧ f.setup.toLeft.queue = []) ∧
        (∀ d, (f.bridges.pipe d).written <+: (f.bridges.pipe d).read ∧
          (f.bridges.pipe d).read <+: input d) ∧
        (ReflTransGen (Forwarded.Calm client lookupHost noise) first f →
          (∀ f', Forwarded.Calm client lookupHost noise f f' → f' = f) →
          (∃ address, target = .ok address) →
          (∀ leg, f.bridging leg) ∧ ∀ d, (f.bridges.pipe d).Complete (input d)) := by
  obtain ⟨hsize, hlocal⟩ := client_ok hparse hclient
  have hlisten := forwarding_listens hjson hwaiting hs hforwarding
  obtain ⟨service, hentry, hagree⟩ := listeners_agree hlisten hb
  obtain ⟨addr, haddr⟩ := hlocal b.name service (List.mem_of_getElem? hentry)
  have hvalue := OrderedMap.getElem?_values.mpr ⟨b.name, hentry⟩
  have hserved := Side.tcpService_header hsize hvalue (hagree.kind ▸ htcp)
  have hdestination : client.destination lookupHost service =
      resolveLocal lookupHost addr (service.preferIpv6 || client.preferIpv6) := by
    rw [Side.destination, haddr]
    rfl
  have hid : (UInt16.ofNat id).toNat = id := by
    have hlt : id < client.services.size := (List.getElem?_eq_some_iff.mp hentry).1
    rw [UInt16.toNat_ofNat', Nat.mod_eq_of_lt (by omega)]
  rw [← hid] at hmeets
  obtain ⟨n, z, hz, ⟨keys, keys', hopened⟩, -⟩ := Peer.opening_opened hmeets hfuel hfuel' hserved
  refine ⟨service, addr, hentry, haddr, hagree, fun f hf => ?_⟩
  have h := (Forwarded.inv_start initiator responder fuel fuel' client server
    (UInt16.ofNat id) stream
    input lookupHost noise).reaches hf
  obtain ⟨hleft, hright, hqueues⟩ := h.opened hz hopened
  refine ⟨fun address haddress => ?_, fun hserver hclient => ?_, h.intact,
    fun hcalm hstuck htarget => ?_⟩
  · obtain ⟨state, chosen, hdone, hresolved⟩ := h.client address haddress
    cases hleft _ hdone
    rw [← hdestination]
    exact hresolved
  · obtain ⟨state, hdone⟩ := h.server hserver
    obtain ⟨address, hbridging⟩ := hclient
    obtain ⟨state', chosen, hdone', -⟩ := h.client address (by rw [hbridging]; rfl)
    have hempty := hqueues _ _ hdone' hdone
    cases hleft _ hdone'
    cases hright _ hdone
    exact ⟨keys, keys', hopened.agreed, hdone', hdone, hempty⟩
  · obtain ⟨address, haddress⟩ := htarget
    exact (Forwarded.undisturbed_of_calm hcalm).complete hz hopened
      (hdestination.trans haddress) hstuck

end

open Sample in
theorem connection_forwarded_web :
    ∃ service addr, client.services.entries[1]? = some ("web", service) ∧
      service.localAddr = some addr ∧
      ∀ f, ReflTransGen (Forwarded.Step client lookupHost fun _ => Bridges.tagged)
          (Forwarded.start peer peer 3 3 client server 1 0 fun _ => [7]) f →
        ∀ address, f.client.target = some address → resolveLocal lookupHost addr false =
          .ok address := by
  have hparse : Config.parse (fun _ => none) (fun _ => .ok ⟨none, some file⟩) "" =
      .ok ⟨none, some client⟩ := by
    decide +kernel
  have hwaiting : (Registry.run serde server before).sessions[1]?.map (·.phase) =
      some .waiting := by
    decide +kernel
  have hs : (Registry.run serde server (before ++
      .register 1 (serde.toVec client.registration) :: after)).sessions[1]? = some session := by
    decide +kernel
  have hjson : serde.fromSlice (serde.toVec client.registration) = some client.registration := by
    simp [serde]
  have hb : session.bound[1]? =
      some ⟨"web", { token := some "www", bindAddr := some "0.0.0.0:80" }, "0.0.0.0:80"⟩ := rfl
  obtain ⟨service, addr, hentry, haddr, -, hforwarded⟩ :=
    connection_forwarded hparse rfl hjson hwaiting hs rfl hb rfl (peer_meets _) (Nat.le_refl 3)
      (Nat.le_refl 3) lookupHost (fun _ => Bridges.tagged) fun _ => [7]
  refine ⟨service, addr, hentry, haddr, fun f hf address htarget => ?_⟩
  have hprefer : (service.preferIpv6 || client.preferIpv6) = false := by
    cases hentry
    rfl
  rw [← hprefer]
  exact (hforwarded f hf).1 address htarget

end Cathole
