import Cathole.Lib.Matching
import Cathole.Lib.Pool
import Cathole.Lib.Simulation
import Cathole.Proxy.Ports

/-!
# The accept loop of the server

`run` of `proxy/server.rs` with everything it spawns: a task for each connection,
behind the semaphore of `max_connections`, and the `tcp_server` tasks of the
listeners, behind the semaphore of `max_streams` that the listeners of a session
share. What the sessions do with the public ports is the `Registry`. After the loop
`abort_all` marks the tasks of the sessions, and a task that is marked is dropped by
the runtime, whatever it waits for.

A session task that fails in its setup still owns its listeners and drops them
before it is over. Later they belong to tasks of their own, which are aborted with
the session but may hold their ports a little longer than it, and longer than
`run`. An aborted task gets to an `await` before it is dropped, so a task may do
anything until it is over.
-/

namespace Cathole

inductive ServerStage
  -- In the `select!` of the loop.
  | accepting
  -- The endpoint is closed and the sessions are aborted; waiting for them.
  | draining
  -- In `wait_idle`.
  | idling
  | returned
  deriving DecidableEq, Repr

/-- What the task of a session keeps beside its `Setup`. -/
structure Served where
  -- The listeners are tasks of their own.
  spawned : Bool
  -- By `sessions.abort_all()`.
  aborted : Bool
  -- The `tcp_server` tasks, with the listener that accepted.
  streams : Pool Bound
  deriving DecidableEq, Repr

structure Server where
  stage : ServerStage
  -- The tasks of the sessions, in the order of the registry.
  sessions : Pool Served
  registry : Registry
  retried : Nat
  refused : Nat
  deriving DecidableEq

inductive ServerAction
  -- `endpoint.accept()` returned a connection.
  | incoming (validated : Bool)
  -- It returned `None`, or `shutdown` changed.
  | close
  -- `sessions.join_next()` returned a task.
  | join (i : Nat)
  -- It returned `None`.
  | drained
  | idle
  | session (action : PortAction)
  -- The runtime drops a task that was aborted.
  | cancel (i : Nat)
  -- The task of a session is over.
  | finish (i : Nat)
  -- The `j`-th listener of a session accepts, and `set_nodelay` works or not.
  | accept (i j : Nat) (nodelay : Bool)
  -- A `tcp_server` task is over, or is joined by its listener.
  | streamFinish (i k : Nat)
  | streamJoin (i k : Nat)
  deriving DecidableEq, Repr

def Setup.live (s : Setup) : Bool :=
  match s.phase with
  | .closing | .ended => false
  | _ => true

namespace Server

def maxConnections (cfg : Side) : Nat := cfg.transport.quic.maxConnections.toNat
def maxStreams (cfg : Side) : Nat := cfg.transport.quic.maxStreams.toNat

def new (cfg : Side) : Server where
  stage := .accepting
  sessions := .new (maxConnections cfg)
  registry := .new
  retried := 0
  refused := 0

section

variable (serde : Serde) (cfg : Side)

/-- A connection: `Retry`, then a permit, then a session. -/
def incoming (validated : Bool) (s : Server) : Server :=
  if validated then
    match s.sessions.spawn
      { spawned := false, aborted := false, streams := .new (maxStreams cfg) } with
    | some sessions => { s with sessions, registry := s.registry.step serde cfg .connect }
    | none => { s with refused := s.refused + 1 }
  else { s with retried := s.retried + 1 }

/-- A session takes a step of its setup, ends, or drops a listener. -/
def sessionStep (action : PortAction) (s : Server) : Server :=
  match Registry.session action with
  | none => s
  | some i =>
    let registry := s.registry.step serde cfg action
    let forwarding := registry.sessions[i]?.any (·.phase = .forwarding)
    { s with
      registry
      sessions := s.sessions.update i fun served =>
        { served with spawned := served.spawned || forwarding } }

/-- The loop is left: the endpoint is closed, then `abort_all`. -/
def close (s : Server) : Server :=
  { s with
    stage := .draining
    sessions := s.sessions.map fun served => { served with aborted := true } }

/-- The future of a session is dropped, wherever it is. -/
def cancel (i : Nat) (s : Server) : Server :=
  match s.sessions.tasks[i]? with
  | some (served, _) => if served.aborted then s.sessionStep serde cfg (.abort i) else s
  | none => s

/-- Nothing is left for the task of a session to drop. -/
def Over (served : Served) (setup : Setup) : Prop :=
  setup.phase = .ended ∨ served.spawned = true ∧ setup.phase = .closing

instance (served : Served) (setup : Setup) : Decidable (Over served setup) :=
  inferInstanceAs (Decidable (_ ∨ _))

def finish (i : Nat) (s : Server) : Server :=
  match s.sessions.tasks[i]?, s.registry.sessions[i]? with
  | some (served, _), some setup =>
    if Over served setup then { s with sessions := s.sessions.finish i } else s
  | _, _ => s

/-- A listener without a permit drops the connection; if it fails, it ends the
session. -/
def accept (i j : Nat) (nodelay : Bool) (s : Server) : Server :=
  match s.sessions.tasks[i]?, s.registry.sessions[i]? with
  | some (served, _), some setup =>
    match setup.bound[j]? with
    | some b =>
      if served.spawned ∧ b.service.kind = .tcp then
        match served.streams.spawn b with
        | none => s
        | some streams =>
          if nodelay then
            { s with sessions := s.sessions.update i fun served => { served with streams } }
          else { s with registry := s.registry.step serde cfg (.abort i) }
      else s
    | none => s
  | _, _ => s

def streamStep (i : Nat) (f : Pool Bound → Pool Bound) (s : Server) : Server :=
  { s with
    sessions := s.sessions.update i fun served => { served with streams := f served.streams } }

def step (s : Server) : ServerAction → Server
  | .incoming validated => if s.stage = .accepting then s.incoming serde cfg validated else s
  | .close => if s.stage = .accepting then s.close else s
  | .join i =>
    if s.stage = .accepting ∨ s.stage = .draining
      then { s with sessions := s.sessions.join i } else s
  | .drained => if s.stage = .draining ∧ s.sessions.idle then { s with stage := .idling } else s
  | .idle => if s.stage = .idling then { s with stage := .returned } else s
  | .session action => s.sessionStep serde cfg action
  | .cancel i => s.cancel serde cfg i
  | .finish i => s.finish i
  | .accept i j nodelay => s.accept serde cfg i j nodelay
  | .streamFinish i k => s.streamStep i (·.finish k)
  | .streamJoin i k => s.streamStep i (·.join k)

def run (actions : List ServerAction) : Server := actions.foldl (step serde cfg) (new cfg)

end

-- ---------------------------------------------------------------------------
-- Permits and tasks
-- ---------------------------------------------------------------------------

/-- The task of a session knows when its listeners are tasks, and is over only if
it has dropped what it owned. -/
structure Fits (t : Served × Progress) (setup : Setup) : Prop where
  spawned : setup.phase = .forwarding → t.1.spawned = true
  done : t.2 ≠ .running → Over t.1 setup

structure Inv (cfg : Side) (s : Server) : Prop where
  slots : s.sessions.Conserves (maxConnections cfg)
  streams : ∀ t ∈ s.sessions.tasks, t.1.streams.Conserves (maxStreams cfg)
  fits : List.Forall₂ Fits s.sessions.tasks s.registry.sessions
  joined : s.stage = .idling ∨ s.stage = .returned → s.sessions.idle = true
  aborted : s.stage ≠ .accepting → ∀ t ∈ s.sessions.tasks, t.1.aborted = true

variable {serde : Serde} {cfg : Side} {s : Server} {served : Served} {setup : Setup}
  {taken : Finset Port}

theorem inv_new (cfg : Side) : Inv cfg (new cfg) where
  slots := Pool.conserves_new _
  streams := by simp [new, Pool.new]
  fits := .nil
  joined := by simp [new]
  aborted := by simp [new]

theorem Over.advance (h : Over served setup) (action : PortAction) :
    Over served (Registry.advance serde cfg action setup taken).1 := by
  rcases h with hended | ⟨hspawned, hclosing⟩
  · left
    cases action <;> simp [Registry.advance, hended]
  · have hdropping : Registry.Dropping setup.bound setup := ⟨.inl hclosing, List.Sublist.refl _⟩
    rcases (hdropping.advance action).1 with hphase | hphase
    · exact .inr ⟨hspawned, hphase⟩
    · exact .inl hphase

theorem advance_abort_phase (i : Nat) (setup : Setup) :
    (Registry.advance serde cfg (.abort i) setup taken).1.phase ≠ .forwarding := by
  cases hphase : setup.phase <;> simp [Registry.advance, hphase]

theorem Inv.incoming (h : Inv cfg s) (hstage : s.stage = .accepting) (validated : Bool) :
    Inv cfg (s.incoming serde cfg validated) := by
  unfold Server.incoming
  split
  · split
    · rename_i sessions hspawn
      have htasks := Pool.tasks_spawn hspawn
      refine ⟨h.slots.spawn hspawn, fun t ht => ?_, ?_, by simp [hstage], by simp [hstage]⟩
      · rw [htasks] at ht
        rcases List.mem_append.mp ht with ht | ht
        · exact h.streams t ht
        · cases List.mem_singleton.mp ht
          exact Pool.conserves_new _
      · rw [htasks, Registry.step_connect rfl]
        refine List.rel_append h.fits (.cons ⟨?_, ?_⟩ .nil)
        · simp [Setup.new]
        · simp
    · exact ⟨h.slots, h.streams, h.fits, h.joined, h.aborted⟩
  · exact ⟨h.slots, h.streams, h.fits, h.joined, h.aborted⟩

/-- The registry takes a step for a session, and its task makes a note of it. -/
theorem Inv.registryStep (h : Inv cfg s) (serde : Serde) (hi : Registry.session action = some i)
    (f : Served → Served)
    (hstreams : ∀ served, (f served).streams = served.streams)
    (hspawned : ∀ served, served.spawned = true → (f served).spawned = true)
    (haborted : ∀ served, (f served).aborted = served.aborted)
    (hforwarding : ∀ setup, (s.registry.step serde cfg action).sessions[i]? = some setup →
      setup.phase = .forwarding → ∀ served, (f served).spawned = true) :
    Inv cfg
      { s with
        registry := s.registry.step serde cfg action
        sessions := s.sessions.update i f } := by
  refine ⟨h.slots.update i f, fun t ht => ?_, ?_,
    fun hstage => Pool.idle_update (h.joined hstage) i f,
    fun hstage t ht => ?_⟩
  · obtain ht | ⟨served, progress, hget, rfl⟩ := Pool.mem_update ht
    · exact h.streams t ht
    · rw [hstreams]
      exact h.streams _ (List.mem_of_getElem? hget)
  · cases hs : s.registry.sessions[i]? with
    | none =>
      have hnone : s.sessions.tasks[i]? = none := by
        rw [List.getElem?_eq_none_iff] at hs ⊢
        rw [h.fits.length_eq]
        exact hs
      rw [Registry.step_unknown hi hs]
      simpa only [Pool.update, hnone] using h.fits
    | some setup =>
      obtain ⟨⟨served, progress⟩, ht, hfits⟩ := partner_left h.fits hs
      have hnew : (s.registry.step serde cfg action).sessions[i]? =
          some (Registry.advance serde cfg action setup s.registry.taken).1 := by
        rw [Registry.step_session hi hs, Registry.getElem?_set_of hs, if_pos rfl]
      rw [Pool.tasks_update ht, Registry.step_session hi hs]
      refine h.fits.set i ⟨fun hphase => hforwarding _ hnew hphase served, fun hover => ?_⟩
      rcases (hfits.done hover).advance action with hphase | ⟨hdone, hphase⟩
      · exact .inl hphase
      · exact .inr ⟨hspawned served hdone, hphase⟩
  · obtain ht | ⟨served, progress, hget, rfl⟩ := Pool.mem_update ht
    · exact h.aborted hstage t ht
    · rw [haborted]
      exact h.aborted hstage _ (List.mem_of_getElem? hget)

theorem Inv.sessionStep (h : Inv cfg s) (action : PortAction) :
    Inv cfg (s.sessionStep serde cfg action) := by
  unfold Server.sessionStep
  split
  · exact h
  · rename_i i hi
    refine h.registryStep serde hi _ (fun _ => rfl) (fun served hspawned => by simp [hspawned])
      (fun _ => rfl) ?_
    intro setup hsetup hphase served
    simp [hsetup, hphase]

theorem Inv.close (h : Inv cfg s) : Inv cfg s.close := by
  refine ⟨h.slots.map _, fun t ht => ?_, ?_, by simp [Server.close], fun _ t ht => ?_⟩
  · obtain ⟨t₀, ht₀, rfl⟩ := List.mem_map.mp ht
    exact h.streams t₀ ht₀
  · exact List.forall₂_map_left_iff.mpr (h.fits.imp fun _ _ hfits => ⟨hfits.spawned, hfits.done⟩)
  · obtain ⟨t₀, -, rfl⟩ := List.mem_map.mp ht
    rfl

theorem Inv.cancel (h : Inv cfg s) (i : Nat) : Inv cfg (s.cancel serde cfg i) := by
  unfold Server.cancel
  split
  · split
    · exact h.sessionStep (.abort i)
    · exact h
  · exact h

theorem Inv.goesOn (h : Inv cfg s) {sessions : Pool Served}
    (hslots : sessions.Conserves (maxConnections cfg))
    (ht : s.sessions.tasks[i]? = some (served, progress))
    (htasks : sessions.tasks = s.sessions.tasks.set i (served, progress'))
    (hover : ∀ setup, s.registry.sessions[i]? = some setup → Over served setup)
    (hstage : s.stage ≠ .idling ∧ s.stage ≠ .returned) : Inv cfg { s with sessions } := by
  refine ⟨hslots, fun t hmem => ?_, ?_, fun hlate => absurd hlate (not_or.mpr hstage),
    fun hleft t hmem => ?_⟩
  · rw [htasks] at hmem
    rcases List.mem_or_eq_of_mem_set hmem with hmem | rfl
    · exact h.streams t hmem
    · exact h.streams (served, progress) (List.mem_of_getElem? ht)
  · rw [htasks]
    refine h.fits.set_left i fun setup hs => ⟨fun hphase => ?_, fun _ => hover setup hs⟩
    obtain ⟨t, ht', hfits⟩ := partner_left h.fits hs
    cases ht.symm.trans ht'
    exact hfits.spawned hphase
  · rw [htasks] at hmem
    rcases List.mem_or_eq_of_mem_set hmem with hmem | rfl
    · exact h.aborted hleft t hmem
    · exact h.aborted hleft (served, progress) (List.mem_of_getElem? ht)

theorem Inv.finish (h : Inv cfg s) (i : Nat) : Inv cfg (s.finish i) := by
  unfold Server.finish
  split
  · rename_i served progress setup ht hs
    split
    · rename_i hover
      obtain ⟨hsame, -⟩ | ⟨a, hrunning, htasks⟩ := Pool.finish_cases i s.sessions
      · rw [hsame]
        exact h
      · cases ht.symm.trans hrunning
        refine h.goesOn (h.slots.finish i) ht htasks (fun setup' hs' => ?_) ?_
        · cases hs.symm.trans hs'
          exact hover
        · constructor <;> intro hstage
          all_goals
            have hjoined :=
              List.all_eq_true.mp (h.joined (by simp [hstage])) _ (List.mem_of_getElem? ht)
            simp at hjoined
    · exact h
  · exact h

theorem Inv.join (h : Inv cfg s) (hstage : s.stage = .accepting ∨ s.stage = .draining) (i : Nat) :
    Inv cfg { s with sessions := s.sessions.join i } := by
  obtain ⟨hsame, -⟩ | ⟨a, hfinished, htasks⟩ := Pool.join_cases i s.sessions
  · rw [hsame]
    exact h
  · refine h.goesOn (h.slots.join i) hfinished htasks (fun setup hs => ?_) ?_
    · obtain ⟨t, ht, hfits⟩ := partner_left h.fits hs
      cases hfinished.symm.trans ht
      exact hfits.done (by simp)
    · rcases hstage with hstage | hstage <;> simp [hstage]

theorem Inv.streamStep (h : Inv cfg s) (i : Nat) (f : Pool Bound → Pool Bound)
    (hf : ∀ streams, streams.Conserves (maxStreams cfg) → (f streams).Conserves (maxStreams cfg)) :
    Inv cfg (s.streamStep i f) := by
  refine ⟨h.slots.update i _, fun t ht => ?_, ?_,
    fun hstage => Pool.idle_update (h.joined hstage) i _,
    fun hstage t ht => ?_⟩
  · obtain ht | ⟨served, progress, hget, rfl⟩ := Pool.mem_update ht
    · exact h.streams t ht
    · exact hf _ (h.streams _ (List.mem_of_getElem? hget))
  · cases ht : s.sessions.tasks[i]? with
    | none => simpa only [Server.streamStep, Pool.update, ht] using h.fits
    | some t =>
      obtain ⟨served, progress⟩ := t
      rw [Server.streamStep, Pool.tasks_update ht]
      refine h.fits.set_left i fun setup hs => ?_
      obtain ⟨t, ht', hfits⟩ := partner_left h.fits hs
      cases ht.symm.trans ht'
      exact ⟨hfits.spawned, hfits.done⟩
  · obtain ht | ⟨served, progress, hget, rfl⟩ := Pool.mem_update ht
    · exact h.aborted hstage t ht
    · exact h.aborted hstage (served, progress) (List.mem_of_getElem? hget)

theorem Inv.accept (h : Inv cfg s) (i j : Nat) (nodelay : Bool) :
    Inv cfg (s.accept serde cfg i j nodelay) := by
  unfold Server.accept
  split
  · rename_i served progress setup ht hs
    split
    · split
      · split
        · exact h
        · rename_i streams hspawn
          split
          · have hstreams := (h.streams _ (List.mem_of_getElem? ht)).spawn hspawn
            exact h.streamStep i (fun _ => streams) fun _ _ => hstreams
          · have habort : Registry.session (.abort i) = some i := rfl
            have hstep := h.registryStep serde habort id (fun _ => rfl)
              (fun _ hspawned => hspawned) (fun _ => rfl) fun setup' hs' hphase => ?_
            · rwa [Pool.update_id] at hstep
            · rw [Registry.step_session rfl hs, Registry.getElem?_set_of hs, if_pos rfl] at hs'
              cases hs'
              exact absurd hphase (advance_abort_phase i setup)
      · exact h
    · exact h
  · exact h

theorem Inv.step (h : Inv cfg s) (serde : Serde) (action : ServerAction) :
    Inv cfg (s.step serde cfg action) := by
  cases action with
  | incoming validated =>
    simp only [Server.step]
    split
    · exact h.incoming ‹_› validated
    · exact h
  | close =>
    simp only [Server.step]
    split
    · exact h.close
    · exact h
  | join i =>
    simp only [Server.step]
    split
    · exact h.join ‹_› i
    · exact h
  | drained =>
    simp only [Server.step]
    split
    · rename_i hdrained
      exact ⟨h.slots, h.streams, h.fits, fun _ => hdrained.2,
        fun _ => h.aborted (by simp [hdrained.1])⟩
    · exact h
  | idle =>
    simp only [Server.step]
    split
    · rename_i hidling
      exact ⟨h.slots, h.streams, h.fits, fun _ => h.joined (.inl hidling),
        fun _ => h.aborted (by simp [hidling])⟩
    · exact h
  | session action => exact h.sessionStep action
  | cancel i => exact h.cancel i
  | finish i => exact h.finish i
  | accept i j nodelay => exact h.accept i j nodelay
  | streamFinish i k => exact h.streamStep i _ fun _ hstreams => hstreams.finish k
  | streamJoin i k => exact h.streamStep i _ fun _ hstreams => hstreams.join k

theorem looks_sessionStep (serde : Serde) (cfg : Side) (s : Server) (action : PortAction) :
    ∃ actions, (s.sessionStep serde cfg action).registry =
      List.foldl (Registry.step serde cfg) s.registry actions := by
  unfold sessionStep
  split
  · exact ⟨[], rfl⟩
  · exact ⟨[action], rfl⟩

theorem looks (serde : Serde) (cfg : Side) (s : Server) (action : ServerAction) :
    ∃ actions, (s.step serde cfg action).registry =
      List.foldl (Registry.step serde cfg) s.registry actions := by
  cases action with
  | incoming validated =>
    simp only [step, incoming]
    split
    · split
      · split
        · exact ⟨[.connect], rfl⟩
        · exact ⟨[], rfl⟩
      · exact ⟨[], rfl⟩
    · exact ⟨[], rfl⟩
  | session action => exact looks_sessionStep serde cfg s action
  | cancel i =>
    simp only [step, cancel]
    split
    · split
      · exact looks_sessionStep serde cfg s (.abort i)
      · exact ⟨[], rfl⟩
    · exact ⟨[], rfl⟩
  | finish i =>
    simp only [step, finish]
    split
    · split <;> exact ⟨[], rfl⟩
    · exact ⟨[], rfl⟩
  | accept i j nodelay =>
    simp only [step, accept]
    split
    · split
      · split
        · split
          · exact ⟨[], rfl⟩
          · split
            · exact ⟨[], rfl⟩
            · exact ⟨[.abort i], rfl⟩
        · exact ⟨[], rfl⟩
      · exact ⟨[], rfl⟩
    · exact ⟨[], rfl⟩
  | streamFinish i k => exact ⟨[], rfl⟩
  | streamJoin i k => exact ⟨[], rfl⟩
  | close | join | drained | idle =>
    simp only [step]
    split <;> exact ⟨[], rfl⟩

theorem simulates (serde : Serde) (cfg : Side) :
    Simulates (step serde cfg) (Registry.step serde cfg) (Through (Inv cfg) (·.registry)) :=
  .through (fun _ action h => h.step serde action) fun s action _ => looks serde cfg s action

theorem inv_run (serde : Serde) (cfg : Side) (actions : List ServerAction) :
    Inv cfg (run serde cfg actions) :=
  (simulates serde cfg).invariant (inv_new cfg) actions

theorem registry_run (serde : Serde) (cfg : Side) (actions : List ServerAction) :
    ∃ actions', (run serde cfg actions).registry = Registry.run serde cfg actions' :=
  (simulates serde cfg).view_run (inv_new cfg) actions

theorem Fits.running {t : Served × Progress} (h : Fits t setup) (hlive : setup.live = true) :
    Pool.isRunning t = true := by
  by_contra hno
  have hdone : t.2 ≠ .running := by simpa [Pool.isRunning] using hno
  rcases h.done hdone with hphase | ⟨-, hphase⟩
  · simp [Setup.live, hphase] at hlive
  · simp [Setup.live, hphase] at hlive

theorem Inv.incoming_exact (h : Inv cfg s) (serde : Serde) (hstage : s.stage = .accepting) :
    let s' := s.step serde cfg (.incoming true)
    if s.sessions.running < maxConnections cfg then
      s'.registry.sessions = s.registry.sessions ++ [.new] ∧
      s'.sessions.running = s.sessions.running + 1 ∧
        s'.refused = s.refused
    else s' = { s with refused := s.refused + 1 } := by
  intro s'
  have hnone := h.slots.spawn_none
    (a := { spawned := false, aborted := false, streams := .new (maxStreams cfg) })
  have hstep : s' = s.incoming serde cfg true := if_pos hstage
  rw [hstep, Server.incoming, if_pos rfl]
  cases hspawn : s.sessions.spawn
    { spawned := false, aborted := false, streams := .new (maxStreams cfg) } with
  | none => rw [if_neg (Nat.not_lt_of_ge (hnone.mp hspawn).ge)]
  | some sessions =>
    have hne : s.sessions.running ≠ maxConnections cfg := by
      intro hfull
      cases hspawn.symm.trans (hnone.mpr hfull)
    rw [if_pos (Nat.lt_of_le_of_ne h.slots.running_le hne)]
    refine ⟨congrArg Registry.sessions (Registry.step_connect rfl), ?_, rfl⟩
    simp [Pool.running, Pool.tasks_spawn hspawn, Pool.isRunning]

theorem Inv.accept_exact (h : Inv cfg s) (serde : Serde)
    (ht : s.sessions.tasks[i]? = some (served, progress))
    (hs : s.registry.sessions[i]? = some setup) (hb : setup.bound[j]? = some b)
    (hkind : b.service.kind = .tcp) (hspawned : served.spawned = true) :
    let s' := s.step serde cfg (.accept i j true)
    if served.streams.running < maxStreams cfg then
      ∃ served', s'.sessions.tasks[i]? = some (served', progress) ∧
        served'.streams.tasks = served.streams.tasks ++ [(b, .running)]
    else s' = s := by
  intro s'
  have hstreams : served.streams.Conserves (maxStreams cfg) := h.streams _ (List.mem_of_getElem? ht)
  have hnone := hstreams.spawn_none (a := b)
  have hstep : s' = s.accept serde cfg i j true := rfl
  simp only [hstep, Server.accept, ht, hs, hb, hspawned, hkind, and_self, if_true]
  cases hspawn : served.streams.spawn b with
  | none => rw [if_neg (Nat.not_lt_of_ge (hnone.mp hspawn).ge)]
  | some streams =>
    have hne : served.streams.running ≠ maxStreams cfg := by
      intro hfull
      cases hspawn.symm.trans (hnone.mpr hfull)
    rw [if_pos (Nat.lt_of_le_of_ne hstreams.running_le hne)]
    refine ⟨{ served with streams }, ?_, Pool.tasks_spawn hspawn⟩
    rw [Pool.tasks_update ht, List.getElem?_set_self (List.getElem?_eq_some_iff.mp ht).1]

/-- In every state of the server: its sessions share one port table; permits are
neither lost nor made up, for connections as well as for the streams of each
session, so that no more than `max_connections` sessions are up; and a validated
connection or a public TCP connection is turned away exactly when all permits are
in use. A connection that is not validated allocates nothing. -/
theorem admission_exact (serde : Serde) (cfg : Side) (actions : List ServerAction) :
    let s := run serde cfg actions
    (∃ actions', s.registry = Registry.run serde cfg actions') ∧
    s.sessions.permits + s.sessions.running = maxConnections cfg ∧
    s.registry.sessions.countP Setup.live ≤ s.sessions.running ∧
    (∀ t ∈ s.sessions.tasks, t.1.streams.permits + t.1.streams.running = maxStreams cfg) ∧
    (s.stage = .accepting →
      let s' := s.step serde cfg (.incoming true)
      if s.sessions.running < maxConnections cfg then
        s'.registry.sessions = s.registry.sessions ++ [.new] ∧
          s'.sessions.running = s.sessions.running + 1 ∧ s'.refused = s.refused
      else s' = { s with refused := s.refused + 1 }) ∧
    ((s.step serde cfg (.incoming false)).sessions = s.sessions ∧
      (s.step serde cfg (.incoming false)).registry = s.registry) ∧
    ∀ (i j : Nat) (served : Served) (progress : Progress) (setup : Setup) (b : Bound),
      s.sessions.tasks[i]? = some (served, progress) → s.registry.sessions[i]? = some setup →
      setup.bound[j]? = some b → b.service.kind = .tcp → served.spawned = true →
      let s' := s.step serde cfg (.accept i j true)
      if served.streams.running < maxStreams cfg then
        ∃ served', s'.sessions.tasks[i]? = some (served', progress) ∧
          served'.streams.tasks = served.streams.tasks ++ [(b, .running)]
      else s' = s := by
  intro s
  have h : Inv cfg s := inv_run serde cfg actions
  refine ⟨registry_run serde cfg actions, h.slots, h.fits.countP_le fun _ _ hfits => hfits.running,
    h.streams, h.incoming_exact serde, ?_, ?_⟩
  · simp only [step, incoming, Bool.false_eq_true, if_false]
    split <;> exact ⟨rfl, rfl⟩
  · intro i j served progress setup b ht hs hb hkind hspawned
    exact h.accept_exact serde ht hs hb hkind hspawned

end Server

end Cathole
