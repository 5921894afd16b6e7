import Cathole.Transport

/-!
# The supervisor

`main.rs`: reading the configuration at startup, and the loop that restarts the
tunnel task when the file changes or the task ends. The file may change between
any two reads, so the two reads of a pair are separate steps: `Config::read` and
then the read into `seen` at startup, the read into `seen` and then
`Config::read` in a tick. A spawned task runs beside `main`: it may get to its
accept loop (`ready`) and it may end, before or after that. Identity files may
change too, so every `Config::read` comes with a `Host` of its own.

Beside the variables of `main`, a `Supervisor` has the file, all tasks ever
spawned, and two notes on the last `Config::read`: what it read, and the
configuration that came out of it, if one did.
-/

namespace Cathole

structure Args where
  -- `--server` is `some true`, `--client` is `some false`.
  role : Option Bool := none
  check : Bool := false
  deriving DecidableEq, Repr

structure Program where
  decode : String → Option Bytes
  toml : String → Except String Config
  paths : Paths
  path : String
  args : Args

def validateFiles (host : Host) (c : Config) : Except Fault Unit := do
  let s ← Checked.unwrap (c.server.or c.client)
  let loopback : SocketAddr := .v4 0x7f000001 0
  if c.server.isSome then
    let _ ← Transport.server host loopback s.transport.quic
  else
    let _ ← Transport.client host loopback s.transport.quic

namespace Program

/-- `role_server`. -/
def roleServer (p : Program) (parsed : Config) : Except Fault Bool :=
  match p.args.role with
  | some server => .ok server
  | none => do
    ensure (parsed.server.isSome != parsed.client.isSome)
      "config contains both roles; select --server/-s or --client/-c"
    pure parsed.server.isSome

def load (p : Program) (host : Host) (server : Bool) (content : Option Bytes) :
    Except Fault Config := do
  let c ← Config.read p.decode p.toml p.paths p.path content
  let c ← c.select server
  validateFiles host c
  pure c

/-- The same at startup, where the file may decide the role. -/
def start (p : Program) (host : Host) (content : Option Bytes) : Except Fault (Bool × Config) := do
  let parsed ← Config.read p.decode p.toml p.paths p.path content
  let server ← p.roleServer parsed
  let current ← parsed.select server
  validateFiles host current
  pure (server, current)

end Program

structure Task where
  config : Config
  -- What was sent on its `stop` channel.
  stop : Bool := false
  reached : Bool := false
  ended : Option (Except Fault Unit) := none
  deriving DecidableEq

namespace Task

/-- The side the task runs, and for which role: the body of the future that
`launch` spawns. -/
def side (t : Task) : Except Fault (Bool × Side) :=
  match t.config.server with
  | some s => .ok (true, s)
  | none => do
    let s ← Checked.unwrap t.config.client
    pure (false, s)

def getsReady (t : Task) : Task := if t.ended.isNone then { t with reached := true } else t

def finishes (result : Except Fault Unit) (t : Task) : Task :=
  if t.ended.isNone then { t with ended := some result } else t

def stopped (t : Task) : Task := { t with stop := true }

end Task

structure Loop where
  server : Bool
  current : Config
  rollback : Option Config
  seen : Bytes
  -- The position of the task that `stop` and `running` belong to.
  running : Nat
  deriving DecidableEq

inductive MainPhase
  -- Before `Config::read`.
  | reading
  -- Between `Config::read` and the read into `seen`.
  | seeing (server : Bool) (current : Config)
  -- In `select!`.
  | waiting (l : Loop)
  -- In a tick, between the read into `seen` and `Config::read`.
  | changed (l : Loop)
  -- In a tick, waiting for the old task.
  | stopping (l : Loop) (next : Config)
  -- Interrupted, waiting for the task.
  | interrupted (l : Loop)
  | returned (result : Except Fault Unit)
  deriving DecidableEq

def MainPhase.loop : MainPhase → Option Loop
  | .waiting l => some l
  | .changed l => some l
  | .stopping l _ => some l
  | .interrupted l => some l
  | _ => none

/-- `main` is in its loop and not between two reads. -/
def MainPhase.settled : MainPhase → Option Loop
  | .waiting l => some l
  | .stopping l _ => some l
  | .interrupted l => some l
  | _ => none

structure Supervisor where
  file : Option Bytes
  phase : MainPhase
  tasks : List Task
  -- What the last `Config::read` read, and what came out of it.
  parsed : Option Bytes
  accepted : Option Config
  deriving DecidableEq

/-- A step of `main`, of a task, or of whoever edits the file. -/
inductive Event
  | write (content : Option Bytes)
  -- `Config::read` and what is done with it, at startup or in a tick.
  | read (host : Host)
  -- The read into `seen` at startup.
  | see
  -- A tick up to its read into `seen`.
  | tick
  | ready (task : Nat)
  | finish (task : Nat) (result : Except Fault Unit)
  -- The await of the task in `running` returns.
  | join
  | interrupt

namespace Supervisor

def start (file : Option Bytes) : Supervisor where
  file := file
  phase := .reading
  tasks := []
  parsed := none
  accepted := none

def launch (c : Config) (l : Loop) (s : Supervisor) : Supervisor :=
  { s with
    tasks := s.tasks ++ [{ config := c }]
    phase := .waiting { l with running := s.tasks.length } }

def outcome (i : Nat) (s : Supervisor) : Option (Except Fault Unit) := (s.tasks[i]?).bind (·.ended)

def readStep (p : Program) (host : Host) (s : Supervisor) : Supervisor :=
  match s.phase with
  | .reading =>
    match p.start host s.file with
    | .error fault =>
      { s with phase := .returned (.error fault), parsed := s.file.or s.parsed, accepted := none }
    | .ok (server, current) =>
      { s with
        phase := if p.args.check then .returned (.ok ()) else .seeing server current
        parsed := s.file.or s.parsed
        accepted := some current }
  | .changed l =>
    match p.load host l.server s.file with
    | .error _ => { s with phase := .waiting l, parsed := s.file.or s.parsed, accepted := none }
    | .ok next =>
      { s with
        phase := .stopping l next
        tasks := s.tasks.modify l.running Task.stopped
        parsed := s.file.or s.parsed
        accepted := some next }
  | _ => s

def seeStep (s : Supervisor) : Supervisor :=
  match s.phase with
  | .seeing server current =>
    match s.file with
    | none => { s with phase := .returned (.error .io) }
    | some bytes =>
      s.launch current { server, current, rollback := none, seen := bytes, running := 0 }
  | _ => s

def tickStep (s : Supervisor) : Supervisor :=
  match s.phase, s.file with
  | .waiting l, some bytes =>
    if bytes = l.seen then s else { s with phase := .changed { l with seen := bytes } }
  | _, _ => s

def joinStep (s : Supervisor) : Supervisor :=
  match s.phase with
  | .waiting l =>
    match s.outcome l.running, l.rollback with
    | none, _ => s
    | some _, some old => s.launch old { l with current := old, rollback := none }
    | some result, none => { s with phase := .returned result }
  | .stopping l next =>
    match s.outcome l.running with
    | none => s
    | some _ => s.launch next { l with rollback := some l.current, current := next }
  | .interrupted l =>
    match s.outcome l.running with
    | none => s
    | some _ => { s with phase := .returned (.ok ()) }
  | _ => s

def interruptStep (s : Supervisor) : Supervisor :=
  match s.phase with
  | .waiting l =>
    { s with phase := .interrupted l, tasks := s.tasks.modify l.running Task.stopped }
  | _ => s

/-- A step the supervisor is not ready for does nothing. -/
def step (p : Program) (s : Supervisor) : Event → Supervisor
  | .write content => { s with file := content }
  | .read host => s.readStep p host
  | .see => s.seeStep
  | .tick => s.tickStep
  | .ready i => { s with tasks := s.tasks.modify i Task.getsReady }
  | .finish i result => { s with tasks := s.tasks.modify i (Task.finishes result) }
  | .join => s.joinStep
  | .interrupt => s.interruptStep

def run (p : Program) (file : Option Bytes) (events : List Event) : Supervisor :=
  events.foldl (step p) (start file)

/-- The states of the runs whose steps all satisfy `may`. -/
inductive Reachable (p : Program) (may : Supervisor → Event → Prop) : Supervisor → Prop
  | start (file : Option Bytes) : Reachable p may (.start file)
  | step (h : Reachable p may s) (hmay : may s e) : Reachable p may (s.step p e)

-- ---------------------------------------------------------------------------
-- What a step can do
-- ---------------------------------------------------------------------------

inductive Moves (p : Program) (s : Supervisor) : Event → Supervisor → Prop
  -- The supervisor is not ready for the event, or the event changes nothing.
  | idle : Moves p s e s
  | wrote (content : Option Bytes) : Moves p s (.write content) { s with file := content }
  | refused (hs : s.phase = .reading) (hstart : p.start host s.file = .error fault) :
    Moves p s (.read host)
      { s with phase := .returned (.error fault), parsed := s.file.or s.parsed, accepted := none }
  | checked (hs : s.phase = .reading) (hstart : p.start host s.file = .ok (server, current)) :
    Moves p s (.read host)
      { s with
        phase := .returned (.ok ()), parsed := s.file.or s.parsed, accepted := some current }
  | started (hs : s.phase = .reading) (hstart : p.start host s.file = .ok (server, current)) :
    Moves p s (.read host)
      { s with
        phase := .seeing server current, parsed := s.file.or s.parsed, accepted := some current }
  | unseen (hs : s.phase = .seeing server current) :
    Moves p s .see { s with phase := .returned (.error .io) }
  | saw (hs : s.phase = .seeing server current) (hfile : s.file = some bytes) :
    Moves p s .see
      (s.launch current { server, current, rollback := none, seen := bytes, running := 0 })
  | noticed (hs : s.phase = .waiting l) (hfile : s.file = some bytes) (hne : bytes ≠ l.seen) :
    Moves p s .tick { s with phase := .changed { l with seen := bytes } }
  | ignored (hs : s.phase = .changed l) (hload : p.load host l.server s.file = .error fault) :
    Moves p s (.read host)
      { s with phase := .waiting l, parsed := s.file.or s.parsed, accepted := none }
  | accepts (hs : s.phase = .changed l) (hload : p.load host l.server s.file = .ok next) :
    Moves p s (.read host)
      { s with
        phase := .stopping l next, tasks := s.tasks.modify l.running Task.stopped,
        parsed := s.file.or s.parsed, accepted := some next }
  | ready (i : Nat) : Moves p s (.ready i) { s with tasks := s.tasks.modify i Task.getsReady }
  | finished (i : Nat) (result : Except Fault Unit) :
    Moves p s (.finish i result) { s with tasks := s.tasks.modify i (Task.finishes result) }
  | restored (hs : s.phase = .waiting l) (hended : s.outcome l.running = some result)
      (hrollback : l.rollback = some old) :
    Moves p s .join (s.launch old { l with current := old, rollback := none })
  | gaveUp (hs : s.phase = .waiting l) (hended : s.outcome l.running = some result)
      (hrollback : l.rollback = none) :
    Moves p s .join { s with phase := .returned result }
  | replaced (hs : s.phase = .stopping l next) (hended : s.outcome l.running = some result) :
    Moves p s .join (s.launch next { l with rollback := some l.current, current := next })
  | left (hs : s.phase = .interrupted l) (hended : s.outcome l.running = some result) :
    Moves p s .join { s with phase := .returned (.ok ()) }
  | interrupts (hs : s.phase = .waiting l) :
    Moves p s .interrupt
      { s with phase := .interrupted l, tasks := s.tasks.modify l.running Task.stopped }

variable {p : Program} {s : Supervisor}

theorem readStep_moves (host : Host) : Moves p s (.read host) (s.readStep p host) := by
  unfold readStep
  cases hs : s.phase with
  | reading =>
    cases hstart : p.start host s.file with
    | error fault => exact .refused hs hstart
    | ok result =>
      obtain ⟨server, current⟩ := result
      cases hcheck : p.args.check with
      | true => exact .checked hs hstart
      | false => exact .started hs hstart
  | changed l =>
    dsimp only
    cases hload : p.load host l.server s.file with
    | error fault => exact .ignored hs hload
    | ok next => exact .accepts hs hload
  | _ => exact .idle

theorem seeStep_moves : Moves p s .see s.seeStep := by
  unfold seeStep
  cases hs : s.phase with
  | seeing server current =>
    dsimp only
    split
    · exact .unseen hs
    · rename_i bytes hfile
      exact .saw hs hfile
  | _ => exact .idle

theorem tickStep_moves : Moves p s .tick s.tickStep := by
  unfold tickStep
  split
  · rename_i l bytes hs hfile
    split
    · exact .idle
    · rename_i hne
      exact .noticed hs hfile hne
  · exact .idle

theorem joinStep_moves : Moves p s .join s.joinStep := by
  unfold joinStep
  cases hs : s.phase with
  | waiting l =>
    dsimp only
    cases hended : s.outcome l.running with
    | none => exact .idle
    | some result =>
      cases hrollback : l.rollback with
      | none => exact .gaveUp hs hended hrollback
      | some old => exact .restored hs hended hrollback
  | stopping l next =>
    dsimp only
    cases hended : s.outcome l.running with
    | none => exact .idle
    | some result => exact .replaced hs hended
  | interrupted l =>
    dsimp only
    cases hended : s.outcome l.running with
    | none => exact .idle
    | some result => exact .left hs hended
  | _ => exact .idle

theorem step_moves (e : Event) : Moves p s e (s.step p e) := by
  cases e with
  | write content => exact .wrote content
  | read host => exact readStep_moves host
  | see => exact seeStep_moves
  | tick => exact tickStep_moves
  | ready i => exact .ready i
  | finish i result => exact .finished i result
  | join => exact joinStep_moves
  | interrupt =>
    unfold step interruptStep
    cases hs : s.phase with
    | waiting l => exact .interrupts hs
    | _ => exact .idle

-- ---------------------------------------------------------------------------
-- One task, running the current configuration
-- ---------------------------------------------------------------------------

end Supervisor

/-- The configuration came out of `read`, `select` and `validate_files`. -/
def Program.Vetted (p : Program) (server : Bool) (c : Config) : Prop :=
  ∃ host content, p.load host server content = .ok c

theorem Program.start_load {p : Program} (h : p.start host content = .ok (server, current)) :
    p.load host server content = .ok current := by
  simp only [Program.start, bind_eq_ok, pure_eq_ok] at h
  obtain ⟨parsed, hread, role, -, c, hselect, _, hfiles, hpair⟩ := h
  obtain ⟨rfl, rfl⟩ := Prod.mk.inj hpair
  simp only [Program.load, bind_eq_ok, pure_eq_ok]
  exact ⟨parsed, hread, c, hselect, (), hfiles, rfl⟩

theorem Program.Vetted.side {p : Program} (h : p.Vetted server c) :
    ∃ side, c.forRole server = some side ∧ c.forRole (!server) = none ∧
      side.Accepted p.decode server := by
  obtain ⟨host, content, hload⟩ := h
  simp only [Program.load, bind_eq_ok, pure_eq_ok] at hload
  obtain ⟨parsed, hread, c', hselect, _, -, rfl⟩ := hload
  obtain ⟨side, hside, hselected, hother⟩ := select_ok hselect
  exact ⟨side, hselected, hother, (read_accepted hread).forRole hside⟩

theorem validateFiles_safe (hside : c.forRole server = some side)
    (hother : c.forRole (!server) = none) (h : Side.Accepted decode server side) (host : Host) :
    Safe (validateFiles host c) := by
  cases server with
  | true =>
    obtain rfl : c = ⟨some side, none⟩ := by
      cases c
      exact congrArg₂ Config.mk hside hother
    exact Safe.bind (safe_ok side) fun _ hs => by
      cases hs
      exact Safe.bind (serverEndpoint_safe h) fun _ _ => safe_pure _
  | false =>
    obtain rfl : c = ⟨none, some side⟩ := by
      cases c
      exact congrArg₂ Config.mk hother hside
    exact Safe.bind (safe_ok side) fun _ hs => by
      cases hs
      exact Safe.bind (clientEndpoint_safe h) fun _ _ => safe_pure _

/-- What came out of `read` and `select` has the side `validate_files` unwraps. -/
theorem selectedFiles_safe (hread : Config.read decode toml paths path content = .ok parsed)
    (hselect : parsed.select server = .ok c) (host : Host) : Safe (validateFiles host c) := by
  obtain ⟨side, hside, hselected, hother⟩ := select_ok hselect
  exact validateFiles_safe hselected hother ((read_accepted hread).forRole hside) host

/-- Nothing in reading a configuration file panics, whatever the file holds. -/
theorem Program.load_safe (p : Program) (host : Host) (server : Bool) (content : Option Bytes) :
    Safe (p.load host server content) := by
  refine Safe.bind (read_safe _ _ _ _) fun parsed hread => ?_
  refine Safe.bind (select_safe _ _) fun c hselect => ?_
  exact Safe.bind (selectedFiles_safe hread hselect host) fun _ _ => safe_pure _

theorem Program.roleServer_safe (p : Program) (parsed : Config) : Safe (p.roleServer parsed) := by
  unfold Program.roleServer
  split
  · exact safe_ok _
  · exact Safe.bind (safe_ensure _ _) fun _ _ => safe_pure _

theorem Program.start_safe (p : Program) (host : Host) (content : Option Bytes) :
    Safe (p.start host content) := by
  refine Safe.bind (read_safe _ _ _ _) fun parsed hread => ?_
  refine Safe.bind (p.roleServer_safe parsed) fun server _ => ?_
  refine Safe.bind (select_safe _ _) fun current hselect => ?_
  exact Safe.bind (selectedFiles_safe hread hselect host) fun _ _ => safe_pure _

theorem side_of_forRole {t : Task} (hside : t.config.forRole server = some side)
    (hother : t.config.forRole (!server) = none) : t.side = .ok (server, side) := by
  cases server with
  | true =>
    have hs : t.config.server = some side := hside
    rw [Task.side, hs]
  | false =>
    have hs : t.config.server = none := hother
    have hc : t.config.client = some side := hside
    rw [Task.side, hs, hc]
    rfl

namespace Supervisor

/-- What every reachable state satisfies. -/
structure Sound (p : Program) (s : Supervisor) : Prop where
  -- Every task but the last has ended.
  alone : ∀ i t, s.tasks[i]? = some t → i + 1 < s.tasks.length → t.ended.isSome
  idle : s.phase = .reading ∨ (∃ server c, s.phase = .seeing server c) → s.tasks = []
  last : ∀ l, s.phase.loop = some l → s.tasks.length = l.running + 1
  running : ∀ l, s.phase.loop = some l → ∃ t, s.tasks[l.running]? = some t ∧ t.config = l.current
  current : ∀ l, s.phase.loop = some l → p.Vetted l.server l.current
  rollback : ∀ l old, s.phase.loop = some l → l.rollback = some old → p.Vetted l.server old
  seeing : ∀ server c, s.phase = .seeing server c → p.Vetted server c
  next : ∀ l next, s.phase = .stopping l next → p.Vetted l.server next

variable {p : Program} {s : Supervisor} {l : Loop}

theorem sound_start (file : Option Bytes) : Sound p (start file) where
  alone := by simp [start]
  idle := fun _ => rfl
  last := by simp [start, MainPhase.loop]
  running := by simp [start, MainPhase.loop]
  current := by simp [start, MainPhase.loop]
  rollback := by simp [start, MainPhase.loop]
  seeing := by simp [start]
  next := by simp [start]

theorem loop_waiting (hs : s.phase = .waiting l) : s.phase.loop = some l := by
  rw [hs]
  rfl

theorem loop_changed (hs : s.phase = .changed l) : s.phase.loop = some l := by
  rw [hs]
  rfl

theorem loop_stopping (hs : s.phase = .stopping l next) : s.phase.loop = some l := by
  rw [hs]
  rfl

/-- Once the task in `running` has ended, all have. -/
theorem Sound.all_ended (h : Sound p s) (hl : s.phase.loop = some l)
    (hended : s.outcome l.running = some result) : ∀ t ∈ s.tasks, t.ended.isSome := by
  intro t ht
  obtain ⟨i, hi⟩ := List.getElem?_of_mem ht
  obtain ⟨hlt, -⟩ := List.getElem?_eq_some_iff.mp hi
  have hlen := h.last l hl
  rcases Nat.lt_or_ge i l.running with hbefore | hlast
  · exact h.alone i t hi (by omega)
  · obtain rfl : i = l.running := by omega
    rw [outcome, hi] at hended
    exact Option.isSome_iff_exists.mpr ⟨result, hended⟩

theorem sound_launch (hall : ∀ t ∈ s.tasks, t.ended.isSome) (hcurrent : p.Vetted l.server l.current)
    (hrollback : ∀ old, l.rollback = some old → p.Vetted l.server old) :
    Sound p (s.launch l.current l) where
  alone := by
    intro i t hi hlt
    simp only [launch, List.length_append, List.length_singleton] at hi hlt
    rw [List.getElem?_append_left (by omega)] at hi
    exact hall t (List.mem_of_getElem? hi)
  idle := by simp [launch]
  last := by
    rintro l' ⟨⟩
    simp [launch]
  running := by
    rintro l' ⟨⟩
    exact ⟨{ config := l.current }, by simp [launch], rfl⟩
  current := by
    rintro l' ⟨⟩
    exact hcurrent
  rollback := by
    rintro l' old ⟨⟩ hold
    exact hrollback old hold
  seeing := by simp [launch]
  next := by simp [launch]

theorem Sound.modify (h : Sound p s) (i : Nat) {f : Task → Task}
    (hconfig : ∀ t, (f t).config = t.config) (hends : ∀ t, t.ended.isSome → (f t).ended.isSome) :
    Sound p { s with tasks := s.tasks.modify i f } where
  alone := by
    intro j t hj hlt
    obtain ⟨t', ht', rfl⟩ := Option.map_eq_some_iff.mp ((List.getElem?_modify ..).symm.trans hj)
    have hended := h.alone j t' ht' (by simpa using hlt)
    split
    · exact hends t' hended
    · exact hended
  idle := by
    intro hidle
    have hnil := h.idle hidle
    simp [hnil]
  last := by
    intro l hl
    simpa using h.last l hl
  running := by
    intro l hl
    obtain ⟨t, ht, hc⟩ := h.running l hl
    refine ⟨if i = l.running then f t else t, ?_, ?_⟩
    · rw [List.getElem?_modify, ht]
      rfl
    · split
      · rw [hconfig, hc]
      · exact hc
  current := h.current
  rollback := h.rollback
  seeing := h.seeing
  next := h.next

theorem Sound.goto (h : Sound p s) (hl : s.phase.loop = some l) (htasks : s'.tasks = s.tasks)
    (hl' : s'.phase.loop = some { l with seen := seen })
    (hnext : ∀ l next, s'.phase = .stopping l next → p.Vetted l.server next) : Sound p s' where
  alone := by
    rw [htasks]
    exact h.alone
  idle := by
    rintro (hs | ⟨server, c, hs⟩)
    · rw [hs] at hl'
      cases hl'
    · rw [hs] at hl'
      cases hl'
  last := by
    intro k hk
    cases hl'.symm.trans hk
    rw [htasks]
    exact h.last l hl
  running := by
    intro k hk
    cases hl'.symm.trans hk
    rw [htasks]
    exact h.running l hl
  current := by
    intro k hk
    cases hl'.symm.trans hk
    exact h.current l hl
  rollback := by
    intro k old hk hold
    cases hl'.symm.trans hk
    exact h.rollback l old hl hold
  seeing := by
    intro server c hs
    rw [hs] at hl'
    cases hl'
  next := hnext

theorem Sound.leave (h : Sound p s) (htasks : s'.tasks = s.tasks)
    (hs : s'.phase = .returned result) :
    Sound p s' where
  alone := by
    rw [htasks]
    exact h.alone
  idle := by simp [hs]
  last := by simp [hs, MainPhase.loop]
  running := by simp [hs, MainPhase.loop]
  current := by simp [hs, MainPhase.loop]
  rollback := by simp [hs, MainPhase.loop]
  seeing := by simp [hs]
  next := by simp [hs]

theorem config_stopped (t : Task) : t.stopped.config = t.config := rfl

theorem Sound.stop (h : Sound p s) (i : Nat) :
    Sound p { s with tasks := s.tasks.modify i Task.stopped } :=
  h.modify i config_stopped fun _ ht => ht

theorem config_getsReady (t : Task) : t.getsReady.config = t.config := by
  unfold Task.getsReady
  split <;> rfl

theorem ended_getsReady (t : Task) : t.getsReady.ended = t.ended := by
  unfold Task.getsReady
  split <;> rfl

theorem config_finishes (result : Except Fault Unit) (t : Task) :
    (t.finishes result).config = t.config := by
  unfold Task.finishes
  split <;> rfl

theorem ended_finishes {t : Task} (h : t.ended.isSome) : (t.finishes result).ended.isSome := by
  unfold Task.finishes
  split
  · rfl
  · exact h

theorem Sound.moves (h : Sound p s) (hm : Moves p s e s') : Sound p s' := by
  cases hm with
  | idle => exact h
  | wrote content =>
    exact ⟨h.alone, h.idle, h.last, h.running, h.current, h.rollback, h.seeing, h.next⟩
  | refused hs hstart => exact h.leave rfl rfl
  | checked hs hstart => exact h.leave rfl rfl
  | started hs hstart =>
    have hnil := h.idle (.inl hs)
    refine ⟨by simp [hnil], fun _ => hnil, ?_, ?_, ?_, ?_, ?_, ?_⟩
    · rintro l ⟨⟩
    · rintro l ⟨⟩
    · rintro l ⟨⟩
    · rintro l old ⟨⟩
    · rintro server c ⟨⟩
      exact ⟨_, _, Program.start_load hstart⟩
    · rintro l next ⟨⟩
  | unseen hs => exact h.leave rfl rfl
  | saw hs hfile =>
    have hnil := h.idle (.inr ⟨_, _, hs⟩)
    refine sound_launch (by simp [hnil]) (h.seeing _ _ hs) ?_
    rintro old ⟨⟩
  | noticed hs hfile hne =>
    refine h.goto (loop_waiting hs) rfl rfl ?_
    rintro l next ⟨⟩
  | ignored hs hload =>
    refine h.goto (loop_changed hs) rfl rfl ?_
    rintro l next ⟨⟩
  | accepts hs hload =>
    refine (h.stop _).goto (loop_changed hs) rfl rfl ?_
    rintro l next ⟨⟩
    exact ⟨_, _, hload⟩
  | ready i =>
    refine h.modify i config_getsReady fun t ht => ?_
    rw [ended_getsReady]
    exact ht
  | finished i result => exact h.modify i (config_finishes result) fun t ht => ended_finishes ht
  | restored hs hended hrollback =>
    have hl := loop_waiting hs
    have hold := h.rollback _ _ hl hrollback
    refine sound_launch (h.all_ended hl hended) hold ?_
    rintro old ⟨⟩
  | gaveUp hs hended hrollback => exact h.leave rfl rfl
  | replaced hs hended =>
    have hl := loop_stopping hs
    have hnext := h.next _ _ hs
    refine sound_launch (h.all_ended hl hended) hnext ?_
    rintro old ⟨⟩
    exact h.current _ hl
  | left hs hended => exact h.leave rfl rfl
  | interrupts hs =>
    refine (h.stop _).goto (loop_waiting hs) rfl rfl ?_
    rintro l next ⟨⟩

theorem sound_reachable (h : Reachable p may s) : Sound p s := by
  induction h with
  | start file => exact sound_start file
  | step h hmay ih => exact ih.moves (step_moves _)

theorem server_moves (hm : Moves p s e s') (hl : s.phase.loop = some l)
    (hl' : s'.phase.loop = some l') : l'.server = l.server := by
  cases hm with
  | idle => cases hl.symm.trans hl'; rfl
  | wrote content => cases hl.symm.trans hl'; rfl
  | refused hs => cases hl'
  | checked hs => cases hl'
  | started hs => cases hl'
  | unseen hs => cases hl'
  | saw hs =>
    rw [hs] at hl
    cases hl
  | noticed hs =>
    cases (loop_waiting hs).symm.trans hl
    cases hl'
    rfl
  | ignored hs =>
    cases (loop_changed hs).symm.trans hl
    cases hl'
    rfl
  | accepts hs =>
    cases (loop_changed hs).symm.trans hl
    cases hl'
    rfl
  | ready i => cases hl.symm.trans hl'; rfl
  | finished i result => cases hl.symm.trans hl'; rfl
  | restored hs =>
    cases (loop_waiting hs).symm.trans hl
    cases hl'
    rfl
  | gaveUp hs => cases hl'
  | replaced hs =>
    cases (loop_stopping hs).symm.trans hl
    cases hl'
    rfl
  | left hs => cases hl'
  | interrupts hs =>
    cases (loop_waiting hs).symm.trans hl
    cases hl'
    rfl

/-- A task is spawned only after all others have ended. -/
theorem Sound.ended_before_launch (h : Sound p s) (hm : Moves p s e s')
    (hmore : s.tasks.length < s'.tasks.length) : ∀ t ∈ s.tasks, t.ended.isSome := by
  cases hm with
  | saw hs => simp [h.idle (.inr ⟨_, _, hs⟩)]
  | restored hs hended => exact h.all_ended (loop_waiting hs) hended
  | replaced hs hended => exact h.all_ended (loop_stopping hs) hended
  | _ => simp at hmore

theorem tick_waiting (hs : s.phase = .waiting l) :
    (s.step p .tick).tasks = s.tasks ∧
      ∃ seen, (s.step p .tick).phase.loop = some { l with seen := seen } := by
  simp only [step]
  unfold tickStep
  split
  · rename_i l' bytes hl' hfile
    cases hs.symm.trans hl'
    split
    · exact ⟨rfl, l.seen, loop_waiting hs⟩
    · exact ⟨rfl, bytes, rfl⟩
  · exact ⟨rfl, l.seen, loop_waiting hs⟩

theorem read_refused (hs : s.phase = .changed l)
    (hno : ∀ next, p.load host l.server s.file ≠ .ok next) :
    (s.step p (.read host)).tasks = s.tasks ∧ (s.step p (.read host)).phase = .waiting l := by
  cases hload : p.load host l.server s.file with
  | error fault => exact ⟨by simp [step, readStep, hs, hload], by simp [step, readStep, hs, hload]⟩
  | ok next => exact absurd hload (hno next)

/-- The supervisor over any run: the task in `running` runs `current`; `current`
and `rollback` were loaded for the role fixed at startup and have that side
only, so no unwrap in `launch` or `validate_files` fails, at startup or later;
at most one task is alive, and the next is spawned when all before have ended;
and a tick whose content is not accepted changes neither the configurations nor
the tasks. -/
theorem supervisor_safe (h : Reachable p (fun _ _ => True) s) :
    (∀ l, s.phase.loop = some l →
      (∃ t, s.tasks[l.running]? = some t ∧ t.config = l.current ∧
        ∃ side, t.side = .ok (l.server, side)) ∧
      p.Vetted l.server l.current ∧ (∀ old, l.rollback = some old → p.Vetted l.server old) ∧
      ∀ e l', (s.step p e).phase.loop = some l' → l'.server = l.server) ∧
    (∀ server c, p.Vetted server c →
      (∃ side, c.forRole server = some side ∧ c.forRole (!server) = none) ∧
      ∀ host, validateFiles host c ≠ .error .panic) ∧
    (∀ host content, p.start host content ≠ .error .panic) ∧
    (∀ host server content, p.load host server content ≠ .error .panic) ∧
    (∀ (i j : Nat) (t t' : Task), s.tasks[i]? = some t → s.tasks[j]? = some t' → t.ended = none →
      t'.ended = none → i = j) ∧
    (∀ e, s.tasks.length < (s.step p e).tasks.length → ∀ t ∈ s.tasks, t.ended.isSome) ∧
    (∀ l, s.phase = .waiting l →
      (s.step p .tick).tasks = s.tasks ∧
        ∃ seen, (s.step p .tick).phase.loop = some { l with seen := seen }) ∧
    ∀ l host, s.phase = .changed l → (∀ next, p.load host l.server s.file ≠ .ok next) →
      (s.step p (.read host)).tasks = s.tasks ∧ (s.step p (.read host)).phase = .waiting l := by
  have hsound := sound_reachable h
  refine ⟨?_, ?_, p.start_safe, p.load_safe, ?_, ?_, ?_, ?_⟩
  · intro l hl
    obtain ⟨t, ht, hc⟩ := hsound.running l hl
    obtain ⟨side, hside, hother, -⟩ := (hsound.current l hl).side
    rw [← hc] at hside hother
    refine ⟨⟨t, ht, hc, side, side_of_forRole hside hother⟩, hsound.current l hl,
      fun old hold => hsound.rollback l old hl hold, ?_⟩
    intro e l' hl'
    exact server_moves (step_moves e) hl hl'
  · intro server c hc
    obtain ⟨side, hside, hother, haccepted⟩ := hc.side
    exact ⟨⟨side, hside, hother⟩, validateFiles_safe hside hother haccepted⟩
  · intro i j t t' hi hj hi' hj'
    have hlast : ∀ (k : Nat) (u : Task), s.tasks[k]? = some u → u.ended = none →
        k + 1 = s.tasks.length := by
      intro k u hk hu
      obtain ⟨hlt, -⟩ := List.getElem?_eq_some_iff.mp hk
      by_contra hne
      have hended := hsound.alone k u hk (by omega)
      simp [hu] at hended
    have hi'' := hlast i t hi hi'
    have hj'' := hlast j t' hj hj'
    omega
  · intro e hmore
    exact hsound.ended_before_launch (step_moves e) hmore
  · intro l hs
    exact tick_waiting hs
  · intro l host hs hno
    exact read_refused hs hno

theorem Reachable.foldl (h : Reachable p may s) (hmay : ∀ s e, may s e) (events : List Event) :
    Reachable p may (events.foldl (Supervisor.step p) s) := by
  induction events generalizing s with
  | nil => exact h
  | cons e events ih => exact ih (.step h (hmay s e))

end Supervisor

namespace Sample

def serverText (addr : String) : String :=
  "[server]\nbind_addr = \"" ++ addr ++ "\"\ndefault_token = \"s3cret\"\n" ++
    "[server.transport.noise]\nlocal_private_key = \"" ++ zeroKey ++ "\"\n" ++
    "[server.services.web]\nbind_addr = \"0.0.0.0:80\"\n"

def serverFile (addr : String) : Bytes := (serverText addr).toUTF8.data.toList

def nkServer (addr : String) : Side where
  bindAddr := some addr
  defaultToken := some "s3cret"
  transport := { noise := { localPrivateKey := some zeroKey } }
  services :=
    { entries := [("web", { bindAddr := some "0.0.0.0:80" })]
      sorted := by decide +kernel }

def addrA : String := "192.0.2.1:2333"
def addrB : String := "192.0.2.2:2333"
def addrC : String := "192.0.2.3:2333"

def addresses : List String := [addrA, addrB, addrC]

theorem addrA_mem : addrA ∈ addresses := by simp [addresses]
theorem addrB_mem : addrB ∈ addresses := by simp [addresses]
theorem addrC_mem : addrC ∈ addresses := by simp [addresses]

def program : Program where
  decode := base64
  toml text :=
    match addresses.find? fun addr => serverText addr = text with
    | some addr => .ok ⟨some (nkServer addr), none⟩
    | none => .error "0..1"
  paths :=
    { parent _ := some "/etc"
      isRelative path := !path.startsWith "/"
      join dir path := dir ++ "/" ++ path }
  path := "/etc/cathole.toml"
  args := {}

def config (addr : String) : Config := ⟨some ((nkServer addr).withHeartbeat true), none⟩

theorem parse_server (haddr : addr ∈ addresses) :
    Config.parse base64 program.toml (serverText addr) = .ok (config addr) := by
  simp only [addresses, List.mem_cons, List.not_mem_nil, or_false] at haddr
  rcases haddr with rfl | rfl | rfl
  · decide +kernel
  · decide +kernel
  · decide +kernel

theorem read_server (haddr : addr ∈ addresses) :
    Config.read program.decode program.toml program.paths program.path (some (serverFile addr)) =
      .ok (config addr) := by
  rw [Config.read, serverFile, readToString_toUTF8, ok_bind]
  change (Config.parse base64 program.toml (serverText addr) >>= _) = _
  rw [parse_server haddr]
  rfl

theorem select_server (addr : String) : (config addr).select true = .ok (config addr) := rfl

theorem files_server (haddr : addr ∈ addresses) : validateFiles host (config addr) = .ok () := by
  simp only [addresses, List.mem_cons, List.not_mem_nil, or_false] at haddr
  rcases haddr with rfl | rfl | rfl
  · decide +kernel
  · decide +kernel
  · decide +kernel

theorem load_server (haddr : addr ∈ addresses) :
    program.load host true (some (serverFile addr)) = .ok (config addr) := by
  rw [Program.load, read_server haddr, ok_bind, select_server, ok_bind, files_server haddr, ok_bind]
  rfl

theorem start_server (haddr : addr ∈ addresses) :
    program.start host (some (serverFile addr)) = .ok (true, config addr) := by
  have hrole : program.roleServer (config addr) = .ok true := rfl
  rw [Program.start, read_server haddr, ok_bind, hrole, ok_bind, select_server, ok_bind,
    files_server haddr, ok_bind]
  rfl

end Sample

namespace Supervisor

theorem run_started (hstart : p.start host (some bytes) = .ok (server, c))
    (hcheck : p.args.check = false) :
    run p (some bytes) [.read host, .see] =
      ⟨some bytes, .waiting ⟨server, c, none, bytes, 0⟩, [{ config := c }],
        some bytes, some c⟩ := by
  simp [run, start, step, readStep, seeStep, launch, hstart, hcheck]

open Sample in
theorem supervisor_safe_started :
    ∃ t, (run program (some (serverFile addrA)) [.read host, .see]).tasks[0]? = some t ∧
      t.config = config addrA ∧ ∃ side, t.side = .ok (true, side) := by
  have hreachable : Reachable program (fun _ _ => True)
      (run program (some (serverFile addrA)) [.read host, .see]) :=
    (Reachable.start _).foldl (fun _ _ => trivial) _
  have hloop : (run program (some (serverFile addrA)) [.read host, .see]).phase.loop =
      some ⟨true, config addrA, none, serverFile addrA, 0⟩ := by
    rw [run_started (start_server addrA_mem) rfl]
    rfl
  exact ((supervisor_safe hreachable).1 _ hloop).1

end Supervisor

end Cathole
