import Cathole.Proxy.Dialer
import Cathole.Proxy.Shutdown
import Cathole.Supervisor

/-!
# The process

`main` with the tasks it launches. The task of a server runs the `Server` of its
configuration from the time it listens, and is over when that has returned. The task
of a client runs the `Dialer` of its configuration; it is over when it was told to
stop, or with a panic of the loop.

One task runs at a time, but the listeners of a session may outlive it and even
the server that accepted it. So all the servers a process ever ran share the port
table of the operating system, and a listener of an old one can be in the way of a
new one.
-/

namespace Cathole

structure Listening where
  cfg : Side
  server : Server
  deriving DecidableEq

structure Process where
  main : Supervisor
  -- By the number of the task.
  servers : Table Nat Listening
  clients : Table Nat Dialer
  taken : Finset Port

inductive ProcessAction
  -- A step of `main`, or an edit of the file.
  | main (event : Event)
  -- A task gets to its loop, or fails before that.
  | listen (i : Nat) (host : Host) (lookupHost : String → Option (List SocketAddr))
  -- The `changed` of a `stop` channel returns.
  | stop (i : Nat)
  | server (i : Nat) (action : ServerAction)
  | client (i : Nat) (event : DialerEvent)
  -- The task of a server is over.
  | leave (i : Nat)

/-- The tasks of the process report these by themselves. -/
def Event.isMain : Event → Bool
  | .ready _ | .finish _ _ => false
  | _ => true

def Server.withTaken (taken : Finset Port) (s : Server) : Server :=
  { s with registry := { s.registry with taken } }

namespace Process

def start (file : Option Bytes) : Process where
  main := .start file
  servers := ∅
  clients := ∅
  taken := ∅

section

variable (serde : Serde) (program : Program)

def mainStep (event : Event) (p : Process) : Process := { p with main := p.main.step program event }

/-- The start of the future that `launch` spawns. -/
def listen (i : Nat) (host : Host) (lookupHost : String → Option (List SocketAddr)) (p : Process) :
    Process :=
  match p.main.tasks[i]?, p.servers.lookup i with
  | some t, none =>
    if t.ended.isSome then p
    else
      match t.side with
      | .ok (true, cfg) =>
        match cfg.listen host lookupHost with
        | .ok _ =>
          { p.mainStep program (.ready i) with servers := p.servers.insert i ⟨cfg, .new cfg⟩ }
        | .error fault => p.mainStep program (.finish i (.error fault))
      | .ok (false, cfg) =>
        if i ∈ p.clients then p
        else { p.mainStep program (.ready i) with clients := p.clients.insert i (.new cfg) }
      | .error fault => p.mainStep program (.finish i (.error fault))
  | _, _ => p

def serve (i : Nat) (action : ServerAction) (p : Process) : Process :=
  match p.servers.lookup i with
  | some g =>
    let server := (g.server.withTaken p.taken).step serde g.cfg action
    { p with servers := p.servers.insert i { g with server }, taken := server.registry.taken }
  | none => p

/-- The `run` of a client takes a step; a panic ends its task. -/
def dial (i : Nat) (event : DialerEvent) (p : Process) : Process :=
  match p.main.tasks[i]?, p.clients.lookup i with
  | some t, some d =>
    if t.ended.isSome then p
    else
      match d.step event with
      | .ok d => { p with clients := p.clients.insert i d }
      | .error fault => p.mainStep program (.finish i (.error fault))
  | _, _ => p

/-- The server leaves its loop; the client is dropped by `select!`. -/
def stop (i : Nat) (p : Process) : Process :=
  match p.main.tasks[i]? with
  | some t =>
    if t.stop then
      match t.side with
      | .ok (true, _) => p.serve serde i .close
      | .ok (false, _) => p.mainStep program (.finish i (.ok ()))
      | .error _ => p
    else p
  | none => p

def leave (i : Nat) (p : Process) : Process :=
  match p.servers.lookup i with
  | some g => if g.server.stage = .returned then p.mainStep program (.finish i (.ok ())) else p
  | none => p

def step (p : Process) : ProcessAction → Process
  | .main event => if event.isMain then p.mainStep program event else p
  | .listen i host lookupHost => p.listen program i host lookupHost
  | .stop i => p.stop serde program i
  | .server i action => p.serve serde i action
  | .client i event => p.dial program i event
  | .leave i => p.leave program i

def run (file : Option Bytes) (actions : List ProcessAction) : Process :=
  actions.foldl (step serde program) (start file)

end

end Process

-- ---------------------------------------------------------------------------
-- Who was told to stop
-- ---------------------------------------------------------------------------

/-- `main` has sent on the `stop` channel of the task that runs. -/
def MainPhase.told : MainPhase → Bool
  | .stopping _ _ | .interrupted _ => true
  | _ => false

namespace Supervisor

variable {program : Program} {s s' : Supervisor} {t : Task} {i : Nat}

def Told (s : Supervisor) : Prop :=
  ∀ l t, s.phase.loop = some l → s.tasks[l.running]? = some t → t.stop = s.phase.told

theorem told_start (file : Option Bytes) : Told (start file) := by
  rintro l t ⟨⟩

theorem told_launch (c : Config) (l : Loop) (s : Supervisor) : Told (s.launch c l) := by
  rintro l' t ⟨⟩ ht
  simp only [launch, List.getElem?_concat_length] at ht
  cases ht
  rfl

theorem stop_getsReady (t : Task) : t.getsReady.stop = t.stop := by
  unfold Task.getsReady
  split <;> rfl

theorem stop_finishes (result : Except Fault Unit) (t : Task) :
    (t.finishes result).stop = t.stop := by
  unfold Task.finishes
  split <;> rfl

theorem Told.modify (h : Told s) (i : Nat) {f : Task → Task} (hf : ∀ t, (f t).stop = t.stop) :
    Told { s with tasks := s.tasks.modify i f } := by
  intro l t hl ht
  obtain ⟨t', ht', rfl⟩ := Option.map_eq_some_iff.mp ((List.getElem?_modify ..).symm.trans ht)
  rw [← h l t' hl ht']
  split
  · exact hf t'
  · rfl

theorem told_stopped {phase : MainPhase} (hl : phase.loop = some l) (htold : phase.told = true) :
    Told { s with phase, tasks := s.tasks.modify l.running Task.stopped } := by
  intro l' t hl' ht
  cases hl.symm.trans hl'
  obtain ⟨t', -, rfl⟩ := Option.map_eq_some_iff.mp ((List.getElem?_modify ..).symm.trans ht)
  rw [if_pos rfl]
  exact htold.symm

theorem Told.goto (h : Told s) {phase : MainPhase} (hl : s.phase.loop = some l)
    (hl' : phase.loop = some { l with seen := seen }) (htold : phase.told = s.phase.told) :
    Told { s with phase } := by
  intro l' t hloop ht
  cases hl'.symm.trans hloop
  rw [h l t hl ht]
  exact htold.symm

theorem Told.moves (h : Told s) (hm : Moves program s e s') : Told s' := by
  cases hm with
  | idle => exact h
  | wrote content => exact h
  | refused hs | checked hs | started hs | unseen hs | gaveUp hs | left hs => rintro l t ⟨⟩
  | saw hs => exact told_launch _ _ _
  | restored hs => exact told_launch _ _ _
  | replaced hs => exact told_launch _ _ _
  | noticed hs =>
    refine h.goto (loop_waiting hs) rfl ?_
    rw [hs]
    rfl
  | ignored hs =>
    intro l t hl ht
    cases hl
    have hstop := h _ t (loop_changed hs) ht
    rw [hs] at hstop
    exact hstop
  | accepts hs => exact told_stopped rfl rfl
  | interrupts hs => exact told_stopped rfl rfl
  | ready i => exact h.modify i stop_getsReady
  | finished i result => exact h.modify i (stop_finishes result)

-- ---------------------------------------------------------------------------
-- The tasks during a step of `main`
-- ---------------------------------------------------------------------------

/-- `main` changes no task, but for telling one to stop, and spawns them fresh. -/
theorem Moves.task (hm : Moves program s e s') (he : e.isMain = true) (hi : s.tasks[i]? = some t) :
    s'.tasks[i]? = some t ∨ s'.tasks[i]? = some t.stopped := by
  have hlaunch : ∀ c l, (s.launch c l).tasks[i]? = some t := fun c l => by
    simp only [launch, List.getElem?_append_left (List.getElem?_eq_some_iff.mp hi).1, hi]
  have hstop : ∀ j, (s.tasks.modify j Task.stopped)[i]? = some t ∨
      (s.tasks.modify j Task.stopped)[i]? = some t.stopped := by
    intro j
    rw [List.getElem?_modify, hi]
    by_cases hj : j = i
    · exact .inr (by simp [hj])
    · exact .inl (by simp [hj])
  cases hm with
  | saw hs => exact .inl (hlaunch _ _)
  | restored hs => exact .inl (hlaunch _ _)
  | replaced hs => exact .inl (hlaunch _ _)
  | accepts hs => exact hstop _
  | interrupts hs => exact hstop _
  | ready i => cases he
  | finished i result => cases he
  | _ => exact .inl hi

theorem Moves.fresh (hm : Moves program s e s') (hnone : s.tasks[i]? = none)
    (hi : s'.tasks[i]? = some t) : t.ended = none := by
  have hlaunch : ∀ c l, (s.launch c l).tasks[i]? = some t → t.ended = none := by
    intro c l hlast
    rw [List.getElem?_eq_none_iff] at hnone
    simp only [launch, List.getElem?_append_right hnone, List.getElem?_singleton] at hlast
    split at hlast
    · cases hlast
      rfl
    · cases hlast
  have hmodify : ∀ j f, (s.tasks.modify j f)[i]? ≠ some t := by
    intro j f
    rw [List.getElem?_modify, hnone]
    simp
  cases hm with
  | saw hs => exact hlaunch _ _ hi
  | restored hs => exact hlaunch _ _ hi
  | replaced hs => exact hlaunch _ _ hi
  | accepts hs => exact absurd hi (hmodify _ _)
  | interrupts hs => exact absurd hi (hmodify _ _)
  | ready j => exact absurd hi (hmodify _ _)
  | finished j result => exact absurd hi (hmodify _ _)
  | _ => exact absurd (hnone.symm.trans hi) (by simp)

/-- Every task was launched with a configuration that passed the checks. -/
def Checked (program : Program) (s : Supervisor) : Prop :=
  ∀ t ∈ s.tasks, ∃ server, program.Vetted server t.config

theorem Checked.launch (h : Checked program s) (hc : program.Vetted server c) (l : Loop) :
    Checked program (s.launch c l) := by
  intro t ht
  rcases List.mem_append.mp ht with ht | ht
  · exact h t ht
  · rw [List.mem_singleton.mp ht]
    exact ⟨server, hc⟩

theorem Checked.modify (h : Checked program s) (i : Nat) {f : Task → Task}
    (hconfig : ∀ t, (f t).config = t.config) :
    Checked program { s with tasks := s.tasks.modify i f } := by
  intro t ht
  obtain ⟨j, hj⟩ := List.getElem?_of_mem ht
  obtain ⟨t', ht', rfl⟩ := Option.map_eq_some_iff.mp ((List.getElem?_modify ..).symm.trans hj)
  obtain ⟨server, hvetted⟩ := h t' (List.mem_of_getElem? ht')
  refine ⟨server, ?_⟩
  split
  · rw [hconfig]
    exact hvetted
  · exact hvetted

theorem Checked.moves (h : Checked program s) (hs : Sound program s) (hm : Moves program s e s') :
    Checked program s' := by
  cases hm with
  | saw hphase => exact h.launch (hs.seeing _ _ hphase) _
  | restored hphase _ hrollback =>
      exact h.launch (hs.rollback _ _ (loop_waiting hphase) hrollback) _
  | replaced hphase => exact h.launch (hs.next _ _ hphase) _
  | accepts hphase => exact h.modify _ fun _ => rfl
  | interrupts hphase => exact h.modify _ fun _ => rfl
  | ready i => exact h.modify i config_getsReady
  | finished i result => exact h.modify i (config_finishes result)
  | _ => exact h

theorem Checked.client (h : Checked program s) (ht : t ∈ s.tasks)
    (hside : t.side = .ok (false, cfg)) :
    cfg.Accepted program.decode false := by
  obtain ⟨server, hvetted⟩ := h t ht
  obtain ⟨side, hrole, hother, haccepted⟩ := hvetted.side
  cases hside.symm.trans (side_of_forRole hrole hother)
  exact haccepted

end Supervisor

-- ---------------------------------------------------------------------------
-- Tasks and servers
-- ---------------------------------------------------------------------------

namespace Process

variable {serde : Serde} {program : Program} {p p' : Process} {g : Listening}
  {t t' : Task} {i : Nat}

def held (p : Process) (k : Nat × Nat) : List Port :=
  match p.servers.lookup k.1 with
  | some g => g.server.registry.held k.2
  | none => []

structure Fits (t : Task) (g : Listening) : Prop where
  side : t.side = .ok (true, g.cfg)
  ended : t.ended.isSome → g.server.stage = .returned

structure Inv (program : Program) (p : Process) : Prop where
  sound : p.main.Sound program
  told : p.main.Told
  checked : p.main.Checked program
  fits : ∀ i g, p.servers.lookup i = some g → ∃ t, p.main.tasks[i]? = some t ∧ Fits t g
  server : ∀ i g, p.servers.lookup i = some g →
    Server.Inv g.cfg g.server ∧ Registry.AllWf g.cfg g.server.registry
  dialer : ∀ i d, p.clients.lookup i = some d →
    d.Inv program.decode ∧ ∃ t, p.main.tasks[i]? = some t ∧ t.side = .ok (false, d.cfg)
  -- The task of a client is over only if it was told to stop.
  client : ∀ (i : Nat) (t : Task) (cfg : Side), p.main.tasks[i]? = some t →
  t.side = .ok (false, cfg) →
    t.ended.isSome → t.stop = true
  owned : Owned p.held p.taken

theorem inv_start (program : Program) (file : Option Bytes) : Inv program (start file) where
  sound := Supervisor.sound_start file
  told := Supervisor.told_start file
  checked := by simp [Supervisor.Checked, start, Supervisor.start]
  fits := by simp [start]
  server := by simp [start]
  dialer := by simp [start]
  client := by simp [start, Supervisor.start]
  owned := Owned.empty

theorem side_congr (h : t'.config = t.config) : t'.side = t.side := by
  rw [Task.side, Task.side, h]

theorem Fits.congr (h : Fits t g) (hconfig : t'.config = t.config)
    (hended : t'.ended.isSome → t.ended.isSome ∨ g.server.stage = .returned) : Fits t' g where
  side := (side_congr hconfig).trans h.side
  ended := fun he => (hended he).elim h.ended id

theorem Inv.mainStep (h : Inv program p) (he : e.isMain = true) :
    Inv program (p.mainStep program e) := by
  have hmoves := Supervisor.step_moves (p := program) (s := p.main) e
  refine ⟨h.sound.moves hmoves, h.told.moves hmoves, h.checked.moves h.sound hmoves,
    fun i g hg => ?_, h.server, fun i d hd => ?_, ?_, h.owned⟩
  · obtain ⟨t, ht, hfits⟩ := h.fits i g hg
    rcases hmoves.task he ht with ht' | ht'
    · exact ⟨t, ht', hfits⟩
    · exact ⟨t.stopped, ht', hfits.congr rfl .inl⟩
  · obtain ⟨hinv, t, ht, hside⟩ := h.dialer i d hd
    rcases hmoves.task he ht with ht' | ht'
    · exact ⟨hinv, t, ht', hside⟩
    · exact ⟨hinv, t.stopped, ht', hside⟩
  · intro i t cfg ht hside hended
    cases ht₀ : p.main.tasks[i]? with
    | none => simp [hmoves.fresh ht₀ ht] at hended
    | some t₀ =>
      rcases hmoves.task he ht₀ with ht' | ht'
      · obtain rfl : t = t₀ := Option.some.inj (ht.symm.trans ht')
        exact h.client i t cfg ht₀ hside hended
      · cases ht.symm.trans ht'
        rfl

theorem Inv.report (h : Inv program p) (i : Nat) {f : Task → Task}
    (hconfig : ∀ t, (f t).config = t.config) (hstop : ∀ t, (f t).stop = t.stop)
    (hends : ∀ t, t.ended.isSome → (f t).ended.isSome)
    (hserver : ∀ t g, p.servers.lookup i = some g → (f t).ended.isSome →
      t.ended.isSome ∨ g.server.stage = .returned)
    (hclient : ∀ t cfg, p.main.tasks[i]? = some t → t.side = .ok (false, cfg) → (f t).ended.isSome →
      t.ended.isSome ∨ t.stop = true) :
    Inv program { p with main := { p.main with tasks := p.main.tasks.modify i f } } := by
  have hmodify : ∀ (j : Nat) (t : Task), p.main.tasks[j]? = some t →
      (p.main.tasks.modify i f)[j]? = some (if i = j then f t else t) := by
    intro j t ht
    rw [List.getElem?_modify, ht]
    rfl
  refine ⟨h.sound.modify i hconfig hends, h.told.modify i hstop, h.checked.modify i hconfig,
    fun j g hg => ?_, h.server, fun j d hd => ?_, ?_, h.owned⟩
  · obtain ⟨t, ht, hfits⟩ := h.fits j g hg
    refine ⟨_, hmodify j t ht, ?_⟩
    split
    · rename_i hij
      subst hij
      exact hfits.congr (hconfig t) (hserver t g hg)
    · exact hfits
  · obtain ⟨hinv, t, ht, hside⟩ := h.dialer j d hd
    refine ⟨hinv, _, hmodify j t ht, ?_⟩
    split
    · rw [side_congr (hconfig t)]
      exact hside
    · exact hside
  · intro j t cfg ht hside hended
    obtain ⟨t₀, ht₀, rfl⟩ := Option.map_eq_some_iff.mp ((List.getElem?_modify ..).symm.trans ht)
    by_cases hij : i = j
    · subst hij
      simp only [if_true, hstop, side_congr (hconfig t₀)] at hside hended ⊢
      rcases hclient t₀ cfg ht₀ hside hended with hended | hstopped
      · exact h.client i t₀ cfg ht₀ hside hended
      · exact hstopped
    · simp only [if_neg hij] at hside hended ⊢
      exact h.client j t₀ cfg ht₀ hside hended

theorem Inv.ready (h : Inv program p) (i : Nat) : Inv program (p.mainStep program (.ready i)) := by
  refine h.report i Supervisor.config_getsReady Supervisor.stop_getsReady ?_ ?_ ?_
  · intro t ht
    rwa [Supervisor.ended_getsReady]
  · intro t g _ ht
    rw [Supervisor.ended_getsReady] at ht
    exact .inl ht
  · intro t cfg _ _ ht
    rw [Supervisor.ended_getsReady] at ht
    exact .inl ht

theorem Inv.finish (h : Inv program p) (i : Nat) (result : Except Fault Unit)
    (hserver : ∀ g, p.servers.lookup i = some g → g.server.stage = .returned)
    (hclient : ∀ t cfg, p.main.tasks[i]? = some t → t.side = .ok (false, cfg) → t.stop = true) :
    Inv program (p.mainStep program (.finish i result)) :=
  h.report i (Supervisor.config_finishes result) (Supervisor.stop_finishes result)
    (fun _ ht => Supervisor.ended_finishes ht) (fun _ g hg _ => .inr (hserver g hg))
    fun t cfg ht hside _ => .inr (hclient t cfg ht hside)

theorem Inv.listens (h : Inv program p) (ht : p.main.tasks[i]? = some t) (hended : t.ended = none)
    (hside : t.side = .ok (true, cfg)) (hnone : p.servers.lookup i = none) :
    Inv program { p with servers := p.servers.insert i ⟨cfg, .new cfg⟩ } := by
  have hheld : held { p with servers := p.servers.insert i ⟨cfg, .new cfg⟩ } = p.held := by
    funext ⟨k, j⟩
    simp only [held, AList.lookup_insert_eq]
    by_cases hk : k = i
    · subst hk
      simp [hnone, Server.new, Registry.new, Registry.held]
    · simp [hk]
  refine ⟨h.sound, h.told, h.checked, fun j g hg => ?_, fun j g hg => ?_, h.dialer, h.client,
    hheld ▸ h.owned⟩
  · rw [AList.lookup_insert_eq] at hg
    split at hg
    · rename_i hj
      subst hj
      cases hg
      exact ⟨t, ht, hside, by simp [hended]⟩
    · exact h.fits j g hg
  · rw [AList.lookup_insert_eq] at hg
    split at hg
    · cases hg
      exact ⟨Server.inv_new cfg, by simp [Registry.AllWf, Server.new, Registry.new]⟩
    · exact h.server j g hg

theorem Inv.dials {d : Dialer} (h : Inv program p) (ht : p.main.tasks[i]? = some t)
    (hside : t.side = .ok (false, d.cfg)) (hd : d.Inv program.decode) :
    Inv program { p with clients := p.clients.insert i d } := by
  refine ⟨h.sound, h.told, h.checked, h.fits, h.server, fun j d' hd' => ?_, h.client, h.owned⟩
  rw [AList.lookup_insert_eq] at hd'
  split at hd'
  · rename_i hj
    subst hj
    cases hd'
    exact ⟨hd, t, ht, hside⟩
  · exact h.dialer j d' hd'

theorem Inv.dial_eq {d : Dialer} (h : Inv program p) (hd : p.clients.lookup i = some d)
    (hrunning : p.main.outcome i = none) (event : DialerEvent) :
    ∃ d', d.step event = .ok d' ∧ d'.Inv program.decode ∧ d'.cfg = d.cfg ∧
      p.dial program i event = { p with clients := p.clients.insert i d' } := by
  obtain ⟨hinv, t, ht, -⟩ := h.dialer i d hd
  obtain ⟨d', hstep, hinv', hcfg⟩ := hinv.step event
  have hended : t.ended = none := by simpa [Supervisor.outcome, ht] using hrunning
  refine ⟨d', hstep, hinv', hcfg, ?_⟩
  simp [Process.dial, ht, hd, hended, hstep]

theorem Inv.dial (h : Inv program p) (i : Nat) (event : DialerEvent) :
    Inv program (p.dial program i event) := by
  cases hd : p.clients.lookup i with
  | none =>
    have hsame : p.dial program i event = p := by simp [Process.dial, hd]
    rwa [hsame]
  | some d =>
    obtain ⟨-, t, ht, hside⟩ := h.dialer i d hd
    cases hended : t.ended with
    | none =>
      have hrunning : p.main.outcome i = none := by simp [Supervisor.outcome, ht, hended]
      obtain ⟨d', -, hinv, hcfg, hdial⟩ := h.dial_eq hd hrunning event
      rw [hdial]
      exact h.dials ht (hcfg ▸ hside) hinv
    | some result =>
      have hsame : p.dial program i event = p := by simp [Process.dial, ht, hd, hended]
      rwa [hsame]

theorem Inv.listen (h : Inv program p) (i : Nat) (host : Host)
    (lookupHost : String → Option (List SocketAddr)) :
    Inv program (p.listen program i host lookupHost) := by
  unfold Process.listen
  split
  · rename_i t ht hnone
    have hserver : ∀ g, p.servers.lookup i = some g → g.server.stage = .returned := by simp [hnone]
    split
    · exact h
    · rename_i hended
      -- Only the task of a client has to be told before it is over.
      have hnot : (∀ cfg, t.side ≠ .ok (false, cfg)) →
          ∀ t' cfg, p.main.tasks[i]? = some t' → t'.side = .ok (false, cfg) → t'.stop = true := by
        intro hother t' cfg ht' hside'
        cases ht.symm.trans ht'
        exact absurd hside' (hother cfg)
      split
      · rename_i cfg hside
        split
        · have hready := h.ready i
          refine hready.listens (t := t.getsReady) ?_ ?_ ?_ hnone
          · simp [Process.mainStep, Supervisor.step, ht]
          · rw [Supervisor.ended_getsReady]
            simpa using hended
          · rw [side_congr (Supervisor.config_getsReady t)]
            exact hside
        · exact h.finish i _ hserver (hnot (by simp [hside]))
      · rename_i cfg hside
        split
        · exact h
        · have haccepted := h.checked.client (List.mem_of_getElem? ht) hside
          refine (h.ready i).dials (t := t.getsReady) ?_ ?_ (Dialer.inv_new haccepted)
          · simp [Process.mainStep, Supervisor.step, ht]
          · rw [side_congr (Supervisor.config_getsReady t)]
            exact hside
      · rename_i fault hside
        exact h.finish i _ hserver (hnot (by simp [hside]))
  · exact h

-- ---------------------------------------------------------------------------
-- Steps of a server
-- ---------------------------------------------------------------------------

theorem inv_withTaken (h : Server.Inv cfg s) (taken : Finset Port) :
    Server.Inv cfg (s.withTaken taken) :=
  ⟨h.slots, h.streams, h.fits, h.joined, h.aborted⟩

theorem returned_step {s : Server} (hs : s.stage = .returned) (serde : Serde) (cfg : Side)
    (action : ServerAction) : (s.step serde cfg action).stage = .returned := by
  cases action with
  | session action =>
    simp only [Server.step, Server.sessionStep]
    split <;> exact hs
  | cancel i =>
    simp only [Server.step, Server.cancel, Server.sessionStep, Registry.session]
    split
    · split <;> exact hs
    · exact hs
  | finish i =>
    simp only [Server.step, Server.finish]
    split
    · split <;> exact hs
    · exact hs
  | accept i j nodelay =>
    simp only [Server.step, Server.accept]
    split
    · split
      · split
        · split
          · exact hs
          · split <;> exact hs
        · exact hs
      · exact hs
    · exact hs
  | streamFinish i k => exact hs
  | streamJoin i k => exact hs
  | incoming | close | join | drained | idle => simp [Server.step, hs]

theorem Inv.serve (h : Inv program p) (i : Nat) (action : ServerAction) :
    Inv program (p.serve serde i action) := by
  unfold Process.serve
  split
  · rename_i g hg
    obtain ⟨t, ht, hfits⟩ := h.fits i g hg
    obtain ⟨hinv, hwf⟩ := h.server i g hg
    have hinv' := inv_withTaken hinv p.taken
    have hwf' : Registry.AllWf g.cfg (g.server.withTaken p.taken).registry := hwf
    obtain ⟨actions, hregistry⟩ := Server.looks serde g.cfg (g.server.withTaken p.taken) action
    have howned : ∃ held', Owned held'
        ((g.server.withTaken p.taken).step serde g.cfg action).registry.taken ∧
        (∀ j, held' (i, j) = ((g.server.withTaken p.taken).step serde g.cfg
          action).registry.held j) ∧
        ∀ k j, k ≠ i → held' (k, j) = p.held (k, j) := by
      rw [hregistry]
      refine Registry.owned_foldl h.owned (fun j => ?_) serde g.cfg actions
      simp only [held, hg]
      rfl
    obtain ⟨held', howned, hheld, hother⟩ := howned
    refine ⟨h.sound, h.told, h.checked, fun j g' hg' => ?_, fun j g' hg' => ?_,
      h.dialer, h.client, ?_⟩
    · rw [AList.lookup_insert_eq] at hg'
      split at hg'
      · rename_i hj
        subst hj
        cases hg'
        refine ⟨t, ht, hfits.side, fun hended => ?_⟩
        exact returned_step (s := g.server.withTaken p.taken)
          (hfits.ended hended) serde g.cfg action
      · exact h.fits j g' hg'
    · rw [AList.lookup_insert_eq] at hg'
      split at hg'
      · cases hg'
        refine ⟨hinv'.step serde action, ?_⟩
        dsimp only
        rw [hregistry]
        exact hwf'.foldl serde actions
      · exact h.server j g' hg'
    · convert howned using 1
      funext ⟨k, j⟩
      simp only [held, AList.lookup_insert_eq]
      by_cases hk : k = i
      · subst hk
        simp [hheld]
      · rw [if_neg hk, hother k j hk]
        rfl
  · exact h

theorem Inv.stop (h : Inv program p) (i : Nat) : Inv program (p.stop serde program i) := by
  unfold Process.stop
  split
  · rename_i t ht
    split
    · rename_i hstop
      split
      · exact h.serve i .close
      · rename_i cfg hside
        refine h.finish i _ (fun g hg => ?_) fun t' cfg' ht' _ => ?_
        -- The task of a client has no server.
        · obtain ⟨t', ht', hfits⟩ := h.fits i g hg
          cases ht.symm.trans ht'
          cases hside.symm.trans hfits.side
        · cases ht.symm.trans ht'
          exact hstop
      · exact h
    · exact h
  · exact h

theorem Inv.leave (h : Inv program p) (i : Nat) : Inv program (p.leave program i) := by
  unfold Process.leave
  split
  · rename_i g hg
    split
    · rename_i hreturned
      refine h.finish i _ (fun g' hg' => ?_) fun t cfg ht hside => ?_
      · cases hg.symm.trans hg'
        exact hreturned
      · obtain ⟨t', ht', hfits⟩ := h.fits i g hg
        cases ht.symm.trans ht'
        cases hside.symm.trans hfits.side
    · exact h
  · exact h

theorem Inv.step (h : Inv program p) (serde : Serde) (action : ProcessAction) :
    Inv program (p.step serde program action) := by
  cases action with
  | main event =>
    simp only [Process.step]
    split
    · exact h.mainStep ‹_›
    · exact h
  | listen i host lookupHost => exact h.listen i host lookupHost
  | stop i => exact h.stop i
  | server i action => exact h.serve i action
  | client i event => exact h.dial i event
  | leave i => exact h.leave i

theorem Inv.foldl (h : Inv program p) (serde : Serde) (actions : List ProcessAction) :
    Inv program (actions.foldl (Process.step serde program) p) :=
  List.foldlRecOn actions (Process.step serde program) h fun _ h action _ => h.step serde action

theorem inv_run (serde : Serde) (program : Program) (file : Option Bytes)
    (actions : List ProcessAction) :
    Inv program (run serde program file actions) :=
  (inv_start program file).foldl serde actions

end Process

end Cathole
