import Cathole.Supervisor

/-!
# Edits and rollbacks

Two properties of the supervisor that depend on the order of events.

An edit is noticed because its bytes differ from `seen`, and what is parsed is
read separately. If the file can change between the two reads of a pair, an edit
can be masked (`edit_lost`); `no_edit_lost` is about the runs in which it does
not.

A task that ends brings back the configuration in `rollback`. That slot is
filled by every reload and emptied only when it is used, so it can hold a
configuration that never worked, or one that a working one replaced
(`other_restored`); `last_working_restored` is about the runs in which neither
happens.
-/

namespace Cathole

namespace Supervisor

variable {p : Program} {s s' : Supervisor} {l : Loop} {e : Event}

/-- Every step of the run satisfies `may`. -/
def allowed (p : Program) (may : Supervisor → Event → Bool) : Supervisor → List Event → Bool
  | _, [] => true
  | s, e :: rest => may s e && allowed p may (s.step p e) rest

theorem Reachable.allowed (h : Reachable p (fun s e => may s e = true) s)
    (hmay : allowed p may s events = true) :
    Reachable p (fun s e => may s e = true) (events.foldl (Supervisor.step p) s) := by
  induction events generalizing s with
  | nil => exact h
  | cons e rest ih =>
    rw [Supervisor.allowed, Bool.and_eq_true] at hmay
    exact ih (.step h hmay.1) hmay.2

-- ---------------------------------------------------------------------------
-- Whether an edit is noticed
-- ---------------------------------------------------------------------------

/-- The second read of a pair finds what the first one found. -/
def steady (s : Supervisor) : Event → Bool
  | .see =>
    match s.phase with
    | .seeing _ _ => s.file == s.parsed
    | _ => true
  | .read _ =>
    match s.phase with
    | .changed l => s.file == some l.seen
    | _ => true
  | _ => true

structure Noticed (s : Supervisor) : Prop where
  read : ∀ server c, s.phase = .seeing server c → s.parsed.isSome
  seen : ∀ l, s.phase.settled = some l → s.parsed = some l.seen

theorem settled_waiting (hs : s.phase = .waiting l) : s.phase.settled = some l := by
  rw [hs]
  rfl

theorem settled_stopping (hs : s.phase = .stopping l next) : s.phase.settled = some l := by
  rw [hs]
  rfl

theorem start_isSome {p : Program} (h : p.start host content = .ok result) : content.isSome := by
  simp only [Program.start, bind_eq_ok, Config.read, Config.readToString, orFault_eq_ok] at h
  obtain ⟨_, ⟨_, ⟨bytes, hbytes, -⟩, -⟩, -⟩ := h
  rw [hbytes]
  rfl

theorem noticed_settled (hs : s.phase.settled = some l) (hparsed : s.parsed = some l.seen) :
    Noticed s where
  read := by
    intro server c hseeing
    rw [hseeing] at hs
    cases hs
  seen := by
    intro k hk
    cases hs.symm.trans hk
    exact hparsed

theorem noticed_unsettled (hs : s.phase.settled = none)
    (hread : ∀ server c, s.phase = .seeing server c → s.parsed.isSome) : Noticed s where
  read := hread
  seen := by
    intro l hl
    cases hs.symm.trans hl

theorem parsed_changed (hs : s.phase = .changed l) (hsteady : s.steady (.read host) = true) :
    s.file.or s.parsed = some l.seen := by
  simp only [steady, hs, beq_iff_eq] at hsteady
  rw [hsteady]
  rfl

theorem Noticed.moves (h : Noticed s) (hm : Moves p s e s') (hsteady : s.steady e = true) :
    Noticed s' := by
  cases hm with
  | idle => exact h
  | wrote content => exact ⟨h.read, h.seen⟩
  | refused hs hstart => exact noticed_unsettled rfl (by simp)
  | checked hs hstart => exact noticed_unsettled rfl (by simp)
  | started hs hstart =>
    refine noticed_unsettled rfl ?_
    rintro server c ⟨⟩
    obtain ⟨bytes, hbytes⟩ := Option.isSome_iff_exists.mp (start_isSome hstart)
    simp [hbytes]
  | unseen hs => exact noticed_unsettled rfl (by simp)
  | saw hs hfile =>
    simp only [steady, hs, beq_iff_eq] at hsteady
    exact noticed_settled rfl (hsteady.symm.trans hfile)
  | noticed hs hfile hne => exact noticed_unsettled rfl (by simp)
  | ignored hs hload => exact noticed_settled rfl (parsed_changed hs hsteady)
  | accepts hs hload => exact noticed_settled rfl (parsed_changed hs hsteady)
  | ready i => exact ⟨h.read, h.seen⟩
  | finished i result => exact ⟨h.read, h.seen⟩
  | restored hs hended hrollback =>
    have hseen := h.seen _ (settled_waiting hs)
    exact noticed_settled rfl hseen
  | gaveUp hs hended hrollback => exact noticed_unsettled rfl (by simp)
  | replaced hs hended =>
    have hseen := h.seen _ (settled_stopping hs)
    exact noticed_settled rfl hseen
  | left hs hended => exact noticed_unsettled rfl (by simp)
  | interrupts hs => exact noticed_settled rfl (h.seen _ (settled_waiting hs))

theorem noticed_reachable (h : Reachable p (fun s e => s.steady e = true) s) : Noticed s := by
  induction h with
  | start file => exact ⟨by simp [start], by simp [start, MainPhase.settled]⟩
  | step h hsteady ih => exact ih.moves (step_moves _) hsteady

/-- What was accepted last is running, or about to, or has been replaced after
it was launched. -/
def Applied (s : Supervisor) : Prop :=
  match s.phase with
  | .seeing _ c => s.accepted = some c
  | .stopping _ next => s.accepted = some next
  | .waiting _ => ∀ c, s.accepted = some c → ∃ t ∈ s.tasks, t.config = c
  | .changed _ => ∀ c, s.accepted = some c → ∃ t ∈ s.tasks, t.config = c
  | .interrupted _ => ∀ c, s.accepted = some c → ∃ t ∈ s.tasks, t.config = c
  | _ => True

theorem launched_modify {tasks : List Task} {f : Task → Task}
    (hconfig : ∀ t, (f t).config = t.config) (i : Nat) (h : ∃ t ∈ tasks, t.config = c) :
    ∃ t ∈ tasks.modify i f, t.config = c := by
  obtain ⟨t, ht, rfl⟩ := h
  obtain ⟨j, hj⟩ := List.getElem?_of_mem ht
  have hget : (tasks.modify i f)[j]? = some (if i = j then f t else t) := by
    rw [List.getElem?_modify, hj]
    rfl
  refine ⟨_, List.mem_of_getElem? hget, ?_⟩
  split
  · exact hconfig t
  · rfl

theorem Applied.modify {f : Task → Task} (h : Applied s) (hconfig : ∀ t, (f t).config = t.config)
    (i : Nat) : Applied { s with tasks := s.tasks.modify i f } := by
  unfold Applied at h ⊢
  cases hs : s.phase with
  | waiting l =>
    simp only [hs] at h ⊢
    exact fun c hc => launched_modify hconfig i (h c hc)
  | changed l =>
    simp only [hs] at h ⊢
    exact fun c hc => launched_modify hconfig i (h c hc)
  | interrupted l =>
    simp only [hs] at h ⊢
    exact fun c hc => launched_modify hconfig i (h c hc)
  | seeing server c =>
    simp only [hs] at h ⊢
    exact h
  | stopping l next =>
    simp only [hs] at h ⊢
    exact h
  | reading => simp only
  | returned result => simp only

theorem applied_launch (h : ∀ c', s.accepted = some c' → c' = c ∨ ∃ t ∈ s.tasks, t.config = c') :
    Applied (s.launch c l) := by
  intro c' hc'
  rcases h c' hc' with rfl | ⟨t, ht, hc⟩
  · exact ⟨{ config := c' }, by simp [launch], rfl⟩
  · exact ⟨t, by simp [launch, ht], hc⟩

theorem Applied.moves (h : Applied s) (hm : Moves p s e s') : Applied s' := by
  cases hm with
  | idle => exact h
  | wrote content => exact h
  | refused hs hstart => trivial
  | checked hs hstart => trivial
  | started hs hstart => exact rfl
  | unseen hs => trivial
  | saw hs hfile =>
    simp only [Applied, hs] at h
    refine applied_launch fun c' hc' => .inl ?_
    exact (Option.some.inj (h.symm.trans hc')).symm
  | noticed hs hfile hne =>
    simp only [Applied, hs] at h
    exact h
  | ignored hs hload =>
    rintro c ⟨⟩
  | accepts hs hload => exact rfl
  | ready i => exact h.modify config_getsReady i
  | finished i result => exact h.modify (config_finishes result) i
  | restored hs hended hrollback =>
    simp only [Applied, hs] at h
    exact applied_launch fun c' hc' => .inr (h c' hc')
  | gaveUp hs hended hrollback => trivial
  | replaced hs hended =>
    simp only [Applied, hs] at h
    refine applied_launch fun c' hc' => .inl ?_
    exact (Option.some.inj (h.symm.trans hc')).symm
  | left hs hended => trivial
  | interrupts hs =>
    simp only [Applied, hs] at h
    intro c hc
    exact launched_modify config_stopped _ (h c hc)

theorem applied_reachable (h : Reachable p may s) : Applied s := by
  induction h with
  | start file => trivial
  | step h hmay ih => exact ih.moves (step_moves _)

theorem finish_outcome (ht : s.tasks[i]? = some t) (result : Except Fault Unit) :
    ∃ outcome, (s.step p (.finish i result)).outcome i = some outcome := by
  have hget : (s.tasks.modify i (Task.finishes result))[i]? = some (t.finishes result) := by
    simp [ht]
  rw [outcome, step, hget]
  change ∃ outcome, (t.finishes result).ended = some outcome
  unfold Task.finishes
  split
  · exact ⟨result, rfl⟩
  · rename_i hended
    rw [Option.isNone_iff_eq_none] at hended
    exact Option.ne_none_iff_exists'.mp hended

theorem join_stopping (hs : s.phase = .stopping l next)
    (hended : s.outcome l.running = some result) :
    s.step p .join = s.launch next { l with rollback := some l.current, current := next } := by
  simp only [step, joinStep, hs, hended]

/-- A tick that finds new bytes, and then reads them again, parses them; if they
are accepted, they are running once the old task has ended. -/
theorem tick_then_read (hsound : Sound p s) (hs : s.phase = .waiting l)
    (hfile : s.file = some bytes) (hne : bytes ≠ l.seen) (host : Host) :
    let s' := (s.step p .tick).step p (.read host)
    s'.parsed = some bytes ∧
      ∀ next, p.load host l.server (some bytes) = .ok next →
        s'.phase = .stopping { l with seen := bytes } next ∧
        ∀ result, ∃ l', ((s'.step p (.finish l.running result)).step p .join).phase = .waiting l' ∧
          l'.current = next := by
  have htick : s.step p .tick = { s with phase := .changed { l with seen := bytes } } := by
    simp [step, tickStep, hs, hfile, hne]
  intro s'
  have hread : s' =
      readStep p host { s with phase := .changed { l with seen := bytes } } := by
    simp only [s', htick]
    rfl
  constructor
  · cases hload : p.load host l.server (some bytes) with
    | error fault => simp [hread, readStep, hfile, hload]
    | ok next => simp [hread, readStep, hfile, hload]
  · intro next hload
    have hphase : s'.phase = .stopping { l with seen := bytes } next := by
      simp [hread, readStep, hfile, hload]
    refine ⟨hphase, fun result => ?_⟩
    have htasks : s'.tasks = s.tasks.modify l.running Task.stopped := by
      simp [hread, readStep, hfile, hload]
    obtain ⟨t, ht, -⟩ := hsound.running l (loop_waiting hs)
    have ht' : s'.tasks[l.running]? = some t.stopped := by
      simp [htasks, ht]
    obtain ⟨outcome, hended⟩ := finish_outcome ht' (p := p) result
    have hphase' : (s'.step p (.finish l.running result)).phase =
        .stopping { l with seen := bytes } next := hphase
    rw [join_stopping hphase' hended]
    exact ⟨_, rfl, rfl⟩

/-- In a run in which the second read of every pair finds what the first one
found, no edit is lost: between ticks, bytes that were seen were parsed, and
launched if they were accepted; and bytes that stay in the file are parsed by
the next tick, and applied if they are accepted. -/
theorem no_edit_lost (h : Reachable p (fun s e => s.steady e = true) s)
    (hs : s.phase = .waiting l) :
    (s.file = some l.seen →
      s.parsed = s.file ∧ ∀ c, s.accepted = some c → ∃ t ∈ s.tasks, t.config = c) ∧
    ∀ bytes host, s.file = some bytes → bytes ≠ l.seen →
      let s' := (s.step p .tick).step p (.read host)
      s'.parsed = some bytes ∧
        ∀ next, p.load host l.server (some bytes) = .ok next →
          s'.phase = .stopping { l with seen := bytes } next ∧
          ∀ result, ∃ l', ((s'.step p (.finish l.running result)).step p .join).phase =
            .waiting l' ∧
            l'.current = next := by
  constructor
  · intro hfile
    have happlied := applied_reachable h
    simp only [Applied, hs] at happlied
    rw [hfile]
    exact ⟨(noticed_reachable h).seen l (settled_waiting hs), happlied⟩
  · intro bytes host hfile hne
    exact tick_then_read (sound_reachable h) hs hfile hne host

section

variable {host : Host} {server : Bool} {a b c : Bytes} {ca cb cc : Config}

/-- The file is edited between the two reads at startup. -/
def editAtStartup (host : Host) (b : Bytes) : List Event := [.read host, .write (some b), .see]

theorem run_editAtStartup (ha : p.start host (some a) = .ok (server, ca))
    (hcheck : p.args.check = false) :
    run p (some a) (editAtStartup host b) =
      ⟨some b, .waiting ⟨server, ca, none, b, 0⟩, [{ config := ca }], some a, some ca⟩ := by
  simp [run, editAtStartup, start, step, readStep, seeStep, launch, ha, hcheck]

/-- The file is edited twice, the second time between the two reads of a tick,
and then the second edit is undone. -/
def editInTick (host : Host) (b c : Bytes) : List Event :=
  [.read host, .see, .write (some b), .tick, .write (some c), .read host, .finish 0 (.ok ()), .join,
    .write (some b)]

theorem run_editInTick (ha : p.start host (some a) = .ok (server, ca))
    (hcheck : p.args.check = false) (hc : p.load host server (some c) = .ok cc) (hab : b ≠ a) :
    run p (some a) (editInTick host b c) =
      ⟨some b, .waiting ⟨server, cc, some ca, b, 1⟩,
        [⟨ca, true, false, some (.ok ())⟩, { config := cc }],
        some c, some cc⟩ := by
  simp [run, editInTick, start, step, readStep, seeStep, tickStep, joinStep, launch, outcome,
    Task.stopped, Task.finishes, ha, hcheck, hc, hab]

def editAfterStartup (host : Host) (b : Bytes) : List Event := [.read host, .see, .write (some b)]

theorem run_editAfterStartup (ha : p.start host (some a) = .ok (server, ca))
    (hcheck : p.args.check = false) :
    run p (some a) (editAfterStartup host b) =
      ⟨some b, .waiting ⟨server, ca, none, a, 0⟩, [{ config := ca }], some a, some ca⟩ := by
  simp [run, editAfterStartup, start, step, readStep, seeStep, launch, ha, hcheck]

theorem steady_editAfterStartup (ha : p.start host (some a) = .ok (server, ca))
    (hcheck : p.args.check = false) :
    allowed p steady (start (some a)) (editAfterStartup host b) = true := by
  simp [allowed, steady, editAfterStartup, start, step, readStep, ha, hcheck]

end

theorem tick_seen (hs : s.phase = .waiting l) (hfile : s.file = some l.seen) :
    s.step p .tick = s := by
  simp [step, tickStep, hs, hfile]

open Sample in
theorem no_edit_lost_noticed :
    let s := run program (some (serverFile addrA)) (editAfterStartup host (serverFile addrB))
    ((s.step program .tick).step program (.read host)).phase =
      .stopping ⟨true, config addrA, none, serverFile addrB, 0⟩ (config addrB) := by
  intro s
  have hreachable : Reachable program (fun s e => s.steady e = true) s :=
    (Reachable.start _).allowed (steady_editAfterStartup (start_server addrA_mem) rfl)
  have hs : s = ⟨some (serverFile addrB), .waiting ⟨true, config addrA, none, serverFile addrA, 0⟩,
      [{ config := config addrA }], some (serverFile addrA), some (config addrA)⟩ :=
    run_editAfterStartup (start_server addrA_mem) rfl
  have hphase : s.phase = .waiting ⟨true, config addrA, none, serverFile addrA, 0⟩ := by rw [hs]
  have hfile : s.file = some (serverFile addrB) := by rw [hs]
  have hne : serverFile addrB ≠ serverFile addrA := by decide +kernel
  obtain ⟨-, happlies⟩ := (no_edit_lost hreachable hphase).2 (serverFile addrB) host hfile hne
  exact (happlies _ (load_server addrB_mem)).1

open Sample in
/-- The edit is in the file and in `seen`, and nothing but the old content was
ever parsed; the ticks that follow see no difference. Edited in a tick, the
file ends up in `seen` too, when another content was parsed. -/
theorem edit_lost :
    ((run program (some (serverFile addrA)) (editAtStartup host (serverFile addrB))).phase =
        .waiting ⟨true, config addrA, none, serverFile addrB, 0⟩ ∧
      (run program (some (serverFile addrA)) (editAtStartup host (serverFile addrB))).file =
        some (serverFile addrB) ∧
      (run program (some (serverFile addrA)) (editAtStartup host (serverFile addrB))).parsed =
        some (serverFile addrA) ∧
      (run program (some (serverFile addrA)) (editAtStartup host (serverFile addrB))).step program
        .tick = run program (some (serverFile addrA)) (editAtStartup host (serverFile addrB))) ∧
    ((run program (some (serverFile addrA)) (editInTick host (serverFile addrB)
      (serverFile addrC))).phase =
        .waiting ⟨true, config addrC, some (config addrA), serverFile addrB, 1⟩ ∧
      (run program (some (serverFile addrA)) (editInTick host (serverFile addrB)
        (serverFile addrC))).file =
        some (serverFile addrB) ∧
      (run program (some (serverFile addrA)) (editInTick host (serverFile addrB)
        (serverFile addrC))).parsed =
        some (serverFile addrC)) ∧
    serverFile addrA ≠ serverFile addrB ∧ serverFile addrC ≠ serverFile addrB := by
  have hab : serverFile addrA ≠ serverFile addrB := by decide +kernel
  have hcb : serverFile addrC ≠ serverFile addrB := by decide +kernel
  rw [run_editAtStartup (start_server addrA_mem) rfl,
    run_editInTick (start_server addrA_mem) rfl (load_server addrC_mem) hab.symm]
  exact ⟨⟨rfl, rfl, rfl, tick_seen rfl rfl⟩, ⟨rfl, rfl, rfl⟩, hab, hcb⟩

-- ---------------------------------------------------------------------------
-- Which configuration a rollback restores
-- ---------------------------------------------------------------------------

/-- The configuration of the last task that got to its accept loop. -/
def lastReached : List Task → Option Config
  | [] => none
  | t :: rest => (lastReached rest).or (if t.reached then some t.config else none)

/-- A reload replaces the last configuration that worked, and no task that
worked ends while a rollback is held. -/
def undisturbed (s : Supervisor) : Event → Bool
  | .join =>
    match s.phase with
    | .stopping l _ => (s.outcome l.running).isNone || lastReached s.tasks == some l.current
    | .waiting l =>
      (s.outcome l.running).isNone || l.rollback.isNone ||
        ((s.tasks[l.running]?).map (·.reached) == some false)
    | _ => true
  | _ => true

theorem lastReached_append (tasks : List Task) (t : Task) :
    lastReached (tasks ++ [t]) = if t.reached then some t.config else lastReached tasks := by
  induction tasks with
  | nil => simp [lastReached]
  | cons t' rest ih =>
    rw [List.cons_append, lastReached, ih, lastReached]
    split
    · rfl
    · rfl

theorem lastReached_modify {f : Task → Task} (hconfig : ∀ t, (f t).config = t.config)
    (hreached : ∀ t, (f t).reached = t.reached) (tasks : List Task) (i : Nat) :
    lastReached (tasks.modify i f) = lastReached tasks := by
  induction tasks generalizing i with
  | nil => simp
  | cons t rest ih =>
    cases i with
    | zero => simp [lastReached, hconfig, hreached]
    | succ i => simp [lastReached, ih]

theorem lastReached_some {ts : List Task} (h : lastReached ts = some c) :
    ∃ t ∈ ts, t.reached ∧ t.config = c := by
  induction ts with
  | nil => cases h
  | cons t rest ih =>
    rw [lastReached, Option.or_eq_some_iff] at h
    rcases h with h | ⟨-, h⟩
    · obtain ⟨t', ht', hc⟩ := ih h
      exact ⟨t', List.mem_cons_of_mem _ ht', hc⟩
    · split at h
      · rename_i hreached
        exact ⟨t, List.mem_cons_self, hreached, Option.some.inj h⟩
      · cases h

/-- Until the task at hand works, `rollback` is the last configuration that
did. -/
def Held (s : Supervisor) : Prop :=
  ∀ l old, s.phase.loop = some l → l.rollback = some old →
    ∀ t, s.tasks[l.running]? = some t → t.reached = false → lastReached s.tasks = some old

theorem Held.modify {f : Task → Task} (h : Held s) (hconfig : ∀ t, (f t).config = t.config)
    (hreached : ∀ t, (f t).reached = t.reached) (i : Nat) :
    Held { s with tasks := s.tasks.modify i f } := by
  intro l old hl hold t ht hno
  rw [lastReached_modify hconfig hreached]
  obtain ⟨t', ht', rfl⟩ := Option.map_eq_some_iff.mp ((List.getElem?_modify ..).symm.trans ht)
  refine h l old hl hold t' ht' ?_
  split at hno
  · rwa [hreached] at hno
  · exact hno

theorem modify_eq_self {ts : List Task} {f : Task → Task} (h : ∀ t, ts[i]? = some t → f t = t) :
    ts.modify i f = ts := by
  apply List.ext_getElem?
  intro j
  rw [List.getElem?_modify]
  cases hj : ts[j]? with
  | none => rfl
  | some t =>
    by_cases hij : i = j
    · subst hij
      simp [h t hj]
    · simp [hij]

/-- Only the task in `running` is alive, so only it can get ready. -/
theorem Held.ready (h : Held s) (hsound : Sound p s) (i : Nat) :
    Held { s with tasks := s.tasks.modify i Task.getsReady } := by
  intro l old hl hold t ht hno
  by_cases hdead : ∀ t, s.tasks[i]? = some t → t.ended.isSome
  · have hself : s.tasks.modify i Task.getsReady = s.tasks := by
      refine modify_eq_self fun t ht => if_neg ?_
      rw [Option.isNone_iff_eq_none]
      exact Option.isSome_iff_ne_none.mp (hdead t ht)
    simp only [hself] at ht ⊢
    exact h l old hl hold t ht hno
  · push Not at hdead
    obtain ⟨t', ht', halive⟩ := hdead
    have hlast := hsound.last l hl
    have hi : i = l.running := by
      obtain ⟨hlt, -⟩ := List.getElem?_eq_some_iff.mp ht'
      by_contra hne
      exact halive (hsound.alone i t' ht' (by omega))
    subst hi
    have hready : (s.tasks.modify l.running Task.getsReady)[l.running]? = some t'.getsReady := by
      simp [ht']
    cases hready.symm.trans ht
    rw [Task.getsReady, if_pos (by simpa using halive)] at hno
    cases hno

theorem Held.goto (h : Held s) (hl : s.phase.loop = some l) (htasks : s'.tasks = s.tasks)
    (hl' : s'.phase.loop = some { l with seen := seen }) : Held s' := by
  intro k old hk hold
  cases hl'.symm.trans hk
  rw [htasks]
  exact h l old hl hold

theorem Held.stop (h : Held s) (i : Nat) : Held { s with tasks := s.tasks.modify i Task.stopped } :=
  h.modify config_stopped (fun _ => rfl) i

theorem reached_finishes (result : Except Fault Unit) (t : Task) :
    (t.finishes result).reached = t.reached := by
  unfold Task.finishes
  split <;> rfl

theorem Held.moves (h : Held s) (hsound : Sound p s) (hm : Moves p s e s')
    (hundisturbed : s.undisturbed e = true) : Held s' := by
  cases hm with
  | idle => exact h
  | wrote content => exact h
  | refused hs => rintro l old ⟨⟩
  | checked hs => rintro l old ⟨⟩
  | started hs => rintro l old ⟨⟩
  | unseen hs => rintro l old ⟨⟩
  | saw hs hfile => rintro l old ⟨⟩ ⟨⟩
  | noticed hs hfile hne => exact h.goto (loop_waiting hs) rfl rfl
  | ignored hs hload => exact h.goto (loop_changed hs) rfl rfl
  | accepts hs hload => exact (h.stop _).goto (loop_changed hs) rfl rfl
  | ready i => exact h.ready hsound i
  | finished i result => exact h.modify (config_finishes result) (reached_finishes result) i
  | restored hs hended hrollback => rintro l old ⟨⟩ ⟨⟩
  | gaveUp hs => rintro l old ⟨⟩
  | replaced hs hended =>
    rintro l old ⟨⟩ ⟨⟩ t ht hno
    simp only [undisturbed, hs, hended, Option.isNone_some, Bool.false_or,
      beq_iff_eq] at hundisturbed
    rw [launch, lastReached_append]
    exact hundisturbed
  | left hs => rintro l old ⟨⟩
  | interrupts hs => exact (h.stop _).goto (loop_waiting hs) rfl rfl

theorem held_reachable (h : Reachable p (fun s e => s.undisturbed e = true) s) : Held s := by
  induction h with
  | start file => rintro l old ⟨⟩
  | step h hundisturbed ih => exact ih.moves (sound_reachable h) (step_moves _) hundisturbed

theorem join_restores (hs : s.phase = .waiting l) (hended : s.outcome l.running = some result)
    (hrollback : l.rollback = some old) : (s.step p .join).tasks = s.tasks ++
    [{ config := old }] := by
  simp [step, joinStep, hs, hended, hrollback, launch]

theorem undisturbed_of_unreached (hs : s.phase = .waiting l) (ht : s.tasks[l.running]? = some t)
    (hreached : t.reached = false) : s.undisturbed .join = true := by
  simp [undisturbed, hs, ht, hreached]

/-- In a run in which every reload replaces the last configuration that worked,
and no task that worked ends while a rollback is held, a configuration that is
launched because the running task ended is the last one that worked. -/
theorem last_working_restored (h : Reachable p (fun s e => s.undisturbed e = true) s)
    (hundisturbed : s.undisturbed .join = true) (hs : s.phase = .waiting l)
    (hended : s.outcome l.running = some result) (hrollback : l.rollback = some old) :
    (s.step p .join).tasks = s.tasks ++ [{ config := old }] ∧ lastReached s.tasks = some old ∧
      ∃ t ∈ s.tasks, t.reached ∧ t.config = old := by
  obtain ⟨t, ht, -⟩ := (sound_reachable h).running l (loop_waiting hs)
  have hreached : t.reached = false := by
    simpa [undisturbed, hs, hended, hrollback, ht] using hundisturbed
  have hlast := held_reachable h l old (loop_waiting hs) hrollback t ht hreached
  exact ⟨join_restores hs hended hrollback, hlast, lastReached_some hlast⟩

section

variable {host : Host} {server : Bool} {a b c : Bytes} {ca cb cc : Config}

def reload (host : Host) (b : Bytes) : List Event :=
  [.read host, .see, .ready 0, .write (some b), .tick, .read host, .finish 0 (.ok ()), .join]

/-- The replacement ends before it gets to its accept loop. -/
def reloadFails (host : Host) (b : Bytes) : List Event := reload host b ++ [.finish 1 (.error .io)]

/-- The replacement works, and ends later. -/
def reloadEnds (host : Host) (b : Bytes) : List Event :=
  reload host b ++ [.ready 1, .finish 1 (.ok ())]

/-- The replacement is still starting when the next edit replaces it, and does
not get to its accept loop; nor does the next one. -/
def reloadOvertaken (host : Host) (b c : Bytes) : List Event :=
  reload host b ++
    [.write (some c), .tick, .read host, .finish 1 (.error .io), .join, .finish 2 (.error .io)]

theorem run_reload (ha : p.start host (some a) = .ok (server, ca)) (hcheck : p.args.check = false)
    (hb : p.load host server (some b) = .ok cb) (hab : b ≠ a) :
    run p (some a) (reload host b) =
      ⟨some b, .waiting ⟨server, cb, some ca, b, 1⟩,
        [⟨ca, true, true, some (.ok ())⟩, { config := cb }],
        some b, some cb⟩ := by
  simp [run, reload, start, step, readStep, seeStep, tickStep, joinStep, launch, outcome,
    Task.getsReady, Task.stopped, Task.finishes, ha, hcheck, hb, hab]

theorem run_reloadFails (ha : p.start host (some a) = .ok (server, ca))
    (hcheck : p.args.check = false) (hb : p.load host server (some b) = .ok cb) (hab : b ≠ a) :
    run p (some a) (reloadFails host b) =
      ⟨some b, .waiting ⟨server, cb, some ca, b, 1⟩,
        [⟨ca, true, true, some (.ok ())⟩, ⟨cb, false, false, some (.error .io)⟩], some b,
        some cb⟩ := by
  rw [run, reloadFails, List.foldl_append, ← run, run_reload ha hcheck hb hab]
  simp [step, Task.finishes]

theorem run_reloadEnds (ha : p.start host (some a) = .ok (server, ca))
    (hcheck : p.args.check = false) (hb : p.load host server (some b) = .ok cb) (hab : b ≠ a) :
    run p (some a) (reloadEnds host b) =
      ⟨some b, .waiting ⟨server, cb, some ca, b, 1⟩,
        [⟨ca, true, true, some (.ok ())⟩, ⟨cb, false, true, some (.ok ())⟩], some b, some cb⟩ := by
  rw [run, reloadEnds, List.foldl_append, ← run, run_reload ha hcheck hb hab]
  simp [step, Task.getsReady, Task.finishes]

theorem run_reloadOvertaken (ha : p.start host (some a) = .ok (server, ca))
    (hcheck : p.args.check = false) (hb : p.load host server (some b) = .ok cb) (hab : b ≠ a)
    (hc : p.load host server (some c) = .ok cc) (hbc : c ≠ b) :
    run p (some a) (reloadOvertaken host b c) =
      ⟨some c, .waiting ⟨server, cc, some cb, c, 2⟩,
        [⟨ca, true, true, some (.ok ())⟩, ⟨cb, true, false, some (.error .io)⟩,
          ⟨cc, false, false, some (.error .io)⟩], some c, some cc⟩ := by
  rw [run, reloadOvertaken, List.foldl_append, ← run, run_reload ha hcheck hb hab]
  simp [step, readStep, tickStep, joinStep, launch, outcome, Task.stopped, Task.finishes, hc, hbc]

theorem undisturbed_reloadFails (ha : p.start host (some a) = .ok (server, ca))
    (hcheck : p.args.check = false) (hb : p.load host server (some b) = .ok cb) (hab : b ≠ a) :
    allowed p undisturbed (start (some a)) (reloadFails host b) = true := by
  simp [allowed, undisturbed, reloadFails, reload, start, step, readStep, seeStep, tickStep,
    launch, outcome, lastReached, Task.getsReady, Task.stopped, Task.finishes, ha, hcheck, hb, hab]

end

open Sample in
theorem last_working_restored_fails :
    let s := run program (some (serverFile addrA)) (reloadFails host (serverFile addrB))
    (s.step program .join).tasks = s.tasks ++ [{ config := config addrA }] ∧
      lastReached s.tasks = some (config addrA) := by
  intro s
  have hab : serverFile addrB ≠ serverFile addrA := by decide +kernel
  have hreachable : Reachable program (fun s e => s.undisturbed e = true) s :=
    (Reachable.start _).allowed
      (undisturbed_reloadFails (start_server addrA_mem) rfl (load_server addrB_mem) hab)
  have hs : s = ⟨some (serverFile addrB),
      .waiting ⟨true, config addrB, some (config addrA), serverFile addrB, 1⟩,
      [⟨config addrA, true, true, some (.ok ())⟩, ⟨config addrB, false, false, some (.error .io)⟩],
      some (serverFile addrB), some (config addrB)⟩ :=
    run_reloadFails (start_server addrA_mem) rfl (load_server addrB_mem) hab
  have hphase :
      s.phase = .waiting ⟨true, config addrB, some (config addrA), serverFile addrB, 1⟩ := by
    rw [hs]
  have htasks : s.tasks = [⟨config addrA, true, true, some (.ok ())⟩,
      ⟨config addrB, false, false, some (.error .io)⟩] := by
    rw [hs]
  have hended : s.outcome 1 = some (.error .io) := by
    rw [outcome, htasks]
    rfl
  have hundisturbed : s.undisturbed .join = true := by
    refine undisturbed_of_unreached hphase
      (t := ⟨config addrB, false, false, some (.error .io)⟩) ?_ rfl
    rw [htasks]
    rfl
  obtain ⟨hjoin, hlast, -⟩ := last_working_restored hreachable hundisturbed hphase hended rfl
  exact ⟨hjoin, hlast⟩

open Sample in
/-- Overtaken by the next edit, a configuration that never worked is restored;
and when a replacement that worked ends, the configuration it replaced is
restored. -/
theorem other_restored :
    let s := run program (some (serverFile addrA))
      (reloadOvertaken host (serverFile addrB) (serverFile addrC))
    let s' := run program (some (serverFile addrA)) (reloadEnds host (serverFile addrB))
    (lastReached s.tasks = some (config addrA) ∧
      (s.step program .join).tasks = s.tasks ++ [{ config := config addrB }]) ∧
    (lastReached s'.tasks = some (config addrB) ∧
      (s'.step program .join).tasks = s'.tasks ++ [{ config := config addrA }]) ∧
    config addrA ≠ config addrB := by
  have hab : serverFile addrB ≠ serverFile addrA := by decide +kernel
  have hbc : serverFile addrC ≠ serverFile addrB := by decide +kernel
  have hconfig : config addrA ≠ config addrB := by decide +kernel
  rw [run_reloadOvertaken (start_server addrA_mem) rfl (load_server addrB_mem) hab
      (load_server addrC_mem) hbc,
    run_reloadEnds (start_server addrA_mem) rfl (load_server addrB_mem) hab]
  exact ⟨⟨rfl, join_restores rfl rfl rfl⟩, ⟨rfl, join_restores rfl rfl rfl⟩, hconfig⟩

end Supervisor

end Cathole
