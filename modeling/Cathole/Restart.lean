import Cathole.Process

/-!
# From one configuration to the next

What a reload leaves behind. When `main` launches a server, the ones before it have
returned and all their sessions are over; and a task that was told to stop needs
nobody else to get to its end. A client has no end of its own: none of the failures
of its connections gets through to `main`.
-/

namespace Cathole

namespace Process

open Relation (ReflTransGen)

/-- A step of the process that waits for nobody: no client, and no operator. -/
inductive Own (host : Host) (lookupHost : String → Option (List SocketAddr)) : ProcessAction → Prop
  | listen (i : Nat) : Own host lookupHost (.listen i host lookupHost)
  | stop (i : Nat) : Own host lookupHost (.stop i)
  | server (i : Nat) (haction : Server.ending action = true) :
      Own host lookupHost (.server i action)
  | leave (i : Nat) : Own host lookupHost (.leave i)
  | join : Own host lookupHost (.main .join)

section

variable (serde : Serde) (program : Program) (host : Host)
  (lookupHost : String → Option (List SocketAddr))

def Proceeds (p p' : Process) : Prop :=
  ∃ action, Own host lookupHost action ∧ p.step serde program action = p'

/-- The process can get from one state to another by itself. -/
def Reaches (p p' : Process) : Prop := ReflTransGen (Proceeds serde program host lookupHost) p p'

end

variable {serde : Serde} {program : Program} {host : Host}
  {lookupHost : String → Option (List SocketAddr)} {p p' p'' : Process} {g : Listening}
  {t : Task} {i : Nat}

theorem Reaches.trans (h : Reaches serde program host lookupHost p p')
    (h' : Reaches serde program host lookupHost p' p'') :
      Reaches serde program host lookupHost p p'' :=
  ReflTransGen.trans h h'

theorem reaches_step (haction : Own host lookupHost action) :
    Reaches serde program host lookupHost p (p.step serde program action) :=
  .single ⟨action, haction, rfl⟩

theorem Inv.reaches (h : Inv program p) (hp : Reaches serde program host lookupHost p p') :
    Inv program p' := by
  induction hp with
  | refl => exact h
  | tail _ hlast ih =>
    obtain ⟨action, -, rfl⟩ := hlast
    exact ih.step serde action

-- ---------------------------------------------------------------------------
-- Servers that were left
-- ---------------------------------------------------------------------------

theorem serve_reaches (hg : p.servers.lookup i = some g) (serde : Serde)
    (program : Program) (host : Host) (lookupHost : String → Option (List SocketAddr))
    (actions : List ServerAction) (hactions : ∀ action ∈ actions, Server.ending action = true) :
    ∃ p' g', Reaches serde program host lookupHost p p' ∧ p'.main = p.main ∧
      (∀ k, k ≠ i → p'.servers.lookup k = p.servers.lookup k) ∧ p'.servers.lookup i = some g' ∧
      g'.server.withTaken p'.taken =
        actions.foldl (Server.step serde g.cfg) (g.server.withTaken p.taken) := by
  induction actions generalizing p g with
  | nil => exact ⟨p, g, .refl, rfl, fun _ _ => rfl, hg, rfl⟩
  | cons action rest ih =>
    let server := (g.server.withTaken p.taken).step serde g.cfg action
    have hstep : p.step serde program (.server i action) =
        { p with
          servers := p.servers.insert i ⟨g.cfg, server⟩
          taken := server.registry.taken } := by
      simp only [step, serve, hg, server]
    have hlookup : (p.step serde program (.server i action)).servers.lookup i =
        some ⟨g.cfg, server⟩ := by
      rw [hstep, AList.lookup_insert_eq, if_pos rfl]
    obtain ⟨p', g', hreaches, hmain, hother, hg', hserver⟩ :=
      ih hlookup fun a ha => hactions a (List.mem_cons_of_mem _ ha)
    have hfirst :
        Reaches serde program host lookupHost p (p.step serde program (.server i action)) :=
      reaches_step (.server i (hactions action List.mem_cons_self))
    refine ⟨p', g', hfirst.trans hreaches, hmain.trans (by rw [hstep]),
      fun k hk => (hother k hk).trans ?_,
      hg', hserver.trans ?_⟩
    · rw [hstep, AList.lookup_insert_eq, if_neg hk]
    · rw [hstep]
      rfl

def Gone (i : Nat) (p : Process) : Prop :=
  ∀ g, p.servers.lookup i = some g →
    g.server.stage = .returned ∧ ∀ setup ∈ g.server.registry.sessions, setup.phase = .ended

theorem Inv.exists_gone (h : Inv program p) (serde : Serde) (host : Host)
    (lookupHost : String → Option (List SocketAddr)) (hg : p.servers.lookup i = some g)
    (hstage : g.server.stage ≠ .accepting) :
    ∃ p' g', Reaches serde program host lookupHost p p' ∧ p'.main = p.main ∧
      (∀ k, k ≠ i → p'.servers.lookup k = p.servers.lookup k) ∧ p'.servers.lookup i = some g' ∧
      g'.server.stage = .returned ∧
      ∀ setup ∈ g'.server.registry.sessions, setup.phase = .ended := by
  have hinv := inv_withTaken (h.server i g hg).1 p.taken
  obtain ⟨rest, hrest, hreturned, hended⟩ := hinv.exists_return serde hstage
  obtain ⟨p', g', hreaches, hmain, hother, hg', hserver⟩ :=
    serve_reaches hg serde program host lookupHost rest hrest
  rw [← hserver] at hreturned hended
  exact ⟨p', g', hreaches, hmain, hother, hg', hreturned, hended⟩

theorem Inv.all_gone (h : Inv program p) (serde : Serde) (host : Host)
    (lookupHost : String → Option (List SocketAddr))
    (hclosed : ∀ i g, p.servers.lookup i = some g → g.server.stage ≠ .accepting) (n : Nat) :
    ∃ p', Reaches serde program host lookupHost p p' ∧ p'.main = p.main ∧
      (∀ k, n ≤ k → p'.servers.lookup k = p.servers.lookup k) ∧ ∀ k < n, Gone k p' := by
  induction n with
  | zero => exact ⟨p, .refl, rfl, fun _ _ => rfl, by simp⟩
  | succ n ih =>
    obtain ⟨p₁, hreaches, hmain, hsame, hgone⟩ := ih
    cases hn : p₁.servers.lookup n with
    | none =>
      refine ⟨p₁, hreaches, hmain, fun k hk => hsame k (by omega), fun k hk => ?_⟩
      rcases Nat.lt_succ_iff_lt_or_eq.mp hk with hk | rfl
      · exact hgone k hk
      · intro g hg
        cases hn.symm.trans hg
    | some g =>
      have hstage := hclosed n g ((hsame n (Nat.le_refl n)).symm.trans hn)
      obtain ⟨p₂, g', hreaches', hmain', hother, hg', hlast⟩ :=
        (h.reaches hreaches).exists_gone serde host lookupHost hn hstage
      refine ⟨p₂, hreaches.trans hreaches', hmain'.trans hmain, fun k hk => ?_,
        fun k hk g'' hg'' => ?_⟩
      · exact (hother k (by omega)).trans (hsame k (by omega))
      · rcases Nat.lt_succ_iff_lt_or_eq.mp hk with hk | rfl
        · rw [hother k (by omega)] at hg''
          exact hgone k hk g'' hg''
        · cases hg'.symm.trans hg''
          exact hlast

theorem Inv.free (h : Inv program p) (hgone : ∀ i, Gone i p) : p.taken = ∅ := by
  refine h.owned.taken_empty fun ⟨i, j⟩ => ?_
  unfold held
  split
  · rename_i g hg
    unfold Registry.held
    cases hs : g.server.registry.sessions[j]? with
    | none => rfl
    | some setup =>
      have hmem := List.mem_of_getElem? hs
      exact Server.ports_ended ((h.server i g hg).2 setup hmem) ((hgone i g hg).2 setup hmem)
  · rfl

-- ---------------------------------------------------------------------------
-- The task that was told to stop
-- ---------------------------------------------------------------------------

theorem outcome_finish (ht : p.main.tasks[i]? = some t) (hended : t.ended = none)
    (result : Except Fault Unit) : (p.mainStep program (.finish i result)).main.outcome i =
      some result := by
  simp [mainStep, Supervisor.step, Supervisor.outcome, ht, Task.finishes, hended]

theorem Inv.exists_left (h : Inv program p) (serde : Serde) (host : Host)
    (lookupHost : String → Option (List SocketAddr)) (ht : p.main.tasks[i]? = some t)
    (hended : t.ended = none) (hstop : t.stop = true) (hg : p.servers.lookup i = some g) :
    ∃ p' result, Reaches serde program host lookupHost p p' ∧ p'.main.phase = p.main.phase ∧
      p'.main.outcome i = some result := by
  obtain ⟨t', ht', hfits⟩ := h.fits i g hg
  cases ht.symm.trans ht'
  have hstopped : p.step serde program (.stop i) = p.serve serde i .close := by
    simp [Process.step, Process.stop, ht, hstop, hfits.side]
  let server := (g.server.withTaken p.taken).step serde g.cfg .close
  have hclosed : (p.serve serde i .close).servers.lookup i = some ⟨g.cfg, server⟩ := by
    simp [Process.serve, hg, server]
  have hstage : server.stage ≠ .accepting := (Server.closed_close serde g.cfg _).1
  have hreaches : Reaches serde program host lookupHost p (p.serve serde i .close) :=
    hstopped ▸ reaches_step (.stop i)
  have hmain : (p.serve serde i .close).main = p.main := by
    simp [Process.serve, hg]
  obtain ⟨p', g', hreaches', hmain', -, hg', hreturned, -⟩ :=
    (h.reaches hreaches).exists_gone serde host lookupHost hclosed hstage
  have hleave : p'.step serde program (.leave i) = p'.mainStep program (.finish i (.ok ())) := by
    simp [Process.step, Process.leave, hg', hreturned]
  have htask : p'.main.tasks[i]? = some t := by
    rw [hmain', hmain]
    exact ht
  refine ⟨_, .ok (), (hreaches.trans hreaches').trans (reaches_step (.leave i)), ?_, ?_⟩
  · rw [hleave]
    change p'.main.phase = p.main.phase
    rw [hmain', hmain]
  · rw [hleave]
    exact outcome_finish htask hended _

/-- The same for a task at its beginning, where it does not look at the channel. -/
theorem Inv.exists_listened (h : Inv program p) (serde : Serde) (host : Host)
    (lookupHost : String → Option (List SocketAddr)) (ht : p.main.tasks[i]? = some t)
    (hended : t.ended = none) (hstop : t.stop = true) (hside : t.side = .ok (true, cfg))
    (hnone : p.servers.lookup i = none) :
    ∃ p' result, Reaches serde program host lookupHost p p' ∧ p'.main.phase = p.main.phase ∧
      p'.main.outcome i = some result := by
  have hreaches : Reaches serde program host lookupHost p
      (p.step serde program (.listen i host lookupHost)) := reaches_step (.listen i)
  cases hlisten : cfg.listen host lookupHost with
  | error fault =>
    have hstep : p.step serde program (.listen i host lookupHost) =
        p.mainStep program (.finish i (.error fault)) := by
      simp [Process.step, Process.listen, ht, hnone, hended, hside, hlisten]
    rw [hstep] at hreaches
    exact ⟨_, .error fault, hreaches, rfl, outcome_finish ht hended _⟩
  | ok endpoint =>
    have hstep : p.step serde program (.listen i host lookupHost) =
        { p.mainStep program (.ready i) with servers := p.servers.insert i ⟨cfg, .new cfg⟩ } := by
      simp [Process.step, Process.listen, ht, hnone, hended, hside, hlisten]
    rw [hstep] at hreaches
    have hready : (p.mainStep program (.ready i)).main.tasks[i]? = some t.getsReady := by
      simp [Process.mainStep, Supervisor.step, ht]
    obtain ⟨p', result, hreaches', hphase, houtcome⟩ :=
      (h.reaches hreaches).exists_left serde host lookupHost hready
        ((Supervisor.ended_getsReady t).trans hended) ((Supervisor.stop_getsReady t).trans hstop)
        (AList.lookup_insert _)
    exact ⟨p', result, hreaches.trans hreaches', hphase, houtcome⟩

theorem Inv.exists_ended (h : Inv program p) (serde : Serde) (host : Host)
    (lookupHost : String → Option (List SocketAddr)) (hl : p.main.phase.loop = some l)
    (htold : p.main.phase.told = true) :
    ∃ p' result, Reaches serde program host lookupHost p p' ∧ p'.main.phase = p.main.phase ∧
      p'.main.outcome l.running = some result := by
  obtain ⟨t, ht, hconfig⟩ := h.sound.running l hl
  have hstop := (h.told l t hl ht).trans htold
  obtain ⟨cfg, hside, hother, -⟩ := (h.sound.current l hl).side
  rw [← hconfig] at hside hother
  have hrole := side_of_forRole hside hother
  cases hended : t.ended with
  | some result =>
    refine ⟨p, result, .refl, rfl, ?_⟩
    rw [Supervisor.outcome, ht]
    exact hended
  | none =>
    cases hserver : l.server with
    | true =>
      rw [hserver] at hrole
      cases hg : p.servers.lookup l.running with
      | some g => exact h.exists_left serde host lookupHost ht hended hstop hg
      | none => exact h.exists_listened serde host lookupHost ht hended hstop hrole hg
    | false =>
      rw [hserver] at hrole
      have hreaches :
          Reaches serde program host lookupHost p (p.step serde program (.stop l.running)) :=
        reaches_step (.stop l.running)
      have hstep : p.step serde program (.stop l.running) =
          p.mainStep program (.finish l.running (.ok ())) := by
        simp [Process.step, Process.stop, ht, hstop, hrole]
      rw [hstep] at hreaches
      exact ⟨_, .ok (), hreaches, rfl, outcome_finish ht hended _⟩

/-- The task that was told to stop is over, and nothing of any server is left. -/
theorem Inv.exists_clean (h : Inv program p) (serde : Serde) (host : Host)
    (lookupHost : String → Option (List SocketAddr)) (hl : p.main.phase.loop = some l)
    (htold : p.main.phase.told = true) :
    ∃ p' result, Reaches serde program host lookupHost p p' ∧ p'.main.phase = p.main.phase ∧
      p'.main.outcome l.running = some result ∧ ∀ i, Gone i p' := by
  obtain ⟨p₁, result, hreaches, hphase, houtcome⟩ := h.exists_ended serde host lookupHost hl htold
  have hinv := h.reaches hreaches
  have hall := hinv.sound.all_ended (hphase ▸ hl) houtcome
  have hclosed : ∀ i g, p₁.servers.lookup i = some g → g.server.stage ≠ .accepting := by
    intro i g hg
    obtain ⟨t, ht, hfits⟩ := hinv.fits i g hg
    rw [hfits.ended (hall t (List.mem_of_getElem? ht))]
    simp
  obtain ⟨p₂, hreaches', hmain, hsame, hgone⟩ :=
    hinv.all_gone serde host lookupHost hclosed p₁.main.tasks.length
  refine ⟨p₂, result, hreaches.trans hreaches', ?_, ?_, fun i g hg => ?_⟩
  · rw [hmain, hphase]
  · rw [hmain, houtcome]
  · rcases Nat.lt_or_ge i p₁.main.tasks.length with hlt | hge
    · exact hgone i hlt g hg
    · obtain ⟨t, ht, -⟩ := hinv.fits i g ((hsame i hge).symm.trans hg)
      rw [List.getElem?_eq_none hge] at ht
      cases ht

-- ---------------------------------------------------------------------------
-- Restarts
-- ---------------------------------------------------------------------------

theorem Inv.returned (h : Inv program p) (hg : p.servers.lookup i = some g)
    (hi : i + 1 < p.main.tasks.length) :
    g.server.stage = .returned ∧ g.server.sessions.permits = Server.maxConnections g.cfg ∧
      ∀ setup ∈ g.server.registry.sessions, setup.live = false := by
  obtain ⟨t, ht, hfits⟩ := h.fits i g hg
  have hreturned := hfits.ended (h.sound.alone i t ht hi)
  have hinv := (h.server i g hg).1
  have hidle := hinv.joined (.inr hreturned)
  refine ⟨hreturned, hinv.slots.idle hidle, fun setup hmem => ?_⟩
  obtain ⟨j, hj⟩ := List.getElem?_of_mem hmem
  obtain ⟨served, -, hover | ⟨-, hover⟩⟩ := hinv.dropped hidle hj
  · simp [Setup.live, hover]
  · simp [Setup.live, hover]

theorem Inv.exists_launched (h : Inv program p) (serde : Serde) (host : Host)
    (lookupHost : String → Option (List SocketAddr)) (hphase : p.main.phase = .stopping l next) :
    ∃ p', Reaches serde program host lookupHost p p' ∧ p'.taken = ∅ ∧ (∀ i, Gone i p') ∧
      p'.main.phase = .waiting
        { l with current := next, rollback := some l.current, running := p.main.tasks.length } ∧
      p'.main.tasks[p.main.tasks.length]? = some { config := next } := by
  have hl := Supervisor.loop_stopping hphase
  obtain ⟨p₁, result, hreaches, hphase₁, houtcome, hgone⟩ :=
    h.exists_clean serde host lookupHost hl (by rw [hphase]; rfl)
  have hinv := h.reaches hreaches
  rw [hphase] at hphase₁
  have hlength : p₁.main.tasks.length = p.main.tasks.length := by
    rw [hinv.sound.last l (Supervisor.loop_stopping hphase₁), h.sound.last l hl]
  have hjoin : p₁.step serde program (.main .join) =
      { p₁ with
        main := p₁.main.launch next { l with rollback := some l.current, current := next } } := by
    simp [Process.step, Event.isMain, Process.mainStep, Supervisor.step, Supervisor.joinStep,
      hphase₁, houtcome]
  refine ⟨_, hreaches.trans (reaches_step .join), ?_⟩
  rw [hjoin]
  refine ⟨hinv.free hgone, hgone, ?_, ?_⟩
  · simp [Supervisor.launch, hlength]
  · simp [Supervisor.launch, ← hlength]

theorem Inv.exists_returned (h : Inv program p) (serde : Serde) (host : Host)
    (lookupHost : String → Option (List SocketAddr)) (hphase : p.main.phase = .interrupted l) :
    ∃ p', Reaches serde program host lookupHost p p' ∧ p'.taken = ∅ ∧ (∀ i, Gone i p') ∧
      p'.main.phase = .returned (.ok ()) := by
  have hl : p.main.phase.loop = some l := by rw [hphase]; rfl
  obtain ⟨p₁, result, hreaches, hphase₁, houtcome, hgone⟩ :=
    h.exists_clean serde host lookupHost hl (by rw [hphase]; rfl)
  rw [hphase] at hphase₁
  have hjoin : p₁.step serde program (.main .join) =
      { p₁ with main := { p₁.main with phase := .returned (.ok ()) } } := by
    simp [Process.step, Event.isMain, Process.mainStep, Supervisor.step, Supervisor.joinStep,
      hphase₁, houtcome]
  refine ⟨_, hreaches.trans (reaches_step .join), ?_⟩
  rw [hjoin]
  exact ⟨(h.reaches hreaches).free hgone, hgone, rfl⟩

/-- In every state of the process: the servers before the last task have returned
with all their permits, and their sessions are over; the port table knows what all
servers hold, and no port is held twice, not even by two servers. Once `main` has
told a task to stop, the process can get by itself to where every port is free and
`main` goes on: with the new configuration in a reload, and to its end after an
interrupt. -/
theorem restart_clean (serde : Serde) (program : Program) (file : Option Bytes)
    (actions : List ProcessAction) :
    let p := run serde program file actions
    (∀ i g, p.servers.lookup i = some g → i + 1 < p.main.tasks.length →
      g.server.stage = .returned ∧ g.server.sessions.permits = Server.maxConnections g.cfg ∧
        ∀ setup ∈ g.server.registry.sessions, setup.live = false) ∧
    (∀ port, port ∈ p.taken ↔ ∃ i j, port ∈ p.held (i, j)) ∧
    (∀ i j i' j' port, port ∈ p.held (i, j) → port ∈ p.held (i', j') → i = i' ∧ j = j') ∧
    (∀ l next, p.main.phase = .stopping l next → ∀ host lookupHost,
      ∃ p', Reaches serde program host lookupHost p p' ∧ p'.taken = ∅ ∧ (∀ i, Gone i p') ∧
        p'.main.phase = .waiting
          { l with current := next, rollback := some l.current, running := p.main.tasks.length } ∧
        p'.main.tasks[p.main.tasks.length]? = some { config := next }) ∧
    ∀ l, p.main.phase = .interrupted l → ∀ host lookupHost,
      ∃ p', Reaches serde program host lookupHost p p' ∧ p'.taken = ∅ ∧ (∀ i, Gone i p') ∧
        p'.main.phase = .returned (.ok ()) := by
  intro p
  have h : Inv program p := inv_run serde program file actions
  refine ⟨fun i g => h.returned, fun port => ?_, fun i j i' j' port hport hport' => ?_, ?_, ?_⟩
  · rw [h.owned.taken_iff, Prod.exists]
  · exact Prod.mk.inj (h.owned.apart (i, j) (i', j') port hport hport')
  · intro l next hphase host lookupHost
    exact h.exists_launched serde host lookupHost hphase
  · intro l hphase host lookupHost
    exact h.exists_returned serde host lookupHost hphase

-- ---------------------------------------------------------------------------
-- The client
-- ---------------------------------------------------------------------------

theorem main_moves (serde : Serde) (program : Program) (p : Process) (action : ProcessAction) :
    ∃ e, p.main.Moves program e (p.step serde program action).main ∧
      (e = .interrupt → action = .main .interrupt) := by
  have hnone : ∃ e, p.main.Moves program e p.main ∧ (e = .interrupt → action = .main .interrupt) :=
    ⟨.see, .idle, by simp⟩
  have hready : ∀ i, ∃ e, p.main.Moves program e (p.mainStep program (.ready i)).main ∧
      (e = .interrupt → action = .main .interrupt) := fun i =>
    ⟨.ready i, .ready i, by simp⟩
  have hfinish :
      ∀ i result, ∃ e, p.main.Moves program e (p.mainStep program (.finish i result)).main ∧
      (e = .interrupt → action = .main .interrupt) := fun i result =>
    ⟨.finish i result, .finished i result, by simp⟩
  have hserve : ∀ i a, ∃ e, p.main.Moves program e (p.serve serde i a).main ∧
      (e = .interrupt → action = .main .interrupt) := by
    intro i a
    unfold serve
    split <;> exact hnone
  cases action with
  | main event =>
    simp only [step]
    split
    · exact ⟨event, Supervisor.step_moves event, fun he => by rw [he]⟩
    · exact hnone
  | listen i host lookupHost =>
    simp only [step, listen]
    split
    · split
      · exact hnone
      · split
        · split
          · exact hready i
          · exact hfinish i _
        · split
          · exact hnone
          · exact hready i
        · exact hfinish i _
    · exact hnone
  | client i event =>
    simp only [step, dial]
    split
    · split
      · exact hnone
      · split
        · exact hnone
        · exact hfinish i _
    · exact hnone
  | stop i =>
    simp only [step, stop]
    split
    · split
      · split
        · exact hserve i .close
        · exact hfinish i _
        · exact hnone
      · exact hnone
    · exact hnone
  | server i a => exact hserve i a
  | leave i =>
    simp only [step, leave]
    split
    · split
      · exact hfinish i _
      · exact hnone
    · exact hnone

/-- The task of a client is not over before it was told to stop. -/
theorem Inv.client_runs (h : Inv program p) (hl : p.main.phase.loop = some l)
    (hclient : l.server = false) (htold : p.main.phase.told = false) :
    p.main.outcome l.running = none := by
  obtain ⟨t, ht, hconfig⟩ := h.sound.running l hl
  obtain ⟨cfg, hside, hother, -⟩ := (h.sound.current l hl).side
  rw [← hconfig, hclient] at hside hother
  have hstop := h.told l t hl ht
  rw [htold] at hstop
  rw [Supervisor.outcome, ht, Option.bind_some]
  by_contra hended
  have hstopped :=
    h.client _ t cfg ht (side_of_forRole hside hother) (Option.isSome_iff_ne_none.mpr hended)
  simp [hstop] at hstopped

def Stays (asked : Prop) (s : Supervisor) : Prop :=
  (∃ l, s.phase.loop = some l ∧ l.server = false ∧ (s.phase = .interrupted l → asked)) ∨
    s.phase = .returned (.ok ()) ∧ asked

theorem Inv.stays_step (h : Inv program p) (hstays : Stays asked p.main) (serde : Serde)
    (action : ProcessAction) :
    Stays (asked ∨ action = .main .interrupt) (p.step serde program action).main := by
  obtain ⟨e, hmoves, hinterrupt⟩ := main_moves serde program p action
  generalize (p.step serde program action).main = s' at hmoves
  obtain ⟨l, hl, hclient, hasked⟩ | ⟨hreturned, hasked⟩ := hstays
  · have hsame : ∀ l', s'.phase.loop = some l' → l'.server = false := fun l' hl' =>
      (Supervisor.server_moves hmoves hl hl').trans hclient
    cases hmoves with
    | idle => exact .inl ⟨l, hl, hclient, fun hphase => .inl (hasked hphase)⟩
    | wrote content => exact .inl ⟨l, hl, hclient, fun hphase => .inl (hasked hphase)⟩
    | ready i => exact .inl ⟨l, hl, hclient, fun hphase => .inl (hasked hphase)⟩
    | finished i result => exact .inl ⟨l, hl, hclient, fun hphase => .inl (hasked hphase)⟩
    | refused hs | checked hs | started hs | unseen hs | saw hs =>
      rw [hs] at hl
      cases hl
    | noticed hs | ignored hs | accepts hs | replaced hs =>
      exact .inl ⟨_, rfl, hsame _ rfl, fun hphase => by cases hphase⟩
    | restored hs hended | gaveUp hs hended =>
      cases (Supervisor.loop_waiting hs).symm.trans hl
      have hruns := h.client_runs hl hclient (by rw [hs]; rfl)
      cases hruns.symm.trans hended
    | left hs =>
      rw [hs] at hl
      cases hl
      exact .inr ⟨rfl, .inl (hasked hs)⟩
    | interrupts hs => exact .inl ⟨_, rfl, hsame _ rfl, fun _ => .inr (hinterrupt rfl)⟩
  · cases hmoves with
    | idle => exact .inr ⟨hreturned, .inl hasked⟩
    | wrote content => exact .inr ⟨hreturned, .inl hasked⟩
    | ready i => exact .inr ⟨hreturned, .inl hasked⟩
    | finished i result => exact .inr ⟨hreturned, .inl hasked⟩
    | _ hs =>
      rw [hreturned] at hs
      cases hs

theorem Inv.stays_run (h : Inv program p) (hstays : Stays asked p.main) (serde : Serde)
    (more : List ProcessAction) :
    Stays (asked ∨ .main .interrupt ∈ more) (more.foldl (Process.step serde program) p).main := by
  induction more generalizing p asked with
  | nil => simpa using hstays
  | cons action rest ih =>
    have hrest := ih (h.step serde action) (h.stays_step hstays serde action)
    rw [or_assoc] at hrest
    simpa only [List.foldl_cons, List.mem_cons, eq_comm] using hrest

/-- A client never rolls back and never gives up: whatever happens to its connections
and sessions, the loop of its task goes on until `main` has told it to stop, so the
configuration that was loaded last stays, and `main` returns only after an
interrupt. -/
theorem client_stays (serde : Serde) (program : Program) (file : Option Bytes)
    (actions more : List ProcessAction) :
    let p := run serde program file actions
    let p' := more.foldl (step serde program) p
    (∀ i d event, p.clients.lookup i = some d → p.main.outcome i = none →
      ∃ d', d.step event = .ok d' ∧
        p.step serde program (.client i event) = { p with clients := p.clients.insert i d' }) ∧
    (∀ l, p.main.phase = .waiting l → l.server = false →
      p.main.outcome l.running = none ∧ p.step serde program (.main .join) = p) ∧
    ∀ l, p.main.phase.loop = some l → l.server = false →
      (∃ l', p'.main.phase.loop = some l' ∧ l'.server = false) ∨
      p'.main.phase = .returned (.ok ()) ∧
      (p.main.phase = .interrupted l ∨ .main .interrupt ∈ more) := by
  intro p p'
  have h : Inv program p := inv_run serde program file actions
  refine ⟨fun i d event hd hrunning => ?_, fun l hphase hclient => ?_, fun l hl hclient => ?_⟩
  · obtain ⟨d', hstep, -, -, hdial⟩ := h.dial_eq hd hrunning event
    exact ⟨d', hstep, hdial⟩
  · have hruns := h.client_runs (Supervisor.loop_waiting hphase) hclient (by rw [hphase]; rfl)
    refine ⟨hruns, ?_⟩
    simp [step, Event.isMain, mainStep, Supervisor.step, Supervisor.joinStep, hphase, hruns]
  · have hstays : Stays (p.main.phase = .interrupted l) p.main := .inl ⟨l, hl, hclient, id⟩
    obtain ⟨l', hl', hclient', -⟩ | hreturned := h.stays_run hstays serde more
    · exact .inl ⟨l', hl', hclient'⟩
    · exact .inr hreturned

end Process

namespace Sample

def clientFile : Bytes := "[client]".toUTF8.data.toList

def clientProgram : Program := { program with toml := fun _ => .ok ⟨none, some (nkClient zeroKey)⟩ }

theorem read_client :
    Config.read clientProgram.decode clientProgram.toml clientProgram.paths clientProgram.path
      (some clientFile) = .ok ⟨none, some ((nkClient zeroKey).withHeartbeat false)⟩ := by
  have hparse : Config.parse clientProgram.decode clientProgram.toml "[client]" =
      .ok ⟨none, some ((nkClient zeroKey).withHeartbeat false)⟩ := by
    decide +kernel
  rw [Config.read, clientFile, readToString_toUTF8, ok_bind, hparse]
  rfl

theorem start_client : clientProgram.start host (some clientFile) =
    .ok (false, ⟨none, some ((nkClient zeroKey).withHeartbeat false)⟩) := by
  rw [Program.start, read_client]
  decide +kernel

end Sample

open Sample in
example (serde : Serde) :
    let p := Process.run serde clientProgram (some clientFile) [.main (.read host), .main .see]
    ∃ l, p.main.phase = .waiting l ∧ l.server = false := by
  intro p
  have hrun : p.main = Supervisor.run clientProgram (some clientFile) [.read host, .see] := rfl
  rw [hrun, Supervisor.run_started start_client rfl]
  exact ⟨_, rfl, rfl⟩

end Cathole
