import Cathole.Proxy.Server

/-!
# The end of the server

Once the accept loop was left, nothing new begins and every session is aborted. From
wherever the sessions are by then there is a way for `run` to return and for every
port to be free, by steps of the runtime and of `run` alone: nobody has to wait for a
client, as a session that was aborted is dropped in every phase.
-/

namespace Cathole

namespace Server

variable {serde : Serde} {cfg : Side} {s s' : Server} {served : Served} {setup : Setup} {i : Nat}

-- ---------------------------------------------------------------------------
-- Nothing new begins
-- ---------------------------------------------------------------------------

theorem length_registry_step (r : Registry) (hi : Registry.session action = some i) :
    (r.step serde cfg action).sessions.length = r.sessions.length := by
  cases hs : r.sessions[i]? with
  | none => rw [Registry.step_unknown hi hs]
  | some setup =>
    rw [Registry.step_session hi hs]
    exact List.length_set

def Closed (n : Nat) (s : Server) : Prop := s.stage ≠ .accepting ∧ s.registry.sessions.length = n

theorem closed_sessionStep (h : Closed n s) (action : PortAction) :
    Closed n (s.sessionStep serde cfg action) := by
  unfold sessionStep
  split
  · exact h
  · rename_i hi
    exact ⟨h.1, (length_registry_step _ hi).trans h.2⟩

theorem Closed.step (h : Closed n s) (serde : Serde) (cfg : Side) (action : ServerAction) :
    Closed n (s.step serde cfg action) := by
  obtain ⟨hstage, hlength⟩ := h
  cases action with
  | incoming validated =>
    simp only [Server.step, if_neg hstage]
    exact ⟨hstage, hlength⟩
  | close =>
    simp only [Server.step, if_neg hstage]
    exact ⟨hstage, hlength⟩
  | join i =>
    simp only [Server.step]
    split <;> exact ⟨hstage, hlength⟩
  | drained =>
    simp only [Server.step]
    split
    · exact ⟨by simp, hlength⟩
    · exact ⟨hstage, hlength⟩
  | idle =>
    simp only [Server.step]
    split
    · exact ⟨by simp, hlength⟩
    · exact ⟨hstage, hlength⟩
  | session action => exact closed_sessionStep ⟨hstage, hlength⟩ action
  | cancel i =>
    simp only [Server.step, Server.cancel]
    split
    · split
      · exact closed_sessionStep ⟨hstage, hlength⟩ (.abort i)
      · exact ⟨hstage, hlength⟩
    · exact ⟨hstage, hlength⟩
  | finish i =>
    simp only [Server.step, Server.finish]
    split
    · split <;> exact ⟨hstage, hlength⟩
    · exact ⟨hstage, hlength⟩
  | accept i j nodelay =>
    simp only [Server.step, Server.accept]
    split
    · split
      · split
        · split
          · exact ⟨hstage, hlength⟩
          · split
            · exact ⟨hstage, hlength⟩
            · have habort : Registry.session (.abort i) = some i := rfl
              exact ⟨hstage, (length_registry_step _ habort).trans hlength⟩
        · exact ⟨hstage, hlength⟩
      · exact ⟨hstage, hlength⟩
    · exact ⟨hstage, hlength⟩
  | streamFinish i k => exact ⟨hstage, hlength⟩
  | streamJoin i k => exact ⟨hstage, hlength⟩

theorem Closed.run (h : Closed n s) (serde : Serde) (cfg : Side) (actions : List ServerAction) :
    Closed n (actions.foldl (Server.step serde cfg) s) :=
  List.foldlRecOn actions (Server.step serde cfg) h fun _ h action _ => h.step serde cfg action

theorem closed_close (serde : Serde) (cfg : Side) (s : Server) :
    Closed s.registry.sessions.length (s.step serde cfg .close) := by
  simp only [step]
  split
  · exact ⟨by simp [close], rfl⟩
  · exact ⟨‹_›, rfl⟩

-- ---------------------------------------------------------------------------
-- Dropping one session
-- ---------------------------------------------------------------------------

/-- A step of `run` after its loop, or of the runtime: an aborted task is dropped,
and so are the listeners of a session that is over. -/
def ending : ServerAction → Bool
  | .cancel _ | .session (.release _ _) | .finish _ | .join _ | .drained | .idle => true
  | _ => false

def phaseOf (i : Nat) (r : Registry) : Option Phase := r.sessions[i]?.map (·.phase)

def Settled (i : Nat) (s : Server) : Prop :=
  s.sessions.progressOf i = some .joined ∧ phaseOf i s.registry = some .ended

theorem phaseOf_ended (h : phaseOf j r = some .ended) (action : PortAction) :
    phaseOf j (r.step serde cfg action) = some .ended := by
  obtain ⟨setup, hj, hended⟩ := Option.map_eq_some_iff.mp h
  cases hi : Registry.session action with
  | none =>
    rw [Registry.step_connect hi, phaseOf, List.getElem?_append_left
      (List.getElem?_eq_some_iff.mp hj).1]
    exact h
  | some i =>
    cases hs : r.sessions[i]? with
    | none =>
      rw [Registry.step_unknown hi hs]
      exact h
    | some other =>
      rw [Registry.step_session hi hs, phaseOf, Registry.getElem?_set_of hs]
      split
      · rename_i hij
        subst hij
        cases hj.symm.trans hs
        cases action <;> simp [Registry.advance, hended]
      · exact h

theorem settled_sessionStep (h : Settled j s) (action : PortAction) :
    Settled j (s.sessionStep serde cfg action) := by
  unfold sessionStep
  split
  · exact h
  · exact ⟨(Pool.progressOf_update _ _ _).trans h.1, phaseOf_ended h.2 _⟩

theorem Settled.step (h : Settled j s) (serde : Serde) (cfg : Side) (action : ServerAction) :
    Settled j (s.step serde cfg action) := by
  obtain ⟨hjoined, hended⟩ := h
  -- Neither joining nor finishing changes a task that was joined.
  cases action with
  | incoming validated =>
    simp only [Server.step, Server.incoming]
    split
    · split
      · split
        · rename_i sessions hspawn
          refine ⟨?_, phaseOf_ended hended _⟩
          obtain ⟨t, ht, hprogress⟩ := Option.map_eq_some_iff.mp hjoined
          rw [Pool.progressOf, Pool.tasks_spawn hspawn,
            List.getElem?_append_left (List.getElem?_eq_some_iff.mp ht).1]
          exact hjoined
        · exact ⟨hjoined, hended⟩
      · exact ⟨hjoined, hended⟩
    · exact ⟨hjoined, hended⟩
  | join i =>
    simp only [Server.step]
    split
    · refine ⟨?_, hended⟩
      rw [Pool.progressOf_join]
      split <;> simp_all
    · exact ⟨hjoined, hended⟩
  | session action => exact settled_sessionStep ⟨hjoined, hended⟩ action
  | cancel i =>
    simp only [Server.step, Server.cancel]
    split
    · split
      · exact settled_sessionStep ⟨hjoined, hended⟩ (.abort i)
      · exact ⟨hjoined, hended⟩
    · exact ⟨hjoined, hended⟩
  | finish i =>
    simp only [Server.step, Server.finish]
    split
    · split
      · refine ⟨?_, hended⟩
        rw [Pool.progressOf_finish]
        split <;> simp_all
      · exact ⟨hjoined, hended⟩
    · exact ⟨hjoined, hended⟩
  | accept i k nodelay =>
    simp only [Server.step, Server.accept]
    split
    · split
      · split
        · split
          · exact ⟨hjoined, hended⟩
          · split
            · exact ⟨(Pool.progressOf_update _ _ _).trans hjoined, hended⟩
            · exact ⟨hjoined, phaseOf_ended hended _⟩
        · exact ⟨hjoined, hended⟩
      · exact ⟨hjoined, hended⟩
    · exact ⟨hjoined, hended⟩
  | streamFinish i k => exact ⟨(Pool.progressOf_update _ _ _).trans hjoined, hended⟩
  | streamJoin i k => exact ⟨(Pool.progressOf_update _ _ _).trans hjoined, hended⟩
  | close =>
    simp only [Server.step]
    split
    · exact ⟨(Pool.progressOf_map _ _).trans hjoined, hended⟩
    · exact ⟨hjoined, hended⟩
  | drained | idle =>
    simp only [Server.step]
    split <;> exact ⟨hjoined, hended⟩

theorem Settled.run (h : Settled j s) (serde : Serde) (cfg : Side) (actions : List ServerAction) :
    Settled j (actions.foldl (Server.step serde cfg) s) :=
  List.foldlRecOn actions (Server.step serde cfg) h fun _ h action _ => h.step serde cfg action

theorem step_session (serde : Serde) (cfg : Side) (s : Server) (action : PortAction)
    (hi : Registry.session action = some i) :
    let s' := s.step serde cfg (.session action)
    s'.registry = s.registry.step serde cfg action ∧ s'.stage = s.stage := by
  simp only [step, sessionStep, hi, and_self]

theorem releases (serde : Serde) (cfg : Side) (i n : Nat) (s : Server) :
    let s' := (List.replicate n (ServerAction.session (.release i 0))).foldl (step serde cfg) s
    s'.registry = (List.replicate n (.release i 0)).foldl (Registry.step serde cfg) s.registry ∧
      s'.stage = s.stage := by
  induction n generalizing s with
  | zero => exact ⟨rfl, rfl⟩
  | succ n ih =>
    obtain ⟨hregistry, hstage⟩ := ih (s.step serde cfg (.session (.release i 0)))
    obtain ⟨hregistry', hstage'⟩ := step_session serde cfg s (.release i 0) rfl
    rw [hregistry'] at hregistry
    exact ⟨hregistry, hstage.trans hstage'⟩

/-- A session that is aborted can be dropped wherever it is. -/
theorem ended_drop (serde : Serde) (cfg : Side) {r : Registry} (hi : r.sessions[i]? = some setup) :
    phaseOf i ((List.replicate (setup.bound.length + 1) (.release i 0)).foldl
      (Registry.step serde cfg) (r.step serde cfg (.abort i))) = some .ended := by
  have hdropping : Registry.Dropping setup.bound
      (Registry.advance serde cfg (.abort i) setup r.taken).1 := by
    cases hphase : setup.phase <;> simp [Registry.Dropping, Registry.advance, hphase]
  have hafter : (r.step serde cfg (.abort i)).sessions[i]? =
      some (Registry.advance serde cfg (.abort i) setup r.taken).1 := by
    rw [Registry.step_session rfl hi, Registry.getElem?_set_of hi, if_pos rfl]
  have hlong := Nat.lt_succ_of_le hdropping.2.length_le
  rw [phaseOf]
  obtain ⟨last, hlast, hended⟩ := hdropping.finish hafter (.inr hlong)
  rw [hlast, Option.map_some, hended]

theorem Inv.cancels (h : Inv cfg s) (serde : Serde) (hstage : s.stage ≠ .accepting)
    (hi : i < s.registry.sessions.length) :
    s.step serde cfg (.cancel i) = s.step serde cfg (.session (.abort i)) := by
  obtain ⟨⟨served, progress⟩, ht, -⟩ := partner_left h.fits (List.getElem?_eq_getElem hi)
  have haborted : served.aborted = true := h.aborted hstage _ (List.mem_of_getElem? ht)
  simp only [Server.step, Server.cancel, ht, haborted, if_true]

theorem Inv.settles (h : Inv cfg s) (serde : Serde) (hstage : s.stage ≠ .accepting)
    (hended : phaseOf i s.registry = some .ended) :
    Settled i ((s.step serde cfg (.finish i)).step serde cfg (.join i)) := by
  obtain ⟨setup, hs, hphase⟩ := Option.map_eq_some_iff.mp hended
  obtain ⟨⟨served, progress⟩, ht, -⟩ := partner_left h.fits hs
  have hprogress : s.sessions.progressOf i = some progress := by
    rw [Pool.progressOf, ht]
    rfl
  have hfinish : s.step serde cfg (.finish i) = { s with sessions := s.sessions.finish i } := by
    simp only [Server.step, Server.finish, ht, hs]
    exact if_pos (.inl hphase)
  by_cases hjoined : progress = .joined
  · subst hjoined
    have hsettled : Settled i s := ⟨hprogress, hended⟩
    exact (hsettled.step serde cfg _).step serde cfg _
  · have hdraining : s.stage = .draining := by
      by_contra hno
      have hlate : s.stage = .idling ∨ s.stage = .returned := by
        cases hs : s.stage <;> simp_all
      have hall := List.all_eq_true.mp (h.joined hlate) _ (List.mem_of_getElem? ht)
      exact hjoined (by simpa using hall)
    have hnext : (s.sessions.finish i).progressOf i = some .finished := by
      rw [Pool.progressOf_finish, hprogress]
      cases progress with
      | running => simp
      | finished => simp
      | joined => exact absurd rfl hjoined
    rw [hfinish]
    simp only [Server.step, hdraining]
    refine ⟨?_, hended⟩
    simp [Pool.progressOf_join, hnext]

theorem Inv.exists_settled (h : Inv cfg s) (serde : Serde) (hstage : s.stage ≠ .accepting)
    (hi : i < s.registry.sessions.length) :
    ∃ more : List ServerAction, (∀ action ∈ more, ending action = true) ∧
      Settled i (more.foldl (Server.step serde cfg) s) := by
  let n := s.registry.sessions[i].bound.length + 1
  let drops : List ServerAction := .cancel i :: List.replicate n (.session (.release i 0))
  have hinv := (simulates serde cfg).invariant h drops
  have hdrops : drops.foldl (Server.step serde cfg) s =
      (List.replicate n (ServerAction.session (.release i 0))).foldl (Server.step serde cfg)
        (s.step serde cfg (.session (.abort i))) := by
    rw [List.foldl_cons, h.cancels serde hstage hi]
  obtain ⟨hregistry, hstage'⟩ := releases serde cfg i n (s.step serde cfg (.session (.abort i)))
  obtain ⟨hregistry₀, hstage₀⟩ := step_session serde cfg s (.abort i) rfl
  refine ⟨drops ++ [.finish i, .join i], ?_, ?_⟩
  · intro action ha
    simp only [drops, List.cons_append, List.mem_cons, List.mem_append, List.not_mem_nil,
      or_false] at ha
    rcases ha with rfl | ha | rfl | rfl
    · rfl
    · rw [List.eq_of_mem_replicate ha]
      rfl
    · rfl
    · rfl
  rw [List.foldl_append]
  refine hinv.settles serde ?_ ?_
  · rw [hdrops, hstage', hstage₀]
    exact hstage
  · rw [hdrops, hregistry, hregistry₀]
    exact ended_drop serde cfg (List.getElem?_eq_getElem hi)

theorem Inv.all_settled (h : Inv cfg s) (serde : Serde) (hstage : s.stage ≠ .accepting)
    (n : Nat) (hn : n ≤ s.registry.sessions.length) :
    ∃ more : List ServerAction, (∀ action ∈ more, ending action = true) ∧
      ∀ i < n, Settled i (more.foldl (Server.step serde cfg) s) := by
  induction n with
  | zero => exact ⟨[], by simp, by simp⟩
  | succ n ih =>
    obtain ⟨more, hmore, hsettled⟩ := ih (by omega)
    have hinv := (simulates serde cfg).invariant h more
    obtain ⟨hstage', hlength⟩ := Closed.run ⟨hstage, rfl⟩ serde cfg more
    obtain ⟨rest, hrest, hlast⟩ := hinv.exists_settled serde hstage' (i := n) (by omega)
    refine ⟨more ++ rest, List.forall_mem_append.mpr ⟨hmore, hrest⟩, fun i hi => ?_⟩
    rw [List.foldl_append]
    rcases Nat.lt_succ_iff_lt_or_eq.mp hi with hi | rfl
    · exact (hsettled i hi).run serde cfg rest
    · exact hlast

theorem Inv.returns (h : Inv cfg s) (serde : Serde) (hstage : s.stage ≠ .accepting)
    (hsettled : ∀ i < s.registry.sessions.length, Settled i s) :
    ((s.step serde cfg .drained).step serde cfg .idle).stage = .returned := by
  have hidle : s.sessions.idle = true := by
    refine List.all_eq_true.mpr fun t ht => ?_
    obtain ⟨i, hi⟩ := List.getElem?_of_mem ht
    have hlt : i < s.registry.sessions.length :=
      h.fits.length_eq ▸ (List.getElem?_eq_some_iff.mp hi).1
    have hjoined := (hsettled i hlt).1
    simpa [Pool.progressOf, hi] using hjoined
  cases hs : s.stage with
  | accepting => exact absurd hs hstage
  | draining => simp [Server.step, hs, hidle]
  | idling => simp [Server.step, hs]
  | returned => simp [Server.step, hs]

-- ---------------------------------------------------------------------------
-- The end
-- ---------------------------------------------------------------------------

theorem Inv.dropped (h : Inv cfg s) (hidle : s.sessions.idle = true)
    (hs : s.registry.sessions[i]? = some setup) :
    ∃ t : Served × Progress, s.sessions.tasks[i]? = some t ∧ Over t.1 setup := by
  obtain ⟨t, ht, hfits⟩ := partner_left h.fits hs
  have hjoined : t.2 = .joined := by
    simpa using List.all_eq_true.mp hidle t (List.mem_of_getElem? ht)
  exact ⟨t, ht, hfits.done (by simp [hjoined])⟩

theorem registryInv_foldl (h : Registry.Inv cfg s.registry) (hs : Inv cfg s) (serde : Serde)
    (actions : List ServerAction) :
    Registry.Inv cfg (actions.foldl (step serde cfg) s).registry := by
  obtain ⟨actions', hrun⟩ := (simulates serde cfg).view_run hs actions
  rw [hrun]
  exact List.foldlRecOn actions' (Registry.step serde cfg) h fun _ h action _ => h.step action

theorem ports_ended (h : Registry.Wf cfg setup) (hended : setup.phase = .ended) :
    setup.ports = [] := by
  have hbound := h.phase
  rw [hended] at hbound
  rw [Setup.ports, hbound]
  rfl

theorem registry_returns (serde : Serde) (cfg : Side) (s : Server) :
    ((s.step serde cfg .drained).step serde cfg .idle).registry = s.registry := by
  have hdrained : (s.step serde cfg .drained).registry = s.registry := by
    simp only [step]
    split <;> rfl
  refine Eq.trans ?_ hdrained
  generalize s.step serde cfg .drained = drained
  simp only [step]
  split <;> rfl

/-- From wherever the sessions are, `run` can drop them all and return. -/
theorem Inv.exists_return (h : Inv cfg s) (serde : Serde) (hstage : s.stage ≠ .accepting) :
    ∃ rest : List ServerAction, (∀ action ∈ rest, ending action = true) ∧
      let last := rest.foldl (Server.step serde cfg) s
      last.stage = .returned ∧ ∀ setup ∈ last.registry.sessions, setup.phase = .ended := by
  obtain ⟨rest, hrest, hsettled⟩ := h.all_settled serde hstage _ (Nat.le_refl _)
  obtain ⟨hstage', hlength⟩ := Closed.run ⟨hstage, rfl⟩ serde cfg rest
  have hinv := (simulates serde cfg).invariant h rest
  refine ⟨rest ++ [.drained, .idle], List.forall_mem_append.mpr ⟨hrest, by simp [ending]⟩, ?_⟩
  rw [List.foldl_append]
  generalize rest.foldl (Server.step serde cfg) s = dropped at *
  refine ⟨hinv.returns serde hstage' (hlength ▸ hsettled), fun setup hmem => ?_⟩
  have hmem' : setup ∈ dropped.registry.sessions := by
    rw [← registry_returns serde cfg dropped]
    exact hmem
  obtain ⟨i, hi⟩ := List.getElem?_of_mem hmem'
  have hphase := (hsettled i (hlength ▸ (List.getElem?_eq_some_iff.mp hi).1)).2
  rw [phaseOf, hi] at hphase
  exact Option.some.inj hphase

theorem Inv.exists_end (h : Inv cfg s) (hregistry : Registry.Inv cfg s.registry) (serde : Serde)
    (hstage : s.stage ≠ .accepting) :
    ∃ rest : List ServerAction, (∀ action ∈ rest, ending action = true) ∧
      let last := rest.foldl (Server.step serde cfg) s
      last.stage = .returned ∧ last.registry.taken = ∅ ∧
        ∀ setup ∈ last.registry.sessions, setup.phase = .ended := by
  obtain ⟨rest, hrest, hreturned, hended⟩ := h.exists_return serde hstage
  have hports := registryInv_foldl hregistry h serde rest
  refine ⟨rest, hrest, hreturned, Finset.eq_empty_iff_forall_notMem.mpr fun port hport => ?_,
    hended⟩
  obtain ⟨i, hmem⟩ := (hports.owned.taken_iff port).mp hport
  obtain ⟨setup, hi, hmem⟩ := Registry.mem_held.mp hmem
  have hin := List.mem_of_getElem? hi
  rw [ports_ended (hports.wf setup hin) (hended setup hin)] at hmem
  cases hmem

/-- Once the loop was left, whatever happens: no session begins, and every one there
is was aborted. When `run` has returned, every permit is back and every session was
dropped, and a port is still taken only by a listener that outlives its session. And
`run` can always get to its end with all ports free, by `ending` steps alone. -/
theorem shutdown_complete (serde : Serde) (cfg : Side) (actions more : List ServerAction) :
    let closed := (run serde cfg actions).step serde cfg .close
    let s := more.foldl (step serde cfg) closed
    s.registry.sessions.length = (run serde cfg actions).registry.sessions.length ∧
    (∀ t ∈ s.sessions.tasks, t.1.aborted = true) ∧
    (s.stage = .returned →
      s.sessions.permits = maxConnections cfg ∧
      (∀ setup ∈ s.registry.sessions, setup.live = false) ∧
      ∀ port ∈ s.registry.taken, ∃ (i : Nat) (t : Served × Progress) (setup : Setup),
        s.sessions.tasks[i]? = some t ∧ s.registry.sessions[i]? = some setup ∧ port ∈ setup.ports ∧
          setup.phase = .closing ∧ t.1.spawned = true) ∧
    ∃ rest : List ServerAction, (∀ action ∈ rest, ending action = true) ∧
      let last := rest.foldl (step serde cfg) s
      last.stage = .returned ∧ last.registry.taken = ∅ ∧
        ∀ setup ∈ last.registry.sessions, setup.phase = .ended := by
  intro closed s
  have hrun : s = run serde cfg (actions ++ .close :: more) := by
    simp [s, closed, run]
  have h : Inv cfg s := hrun ▸ inv_run serde cfg _
  obtain ⟨hstage, hlength⟩ := (closed_close serde cfg (run serde cfg actions)).run serde cfg more
  have hregistry : Registry.Inv cfg s.registry := by
    rw [hrun]
    exact registryInv_foldl Registry.inv_new (inv_new cfg) serde _
  refine ⟨hlength, h.aborted hstage, fun hreturned => ?_, ?_⟩
  · have hidle := h.joined (.inr hreturned)
    refine ⟨h.slots.idle hidle, fun setup hmem => ?_, fun port hport => ?_⟩
    · obtain ⟨i, hi⟩ := List.getElem?_of_mem hmem
      obtain ⟨t, -, hphase | ⟨-, hphase⟩⟩ := h.dropped hidle hi
      · simp [Setup.live, hphase]
      · simp [Setup.live, hphase]
    · obtain ⟨i, hmem⟩ := (hregistry.owned.taken_iff port).mp hport
      obtain ⟨setup, hi, hmem⟩ := Registry.mem_held.mp hmem
      obtain ⟨t, ht, hphase | ⟨hspawned, hphase⟩⟩ := h.dropped hidle hi
      · rw [ports_ended (hregistry.wf setup (List.mem_of_getElem? hi)) hphase] at hmem
        cases hmem
      · exact ⟨i, t, setup, ht, hi, hmem, hphase, hspawned⟩
  · exact h.exists_end hregistry serde hstage

end Server

end Cathole
