import Cathole.Proxy.Flows

/-!
# How long a source mapping lives

For one public source, `Flows` is a much smaller machine: the flow ID the source
is mapped to, if it is mapped, and the time of the last touch. An arrival from
the source and a reply to it set the time, expiry compares it with the clock,
and whatever happens to the other sources leaves both alone. `Inv.moves`
says so for every step, and the lifetime of a mapping follows from it.
-/

namespace Cathole

namespace Flows

def mapping (service : UInt16) (peer : SocketAddr) (f : Flows) : Option (UInt64 × Nat) := do
  let id ← f.byPeer.lookup (service, peer)
  let flow ← f.byId.lookup id
  pure (id, flow.touched)

variable {f : Flows} {limit now idle : Nat} {clock : UInt64 → Nat} {id key : UInt64} {flow : Flow}
  {service : UInt16} {peer : SocketAddr}

theorem mapping_eq_some :
    f.mapping service peer = some (id, last) ↔
      f.byPeer.lookup (service, peer) = some id ∧
        ∃ flow, f.byId.lookup id = some flow ∧ flow.touched = last := by
  simp only [mapping, Option.bind_eq_bind, Option.bind_eq_some_iff, Option.pure_def,
    Option.some.injEq, Prod.mk.injEq]
  constructor
  · rintro ⟨_, hpeer, flow, hflow, rfl, rfl⟩
    exact ⟨hpeer, flow, hflow, rfl⟩
  · rintro ⟨hpeer, flow, hflow, rfl⟩
    exact ⟨id, hpeer, flow, hflow, rfl, rfl⟩

theorem mapping_of_lookup (hpeer : f.byPeer.lookup (service, peer) = some id)
    (hflow : f.byId.lookup id = some flow) : f.mapping service peer = some (id, flow.touched) :=
  mapping_eq_some.mpr ⟨hpeer, flow, hflow, rfl⟩

theorem mapping_of_none (hpeer : f.byPeer.lookup (service, peer) = none) :
    f.mapping service peer = none := by
  simp [mapping, hpeer]

theorem Wf.mapping_eq_none (h : Wf limit f) :
    f.mapping service peer = none ↔ f.byPeer.lookup (service, peer) = none := by
  refine ⟨fun hnone => ?_, mapping_of_none⟩
  cases hpeer : f.byPeer.lookup (service, peer) with
  | none => rfl
  | some id =>
    obtain ⟨flow, hflow, -⟩ := (h.inverse service peer id).mp hpeer
    cases hnone.symm.trans (mapping_of_lookup hpeer hflow)

theorem Wf.mapping_touch (h : Wf limit f) (hflow : f.byId.lookup key = some flow) (now : Nat)
    (service : UInt16) (peer : SocketAddr) :
    (f.touch key flow now).mapping service peer =
      if flow.service = service ∧ flow.peer = peer then some (key, now)
        else f.mapping service peer := by
  split
  · rename_i hown
    have hpeer := (h.inverse service peer key).mpr ⟨flow, hflow, hown⟩
    exact mapping_eq_some.mpr ⟨hpeer, { flow with touched := now }, AList.lookup_insert _, rfl⟩
  · rename_i hother
    cases hpeer : f.byPeer.lookup (service, peer) with
    | none =>
      rw [mapping_of_none hpeer]
      exact mapping_of_none hpeer
    | some id =>
      obtain ⟨own, hown, hs, hp⟩ := (h.inverse service peer id).mp hpeer
      have hne : id ≠ key := by
        rintro rfl
        cases hflow.symm.trans hown
        exact hother ⟨hs, hp⟩
      rw [mapping_of_lookup hpeer hown]
      exact mapping_of_lookup hpeer ((AList.lookup_insert_ne hne).trans hown)

theorem Wf.mapping_expire (h : Wf limit f) :
    (f.expire idle clock).mapping service peer =
      (f.mapping service peer).filter fun entry => clock entry.1 - entry.2 < idle := by
  apply Option.ext
  rintro ⟨id, last⟩
  rw [Option.filter_eq_some_iff, mapping_eq_some, mapping_eq_some, decide_eq_true_eq]
  constructor
  · rintro ⟨hpeer, flow, hflow, rfl⟩
    obtain ⟨flow', hflow', hs, hp⟩ := (h.expire.inverse service peer id).mp hpeer
    cases hflow.symm.trans hflow'
    obtain ⟨hold, hlive⟩ := lookup_expire.mp hflow
    exact ⟨⟨(h.inverse service peer id).mpr ⟨flow, hold, hs, hp⟩, flow, hold, rfl⟩, hlive⟩
  · rintro ⟨⟨hpeer, flow, hflow, rfl⟩, hlive⟩
    obtain ⟨flow', hflow', hs, hp⟩ := (h.inverse service peer id).mp hpeer
    cases hflow.symm.trans hflow'
    have hkept := lookup_expire.mpr ⟨hflow, hlive⟩
    exact ⟨(h.expire.inverse service peer id).mpr ⟨flow, hkept, hs, hp⟩, flow, hkept, rfl⟩

theorem Wf.expire_idle (h : Wf limit f) (hpeer : f.byPeer.lookup (service, peer) = some id)
    (hflow : f.byId.lookup id = some flow) (hidle : idle ≤ clock id - flow.touched) :
    (f.expire idle clock).byPeer.lookup (service, peer) = none ∧
      (f.expire idle clock).byId.lookup id = none := by
  constructor
  · rw [← h.expire.mapping_eq_none, h.mapping_expire, mapping_of_lookup hpeer hflow,
      Option.filter_some, if_neg]
    simpa using hidle
  · rw [Option.eq_none_iff_forall_ne_some]
    intro flow' hflow'
    obtain ⟨hold, hlive⟩ := lookup_expire.mp hflow'
    cases hflow.symm.trans hold
    exact absurd hlive (Nat.not_lt.mpr hidle)

theorem Wf.expire_live (h : Wf limit f) (hpeer : f.byPeer.lookup (service, peer) = some id)
    (hflow : f.byId.lookup id = some flow) (hlive : clock id - flow.touched < idle) :
    (f.expire idle clock).byPeer.lookup (service, peer) = some id ∧
      (f.expire idle clock).byId.lookup id = some flow := by
  have hm : (f.expire idle clock).mapping service peer = some (id, flow.touched) := by
    rw [h.mapping_expire, mapping_of_lookup hpeer hflow, Option.filter_some,
      if_pos (decide_eq_true hlive)]
  exact ⟨(mapping_eq_some.mp hm).1, lookup_expire.mpr ⟨hflow, hlive⟩⟩

theorem Wf.expire_none (h : Wf limit f) (hpeer : f.byPeer.lookup (service, peer) = none) :
    (f.expire idle clock).byPeer.lookup (service, peer) = none := by
  rw [← h.expire.mapping_eq_none, h.mapping_expire, h.mapping_eq_none.mpr hpeer, Option.filter_none]

theorem Wf.mapping_allocate (h : Wf limit f) (next : UInt64) (socket : UdpSocket)
    (service' : UInt16) (peer' : SocketAddr) :
    mapping service peer
        { next
          byPeer := f.byPeer.insert (service', peer') f.next
          byId := f.byId.insert f.next
            { service := service', peer := peer', socket, touched := now } } =
      if service' = service ∧ peer' = peer then some (f.next, now) else f.mapping service peer := by
  split
  · rename_i hown
    obtain ⟨rfl, rfl⟩ := hown
    exact mapping_eq_some.mpr ⟨AList.lookup_insert _, _, AList.lookup_insert _, rfl⟩
  · rename_i hother
    have hkey : (service, peer) ≠ (service', peer') := by
      rintro ⟨⟩
      exact hother ⟨rfl, rfl⟩
    cases hpeer : f.byPeer.lookup (service, peer) with
    | none =>
      rw [mapping_of_none hpeer]
      exact mapping_of_none ((AList.lookup_insert_ne hkey).trans hpeer)
    | some id =>
      obtain ⟨own, hown, -⟩ := (h.inverse service peer id).mp hpeer
      have hne : id ≠ f.next := by
        rintro rfl
        exact h.notMem_next (AList.mem_of_lookup hown)
      rw [mapping_of_lookup hpeer hown]
      exact mapping_of_lookup ((AList.lookup_insert_ne hkey).trans hpeer)
        ((AList.lookup_insert_ne hne).trans hown)

theorem Wf.mapping_arrival (h : Wf limit f) (service : UInt16) (peer : SocketAddr)
    (socket : UdpSocket) (service' : UInt16) (peer' : SocketAddr) (now : Nat) :
    (∃ id, (f.arrival limit socket service' peer' now).1 = .ok (some id) ∧
      (f.mapping service' peer' = none ∨ ∃ last, f.mapping service' peer' = some (id, last)) ∧
      (f.arrival limit socket service' peer' now).2.mapping service peer =
        if service' = service ∧ peer' = peer then some (id, now) else f.mapping service peer) ∨
    ((∀ id, (f.arrival limit socket service' peer' now).1 ≠ .ok (some id)) ∧
      f.mapping service' peer' = none ∧ (f.arrival limit socket service' peer' now).2 = f) := by
  have harrives := h.arrives socket service' peer' now
  generalize f.arrival limit socket service' peer' now = outcome at harrives
  cases harrives with
  | known hpeer hflow hservice hsource =>
    subst hservice hsource
    exact .inl ⟨_, rfl, .inr ⟨_, mapping_of_lookup hpeer hflow⟩,
      h.mapping_touch hflow now service peer⟩
  | allocated hpeer _ _ =>
    exact .inl ⟨_, rfl, .inl (mapping_of_none hpeer), h.mapping_allocate _ _ _ _⟩
  | exhausted hpeer _ => exact .inr ⟨by simp, mapping_of_none hpeer, rfl⟩
  | full hpeer _ => exact .inr ⟨by simp, mapping_of_none hpeer, rfl⟩

theorem Wf.arrival_mapped (h : Wf limit f) (hm : f.mapping service peer = some (id, last))
    (socket : UdpSocket) (now : Nat) :
    (f.arrival limit socket service peer now).1 = .ok (some id) := by
  obtain ⟨id', hresult, hold, -⟩ | ⟨-, hnone, -⟩ :=
    h.mapping_arrival service peer socket service peer now
  · rcases hold with hnone | ⟨last', hold⟩
    · cases hm.symm.trans hnone
    · cases hm.symm.trans hold
      exact hresult
  · cases hm.symm.trans hnone

end Flows

-- ---------------------------------------------------------------------------
-- One step
-- ---------------------------------------------------------------------------

namespace Traced

/-- The times at which an event reads the clock. -/
def Event.Reads : Event → Nat → Prop
  | .arrival _ _ now, n => n = now
  | .expire clock, n => ∃ id, n = clock id
  | .reply _ _ now, n => n = now

/-- The clock does not go back from one event to the other. -/
def Event.Before (e e' : Event) : Prop := ∀ m n, e.Reads m → e'.Reads n → m ≤ n

/-- When an event touches the mapping of a source: an arrival from it that is
given a flow, or a reply that is sent to it. -/
def touchTime (limit : Nat) (service : UInt16) (peer : SocketAddr) (t : Traced) : Event → Option Nat
  | .arrival service' peer' now =>
    match (t.arrival limit service' peer' now).1 with
    | .ok (some _) => if service' = service ∧ peer' = peer then some now else none
    | _ => none
  | .expire _ => none
  | .reply service' id now =>
    match (t.reply service' id now).1 with
    | some (_, peer') => if service' = service ∧ peer' = peer then some now else none
    | none => none

def touches (limit idle : Nat) (service : UInt16) (peer : SocketAddr) :
    Traced → List Event → List Nat
  | _, [] => []
  | t, e :: rest =>
    (t.touchTime limit service peer e).toList ++
      touches limit idle service peer (t.step limit idle e) rest

variable {t : Traced} {limit idle now last : Nat} {id : UInt64} {service : UInt16}
  {peer : SocketAddr} {e : Event} {events mid : List Event}

/-- What a step does to one mapping. -/
inductive Moves (limit idle : Nat) (service : UInt16) (peer : SocketAddr) (t : Traced)
    (e : Event) : Prop
  -- It is made, or keeps its ID and gets a new time.
  | touched {id : UInt64} {now : Nat} (htime : t.touchTime limit service peer e = some now)
      (hold : t.flows.mapping service peer = none ∨ ∃ last, t.flows.mapping service peer =
        some (id, last))
      (hnew : (t.step limit idle e).flows.mapping service peer = some (id, now))
  | expired {clock : UInt64 → Nat} (he : e = .expire clock)
      (hnew : (t.step limit idle e).flows.mapping service peer =
        (t.flows.mapping service peer).filter fun entry => clock entry.1 - entry.2 < idle)
  | same (htime : t.touchTime limit service peer e = none)
      (hnew : (t.step limit idle e).flows.mapping service peer = t.flows.mapping service peer)

theorem Inv.moves_arrival (h : Inv limit t) (idle : Nat) (service' : UInt16)
    (peer' : SocketAddr) (now : Nat) :
    Moves limit idle service peer t (.arrival service' peer' now) := by
  have hresult : (t.arrival limit service' peer' now).1 =
      (t.flows.arrival limit ⟨service'⟩ service' peer' now).1 := rfl
  have hflows : (t.step limit idle (.arrival service' peer' now)).flows =
      (t.flows.arrival limit ⟨service'⟩ service' peer' now).2 := rfl
  obtain ⟨id, hid, hold, hnew⟩ | ⟨hno, -, hsame⟩ :=
    h.wf.mapping_arrival service peer ⟨service'⟩ service' peer' now
  · by_cases hown : service' = service ∧ peer' = peer
    · rw [if_pos hown] at hnew
      obtain ⟨rfl, rfl⟩ := hown
      refine .touched ?_ hold (hflows ▸ hnew)
      simp [touchTime, hresult, hid]
    · rw [if_neg hown] at hnew
      refine .same ?_ (hflows ▸ hnew)
      simp [touchTime, hresult, hid, hown]
  · refine .same ?_ (by rw [hflows, hsame])
    unfold touchTime
    dsimp only
    rw [hresult]
    split
    · rename_i id hid
      exact absurd hid (hno id)
    · rfl

theorem Inv.moves_reply (h : Inv limit t) (idle : Nat) (service' : UInt16)
    (id : UInt64) (now : Nat) :
    Moves limit idle service peer t (.reply service' id now) := by
  have hresult : (t.reply service' id now).1 = (t.flows.reply service' id now).1 := rfl
  have hflows : (t.step limit idle (.reply service' id now)).flows =
      (t.flows.reply service' id now).2 := rfl
  obtain ⟨flow, hflow, rfl, hreply⟩ | ⟨-, hreply⟩ := Flows.reply_cases service' id now t.flows
  · have hnew : (t.step limit idle (.reply flow.service id now)).flows.mapping service peer =
        if flow.service = service ∧ flow.peer = peer then some (id, now)
          else t.flows.mapping service peer := by
      rw [hflows, hreply]
      exact h.wf.mapping_touch hflow now service peer
    by_cases hown : flow.service = service ∧ flow.peer = peer
    · rw [if_pos hown] at hnew
      have hpeer := (h.wf.inverse service peer id).mpr ⟨flow, hflow, hown⟩
      refine .touched ?_ (.inr ⟨_, Flows.mapping_of_lookup hpeer hflow⟩) hnew
      simp only [touchTime, hresult, hreply, if_pos hown]
    · rw [if_neg hown] at hnew
      refine .same ?_ hnew
      simp only [touchTime, hresult, hreply, if_neg hown]
  · refine .same ?_ ?_
    · simp [touchTime, hresult, hreply]
    · rw [hflows, hreply]

theorem Inv.moves (h : Inv limit t) (idle : Nat) (service : UInt16)
    (peer : SocketAddr) (e : Event) :
    Moves limit idle service peer t e := by
  cases e with
  | arrival service' peer' now => exact h.moves_arrival idle service' peer' now
  | expire clock => exact .expired rfl h.wf.mapping_expire
  | reply service' id now => exact h.moves_reply idle service' id now

-- ---------------------------------------------------------------------------
-- Whole runs
-- ---------------------------------------------------------------------------

theorem run_concat (limit idle : Nat) (events : List Event) (e : Event) :
    run limit idle (events ++ [e]) = (run limit idle events).step limit idle e := by
  simp [run]

theorem touches_append (t : Traced) (events events' : List Event) :
    t.touches limit idle service peer (events ++ events') =
      t.touches limit idle service peer events ++
        (events.foldl (step limit idle) t).touches limit idle service peer events' := by
  induction events generalizing t with
  | nil => rfl
  | cons e rest ih => simp [touches, ih]

theorem reads_touchTime (h : t.touchTime limit service peer e = some now) : e.Reads now := by
  unfold touchTime at h
  split at h
  · split at h
    · split at h
      · cases h
        rfl
      · cases h
    · cases h
  · cases h
  · split at h
    · split at h
      · cases h
        rfl
      · cases h
    · cases h

theorem reads_touches (h : now ∈ t.touches limit idle service peer events) :
    ∃ e ∈ events, e.Reads now := by
  induction events generalizing t with
  | nil => cases h
  | cons e rest ih =>
    rcases List.mem_append.mp h with h | h
    · exact ⟨e, List.mem_cons_self, reads_touchTime (Option.mem_toList.mp h)⟩
    · obtain ⟨e', he', hreads⟩ := ih h
      exact ⟨e', List.mem_cons_of_mem e he', hreads⟩

theorem Inv.foldl (h : Inv limit t) (idle : Nat) (events : List Event) :
    Inv limit (events.foldl (Traced.step limit idle) t) :=
  List.foldlRecOn events (Traced.step limit idle) h fun _ h event _ => h.step idle event

/-- What was read before the next touch was read in time. -/
theorem gap_of_reads (hread : e.Reads n)
    (hbefore : ∀ e' ∈ mid ++ [Event.arrival service peer now], e.Before e')
    (hgaps : (last :: (t.touches limit idle service peer mid ++ [now])).IsChain fun a b =>
      b - a < idle) :
    n - last < idle := by
  obtain ⟨next, later, hnext⟩ :=
    List.exists_cons_of_ne_nil (List.append_ne_nil_of_right_ne_nil
      (t.touches limit idle service peer mid) (List.cons_ne_nil now []))
  have hmem : next ∈ t.touches limit idle service peer mid ++ [now] := hnext ▸ List.mem_cons_self
  have hle : n ≤ next := by
    rcases List.mem_append.mp hmem with hmem | hmem
    · obtain ⟨e', he', hreads⟩ := reads_touches hmem
      exact hbefore e' (List.mem_append_left _ he') n next hread hreads
    · rw [List.mem_singleton.mp hmem]
      exact hbefore _ (List.mem_append_right _ List.mem_cons_self) n now hread rfl
  rw [hnext, List.isChain_cons_cons] at hgaps
  exact (Nat.sub_le_sub_right hle last).trans_lt hgaps.1

/-- A mapping outlives every run in which it is never untouched for `idle`, up
to the arrival the run ends with. -/
theorem Inv.mapped_foldl (h : Inv limit t) (hm : t.flows.mapping service peer = some (id, last))
    (horder : (mid ++ [Event.arrival service peer now]).Pairwise Event.Before)
    (hgaps : (last :: (t.touches limit idle service peer mid ++ [now])).IsChain fun a b =>
      b - a < idle) :
    ∃ last', (mid.foldl (Traced.step limit idle) t).flows.mapping service peer =
      some (id, last') := by
  induction mid generalizing t last with
  | nil => exact ⟨last, hm⟩
  | cons e rest ih =>
    obtain ⟨hbefore, hrest⟩ := List.pairwise_cons.mp horder
    have hstep := h.step idle e
    cases h.moves idle service peer e with
    | touched htime hold hnew =>
      rcases hold with hnone | ⟨last', hold⟩
      · cases hm.symm.trans hnone
      cases hm.symm.trans hold
      simp only [touches, htime, Option.toList_some, List.cons_append,
        List.isChain_cons_cons] at hgaps
      exact ih hstep hnew hrest hgaps.2
    | same htime hnew =>
      simp only [touches, htime, Option.toList_none, List.nil_append] at hgaps
      exact ih hstep (hnew.trans hm) hrest hgaps
    | @expired clock he hnew =>
      subst he
      simp only [touches, touchTime, Option.toList_none, List.nil_append] at hgaps
      refine ih hstep ?_ hrest hgaps
      rw [hnew, hm, Option.filter_eq_some_iff]
      have hread : (Event.expire clock).Reads (clock id) := ⟨id, rfl⟩
      exact ⟨rfl, decide_eq_true (gap_of_reads hread hbefore hgaps)⟩

theorem Inv.mapped_arrival (h : Inv limit t)
    (hid : (t.arrival limit service peer now).1 = .ok (some id)) (idle : Nat) :
    (t.step limit idle (.arrival service peer now)).flows.mapping service peer =
      some (id, now) := by
  obtain ⟨id', hid', -, hnew⟩ | ⟨hno, -⟩ :=
    h.wf.mapping_arrival service peer ⟨service⟩ service peer now
  · cases hid.symm.trans hid'
    exact hnew.trans (if_pos ⟨rfl, rfl⟩)
  · exact absurd hid (hno id)

theorem Inv.arrival_again (h : Inv limit t)
    (hid : (t.arrival limit service peer start).1 = .ok (some id))
    (horder : (Event.arrival service peer start ::
      (mid ++ [Event.arrival service peer now])).Pairwise Event.Before)
    (hgaps : (start :: ((t.step limit idle (.arrival service peer start)).touches limit
      idle service peer
      mid ++ [now])).IsChain fun a b => b - a < idle) :
    ((mid.foldl (Traced.step limit idle) (t.step limit idle (.arrival service peer start))).arrival
      limit
      service peer now).1 = .ok (some id) := by
  have hstep := h.step idle (.arrival service peer start)
  obtain ⟨-, hrest⟩ := List.pairwise_cons.mp horder
  obtain ⟨last, hlast⟩ := hstep.mapped_foldl (h.mapped_arrival hid idle) hrest hgaps
  exact (hstep.foldl idle mid).wf.arrival_mapped hlast ⟨service⟩ now

theorem last_touch (hm : (run limit idle events).flows.mapping service peer = some (id, last)) :
    (new.touches limit idle service peer events).getLast? = some last := by
  induction events using List.reverseRecOn generalizing id last with
  | nil => simp [run, new, Flows.new, Flows.mapping] at hm
  | append_singleton events e ih =>
    rw [run_concat] at hm
    rw [touches_append]
    simp only [touches, List.append_nil]
    cases (inv_run limit idle events).moves idle service peer e with
    | touched htime hold hnew =>
      cases hnew.symm.trans hm
      rw [run] at htime
      simp [htime]
    | same htime hnew =>
      rw [run] at htime
      rw [htime, Option.toList_none, List.append_nil]
      exact ih (hnew.symm.trans hm)
    | expired he hnew =>
      subst he
      rw [touchTime, Option.toList_none, List.append_nil]
      rw [hnew, Option.filter_eq_some_iff] at hm
      exact ih hm.1

theorem expire_mapped {clock : UInt64 → Nat}
    (horder : (events ++ [Event.expire clock]).Pairwise Event.Before)
    (hpeer : (run limit idle events).flows.byPeer.lookup (service, peer) = some id) :
    let before := (run limit idle events).flows
    let after := before.expire idle clock
    ∃ last, (new.touches limit idle service peer events).getLast? = some last ∧
      (last + idle ≤ clock id →
        after.byPeer.lookup (service, peer) = none ∧ after.byId.lookup id = none) ∧
      (clock id < last + idle →
        after.byPeer.lookup (service, peer) = some id ∧
          after.byId.lookup id = before.byId.lookup id) := by
  intro before after
  have hwf : before.Wf limit := (inv_run limit idle events).wf
  obtain ⟨flow, hflow, -⟩ := (hwf.inverse service peer id).mp hpeer
  have hlast := last_touch (Flows.mapping_of_lookup hpeer hflow)
  -- The last touch was read before the clock of the expiry.
  obtain ⟨e, he, hreads⟩ := reads_touches (List.mem_of_getLast? hlast)
  have hle : flow.touched ≤ clock id :=
    (List.pairwise_append.mp horder).2.2 e he _ List.mem_cons_self _ _ hreads ⟨id, rfl⟩
  refine ⟨flow.touched, hlast, fun hidle => hwf.expire_idle hpeer hflow ?_, fun hlive => ?_⟩
  · omega
  · rw [hflow]
    exact hwf.expire_live hpeer hflow (by omega)

/-- Along every run in which the clock does not go back. A source that was given
a flow, and whose mapping is touched again before `idle` has passed, each time
until its next arrival, is given the same flow then, whatever happens to other
sources in between. An expiry removes the mappings whose last touch is `idle` or
more in the past from both maps, leaves both entries of every other as they are,
and adds none. -/
theorem mapping_lifetime (limit idle : Nat) (events : List Event) :
    (∀ service peer start id mid now,
      (events ++ Event.arrival service peer start ::
        (mid ++ [Event.arrival service peer now])).Pairwise Event.Before →
      ((run limit idle events).arrival limit service peer start).1 = .ok (some id) →
      (start :: ((run limit idle (events ++ [.arrival service peer start])).touches limit
        idle service peer
        mid ++ [now])).IsChain (fun a b => b - a < idle) →
      ((run limit idle (events ++ .arrival service peer start :: mid)).arrival limit
        service peer now).1 =
        .ok (some id)) ∧
    ∀ clock, (events ++ [Event.expire clock]).Pairwise Event.Before →
      let before := (run limit idle events).flows
      let after := (run limit idle (events ++ [.expire clock])).flows
      (∀ service peer id, before.byPeer.lookup (service, peer) = some id →
        ∃ last, (new.touches limit idle service peer events).getLast? = some last ∧
          (last + idle ≤ clock id →
            after.byPeer.lookup (service, peer) = none ∧ after.byId.lookup id = none) ∧
          (clock id < last + idle →
            after.byPeer.lookup (service, peer) = some id ∧
              after.byId.lookup id = before.byId.lookup id)) ∧
      (∀ service peer, before.byPeer.lookup (service, peer) = none →
        after.byPeer.lookup (service, peer) = none) ∧
      ∀ id, before.byId.lookup id = none → after.byId.lookup id = none := by
  have h := inv_run limit idle events
  constructor
  · intro service peer start id mid now horder hstart hgaps
    rw [run_concat] at hgaps
    have hrun : run limit idle (events ++ .arrival service peer start :: mid) =
        mid.foldl (step limit idle)
          ((run limit idle events).step limit idle (.arrival service peer start)) := by
      simp [run]
    rw [hrun]
    exact h.arrival_again hstart (List.pairwise_append.mp horder).2.1 hgaps
  · intro clock horder before after
    have hafter : after = before.expire idle clock := by
      simp [after, before, run_concat, step, expire]
    rw [hafter]
    refine ⟨fun service peer id hpeer => expire_mapped horder hpeer,
      fun service peer hnone => h.wf.expire_none hnone, fun id hnone => ?_⟩
    rw [Option.eq_none_iff_forall_ne_some]
    intro flow hflow
    cases hnone.symm.trans (Flows.lookup_expire.mp hflow).1

/-- A table with room for one flow: a second source is refused, and the first
keeps its flow over two expiries because of a reply; left alone, it is gone. -/
theorem mapping_lifetime_one_flow :
    ((run 1 10 [.arrival 3 (.v4 1 1) 0, .expire fun _ => 5, .arrival 4 (.v4 2 2) 6, .reply 3 0 8,
        .expire fun _ => 12]).arrival 1 3 (.v4 1 1) 15).1 = .ok (some 0) ∧
      (run 1 10 [.arrival 3 (.v4 1 1) 0, .expire fun _ => 10]).flows.byPeer.lookup (3, .v4 1 1) =
        none := by
  have hkept := (mapping_lifetime 1 10 []).1 3 (.v4 1 1) 0 0
    [.expire fun _ => 5, .arrival 4 (.v4 2 2) 6, .reply 3 0 8, .expire fun _ => 12] 15
    (by simp [Event.Before, Event.Reads]) (by decide +kernel) (by decide +kernel)
  obtain ⟨hgone, -⟩ := (mapping_lifetime 1 10 [.arrival 3 (.v4 1 1) 0]).2 (fun _ => 10)
    (by simp [Event.Before, Event.Reads])
  obtain ⟨last, hlast, hidle, -⟩ := hgone 3 (.v4 1 1) 0 (by decide +kernel)
  have hzero : (new.touches 1 10 3 (.v4 1 1) [.arrival 3 (.v4 1 1) 0]).getLast? = some 0 := by
    decide +kernel
  cases hlast.symm.trans hzero
  exact ⟨hkept, (hidle (Nat.le_refl 10)).1⟩

end Traced

end Cathole
