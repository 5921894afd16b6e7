import Cathole.Address
import Cathole.Lib.Table
import Cathole.Lib.Words

/-!
# The server's flow table

`Flows` of `proxy/server.rs` and the three places that lock it: a public
datagram in `udp_listener`, the expiry tick, and a reply in the session loop.
`touched.elapsed()` reads the clock anew for every entry, so `expire` takes a
reading per flow ID.

The table is two maps, and `Wf` says that they are inverse to each other. A
`Traced` table also remembers every ID it has handed out, which is what "never
allocated twice" is about.
-/

namespace Cathole

/-- A public UDP socket. Every UDP listener of a session has one of its own, so
the position of the listener identifies it. -/
structure UdpSocket where
  listener : UInt16
  deriving DecidableEq, Repr

structure Flow where
  service : UInt16
  peer : SocketAddr
  socket : UdpSocket
  touched : Nat
  deriving DecidableEq, Repr

structure Flows where
  next : UInt64
  byId : Table UInt64 Flow
  byPeer : Table (UInt16 × SocketAddr) UInt64
  deriving DecidableEq

namespace Flows

def new : Flows where
  next := 0
  byId := ∅
  byPeer := ∅

def expire (idle : Nat) (clock : UInt64 → Nat) (f : Flows) : Flows :=
  let byId := f.byId.retain fun id flow => clock id - flow.touched < idle
  { f with
    byId
    byPeer := f.byPeer.retain fun _ id => id ∈ byId }

def touch (id : UInt64) (flow : Flow) (now : Nat) (f : Flows) : Flows :=
  { f with byId := f.byId.insert id { flow with touched := now } }

/-- The locked region of `udp_listener`: the flow of a datagram from `peer`. -/
def arrival (limit : Nat) (socket : UdpSocket) (service : UInt16) (peer : SocketAddr) (now : Nat)
    (f : Flows) : Except Fault (Option UInt64) × Flows :=
  match f.byPeer.lookup (service, peer) with
  | some id =>
    match f.byId.lookup id with
    | some flow => (.ok (some id), f.touch id flow now)
    | none => (.error .panic, f)
  | none =>
    if f.byId.size < limit then
      match Words.checkedSucc f.next with
      | some next =>
        (.ok (some f.next),
          { next
            byPeer := f.byPeer.insert (service, peer) f.next
            byId := f.byId.insert f.next { service, peer, socket, touched := now } })
      | none => (.error (.message "flow IDs exhausted"), f)
    else (.ok none, f)

/-- The locked region of the session loop: where a reply goes. -/
def reply (service : UInt16) (id : UInt64) (now : Nat) (f : Flows) :
    Option (UdpSocket × SocketAddr) × Flows :=
  match f.byId.lookup id with
  | some flow =>
    if flow.service = service then (some (flow.socket, flow.peer), f.touch id flow now)
    else (none, f)
  | none => (none, f)

-- ---------------------------------------------------------------------------
-- The two maps stay inverse to each other
-- ---------------------------------------------------------------------------

structure Wf (limit : Nat) (f : Flows) : Prop where
  inverse : ∀ service peer id, f.byPeer.lookup (service, peer) = some id ↔
    ∃ flow, f.byId.lookup id = some flow ∧ flow.service = service ∧ flow.peer = peer
  socket : ∀ id flow, f.byId.lookup id = some flow → flow.socket = ⟨flow.service⟩
  below : ∀ id flow, f.byId.lookup id = some flow → id < f.next
  size : f.byId.size ≤ limit

variable {f : Flows} {limit now idle : Nat} {clock : UInt64 → Nat}
  {id key next : UInt64} {flow flow' old : Flow}

theorem wf_new (limit : Nat) : Wf limit new where
  inverse := by simp [new]
  socket := by simp [new]
  below := by simp [new]
  size := Nat.zero_le limit

theorem Wf.size_byPeer (h : Wf limit f) : f.byPeer.size ≤ limit := by
  refine (AList.size_le_of_values (u := f.byId) ?_ ?_).trans h.size
  · rintro ⟨service, peer⟩ id hp
    obtain ⟨flow, hflow, -⟩ := (h.inverse service peer id).mp hp
    exact AList.mem_of_lookup hflow
  · rintro ⟨service, peer⟩ ⟨service', peer'⟩ id hp hp'
    obtain ⟨flow, hflow, rfl, rfl⟩ := (h.inverse service peer id).mp hp
    obtain ⟨flow', hflow', rfl, rfl⟩ := (h.inverse service' peer' id).mp hp'
    cases hflow.symm.trans hflow'
    rfl

theorem lookup_expire :
    (f.expire idle clock).byId.lookup id = some flow ↔
      f.byId.lookup id = some flow ∧ clock id - flow.touched < idle := by
  simp [expire, AList.lookup_retain_eq_some]

theorem Wf.expire (h : Wf limit f) : Wf limit (f.expire idle clock) where
  inverse := by
    intro service peer id
    have hkeep : (f.expire idle clock).byPeer.lookup (service, peer) = some id ↔
        f.byPeer.lookup (service, peer) = some id ∧ id ∈ (f.expire idle clock).byId := by
      simp [Flows.expire, AList.lookup_retain_eq_some]
    rw [hkeep, h.inverse]
    constructor
    · rintro ⟨⟨flow, hflow, hs, hp⟩, hmem⟩
      obtain ⟨flow', hflow'⟩ := Option.isSome_iff_exists.mp (AList.lookup_isSome.mpr hmem)
      cases hflow.symm.trans (lookup_expire.mp hflow').1
      exact ⟨flow, hflow', hs, hp⟩
    · rintro ⟨flow, hflow, hs, hp⟩
      exact ⟨⟨flow, (lookup_expire.mp hflow).1, hs, hp⟩, AList.mem_of_lookup hflow⟩
  socket := fun id flow hflow => h.socket id flow (lookup_expire.mp hflow).1
  below := fun id flow hflow => h.below id flow (lookup_expire.mp hflow).1
  size := AList.size_retain_le.trans h.size

theorem lookup_touch (hflow : f.byId.lookup id = some flow)
    (h : (f.touch id flow now).byId.lookup key = some flow') :
    ∃ old, f.byId.lookup key = some old ∧ flow'.service = old.service ∧ flow'.peer = old.peer ∧
      flow'.socket = old.socket := by
  rw [touch, AList.lookup_insert_eq] at h
  split at h
  · rename_i hkey
    subst hkey
    cases h
    exact ⟨flow, hflow, rfl, rfl, rfl⟩
  · exact ⟨flow', h, rfl, rfl, rfl⟩

theorem lookup_touch_of (hflow : f.byId.lookup id = some flow) (h : f.byId.lookup key = some old) :
    ∃ flow', (f.touch id flow now).byId.lookup key = some flow' ∧ flow'.service = old.service ∧
      flow'.peer = old.peer := by
  rw [touch, AList.lookup_insert_eq]
  split
  · rename_i hkey
    subst hkey
    cases hflow.symm.trans h
    exact ⟨_, rfl, rfl, rfl⟩
  · exact ⟨old, h, rfl, rfl⟩

theorem Wf.touch (h : Wf limit f) (hflow : f.byId.lookup id = some flow) :
    Wf limit (f.touch id flow now) where
  inverse := by
    intro service peer key
    refine (h.inverse service peer key).trans ⟨?_, ?_⟩
    · rintro ⟨old, hold, rfl, rfl⟩
      exact lookup_touch_of hflow hold
    · rintro ⟨new, hnew, rfl, rfl⟩
      obtain ⟨old, hold, hs, hp, -⟩ := lookup_touch hflow hnew
      exact ⟨old, hold, hs.symm, hp.symm⟩
  socket := by
    intro key new hnew
    obtain ⟨old, hold, hs, -, hsocket⟩ := lookup_touch hflow hnew
    rw [hsocket, hs]
    exact h.socket key old hold
  below := by
    intro key new hnew
    obtain ⟨old, hold, -⟩ := lookup_touch hflow hnew
    exact h.below key old hold
  size := by
    rw [Flows.touch, AList.size_insert_of_mem (AList.mem_of_lookup hflow)]
    exact h.size

inductive Arrives (limit : Nat) (socket : UdpSocket) (service : UInt16)
    (peer : SocketAddr) (now : Nat) (f : Flows) : Except Fault (Option UInt64) × Flows → Prop
  | known {id : UInt64} {flow : Flow} (hpeer : f.byPeer.lookup (service, peer) = some id)
      (hflow : f.byId.lookup id = some flow) (hservice : flow.service = service)
      (hsource : flow.peer = peer) :
      Arrives limit socket service peer now f (.ok (some id), f.touch id flow now)
  | allocated {next : UInt64} (hpeer : f.byPeer.lookup (service, peer) = none)
      (hroom : f.byId.size < limit) (hnext : Words.checkedSucc f.next = some next) :
      Arrives limit socket service peer now f
        (.ok (some f.next),
          { next
            byPeer := f.byPeer.insert (service, peer) f.next
            byId := f.byId.insert f.next { service, peer, socket, touched := now } })
  | exhausted (hpeer : f.byPeer.lookup (service, peer) = none)
      (hnext : f.next.toNat = 2 ^ 64 - 1) :
      Arrives limit socket service peer now f (.error (.message "flow IDs exhausted"), f)
  | full (hpeer : f.byPeer.lookup (service, peer) = none) (hfull : limit ≤ f.byId.size) :
      Arrives limit socket service peer now f (.ok none, f)

theorem Wf.arrives (h : Wf limit f) (socket : UdpSocket) (service : UInt16) (peer : SocketAddr)
    (now : Nat) : Arrives limit socket service peer now f
    (f.arrival limit socket service peer now) := by
  unfold arrival
  cases hpeer : f.byPeer.lookup (service, peer) with
  | some id =>
    -- The maps agree, so the `unwrap` finds the flow.
    obtain ⟨flow, hflow, hservice, hsource⟩ := (h.inverse service peer id).mp hpeer
    simpa [hflow] using .known hpeer hflow hservice hsource
  | none =>
    by_cases hroom : f.byId.size < limit
    · cases hnext : Words.checkedSucc f.next with
      | some next => simpa [hroom] using .allocated hpeer hroom hnext
      | none => simpa [hroom] using .exhausted hpeer (Words.checkedSucc_none.mp hnext)
    · simpa [hroom] using .full hpeer (Nat.not_lt.mp hroom)

theorem lt_next (h : Words.checkedSucc n = some next) (hid : id < n ∨ id = n) : id < next := by
  have hsucc := Words.checkedSucc_some h
  rw [UInt64.lt_iff_toNat_lt, hsucc]
  rcases hid with hid | rfl
  · exact Nat.lt_succ_of_lt (UInt64.lt_iff_toNat_lt.mp hid)
  · exact Nat.lt_succ_self _

theorem Wf.notMem_next (h : Wf limit f) : f.next ∉ f.byId := by
  intro hmem
  obtain ⟨flow, hflow⟩ := Option.isSome_iff_exists.mp (AList.lookup_isSome.mpr hmem)
  exact absurd (h.below _ flow hflow) (UInt64.lt_irrefl _)

/-- A new flow goes into both maps under an ID that neither held. -/
theorem Wf.allocate (h : Wf limit f) (hpeer : f.byPeer.lookup (service, peer) = none)
    (hroom : f.byId.size < limit) (hnext : Words.checkedSucc f.next = some next) :
    Wf limit
      { next
        byPeer := f.byPeer.insert (service, peer) f.next
        byId := f.byId.insert f.next { service, peer, socket := ⟨service⟩, touched := now } } where
  inverse := by
    intro service' peer' id
    simp only [AList.lookup_insert_eq]
    by_cases hid : id = f.next
    · -- The new ID belongs to the new pair and, being new, to no other.
      subst hid
      simp only [↓reduceIte, Option.some.injEq, exists_eq_left']
      constructor
      · intro hl
        split at hl
        · rename_i hkey
          cases hkey
          exact ⟨rfl, rfl⟩
        · obtain ⟨flow, hflow, -⟩ := (h.inverse service' peer' f.next).mp hl
          exact absurd (AList.mem_of_lookup hflow) h.notMem_next
      · rintro ⟨rfl, rfl⟩
        simp
    · rw [if_neg hid, ← h.inverse]
      split
      · rename_i hkey
        cases hkey
        simp [hpeer, Ne.symm hid]
      · exact Iff.rfl
  socket := by
    intro id flow hflow
    rw [AList.lookup_insert_eq] at hflow
    split at hflow
    · cases hflow
      rfl
    · exact h.socket id flow hflow
  below := by
    intro id flow hflow
    rw [AList.lookup_insert_eq] at hflow
    split at hflow
    · rename_i hid
      exact lt_next hnext (.inr hid)
    · exact lt_next hnext (.inl (h.below id flow hflow))
  size := by
    rw [AList.size_insert_of_notMem h.notMem_next]
    exact hroom

/-- A reply touches the live flow it matches, and nothing else happens. -/
theorem reply_cases (service : UInt16) (id : UInt64) (now : Nat) (f : Flows) :
    (∃ flow, f.byId.lookup id = some flow ∧ flow.service = service ∧
      f.reply service id now = (some (flow.socket, flow.peer), f.touch id flow now)) ∨
    ((∀ flow, f.byId.lookup id = some flow → flow.service ≠ service) ∧
      f.reply service id now = (none, f)) := by
  unfold reply
  cases hflow : f.byId.lookup id with
  | none => simp
  | some flow => by_cases hs : flow.service = service <;> simp [hs]

end Flows

-- ---------------------------------------------------------------------------
-- IDs over a whole session
-- ---------------------------------------------------------------------------

structure Allocation where
  id : UInt64
  service : UInt16
  peer : SocketAddr
  deriving DecidableEq, Repr

structure Traced where
  flows : Flows
  allocated : List Allocation
  deriving DecidableEq

namespace Traced

def new : Traced where
  flows := .new
  allocated := []

def arrival (limit : Nat) (service : UInt16) (peer : SocketAddr) (now : Nat) (t : Traced) :
    Except Fault (Option UInt64) × Traced :=
  let (result, flows) := t.flows.arrival limit ⟨service⟩ service peer now
  let fresh : List Allocation :=
    match t.flows.byPeer.lookup (service, peer), result with
    | none, .ok (some id) => [⟨id, service, peer⟩]
    | _, _ => []
  (result, { flows, allocated := t.allocated ++ fresh })

def expire (idle : Nat) (clock : UInt64 → Nat) (t : Traced) : Traced :=
  { t with flows := t.flows.expire idle clock }

def reply (service : UInt16) (id : UInt64) (now : Nat) (t : Traced) :
    Option (UdpSocket × SocketAddr) × Traced :=
  let (destination, flows) := t.flows.reply service id now
  (destination, { t with flows })

structure Inv (limit : Nat) (t : Traced) : Prop where
  wf : t.flows.Wf limit
  recorded : ∀ id flow, t.flows.byId.lookup id = some flow →
    ⟨id, flow.service, flow.peer⟩ ∈ t.allocated
  below : ∀ a ∈ t.allocated, a.id < t.flows.next
  nodup : (t.allocated.map (·.id)).Nodup

variable {t : Traced} {limit now : Nat} {id : UInt64} {flow : Flow}

theorem inv_new (limit : Nat) : Inv limit new where
  wf := Flows.wf_new limit
  recorded := by simp [new, Flows.new]
  below := by simp [new]
  nodup := .nil

theorem Inv.unique (h : Inv limit t) (ha : a ∈ t.allocated) (ha' : a' ∈ t.allocated)
    (hid : a.id = a'.id) : a = a' :=
  List.inj_on_of_nodup_map h.nodup ha ha' hid

theorem Inv.touch (h : Inv limit t) (hflow : t.flows.byId.lookup id = some flow) :
    Inv limit { t with flows := t.flows.touch id flow now } where
  wf := h.wf.touch hflow
  recorded := by
    intro key new hnew
    obtain ⟨old, hold, hs, hp, -⟩ := Flows.lookup_touch hflow hnew
    rw [hs, hp]
    exact h.recorded key old hold
  below := h.below
  nodup := h.nodup

theorem Inv.allocate (h : Inv limit t) (hpeer : t.flows.byPeer.lookup (service, peer) = none)
    (hroom : t.flows.byId.size < limit) (hnext : Words.checkedSucc t.flows.next = some next) :
    Inv limit
      { flows :=
          { next
            byPeer := t.flows.byPeer.insert (service, peer) t.flows.next
            byId := t.flows.byId.insert t.flows.next
              { service, peer, socket := ⟨service⟩, touched := now } }
        allocated := t.allocated ++ [⟨t.flows.next, service, peer⟩] } where
  wf := h.wf.allocate hpeer hroom hnext
  recorded := by
    intro id flow hflow
    simp only [AList.lookup_insert_eq] at hflow
    split at hflow
    · rename_i hid
      cases hflow
      simp [hid]
    · exact List.mem_append_left _ (h.recorded id flow hflow)
  below := by
    intro a ha
    rcases List.mem_append.mp ha with ha | ha
    · exact Flows.lt_next hnext (.inl (h.below a ha))
    · cases List.mem_singleton.mp ha
      exact Flows.lt_next hnext (.inr rfl)
  nodup := by
    rw [List.map_append]
    refine List.Nodup.append h.nodup (List.nodup_singleton _) ?_
    intro id hid hnew
    obtain ⟨a, ha, rfl⟩ := List.mem_map.mp hid
    have hlt := h.below a ha
    rw [List.mem_singleton.mp hnew] at hlt
    exact absurd hlt (UInt64.lt_irrefl _)

/-- An arrival keeps the invariant, and a flow it names was allocated to the
arriving pair. -/
theorem Inv.arrival (h : Inv limit t) (service : UInt16) (peer : SocketAddr) (now : Nat) :
    Inv limit (t.arrival limit service peer now).2 ∧
      ∀ id, (t.arrival limit service peer now).1 = .ok (some id) →
        ⟨id, service, peer⟩ ∈ (t.arrival limit service peer now).2.allocated := by
  unfold Traced.arrival
  have harrives := h.wf.arrives ⟨service⟩ service peer now
  generalize t.flows.arrival limit ⟨service⟩ service peer now = outcome at harrives
  cases harrives with
  | known hpeer hflow hservice hsource =>
    simp only [hpeer, List.append_nil]
    refine ⟨h.touch hflow, fun id hid => ?_⟩
    cases hid
    exact hservice ▸ hsource ▸ h.recorded _ _ hflow
  | allocated hpeer hroom hnext =>
    simp only [hpeer]
    refine ⟨h.allocate hpeer hroom hnext, fun id hid => ?_⟩
    cases hid
    simp
  | exhausted hpeer | full hpeer => simpa [hpeer] using h

theorem Inv.expire (h : Inv limit t) (idle : Nat) (clock : UInt64 → Nat) :
    Inv limit (t.expire idle clock) where
  wf := h.wf.expire
  recorded := fun id flow hflow => h.recorded id flow (Flows.lookup_expire.mp hflow).1
  below := h.below
  nodup := h.nodup

/-- A reply keeps the invariant, and its destination is the socket and the peer
its flow was allocated to. -/
theorem Inv.reply (h : Inv limit t) (service : UInt16) (id : UInt64) (now : Nat) :
    Inv limit (t.reply service id now).2 ∧ (t.reply service id now).2.allocated = t.allocated ∧
      ∀ socket peer, (t.reply service id now).1 = some (socket, peer) →
        socket = ⟨service⟩ ∧ ⟨id, service, peer⟩ ∈ t.allocated := by
  unfold Traced.reply
  obtain ⟨flow, hflow, rfl, he⟩ | ⟨-, he⟩ := Flows.reply_cases service id now t.flows
  · rw [he]
    refine ⟨h.touch hflow, rfl, fun socket peer hd => ?_⟩
    cases hd
    exact ⟨h.wf.socket id flow hflow, h.recorded id flow hflow⟩
  · rw [he]
    exact ⟨h, rfl, fun socket peer hd => by cases hd⟩

inductive Event
  | arrival (service : UInt16) (peer : SocketAddr) (now : Nat)
  | expire (clock : UInt64 → Nat)
  | reply (service : UInt16) (id : UInt64) (now : Nat)

def step (limit idle : Nat) (t : Traced) : Event → Traced
  | .arrival service peer now => (t.arrival limit service peer now).2
  | .expire clock => t.expire idle clock
  | .reply service id now => (t.reply service id now).2

def run (limit idle : Nat) (events : List Event) : Traced := events.foldl (step limit idle) new

theorem Inv.step (h : Inv limit t) (idle : Nat) (event : Event) :
    Inv limit (t.step limit idle event) := by
  cases event with
  | arrival service peer now => exact (h.arrival service peer now).1
  | expire clock => exact h.expire idle clock
  | reply service id now => exact (h.reply service id now).1

theorem inv_run (limit idle : Nat) (events : List Event) : Inv limit (run limit idle events) :=
  List.foldlRecOn events (Traced.step limit idle) (inv_new limit)
    fun _ h event _ => h.step idle event

/-- In every state the table can reach, by arrivals, expiry and replies in any
order: the two maps are inverse to each other and every flow has the socket of
its service; IDs in use are below the counter, and none was allocated twice; the
table stays within its limit; an arrival does not panic; and a refused arrival
or an unmatched reply changes nothing. -/
theorem table_consistent (limit idle : Nat) (events : List Event) :
    let t := run limit idle events
    (∀ service peer id, t.flows.byPeer.lookup (service, peer) = some id ↔
      ∃ flow, t.flows.byId.lookup id = some flow ∧ flow.service = service ∧ flow.peer = peer) ∧
    (∀ id flow, t.flows.byId.lookup id = some flow →
      flow.socket = ⟨flow.service⟩ ∧ id < t.flows.next) ∧
    (t.allocated.map (·.id)).Nodup ∧
    t.flows.byId.size ≤ limit ∧ t.flows.byPeer.size ≤ limit ∧
    (∀ socket service peer now, (t.flows.arrival limit socket service peer now).1 ≠ .error .panic) ∧
    (∀ socket service peer now, t.flows.byPeer.lookup (service, peer) = none →
      limit ≤ t.flows.byId.size ∨ t.flows.next.toNat = 2 ^ 64 - 1 →
      (t.flows.arrival limit socket service peer now).2 = t.flows) ∧
    (∀ service id now, (∀ flow, t.flows.byId.lookup id = some flow → flow.service ≠ service) →
      t.flows.reply service id now = (none, t.flows)) := by
  intro t
  have h : Inv limit t := inv_run limit idle events
  refine ⟨h.wf.inverse, fun id flow hflow => ⟨h.wf.socket id flow hflow, h.wf.below id flow hflow⟩,
    h.nodup, h.wf.size, h.wf.size_byPeer, ?_, ?_, ?_⟩
  · intro socket service peer now
    have harrives := h.wf.arrives socket service peer now
    generalize t.flows.arrival limit socket service peer now = outcome at harrives
    cases harrives <;> simp
  · intro socket service peer now hnew hrefused
    have harrives := h.wf.arrives socket service peer now
    generalize t.flows.arrival limit socket service peer now = outcome at harrives
    cases harrives with
    | known hpeer => cases hnew.symm.trans hpeer
    | allocated _ hroom hnext =>
      rcases hrefused with hfull | hlast
      · exact absurd hroom (Nat.not_lt.mpr hfull)
      · rw [Words.checkedSucc_none.mpr hlast] at hnext
        cases hnext
    | exhausted | full => rfl
  · intro service id now hnone
    obtain ⟨flow, hflow, hs, -⟩ | ⟨-, he⟩ := Flows.reply_cases service id now t.flows
    · exact absurd hs (hnone flow hflow)
    · exact he

end Traced

end Cathole
