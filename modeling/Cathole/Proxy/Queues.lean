import Cathole.Datagram.Input
import Cathole.Proxy.Client

/-!
# The client's flow map, its workers and their queues

A worker that has returned stays in `flows` until the loop joins it, and packets
for its key keep arriving in between. The permits of a payload travel with it
through the queue and the socket.

`Moves` lists what an action can do to the map, the workers and the semaphore,
with every packet, failure and exit of the code among four kinds of change;
`InStep` is kept by each kind, and so by every run.
-/

namespace Cathole

namespace Client

-- ---------------------------------------------------------------------------
-- What an action does
-- ---------------------------------------------------------------------------

inductive Moves (limit : Nat) (c c' : Client) : Prop
  -- At most the records of what was sent and received change.
  | noted (hflows : c'.flows = c.flows) (hworkers : c'.workers = c.workers)
      (hbytes : c'.queueBytes = c.queueBytes)
  | spawned {key : FlowKey} {destination : SocketAddr} (hnew : key ∉ c.flows)
      (hroom : c.flows.size < limit) (heq : c' = c.spawn key destination)
  -- A worker that has not returned gets a packet, goes on or returns.
  | advanced {i : Nat} {w w' : Worker} (hw : c.workers[i]? = some w) (hrunning : w.receiving = true)
      (hflows : c'.flows = c.flows) (hworkers : c'.workers = c.workers.set i w')
      (hkey : w'.key = w.key) (hphase : w'.phase ≠ .joined)
      (hslots : w'.queue.length ≤ max queueSlots w.queue.length)
      (hbytes : c'.queueBytes + w'.held = c.queueBytes + w.held)
  | joined {i : Nat} {w : Worker} (hw : c.workers[i]? = some w) (hexited : w.phase = .exited)
      (hflows : c'.flows = c.flows.erase w.key)
      (hworkers : c'.workers = c.workers.set i { w with phase := .joined })
      (hbytes : c'.queueBytes = c.queueBytes)

variable {c c' : Client} {w : Worker} {limit i : Nat}

theorem Moves.refl (limit : Nat) (c : Client) : Moves limit c c := .noted rfl rfl rfl

theorem running_of_phase (h : w.phase ≠ .exited) (h' : w.phase ≠ .joined) : w.receiving = true := by
  unfold Worker.receiving
  split
  · rename_i hphase
    exact absurd hphase h
  · rename_i hphase
    exact absurd hphase h'
  · rfl

theorem moves_exit (hw : c.workers[i]? = some w) (hrunning : w.receiving = true) :
    Moves limit c (c.exit i w) :=
  .advanced hw hrunning rfl rfl rfl (by simp) (by simp) (by simp [exit, Worker.held])

theorem not_joined (h : w.receiving = true) : w.phase ≠ .joined := by
  intro hphase
  simp [Worker.receiving, hphase] at h

theorem moves_trySend (payload : Bytes) (hbytes : weight payload ≤ c.queueBytes) :
    Moves limit c (c.trySend i payload) := by
  unfold trySend
  split
  · exact .refl limit c
  rename_i w hw
  split
  · rename_i hroom
    refine .advanced hw hroom.1 rfl rfl rfl (not_joined hroom.1) ?_ ?_
    · have hlen := hroom.2
      simp only [List.length_append, List.length_singleton]
      omega
    · simp only [Worker.held, List.map_append, List.map_singleton, List.sum_append,
        List.sum_singleton]
      omega
  · exact .refl limit c

theorem moves_enqueue (hc : c.enqueue key payload = .ok c') : Moves limit c c' := by
  unfold enqueue at hc
  split at hc
  · rename_i hbytes
    split at hc
    · cases hc
      exact moves_trySend payload hbytes
    · cases hc
  · cases hc
    exact .refl limit c

theorem moves_packet (hc : c.packet limit p = .ok c') : ∃ mid, Moves limit c mid ∧
    Moves limit mid c' := by
  unfold packet at hc
  split at hc
  · cases hc
    exact ⟨c, .refl limit c, .refl limit c⟩
  · dsimp only at hc
    split at hc
    · exact ⟨c, .refl limit c, moves_enqueue hc⟩
    · rename_i hnew
      split at hc
      · cases hc
        exact ⟨c, .refl limit c, .refl limit c⟩
      · rename_i hroom
        exact ⟨_, .spawned hnew (Nat.lt_of_not_le hroom) rfl, moves_enqueue hc⟩

theorem moves_workerStep (hw : c.workers[i]? = some w) (event : WorkerEvent) :
    Moves limit c (c.workerStep i event w) := by
  have hexit : ∀ {phase}, w.phase = phase → phase ≠ .exited → phase ≠ .joined →
      Moves limit c (c.exit i w) := by
    rintro _ rfl hexited hjoined
    exact moves_exit hw (running_of_phase hexited hjoined)
  unfold workerStep
  split
  · rename_i hphase
    exact .advanced hw (by simp [Worker.receiving, hphase]) rfl rfl rfl (by simp) (by simp)
      (by simp [setWorker, Worker.held, hphase])
  · exact hexit ‹_› (by simp) (by simp)
  · exact hexit ‹_› (by simp) (by simp)
  · rename_i payload queue hphase hqueue
    refine .advanced hw (by simp [Worker.receiving, hphase]) rfl rfl rfl (by simp) ?_ ?_
    · simp only [hqueue, List.length_cons]
      omega
    · simp only [setWorker, Worker.held, hphase, hqueue, List.map_cons, List.sum_cons]
      omega
  · split
    · exact .refl limit c
    · exact hexit ‹_› (by simp) (by simp)
  · rename_i payload hphase
    refine .advanced hw (by simp [Worker.receiving, hphase]) rfl rfl rfl (by simp) (by simp) ?_
    simp only [Worker.held, hphase]
    omega
  · exact hexit ‹_› (by simp) (by simp)
  · rename_i payload ok hphase
    dsimp only
    split
    · cases ok with
      | true => exact .noted rfl rfl rfl
      | false =>
        exact .advanced hw (by simp [Worker.receiving, hphase]) rfl rfl rfl (by simp) (by simp)
          (by simp [exit, Worker.held])
    · exact .noted rfl rfl rfl
  · exact hexit ‹_› (by simp) (by simp)
  · exact .refl limit c

theorem moves_step (limit : Nat) (c : Client) (action : ClientAction) :
    ∃ mid, Moves limit c mid ∧ Moves limit mid (c.step limit action) := by
  cases action with
  | packet p =>
    simp only [step]
    split
    · exact moves_packet ‹_›
    · exact ⟨c, .refl limit c, .refl limit c⟩
  | worker i event =>
    simp only [step]
    split
    · exact ⟨c, .refl limit c, moves_workerStep ‹_› event⟩
    · exact ⟨c, .refl limit c, .refl limit c⟩
  | join i =>
    simp only [step]
    split
    · rename_i w hw
      split
      · exact ⟨c, .refl limit c, .joined hw ‹_› rfl rfl rfl⟩
      · exact ⟨c, .refl limit c, .refl limit c⟩
    · exact ⟨c, .refl limit c, .refl limit c⟩

-- ---------------------------------------------------------------------------
-- What every run keeps
-- ---------------------------------------------------------------------------

def Unjoined (c : Client) (key : FlowKey) (i : Nat) : Prop :=
  ∃ w, c.workers[i]? = some w ∧ w.key = key ∧ w.phase ≠ .joined

/-- The map leads to the workers that are not joined, and the semaphore lacks
what the payloads under way hold. -/
structure InStep (limit : Nat) (c : Client) : Prop where
  flows : ∀ key i, c.flows.lookup key = some i ↔ c.Unjoined key i
  size : c.flows.size ≤ limit
  slots : ∀ w ∈ c.workers, w.queue.length ≤ queueSlots
  permits : c.queueBytes + (c.workers.map Worker.held).sum = queueBudget

theorem inStep_new (limit : Nat) (destinations : Table UInt16 SocketAddr) :
    InStep limit (new destinations) where
  flows := by simp [new, Unjoined]
  size := Nat.zero_le limit
  slots := by simp [new]
  permits := rfl

theorem sum_map_set {l : List α} (f : α → Nat) (h : l[i]? = some a) (b : α) :
    ((l.set i b).map f).sum + f a = (l.map f).sum + f b := by
  obtain ⟨hi, rfl⟩ := List.getElem?_eq_some_iff.mp h
  obtain ⟨front, back, hl, -, hset⟩ :
      ∃ front back, l = front ++ l[i] :: back ∧ front.length = i ∧ l.set i b = front ++ b :: back :=
    List.exists_of_set hi
  rw [hset, congrArg (List.map f) hl]
  simp only [List.map_append, List.map_cons, List.sum_append, List.sum_cons]
  omega

theorem unjoined_set {w' : Worker} (hw : c.workers[i]? = some w) (hkey : w'.key = w.key)
    (hphase : w.phase ≠ .joined) (hphase' : w'.phase ≠ .joined)
    (hworkers : c'.workers = c.workers.set i w') :
    c'.Unjoined key j ↔ c.Unjoined key j := by
  unfold Unjoined
  rw [hworkers, List.getElem?_set]
  split
  · rename_i hij
    subst hij
    rw [if_pos (List.getElem?_eq_some_iff.mp hw).1, hw]
    simp [hkey, hphase, hphase']
  · exact Iff.rfl

theorem unjoined_spawn :
    (c.spawn key destination).Unjoined key' i ↔ c.Unjoined key' i ∨ key' = key ∧
    i = c.workers.length := by
  simp only [Client.spawn, Unjoined]
  rcases Nat.lt_trichotomy i c.workers.length with hi | rfl | hi
  · simp [List.getElem?_append_left hi, Nat.ne_of_lt hi]
  · simp [eq_comm]
  · have hnone : c.workers[i]? = none := List.getElem?_eq_none (Nat.le_of_lt hi)
    have hnone' : (c.workers ++ [(⟨key, destination, [], .starting⟩ : Worker)])[i]? = none := by
      rw [List.getElem?_eq_none]
      simpa using hi
    simp [hnone, hnone', Nat.ne_of_gt hi]

theorem unjoined_join (hi : i < c.workers.length)
    (hworkers : c'.workers = c.workers.set i { w with phase := .joined }) :
    c'.Unjoined key j ↔ c.Unjoined key j ∧ i ≠ j := by
  unfold Unjoined
  rw [hworkers, List.getElem?_set]
  split
  · rename_i hij
    subst hij
    simp [hi]
  · rename_i hij
    simp [hij]

theorem InStep.spawn (h : InStep limit c) (hnew : key ∉ c.flows) (hroom : c.flows.size < limit)
    (destination : SocketAddr) : InStep limit (c.spawn key destination) where
  flows := by
    intro key' i
    rw [unjoined_spawn, ← h.flows, Client.spawn, AList.lookup_insert_eq]
    split
    · rename_i hkey
      subst hkey
      simp [AList.lookup_eq_none.mpr hnew, eq_comm]
    · rename_i hkey
      simp [hkey]
  size := by
    rw [Client.spawn, AList.size_insert_of_notMem hnew]
    exact hroom
  slots := by
    intro w hw
    rcases List.mem_append.mp hw with hw | hw
    · exact h.slots w hw
    · cases List.mem_singleton.mp hw
      exact Nat.zero_le _
  permits := by
    simp only [Client.spawn, List.map_append, List.sum_append]
    exact h.permits

theorem InStep.joined {w : Worker} (h : InStep limit c) (hw : c.workers[i]? = some w)
    (hexited : w.phase = .exited)
    (hflows : c'.flows = c.flows.erase w.key)
    (hworkers : c'.workers = c.workers.set i { w with phase := .joined })
    (hbytes : c'.queueBytes = c.queueBytes) : InStep limit c' where
  flows := by
    intro key j
    have hown : c.flows.lookup w.key = some i := (h.flows _ i).mpr ⟨w, hw, rfl, by simp [hexited]⟩
    rw [unjoined_join (List.getElem?_eq_some_iff.mp hw).1 hworkers, ← h.flows, hflows,
      AList.lookup_erase_eq]
    split
    · -- The key leads to the joined worker and to no other.
      rename_i hkey
      subst hkey
      simp [hown]
    · rename_i hkey
      refine (and_iff_left_of_imp ?_).symm
      rintro hl rfl
      obtain ⟨x, hx, hk, -⟩ := (h.flows key i).mp hl
      cases hw.symm.trans hx
      exact hkey hk.symm
  size := by
    rw [hflows]
    exact (AList.size_erase_le w.key).trans h.size
  slots := by
    intro x hx
    rw [hworkers] at hx
    rcases List.mem_or_eq_of_mem_set hx with hx | rfl
    · exact h.slots x hx
    · exact h.slots w (List.mem_of_getElem? hw)
  permits := by
    have hsum := sum_map_set Worker.held hw { w with phase := .joined }
    have hheld : Worker.held { w with phase := .joined } = w.held := by
      simp [Worker.held, hexited]
    have hpermits := h.permits
    rw [hworkers, hbytes]
    omega

theorem InStep.moves (h : InStep limit c) (hmoves : Moves limit c c') : InStep limit c' := by
  cases hmoves with
  | noted hflows hworkers hbytes =>
    exact ⟨by simpa only [Unjoined, hflows, hworkers] using h.flows, hflows ▸ h.size,
      hworkers ▸ h.slots, by rw [hworkers, hbytes]; exact h.permits⟩
  | spawned hnew hroom heq =>
    rw [heq]
    exact h.spawn hnew hroom _
  | joined hw hexited hflows hworkers hbytes => exact h.joined hw hexited hflows hworkers hbytes
  | @advanced i w w' hw hrunning hflows hworkers hkey hphase hslots hbytes =>
    refine ⟨fun key j => ?_, hflows ▸ h.size, ?_, ?_⟩
    · rw [hflows, h.flows, unjoined_set hw hkey (not_joined hrunning) hphase hworkers]
    · intro x hx
      rw [hworkers] at hx
      rcases List.mem_or_eq_of_mem_set hx with hx | rfl
      · exact h.slots x hx
      · have hold := h.slots w (List.mem_of_getElem? hw)
        omega
    · have hsum := sum_map_set Worker.held hw w'
      have hpermits := h.permits
      rw [hworkers]
      omega

theorem InStep.step (h : InStep limit c) (action : ClientAction) :
    InStep limit (c.step limit action) := by
  obtain ⟨mid, hfirst, hsecond⟩ := moves_step limit c action
  exact (h.moves hfirst).moves hsecond

def run (limit : Nat) (destinations : Table UInt16 SocketAddr) (actions : List ClientAction) :
    Client :=
  actions.foldl (step limit) (new destinations)

theorem inStep_run (limit : Nat) (destinations : Table UInt16 SocketAddr)
    (actions : List ClientAction) :
    InStep limit (run limit destinations actions) :=
  List.foldlRecOn actions (Client.step limit) (inStep_new limit destinations)
    fun _ h action _ => h.step action

-- ---------------------------------------------------------------------------
-- The map and the workers
-- ---------------------------------------------------------------------------

theorem enqueue_ok (h : key ∈ c.flows) (payload : Bytes) :
    ∃ c', c.enqueue key payload = .ok c' := by
  obtain ⟨i, hi⟩ := Option.isSome_iff_exists.mp (AList.lookup_isSome.mpr h)
  unfold enqueue
  split
  · exact ⟨_, by rw [hi]⟩
  · exact ⟨c, rfl⟩

/-- The lookup behind `contains_key` and `insert` finds the key. -/
theorem packet_ok (limit : Nat) (p : Packet) (c : Client) : ∃ c', c.packet limit p = .ok c' := by
  unfold packet
  split
  · exact ⟨c, rfl⟩
  · dsimp only
    split
    · exact enqueue_ok ‹_› p.payload
    · split
      · exact ⟨c, rfl⟩
      · exact enqueue_ok (AList.mem_insert _ |>.mpr (.inl rfl)) p.payload

theorem trySend_refused (hw : c.workers[i]? = some w)
    (hno : w.receiving = false ∨ queueSlots ≤ w.queue.length) (payload : Bytes) :
    c.trySend i payload = c := by
  simp only [trySend, hw]
  rw [if_neg]
  rintro ⟨hrunning, hroom⟩
  rcases hno with hno | hno
  · simp [hrunning] at hno
  · omega

theorem packet_refused (hflow : c.flows.lookup (p.service, p.flow) = some i)
    (hw : c.workers[i]? = some w) (hno : w.receiving = false ∨ queueSlots ≤ w.queue.length) :
    c.packet limit p = .ok c := by
  unfold packet
  split
  · rfl
  · rw [if_pos (AList.mem_of_lookup hflow), enqueue]
    split
    · rw [hflow]
      exact congrArg Except.ok (trySend_refused hw hno p.payload)
    · rfl

/-- After any packets, worker exits and joins: the keys of the map are those of
the workers that were spawned and not joined, one worker for each; a worker that
is joined takes its own entry out and no other; the map stays within its limit;
no packet finds its key missing; and a packet whose worker has returned, or whose
queue is full, leaves everything as it is. -/
theorem flows_in_step (limit : Nat) (destinations : Table UInt16 SocketAddr)
    (actions : List ClientAction) :
    let c := run limit destinations actions
    (∀ key, key ∈ c.flows ↔ ∃ w ∈ c.workers, w.key = key ∧ w.phase ≠ .joined) ∧
    (∀ (i j : Nat) (w w' : Worker), c.workers[i]? = some w → c.workers[j]? = some w' →
      w.phase ≠ .joined → w'.phase ≠ .joined → w.key = w'.key → i = j) ∧
    (∀ (i : Nat) (w : Worker), c.workers[i]? = some w → w.phase = .exited →
      c.flows.lookup w.key = some i ∧
        ∀ key, (c.step limit (.join i)).flows.lookup key =
          if key = w.key then none else c.flows.lookup key) ∧
    c.flows.size ≤ limit ∧
    (∀ p, ∃ c', c.packet limit p = .ok c') ∧
    ∀ p i w, c.flows.lookup (p.service, p.flow) = some i → c.workers[i]? = some w →
      w.phase = .exited ∨ w.queue.length = 8 → c.packet limit p = .ok c := by
  intro c
  have h : InStep limit c := inStep_run limit destinations actions
  refine ⟨fun key => ?_, ?_, ?_, h.size, fun p => packet_ok limit p c, ?_⟩
  · rw [← AList.lookup_isSome, Option.isSome_iff_exists]
    constructor
    · rintro ⟨i, hi⟩
      obtain ⟨w, hw, hkey, hphase⟩ := (h.flows key i).mp hi
      exact ⟨w, List.mem_of_getElem? hw, hkey, hphase⟩
    · rintro ⟨w, hw, hkey, hphase⟩
      obtain ⟨i, hi⟩ := List.mem_iff_getElem?.mp hw
      exact ⟨i, (h.flows key i).mpr ⟨w, hi, hkey, hphase⟩⟩
  · intro i j w w' hw hw' hphase hphase' hkey
    have hi := (h.flows w.key i).mpr ⟨w, hw, rfl, hphase⟩
    have hj := (h.flows w.key j).mpr ⟨w', hw', hkey.symm, hphase'⟩
    exact Option.some.inj (hi.symm.trans hj)
  · intro i w hw hexited
    refine ⟨(h.flows w.key i).mpr ⟨w, hw, rfl, by simp [hexited]⟩, fun key => ?_⟩
    simp only [step, hw, if_pos hexited]
    exact AList.lookup_erase_eq w.key key
  · intro p i w hflow hw hno
    refine packet_refused hflow hw (hno.imp (fun hexited => ?_) fun hfull => ?_)
    · simp [Worker.receiving, hexited]
    · exact Nat.le_of_eq hfull.symm

/-- A worker that could not bind its socket: the next packet for its key is
dropped, and joining it takes the key out of the map. -/
theorem flows_in_step_unbound :
    let c := run 1 (AList.singleton 0 (.v4 1 53)) [.packet ⟨0, 7, [1]⟩, .worker 0 (.bound false)]
    c.flows.lookup (0, 7) = some 0 ∧ c.packet 1 ⟨0, 7, [2]⟩ = .ok c ∧
      (c.step 1 (.join 0)).flows.lookup (0, 7) = none := by
  intro c
  have hw : c.workers[0]? = some ⟨(0, 7), .v4 1 53, [], .exited⟩ := by
    decide +kernel
  obtain ⟨-, -, hjoin, -, -, hdropped⟩ :=
    flows_in_step 1 (AList.singleton 0 (.v4 1 53)) [.packet ⟨0, 7, [1]⟩, .worker 0 (.bound false)]
  obtain ⟨hflow, hlookup⟩ := hjoin 0 _ hw rfl
  exact ⟨hflow, hdropped ⟨0, 7, [2]⟩ 0 _ hflow hw (.inl rfl), (hlookup (0, 7)).trans (if_pos rfl)⟩

-- ---------------------------------------------------------------------------
-- The permits
-- ---------------------------------------------------------------------------

def payloads (w : Worker) : List Bytes :=
  w.queue ++
    match w.phase with
    | .sending payload => [payload]
    | _ => []

theorem sum_payloads (workers : List Worker) :
    ((workers.flatMap payloads).map weight).sum = (workers.map Worker.held).sum := by
  induction workers with
  | nil => rfl
  | cons w rest ih =>
    simp only [List.flatMap_cons, List.map_append, List.sum_append, List.map_cons,
      List.sum_cons, ih]
    unfold payloads Worker.held
    cases w.phase <;> simp

theorem sum_length_le (payloads : List Bytes) :
    (payloads.map List.length).sum ≤ (payloads.map weight).sum := by
  induction payloads with
  | nil => exact Nat.le_refl 0
  | cons payload rest ih =>
    simp only [List.map_cons, List.sum_cons]
    exact Nat.add_le_add (Nat.le_max_left _ _) ih

/-- After any packets, full queues, worker exits and socket errors: the permits
left and those of the payloads in the queues and on their way into a socket make
up the 8 MiB, which therefore bound the bytes held; no queue has more than eight
packets; and when nothing is queued or being sent, every permit is back. What the
reassembler delivers is short enough for the conversion to `u32`. -/
theorem permits_conserved (limit : Nat) (destinations : Table UInt16 SocketAddr)
    (actions : List ClientAction) :
    let c := run limit destinations actions
    let held := c.workers.flatMap payloads
    c.queueBytes + (held.map fun payload => max 1 payload.length).sum = 8 * 1024 * 1024 ∧
    (held.map List.length).sum ≤ 8 * 1024 * 1024 ∧
    (∀ w ∈ c.workers, w.queue.length ≤ 8) ∧
    ((∀ w ∈ c.workers, w.queue = [] ∧ ∀ payload, w.phase ≠ .sending payload) →
      c.queueBytes = 8 * 1024 * 1024) ∧
    ∀ inputs p now packet, ((Reassembler.run inputs).push p now).1 = .ok (some packet) →
      max 1 packet.payload.length % 2 ^ 32 = max 1 packet.payload.length := by
  intro c held
  have h : InStep limit c := inStep_run limit destinations actions
  have hweight : (fun payload : Bytes => max 1 payload.length) = weight :=
    funext fun payload => Nat.max_comm 1 payload.length
  have hsum : c.queueBytes + (held.map weight).sum = 8 * 1024 * 1024 := by
    rw [sum_payloads]
    exact h.permits
  rw [hweight]
  refine ⟨hsum, ?_, h.slots, fun hidle => ?_, ?_⟩
  · have hle := sum_length_le held
    omega
  · have hnone : held = [] := by
      rw [List.flatMap_eq_nil_iff]
      intro w hw
      obtain ⟨hqueue, hphase⟩ := hidle w hw
      unfold payloads
      split
      · exact absurd ‹_› (hphase _)
      · simp [hqueue]
    simpa [hnone] using hsum
  · intro inputs p now packet hpush
    obtain ⟨f, hdecode, hlen⟩ := (Reassembler.run_wf inputs).length_packet hpush
    have hle : f.length ≤ 65507 := (decode_valid hdecode).length
    apply Nat.mod_eq_of_lt
    omega

end Client

end Cathole
