import Cathole.Datagram.Reassembler
import Cathole.Proxy.Flows

/-!
# The client's UDP forwarding

The packet branch of the session loop in `proxy/client.rs` and the `udp_flow`
workers it spawns. Each `(service, flow)` key has a worker with a local socket
and a queue of eight packets; the bytes in all queues draw on one semaphore.

The loop and the workers run concurrently, so a worker is a small machine
between two `await`s, and an action advances the loop or one worker. Workers are
numbered in the order of their creation and keep their number after they were
joined. What was exchanged with the local services is kept in `sent` and
`received`, and the packets given to `Sender::send` in `outgoing`.
-/

namespace Cathole

abbrev FlowKey := UInt16 × UInt64

inductive WorkerPhase
  -- Binding and connecting the socket.
  | starting
  -- In the `select!` of the loop.
  | waiting
  -- In `socket.send`, with the permits of the payload still held.
  | sending (payload : Bytes)
  -- Returned, and not yet seen by `join_next`.
  | exited
  | joined
  deriving DecidableEq, Repr

structure Worker where
  key : FlowKey
  destination : SocketAddr
  queue : List Bytes
  phase : WorkerPhase
  deriving DecidableEq, Repr

structure Client where
  destinations : Table UInt16 SocketAddr
  -- The number of the worker a key's queue leads to.
  flows : Table FlowKey Nat
  workers : List Worker
  queueBytes : Nat
  sent : List (FlowKey × Bytes)
  received : List (FlowKey × Bytes)
  outgoing : List Packet
  deriving DecidableEq

def queueBudget : Nat := 8 * 1024 * 1024
def queueSlots : Nat := 8

/-- The permits a payload takes, `payload.len().max(1)`. -/
def weight (payload : Bytes) : Nat := max payload.length 1

namespace Worker

def receiving (w : Worker) : Bool :=
  match w.phase with
  | .exited | .joined => false
  | _ => true

def held (w : Worker) : Nat :=
  (w.queue.map weight).sum +
    match w.phase with
    | .sending payload => weight payload
    | _ => 0

end Worker

inductive WorkerEvent
  | bound (ok : Bool)
  | idle
  | take
  -- `rx.recv()` returned `None`: the queue is empty and its sender is gone.
  | closed
  | sent (ok : Bool)
  -- A datagram from the local service, and the answer of `Sender::send`.
  | reply (payload : Bytes) (ok : Bool)
  -- `socket.recv` returned an error.
  | failed
  deriving DecidableEq, Repr

inductive ClientAction
  -- `read_packet` returned.
  | packet (p : Packet)
  | worker (i : Nat) (event : WorkerEvent)
  | join (i : Nat)
  deriving DecidableEq, Repr

namespace Client

def new (destinations : Table UInt16 SocketAddr) : Client where
  destinations := destinations
  flows := ∅
  workers := []
  queueBytes := queueBudget
  sent := []
  received := []
  outgoing := []

def spawn (key : FlowKey) (destination : SocketAddr) (c : Client) : Client :=
  { c with
    flows := c.flows.insert key c.workers.length
    workers := c.workers ++ [{ key, destination, queue := [], phase := .starting }] }

/-- `try_send`: a closed or full queue drops the packet and its permits. -/
def trySend (i : Nat) (payload : Bytes) (c : Client) : Client :=
  match c.workers[i]? with
  | none => c
  | some w =>
    if w.receiving ∧ w.queue.length < queueSlots then
      { c with
        workers := c.workers.set i { w with queue := w.queue ++ [payload] }
        queueBytes := c.queueBytes - weight payload }
    else c

def enqueue (key : FlowKey) (payload : Bytes) (c : Client) : Except Fault Client :=
  if weight payload ≤ c.queueBytes then
    match c.flows.lookup key with
    | some i => .ok (c.trySend i payload)
    | none => .error .panic
  else .ok c

def packet (limit : Nat) (p : Packet) (c : Client) : Except Fault Client :=
  match c.destinations.lookup p.service with
  | none => .ok c
  | some destination =>
    let key := (p.service, p.flow)
    if key ∈ c.flows then c.enqueue key p.payload
    else if c.flows.size ≥ limit then .ok c
    else (c.spawn key destination).enqueue key p.payload

def exit (i : Nat) (w : Worker) (c : Client) : Client :=
  { c with
    workers := c.workers.set i { w with queue := [], phase := .exited }
    queueBytes := c.queueBytes + w.held }

def setWorker (i : Nat) (w : Worker) (c : Client) : Client :=
  { c with workers := c.workers.set i w }

/-- One `await` of `udp_flow` completes. -/
def workerStep (i : Nat) (event : WorkerEvent) (w : Worker) (c : Client) : Client :=
  match event, w.phase, w.queue with
  | .bound true, .starting, _ => c.setWorker i { w with phase := .waiting }
  | .bound false, .starting, _ => c.exit i w
  | .idle, .waiting, _ => c.exit i w
  | .take, .waiting, payload :: queue =>
    { c.setWorker i { w with queue, phase := .sending payload } with
      sent := c.sent ++ [(w.key, payload)] }
  | .closed, .waiting, [] => if c.flows.lookup w.key = some i then c else c.exit i w
  | .sent true, .sending payload, _ =>
    { c.setWorker i { w with phase := .waiting } with queueBytes := c.queueBytes + weight payload }
  | .sent false, .sending _, _ => c.exit i w
  | .reply payload ok, .waiting, _ =>
    let c := { c with received := c.received ++ [(w.key, payload)] }
    if payload.length ≤ maxPayload then
      if ok then { c with outgoing := c.outgoing ++ [⟨w.key.1, w.key.2, payload⟩] } else c.exit i w
    else c
  | .failed, .waiting, _ => c.exit i w
  | _, _, _ => c

def step (limit : Nat) (c : Client) : ClientAction → Client
  | .packet p =>
    match c.packet limit p with
    | .ok c => c
    | .error _ => c
  | .worker i event =>
    match c.workers[i]? with
    | some w => c.workerStep i event w
    | none => c
  | .join i =>
    match c.workers[i]? with
    | some w =>
      if w.phase = .exited then
        { c.setWorker i { w with phase := .joined } with flows := c.flows.erase w.key }
      else c
    | none => c

-- ---------------------------------------------------------------------------
-- Where the payloads come from
-- ---------------------------------------------------------------------------

structure Keyed (fed : Packet → Prop) (c : Client) : Prop where
  flows : ∀ key i, c.flows.lookup key = some i → ∃ w, c.workers[i]? = some w ∧ w.key = key
  queued : ∀ w ∈ c.workers, ∀ payload ∈ w.queue, fed ⟨w.key.1, w.key.2, payload⟩
  sent : ∀ e ∈ c.sent, fed ⟨e.1.1, e.1.2, e.2⟩
  outgoing : ∀ p ∈ c.outgoing, ((p.service, p.flow), p.payload) ∈ c.received

variable {c : Client} {fed : Packet → Prop} {w w' : Worker}

theorem keyed_new (destinations : Table UInt16 SocketAddr) : Keyed fed (new destinations) where
  flows := by simp [new]
  queued := by simp [new]
  sent := by simp [new]
  outgoing := by simp [new]

theorem Keyed.mono (h : Keyed fed c) (hsub : ∀ p, fed p → fed' p) : Keyed fed' c where
  flows := h.flows
  queued := fun w hw payload hp => hsub _ (h.queued w hw payload hp)
  sent := fun e he => hsub _ (h.sent e he)
  outgoing := h.outgoing

theorem Keyed.setWorker (h : Keyed fed c) (hw : c.workers[i]? = some w) (hkey : w'.key = w.key)
    (hqueue : ∀ payload ∈ w'.queue, fed ⟨w.key.1, w.key.2, payload⟩) :
      Keyed fed (c.setWorker i w') where
  flows := by
    intro key j hj
    obtain ⟨old, hold, hk⟩ := h.flows key j hj
    simp only [Client.setWorker, List.getElem?_set]
    split
    · rename_i hij
      subst hij
      cases hw.symm.trans hold
      simp [(List.getElem?_eq_some_iff.mp hw).1, hkey, hk]
    · exact ⟨old, hold, hk⟩
  queued := by
    intro x hx payload hp
    rcases List.mem_or_eq_of_mem_set hx with hx | rfl
    · exact h.queued x hx payload hp
    · rw [hkey]
      exact hqueue payload hp
  sent := h.sent
  outgoing := h.outgoing

theorem Keyed.exit (h : Keyed fed c) (hw : c.workers[i]? = some w) : Keyed fed (c.exit i w) := by
  have hset : Keyed fed (c.setWorker i { w with queue := [], phase := .exited }) :=
    h.setWorker hw rfl (by simp)
  exact ⟨hset.flows, hset.queued, hset.sent, hset.outgoing⟩

theorem Keyed.spawn (h : Keyed fed c) (key : FlowKey) (destination : SocketAddr) :
    Keyed fed (c.spawn key destination) where
  flows := by
    intro key' i hi
    simp only [Client.spawn, AList.lookup_insert_eq] at hi ⊢
    split at hi
    · rename_i hkey
      cases hi
      exact ⟨_, List.getElem?_concat_length, hkey.symm⟩
    · obtain ⟨w, hw, hk⟩ := h.flows key' i hi
      refine ⟨w, ?_, hk⟩
      rw [List.getElem?_append_left (List.getElem?_eq_some_iff.mp hw).1]
      exact hw
  queued := by
    intro w hw payload hp
    rcases List.mem_append.mp hw with hw | hw
    · exact h.queued w hw payload hp
    · cases List.mem_singleton.mp hw
      simp at hp
  sent := h.sent
  outgoing := h.outgoing

theorem Keyed.enqueue (h : Keyed fed c) (hfed : fed ⟨key.1, key.2, payload⟩)
    (hc : c.enqueue key payload = .ok c') : Keyed fed c' := by
  unfold Client.enqueue at hc
  split at hc
  · split at hc
    · rename_i i hi
      obtain ⟨w, hw, rfl⟩ := h.flows key i hi
      cases hc
      simp only [trySend, hw]
      split
      · have hset : Keyed fed (c.setWorker i { w with queue := w.queue ++ [payload] }) := by
          refine h.setWorker hw rfl fun p hp => ?_
          rcases List.mem_append.mp hp with hp | hp
          · exact h.queued w (List.mem_of_getElem? hw) p hp
          · cases List.mem_singleton.mp hp
            exact hfed
        exact ⟨hset.flows, hset.queued, hset.sent, hset.outgoing⟩
      · exact h
    · cases hc
  · cases hc
    exact h

theorem Keyed.packet (h : Keyed fed c) (hfed : fed p) (hc : c.packet limit p = .ok c') :
    Keyed fed c' := by
  unfold Client.packet at hc
  split at hc
  · cases hc
    exact h
  · rename_i destination _
    dsimp only at hc
    split at hc
    · exact h.enqueue hfed hc
    · split at hc
      · cases hc
        exact h
      · exact (h.spawn (p.service, p.flow) destination).enqueue hfed hc

theorem Keyed.workerStep (h : Keyed fed c) (hw : c.workers[i]? = some w) (event : WorkerEvent) :
    Keyed fed (c.workerStep i event w) := by
  have hqueue := h.queued w (List.mem_of_getElem? hw)
  unfold Client.workerStep
  split
  · exact h.setWorker hw rfl hqueue
  · exact h.exit hw
  · exact h.exit hw
  · rename_i payload queue _ hq
    have hset : Keyed fed (c.setWorker i { w with queue, phase := .sending payload }) :=
      h.setWorker hw rfl fun p hp => hqueue p (hq ▸ List.mem_cons_of_mem payload hp)
    refine ⟨hset.flows, hset.queued, fun e he => ?_, hset.outgoing⟩
    rcases List.mem_append.mp he with he | he
    · exact h.sent e he
    · cases List.mem_singleton.mp he
      exact hqueue payload (hq ▸ List.mem_cons_self)
  · split
    · exact h
    · exact h.exit hw
  · have hset : Keyed fed (c.setWorker i { w with phase := .waiting }) :=
      h.setWorker hw rfl hqueue
    exact ⟨hset.flows, hset.queued, hset.sent, hset.outgoing⟩
  · exact h.exit hw
  · rename_i payload ok _
    have hheard : Keyed fed { c with received := c.received ++ [(w.key, payload)] } :=
      ⟨h.flows, h.queued, h.sent, fun p hp => List.mem_append_left _ (h.outgoing p hp)⟩
    dsimp only
    split
    · cases ok with
      | true =>
        refine ⟨hheard.flows, hheard.queued, hheard.sent, fun p hp => ?_⟩
        rcases List.mem_append.mp hp with hp | hp
        · exact hheard.outgoing p hp
        · cases List.mem_singleton.mp hp
          simp
      | false => exact hheard.exit hw
    · exact hheard
  · exact h.exit hw
  · exact h

theorem Keyed.step (h : Keyed fed c) (limit : Nat) (action : ClientAction)
    (hfed : ∀ p, action = .packet p → fed p) : Keyed fed (c.step limit action) := by
  cases action with
  | packet p =>
    simp only [Client.step]
    split
    · exact h.packet (hfed p rfl) ‹_›
    · exact h
  | worker i event =>
    simp only [Client.step]
    split
    · exact h.workerStep ‹_› event
    · exact h
  | join i =>
    simp only [Client.step]
    split
    · rename_i w hw
      split
      · have hset : Keyed fed (c.setWorker i { w with phase := .joined }) :=
          h.setWorker hw rfl (h.queued w (List.mem_of_getElem? hw))
        refine ⟨fun key j hj => ?_, hset.queued, hset.sent, hset.outgoing⟩
        rw [AList.lookup_erase_eq] at hj
        split at hj
        · cases hj
        · exact hset.flows key j hj
      · exact h
    · exact h

theorem received_enqueue (hc : c.enqueue key payload = .ok c') : c'.received = c.received := by
  unfold enqueue at hc
  split at hc
  · split at hc
    · cases hc
      unfold trySend
      split
      · rfl
      · split <;> rfl
    · cases hc
  · cases hc
    rfl

theorem received_packet (hc : c.packet limit p = .ok c') : c'.received = c.received := by
  unfold packet at hc
  split at hc
  · cases hc
    rfl
  · dsimp only at hc
    split at hc
    · exact received_enqueue hc
    · split at hc
      · cases hc
        rfl
      · exact (received_enqueue hc).trans rfl

theorem received_workerStep : c.received ⊆ (c.workerStep i event w).received := by
  unfold workerStep
  split
  case h_5 => split <;> exact List.Subset.refl _
  case h_8 =>
    dsimp only
    split
    · split <;> exact List.subset_append_left _ _
    · exact List.subset_append_left _ _
  all_goals exact List.Subset.refl _

theorem received_step (limit : Nat) (action : ClientAction) (c : Client) :
    c.received ⊆ (c.step limit action).received := by
  cases action with
  | packet p =>
    simp only [step]
    split
    · rename_i hc
      rw [received_packet hc]
      exact List.Subset.refl _
    · exact List.Subset.refl _
  | worker i event =>
    simp only [step]
    split
    · exact received_workerStep
    · exact List.Subset.refl _
  | join i =>
    simp only [step]
    split
    · split <;> exact List.Subset.refl _
    · exact List.Subset.refl _

end Client

end Cathole
