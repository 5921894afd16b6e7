import Cathole.Proxy.Queues

/-!
# The queues keep the order

Between `read_packet` and the sockets of the client, the packets of a flow wait
in the queue of its worker. Workers come and go, and a queue is lost with its
worker, but no queue ever has packets of an older one behind it: the payloads of
a flow leave in the order in which its packets were accepted, each at most once.

`Deals` lists what an action can do to the queues and to what was sent from
them; `Fifo` is kept by each case. `admitted` keeps the packets that met what a
queue asks for at the time they came in.
-/

namespace Cathole

def Packet.key (p : Packet) : FlowKey := (p.service, p.flow)

def payloadsOf (key : FlowKey) (packets : List Packet) : List Bytes :=
  (packets.filter fun p => p.key = key).map (·.payload)

theorem payloadsOf_sublist (key : FlowKey) (h : packets.Sublist more) :
    (payloadsOf key packets).Sublist (payloadsOf key more) := (h.filter _).map _

theorem payloadsOf_append (key : FlowKey) (packets more : List Packet) :
    payloadsOf key (packets ++ more) = payloadsOf key packets ++ payloadsOf key more := by
  simp [payloadsOf]

def ClientAction.packets : ClientAction → List Packet
  | .packet p => [p]
  | _ => []

namespace Client

def queueOf (key : FlowKey) (c : Client) : List Bytes :=
  match (c.flows.lookup key).bind fun i => c.workers[i]? with
  | some w => w.queue
  | none => []

def sentOf (key : FlowKey) (c : Client) : List Bytes := (c.sent.filter fun e => e.1 = key).map (·.2)

/-- What a packet needs to be queued: a destination, a flow or room for one, the
permits for its payload, and a worker that still receives and has room. -/
structure Admits (limit : Nat) (c : Client) (p : Packet) : Prop where
  destination : p.service ∈ c.destinations
  flow : p.key ∈ c.flows ∨ c.flows.size < limit
  budget : max 1 p.payload.length ≤ c.queueBytes
  worker : ∀ (i : Nat) (w : Worker), c.flows.lookup p.key = some i → c.workers[i]? = some w →
    w.phase ≠ .exited ∧ w.queue.length < 8

instance (limit : Nat) (c : Client) (p : Packet) : Decidable (Admits limit c p) :=
  decidable_of_iff
    (p.service ∈ c.destinations ∧ (p.key ∈ c.flows ∨ c.flows.size < limit) ∧
      max 1 p.payload.length ≤ c.queueBytes ∧
      ∀ i ∈ c.flows.lookup p.key, ∀ w ∈ c.workers[i]?, w.phase ≠ .exited ∧ w.queue.length < 8)
    ⟨fun h => ⟨h.1, h.2.1, h.2.2.1, fun i w hi hw => h.2.2.2 i hi w hw⟩,
      fun h => ⟨h.destination, h.flow, h.budget, fun i hi w hw => h.worker i w hi hw⟩⟩

def fed (actions : List ClientAction) : List Packet := actions.flatMap ClientAction.packets

/-- Those of them that were admitted in the state they came in. -/
def admitted (limit : Nat) (c : Client) : List ClientAction → List Packet
  | [] => []
  | action :: actions =>
    action.packets.filter (fun p => Admits limit c p) ++
      admitted limit (c.step limit action) actions

theorem admitted_append (limit : Nat) (c : Client) (actions more : List ClientAction) :
    admitted limit c (actions ++ more) =
      admitted limit c actions ++ admitted limit (actions.foldl (step limit) c) more := by
  induction actions generalizing c with
  | nil => rfl
  | cons action actions ih => simp [admitted, ih]

theorem admitted_sublist (limit : Nat) (c : Client) (actions : List ClientAction) :
    (admitted limit c actions).Sublist (fed actions) := by
  induction actions generalizing c with
  | nil => exact List.nil_sublist _
  | cons action actions ih =>
    rw [admitted, fed, List.flatMap_cons]
    exact List.filter_sublist.append (ih (c.step limit action))

variable {c c' : Client} {w w' : Worker} {limit i : Nat} {packets more : List Packet}

-- ---------------------------------------------------------------------------
-- What an action does to the queues
-- ---------------------------------------------------------------------------

inductive Deals (c c' : Client) (more : List Packet) : Prop
  -- The packets, if there are any, are dropped.
  | dropped (hflows : c'.flows = c.flows) (hworkers : c'.workers = c.workers)
      (hsent : c'.sent = c.sent)
  | spawned {key : FlowKey} {destination : SocketAddr} (hnew : key ∉ c.flows)
      (heq : c' = c.spawn key destination) (hmore : more = [])
  -- Payloads go into the queue of a worker, or out of it, or the queue is dropped.
  | dealt {i : Nat} {w w' : Worker} (out : List Bytes) (hw : c.workers[i]? = some w)
      (hrunning : w.receiving = true) (hflows : c'.flows = c.flows)
      (hworkers : c'.workers = c.workers.set i w') (hkey : w'.key = w.key)
      (hexited : w'.receiving = false → w'.queue = [])
      (hsent : c'.sent = c.sent ++ out.map (Prod.mk w.key)) (hmore : ∀ p ∈ more, p.key = w.key)
      (hqueue : (out ++ w'.queue).Sublist (w.queue ++ more.map (·.payload)))
  | joined {i : Nat} {w : Worker} (hw : c.workers[i]? = some w) (hexited : w.phase = .exited)
      (hflows : c'.flows = c.flows.erase w.key)
      (hworkers : c'.workers = c.workers.set i { w with phase := .joined })
      (hsent : c'.sent = c.sent) (hmore : more = [])

theorem Deals.refl (c : Client) (more : List Packet) : Deals c c more := .dropped rfl rfl rfl

theorem deals_exit (hw : c.workers[i]? = some w) (hrunning : w.receiving = true) :
    Deals c (c.exit i w) [] :=
  .dealt [] hw hrunning rfl rfl rfl (by simp) (by simp [exit]) (by simp) (by simp)

theorem deals_trySend {key : FlowKey} (hw : ∀ w, c.workers[i]? = some w → w.key = key)
    (payload : Bytes) :
    Deals c (c.trySend i payload) [⟨key.1, key.2, payload⟩] := by
  unfold trySend
  split
  · exact .refl c _
  rename_i w hget
  have hkey := hw w hget
  split
  · rename_i hroom
    refine .dealt [] hget hroom.1 rfl rfl rfl (fun hno => ?_) (by simp) (by simp [Packet.key, hkey])
      (by simp)
    exact absurd hroom.1 (by simpa [Worker.receiving] using hno)
  · exact .refl c _

theorem deals_enqueue {key : FlowKey} (h : InStep limit c) (hc : c.enqueue key payload = .ok c') :
    Deals c c' [⟨key.1, key.2, payload⟩] := by
  unfold enqueue at hc
  split at hc
  · split at hc
    · rename_i i hi
      cases hc
      refine deals_trySend (fun w hw => ?_) payload
      obtain ⟨w', hw', hkey, -⟩ := (h.flows key i).mp hi
      cases hw.symm.trans hw'
      exact hkey
    · cases hc
  · cases hc
    exact .refl c _

theorem deals_packet (h : InStep limit c) (hc : c.packet limit p = .ok c') :
    ∃ mid, Deals c mid [] ∧ InStep limit mid ∧ Deals mid c' [p] := by
  unfold packet at hc
  split at hc
  · cases hc
    exact ⟨c, .refl c _, h, .refl c _⟩
  · rename_i destination _
    dsimp only at hc
    split at hc
    · exact ⟨c, .refl c _, h, deals_enqueue h hc⟩
    · rename_i hnew
      split at hc
      · cases hc
        exact ⟨c, .refl c _, h, .refl c _⟩
      · rename_i hroom
        have hspawn := h.spawn hnew (Nat.lt_of_not_le hroom) destination
        exact ⟨_, .spawned hnew rfl rfl, hspawn, deals_enqueue hspawn hc⟩

theorem deals_workerStep (hw : c.workers[i]? = some w) (event : WorkerEvent) :
    Deals c (c.workerStep i event w) [] := by
  have hexit : ∀ {phase}, w.phase = phase → phase ≠ .exited → phase ≠ .joined →
      Deals c (c.exit i w) [] := by
    rintro _ rfl hexited hjoined
    exact deals_exit hw (running_of_phase hexited hjoined)
  -- The worker goes on with the queue it has.
  have hgoes : ∀ {phase} {c' : Client}, w.receiving = true →
      Worker.receiving { w with phase } = true → c'.flows = c.flows →
      c'.workers = c.workers.set i { w with phase } → c'.sent = c.sent → Deals c c' [] := by
    intro phase c' hrunning hrunning' hflows hworkers hsent
    exact .dealt [] hw hrunning hflows hworkers rfl (by simp [hrunning'])
      (by simp [hsent]) (by simp) (by simp)
  unfold workerStep
  split
  · rename_i hphase
    exact hgoes (by simp [Worker.receiving, hphase]) rfl rfl rfl rfl
  · exact hexit ‹_› (by simp) (by simp)
  · exact hexit ‹_› (by simp) (by simp)
  · rename_i payload queue hphase hqueue
    exact .dealt [payload] hw (by simp [Worker.receiving, hphase]) rfl rfl rfl
      (by simp [Worker.receiving]) (by simp) (by simp) (by simp [hqueue])
  · split
    · exact .refl c _
    · exact hexit ‹_› (by simp) (by simp)
  · rename_i payload hphase
    exact hgoes (by simp [Worker.receiving, hphase]) rfl rfl rfl rfl
  · exact hexit ‹_› (by simp) (by simp)
  · rename_i payload ok hphase
    dsimp only
    split
    · cases ok with
      | true => exact .dropped rfl rfl rfl
      | false =>
        exact .dealt [] hw (by simp [Worker.receiving, hphase]) rfl rfl rfl (by simp)
          (by simp [exit]) (by simp) (by simp)
    · exact .dropped rfl rfl rfl
  · exact hexit ‹_› (by simp) (by simp)
  · exact .refl c _

theorem deals_step (h : InStep limit c) (action : ClientAction) :
    ∃ mid, Deals c mid [] ∧ InStep limit mid ∧ Deals mid (c.step limit action) action.packets := by
  cases action with
  | packet p =>
    simp only [step]
    split
    · exact deals_packet h ‹_›
    · exact ⟨c, .refl c _, h, .refl c _⟩
  | worker i event =>
    refine ⟨c, .refl c _, h, ?_⟩
    simp only [step]
    split
    · exact deals_workerStep ‹_› event
    · exact .refl c _
  | join i =>
    refine ⟨c, .refl c _, h, ?_⟩
    simp only [step]
    split
    · rename_i w hw
      split
      · exact .joined hw ‹_› rfl rfl rfl rfl
      · exact .refl c _
    · exact .refl c _

-- ---------------------------------------------------------------------------
-- First in, first out
-- ---------------------------------------------------------------------------

theorem queueOf_of_lookup (hflow : c.flows.lookup key = some i) (hw : c.workers[i]? = some w) :
    c.queueOf key = w.queue := by
  simp [queueOf, hflow, hw]

theorem queueOf_of_none (hflow : c.flows.lookup key = none) : c.queueOf key = [] := by
  simp [queueOf, hflow]

theorem InStep.queueOf_set (h : InStep limit c) (hw : c.workers[i]? = some w)
    (hrunning : w.receiving = true) (hflows : c'.flows = c.flows)
    (hworkers : c'.workers = c.workers.set i w') (key : FlowKey) :
    c'.queueOf key = if key = w.key then w'.queue else c.queueOf key := by
  have hi := (List.getElem?_eq_some_iff.mp hw).1
  split
  · rename_i hkey
    subst hkey
    have hflow := (h.flows w.key i).mpr ⟨w, hw, rfl, not_joined hrunning⟩
    exact queueOf_of_lookup (hflows ▸ hflow) (by simp [hworkers, hi])
  · rename_i hkey
    cases hflow : c.flows.lookup key with
    | none => rw [queueOf_of_none hflow, queueOf_of_none (hflows ▸ hflow)]
    | some j =>
      obtain ⟨x, hx, hk, -⟩ := (h.flows key j).mp hflow
      have hij : i ≠ j := by
        rintro rfl
        cases hw.symm.trans hx
        exact hkey hk.symm
      rw [queueOf_of_lookup hflow hx, queueOf_of_lookup (hflows ▸ hflow)]
      rw [hworkers, List.getElem?_set_ne hij, hx]

theorem InStep.queueOf_spawn (h : InStep limit c) (hnew : key ∉ c.flows) (destination : SocketAddr)
    (key' : FlowKey) : (c.spawn key destination).queueOf key' = c.queueOf key' := by
  by_cases hkey : key' = key
  · subst hkey
    rw [queueOf_of_none (AList.lookup_eq_none.mpr hnew)]
    have hw : (c.spawn key' destination).workers[c.workers.length]? =
        some ⟨key', destination, [], .starting⟩ := List.getElem?_concat_length
    exact queueOf_of_lookup (AList.lookup_insert _) hw
  · have hflow : (c.spawn key destination).flows.lookup key' = c.flows.lookup key' :=
      AList.lookup_insert_ne hkey
    cases hold : c.flows.lookup key' with
    | none => rw [queueOf_of_none hold, queueOf_of_none (hflow.trans hold)]
    | some j =>
      obtain ⟨x, hx, -⟩ := (h.flows key' j).mp hold
      have hx' : (c.spawn key destination).workers[j]? = some x :=
        (List.getElem?_append_left (List.getElem?_eq_some_iff.mp hx).1).trans hx
      rw [queueOf_of_lookup hold hx, queueOf_of_lookup (hflow.trans hold) hx']

theorem InStep.queueOf_joined (h : InStep limit c) (hw : c.workers[i]? = some w)
    (hflows : c'.flows = c.flows.erase w.key) (hworkers : c'.workers = c.workers.set i w')
    (key : FlowKey) : (c'.queueOf key).Sublist (c.queueOf key) := by
  have hlookup : c'.flows.lookup key = if key = w.key then none else c.flows.lookup key := by
    rw [hflows, AList.lookup_erase_eq]
  split at hlookup
  · rw [queueOf_of_none hlookup]
    exact List.nil_sublist _
  · rename_i hkey
    cases hflow : c.flows.lookup key with
    | none =>
      rw [queueOf_of_none (hlookup.trans hflow)]
      exact List.nil_sublist _
    | some j =>
      obtain ⟨x, hx, hk, -⟩ := (h.flows key j).mp hflow
      have hij : i ≠ j := by
        rintro rfl
        cases hw.symm.trans hx
        exact hkey hk.symm
      have hx' : c'.workers[j]? = some x := by
        rw [hworkers, List.getElem?_set_ne hij, hx]
      rw [queueOf_of_lookup hflow hx, queueOf_of_lookup (hlookup.trans hflow) hx']

/-- Of each flow, what was sent and what is queued are some of the payloads fed
to it, in their order. -/
structure Fifo (packets : List Packet) (c : Client) : Prop where
  exited : ∀ w ∈ c.workers, w.receiving = false → w.queue = []
  order : ∀ key, (c.sentOf key ++ c.queueOf key).Sublist (payloadsOf key packets)

theorem fifo_new (destinations : Table UInt16 SocketAddr) : Fifo [] (new destinations) where
  exited := by simp [new]
  order := by simp [new, sentOf, queueOf]

theorem sentOf_append (key : FlowKey) (hsent : c'.sent = c.sent ++ out.map (Prod.mk w.key)) :
    c'.sentOf key = c.sentOf key ++ if key = w.key then out else [] := by
  simp only [sentOf, hsent, List.filter_append, List.map_append]
  congr 1
  split
  · rename_i hkey
    subst hkey
    rw [List.filter_eq_self.mpr (by simp), List.map_map]
    exact List.map_id out
  · rename_i hkey
    simp [Ne.symm hkey]

theorem payloadsOf_same (key : FlowKey) (hmore : ∀ p ∈ more, p.key = w.key) :
    payloadsOf key more = if key = w.key then more.map (·.payload) else [] := by
  unfold payloadsOf
  split
  · rename_i hkey
    subst hkey
    rw [List.filter_eq_self.mpr (by simpa using hmore)]
  · rename_i hkey
    rw [List.filter_eq_nil_iff.mpr]
    · rfl
    · intro p hp
      simpa [hmore p hp] using Ne.symm hkey

theorem Fifo.deals (h : Fifo packets c) (hin : InStep limit c) (hdeals : Deals c c' more) :
    Fifo (packets ++ more) c' := by
  have hmono :
      ∀ key, (c.sentOf key ++ c.queueOf key).Sublist (payloadsOf key (packets ++ more)) := by
    intro key
    rw [payloadsOf_append]
    exact (h.order key).trans (List.sublist_append_left _ _)
  cases hdeals with
  | dropped hflows hworkers hsent =>
    refine ⟨hworkers ▸ h.exited, fun key => ?_⟩
    simpa only [sentOf, queueOf, hsent, hflows, hworkers] using hmono key
  | @spawned key destination hnew heq hmore =>
    subst heq hmore
    refine ⟨fun w hw hno => ?_, fun key' => ?_⟩
    · rcases List.mem_append.mp hw with hw | hw
      · exact h.exited w hw hno
      · cases List.mem_singleton.mp hw
        rfl
    · rw [hin.queueOf_spawn hnew]
      exact hmono key'
  | @dealt i w w' out hw hrunning hflows hworkers hkey hexited hsent hmore hqueue =>
    refine ⟨fun x hx hno => ?_, fun key => ?_⟩
    · rw [hworkers] at hx
      rcases List.mem_or_eq_of_mem_set hx with hx | rfl
      · exact h.exited x hx hno
      · exact hexited hno
    · rw [hin.queueOf_set hw hrunning hflows hworkers, sentOf_append key hsent]
      split
      · rename_i hk
        subst hk
        have hown : c.queueOf w.key = w.queue :=
          queueOf_of_lookup ((hin.flows w.key i).mpr ⟨w, hw, rfl, not_joined hrunning⟩) hw
        have hold := h.order w.key
        rw [hown] at hold
        rw [payloadsOf_append, payloadsOf_same w.key hmore, if_pos rfl, List.append_assoc]
        refine ((hqueue.append_left _).trans ?_)
        rw [← List.append_assoc]
        exact hold.append_right _
      · rw [List.append_nil]
        exact hmono key
  | @joined i w hw hexited hflows hworkers hsent hmore =>
    subst hmore
    refine ⟨fun x hx hno => ?_, fun key => ?_⟩
    · rw [hworkers] at hx
      rcases List.mem_or_eq_of_mem_set hx with hx | rfl
      · exact h.exited x hx hno
      · exact h.exited w (List.mem_of_getElem? hw) (by simp [Worker.receiving, hexited])
    · have hsent' : c'.sentOf key = c.sentOf key := by
        rw [sentOf, hsent, sentOf]
      rw [hsent']
      exact ((hin.queueOf_joined hw hflows hworkers key).append_left _).trans (hmono key)

-- ---------------------------------------------------------------------------
-- Which packets are queued
-- ---------------------------------------------------------------------------

theorem InStep.enqueue_queueOf (h : InStep limit c) (hflow : c.flows.lookup key = some i)
    (hw : c.workers[i]? = some w) (payload : Bytes) :
    ∃ c', c.enqueue key payload = .ok c' ∧
      (weight payload ≤ c.queueBytes → w.phase ≠ .exited → w.queue.length < queueSlots →
        c'.queueOf key = c.queueOf key ++ [payload]) ∧
      (¬(weight payload ≤ c.queueBytes ∧ w.phase ≠ .exited ∧ w.queue.length < queueSlots) →
        c'.queueOf key = c.queueOf key) ∧
      ∀ key', key' ≠ key → c'.queueOf key' = c.queueOf key' := by
  obtain ⟨x, hx, hkey, hphase⟩ := (h.flows key i).mp hflow
  cases hw.symm.trans hx
  have hreceiving : w.receiving = true ↔ w.phase ≠ .exited := by
    constructor
    · intro hrunning hexited
      simp [Worker.receiving, hexited] at hrunning
    · exact fun hexited => running_of_phase hexited hphase
  unfold enqueue
  by_cases hbytes : weight payload ≤ c.queueBytes
  · rw [if_pos hbytes, hflow]
    refine ⟨_, rfl, ?_⟩
    simp only [trySend, hw]
    by_cases hroom : w.receiving = true ∧ w.queue.length < queueSlots
    · rw [if_pos hroom]
      let c' := { c with
        workers := c.workers.set i { w with queue := w.queue ++ [payload] }
        queueBytes := c.queueBytes - weight payload }
      have hworkers : c'.workers = c.workers.set i { w with queue := w.queue ++ [payload] } := rfl
      have hflows : c'.flows = c.flows := rfl
      have hqueue := h.queueOf_set hw hroom.1 hflows hworkers
      refine ⟨fun _ _ _ => ?_, fun hno => ?_, fun key' hne => ?_⟩
      · rw [hqueue, if_pos hkey.symm, queueOf_of_lookup hflow hw]
      · exact absurd ⟨hbytes, hreceiving.mp hroom.1, hroom.2⟩ hno
      · rw [hqueue, if_neg (hkey ▸ hne)]
    · rw [if_neg hroom]
      exact ⟨fun _ hexited hlen => absurd ⟨hreceiving.mpr hexited, hlen⟩ hroom, fun _ => rfl,
        fun _ _ => rfl⟩
  · rw [if_neg hbytes]
    exact ⟨c, rfl, fun hle => absurd hle hbytes, fun _ => rfl, fun _ _ => rfl⟩

/-- A packet is queued for its flow exactly if it is admitted, and no other
queue changes. -/
theorem InStep.packet_queueOf (h : InStep limit c) (p : Packet) :
    ∃ c', c.packet limit p = .ok c' ∧
      (Admits limit c p → c'.queueOf p.key = c.queueOf p.key ++ [p.payload]) ∧
      (¬Admits limit c p → c'.queueOf p.key = c.queueOf p.key) ∧
      ∀ key, key ≠ p.key → c'.queueOf key = c.queueOf key := by
  have hweight : weight p.payload = max 1 p.payload.length := Nat.max_comm _ _
  unfold packet
  cases hdest : c.destinations.lookup p.service with
  | none =>
    refine ⟨c, rfl, fun ha => ?_, fun _ => rfl, fun _ _ => rfl⟩
    exact absurd ha.destination (AList.lookup_eq_none.mp hdest)
  | some destination =>
    have hmem := AList.mem_of_lookup hdest
    by_cases hflow : p.key ∈ c.flows
    · obtain ⟨i, hi⟩ := Option.isSome_iff_exists.mp (AList.lookup_isSome.mpr hflow)
      obtain ⟨w, hw, -⟩ := (h.flows p.key i).mp hi
      obtain ⟨c', hc, hqueued, hsame, hother⟩ := h.enqueue_queueOf hi hw p.payload
      refine ⟨c', (if_pos hflow).trans hc, fun ha => ?_, fun hno => hsame ?_, hother⟩
      · obtain ⟨hexited, hlen⟩ := ha.worker i w hi hw
        exact hqueued (hweight ▸ ha.budget) hexited hlen
      · rintro ⟨hbytes, hroom⟩
        refine hno ⟨hmem, .inl hflow, hweight ▸ hbytes, fun j x hj hx => ?_⟩
        cases hi.symm.trans hj
        cases hw.symm.trans hx
        exact hroom
    · have hnone := AList.lookup_eq_none.mpr hflow
      by_cases hroom : c.flows.size ≥ limit
      · refine ⟨c, (if_neg hflow).trans (if_pos hroom), fun ha => ?_, fun _ => rfl, fun _ _ => rfl⟩
        exact absurd (ha.flow.resolve_left hflow) (Nat.not_lt.mpr hroom)
      · have hlt := Nat.lt_of_not_le hroom
        have hspawn := h.spawn hflow hlt destination
        have hw : (c.spawn p.key destination).workers[c.workers.length]? =
            some ⟨p.key, destination, [], .starting⟩ := List.getElem?_concat_length
        obtain ⟨c', hc, hqueued, hsame, hother⟩ :=
          hspawn.enqueue_queueOf (AList.lookup_insert _) hw p.payload
        have hqueue := h.queueOf_spawn hflow destination
        rw [hqueue] at hqueued hsame
        refine ⟨c', (if_neg hflow).trans ((if_neg hroom).trans hc), fun ha => ?_,
          fun hno => hsame ?_, fun key hne => (hother key hne).trans (hqueue key)⟩
        · exact hqueued (hweight ▸ ha.budget) (by simp) (by simp [queueSlots])
        · rintro ⟨hbytes, -⟩
          refine hno ⟨hmem, .inr hlt, hweight ▸ hbytes, fun j x hj => ?_⟩
          cases hnone.symm.trans hj

-- ---------------------------------------------------------------------------
-- Whole runs
-- ---------------------------------------------------------------------------

theorem sent_enqueue {key : FlowKey} (hc : c.enqueue key payload = .ok c') : c'.sent = c.sent := by
  unfold enqueue at hc
  split at hc
  · split at hc
    · rename_i i hi
      cases hc
      unfold trySend
      split
      · rfl
      · split
        · rfl
        · rfl
    · cases hc
  · cases hc
    rfl

theorem sent_packet (hc : c.packet limit p = .ok c') : c'.sent = c.sent := by
  unfold packet at hc
  split at hc
  · cases hc
    rfl
  · rename_i destination _
    dsimp only at hc
    split at hc
    · exact sent_enqueue hc
    · split at hc
      · cases hc
        rfl
      · exact sent_enqueue (c := c.spawn (p.service, p.flow) destination) hc

theorem Fifo.fed_step (h : Fifo packets c) (hin : InStep limit c) (action : ClientAction) :
    Fifo (packets ++ action.packets) (c.step limit action) := by
  obtain ⟨mid, hfirst, hmid, hsecond⟩ := deals_step hin action
  have hfifo := h.deals hin hfirst
  rw [List.append_nil] at hfifo
  exact hfifo.deals hmid hsecond

theorem Fifo.refused (h : Fifo packets c) (hin : InStep limit c) (hno : ¬Admits limit c p) :
    Fifo packets (c.step limit (.packet p)) := by
  refine ⟨(h.fed_step hin (.packet p)).exited, fun key => ?_⟩
  obtain ⟨c', hc, -, hsame, hother⟩ := hin.packet_queueOf p
  have hstep : c.step limit (.packet p) = c' := by
    simp only [step, hc]
  have hqueue : c'.queueOf key = c.queueOf key := by
    by_cases hkey : key = p.key
    · subst hkey
      exact hsame hno
    · exact hother key hkey
  have hsent : c'.sentOf key = c.sentOf key := by
    rw [sentOf, sent_packet hc, sentOf]
  rw [hstep, hqueue, hsent]
  exact h.order key

theorem Fifo.step (h : Fifo packets c) (hin : InStep limit c) (action : ClientAction) :
    Fifo (packets ++ action.packets.filter fun p => Admits limit c p) (c.step limit action) := by
  cases action with
  | packet p =>
    by_cases hadmits : Admits limit c p
    · simpa [ClientAction.packets, hadmits] using h.fed_step hin (.packet p)
    · simpa [ClientAction.packets, hadmits] using h.refused hin hadmits
  | worker i event => exact h.fed_step hin (.worker i event)
  | join i => exact h.fed_step hin (.join i)

theorem fifo_run (limit : Nat) (destinations : Table UInt16 SocketAddr)
    (actions : List ClientAction) :
    Fifo (admitted limit (new destinations) actions) (run limit destinations actions) := by
  induction actions using List.reverseRecOn with
  | nil => exact fifo_new destinations
  | append_singleton actions action ih =>
    have hrun : run limit destinations (actions ++ [action]) =
        (run limit destinations actions).step limit action := by
      simp [run]
    have hadmitted : admitted limit (new destinations) (actions ++ [action]) =
        admitted limit (new destinations) actions ++
          action.packets.filter fun p => Admits limit (run limit destinations actions) p := by
      rw [admitted_append, admitted, admitted, List.append_nil]
      rfl
    rw [hrun, hadmitted]
    exact ih.step (inStep_run limit destinations actions) action

/-- After any packets, worker exits, failures and joins: of each flow, what was
given to its local sockets, over all its workers, followed by what is queued, is
a subsequence of the payloads that were admitted for the flow. And a packet gets
into the queue of its flow exactly if it is admitted; it never gets into another
queue. -/
theorem queues_fifo (limit : Nat) (destinations : Table UInt16 SocketAddr)
    (actions : List ClientAction) :
    let c := run limit destinations actions
    (∀ key, (c.sentOf key ++ c.queueOf key).Sublist
      (payloadsOf key (admitted limit (new destinations) actions))) ∧
    ∀ p, let c' := c.step limit (.packet p)
      (c'.queueOf p.key = c.queueOf p.key ++ [p.payload] ↔ Admits limit c p) ∧
      (¬Admits limit c p → c'.queueOf p.key = c.queueOf p.key) ∧
      ∀ key, key ≠ p.key → c'.queueOf key = c.queueOf key := by
  intro c
  have h : InStep limit c := inStep_run limit destinations actions
  refine ⟨(fifo_run limit destinations actions).order, fun p => ?_⟩
  obtain ⟨c', hc, hqueued, hsame, hother⟩ := h.packet_queueOf p
  have hstep : c.step limit (.packet p) = c' := by
    simp only [step, hc]
  rw [hstep]
  refine ⟨⟨fun heq => ?_, hqueued⟩, hsame, hother⟩
  by_contra hno
  have hlen := congrArg List.length (heq.symm.trans (hsame hno))
  simp at hlen

end Client

end Cathole
