import Cathole.Datagram.Reassembler

/-!
# Reassembly delivers exactly the complete messages

A family of messages with distinct IDs is cut into fragments as `Sender::send`
cuts them, and the fragments are pushed in any order and interleaving, each at
most once, at times that do not decrease.

Whether a message comes out depends on its first arrival only: on whether the
table had room then, and on how long ago that was. `Tracked` says why: the
assembly that holds the first fragment was created by it and holds every
fragment since, and no other assembly of the message can ever be completed.
-/

namespace Cathole

structure Arrival (ι : Type) where
  source : ι
  index : Nat
  time : Nat
  deriving DecidableEq, Repr

namespace Delivery

variable {ι : Type} (family : ι → Message)

def push (e : Arrival ι) (r : Reassembler) : Except Fault (Option Packet) × Reassembler :=
  r.push ((family e.source).fragment e.index) e.time

def run (events : List (Arrival ι)) : Reassembler :=
  events.foldl (fun r e => (push family e r).2) .default

/-- Only fragments of the family, each at most once, in order of time. -/
structure Schedule (events : List (Arrival ι)) : Prop where
  valid : ∀ e ∈ events, e.index < (family e.source).count
  once : (events.map fun e => (e.source, e.index)).Nodup
  ordered : events.Pairwise fun e e' => e.time ≤ e'.time

def Arrived (events : List (Arrival ι)) (w : ι) (j : Nat) : Prop :=
  ∃ e ∈ events, e.source = w ∧ e.index = j

def Complete (events : List (Arrival ι)) (w : ι) : Prop :=
  ∀ j < (family w).count, Arrived events w j

/-- `e` is the first arrival of `w`, and `before` what came before it. -/
def First (events : List (Arrival ι)) (w : ι) (before : List (Arrival ι)) (e : Arrival ι) : Prop :=
  (∃ after, events = before ++ e :: after) ∧ e.source = w ∧ ∀ x ∈ before, x.source ≠ w

/-- Fewer than 128 unexpired incomplete messages are pending when `e` arrives. -/
def Room (before : List (Arrival ι)) (e : Arrival ι) : Prop :=
  ((run family before).expire e.time).pending.size < maxAssemblies

/-- The first arrival of `w` found room, less than two seconds before `time`. -/
def InTime (events : List (Arrival ι)) (w : ι) (time : Nat) : Prop :=
  ∃ before e, First events w before e ∧ Room family before e ∧ time - e.time < lifetime

variable {family} {events before after : List (Arrival ι)} {e f : Arrival ι} {w : ι} {j : Nat}

-- ---------------------------------------------------------------------------
-- Sequences of arrivals
-- ---------------------------------------------------------------------------

theorem run_append_singleton : run family (events ++ [e]) =
    (push family e (run family events)).2 := by
  simp [run]

theorem arrived_append_singleton :
    Arrived (events ++ [e]) w j ↔ Arrived events w j ∨ e.source = w ∧ e.index = j := by
  simp only [Arrived, List.mem_append, List.mem_singleton]
  constructor
  · rintro ⟨x, hx | rfl, h⟩
    · exact .inl ⟨x, hx, h⟩
    · exact .inr h
  · rintro (⟨x, hx, h⟩ | h)
    · exact ⟨x, .inl hx, h⟩
    · exact ⟨e, .inr rfl, h⟩

theorem Arrived.append (h : Arrived events w j) (more : List (Arrival ι)) :
    Arrived (events ++ more) w j := by
  obtain ⟨e, he, h⟩ := h
  exact ⟨e, List.mem_append_left _ he, h⟩

theorem First.arrived (h : First events w before f) : Arrived events w f.index := by
  obtain ⟨⟨after, rfl⟩, hw, -⟩ := h
  exact ⟨f, by simp, hw, rfl⟩

theorem First.append (h : First events w before f) (more : List (Arrival ι)) :
    First (events ++ more) w before f := by
  obtain ⟨⟨after, rfl⟩, hw, hnot⟩ := h
  exact ⟨⟨after ++ more, by simp⟩, hw, hnot⟩

theorem exists_first (h : Arrived events w j) : ∃ before f, First events w before f := by
  induction events using List.reverseRecOn generalizing j with
  | nil => simp [Arrived] at h
  | append_singleton events e ih =>
    by_cases hold : ∃ i, Arrived events w i
    · obtain ⟨i, hi⟩ := hold
      obtain ⟨before, f, hf⟩ := ih hi
      exact ⟨before, f, hf.append [e]⟩
    · have he := ((arrived_append_singleton.mp h).resolve_left fun h => hold ⟨j, h⟩).1
      exact ⟨events, e, ⟨[], rfl⟩, he, fun x hx hw => hold ⟨x.index, x, hx, hw, rfl⟩⟩

theorem First.unique (h : First events w before f) (h' : First events w before' f') :
    before = before' ∧ f = f' := by
  obtain ⟨⟨after, rfl⟩, hf, hnot⟩ := h
  obtain ⟨⟨after', he⟩, hf', hnot'⟩ := h'
  obtain ⟨c, rfl, hc⟩ | ⟨c, rfl, hc⟩ := List.append_eq_append_iff.mp he <;> cases c with
  | nil => simp_all
  | cons x c =>
    simp only [List.cons_append, List.cons.injEq] at hc
    simp_all

theorem first_append_singleton (h : First (events ++ [e]) w before f) :
    First events w before f ∨ (before = events ∧ f = e ∧ ∀ j, ¬ Arrived events w j) := by
  obtain ⟨⟨after, he⟩, hw, hnot⟩ := h
  rcases List.eq_nil_or_concat' after with rfl | ⟨after, y, rfl⟩
  · obtain ⟨rfl, hf⟩ := List.append_inj' he rfl
    cases hf
    exact .inr ⟨rfl, rfl, fun j ⟨x, hx, hxw, _⟩ => hnot x hx hxw⟩
  · rw [← List.cons_append, ← List.append_assoc] at he
    obtain ⟨rfl, -⟩ := List.append_inj' he rfl
    exact .inl ⟨⟨after, rfl⟩, hw, hnot⟩

theorem Schedule.left (h : Schedule family (events ++ after)) : Schedule family events where
  valid := fun e he => h.valid e (List.mem_append_left _ he)
  once := by
    have := h.once
    rw [List.map_append] at this
    exact this.of_append_left
  ordered := (List.pairwise_append.mp h.ordered).1

theorem Schedule.fresh (h : Schedule family (events ++ e :: after)) :
    ¬ Arrived events e.source e.index := by
  rintro ⟨x, hx, hs, hi⟩
  have honce := h.once
  rw [List.map_append, List.nodup_append] at honce
  exact honce.2.2 (x.source, x.index) (List.mem_map.mpr ⟨x, hx, rfl⟩)
    (e.source, e.index) (by simp) (by rw [hs, hi])

theorem Schedule.time_le (h : Schedule family (events ++ e :: after)) :
    ∀ x ∈ events, x.time ≤ e.time :=
  fun x hx => (List.pairwise_append.mp h.ordered).2.2 x hx e (by simp)

-- ---------------------------------------------------------------------------
-- The invariant
-- ---------------------------------------------------------------------------

def Pushed (family : ι → Message) (events : List (Arrival ι)) (m : Message) (j : Nat) : Prop :=
  ∃ w, family w = m ∧ Arrived events w j

structure Tracked (family : ι → Message) (events : List (Arrival ι)) (r : Reassembler) : Prop where
  sound : r.Sound (Pushed family events)
  -- An assembly with the first fragment was created by it and missed nothing.
  first : ∀ w before f a, First events w before f →
    r.pending.lookup (family w).message = some a → a.holds f.index →
    Room family before f ∧ a.created = f.time ∧ ∀ j, Arrived events w j → a.holds j
  -- A first fragment that found room stays until completion or expiry.
  live : ∀ w before f, First events w before f → (family w).count ≠ 1 → Room family before f →
    ¬ Complete family events w → ∀ t, (∀ e ∈ events, e.time ≤ t) → t - f.time < lifetime →
    ∃ a, r.pending.lookup (family w).message = some a ∧ a.holds f.index

theorem tracked_nil : Tracked family [] .default where
  sound := Reassembler.sound_default
  first := by
    rintro w before f a ⟨⟨after, h⟩, -⟩
    simp at h
  live := by
    rintro w before f ⟨⟨after, h⟩, -⟩
    simp at h

section
variable {r : Reassembler} (hids : ∀ u w, (family u).message = (family w).message → u = w)
  (hlen : ∀ w, (family w).payload.length ≤ maxPayload)
include hids

theorem pushed_unique (h : Pushed family events m j) (hm : m.message = (family w).message) :
    m = family w := by
  obtain ⟨u, rfl, -⟩ := h
  rw [hids u w hm]

theorem Tracked.of (h : Tracked family events r)
    (ha : r.pending.lookup (family w).message = some a) :
    a.Of (family w) ∧ (∃ j, a.holds j) ∧ ∀ j, a.holds j → Arrived events w j := by
  obtain ⟨hof, hne, hheld⟩ := h.sound.of (fun _ _ hp hm => pushed_unique hids hp hm) ha
  refine ⟨hof, hne, fun j hj => ?_⟩
  obtain ⟨u, hu, harr⟩ := hheld j hj
  rwa [← hids u w (by rw [hu])]

include hlen

theorem Tracked.other (h : Tracked family events r) (hs : Schedule family (events ++ [e]))
    (hw : w ≠ e.source) :
    (∀ before f a, First (events ++ [e]) w before f →
      (push family e r).2.pending.lookup (family w).message = some a → a.holds f.index →
      Room family before f ∧ a.created = f.time ∧ ∀ j, Arrived (events ++ [e]) w j → a.holds j) ∧
    ∀ before f, First (events ++ [e]) w before f → (family w).count ≠ 1 → Room family before f →
      ¬ Complete family (events ++ [e]) w → ∀ t, (∀ x ∈ events ++ [e], x.time ≤ t) →
      t - f.time < lifetime →
      ∃ a, (push family e r).2.pending.lookup (family w).message = some a ∧ a.holds f.index := by
  have hkey : (family w).message ≠ (family e.source).message := fun hm => hw (hids _ _ hm)
  have hi : e.index < (family e.source).count := hs.valid e (by simp)
  have hframe := Reassembler.lookup_push_of_ne (r := r)
    (decode_fragment (family e.source) (hlen e.source) hi) hkey e.time
  have harr : ∀ j, Arrived (events ++ [e]) w j ↔ Arrived events w j := fun j => by
    rw [arrived_append_singleton]
    exact or_iff_left fun he => hw he.1.symm
  have hfirst : ∀ {before f}, First (events ++ [e]) w before f → First events w before f := by
    intro before f hf
    rcases first_append_singleton hf with hf' | ⟨-, rfl, -⟩
    · exact hf'
    · exact absurd hf.2.1.symm hw
  constructor
  · intro before f a hf ha hheld
    have hold : r.pending.lookup (family w).message = some a := by
      rcases hframe with hsame | hexp
      · exact hsame ▸ ha
      · exact (Reassembler.lookup_expire.mp (hexp ▸ ha)).1
    obtain ⟨hroom, hcreated, hall⟩ := h.first w before f a (hfirst hf) hold hheld
    exact ⟨hroom, hcreated, fun j hj => hall j ((harr j).mp hj)⟩
  · intro before f hf hcount hroom hinc t ht hlife
    have hinc' : ¬ Complete family events w := fun hc => hinc fun j hj => (harr j).mpr (hc j hj)
    obtain ⟨a, ha, hheld⟩ := h.live w before f (hfirst hf) hcount hroom hinc' t
      (fun x hx => ht x (List.mem_append_left _ hx)) hlife
    refine ⟨a, ?_, hheld⟩
    have hcreated := (h.first w before f a (hfirst hf) ha hheld).2.1
    have het : e.time ≤ t := ht e (by simp)
    have hkept : (r.expire e.time).pending.lookup (family w).message = some a :=
      Reassembler.lookup_expire.mpr ⟨ha, by omega⟩
    rcases hframe with hsame | hexp
    · exact hsame.trans ha
    · exact hexp.trans hkept

def stored (family : ι → Message) (e : Arrival ι) (r : Reassembler) : Assembly :=
  ((r.expire e.time).entry ((family e.source).part e.index) e.time).put
    ((family e.source).part e.index)

omit hlen in
theorem Tracked.holds_stored (h : Tracked family events r)
    (hi : e.index < (family e.source).count) :
    (stored family e r).holds j ↔ j = e.index ∨
      ∃ a, (r.expire e.time).pending.lookup (family e.source).message = some a ∧ a.holds j ∧
        (stored family e r).created = a.created := by
  have hentry : ((r.expire e.time).entry ((family e.source).part e.index) e.time).Of
      (family e.source) :=
    Reassembler.entry_of fun a ha => (h.of hids (Reassembler.lookup_expire.mp ha).1).1
  have hindex : ((family e.source).part e.index).index <
      ((r.expire e.time).entry ((family e.source).part e.index) e.time).parts.length := by
    rw [hentry.parts]
    exact hi
  rw [stored, Assembly.holds_put hindex]
  refine or_congr_right ⟨fun hj => ?_, fun ⟨a, ha, hj, _⟩ => ?_⟩
  · obtain ⟨a, ha, hja, heq⟩ := Reassembler.holds_entry hj
    exact ⟨a, ha, hja, by rw [← heq]; rfl⟩
  · have heq : (r.expire e.time).entry ((family e.source).part e.index) e.time = a := by
      simp only [Reassembler.entry, Message.part] at ha ⊢
      rw [ha]
      rfl
    rwa [heq]

omit hlen in
theorem Tracked.first_own (h : Tracked family events (run family events))
    (hs : Schedule family (events ++ [e]))
    (hroom : (family e.source).message ∈ ((run family events).expire e.time).pending ∨
      ((run family events).expire e.time).pending.size < maxAssemblies)
    (hf : First (events ++ [e]) e.source before f)
    (hheld : (stored family e (run family events)).holds f.index) :
    Room family before f ∧ (stored family e (run family events)).created = f.time ∧
      ∀ j, Arrived (events ++ [e]) e.source j → (stored family e (run family events)).holds j := by
  have hi : e.index < (family e.source).count := hs.valid e (by simp)
  rcases first_append_singleton hf with hf' | ⟨rfl, rfl, hnone⟩
  · -- The first fragment came earlier, so it sits in an old assembly.
    have hne : f.index ≠ e.index := fun he => hs.fresh (he ▸ hf'.arrived)
    obtain ⟨a, ha, hja, hcreated⟩ := ((h.holds_stored hids hi).mp hheld).resolve_left hne
    obtain ⟨hroom', htime, hall⟩ :=
      h.first e.source before f a hf' (Reassembler.lookup_expire.mp ha).1 hja
    refine ⟨hroom', hcreated.trans htime, fun j hj => (h.holds_stored hids hi).mpr ?_⟩
    rcases arrived_append_singleton.mp hj with hj | ⟨-, rfl⟩
    · exact .inr ⟨a, ha, hall j hj, hcreated⟩
    · exact .inl rfl
  · -- It is the first fragment: no assembly can be there yet.
    have hlookup : ((run family before).expire f.time).pending.lookup
        (family f.source).message = none := by
      cases ha : ((run family before).expire f.time).pending.lookup (family f.source).message with
      | none => rfl
      | some a =>
        obtain ⟨-, ⟨j, hj⟩, harr⟩ := h.of hids (Reassembler.lookup_expire.mp ha).1
        exact absurd (harr j hj) (hnone j)
    refine ⟨hroom.resolve_left (AList.lookup_eq_none.mp hlookup), ?_, fun j hj => ?_⟩
    · simp only [stored, Reassembler.entry, Assembly.put, Message.part, hlookup, Option.getD_none]
    · obtain hj | ⟨-, rfl⟩ := arrived_append_singleton.mp hj
      · exact absurd hj (hnone j)
      · exact (h.holds_stored hids hi).mpr (.inl rfl)

omit hlen in
theorem Tracked.live_own (h : Tracked family events r) (hs : Schedule family (events ++ [e]))
    (hf : First events e.source before f) (hcount : (family e.source).count ≠ 1)
    (hroom : Room family before f) (hlife : e.time - f.time < lifetime) :
    (family e.source).message ∈ (r.expire e.time).pending ∧ (stored family e r).holds f.index := by
  have hi : e.index < (family e.source).count := hs.valid e (by simp)
  have hinc : ¬ Complete family events e.source := fun hc => hs.fresh (hc e.index hi)
  obtain ⟨a, ha, hheld⟩ := h.live e.source before f hf hcount hroom hinc e.time hs.time_le hlife
  have hcreated := (h.first e.source before f a hf ha hheld).2.1
  have hkept : (r.expire e.time).pending.lookup (family e.source).message = some a :=
    Reassembler.lookup_expire.mpr ⟨ha, by omega⟩
  refine ⟨AList.mem_of_lookup hkept, (h.holds_stored hids hi).mpr (.inr ⟨a, hkept, hheld, ?_⟩)⟩
  simp only [stored, Reassembler.entry, Assembly.put, Message.part, hkept, Option.getD_some]

theorem Tracked.first_step (h : Tracked family events (run family events))
    (hs : Schedule family (events ++ [e])) (hf : First (events ++ [e]) e.source before f)
    (ha : (push family e (run family events)).2.pending.lookup (family e.source).message = some a)
    (hheld : a.holds f.index) :
    Room family before f ∧ a.created = f.time ∧ ∀ j, Arrived (events ++ [e]) e.source j →
    a.holds j := by
  have hi : e.index < (family e.source).count := hs.valid e (by simp)
  have hown : ∀ a, (run family events).pending.lookup (family e.source).message = some a →
      a.Of (family e.source) := fun a ha => (h.of hids ha).1
  by_cases hcount : (family e.source).count = 1
  · -- A single-fragment message has no assembly: its one fragment never arrived before.
    rw [push, Reassembler.push_single (hlen e.source) hcount hi] at ha
    obtain ⟨hof, ⟨j, hj⟩, harr⟩ := h.of hids ha
    obtain ⟨b, hb⟩ := hj
    have hjlt : j < a.parts.length := (List.getElem?_eq_some_iff.mp hb).1
    rw [hof.parts, hcount] at hjlt
    obtain rfl : j = e.index := by omega
    exact absurd (harr e.index ⟨b, hb⟩) hs.fresh
  · obtain ⟨hnot, -, hpush⟩ | ⟨hroom, -, ⟨-, hpush⟩ | ⟨-, hpush⟩⟩ :=
      Reassembler.push_part (hlen e.source) hcount hi hown e.time
    · rw [push, hpush] at ha
      exact absurd (AList.mem_of_lookup ha) hnot
    · rw [push, hpush, AList.lookup_insert] at ha
      obtain rfl := Option.some.inj ha
      exact h.first_own hids hs hroom hf hheld
    · rw [push, hpush, AList.lookup_erase] at ha
      cases ha

theorem Tracked.live_step (h : Tracked family events (run family events))
    (hs : Schedule family (events ++ [e])) (hf : First (events ++ [e]) e.source before f)
    (hcount : (family e.source).count ≠ 1) (hroom : Room family before f)
    (hinc : ¬ Complete family (events ++ [e]) e.source) (hlife : e.time - f.time < lifetime) :
    ∃ a, (push family e (run family events)).2.pending.lookup (family e.source).message = some a ∧
      a.holds f.index := by
  have hi : e.index < (family e.source).count := hs.valid e (by simp)
  obtain ⟨hnot, hfull, hpush⟩ | ⟨-, -, ⟨-, hpush⟩ | ⟨hall, hpush⟩⟩ :=
    Reassembler.push_part (hlen e.source) hcount hi (fun a ha => (h.of hids ha).1) e.time
  · rcases first_append_singleton hf with hf' | ⟨rfl, rfl, -⟩
    · exact absurd (h.live_own hids hs hf' hcount hroom hlife).1 hnot
    · exact absurd hroom (Nat.not_lt.mpr hfull)
  · rw [push, hpush, AList.lookup_insert]
    refine ⟨_, rfl, ?_⟩
    rcases first_append_singleton hf with hf' | ⟨rfl, rfl, -⟩
    · exact (h.live_own hids hs hf' hcount hroom hlife).2
    · exact (h.holds_stored hids hi).mpr (.inl rfl)
  · -- Every fragment is there, so the message is complete.
    refine absurd (fun j hj => arrived_append_singleton.mpr ?_) hinc
    rcases (h.holds_stored hids hi).mp (hall j hj) with rfl | ⟨a, ha, hja, -⟩
    · exact .inr ⟨rfl, rfl⟩
    · exact .inl ((h.of hids (Reassembler.lookup_expire.mp ha).1).2.2 j hja)

theorem Tracked.step (h : Tracked family events (run family events))
    (hs : Schedule family (events ++ [e])) :
    Tracked family (events ++ [e]) (run family (events ++ [e])) := by
  have hi : e.index < (family e.source).count := hs.valid e (by simp)
  rw [run_append_singleton]
  refine ⟨?_, ?_, ?_⟩
  · refine (h.sound.push (fun _ _ hp hm => pushed_unique hids hp hm) (hlen e.source) hi
      e.time).1.mono ?_
    rintro m j (⟨w, hw, harr⟩ | ⟨rfl, rfl⟩)
    · exact ⟨w, hw, arrived_append_singleton.mpr (.inl harr)⟩
    · exact ⟨e.source, rfl, arrived_append_singleton.mpr (.inr ⟨rfl, rfl⟩)⟩
  · intro w before f a hf ha hheld
    by_cases hw : w = e.source
    · subst hw
      exact h.first_step hids hlen hs hf ha hheld
    · exact (h.other hids hlen hs hw).1 before f a hf ha hheld
  · intro w before f hf hcount hroom hinc t ht hlife
    by_cases hw : w = e.source
    · subst hw
      have het : e.time ≤ t := ht e (by simp)
      exact h.live_step hids hlen hs hf hcount hroom hinc (by omega)
    · exact (h.other hids hlen hs hw).2 before f hf hcount hroom hinc t ht hlife

theorem tracked_run (hs : Schedule family events) : Tracked family events (run family events) := by
  induction events using List.reverseRecOn with
  | nil => exact tracked_nil
  | append_singleton events e ih => exact (ih hs.left).step hids hlen hs

omit hids hlen in
theorem First.earlier (hcount : (family e.source).count ≠ 1)
    (hc : Complete family (events ++ [e]) e.source) (hf : First (events ++ [e]) e.source before f) :
    First events e.source before f := by
  have hpos : 0 < (family e.source).count := Chunks.count_pos _ _
  refine (first_append_singleton hf).resolve_right ?_
  rintro ⟨-, -, hnone⟩
  obtain ⟨j, hj, hne⟩ : ∃ j < (family e.source).count, j ≠ e.index := by
    by_cases h0 : e.index = 0
    · exact ⟨1, by omega, by omega⟩
    · exact ⟨0, hpos, fun h => h0 h.symm⟩
  rcases arrived_append_singleton.mp (hc j hj) with harr | ⟨-, he⟩
  · exact hnone j harr
  · exact hne he.symm

theorem push_result (hs : Schedule family (events ++ [e])) (hcount : (family e.source).count ≠ 1) :
    (push family e (run family events)).1 = .ok none ∧
        ¬ (Complete family (events ++ [e]) e.source ∧
          InTime family (events ++ [e]) e.source e.time) ∨
      (push family e (run family events)).1 = .ok (some (family e.source).packet) ∧
        Complete family (events ++ [e]) e.source ∧
        InTime family (events ++ [e]) e.source e.time := by
  have h : Tracked family events (run family events) := tracked_run hids hlen hs.left
  have hi : e.index < (family e.source).count := hs.valid e (by simp)
  have hown : ∀ a, (run family events).pending.lookup (family e.source).message = some a →
      a.Of (family e.source) := fun a ha => (h.of hids ha).1
  obtain ⟨hnot, -, hpush⟩ | ⟨hroom, -, ⟨hmiss, hpush⟩ | ⟨hall, hpush⟩⟩ :=
    Reassembler.push_part (hlen e.source) hcount hi hown e.time
  · refine .inl ⟨congrArg Prod.fst hpush, ?_⟩
    rintro ⟨hc, before, f, hf, hr, hlife⟩
    exact hnot (h.live_own hids hs (First.earlier hcount hc hf) hcount hr hlife).1
  · refine .inl ⟨congrArg Prod.fst hpush, ?_⟩
    rintro ⟨hc, before, f, hf, hr, hlife⟩
    have hheld := (h.live_own hids hs (First.earlier hcount hc hf) hcount hr hlife).2
    exact hmiss fun j hj => (h.first_own hids hs hroom hf hheld).2.2 j (hc j hj)
  · have hc : Complete family (events ++ [e]) e.source := by
      intro j hj
      rcases (h.holds_stored hids hi).mp (hall j hj) with rfl | ⟨a, ha, hja, -⟩
      · exact ⟨e, by simp, rfl, rfl⟩
      · exact arrived_append_singleton.mpr
          (.inl ((h.of hids (Reassembler.lookup_expire.mp ha).1).2.2 j hja))
    obtain ⟨before, f, hf⟩ := exists_first (hc e.index hi)
    have hf' := First.earlier hcount hc hf
    have hheld : (stored family e (run family events)).holds f.index := by
      obtain ⟨⟨after, he⟩, hw, -⟩ := hf
      exact hall f.index (hw ▸ hs.valid f (by simp [he]))
    obtain ⟨hr, hcreated, -⟩ := h.first_own hids hs hroom hf hheld
    have hne : f.index ≠ e.index := fun he => hs.fresh (he ▸ hf'.arrived)
    obtain ⟨a, ha, -, hsame⟩ := ((h.holds_stored hids hi).mp hheld).resolve_left hne
    have hlife := (Reassembler.lookup_expire.mp ha).2
    exact .inr ⟨congrArg Prod.fst hpush, hc, before, f, hf, hr, by omega⟩

end

-- ---------------------------------------------------------------------------
-- Whole schedules
-- ---------------------------------------------------------------------------

theorem complete_iff_last (hs : Schedule family (before ++ e :: after)) :
    Complete family (before ++ [e]) e.source ↔
      (∀ x ∈ after, x.source ≠ e.source) ∧ Complete family (before ++ e :: after) e.source := by
  have hsplit : before ++ e :: after = before ++ [e] ++ after := by simp
  constructor
  · intro hc
    refine ⟨fun x hx hw => ?_, fun j hj => ?_⟩
    · obtain ⟨after₁, after₂, rfl⟩ := List.append_of_mem hx
      have hs' : Schedule family ((before ++ [e] ++ after₁) ++ x :: after₂) := by simpa using hs
      have hx : x.index < (family e.source).count := hw ▸ hs.valid x (by simp)
      exact hs'.fresh ((hw ▸ hc x.index hx).append after₁)
    · exact hsplit ▸ (hc j hj).append after
  · rintro ⟨hl, hc⟩ j hj
    obtain ⟨x, hx, hw, hxj⟩ := hc j hj
    rw [hsplit, List.mem_append] at hx
    exact ⟨x, hx.resolve_right fun hx => hl x hx hw, hw, hxj⟩

theorem inTime_append (h : Arrived events w j) :
    InTime family (events ++ after) w time ↔ InTime family events w time := by
  constructor
  · rintro ⟨pre, f, hf, hroom⟩
    obtain ⟨pre', f', hf'⟩ := exists_first h
    obtain ⟨rfl, rfl⟩ := (hf'.append after).unique hf
    exact ⟨pre', f', hf', hroom⟩
  · rintro ⟨pre, f, hf, hroom⟩
    exact ⟨pre, f, hf.append after, hroom⟩

/-- No push fails, and a push returns a packet exactly when its message has one
fragment, or when it is the last of all the message's fragments, the first of
which found room less than two seconds earlier; the packet is the message's own. -/
theorem push_exact (family : ι → Message) (events : List (Arrival ι))
    (hids : ∀ u w, (family u).message = (family w).message → u = w)
    (hlen : ∀ w, (family w).payload.length ≤ maxPayload) (hs : Schedule family events)
    (before after : List (Arrival ι)) (e : Arrival ι) (he : events = before ++ e :: after) :
    ∃ result, (push family e (run family before)).1 = .ok result ∧
      ∀ p, result = some p ↔ p = (family e.source).packet ∧
        ((family e.source).count = 1 ∨
          (∀ x ∈ after, x.source ≠ e.source) ∧ Complete family events e.source ∧
            InTime family events e.source e.time) := by
  subst he
  have hsplit : before ++ e :: after = before ++ [e] ++ after := by simp
  have hs' : Schedule family (before ++ [e]) := (hsplit ▸ hs).left
  have hi : e.index < (family e.source).count := hs'.valid e (by simp)
  by_cases hcount : (family e.source).count = 1
  · refine ⟨some (family e.source).packet, ?_, fun p => ?_⟩
    · rw [push, Reassembler.push_single (hlen e.source) hcount hi]
    · simp [hcount, eq_comm]
  have hlast := complete_iff_last hs
  have htime : InTime family (before ++ e :: after) e.source e.time ↔
      InTime family (before ++ [e]) e.source e.time := by
    rw [hsplit]
    exact inTime_append ⟨e, by simp, rfl, rfl⟩
  rcases push_result hids hlen hs' hcount with ⟨hr, hno⟩ | ⟨hr, hc, ht⟩
  · refine ⟨none, hr, fun p => ⟨fun h => (nomatch h), ?_⟩⟩
    rintro ⟨-, h1 | ⟨hl, hc, ht⟩⟩
    · exact absurd h1 hcount
    · have hc' := hlast.mpr ⟨hl, hc⟩
      exact absurd ⟨hc', htime.mp ht⟩ hno
  · refine ⟨some (family e.source).packet, hr, fun p => ?_⟩
    obtain ⟨hl, hc'⟩ := hlast.mp hc
    exact ⟨fun h => ⟨(Option.some.inj h).symm, .inr ⟨hl, hc', htime.mpr ht⟩⟩,
      fun h => by rw [h.1]⟩

def Last (events : List (Arrival ι)) (w : ι) (before : List (Arrival ι)) (e : Arrival ι) : Prop :=
  ∃ after, events = before ++ e :: after ∧ e.source = w ∧ ∀ x ∈ after, x.source ≠ w

/-- The push of `e`, after those of `before`, hands on the packet of `w`. -/
def Returned (family : ι → Message) (events : List (Arrival ι)) (w : ι)
    (before : List (Arrival ι)) (e : Arrival ι) : Prop :=
  (∃ after, events = before ++ e :: after) ∧ e.source = w ∧
    (push family e (run family before)).1 = .ok (some (family w).packet)

theorem Last.unique (h : Last events w before e) (h' : Last events w before' e') :
    before = before' ∧ e = e' := by
  obtain ⟨after, rfl, he, hnot⟩ := h
  obtain ⟨after', heq, he', hnot'⟩ := h'
  obtain ⟨c, rfl, hc⟩ | ⟨c, rfl, hc⟩ := List.append_eq_append_iff.mp heq <;> cases c with
  | nil => simp_all
  | cons x c =>
    simp only [List.cons_append, List.cons.injEq] at hc
    simp_all

-- ---------------------------------------------------------------------------
-- What is pending
-- ---------------------------------------------------------------------------

/-- A message of several fragments that is under way at `time`: an arrival less
than two seconds ago began it, some fragment has not arrived since, and it was
never handed on. One that expired and was begun again misses its earlier fragments,
which arrive only once. -/
def Unfinished (family : ι → Message) (events : List (Arrival ι)) (time : Nat) (w : ι) : Prop :=
  (family w).count ≠ 1 ∧ (∀ before e, ¬ Returned family events w before e) ∧
    ∃ before f after, events = before ++ f :: after ∧ f.source = w ∧ time - f.time < lifetime ∧
      ∃ j < (family w).count, ¬ Arrived (f :: after) w j

/-- `f` opened the assembly `a` of `w`, which holds what has arrived since. -/
structure Opens (family : ι → Message) (events : List (Arrival ι)) (w : ι) (a : Assembly)
    (before : List (Arrival ι)) (f : Arrival ι) (after : List (Arrival ι)) : Prop where
  split : events = before ++ f :: after
  source : f.source = w
  created : a.created = f.time
  holds : ∀ j, a.holds j ↔ Arrived (f :: after) w j
  missing : ∃ j < (family w).count, ¬ a.holds j

theorem Opens.append {a' : Assembly} (h : Opens family events w a before f after)
    (hcreated : a'.created = a.created)
    (hholds : ∀ j, a'.holds j ↔ a.holds j ∨ e.source = w ∧ e.index = j)
    (hmissing : ∃ j < (family w).count, ¬ a'.holds j) :
    Opens family (events ++ [e]) w a' before f (after ++ [e]) where
  split := by rw [h.split, List.append_assoc, List.cons_append]
  source := h.source
  created := hcreated.trans h.created
  holds := by
    intro j
    rw [hholds, h.holds, ← List.cons_append, arrived_append_singleton]
  missing := hmissing

def Opened (family : ι → Message) (events : List (Arrival ι)) (r : Reassembler) : Prop :=
  ∀ w a, r.pending.lookup (family w).message = some a →
    (family w).count ≠ 1 ∧ ∃ before f after, Opens family events w a before f after

section
variable (hids : ∀ u w, (family u).message = (family w).message → u = w)
  (hlen : ∀ w, (family w).payload.length ≤ maxPayload)
include hids hlen

theorem Opened.other (h : Opened family events (run family events))
    (hs : Schedule family (events ++ [e])) (hw : w ≠ e.source)
    (ha : (run family (events ++ [e])).pending.lookup (family w).message = some a) :
    (family w).count ≠ 1 ∧ ∃ before f after, Opens family (events ++ [e]) w a before f after := by
  have hkey : (family w).message ≠ (family e.source).message := fun hm => hw (hids _ _ hm)
  have hold : (run family events).pending.lookup (family w).message = some a := by
    rw [run_append_singleton] at ha
    rcases Reassembler.lookup_push_of_ne (r := run family events)
      (decode_fragment _ (hlen e.source) (hs.valid e (by simp))) hkey e.time with hsame | hexp
    · exact hsame ▸ ha
    · exact (Reassembler.lookup_expire.mp (hexp ▸ ha)).1
  obtain ⟨hcount, before, f, after, hopens⟩ := h w a hold
  refine ⟨hcount, before, f, after ++ [e], hopens.append rfl (fun j => ?_) hopens.missing⟩
  exact (or_iff_left fun he => hw he.1.symm).symm

theorem Opened.own (h : Opened family events (run family events))
    (hs : Schedule family (events ++ [e]))
    (ha : (run family (events ++ [e])).pending.lookup (family e.source).message = some a) :
    (family e.source).count ≠ 1 ∧
      ∃ before f after, Opens family (events ++ [e]) e.source a before f after := by
  have ht : Tracked family events (run family events) := tracked_run hids hlen hs.left
  have hi : e.index < (family e.source).count := hs.valid e (by simp)
  rw [run_append_singleton, push] at ha
  by_cases hcount : (family e.source).count = 1
  · rw [Reassembler.push_single (hlen e.source) hcount hi] at ha
    exact absurd hcount (h e.source a ha).1
  refine ⟨hcount, ?_⟩
  obtain ⟨hnot, -, hpush⟩ | ⟨-, -, ⟨hmiss, hpush⟩ | ⟨-, hpush⟩⟩ :=
    Reassembler.push_part (hlen e.source) hcount hi (fun a ha => (ht.of hids ha).1) e.time
  · rw [hpush] at ha
    exact absurd (AList.mem_of_lookup ha) hnot
  · rw [hpush, AList.lookup_insert] at ha
    obtain rfl : stored family e (run family events) = a := Option.some.inj ha
    have hmissing : ∃ j < (family e.source).count,
        ¬ (stored family e (run family events)).holds j := by
      push Not at hmiss
      exact hmiss
    cases hl : ((run family events).expire e.time).pending.lookup (family e.source).message with
    | none =>
      -- No assembly is there, so this arrival opens one.
      refine ⟨events, e, [], rfl, rfl, ?_, fun j => ?_, hmissing⟩
      · simp only [stored, Reassembler.entry, Assembly.put, Message.part, hl, Option.getD_none]
      · rw [ht.holds_stored hids hi, hl]
        simp [Arrived, eq_comm]
    | some old =>
      obtain ⟨-, before, f, after, hopens⟩ := h e.source old (Reassembler.lookup_expire.mp hl).1
      have hcreated : (stored family e (run family events)).created = old.created := by
        simp only [stored, Reassembler.entry, Assembly.put, Message.part, hl, Option.getD_some]
      refine ⟨before, f, after ++ [e], hopens.append hcreated (fun j => ?_) hmissing⟩
      rw [ht.holds_stored hids hi, hl]
      simp [hcreated, eq_comm, or_comm]
  · rw [hpush, AList.lookup_erase] at ha
    cases ha

theorem opened_run (hs : Schedule family events) : Opened family events (run family events) := by
  induction events using List.reverseRecOn with
  | nil =>
    intro w a ha
    simp [run, Reassembler.default] at ha
  | append_singleton events e ih =>
    intro w a ha
    by_cases hw : w = e.source
    · subst hw
      exact (ih hs.left).own hids hlen hs ha
    · exact (ih hs.left).other hids hlen hs hw ha

theorem lookup_of_returned (hs : Schedule family (events ++ [e]))
    (hcount : (family e.source).count ≠ 1)
    (hret : (push family e (run family events)).1 = .ok (some p)) :
    (run family (events ++ [e])).pending.lookup (family e.source).message = none := by
  have ht : Tracked family events (run family events) := tracked_run hids hlen hs.left
  rw [push] at hret
  rw [run_append_singleton, push]
  obtain ⟨-, -, hpush⟩ | ⟨-, -, ⟨-, hpush⟩ | ⟨-, hpush⟩⟩ :=
    Reassembler.push_part (hlen e.source) hcount (hs.valid e (by simp))
      (fun a ha => (ht.of hids ha).1) e.time
  · simp [hpush] at hret
  · simp [hpush] at hret
  · rw [hpush, AList.lookup_erase]

theorem lookup_run_append (hs : Schedule family (events ++ after))
    (hnot : ∀ x ∈ after, x.source ≠ w)
    (hnone : (run family events).pending.lookup (family w).message = none) :
    (run family (events ++ after)).pending.lookup (family w).message = none := by
  induction after using List.reverseRecOn with
  | nil => rwa [List.append_nil]
  | append_singleton after x ih =>
    rw [← List.append_assoc] at hs ⊢
    have hprev := ih hs.left fun y hy => hnot y (List.mem_append_left _ hy)
    have hkey : (family w).message ≠ (family x.source).message :=
      fun hm => hnot x (by simp) (hids _ _ hm).symm
    rw [run_append_singleton, push]
    rcases Reassembler.lookup_push_of_ne (r := run family (events ++ after))
      (decode_fragment _ (hlen x.source) (hs.valid x (by simp))) hkey x.time with hsame | hexp
    · rw [hsame, hprev]
    · rw [hexp, Option.eq_none_iff_forall_ne_some]
      intro a ha
      rw [(Reassembler.lookup_expire.mp ha).1] at hprev
      cases hprev

theorem not_returned_of_lookup (hs : Schedule family events) (hcount : (family w).count ≠ 1)
    (ha : (run family events).pending.lookup (family w).message = some a) :
    ∀ before e, ¬ Returned family events w before e := by
  rintro before e ⟨⟨after, rfl⟩, rfl, hret⟩
  obtain ⟨result, hr, hiff⟩ := push_exact family _ hids hlen hs before after e rfl
  have hresult : result = some (family e.source).packet := by
    rw [hr] at hret
    exact Except.ok.inj hret
  have hlast := (((hiff _).mp hresult).2.resolve_left hcount).1
  have hs' : Schedule family (before ++ [e] ++ after) := by simpa using hs
  have hnone :=
    lookup_run_append hids hlen hs' hlast (lookup_of_returned hids hlen hs'.left hcount hret)
  rw [List.append_assoc, List.singleton_append, ha] at hnone
  cases hnone

theorem unfinished_of_lookup (hs : Schedule family events) (time : Nat)
    (ha : ((run family events).expire time).pending.lookup (family w).message = some a) :
    Unfinished family events time w := by
  obtain ⟨ha, hlife⟩ := Reassembler.lookup_expire.mp ha
  obtain ⟨hcount, before, f, after, hopens⟩ := opened_run hids hlen hs w a ha
  obtain ⟨j, hj, hmiss⟩ := hopens.missing
  refine ⟨hcount, not_returned_of_lookup hids hlen hs hcount ha, before, f, after, hopens.split,
    hopens.source, ?_, j, hj, fun harr => hmiss ((hopens.holds j).mpr harr)⟩
  rwa [← hopens.created]

/-- A message that is not complete and whose first arrival found room less than
two seconds ago is pending. -/
theorem mem_pending_of_inTime (hs : Schedule family events) (htime : ∀ e ∈ events, e.time ≤ time)
    (hcount : (family w).count ≠ 1) (hinc : ¬ Complete family events w)
    (hin : InTime family events w time) :
    (family w).message ∈ ((run family events).expire time).pending := by
  have ht : Tracked family events (run family events) := tracked_run hids hlen hs
  obtain ⟨before, f, hf, hroom, hlife⟩ := hin
  obtain ⟨a, ha, hheld⟩ := ht.live w before f hf hcount hroom hinc time htime hlife
  have hcreated := (ht.first w before f a hf ha hheld).2.1
  exact AList.mem_of_lookup (Reassembler.lookup_expire.mpr ⟨ha, by omega⟩)

theorem exists_sources (hs : Schedule family events) (time : Nat) :
    ∃ others : List ι, others.Nodup ∧
      others.length = ((run family events).expire time).pending.size ∧
      ∀ w, w ∈ others ↔ (family w).message ∈ ((run family events).expire time).pending := by
  have ht : Tracked family events (run family events) := tracked_run hids hlen hs
  have hrange : ∀ id ∈ ((run family events).expire time).pending.keys,
      id ∈ Set.range fun w => (family w).message := by
    intro id hid
    obtain ⟨a, ha⟩ := Option.isSome_iff_exists.mp
      (AList.lookup_isSome.mpr (AList.mem_keys.mpr hid))
    obtain ⟨m, rfl, -, ⟨j, hj⟩, hheld⟩ := ht.sound id a (Reassembler.lookup_expire.mp ha).1
    obtain ⟨w, rfl, -⟩ := hheld j hj
    exact ⟨w, rfl⟩
  obtain ⟨others, hothers⟩ : ((run family events).expire time).pending.keys ∈
      Set.range (List.map fun w => (family w).message) := by
    rw [Set.range_list_map]
    exact hrange
  refine ⟨others, ?_, ?_, fun w => ?_⟩
  · refine List.Nodup.of_map (fun w => (family w).message) ?_
    rw [hothers]
    exact AList.keys_nodup _
  · rw [AList.size_eq_length_keys, ← hothers, List.length_map]
  · rw [AList.mem_keys, ← hothers]
    exact (List.mem_map_of_injective fun u v h => hids u v h).symm

end

/-- Reassembly delivers exactly the complete messages: over any schedule of
fragments of messages with distinct IDs, no push fails, only a message's own
packet is returned, a single-fragment message at its push, and a longer one
exactly when all of its fragments arrive, the first found room and the last came
less than two seconds after it; then once, at the push of the last. What takes up
room at an arrival is one entry for each of the `others`, messages under way that
were not handed on, and every message that can still come out is among them. -/
theorem reassembly_exact (family : ι → Message) (events : List (Arrival ι))
    (hids : ∀ u w, (family u).message = (family w).message → u = w)
    (hlen : ∀ w, (family w).payload.length ≤ maxPayload) (hs : Schedule family events) :
    (∀ before e after, events = before ++ e :: after →
      (push family e (run family before)).1 = .ok none ∨
        (push family e (run family before)).1 = .ok (some (family e.source).packet)) ∧
    (∀ before e after, events = before ++ e :: after → (family e.source).count = 1 →
      Returned family events e.source before e) ∧
    (∀ w, (family w).count ≠ 1 →
      ((∃ before e, Returned family events w before e) ↔
        Complete family events w ∧
          ∃ before e, Last events w before e ∧ InTime family events w e.time) ∧
      ∀ before e, Returned family events w before e → Last events w before e ∧
        ∀ before' e', Returned family events w before' e' → before' = before ∧ e' = e) ∧
    ∀ before e after, events = before ++ e :: after → ∃ others : List ι, others.Nodup ∧
      others.length = ((run family before).expire e.time).pending.size ∧
      (∀ w ∈ others, Unfinished family before e.time w) ∧
      ∀ w, (family w).count ≠ 1 → ¬ Complete family before w → InTime family before w e.time →
        w ∈ others := by
  have key := push_exact family events hids hlen hs
  refine ⟨fun before e after he => ?_, fun before e after he hone => ?_, fun w hw => ?_,
    fun before e after he => ?_⟩
  · obtain ⟨result, hr, hiff⟩ := key before after e he
    cases result with
    | none => exact .inl hr
    | some p => exact .inr (((hiff p).mp rfl).1 ▸ hr)
  · obtain ⟨result, hr, hiff⟩ := key before after e he
    exact ⟨⟨after, he⟩, rfl, (hiff _).mpr ⟨rfl, .inl hone⟩ ▸ hr⟩
  · -- A push of `w` returns its packet exactly at the last of all fragments, in time.
    have hpush : ∀ before e after, events = before ++ e :: after → e.source = w →
        ((push family e (run family before)).1 = .ok (some (family w).packet) ↔
          (∀ x ∈ after, x.source ≠ w) ∧ Complete family events w ∧
            InTime family events w e.time) := by
      rintro before e after he rfl
      obtain ⟨result, hr, hiff⟩ := key before after e he
      rw [hr, Except.ok.injEq, hiff]
      simp [hw]
    have hlast : ∀ before e, Returned family events w before e → Last events w before e := by
      rintro before e ⟨⟨after, he⟩, hsrc, hret⟩
      exact ⟨after, he, hsrc, ((hpush before e after he hsrc).mp hret).1⟩
    refine ⟨⟨?_, ?_⟩, fun before e h => ⟨hlast before e h, fun before' e' h' => ?_⟩⟩
    · rintro ⟨before, e, ⟨after, he⟩, hsrc, hret⟩
      obtain ⟨hl, hc, ht⟩ := (hpush before e after he hsrc).mp hret
      exact ⟨hc, before, e, ⟨after, he, hsrc, hl⟩, ht⟩
    · rintro ⟨hc, before, e, ⟨after, he, hsrc, hl⟩, ht⟩
      exact ⟨before, e, ⟨after, he⟩, hsrc, (hpush before e after he hsrc).mpr ⟨hl, hc, ht⟩⟩
    · exact (hlast before' e' h').unique (hlast before e h)
  · subst he
    obtain ⟨others, hnodup, hsize, hmem⟩ := exists_sources hids hlen hs.left e.time
    refine ⟨others, hnodup, hsize, fun w hw => ?_, fun w hcount hinc hin => ?_⟩
    · obtain ⟨a, ha⟩ := Option.isSome_iff_exists.mp (AList.lookup_isSome.mpr ((hmem w).mp hw))
      exact unfinished_of_lookup hids hlen hs.left e.time ha
    · exact (hmem w).mpr (mem_pending_of_inTime hids hlen hs.left hs.time_le hcount hinc hin)

def twoMessages : Bool → Message
  | false => { service := 3, flow := 4, message := 0, payload := [7] }
  | true => { service := 3, flow := 4, message := 1, payload := List.replicate 1500 9 }

def interleaved : List (Arrival Bool) := [⟨true, 1, 0⟩, ⟨false, 0, 5⟩, ⟨true, 0, 1_999_999_999⟩]

theorem reassembly_exact_interleaved :
    Returned twoMessages interleaved true [⟨true, 1, 0⟩, ⟨false, 0, 5⟩]
      ⟨true, 0, 1_999_999_999⟩ := by
  have hpayload : (twoMessages true).payload.length = 1500 := List.length_replicate
  have hcount : (twoMessages true).count = 2 := by
    rw [Message.count, hpayload]
    rfl
  have hids : ∀ u w, (twoMessages u).message = (twoMessages w).message → u = w := by decide
  have hlen : ∀ w, (twoMessages w).payload.length ≤ maxPayload := by
    intro w
    cases w with
    | false => decide
    | true => rw [hpayload]; decide
  have hs : Schedule twoMessages interleaved := by
    refine ⟨?_, by decide, by decide⟩
    simp only [interleaved, List.mem_cons, List.not_mem_nil, or_false, forall_eq_or_imp, forall_eq,
      hcount]
    decide
  have hlast : Last interleaved true [⟨true, 1, 0⟩, ⟨false, 0, 5⟩] ⟨true, 0, 1_999_999_999⟩ :=
    ⟨[], rfl, rfl, by simp⟩
  have hcomplete : Complete twoMessages interleaved true := by
    intro j hj
    rw [hcount] at hj
    interval_cases j
    · exact ⟨⟨true, 0, 1_999_999_999⟩, by simp [interleaved], rfl, rfl⟩
    · exact ⟨⟨true, 1, 0⟩, by simp [interleaved], rfl, rfl⟩
  have hroom : Room twoMessages [] ⟨true, 1, 0⟩ := show 0 < maxAssemblies by decide
  have htime : InTime twoMessages interleaved true 1_999_999_999 :=
    ⟨[], ⟨true, 1, 0⟩, ⟨⟨_, rfl⟩, rfl, by simp⟩, hroom, by decide⟩
  obtain ⟨hiff, honce⟩ :=
    (reassembly_exact twoMessages interleaved hids hlen hs).2.2.1 true (by simp [hcount])
  obtain ⟨before, e, hret⟩ := hiff.mpr ⟨hcomplete, _, _, hlast, htime⟩
  obtain ⟨rfl, rfl⟩ := (honce before e hret).1.unique hlast
  exact hret

end Delivery

end Cathole
