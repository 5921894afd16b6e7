import Cathole.Datagram.Fragment
import Cathole.Lib.Table

/-!
# Reassembly

`Reassembler` of `datagram.rs`. An `Instant` is a count of nanoseconds, and
`duration_since`, which saturates at zero, is subtraction of naturals.

`push_part` says what one push of a genuine fragment does while the assembly
kept under its message ID, if there is one, was built from fragments of the same
message (`Assembly.Of`). Everything about runs of pushes is derived from it.
-/

namespace Cathole

structure Packet where
  service : UInt16
  flow : UInt64
  payload : Bytes
  deriving DecidableEq, Repr

structure Assembly where
  service : UInt16
  flow : UInt64
  length : Nat
  parts : List (Option Bytes)
  created : Nat
  deriving DecidableEq, Repr

structure Reassembler where
  pending : Table UInt64 Assembly
  deriving DecidableEq

def lifetime : Nat := 2_000_000_000

namespace Reassembler

def default : Reassembler where
  pending := ∅

def expire (now : Nat) (r : Reassembler) : Reassembler where
  pending := r.pending.retain fun _ a => now - a.created < lifetime

def entry (f : Fragment) (now : Nat) (r : Reassembler) : Assembly :=
  (r.pending.lookup f.message).getD
    { service := f.service
      flow := f.flow
      length := f.length
      parts := List.replicate f.count none
      created := now }

/-- The part of `push` behind the header checks and the single-fragment
return. -/
def assemble (f : Fragment) (now : Nat) (r : Reassembler) :
    Except Fault (Option Packet) × Reassembler :=
  let r := r.expire now
  if f.message ∉ r.pending ∧ r.pending.size ≥ maxAssemblies then (.ok none, r)
  else
    let a := r.entry f now
    if a.service = f.service ∧ a.flow = f.flow ∧ a.length = f.length then
      let a := { a with parts := a.parts.set f.index (some f.body) }
      if a.parts.any Option.isNone then (.ok none, { pending := r.pending.insert f.message a })
      else
        let packet : Packet :=
          { service := f.service, flow := f.flow, payload := a.parts.flatMap (·.getD []) }
        (.ok (some packet), { pending := r.pending.erase f.message })
    else
      -- A fresh entry has the fragment's own fields, so only an old one gets here.
      (.error (.message "inconsistent fragments"), r)

def push (p : Bytes) (now : Nat) (r : Reassembler) : Except Fault (Option Packet) × Reassembler :=
  match Fragment.decode p with
  | .error fault => (.error fault, r)
  | .ok f =>
    if f.count = 1 then
      (.ok (some { service := f.service, flow := f.flow, payload := f.body }), r)
    else r.assemble f now

end Reassembler

def Message.packet (m : Message) : Packet where
  service := m.service
  flow := m.flow
  payload := m.payload

-- ---------------------------------------------------------------------------
-- Assemblies of one message
-- ---------------------------------------------------------------------------

namespace Assembly

/-- Built from fragments of `m` and nothing else. -/
structure Of (m : Message) (a : Assembly) : Prop where
  service : a.service = m.service
  flow : a.flow = m.flow
  length : a.length = m.payload.length
  parts : a.parts.length = m.count
  body : ∀ i b, a.parts[i]? = some (some b) → b = m.piece i

def holds (a : Assembly) (i : Nat) : Prop := ∃ b, a.parts[i]? = some (some b)

def put (a : Assembly) (f : Fragment) : Assembly :=
  { a with parts := a.parts.set f.index (some f.body) }

def Matches (a : Assembly) (f : Fragment) : Prop :=
  a.service = f.service ∧ a.flow = f.flow ∧ a.length = f.length

theorem holds_put (hi : f.index < a.parts.length) :
    (put a f).holds j ↔ j = f.index ∨ a.holds j := by
  simp only [holds, put, List.getElem?_set]
  by_cases h : j = f.index
  · subst h
    simp [hi]
  · simp [h, Ne.symm h]

theorem Of.put (h : Of m a) (i : Nat) : Of m (a.put (m.part i)) where
  service := h.service
  flow := h.flow
  length := h.length
  parts := by simpa [Assembly.put] using h.parts
  body := by
    intro j b hb
    simp only [Assembly.put, Message.part, List.getElem?_set] at hb
    split at hb
    · rename_i hij
      subst hij
      split at hb
      · simpa using (Option.some.inj (Option.some.inj hb)).symm
      · cases hb
    · exact h.body j b hb

theorem Of.any_isNone (h : Of m a) :
    a.parts.any Option.isNone = false ↔ ∀ i < m.count, a.holds i := by
  rw [List.any_eq_false]
  constructor
  · intro hall i hi
    have hlt : i < a.parts.length := h.parts ▸ hi
    have hsome := hall a.parts[i] (List.getElem_mem hlt)
    obtain ⟨b, hb⟩ : ∃ b, a.parts[i] = some b := by
      cases hv : a.parts[i] with
      | none => simp [hv] at hsome
      | some b => exact ⟨b, rfl⟩
    exact ⟨b, by rw [List.getElem?_eq_getElem hlt, hb]⟩
  · intro hall x hx
    obtain ⟨i, hi, rfl⟩ := List.getElem_of_mem hx
    obtain ⟨b, hb⟩ := hall i (h.parts ▸ hi)
    rw [List.getElem?_eq_getElem hi] at hb
    simp [Option.some.inj hb]

theorem Of.flatMap_parts (h : Of m a) (hall : ∀ i < m.count, a.holds i) :
    a.parts.flatMap (·.getD []) = m.payload := by
  have hparts : a.parts = (List.range m.count).map fun i => some (m.piece i) := by
    apply List.ext_getElem?
    intro i
    rw [List.getElem?_map]
    rcases Nat.lt_or_ge i m.count with hi | hi
    · obtain ⟨b, hb⟩ := hall i hi
      rw [hb, h.body i b hb, List.getElem?_range hi]
      rfl
    · rw [List.getElem?_eq_none (h.parts ▸ hi), List.getElem?_eq_none (by simpa using hi)]
      rfl
  rw [hparts, List.flatMap_def, List.map_map]
  exact Chunks.flatten_pieces (by decide)

end Assembly

-- ---------------------------------------------------------------------------
-- One push of a genuine fragment
-- ---------------------------------------------------------------------------

namespace Reassembler

variable {m : Message} {r : Reassembler} {now i : Nat}

theorem lookup_expire {id : UInt64} {a : Assembly} :
    (r.expire now).pending.lookup id = some a ↔
      r.pending.lookup id = some a ∧ now - a.created < lifetime := by
  simp [expire, AList.lookup_retain_eq_some]

theorem size_expire_le : (r.expire now).pending.size ≤ r.pending.size := AList.size_retain_le

theorem entry_of (hof : ∀ a, r.pending.lookup m.message = some a → a.Of m) :
    (r.entry (m.part i) now).Of m := by
  unfold entry
  cases h : r.pending.lookup (m.part i).message with
  | some a => exact hof a h
  | none =>
    refine ⟨rfl, rfl, rfl, by simp [Fragment.count, Message.part, Message.count], ?_⟩
    intro j b hb
    simp [List.getElem?_replicate] at hb

theorem push_single (hlen : m.payload.length ≤ maxPayload) (hcount : m.count = 1)
    (hi : i < m.count) :
    r.push (m.fragment i) now = (.ok (some m.packet), r) := by
  have hpiece : m.piece i = m.payload := by
    have hflat : ((List.range m.count).map m.piece).flatten = m.payload :=
      Chunks.flatten_pieces (by decide)
    obtain rfl : i = 0 := by omega
    simpa [hcount] using hflat
  have hone : (m.part i).count = 1 := hcount
  simp only [push, decode_fragment m hlen hi, hone, ↓reduceIte]
  simp [Message.part, Message.packet, hpiece]

/-- A fresh entry has the fragment's own fields, so only an assembly that was
there before can be inconsistent. -/
theorem lookup_of_not_matches (hno : ¬(r.entry f now).Matches f) :
    ∃ old, r.pending.lookup f.message = some old ∧ ¬old.Matches f := by
  unfold entry at hno
  cases hold : r.pending.lookup f.message with
  | none =>
    rw [hold] at hno
    exact absurd ⟨rfl, rfl, rfl⟩ hno
  | some old =>
    rw [hold] at hno
    exact ⟨old, rfl, hno⟩

/-- What `push` does with any fragment of a longer message: refuse it because
the table is full, refuse it because it does not fit the assembly it belongs to,
store it, or complete the assembly. -/
theorem assemble_cases (f : Fragment) (now : Nat) (r : Reassembler) :
    let r' := r.expire now
    let a := (r'.entry f now).put f
    (f.message ∉ r'.pending ∧ maxAssemblies ≤ r'.pending.size ∧
        r.assemble f now = (.ok none, r')) ∨
    (∃ old, r'.pending.lookup f.message = some old ∧ ¬ old.Matches f ∧
        r.assemble f now = (.error (.message "inconsistent fragments"), r')) ∨
    ((f.message ∈ r'.pending ∨ r'.pending.size < maxAssemblies) ∧ (r'.entry f now).Matches f ∧
      ((a.parts.any Option.isNone = true ∧
          r.assemble f now = (.ok none, { pending := r'.pending.insert f.message a })) ∨
        (a.parts.any Option.isNone = false ∧
          r.assemble f now =
            (.ok (some ⟨f.service, f.flow, a.parts.flatMap (·.getD [])⟩),
              { pending := r'.pending.erase f.message })))) := by
  intro r' a
  unfold assemble
  simp only
  split
  · rename_i hfull
    exact .inl ⟨hfull.1, hfull.2, rfl⟩
  rename_i hroom
  split
  · rename_i hmatch
    right; right
    refine ⟨?_, hmatch, ?_⟩
    · by_contra hno
      push Not at hno
      exact hroom hno
    · cases hnone : a.parts.any Option.isNone with
      | true => exact .inl ⟨rfl, if_pos hnone⟩
      | false => exact .inr ⟨rfl, if_neg (by rw [Bool.not_eq_true]; exact hnone)⟩
  · rename_i hno
    right; left
    obtain ⟨old, hold, hmatch⟩ := lookup_of_not_matches hno
    exact ⟨old, hold, hmatch, rfl⟩

/-- The push of one fragment of a longer message: refused by a full table, or
stored, or completing the message. -/
theorem push_part (hlen : m.payload.length ≤ maxPayload) (hcount : m.count ≠ 1) (hi : i < m.count)
    (hof : ∀ a, r.pending.lookup m.message = some a → a.Of m) (now : Nat) :
    let r' := r.expire now
    let a := (r'.entry (m.part i) now).put (m.part i)
    (m.message ∉ r'.pending ∧ maxAssemblies ≤ r'.pending.size ∧
        r.push (m.fragment i) now = (.ok none, r')) ∨
    ((m.message ∈ r'.pending ∨ r'.pending.size < maxAssemblies) ∧ a.Of m ∧
      ((¬ (∀ j < m.count, a.holds j) ∧
          r.push (m.fragment i) now = (.ok none, { pending := r'.pending.insert m.message a })) ∨
        ((∀ j < m.count, a.holds j) ∧
          r.push (m.fragment i) now =
            (.ok (some m.packet), { pending := r'.pending.erase m.message })))) := by
  intro r' a
  have hne : (m.part i).count ≠ 1 := hcount
  have hpush : r.push (m.fragment i) now = r.assemble (m.part i) now := by
    simp only [push, decode_fragment m hlen hi, hne, ↓reduceIte]
  have ha : a.Of m := (entry_of fun a ha => hof a (lookup_expire.mp ha).1).put i
  rw [hpush]
  obtain ⟨hnew, hfull, hassemble⟩ | ⟨old, hold, hno, -⟩ | ⟨hroom, -, hparts⟩ :=
    assemble_cases (m.part i) now r
  · exact .inl ⟨hnew, hfull, hassemble⟩
  · have hown : old.Of m := hof old (lookup_expire.mp hold).1
    exact absurd ⟨hown.service, hown.flow, hown.length⟩ hno
  · refine .inr ⟨hroom, ha, ?_⟩
    rcases hparts with ⟨hnone, hassemble⟩ | ⟨hnone, hassemble⟩
    · refine .inl ⟨?_, hassemble⟩
      intro hall
      rw [ha.any_isNone.mpr hall] at hnone
      cases hnone
    · have hall : ∀ j < m.count, a.holds j := ha.any_isNone.mp hnone
      refine .inr ⟨hall, ?_⟩
      rw [hassemble, Message.packet, ← ha.flatMap_parts hall]
      rfl

theorem push_cases (p : Bytes) (now : Nat) (r : Reassembler) :
    (∃ fault, Fragment.decode p = .error fault ∧ r.push p now = (.error fault, r)) ∨
    (∃ f, Fragment.decode p = .ok f ∧ f.count = 1 ∧
      r.push p now = (.ok (some ⟨f.service, f.flow, f.body⟩), r)) ∨
    ∃ f, Fragment.decode p = .ok f ∧ f.count ≠ 1 ∧ r.push p now = r.assemble f now := by
  unfold push
  cases hdecode : Fragment.decode p with
  | error fault => exact .inl ⟨fault, rfl, rfl⟩
  | ok f =>
    right
    by_cases hcount : f.count = 1
    · exact .inl ⟨f, rfl, hcount, if_pos hcount⟩
    · exact .inr ⟨f, rfl, hcount, if_neg hcount⟩

theorem lookup_push_of_ne (hdecode : Fragment.decode p = .ok f) (hkey : key ≠ f.message)
    (now : Nat) :
    (r.push p now).2.pending.lookup key = r.pending.lookup key ∨
      (r.push p now).2.pending.lookup key = (r.expire now).pending.lookup key := by
  obtain ⟨fault, hfault, -⟩ | ⟨f', -, -, heq⟩ | ⟨f', hf', -, heq⟩ := push_cases p now r
  · rw [hfault] at hdecode
    cases hdecode
  · rw [heq]
    exact .inl rfl
  · rw [hf'] at hdecode
    cases hdecode
    right
    rw [heq]
    obtain ⟨-, -, hassemble⟩ | ⟨old, -, -, hassemble⟩ | ⟨-, -, ⟨-, hassemble⟩ | ⟨-, hassemble⟩⟩ :=
      assemble_cases f now r
    · rw [hassemble]
    · rw [hassemble]
    · rw [hassemble, AList.lookup_insert_eq, if_neg hkey]
    · rw [hassemble, AList.lookup_erase_eq, if_neg hkey]

-- ---------------------------------------------------------------------------
-- What the pending assemblies were built from
-- ---------------------------------------------------------------------------

/-- Every pending assembly belongs to one message and holds only fragments of
it that were pushed, and at least one. -/
def Sound (pushed : Message → Nat → Prop) (r : Reassembler) : Prop :=
  ∀ id a, r.pending.lookup id = some a →
    ∃ m : Message, m.message = id ∧ a.Of m ∧ (∃ j, a.holds j) ∧ ∀ j, a.holds j → pushed m j

theorem sound_default : Sound pushed default := fun id a h => by
  simp [default] at h

theorem Sound.mono (h : Sound pushed r) (hsub : ∀ m j, pushed m j → pushed' m j) :
    Sound pushed' r := by
  intro id a ha
  obtain ⟨m, hm, hof, hne, hheld⟩ := h id a ha
  exact ⟨m, hm, hof, hne, fun j hj => hsub m j (hheld j hj)⟩

theorem Sound.expire (h : Sound pushed r) (now : Nat) : Sound pushed (r.expire now) :=
  fun id a ha => h id a (lookup_expire.mp ha).1

theorem Sound.of (h : Sound pushed r)
    (hid : ∀ m' j, pushed m' j → m'.message = m.message → m' = m)
    (ha : r.pending.lookup m.message = some a) :
    a.Of m ∧ (∃ j, a.holds j) ∧ ∀ j, a.holds j → pushed m j := by
  obtain ⟨m', hm, hof, ⟨j, hj⟩, hheld⟩ := h m.message a ha
  obtain rfl := hid m' j (hheld j hj) hm
  exact ⟨hof, ⟨j, hj⟩, hheld⟩

theorem holds_entry (h : (r.entry (m.part i) now).holds j) :
    ∃ a, r.pending.lookup m.message = some a ∧ a.holds j ∧ r.entry (m.part i) now = a := by
  unfold entry at h ⊢
  cases hl : r.pending.lookup (m.part i).message with
  | some a =>
    rw [hl] at h
    exact ⟨a, hl, h, rfl⟩
  | none =>
    rw [hl] at h
    obtain ⟨b, hb⟩ := h
    simp [List.getElem?_replicate] at hb

theorem Sound.insert {a : Assembly} (h : Sound pushed r) (hof : a.Of m) (hsome : ∃ j, a.holds j)
    (hheld : ∀ j, a.holds j → pushed m j) :
    Sound pushed { pending := r.pending.insert m.message a } := by
  intro key a' ha
  rw [AList.lookup_insert_eq] at ha
  split at ha
  · rename_i hkey
    obtain rfl := Option.some.inj ha
    exact ⟨m, hkey.symm, hof, hsome, hheld⟩
  · exact h key a' ha

theorem Sound.erase (h : Sound pushed r) (message : UInt64) :
    Sound pushed { pending := r.pending.erase message } := by
  intro key a ha
  rw [AList.lookup_erase_eq] at ha
  split at ha
  · cases ha
  · exact h key a ha

/-- A push of a genuine fragment never fails, keeps the assemblies sound, and
returns a packet only for its own message, once every fragment was pushed. -/
theorem Sound.push (h : Sound pushed r)
    (hid : ∀ m' j, pushed m' j → m'.message = m.message → m' = m)
    (hlen : m.payload.length ≤ maxPayload) (hi : i < m.count) (now : Nat) :
    Sound (fun m' j => pushed m' j ∨ m' = m ∧ j = i) (r.push (m.fragment i) now).2 ∧
    ((r.push (m.fragment i) now).1 = .ok none ∨
      (r.push (m.fragment i) now).1 = .ok (some m.packet) ∧
        ∀ j < m.count, pushed m j ∨ j = i) := by
  have hkeep : Sound (fun m' j => pushed m' j ∨ m' = m ∧ j = i) (r.expire now) :=
    (h.expire now).mono fun _ _ hp => .inl hp
  by_cases hcount : m.count = 1
  · rw [push_single hlen hcount hi]
    refine ⟨h.mono fun _ _ hp => .inl hp, .inr ⟨rfl, fun j hj => .inr ?_⟩⟩
    omega
  have hown : ∀ a, r.pending.lookup m.message = some a → a.Of m := fun a ha => (h.of hid ha).1
  have hentry : ((r.expire now).entry (m.part i) now).Of m :=
    entry_of fun a ha => hown a (lookup_expire.mp ha).1
  have hindex : (m.part i).index < ((r.expire now).entry (m.part i) now).parts.length := by
    rw [hentry.parts]
    exact hi
  -- What the stored assembly holds was pushed before, or is the fragment at hand.
  have hheld : ∀ j, ((r.expire now).entry (m.part i) now |>.put (m.part i)).holds j →
      pushed m j ∨ j = i := by
    intro j hj
    rcases (Assembly.holds_put hindex).mp hj with hji | hj
    · exact .inr hji
    · obtain ⟨a, ha, hja, -⟩ := holds_entry hj
      exact .inl ((h.of hid (lookup_expire.mp ha).1).2.2 j hja)
  obtain ⟨-, -, hpush⟩ | ⟨-, hof, ⟨-, hpush⟩ | ⟨hall, hpush⟩⟩ :=
    push_part hlen hcount hi hown now
  · rw [hpush]
    exact ⟨hkeep, .inl rfl⟩
  · rw [hpush]
    have hsome : ∃ j, ((r.expire now).entry (m.part i) now |>.put (m.part i)).holds j :=
      ⟨i, (Assembly.holds_put hindex).mpr (.inl rfl)⟩
    refine ⟨hkeep.insert hof hsome fun j hj => ?_, .inl rfl⟩
    exact (hheld j hj).imp_right fun hji => ⟨rfl, hji⟩
  · rw [hpush]
    exact ⟨hkeep.erase m.message, .inr ⟨rfl, fun j hj => hheld j (hall j hj)⟩⟩

end Reassembler

end Cathole
