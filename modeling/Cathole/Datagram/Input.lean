import Cathole.Crypto.Datagram
import Cathole.Datagram.Reassembler

/-!
# Arbitrary fragments

What the fragment format accepts, and what `Reassembler` does with whatever a
peer sends. `push` of `Cathole.Datagram.Reassembler` is total; `pushChecked` is
the same code with the slices, subtractions, index and unwraps that panic
outside their range, and with the entry inserted before it is checked.
`pushChecked_eq` says that on a well-formed reassembler none of them fails.
-/

namespace Cathole

open Words (toBe fromBe)

namespace Fragment

def decodeChecked (p : Bytes) : Except Fault Fragment := do
  ensure (p.length ≥ header) "short fragment"
  let service := UInt16.ofNat (fromBe (← Checked.slice p 0 2))
  let flow := UInt64.ofNat (fromBe (← Checked.slice p 2 10))
  let message := UInt64.ofNat (fromBe (← Checked.slice p 10 18))
  let length := fromBe (← Checked.slice p 18 20)
  let index := fromBe (← Checked.slice p 20 22)
  ensure (length ≤ maxPayload) "invalid UDP length"
  let count := fragmentCount length
  ensure (index < count) "invalid fragment index"
  let left ← Checked.sub length (index * chunk)
  ensure ((← Checked.sub p.length header) == min left chunk) "invalid fragment length"
  let body ← Checked.slice p header p.length
  pure { service, flow, message, length, index, body }

end Fragment

namespace Reassembler

def pushChecked (p : Bytes) (now : Nat) (r : Reassembler) :
    Except Fault (Option Packet) × Reassembler :=
  match Fragment.decodeChecked p with
  | .error fault => (.error fault, r)
  | .ok f =>
    if f.count = 1 then
      (.ok (some { service := f.service, flow := f.flow, payload := f.body }), r)
    else
      let r := r.expire now
      if f.message ∉ r.pending ∧ r.pending.size ≥ maxAssemblies then (.ok none, r)
      else
        let a := r.entry f now
        let r := if f.message ∈ r.pending then r else { pending := r.pending.insert f.message a }
        if a.service = f.service ∧ a.flow = f.flow ∧ a.length = f.length then
          match Checked.set a.parts f.index (some f.body) with
          | .error fault => (.error fault, r)
          | .ok parts =>
            let r : Reassembler := { pending := r.pending.insert f.message { a with parts } }
            if parts.any Option.isNone then (.ok none, r)
            else
              match Checked.unwrap (r.pending.lookup f.message) with
              | .error fault => (.error fault, r)
              | .ok a =>
                let r : Reassembler := { pending := r.pending.erase f.message }
                match a.parts.mapM Checked.unwrap with
                | .error fault => (.error fault, r)
                | .ok bodies =>
                  let packet : Packet :=
                    { service := f.service, flow := f.flow, payload := bodies.flatten }
                  (.ok (some packet), r)
        else (.error (.message "inconsistent fragments"), r)

end Reassembler

inductive Input
  | push (p : Bytes) (now : Nat)
  | expire (now : Nat)
  deriving DecidableEq, Repr

namespace Reassembler

def step (r : Reassembler) : Input → Reassembler
  | .push p now => (r.pushChecked p now).2
  | .expire now => r.expire now

/-- The reassembler after any calls on the default one. -/
def run (inputs : List Input) : Reassembler := inputs.foldl step default

end Reassembler

-- ---------------------------------------------------------------------------
-- The format
-- ---------------------------------------------------------------------------

theorem decodeChecked_eq (p : Bytes) : Fragment.decodeChecked p = Fragment.decode p := by
  unfold Fragment.decodeChecked Fragment.decode
  by_cases hheader : p.length ≥ header
  · have hlen : 22 ≤ p.length := hheader
    have hbody : (p.drop header).take (p.length - header) = p.drop header := by
      rw [← List.length_drop, List.take_length]
    rw [Checked.slice_of_le (by omega) (by omega), Checked.slice_of_le (by omega) (by omega),
      Checked.slice_of_le (by omega) (by omega), Checked.slice_of_le (by omega) (by omega),
      Checked.slice_of_le (by omega) (by omega), Checked.slice_of_le hheader le_rfl,
      Checked.sub_of_le hheader]
    simp only [ok_bind, List.drop_zero, Nat.reduceSub, hbody]
    by_cases hindex : fromBe ((p.drop 20).take 2) < fragmentCount (fromBe ((p.drop 18).take 2))
    · have hstart : fromBe ((p.drop 20).take 2) * chunk ≤ fromBe ((p.drop 18).take 2) :=
        Chunks.mul_le_of_lt_count hindex
      simp only [Checked.sub_of_le hstart, ok_bind]
    · simp only [decide_eq_false hindex, ensure_false, error_bind]
  · simp only [decide_eq_false hheader, ensure_false, error_bind]

theorem decode_error (h : Fragment.decode p = .error fault) : ∃ text, fault = .message text := by
  simp only [Fragment.decode, bind_eq_error, ensure_eq_error] at h
  obtain ⟨-, rfl⟩ | ⟨_, -, ⟨-, rfl⟩ | ⟨_, -, ⟨-, rfl⟩ | ⟨_, -, ⟨-, rfl⟩ | ⟨_, -, h⟩⟩⟩⟩ := h
  · exact ⟨_, rfl⟩
  · exact ⟨_, rfl⟩
  · exact ⟨_, rfl⟩
  · exact ⟨_, rfl⟩
  · cases h

theorem expire_default (now : Nat) : Reassembler.default.expire now = Reassembler.default := rfl

theorem push_default_ok (p : Bytes) (now : Nat) :
    (∃ result, (Reassembler.default.push p now).1 = .ok result) ↔
      ∃ f, Fragment.decode p = .ok f := by
  unfold Reassembler.push
  cases hdecode : Fragment.decode p with
  | error fault => simp
  | ok f =>
    refine ⟨fun _ => ⟨f, rfl⟩, fun _ => ?_⟩
    simp only
    split
    · exact ⟨_, rfl⟩
    obtain ⟨-, -, hpush⟩ | ⟨old, hold, -, -⟩ | ⟨-, -, ⟨-, hpush⟩ | ⟨-, hpush⟩⟩ :=
      Reassembler.assemble_cases f now .default
    · exact ⟨none, by rw [hpush]⟩
    · rw [expire_default] at hold
      cases hold
    · exact ⟨none, by rw [hpush]⟩
    · exact ⟨_, by rw [hpush]⟩

theorem length_piece_le (m : Message) (i : Nat) : (m.piece i).length ≤ chunk := by
  rw [Message.piece, Chunks.length_piece]
  exact Nat.min_le_left _ _

theorem length_seal'_le {m : Message} (hcipher : ∀ nonce plain cipher,
      encrypt nonce plain = some cipher → cipher.length = plain.length + 16)
    (hseal : (DatagramCrypto.seal' encrypt (m.fragment i) c).1 = .ok datagram) :
    datagram.length ≤ 1046 := by
  rcases Nat.lt_or_ge c.next DatagramCrypto.budget with hnext | hnext
  · rw [DatagramCrypto.seal'_within hnext] at hseal
    cases hencrypt : encrypt c.next (m.fragment i) with
    | none => simp [hencrypt] at hseal
    | some cipher =>
      simp only [hencrypt, Option.elim_some, Except.ok.injEq] at hseal
      have hlen := hcipher _ _ _ hencrypt
      have hpiece := length_piece_le m i
      rw [length_fragment] at hlen
      rw [← hseal, List.length_append, Words.length_toBe]
      simp only [header, chunk] at hlen hpiece
      omega
  · rw [DatagramCrypto.seal'_exhausted hnext] at hseal
    cases hseal

/-- The decoder accepts exactly the fragments the sender can emit and reads
their fields back, the casts to `u16` losing nothing; the bodies of a payload's
fragments make up the payload, and each fits one datagram. -/
theorem format_exact (encrypt : Nat → Bytes → Option Bytes)
    (hcipher : ∀ nonce plain cipher,
      encrypt nonce plain = some cipher → cipher.length = plain.length + 16) :
    (∀ (p : Bytes) (now : Nat),
      (∃ result, (Reassembler.default.push p now).1 = .ok result) ↔
        ∃ m : Message, ∃ i, m.payload.length ≤ maxPayload ∧
          i < max 1 ((m.payload.length + 999) / 1000) ∧ p = m.fragment i) ∧
    (∀ (m : Message) (i : Nat), m.payload.length ≤ maxPayload →
      i < max 1 ((m.payload.length + 999) / 1000) →
      Fragment.decode (m.fragment i) = .ok (m.part i) ∧
        m.payload.length % 2 ^ 16 = m.payload.length ∧ i % 2 ^ 16 = i) ∧
    ∀ m : Message, m.payload.length ≤ maxPayload →
      ((List.range m.count).map fun i => (m.fragment i).drop header).flatten = m.payload ∧
      m.count ≤ 66 ∧
      ∀ i < m.count, ∀ c datagram,
        (DatagramCrypto.seal' encrypt (m.fragment i) c).1 = .ok datagram →
        datagram.length ≤ 1046 := by
  have hcount : ∀ m : Message, max 1 ((m.payload.length + 999) / 1000) = m.count :=
    fun m => Nat.max_comm _ _
  simp only [hcount]
  refine ⟨?_, ?_, ?_⟩
  · intro p now
    rw [push_default_ok]
    constructor
    · rintro ⟨f, hf⟩
      obtain ⟨m, i, hlen, hi, hp, -⟩ := decode_eq_ok.mp hf
      exact ⟨m, i, hlen, hi, hp⟩
    · rintro ⟨m, i, hlen, hi, rfl⟩
      exact ⟨m.part i, decode_fragment m hlen hi⟩
  · intro m i hlen hi
    have hle : m.count ≤ 66 := fragmentCount_le hlen
    refine ⟨decode_fragment m hlen hi, Nat.mod_eq_of_lt ?_, Nat.mod_eq_of_lt ?_⟩
    · exact lt_of_le_of_lt hlen (by decide)
    · omega
  · intro m hlen
    refine ⟨?_, fragmentCount_le hlen, fun i _ c datagram => length_seal'_le hcipher⟩
    have hbodies : (fun i => (m.fragment i).drop header) = m.piece :=
      funext fun i => (fragment_fields m i).2.2.2.2.2
    rw [hbodies]
    exact Chunks.flatten_pieces (by decide)

/-- With a cipher that appends a tag of 16 bytes, as ChaChaPoly does. -/
theorem format_exact_two_bytes :
    Fragment.decode (Message.fragment ⟨3, 4, 5, [1, 2]⟩ 0) =
      .ok (Message.part ⟨3, 4, 5, [1, 2]⟩ 0) ∧
      ∃ datagram,
        (DatagramCrypto.seal' (fun _ plain => some (plain ++ List.replicate 16 0))
          (Message.fragment ⟨3, 4, 5, [1, 2]⟩ 0) (.new {})).1 = .ok datagram ∧
        datagram.length ≤ 1046 := by
  obtain ⟨-, hdecode, hsend⟩ := format_exact (fun _ plain => some (plain ++ List.replicate 16 0))
    (by rintro nonce plain cipher ⟨⟩; simp)
  have hfits := (hsend ⟨3, 4, 5, [1, 2]⟩ (by decide)).2.2 0 (by decide) (.new {})
  exact ⟨(hdecode ⟨3, 4, 5, [1, 2]⟩ 0 (by decide) (by decide)).1, _, rfl, hfits _ rfl⟩

-- ---------------------------------------------------------------------------
-- Well-formed reassemblers
-- ---------------------------------------------------------------------------

/-- What the header checks establish. -/
structure Fragment.Valid (f : Fragment) : Prop where
  length : f.length ≤ maxPayload
  index : f.index < f.count
  body : f.body.length = min chunk (f.length - chunk * f.index)

theorem decode_valid (h : Fragment.decode p = .ok f) : f.Valid := by
  obtain ⟨m, i, hlen, hi, -, rfl⟩ := decode_eq_ok.mp h
  refine ⟨hlen, hi, ?_⟩
  rw [Nat.mul_comm]
  exact Chunks.length_piece

theorem chunk_lt_of_count (h : fragmentCount length ≠ 1) : chunk < length := by
  simp only [fragmentCount, Chunks.count, chunk] at *
  omega

namespace Assembly

structure Sized (a : Assembly) : Prop where
  long : chunk < a.length
  length : a.length ≤ maxPayload
  slots : a.parts.length = (a.length + chunk - 1) / chunk
  pieces : ∀ i b, a.parts[i]? = some (some b) → b.length = min chunk (a.length - chunk * i)

/-- An assembly as the table keeps it: begun and not complete. -/
structure Wf (a : Assembly) : Prop extends Sized a where
  filled : ∃ i, a.holds i
  empty : ∃ i : Nat, a.parts[i]? = some none

theorem Sized.count (h : Sized a) : a.parts.length = fragmentCount a.length := by
  have hlong := h.long
  rw [h.slots]
  simp only [fragmentCount, Chunks.count, chunk] at *
  omega

theorem Sized.put (h : Sized a) (hmatch : a.Matches f) (hf : f.Valid) : Sized (a.put f) where
  long := h.long
  length := h.length
  slots := by simpa [Assembly.put] using h.slots
  pieces := by
    intro i b hb
    simp only [Assembly.put, List.getElem?_set] at hb
    split at hb
    · rename_i hi
      subst hi
      split at hb
      · cases hb
        rw [hf.body]
        exact congrArg (fun length => min chunk (length - chunk * f.index)) hmatch.2.2.symm
      · cases hb
    · exact h.pieces i b hb

theorem index_lt (h : Sized a) (hmatch : a.Matches f) (hf : f.Valid) :
    f.index < a.parts.length := by
  rw [h.count, hmatch.2.2]
  exact hf.index

theorem Sized.length_flatMap (h : Sized a) (hall : a.parts.any Option.isNone = false) :
    (a.parts.flatMap (·.getD [])).length = a.length := by
  -- The same pieces of a payload of that length, whatever its bytes.
  have hpieces : a.parts.map (fun part => (part.getD []).length) =
      (List.range (Chunks.count chunk (List.replicate a.length ()).length)).map
        fun i => (Chunks.piece chunk (List.replicate a.length ()) i).length := by
    apply List.ext_getElem
    · simp [h.count, fragmentCount]
    · intro i hi hi'
      rw [List.length_map] at hi
      have hsome := List.any_eq_false.mp hall a.parts[i] (List.getElem_mem hi)
      cases hb : a.parts[i] with
      | none => simp [hb] at hsome
      | some b =>
        have hlen := h.pieces i b (by rw [List.getElem?_eq_getElem hi, hb])
        simp [hb, hlen, Chunks.length_piece, Nat.mul_comm]
  calc (a.parts.flatMap (·.getD [])).length
      = (a.parts.map fun part => (part.getD []).length).sum := List.length_flatMap
    _ = (((List.range (Chunks.count chunk (List.replicate a.length ()).length)).map
          (Chunks.piece chunk (List.replicate a.length ()))).flatten).length := by
        rw [hpieces, List.length_flatten, List.map_map]
        rfl
    _ = a.length := by
        rw [Chunks.flatten_pieces (by decide), List.length_replicate]

end Assembly

namespace Reassembler

variable {r : Reassembler} {f : Fragment} {a : Assembly} {id : UInt64}

structure Wf (r : Reassembler) : Prop where
  size : r.pending.size ≤ maxAssemblies
  assembly : ∀ id a, r.pending.lookup id = some a → a.Wf

theorem wf_default : default.Wf where
  size := Nat.zero_le _
  assembly := by
    intro id a h
    cases h

theorem Wf.expire (h : r.Wf) (now : Nat) : (r.expire now).Wf where
  size := le_trans size_expire_le h.size
  assembly := fun id a ha => h.assembly id a (lookup_expire.mp ha).1

theorem entry_sized (h : r.Wf) (hf : f.Valid) (hcount : f.count ≠ 1) (now : Nat) :
    (r.entry f now).Sized := by
  unfold entry
  cases hl : r.pending.lookup f.message with
  | some a => exact (h.assembly _ a hl).toSized
  | none =>
    have hlong : chunk < f.length := chunk_lt_of_count hcount
    refine ⟨hlong, hf.length, ?_, ?_⟩
    · simp only [Option.getD_none, List.length_replicate, Fragment.count, fragmentCount,
        Chunks.count, chunk] at *
      omega
    · intro i b hb
      simp [List.getElem?_replicate] at hb

theorem Wf.insert (h : r.Wf) (ha : a.Wf) (hroom : id ∈ r.pending ∨ r.pending.size < maxAssemblies) :
    Wf { pending := r.pending.insert id a } where
  size := by
    by_cases hmem : id ∈ r.pending
    · rw [AList.size_insert_of_mem hmem]
      exact h.size
    · rw [AList.size_insert_of_notMem hmem]
      exact hroom.resolve_left hmem
  assembly := by
    intro key b hb
    rw [AList.lookup_insert_eq] at hb
    split at hb
    · cases hb
      exact ha
    · exact h.assembly key b hb

theorem Wf.erase (h : r.Wf) (id : UInt64) : Wf { pending := r.pending.erase id } where
  size := (AList.size_erase_le id).trans h.size
  assembly := by
    intro key b hb
    rw [AList.lookup_erase_eq] at hb
    split at hb
    · cases hb
    · exact h.assembly key b hb

theorem Wf.assemble (h : r.Wf) (hf : f.Valid) (hcount : f.count ≠ 1) (now : Nat) :
    (r.assemble f now).2.Wf := by
  have hr := h.expire now
  have hsized := entry_sized hr hf hcount now
  obtain ⟨-, -, hpush⟩ | ⟨old, -, -, hpush⟩ | ⟨hroom, hmatch, ⟨hnone, hpush⟩ | ⟨-, hpush⟩⟩ :=
    assemble_cases f now r
  · rw [hpush]
    exact hr
  · rw [hpush]
    exact hr
  · rw [hpush]
    refine hr.insert ⟨hsized.put hmatch hf, ⟨f.index, ?_⟩, ?_⟩ hroom
    · exact (Assembly.holds_put (Assembly.index_lt hsized hmatch hf)).mpr (.inl rfl)
    · obtain ⟨part, hpart, hempty⟩ := List.any_eq_true.mp hnone
      obtain ⟨i, hi, rfl⟩ := List.getElem_of_mem hpart
      refine ⟨i, ?_⟩
      rw [List.getElem?_eq_getElem hi, Option.isNone_iff_eq_none.mp hempty]
  · rw [hpush]
    exact hr.erase f.message

theorem Wf.push (h : r.Wf) (p : Bytes) (now : Nat) : (r.push p now).2.Wf := by
  obtain ⟨fault, -, hpush⟩ | ⟨f, -, -, hpush⟩ | ⟨f, hdecode, hcount, hpush⟩ := push_cases p now r
  · rw [hpush]
    exact h
  · rw [hpush]
    exact h
  · rw [hpush]
    exact h.assemble (decode_valid hdecode) hcount now

theorem Wf.length_packet (h : r.Wf) (hpush : (r.push p now).1 = .ok (some packet)) :
    ∃ f, Fragment.decode p = .ok f ∧ packet.payload.length = f.length := by
  obtain ⟨fault, -, heq⟩ | ⟨f, hdecode, hone, heq⟩ | ⟨f, hdecode, hcount, heq⟩ := push_cases p now r
  · rw [heq] at hpush
    cases hpush
  · rw [heq] at hpush
    cases hpush
    have hf := decode_valid hdecode
    have hindex : f.index = 0 := by
      have hlt := hf.index
      omega
    have hle : f.length ≤ chunk := by
      have hmul : f.length ≤ f.count * chunk := Chunks.le_count_mul (by decide) f.length
      rwa [hone, Nat.one_mul] at hmul
    refine ⟨f, hdecode, ?_⟩
    rw [hf.body, hindex]
    omega
  · have hf := decode_valid hdecode
    have hsized := entry_sized (h.expire now) hf hcount now
    rw [heq] at hpush
    obtain ⟨-, -, hassemble⟩ | ⟨old, -, -, hassemble⟩ | ⟨-, hmatch,
        ⟨-, hassemble⟩ | ⟨hall, hassemble⟩⟩ :=
      assemble_cases f now r
    · rw [hassemble] at hpush
      cases hpush
    · rw [hassemble] at hpush
      cases hpush
    · rw [hassemble] at hpush
      cases hpush
    · rw [hassemble] at hpush
      cases hpush
      refine ⟨f, hdecode, ?_⟩
      rw [(hsized.put hmatch hf).length_flatMap hall]
      exact hmatch.2.2

/-- A push that fails drops expired assemblies at most. -/
theorem push_error (hpush : (r.push p now).1 = .error fault) :
    (∃ text, fault = .message text) ∧
      ((r.push p now).2 = r ∨ (r.push p now).2 = r.expire now) := by
  obtain ⟨fault, hdecode, heq⟩ | ⟨f, -, -, heq⟩ | ⟨f, -, -, heq⟩ := push_cases p now r
  · rw [heq] at hpush ⊢
    cases hpush
    exact ⟨decode_error hdecode, .inl rfl⟩
  · rw [heq] at hpush
    cases hpush
  · rw [heq] at hpush ⊢
    obtain ⟨-, -, hassemble⟩ | ⟨old, -, -, hassemble⟩ | ⟨-, -, ⟨-, hassemble⟩ | ⟨-, hassemble⟩⟩ :=
      assemble_cases f now r
    · rw [hassemble] at hpush
      cases hpush
    · rw [hassemble] at hpush ⊢
      cases hpush
      exact ⟨⟨_, rfl⟩, .inr rfl⟩
    · rw [hassemble] at hpush
      cases hpush
    · rw [hassemble] at hpush
      cases hpush

-- ---------------------------------------------------------------------------
-- Nothing panics
-- ---------------------------------------------------------------------------

theorem mapM_unwrap {parts : List (Option Bytes)} (hall : parts.any Option.isNone = false) :
    parts.mapM Checked.unwrap = .ok (parts.map (·.getD [])) := by
  induction parts with
  | nil => rfl
  | cons part parts ih =>
    rw [List.any_cons, Bool.or_eq_false_iff] at hall
    cases part with
    | none => simp at hall
    | some body =>
      rw [List.mapM_cons, ih hall.2]
      rfl

/-- Storing the entry first makes no difference to storing it filled. -/
theorem insert_entered (r : Reassembler) (a b : Assembly) :
    (if id ∈ r.pending then r
      else { pending := r.pending.insert id a } : Reassembler).pending.insert id b =
      r.pending.insert id b := by
  split
  · rfl
  · exact AList.insert_insert _

/-- The code as it is written does what `push` says: no slice, subtraction or
index is out of range, and no unwrap fails. -/
theorem pushChecked_eq (h : r.Wf) (p : Bytes) (now : Nat) : r.pushChecked p now = r.push p now := by
  unfold pushChecked push
  rw [decodeChecked_eq]
  cases hdecode : Fragment.decode p with
  | error fault => rfl
  | ok f =>
    have hf := decode_valid hdecode
    simp only
    split
    · rfl
    rename_i hcount
    have hsized := entry_sized (h.expire now) hf hcount now
    unfold assemble
    simp only
    split
    · rfl
    split
    · rename_i hmatch
      rw [Checked.set_of_lt (Assembly.index_lt hsized hmatch hf)]
      simp only [insert_entered]
      split
      · rfl
      · rename_i hall
        rw [Bool.not_eq_true] at hall
        rw [AList.lookup_insert, Checked.unwrap_some]
        simp only [mapM_unwrap hall, AList.erase_insert, List.flatMap_def]
    · rename_i hno
      obtain ⟨old, hold, -⟩ := lookup_of_not_matches hno
      rw [if_pos (AList.mem_of_lookup hold)]

theorem Wf.step (h : r.Wf) (input : Input) : (r.step input).Wf := by
  cases input with
  | push p now =>
    rw [Reassembler.step, pushChecked_eq h]
    exact h.push p now
  | expire now => exact h.expire now

theorem run_wf (inputs : List Input) : (run inputs).Wf := by
  unfold run
  induction inputs using List.reverseRecOn with
  | nil => exact wf_default
  | append_singleton inputs input ih =>
    rw [List.foldl_append]
    exact ih.step input

/-- After any calls, whatever bytes and times they were given: nothing in the
next push panics; the table is bounded and every assembly in it well formed;
a packet has its declared length; a push that fails drops expired assemblies at
most; and a push for one message leaves every other unexpired assembly as it
is, and adds none. -/
theorem robust (inputs : List Input) (p : Bytes) (now : Nat) :
    let r := run inputs
    let result := (r.pushChecked p now).1
    let r' := (r.pushChecked p now).2
    result ≠ .error .panic ∧
    r.pending.size ≤ 128 ∧
    (∀ id a, r.pending.lookup id = some a →
      1000 < a.length ∧ a.length ≤ 65507 ∧ a.parts.length = (a.length + 999) / 1000 ∧
        (∃ (i : Nat) (b : Bytes), a.parts[i]? = some (some b)) ∧
        (∃ i : Nat, a.parts[i]? = some none) ∧
        ∀ (i : Nat) (b : Bytes), a.parts[i]? = some (some b) →
          b.length = min 1000 (a.length - 1000 * i)) ∧
    (∀ packet, result = .ok (some packet) →
      ∃ f, Fragment.decode p = .ok f ∧ packet.payload.length = f.length) ∧
    (∀ fault, result = .error fault → r' = r ∨ r' = r.expire now) ∧
    ∀ f, Fragment.decode p = .ok f → ∀ id, id ≠ f.message → ∀ a,
      (r'.pending.lookup id = some a → r.pending.lookup id = some a) ∧
        (r.pending.lookup id = some a → now - a.created < lifetime →
          r'.pending.lookup id = some a) := by
  intro r result r'
  have h : r.Wf := run_wf inputs
  have hresult : result = (r.push p now).1 := congrArg Prod.fst (pushChecked_eq h p now)
  have hr' : r' = (r.push p now).2 := congrArg Prod.snd (pushChecked_eq h p now)
  rw [hresult, hr']
  refine ⟨?_, h.size, ?_, ?_, ?_, ?_⟩
  · intro hpanic
    obtain ⟨text, htext⟩ := (push_error hpanic).1
    cases htext
  · intro id a ha
    have hwf := h.assembly id a ha
    exact ⟨hwf.long, hwf.length, hwf.slots, hwf.filled, hwf.empty, hwf.pieces⟩
  · intro packet hpush
    exact h.length_packet hpush
  · intro fault hpush
    exact (push_error hpush).2
  · intro f hdecode id hid a
    rcases lookup_push_of_ne (r := r) hdecode hid now with hsame | hexpired
    · rw [hsame]
      exact ⟨fun ha => ha, fun ha _ => ha⟩
    · rw [hexpired, lookup_expire]
      exact ⟨fun ha => ha.1, fun ha hlive => ⟨ha, hlive⟩⟩

end Reassembler

end Cathole
