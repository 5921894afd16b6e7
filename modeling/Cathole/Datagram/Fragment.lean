import Cathole.Fault
import Cathole.Lib.Chunks
import Cathole.Lib.Words

/-!
# Fragments of a UDP payload

The plaintext format of `datagram.rs`: what `Sender::send` puts into one
datagram, and the header checks with which `Reassembler::push` starts. A payload
travels in fragments of at most 1000 bytes behind a 22-byte header.

`decode_fragment` reads an emitted fragment back, and `decode_eq_ok` says that
nothing else is accepted.
-/

namespace Cathole

open Words (toBe fromBe)

def chunk : Nat := 1000
def maxPayload : Nat := 65507
def header : Nat := 22
def maxAssemblies : Nat := 128

/-- `length.div_ceil(CHUNK).max(1)`. -/
def fragmentCount (length : Nat) : Nat := Chunks.count chunk length

/-- What one call of `Sender::send` has to deliver, under the message ID it
drew. -/
structure Message where
  service : UInt16
  flow : UInt64
  message : UInt64
  payload : Bytes
  deriving DecidableEq, Repr

namespace Message

def count (m : Message) : Nat := fragmentCount m.payload.length

/-- The plaintext of fragment `i`: the loop body of `Sender::send`. -/
def fragment (m : Message) (i : Nat) : Bytes :=
  let start := i * chunk
  let stop := min (start + chunk) m.payload.length
  toBe 2 m.service.toNat ++ toBe 8 m.flow.toNat ++ toBe 8 m.message.toNat ++
    toBe 2 m.payload.length ++ toBe 2 i ++ (m.payload.drop start).take (stop - start)

def piece (m : Message) (i : Nat) : Bytes := Chunks.piece chunk m.payload i

theorem fragment_eq (m : Message) (i : Nat) :
    m.fragment i = toBe 2 m.service.toNat ++ (toBe 8 m.flow.toNat ++ (toBe 8 m.message.toNat ++
      (toBe 2 m.payload.length ++ (toBe 2 i ++ m.piece i)))) := by
  have hbody : (m.payload.drop (i * chunk)).take
      (min (i * chunk + chunk) m.payload.length - i * chunk) = m.piece i := by
    rw [piece, Chunks.piece, List.take_eq_take_iff, List.length_drop]
    omega
  simp only [fragment, hbody, List.append_assoc]

end Message

structure Fragment where
  service : UInt16
  flow : UInt64
  message : UInt64
  length : Nat
  index : Nat
  body : Bytes
  deriving DecidableEq, Repr

namespace Fragment

/-- The header checks of `Reassembler::push`. -/
def decode (p : Bytes) : Except Fault Fragment := do
  ensure (p.length ≥ header) "short fragment"
  let service := UInt16.ofNat (fromBe (p.take 2))
  let flow := UInt64.ofNat (fromBe ((p.drop 2).take 8))
  let message := UInt64.ofNat (fromBe ((p.drop 10).take 8))
  let length := fromBe ((p.drop 18).take 2)
  let index := fromBe ((p.drop 20).take 2)
  ensure (length ≤ maxPayload) "invalid UDP length"
  let count := fragmentCount length
  ensure (index < count) "invalid fragment index"
  ensure (p.length - header == min (length - index * chunk) chunk) "invalid fragment length"
  pure { service, flow, message, length, index, body := p.drop header }

def count (f : Fragment) : Nat := fragmentCount f.length

end Fragment

/-- Fragment `i` of a message, as the receiver sees it. -/
def Message.part (m : Message) (i : Nat) : Fragment where
  service := m.service
  flow := m.flow
  message := m.message
  length := m.payload.length
  index := i
  body := m.piece i

theorem fragmentCount_le (h : length ≤ maxPayload) : fragmentCount length ≤ 66 := by
  simp only [fragmentCount, Chunks.count, chunk, maxPayload] at *
  omega

theorem fragment_fields (m : Message) (i : Nat) :
    (m.fragment i).take 2 = toBe 2 m.service.toNat ∧
    ((m.fragment i).drop 2).take 8 = toBe 8 m.flow.toNat ∧
    ((m.fragment i).drop 10).take 8 = toBe 8 m.message.toNat ∧
    ((m.fragment i).drop 18).take 2 = toBe 2 m.payload.length ∧
    ((m.fragment i).drop 20).take 2 = toBe 2 i ∧
    (m.fragment i).drop 22 = m.piece i := by
  have h10 : (m.fragment i).drop 10 = ((m.fragment i).drop 2).drop 8 := by rw [List.drop_drop]
  have h18 : (m.fragment i).drop 18 = ((m.fragment i).drop 10).drop 8 := by rw [List.drop_drop]
  have h20 : (m.fragment i).drop 20 = ((m.fragment i).drop 18).drop 2 := by rw [List.drop_drop]
  have h22 : (m.fragment i).drop 22 = ((m.fragment i).drop 20).drop 2 := by rw [List.drop_drop]
  rw [h22, h20, h18, h10, Message.fragment_eq]
  simp only [Words.take_toBe_append, Words.drop_toBe_append, and_self]

theorem length_fragment (m : Message) (i : Nat) :
    (m.fragment i).length = header + (m.piece i).length := by
  rw [Message.fragment_eq]
  simp only [List.length_append, Words.length_toBe, header]
  omega

/-- The receiver reads back what the sender wrote: the casts to `u16` lose
nothing within the payload bound. -/
theorem decode_fragment (m : Message) (hlen : m.payload.length ≤ maxPayload) (hi : i < m.count) :
    Fragment.decode (m.fragment i) = .ok (m.part i) := by
  have hcount : m.count ≤ 66 := fragmentCount_le hlen
  have hbody : (m.piece i).length = min chunk (m.payload.length - i * chunk) := Chunks.length_piece
  obtain ⟨hservice, hflow, hmessage, hlength, hindex, hrest⟩ := fragment_fields m i
  have hlength' : fromBe (toBe 2 m.payload.length) = m.payload.length :=
    Words.fromBe_toBe (by simp only [maxPayload] at hlen; omega)
  have hindex' : fromBe (toBe 2 i) = i := Words.fromBe_toBe (by omega)
  simp only [Fragment.decode, bind_eq_ok, pure_eq_ok, ensure_eq_ok, hservice, hflow, hmessage,
    hlength, hindex, hlength', hindex', length_fragment, header, hrest]
  refine ⟨(), by simp, (), by simpa using hlen, (), by simpa [Message.count] using hi, (), ?_, ?_⟩
  · simp [hbody, Nat.min_comm]
  · rw [Words.fromBe_toBe m.service.toNat_lt, Words.fromBe_toBe m.flow.toNat_lt,
      Words.fromBe_toBe m.message.toNat_lt]
    simp [Message.part]

/-- A message that has the given bytes where its fragment `i` is cut out. -/
def Message.around (f : Fragment) : Message where
  service := f.service
  flow := f.flow
  message := f.message
  payload := List.replicate (f.index * chunk) 0 ++ f.body ++
    List.replicate (f.length - f.index * chunk - f.body.length) 0

theorem length_around (hi : f.index < f.count)
    (hbody : f.body.length ≤ f.length - f.index * chunk) :
    (Message.around f).payload.length = f.length := by
  have hstart : f.index * chunk ≤ f.length := Chunks.mul_le_of_lt_count hi
  simp only [Message.around, List.length_append, List.length_replicate]
  omega

theorem piece_around (hbody : f.body.length = min (f.length - f.index * chunk) chunk) :
    (Message.around f).piece f.index = f.body := by
  have hdrop : (Message.around f).payload.drop (f.index * chunk) =
      f.body ++ List.replicate (f.length - f.index * chunk - f.body.length) 0 := by
    rw [Message.around, List.append_assoc, List.drop_left' (List.length_replicate ..)]
  rw [Message.piece, Chunks.piece, hdrop]
  -- Either the body fills the chunk, or there is nothing behind it.
  rcases Nat.le_total chunk (f.length - f.index * chunk) with hfull | hlast
  · have hlen : f.body.length = chunk := by omega
    exact List.take_left' hlen
  · have hnone : f.length - f.index * chunk - f.body.length = 0 := by omega
    rw [hnone, List.replicate_zero, List.append_nil]
    exact List.take_of_length_le (by omega)

theorem split_header {p : Bytes} (h : header ≤ p.length) :
    p = toBe 2 (fromBe (p.take 2)) ++ (toBe 8 (fromBe ((p.drop 2).take 8)) ++
      (toBe 8 (fromBe ((p.drop 10).take 8)) ++ (toBe 2 (fromBe ((p.drop 18).take 2)) ++
        (toBe 2 (fromBe ((p.drop 20).take 2)) ++ p.drop 22)))) := by
  have hword : ∀ start width, start + width ≤ p.length →
      p.drop start = toBe width (fromBe ((p.drop start).take width)) ++ p.drop (start + width) := by
    intro start width hle
    have hlen : ((p.drop start).take width).length = width := by
      rw [List.length_take, List.length_drop]
      omega
    have hbe := Words.toBe_fromBe ((p.drop start).take width)
    rw [hlen] at hbe
    rw [hbe, ← List.drop_drop, List.take_append_drop]
  have h2 := hword 0 2 (by simp only [header] at h; omega)
  rw [List.drop_zero] at h2
  rw [← hword 20 2 h, ← hword 18 2 (by simp only [header] at h; omega),
    ← hword 10 8 (by simp only [header] at h; omega), ← hword 2 8
      (by simp only [header] at h; omega),
    ← h2]

theorem fromBe_take_lt (p : Bytes) (width : Nat) : fromBe (p.take width) < 256 ^ width :=
  lt_of_lt_of_le (Words.fromBe_lt _) (Nat.pow_le_pow_right (by decide) (List.length_take_le _ _))

/-- The decoder accepts the fragments of messages and nothing else, and takes
them for what they are. -/
theorem decode_eq_ok :
    Fragment.decode p = .ok f ↔
      ∃ m : Message, ∃ i, m.payload.length ≤ maxPayload ∧ i < m.count ∧ p = m.fragment i ∧
        f = m.part i := by
  constructor
  · intro h
    simp only [Fragment.decode, bind_eq_ok, pure_eq_ok, ensure_eq_ok] at h
    obtain ⟨_, hheader, _, hmax, _, hindex, _, hbody, hf⟩ := h
    simp only [decide_eq_true_eq, beq_iff_eq] at hheader hmax hindex hbody
    have hlen : f.body.length = min (f.length - f.index * chunk) chunk := by
      rw [← hf]
      simpa using hbody
    have hi : f.index < f.count := by
      rw [← hf]
      exact hindex
    have hpayload := length_around hi (by omega)
    have hpiece := piece_around hlen
    refine ⟨.around f, f.index, ?_, ?_, ?_, ?_⟩
    · rw [hpayload, ← hf]
      exact hmax
    · rw [Message.count, hpayload]
      exact hi
    · rw [Message.fragment_eq, hpayload, hpiece, ← hf]
      simp only [Message.around, UInt16.toNat_ofNat_of_lt' (fromBe_take_lt p 2),
        UInt64.toNat_ofNat_of_lt' (fromBe_take_lt _ 8)]
      exact split_header hheader
    · rw [Message.part, hpayload, hpiece]
      rfl
  · rintro ⟨m, i, hlen, hi, rfl, rfl⟩
    exact decode_fragment m hlen hi

end Cathole
