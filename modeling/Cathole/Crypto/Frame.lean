import Cathole.Fault
import Cathole.Lib.Words

/-!
# Frames on a stream

`write_frame` and `read_frame` of `crypto.rs`. Writing is one `write_all` after
the other, so a frame is the string of bytes they hand over. Reading waits for
one byte, then for the rest of the length, then for the body, and QUIC may split
each of them: `want` is what the read at hand may return at most, and `feed`
what `read_frame` makes of the bytes it has so far.
-/

namespace Cathole

open Words (toBe fromBe)

def maxFrame : Nat := 65535

def encode (data : Bytes) : Bytes := toBe 4 data.length ++ data

def writeFrame (data : Bytes) : Except Fault Bytes := do
  ensure (data.length ≤ maxFrame) "frame too large"
  pure (encode data)

def announced (buffer : Bytes) : Nat := fromBe (buffer.take 4)

def want (buffer : Bytes) : Nat :=
  if buffer.length = 0 then 1
  else if buffer.length < 4 then 4 - buffer.length
  else 4 + announced buffer - buffer.length

def feed (buffer : Bytes) : Except Fault (Option Bytes) :=
  if buffer.length < 4 then .ok none
  else if announced buffer ≤ maxFrame then
    if buffer.length < 4 + announced buffer then .ok none else .ok (some (buffer.drop 4))
  else .error (.message "oversized frame")

@[simp] theorem length_encode (data : Bytes) : (encode data).length = 4 + data.length := by
  simp [encode]

theorem encode_ne_nil (data : Bytes) : encode data ≠ [] := by
  intro h
  have hlen := congrArg List.length h
  simp at hlen

theorem writeFrame_ok (h : data.length ≤ maxFrame) : writeFrame data = .ok (encode data) := by
  simp [writeFrame, ensure, h]

theorem announced_of_start {buffer : Bytes} (hlen : data.length ≤ maxFrame)
    (hfour : 4 ≤ buffer.length) (h : buffer <+: encode data) : announced buffer = data.length := by
  obtain ⟨rest, hrest⟩ := h
  have htake : buffer.take 4 = toBe 4 data.length := by
    rw [← List.take_append_of_le_length hfour, hrest, encode, Words.take_toBe_append]
  rw [announced, htake]
  exact Words.fromBe_toBe (lt_of_le_of_lt hlen (by decide))

/-- Inside a frame, a read is wanted that stays inside it. -/
theorem want_of_start {buffer : Bytes} (hlen : data.length ≤ maxFrame) (h : buffer <+: encode data)
    (hlt : buffer.length < (encode data).length) :
    0 < want buffer ∧ buffer.length + want buffer ≤ (encode data).length := by
  rw [length_encode] at hlt ⊢
  unfold want
  split
  · omega
  · split
    · omega
    · rw [announced_of_start hlen (by omega) h]
      omega

theorem feed_of_start {buffer : Bytes} (hlen : data.length ≤ maxFrame) (h : buffer <+: encode data)
    (hlt : buffer.length < (encode data).length) : feed buffer = .ok none := by
  rw [length_encode] at hlt
  unfold feed
  split
  · rfl
  · rw [announced_of_start hlen (by omega) h, if_pos hlen, if_pos hlt]

theorem feed_encode (hlen : data.length ≤ maxFrame) : feed (encode data) = .ok (some data) := by
  unfold feed
  rw [announced_of_start hlen (by simp) (List.prefix_refl _), if_pos hlen]
  simp [encode]

end Cathole
