import Cathole.Crypto.Frame

/-!
# Reading a finished stream

`write_frame` and `read_frame` of `crypto.rs` on whole streams: a sender that
makes one call after the other, and a receiver that calls `read_frame` on the
bytes of a stream that has ended, until a call fails or returns `None`.

`read_exact` waits for as many bytes as its buffer has and fails when the FIN
comes first. How the transport cuts the bytes does not matter then;
`readFrame_feed` relates this reader to the one that is fed piece by piece.
-/

namespace Cathole

open Words (toBe fromBe)

/-- The receiving half of a stream that ends in a FIN. -/
structure RecvStream where
  unread : Bytes
  -- The sizes of the bodies `read_frame` allocated, in order.
  allocated : List Nat := []
  deriving DecidableEq, Repr

namespace RecvStream

def readExact (n : Nat) (s : RecvStream) : Except Fault Bytes × RecvStream :=
  if n ≤ s.unread.length then (.ok (s.unread.take n), { s with unread := s.unread.drop n })
  else (.error .stream, { s with unread := [] })

def readFrame (s : RecvStream) : Except Fault (Option Bytes) × RecvStream :=
  match s.unread with
  | [] => (.ok none, s)
  | first :: rest =>
    match readExact 3 { s with unread := rest } with
    | (.error fault, s) => (.error fault, s)
    | (.ok others, s) =>
      let len := fromBe (first :: others)
      if len ≤ maxFrame then
        match readExact len { s with allocated := s.allocated ++ [len] } with
        | (.error fault, s) => (.error fault, s)
        | (.ok data, s) => (.ok (some data), s)
      else (.error (.message "oversized frame"), s)

/-- Up to `calls` calls of `read_frame`: the frames they return, and how the
last one ended the reading, if it did. -/
def readFrames : Nat → RecvStream → List Bytes × Option (Except Fault Unit) × RecvStream
  | 0, s => ([], none, s)
  | calls + 1, s =>
    match s.readFrame with
    | (.error fault, s) => ([], some (.error fault), s)
    | (.ok none, s) => ([], some (.ok ()), s)
    | (.ok (some data), s) =>
      let (frames, ended, s) := readFrames calls s
      (data :: frames, ended, s)

end RecvStream

/-- The calls of `write_frame` for a list of byte strings: their results, and
what they put on the stream. -/
def writeFrames : List Bytes → List (Except Fault Unit) × Bytes
  | [] => ([], [])
  | data :: rest =>
    let (results, bytes) := writeFrames rest
    match writeFrame data with
    | .ok frame => (.ok () :: results, frame ++ bytes)
    | .error fault => (.error fault :: results, bytes)

-- ---------------------------------------------------------------------------
-- The grammar of a stream
-- ---------------------------------------------------------------------------

/-- What is left behind the last complete frame, and how reading ends there. -/
inductive Tail : Bytes → Except Fault Unit → Prop
  | fin : Tail [] (.ok ())
  -- The FIN falls into a length.
  | inLength (hpos : 0 < tail.length) (hlt : tail.length < 4) : Tail tail (.error .stream)
  -- The FIN falls into a body.
  | inBody (hlen : len ≤ maxFrame) (hlt : body.length < len) :
      Tail (toBe 4 len ++ body) (.error .stream)
  | oversized (hlen : maxFrame < len) (hu32 : len < 2 ^ 32) :
    Tail (toBe 4 len ++ rest) (.error (.message "oversized frame"))

def Sendable (frames : List Bytes) : Prop := ∀ data ∈ frames, data.length ≤ maxFrame

/-- Four bytes and more begin with the length they announce. -/
theorem eq_toBe_append {stream : Bytes} (h : 4 ≤ stream.length) :
    stream = toBe 4 (announced stream) ++ stream.drop 4 := by
  have hfour : (stream.take 4).length = 4 := by simp [h]
  have htake : toBe 4 (announced stream) = stream.take 4 := by
    rw [announced]
    nth_rewrite 1 [← hfour]
    exact Words.toBe_fromBe _
  rw [htake, List.take_append_drop]

theorem announced_lt (stream : Bytes) : announced stream < 2 ^ 32 := by
  have hlt := Words.fromBe_lt (stream.take 4)
  have hlen : (stream.take 4).length ≤ 4 := List.length_take_le 4 stream
  calc announced stream < 256 ^ (stream.take 4).length := hlt
    _ ≤ 256 ^ 4 := Nat.pow_le_pow_right (by decide) hlen

/-- A stream starts with a complete frame, or is a tail. -/
theorem starts_frame_or_tail (stream : Bytes) :
    (∃ data rest, data.length ≤ maxFrame ∧ stream = encode data ++ rest) ∨
      ∃ ended, Tail stream ended := by
  rcases Nat.eq_zero_or_pos stream.length with hnil | hpos
  · rw [List.length_eq_zero_iff.mp hnil]
    exact .inr ⟨_, .fin⟩
  rcases Nat.lt_or_ge stream.length 4 with hlt | hfour
  · exact .inr ⟨_, .inLength hpos hlt⟩
  have hsplit := eq_toBe_append hfour
  rcases Nat.lt_or_ge maxFrame (announced stream) with hbig | hsmall
  · right
    rw [hsplit]
    exact ⟨_, .oversized hbig (announced_lt stream)⟩
  rcases Nat.lt_or_ge (stream.drop 4).length (announced stream) with hshort | hfull
  · right
    rw [hsplit]
    exact ⟨_, .inBody hsmall hshort⟩
  · left
    refine ⟨(stream.drop 4).take (announced stream),
      (stream.drop 4).drop (announced stream), ?_, ?_⟩
    · exact le_trans (List.length_take_le _ _) hsmall
    · have hlen : ((stream.drop 4).take (announced stream)).length = announced stream :=
        List.length_take_of_le hfull
      rw [encode, hlen, List.append_assoc, List.take_append_drop]
      exact hsplit

theorem frames_and_tail (stream : Bytes) :
    ∃ frames tail ended, Sendable frames ∧ Tail tail ended ∧
      stream = frames.flatMap encode ++ tail := by
  induction hn : stream.length using Nat.strong_induction_on generalizing stream with
  | _ n ih =>
    rcases starts_frame_or_tail stream with ⟨data, rest, hlen, rfl⟩ | ⟨ended, htail⟩
    · have hlt : rest.length < n := by
        rw [← hn, List.length_append, length_encode]
        omega
      obtain ⟨frames, tail, ended, hframes, htail, rfl⟩ := ih rest.length hlt rest rfl
      refine ⟨data :: frames, tail, ended, ?_, htail, by simp⟩
      exact List.forall_mem_cons.mpr ⟨hlen, hframes⟩
    · exact ⟨[], stream, ended, List.forall_mem_nil _, htail, rfl⟩

-- ---------------------------------------------------------------------------
-- One call
-- ---------------------------------------------------------------------------

namespace RecvStream

variable {data rest tail : Bytes} {allocated : List Nat}

theorem readFrame_toBe (hu32 : len < 2 ^ 32) :
    readFrame ⟨toBe 4 len ++ rest, allocated⟩ =
      if len ≤ maxFrame then
        if len ≤ rest.length then (.ok (some (rest.take len)), ⟨rest.drop len, allocated ++ [len]⟩)
        else (.error .stream, ⟨[], allocated ++ [len]⟩)
      else (.error (.message "oversized frame"), ⟨rest, allocated⟩) := by
  obtain ⟨first, others, hbe⟩ : ∃ first others, toBe 4 len = first :: others := ⟨_, _, rfl⟩
  have hthree : others.length = 3 := by
    have hfour := Words.length_toBe 4 len
    rw [hbe, List.length_cons] at hfour
    omega
  have hexact : readExact 3 ⟨others ++ rest, allocated⟩ = (.ok others, ⟨rest, allocated⟩) := by
    simp [readExact, hthree.symm]
  have hlen : fromBe (first :: others) = len := by
    rw [← hbe]
    exact Words.fromBe_toBe hu32
  simp only [hbe, List.cons_append, readFrame, hexact, hlen]
  split
  · by_cases hfull : len ≤ rest.length <;> simp [readExact, hfull]
  · rfl

theorem readFrame_encode (hlen : data.length ≤ maxFrame) :
    readFrame ⟨encode data ++ rest, allocated⟩ =
      (.ok (some data), ⟨rest, allocated ++ [data.length]⟩) := by
  have hu32 : data.length < 2 ^ 32 := lt_of_le_of_lt hlen (by decide)
  rw [encode, List.append_assoc, readFrame_toBe hu32, if_pos hlen]
  simp

theorem readFrame_short (hpos : 0 < tail.length) (hlt : tail.length < 4) :
    readFrame ⟨tail, allocated⟩ = (.error .stream, ⟨[], allocated⟩) := by
  cases tail with
  | nil => simp at hpos
  | cons first others =>
    have hno : ¬ 3 ≤ others.length := by
      rw [List.length_cons] at hlt
      omega
    simp [readFrame, readExact, hno]

theorem readFrames_tail (h : Tail tail ended) (allocated : List Nat) :
    ∃ s, (∀ calls, readFrames (calls + 1) ⟨tail, allocated⟩ = ([], some ended, s)) ∧
      ∀ n ∈ s.allocated, n ∈ allocated ∨ n ≤ maxFrame := by
  cases h with
  | fin =>
    refine ⟨⟨[], allocated⟩, ?_, fun n hn => .inl hn⟩
    simp [readFrames, readFrame]
  | inLength hpos hlt =>
    refine ⟨⟨[], allocated⟩, ?_, fun n hn => .inl hn⟩
    simp [readFrames, readFrame_short hpos hlt]
  | inBody hlen hlt =>
    rename_i len body
    have hu32 : len < 2 ^ 32 := lt_of_le_of_lt hlen (by decide)
    refine ⟨⟨[], allocated ++ [len]⟩, ?_, ?_⟩
    · simp [readFrames, readFrame_toBe hu32, hlen, Nat.not_le.mpr hlt]
    · intro n hn
      rcases List.mem_append.mp hn with hn | hn
      · exact .inl hn
      · rw [List.mem_singleton.mp hn]
        exact .inr hlen
  | oversized hlen hu32 =>
    rename_i len rest
    refine ⟨⟨rest, allocated⟩, ?_, fun n hn => .inl hn⟩
    simp [readFrames, readFrame_toBe hu32, Nat.not_le.mpr hlen]

theorem readFrames_append (hframes : Sendable frames) (h : Tail tail ended) (allocated : List Nat) :
    ∃ s,
      (∀ calls, frames.length < calls →
        readFrames calls ⟨frames.flatMap encode ++ tail, allocated⟩ = (frames, some ended, s)) ∧
      ∀ n ∈ s.allocated, n ∈ allocated ∨ n ≤ maxFrame := by
  induction frames generalizing allocated with
  | nil =>
    obtain ⟨s, hs, halloc⟩ := readFrames_tail h allocated
    refine ⟨s, ?_, halloc⟩
    intro calls hcalls
    cases calls with
    | zero => cases hcalls
    | succ calls => exact hs calls
  | cons data frames ih =>
    obtain ⟨hlen, hframes⟩ := List.forall_mem_cons.mp hframes
    obtain ⟨s, hs, halloc⟩ := ih hframes (allocated ++ [data.length])
    refine ⟨s, ?_, ?_⟩
    · intro calls hcalls
      cases calls with
      | zero => cases hcalls
      | succ calls => simp [readFrames, readFrame_encode hlen,
          hs calls (Nat.lt_of_succ_lt_succ hcalls)]
    · intro n hn
      rcases halloc n hn with hold | hle
      · rcases List.mem_append.mp hold with hold | hnew
        · exact .inl hold
        · rw [List.mem_singleton.mp hnew]
          exact .inr hlen
      · exact .inr hle

/-- The reader of a whole stream does what the reader fed piece by piece does:
it returns a frame that is complete, fails where that one fails, and fails when
the stream ends before a frame that was begun is complete. -/
theorem readFrame_feed (hne : buffer ≠ []) :
    (∀ data, feed buffer = .ok (some data) → buffer.length = 4 + announced buffer →
      ∀ rest, (readFrame ⟨buffer ++ rest, allocated⟩).1 = .ok (some data)) ∧
    (∀ fault, feed buffer = .error fault →
      ∀ rest, (readFrame ⟨buffer ++ rest, allocated⟩).1 = .error fault) ∧
    (feed buffer = .ok none → (readFrame ⟨buffer, allocated⟩).1 = .error .stream) := by
  rcases Nat.lt_or_ge buffer.length 4 with hlt | hfour
  · have hfeed : feed buffer = .ok none := if_pos hlt
    refine ⟨?_, ?_, fun _ => ?_⟩
    · intro data h
      simp [hfeed] at h
    · intro fault h
      simp [hfeed] at h
    · rw [readFrame_short (List.length_pos_iff.mpr hne) hlt]
  have hread : ∀ rest, readFrame ⟨buffer ++ rest, allocated⟩ =
      readFrame ⟨toBe 4 (announced buffer) ++ (buffer.drop 4 ++ rest), allocated⟩ := by
    intro rest
    rw [← List.append_assoc, ← eq_toBe_append hfour]
  have hdrop : (buffer.drop 4).length = buffer.length - 4 := List.length_drop
  simp only [feed, Nat.not_lt.mpr hfour, ↓reduceIte]
  refine ⟨?_, ?_, ?_⟩
  · intro data hfeed hlen rest
    rw [hread, readFrame_toBe (announced_lt buffer)]
    split at hfeed
    · rename_i hmax
      have hbody : (buffer.drop 4).length = announced buffer := by omega
      rw [if_neg (by omega)] at hfeed
      cases hfeed
      rw [if_pos hmax, if_pos (by simp; omega), List.take_append_of_le_length hbody.ge,
        List.take_of_length_le hbody.le]
    · cases hfeed
  · intro fault hfeed rest
    rw [hread, readFrame_toBe (announced_lt buffer)]
    split at hfeed
    · split at hfeed <;> cases hfeed
    · rename_i hmax
      cases hfeed
      rw [if_neg hmax]
  · intro hfeed
    have hself := hread []
    rw [List.append_nil, List.append_nil] at hself
    rw [hself, readFrame_toBe (announced_lt buffer)]
    split at hfeed
    · rename_i hmax
      split at hfeed
      · rename_i hshort
        rw [if_pos hmax, if_neg (by omega)]
      · cases hfeed
    · cases hfeed

end RecvStream

-- ---------------------------------------------------------------------------
-- Whole streams
-- ---------------------------------------------------------------------------

/-- The byte strings `write_frame` takes. -/
def takenFrames (items : List Bytes) : List Bytes := items.filter (·.length ≤ maxFrame)

theorem takenFrames_sendable (items : List Bytes) : Sendable (takenFrames items) := by
  intro data hdata
  simpa using (List.mem_filter.mp hdata).2

theorem writeFrames_eq (items : List Bytes) :
    writeFrames items =
      (items.map fun data => ensure (data.length ≤ maxFrame) "frame too large",
        (takenFrames items).flatMap encode) := by
  induction items with
  | nil => rfl
  | cons data items ih =>
    by_cases hlen : data.length ≤ maxFrame
    · simp [writeFrames, writeFrame_ok hlen, ih, takenFrames, ensure, hlen]
    · have hwrite : writeFrame data = .error (.message "frame too large") := by
        simp [writeFrame, ensure, hlen]
      simp [writeFrames, hwrite, ih, takenFrames, ensure, hlen]

theorem length_le_flatMap_encode (frames : List Bytes) :
    frames.length ≤ (frames.flatMap encode).length := by
  induction frames with
  | nil => simp
  | cons data frames ih =>
    rw [List.flatMap_cons, List.length_append, length_encode, List.length_cons]
    omega

theorem read_to_end (hframes : Sendable frames) (h : Tail tail ended) :
    ∃ s,
      (∀ calls > (frames.flatMap encode ++ tail).length,
        RecvStream.readFrames calls ⟨frames.flatMap encode ++ tail, []⟩ = (frames, some ended, s)) ∧
      ∀ n ∈ s.allocated, n ≤ maxFrame := by
  obtain ⟨s, hs, halloc⟩ := RecvStream.readFrames_append hframes h []
  refine ⟨s, ?_, ?_⟩
  · intro calls hcalls
    apply hs
    have hle := length_le_flatMap_encode frames
    rw [List.length_append] at hcalls
    omega
  · intro n hn
    exact (halloc n hn).resolve_left (List.not_mem_nil)

/-- A stream is made of one list of frames only, and ends in one way only. -/
theorem frames_unique (hframes : Sendable frames) (h : Tail tail ended)
    (hframes' : Sendable frames') (h' : Tail tail' ended')
    (heq : frames.flatMap encode ++ tail = frames'.flatMap encode ++ tail') :
    frames = frames' ∧ ended = ended' := by
  obtain ⟨s, hs, -⟩ := read_to_end hframes h
  obtain ⟨s', hs', -⟩ := read_to_end hframes' h'
  have hread := hs _ (Nat.lt_succ_self _)
  rw [heq, hs' _ (Nat.lt_succ_self _)] at hread
  obtain ⟨rfl, hended⟩ := Prod.mk.inj hread
  obtain ⟨hended, -⟩ := Prod.mk.inj hended
  exact ⟨rfl, (Option.some.inj hended).symm⟩

/-- Framing is uniquely decodable and shows where a stream was cut. Writing
takes exactly the byte strings that fit and puts nothing on the stream for the
others, and reading returns the ones it took. Reading any finished stream ends
after finitely many calls: with `None` exactly when the stream is a list of
frames, and otherwise with an error behind the complete ones. -/
theorem framing_exact :
    (∀ items : List Bytes,
      (writeFrames items).1 =
        items.map (fun data => ensure (data.length ≤ maxFrame) "frame too large") ∧
      (writeFrames items).2 = (takenFrames items).flatMap encode ∧
      ∀ calls > (writeFrames items).2.length, ∃ s,
        RecvStream.readFrames calls ⟨(writeFrames items).2, []⟩ =
          (takenFrames items, some (.ok ()), s)) ∧
    ∀ stream : Bytes, ∃ frames ended s,
      (∀ calls > stream.length,
        RecvStream.readFrames calls ⟨stream, []⟩ = (frames, some ended, s)) ∧
      (∀ n ∈ s.allocated, n ≤ maxFrame) ∧
      (ended = .ok () ↔ ∃ list, Sendable list ∧ stream = list.flatMap encode) ∧
      (∀ list, Sendable list → stream = list.flatMap encode → list = frames) ∧
      (∀ list tail fault, Sendable list → Tail tail (.error fault) →
        stream = list.flatMap encode ++ tail → frames = list ∧ ended = .error fault) ∧
      ∀ fault, ended = .error fault →
        ∃ tail, Sendable frames ∧ Tail tail (.error fault) ∧
          stream = frames.flatMap encode ++ tail := by
  constructor
  · intro items
    rw [writeFrames_eq]
    refine ⟨rfl, rfl, ?_⟩
    intro calls hcalls
    obtain ⟨s, hs, -⟩ := read_to_end (takenFrames_sendable items) .fin
    rw [List.append_nil] at hs
    exact ⟨s, hs calls hcalls⟩
  · intro stream
    obtain ⟨frames, tail, ended, hframes, htail, rfl⟩ := frames_and_tail stream
    obtain ⟨s, hs, halloc⟩ := read_to_end hframes htail
    -- Any other way to cut the stream into frames and a tail is the same one.
    have hunique : ∀ list tail' ended', Sendable list → Tail tail' ended' →
        frames.flatMap encode ++ tail = list.flatMap encode ++ tail' →
        frames = list ∧ ended = ended' :=
      fun list tail' ended' hlist htail' heq => frames_unique hframes htail hlist htail' heq
    refine ⟨frames, ended, s, hs, halloc, ⟨?_, ?_⟩, ?_, ?_, ?_⟩
    · rintro rfl
      cases htail
      exact ⟨frames, hframes, List.append_nil _⟩
    · rintro ⟨list, hlist, heq⟩
      exact (hunique list [] _ hlist .fin (by rw [heq, List.append_nil])).2
    · intro list hlist heq
      exact (hunique list [] _ hlist .fin (by rw [heq, List.append_nil])).1.symm
    · intro list tail' fault hlist htail' heq
      exact hunique list tail' _ hlist htail' heq
    · rintro fault rfl
      exact ⟨tail, hframes, htail, rfl⟩

end Cathole
