import Cathole.Crypto.Frame

/-!
# One direction of a TCP bridge

The transmit loop of one `bridge` and the receive loop of the other, with the
QUIC stream between them. A loop stands at one of its `await`s, and an action
completes the one it stands at: the TCP reader returns some bytes, QUIC accepts
or delivers some, the TCP writer accepts some, in pieces of any size.

Snow's transport is in order: the `i`-th call of `read_message` succeeds exactly
on the ciphertext of the `i`-th call of `write_message`, and `Cipher` is what
these ciphertexts are.
-/

namespace Cathole

/-- The sending key of one direction: the ciphertext of the `n`-th record. -/
structure Cipher where
  encrypt : Nat → Bytes → Bytes
  length_encrypt : ∀ n plain, (encrypt n plain).length = plain.length + 16

structure Record where
  plain : Bytes
  cipher : Bytes
  deriving DecidableEq, Repr

inductive Tx
  -- In `reader.read`.
  | reading
  -- In `write_frame`, with the bytes of the frame QUIC has and has not yet accepted.
  | writing (sent rest : Bytes)
  -- Returned after `send.finish`.
  | finished
  -- Failed, or dropped by `try_join!` when the other loop failed.
  | dropped (sent rest : Bytes)
  deriving DecidableEq, Repr

inductive Rx
  -- In `read_frame`, with the bytes it has so far.
  | frame (buffer : Bytes)
  -- In `writer.write_all`.
  | writing (rest : Bytes)
  -- In `writer.shutdown`.
  | closing
  | done
  | dropped
  deriving DecidableEq, Repr

namespace Tx

def rest : Tx → Bytes
  | .writing _ rest | .dropped _ rest => rest
  | .reading | .finished => []

end Tx

namespace Rx

def buffer : Rx → Bytes
  | .frame buffer => buffer
  | _ => []

def rest : Rx → Bytes
  | .writing rest => rest
  | _ => []

def after (rest : Bytes) : Rx := if rest = [] then .frame [] else .writing rest

end Rx

structure Pipe where
  -- What the TCP reader has still to return before end-of-file.
  source : Bytes
  -- What it has returned.
  read : Bytes
  eof : Bool
  tx : Tx
  -- The calls of `write_message`.
  records : List Record
  -- Bytes QUIC has accepted and not yet delivered.
  stream : Bytes
  fin : Bool
  rx : Rx
  -- The successful calls of `read_message`.
  opened : Nat
  -- What the TCP writer has accepted.
  written : Bytes
  -- `writer.shutdown` was called.
  shutdown : Bool
  deriving DecidableEq, Repr

inductive PipeAction
  | read (n : Nat)
  | write (n : Nat)
  | receive (n : Nat)
  | flush (n : Nat)
  | closed
  deriving DecidableEq, Repr

namespace Pipe

def new (source : Bytes) : Pipe where
  source := source
  read := []
  eof := false
  tx := .reading
  records := []
  stream := []
  fin := false
  rx := .frame []
  opened := 0
  written := []
  shutdown := false

def plainBuffer : Nat := 16384
def cipherBuffer : Nat := 16400

/-- `write_message`, which needs room for the tag. -/
def writeMessage (noise : Cipher) (n : Nat) (plain : Bytes) : Except Fault Bytes :=
  if plain.length + 16 ≤ cipherBuffer then .ok (noise.encrypt n plain) else .error .noise

def readMessage (p : Pipe) (cipher : Bytes) : Except Fault Bytes :=
  match p.records[p.opened]? with
  | some record => if record.cipher = cipher then .ok record.plain else .error .noise
  | none => .error .noise

/-- `reader.read` returns `n` bytes, and the loop goes on to its next `await`. -/
def readStep (noise : Cipher) (n : Nat) (p : Pipe) : Except Fault Pipe :=
  if p.tx ≠ .reading then .ok p
  else if n = 0 then
    if p.source = [] then .ok { p with eof := true, tx := .finished, fin := true } else .ok p
  else if n ≤ plainBuffer ∧ n ≤ p.source.length then do
    let plain := p.source.take n
    let cipher ← writeMessage noise p.records.length plain
    let frame ← writeFrame cipher
    pure { p with
      source := p.source.drop n
      read := p.read ++ plain
      records := p.records ++ [⟨plain, cipher⟩]
      tx := .writing [] frame }
  else .ok p

def writeStep (n : Nat) (p : Pipe) : Pipe :=
  match p.tx with
  | .writing sent rest =>
    if 1 ≤ n ∧ n < rest.length then
      { p with
        stream := p.stream ++ rest.take n
        tx := .writing (sent ++ rest.take n) (rest.drop n) }
    else if n = rest.length then { p with stream := p.stream ++ rest, tx := .reading }
    else p
  | _ => p

/-- A read of the QUIC stream returns `n` bytes, or its end. -/
def receiveStep (n : Nat) (p : Pipe) : Except Fault Pipe :=
  match p.rx with
  | .frame buffer =>
    if p.stream = [] then
      if p.fin then
        if buffer = [] then .ok { p with rx := .closing, shutdown := true } else .error .stream
      else .ok p
    else if 1 ≤ n ∧ n ≤ want buffer ∧ n ≤ p.stream.length then do
      let buffer := buffer ++ p.stream.take n
      let stream := p.stream.drop n
      match ← feed buffer with
      | none => pure { p with rx := .frame buffer, stream }
      | some cipher =>
        let plain ← p.readMessage cipher
        pure { p with rx := .after plain, stream, opened := p.opened + 1 }
    else .ok p
  | _ => .ok p

def flushStep (n : Nat) (p : Pipe) : Pipe :=
  match p.rx with
  | .writing rest =>
    if 1 ≤ n ∧ n ≤ rest.length then
      { p with written := p.written ++ rest.take n, rx := .after (rest.drop n) }
    else p
  | _ => p

def closedStep (p : Pipe) : Pipe := if p.rx = .closing then { p with rx := .done } else p

def step (noise : Cipher) (p : Pipe) : PipeAction → Except Fault Pipe
  | .read n => p.readStep noise n
  | .write n => .ok (p.writeStep n)
  | .receive n => p.receiveStep n
  | .flush n => .ok (p.flushStep n)
  | .closed => .ok p.closedStep

/-- The sending stream is dropped: quinn finishes it where it stands, unless
that was done before. -/
def dropTx (p : Pipe) : Pipe :=
  match p.tx with
  | .reading => { p with tx := .dropped [] [], fin := true }
  | .writing sent rest => { p with tx := .dropped sent rest, fin := true }
  | .finished | .dropped _ _ => p

def abandon (n : Nat) (p : Pipe) : Pipe :=
  { p with
    source := p.source.drop n
    read := p.read ++ p.source.take n
    tx := .dropped [] []
    fin := true }

/-- The receiving loop is dropped, if it has not returned before. -/
def dropRx (p : Pipe) : Pipe := if p.rx = .done then p else { p with rx := .dropped }

-- ---------------------------------------------------------------------------
-- Everything a step can do
-- ---------------------------------------------------------------------------

inductive Moves (noise : Cipher) (p : Pipe) : Pipe → Prop
  | stay : Moves noise p p
  | read (htx : p.tx = .reading) (hsource : p.source = plain ++ later) (hplain : plain ≠ [])
      (hmax : plain.length ≤ plainBuffer) :
      Moves noise p
        { p with
          source := later
          read := p.read ++ plain
          records := p.records ++ [⟨plain, noise.encrypt p.records.length plain⟩]
          tx := .writing [] (encode (noise.encrypt p.records.length plain)) }
  | eof (htx : p.tx = .reading) (hsource : p.source = []) :
      Moves noise p { p with eof := true, tx := .finished, fin := true }
  | wrote (htx : p.tx = .writing sent (chunk ++ rest)) (hchunk : chunk ≠ []) (hrest : rest ≠ []) :
      Moves noise p { p with stream := p.stream ++ chunk, tx := .writing (sent ++ chunk) rest }
  | framed (htx : p.tx = .writing sent rest) :
      Moves noise p { p with stream := p.stream ++ rest, tx := .reading }
  | buffered (hrx : p.rx = .frame buffer) (hstream : p.stream = chunk ++ later)
      (hchunk : chunk ≠ []) (hwant : chunk.length ≤ want buffer)
      (hfeed : feed (buffer ++ chunk) = .ok none) :
      Moves noise p { p with rx := .frame (buffer ++ chunk), stream := later }
  | opened (hrx : p.rx = .frame buffer) (hstream : p.stream = chunk ++ later) (hchunk : chunk ≠ [])
      (hwant : chunk.length ≤ want buffer)
      (hfeed : feed (buffer ++ chunk) = .ok (some record.cipher))
      (hrecord : p.records[p.opened]? = some record) :
      Moves noise p { p with rx := .after record.plain, stream := later, opened := p.opened + 1 }
  | ended (hrx : p.rx = .frame []) (hstream : p.stream = []) (hfin : p.fin = true) :
      Moves noise p { p with rx := .closing, shutdown := true }
  | flushed (hrx : p.rx = .writing (chunk ++ rest)) (hchunk : chunk ≠ []) :
      Moves noise p { p with written := p.written ++ chunk, rx := .after rest }
  | closed (hrx : p.rx = .closing) : Moves noise p { p with rx := .done }

variable {noise : Cipher} {p p' : Pipe}

theorem readStep_chunk (htx : p.tx = .reading) (hn : n ≠ 0) (hmax : n ≤ plainBuffer)
    (hle : n ≤ p.source.length) :
    p.readStep noise n = .ok
      { p with
        source := p.source.drop n
        read := p.read ++ p.source.take n
        records := p.records ++
          [⟨p.source.take n, noise.encrypt p.records.length (p.source.take n)⟩]
        tx := .writing [] (encode (noise.encrypt p.records.length (p.source.take n))) } := by
  have hlen : (p.source.take n).length = n := by simpa using hle
  have hcipher : writeMessage noise p.records.length (p.source.take n) =
      .ok (noise.encrypt p.records.length (p.source.take n)) := by
    simp only [plainBuffer] at hmax
    rw [writeMessage, hlen, if_pos]
    simp only [cipherBuffer]
    omega
  have hframe : writeFrame (noise.encrypt p.records.length (p.source.take n)) =
      .ok (encode (noise.encrypt p.records.length (p.source.take n))) := by
    refine writeFrame_ok ?_
    simp only [plainBuffer] at hmax
    rw [noise.length_encrypt, hlen, maxFrame]
    omega
  simp only [readStep, htx, ne_eq, not_true_eq_false, ↓reduceIte, hn, hmax, hle, and_self]
  rw [hcipher]
  show (do
    let frame ← writeFrame (noise.encrypt p.records.length (p.source.take n))
    pure _ : Except Fault Pipe) = _
  rw [hframe]
  rfl

theorem take_ne_nil {bytes : Bytes} (hn : 1 ≤ n) (hle : n ≤ bytes.length) : bytes.take n ≠ [] := by
  intro h
  have hlen := congrArg List.length h
  rw [List.length_take, List.length_nil] at hlen
  omega

theorem readStep_moves (h : p.readStep noise n = .ok p') : Moves noise p p' := by
  by_cases htx : p.tx = .reading
  · by_cases hn : n = 0
    · subst hn
      by_cases hsource : p.source = []
      · rw [readStep, if_neg (not_not.mpr htx), if_pos rfl, if_pos hsource] at h
        cases h
        exact .eof htx hsource
      · simp only [readStep, htx, hsource, ne_eq, not_true_eq_false, ↓reduceIte] at h
        cases h
        exact .stay
    · by_cases hle : n ≤ plainBuffer ∧ n ≤ p.source.length
      · rw [readStep_chunk htx hn hle.1 hle.2] at h
        cases h
        refine .read htx (List.take_append_drop n p.source).symm (take_ne_nil (by omega) hle.2) ?_
        exact (List.length_take_le n p.source).trans hle.1
      · simp only [readStep, htx, hn, hle, ne_eq, not_true_eq_false, ↓reduceIte] at h
        cases h
        exact .stay
  · simp only [readStep, htx, ne_eq, not_false_eq_true, ↓reduceIte] at h
    cases h
    exact .stay

theorem readStep_ok (noise : Cipher) (n : Nat) (p : Pipe) : ∃ p', p.readStep noise n = .ok p' := by
  by_cases htx : p.tx = .reading
  · by_cases hn : n = 0
    · by_cases hsource : p.source = [] <;> simp [readStep, htx, hn, hsource]
    · by_cases hle : n ≤ plainBuffer ∧ n ≤ p.source.length
      · exact ⟨_, readStep_chunk htx hn hle.1 hle.2⟩
      · simp [readStep, htx, hn, hle]
  · simp [readStep, htx]

theorem writeStep_moves (noise : Cipher) (n : Nat) (p : Pipe) : Moves noise p (p.writeStep n) := by
  unfold writeStep
  split
  · rename_i sent rest htx
    split
    · rename_i hn
      refine .wrote (by rw [List.take_append_drop, htx]) (take_ne_nil hn.1 hn.2.le) ?_
      intro hnil
      have hlen := congrArg List.length hnil
      simp at hlen
      omega
    · split
      · exact .framed htx
      · exact .stay
  · exact .stay

theorem receiveStep_moves (h : p.receiveStep n = .ok p') : Moves noise p p' := by
  unfold receiveStep at h
  split at h
  · rename_i buffer hrx
    split at h
    · rename_i hstream
      split at h
      · rename_i hfin
        split at h
        · rename_i hbuffer
          subst hbuffer
          cases h
          exact .ended hrx hstream hfin
        · cases h
      · cases h
        exact .stay
    · split at h
      · rename_i hn
        have hstream := (List.take_append_drop n p.stream).symm
        have hchunk := take_ne_nil hn.1 hn.2.2
        have hwant := (List.length_take_le n p.stream).trans hn.2.1
        simp only [bind_eq_ok] at h
        obtain ⟨result, hfeed, h⟩ := h
        cases result with
        | none =>
          cases h
          exact .buffered hrx hstream hchunk hwant hfeed
        | some cipher =>
          simp only [bind_eq_ok] at h
          obtain ⟨plain, hplain, h⟩ := h
          cases h
          unfold readMessage at hplain
          split at hplain
          · rename_i record hrecord
            split at hplain
            · rename_i hcipher
              subst hcipher
              cases hplain
              exact .opened hrx hstream hchunk hwant hfeed hrecord
            · cases hplain
          · cases hplain
      · cases h
        exact .stay
  · cases h
    exact .stay

theorem flushStep_moves (noise : Cipher) (n : Nat) (p : Pipe) : Moves noise p (p.flushStep n) := by
  unfold flushStep
  split
  · rename_i rest hrx
    split
    · rename_i hn
      exact .flushed (by rw [List.take_append_drop, hrx]) (take_ne_nil hn.1 hn.2)
    · exact .stay
  · exact .stay

theorem closedStep_moves (noise : Cipher) (p : Pipe) : Moves noise p p.closedStep := by
  unfold closedStep
  split
  · exact .closed ‹_›
  · exact .stay

theorem step_moves (action : PipeAction) (h : p.step noise action = .ok p') : Moves noise p p' := by
  cases action with
  | read n => exact readStep_moves h
  | write n =>
    cases h
    exact writeStep_moves noise n p
  | receive n => exact receiveStep_moves h
  | flush n =>
    cases h
    exact flushStep_moves noise n p
  | closed =>
    cases h
    exact closedStep_moves noise p

end Pipe

end Cathole
