import Cathole.Crypto.Pipe

/-!
# Nothing is lost on the way

The invariant of one direction of a bridge, `Wf`: what the reader returned is in
the records, the frames of the records that were not opened are on the wire, in
order, and the plaintexts of the others are at the writer. It holds through
every move and through the drop of either loop.

On top of it: the end of the stream comes after everything else (`all_written`),
the receive loop fails only on a frame its sender left unfinished
(`Wf.step_error`), and a direction that was not dropped runs to its end
(`Wf.remaining_lt`, `Wf.complete_of_stuck`).
-/

namespace Cathole

def Tx.weight : Tx → Nat
  | .reading | .writing _ _ => 1
  | .finished | .dropped _ _ => 0

def Rx.weight : Rx → Nat
  | .frame _ | .writing _ => 2
  | .closing => 1
  | .done | .dropped => 0

namespace Pipe

variable {noise : Cipher} {p p' : Pipe}

def text (records : List Record) : Bytes := records.flatMap (·.plain)

def wire (records : List Record) : Bytes := records.flatMap fun r => encode r.cipher

structure Sending (total source read : Bytes) (eof : Bool) (tx : Tx) (records : List Record)
    (fin : Bool) : Prop where
  input : read ++ source = total
  taken : text records <+: read
  kept : (∀ sent rest, tx ≠ .dropped sent rest) → text records = read
  eof_iff : eof = true ↔ tx = .finished
  exhausted : eof = true → source = []
  fin_iff : fin = true ↔ tx = .finished ∨ ∃ sent rest, tx = .dropped sent rest
  sizes : ∀ r ∈ records, r.cipher.length = r.plain.length + 16 ∧ r.cipher.length ≤ maxFrame
  frame : ∀ sent rest, tx = .writing sent rest ∨ tx = .dropped sent rest ∧ sent ≠ [] →
    rest ≠ [] ∧ ∃ earlier r, records = earlier ++ [r] ∧ encode r.cipher = sent ++ rest

/-- The receive loop: the frames not yet opened are its buffer, the stream and
the rest of the sender's frame, and the plaintexts of the others are written or
being written. -/
structure Receiving (records : List Record) (tx : Tx) (fin : Bool) (read stream : Bytes) (rx : Rx)
    (opened : Nat) (written : Bytes) (shutdown : Bool) : Prop where
  opened_le : opened ≤ records.length
  wire_eq : rx ≠ .dropped → wire (records.drop opened) = rx.buffer ++ (stream ++ tx.rest)
  buffer_lt : rx.buffer ≠ [] →
    ∃ r, records[opened]? = some r ∧ rx.buffer.length < (encode r.cipher).length
  given : written <+: text (records.take opened)
  output : rx ≠ .dropped → written ++ rx.rest = text (records.take opened)
  shut : shutdown = true →
    fin = true ∧ (rx = .closing ∨ rx = .done ∨ rx = .dropped) ∧ (tx = .finished → written = read)
  posture : rx ≠ .writing [] ∧ (rx = .closing ∨ rx = .done → shutdown = true)

structure Wf (total : Bytes) (p : Pipe) : Prop where
  sending : Sending total p.source p.read p.eof p.tx p.records p.fin
  receiving : Receiving p.records p.tx p.fin p.read p.stream p.rx p.opened p.written p.shutdown

theorem wf_new (source : Bytes) : Wf source (new source) where
  sending := by constructor <;> simp [new, text]
  receiving := by constructor <;> simp [new, text, Pipe.wire, Rx.buffer, Rx.rest, Tx.rest]

theorem text_append (xs ys : List Record) : text (xs ++ ys) = text xs ++ text ys :=
  List.flatMap_append

theorem wire_append (xs ys : List Record) : wire (xs ++ ys) = wire xs ++ wire ys :=
  List.flatMap_append

variable {total : Bytes}

theorem Wf.shutdown_eq_false (h : Wf total p) (hfin : p.fin = false) : p.shutdown = false := by
  by_contra hs
  have hs := (h.receiving.shut (by simpa using hs)).1
  simp [hfin] at hs

theorem Wf.fin_eq_false (h : Wf total p)
    (htx : p.tx = .reading ∨ ∃ sent rest, p.tx = .writing sent rest) :
    p.fin = false := by
  by_contra hf
  have hf := h.sending.fin_iff.mp (by simpa using hf)
  obtain htx | ⟨sent, rest, htx⟩ := htx <;> simp [htx] at hf

theorem Sending.read (h : Sending total p.source p.read p.eof .reading p.records p.fin)
    (hsource : p.source = plain ++ later) (hmax : plain.length ≤ plainBuffer)
    (hcipher : cipher.length = plain.length + 16) :
    Sending total later (p.read ++ plain) p.eof (.writing [] (encode cipher))
      (p.records ++ [⟨plain, cipher⟩]) p.fin := by
  have hkept : text p.records = p.read := h.kept (by simp)
  have htext : text (p.records ++ [⟨plain, cipher⟩]) = p.read ++ plain := by
    rw [text_append, hkept]
    simp [text]
  have heof : p.eof = false := by
    simpa using h.eof_iff
  refine ⟨?_, by rw [htext], fun _ => htext, ?_, ?_, ?_, ?_, ?_⟩
  · rw [List.append_assoc, ← hsource]
    exact h.input
  · simp [heof]
  · simp [heof]
  · simpa using h.fin_iff
  · intro r hmem
    rcases List.mem_append.mp hmem with hmem | hmem
    · exact h.sizes r hmem
    · cases List.mem_singleton.mp hmem
      simp only [plainBuffer] at hmax
      refine ⟨hcipher, ?_⟩
      rw [hcipher, maxFrame]
      omega
  · intro sent rest hw
    obtain ⟨rfl, rfl⟩ : [] = sent ∧ encode cipher = rest := by
      simpa using hw
    exact ⟨encode_ne_nil _, p.records, _, rfl, by simp⟩

theorem Receiving.record
    (h : Receiving p.records .reading p.fin p.read p.stream p.rx p.opened p.written false)
    (plain cipher : Bytes) :
    Receiving (p.records ++ [⟨plain, cipher⟩]) (.writing [] (encode cipher)) p.fin (p.read ++ plain)
      p.stream p.rx p.opened p.written false := by
  refine ⟨?_, ?_, ?_, ?_, ?_, by simp, h.posture⟩
  · simpa using Nat.le_succ_of_le h.opened_le
  · intro hrx
    rw [List.drop_append_of_le_length h.opened_le, wire_append, h.wire_eq hrx]
    simp [Tx.rest, Pipe.wire]
  · intro hb
    obtain ⟨r, hrec, hlt⟩ := h.buffer_lt hb
    refine ⟨r, ?_, hlt⟩
    rw [List.getElem?_append_left (List.getElem?_eq_some_iff.mp hrec).1]
    exact hrec
  · rw [List.take_append_of_le_length h.opened_le]
    exact h.given
  · intro hrx
    rw [List.take_append_of_le_length h.opened_le]
    exact h.output hrx

theorem Wf.read (h : Wf total p) (htx : p.tx = .reading) (hsource : p.source = plain ++ later)
    (hmax : plain.length ≤ plainBuffer) :
    Wf total
      { p with
        source := later
        read := p.read ++ plain
        records := p.records ++ [⟨plain, noise.encrypt p.records.length plain⟩]
        tx := .writing [] (encode (noise.encrypt p.records.length plain)) } := by
  have hs := h.sending
  have hr := h.receiving
  have hopen : p.shutdown = false := h.shutdown_eq_false (h.fin_eq_false (.inl htx))
  rw [htx] at hs hr
  rw [hopen] at hr
  refine ⟨hs.read hsource hmax (noise.length_encrypt _ _), ?_⟩
  simp only [hopen]
  exact hr.record plain _

theorem Wf.eof (h : Wf total p) (htx : p.tx = .reading) (hsource : p.source = []) :
    Wf total { p with eof := true, tx := .finished, fin := true } := by
  have hs := h.sending
  have hr := h.receiving
  have hkept : text p.records = p.read := hs.kept (by simp [htx])
  have hopen : p.shutdown = false := h.shutdown_eq_false (h.fin_eq_false (.inl htx))
  refine ⟨⟨hs.input, hs.taken, fun _ => hkept, by simp, fun _ => hsource, by simp,
    hs.sizes, by simp⟩,
    ⟨hr.opened_le, fun hrx => ?_, hr.buffer_lt, hr.given, hr.output, by simp [hopen], hr.posture⟩⟩
  rw [hr.wire_eq hrx, htx]
  rfl

theorem Wf.send (h : Wf total p) (hrest : p.tx.rest = chunk ++ tx'.rest) (hfin : p.fin = false) :
    Receiving p.records tx' p.fin p.read (p.stream ++ chunk) p.rx p.opened p.written
      p.shutdown := by
  have hr := h.receiving
  refine ⟨hr.opened_le, fun hrx => ?_, hr.buffer_lt, hr.given, hr.output, ?_, hr.posture⟩
  · rw [hr.wire_eq hrx, hrest, List.append_assoc]
  · simp [h.shutdown_eq_false hfin]

theorem Wf.wrote (h : Wf total p) (htx : p.tx = .writing sent (chunk ++ rest)) (hrest : rest ≠ []) :
    Wf total { p with stream := p.stream ++ chunk, tx := .writing (sent ++ chunk) rest } := by
  have hs := h.sending
  have hfin : p.fin = false := h.fin_eq_false (.inr ⟨_, _, htx⟩)
  refine ⟨⟨hs.input, hs.taken, fun _ => hs.kept (by simp [htx]), by simpa [htx] using hs.eof_iff,
    hs.exhausted, by simpa using hfin, hs.sizes, ?_⟩,
    h.send (by simp [htx, Tx.rest]) hfin⟩
  intro sent' rest' hw
  obtain ⟨rfl, rfl⟩ : sent ++ chunk = sent' ∧ rest = rest' := by simpa using hw
  obtain ⟨-, earlier, r, hrecords, hencode⟩ := hs.frame sent (chunk ++ rest) (.inl htx)
  exact ⟨hrest, earlier, r, hrecords, by rw [hencode, List.append_assoc]⟩

theorem Wf.framed (h : Wf total p) (htx : p.tx = .writing sent rest) :
    Wf total { p with stream := p.stream ++ rest, tx := .reading } := by
  have hs := h.sending
  have hfin : p.fin = false := h.fin_eq_false (.inr ⟨_, _, htx⟩)
  exact ⟨⟨hs.input, hs.taken, fun _ => hs.kept (by simp [htx]), by simpa [htx] using hs.eof_iff,
    hs.exhausted, by simpa using hfin, hs.sizes, by simp⟩,
    h.send (by simp [htx, Tx.rest]) hfin⟩

theorem Wf.buffer_start (h : Wf total p) (hrx : p.rx = .frame buffer) (hstream : p.stream ≠ []) :
    ∃ r more, p.records[p.opened]? = some r ∧ r.cipher.length ≤ maxFrame ∧
      encode r.cipher ++ wire more = buffer ++ (p.stream ++ p.tx.rest) ∧
      buffer <+: encode r.cipher ∧ buffer.length < (encode r.cipher).length := by
  have hr := h.receiving
  have hwire := hr.wire_eq (by simp [hrx])
  rw [hrx] at hwire
  simp only [Rx.buffer] at hwire
  cases hdrop : p.records.drop p.opened with
  | nil =>
    rw [hdrop] at hwire
    simp [Pipe.wire, hstream] at hwire
  | cons r more =>
    have hget : p.records[p.opened]? = some r := by
      rw [← List.head?_drop, hdrop]
      rfl
    have hsplit : encode r.cipher ++ wire more = buffer ++ (p.stream ++ p.tx.rest) := by
      rw [hdrop] at hwire
      exact hwire
    have hlt : buffer.length < (encode r.cipher).length := by
      by_cases hb : buffer = []
      · rw [hb]
        exact List.length_pos_of_ne_nil (encode_ne_nil _)
      · obtain ⟨r', hget', hlt⟩ := hr.buffer_lt (by simpa [hrx, Rx.buffer] using hb)
        cases hget.symm.trans hget'
        simpa [hrx, Rx.buffer] using hlt
    exact ⟨r, more, hget, (h.sending.sizes r (List.mem_of_getElem? hget)).2, hsplit,
      List.prefix_of_prefix_length_le ⟨_, hsplit.symm⟩ ⟨_, rfl⟩ hlt.le, hlt⟩

theorem Wf.next_frame (h : Wf total p) (hrx : p.rx = .frame buffer)
    (hstream : p.stream = chunk ++ later) (hchunk : chunk ≠ [])
    (hwant : chunk.length ≤ want buffer) :
    ∃ r, p.records[p.opened]? = some r ∧ r.cipher.length ≤ maxFrame ∧
      buffer ++ chunk <+: encode r.cipher := by
  obtain ⟨r, more, hget, hlen, hsplit, hstart, hlt⟩ :=
    h.buffer_start hrx (by simp [hstream, hchunk])
  have hbound := (want_of_start hlen hstart hlt).2
  refine ⟨r, hget, hlen, ?_⟩
  refine List.prefix_of_prefix_length_le ⟨later ++ p.tx.rest, ?_⟩ ⟨wire more, rfl⟩ ?_
  · rw [hsplit, hstream]
    simp only [List.append_assoc]
  · rw [List.length_append]
    omega

theorem Wf.buffered (h : Wf total p) (hrx : p.rx = .frame buffer)
    (hstream : p.stream = chunk ++ later) (hchunk : chunk ≠ []) (hwant : chunk.length ≤ want buffer)
    (hfeed : feed (buffer ++ chunk) = .ok none) :
    Wf total { p with rx := .frame (buffer ++ chunk), stream := later } := by
  have hr := h.receiving
  obtain ⟨r, hget, hlen, hstart⟩ := h.next_frame hrx hstream hchunk hwant
  have hwire := hr.wire_eq (by simp [hrx])
  have houtput := hr.output (by simp [hrx])
  rw [hrx] at hwire houtput
  refine ⟨h.sending, hr.opened_le, fun _ => ?_, fun _ => ⟨r, hget, ?_⟩, hr.given, fun _ => ?_,
    fun hshut => ?_, by simp⟩
  · rw [hwire, hstream]
    simp [Rx.buffer]
  · -- A whole frame would have been fed on.
    rcases Nat.lt_or_ge (buffer ++ chunk).length (encode r.cipher).length with hlt | hge
    · exact hlt
    · rw [List.IsPrefix.eq_of_length_le hstart hge, feed_encode hlen] at hfeed
      cases hfeed
  · exact houtput
  · have hclosed := (hr.shut hshut).2.1
    simp [hrx] at hclosed

@[simp] theorem buffer_after (rest : Bytes) : (Rx.after rest).buffer = [] := by
  unfold Rx.after
  split <;> rfl

@[simp] theorem rest_after (rest : Bytes) : (Rx.after rest).rest = rest := by
  unfold Rx.after
  split
  · rename_i h
    rw [h]
    rfl
  · rfl

theorem after_posture (rest : Bytes) :
    Rx.after rest ≠ .writing [] ∧ (Rx.after rest = .closing ∨ Rx.after rest = .done → shut) := by
  unfold Rx.after
  split <;> simp [*]

theorem Wf.opened (h : Wf total p) (hrx : p.rx = .frame buffer)
    (hstream : p.stream = chunk ++ later) (hchunk : chunk ≠ []) (hwant : chunk.length ≤ want buffer)
    (hfeed : feed (buffer ++ chunk) = .ok (some record.cipher))
    (hrecord : p.records[p.opened]? = some record) :
    Wf total { p with rx := .after record.plain, stream := later, opened := p.opened + 1 } := by
  have hr := h.receiving
  obtain ⟨r, hget, hlen, hstart⟩ := h.next_frame hrx hstream hchunk hwant
  cases hget.symm.trans hrecord
  obtain ⟨hlt, hget⟩ := List.getElem?_eq_some_iff.mp hrecord
  -- The frame is whole, or nothing would have been handed on yet.
  have hwhole : buffer ++ chunk = encode record.cipher := by
    rcases Nat.lt_or_ge (buffer ++ chunk).length (encode record.cipher).length with hlt | hge
    · rw [feed_of_start hlen hstart hlt] at hfeed
      cases hfeed
    · exact List.IsPrefix.eq_of_length_le hstart hge
  have hwire := hr.wire_eq (by simp [hrx])
  have houtput := hr.output (by simp [hrx])
  rw [hrx] at hwire houtput
  simp only [Rx.rest, List.append_nil] at houtput
  have htake : text (p.records.take (p.opened + 1)) = p.written ++ record.plain := by
    rw [List.take_add_one, text_append, houtput, hrecord]
    simp [text]
  refine ⟨h.sending, hlt, fun _ => ?_, by simp, ?_, fun _ => ?_, fun hshut => ?_, after_posture _⟩
  · have hsplit : encode record.cipher ++ wire (p.records.drop (p.opened + 1)) =
        encode record.cipher ++ (later ++ p.tx.rest) := by
      rw [List.drop_eq_getElem_cons hlt, hget, hstream] at hwire
      rw [← hwhole]
      simpa [Pipe.wire, Rx.buffer, ← hwhole, List.append_assoc] using hwire
    simpa using List.append_cancel_left hsplit
  · rw [htake]
    exact List.prefix_append _ _
  · rw [htake, rest_after]
  · have hclosed := (hr.shut hshut).2.1
    simp [hrx] at hclosed

theorem Wf.all_written (h : Wf total p) (hrx : p.rx = .frame []) (hstream : p.stream = [])
    (htx : p.tx = .finished) : p.written = p.read := by
  have hwire := h.receiving.wire_eq (by simp [hrx])
  have houtput := h.receiving.output (by simp [hrx])
  rw [hrx] at houtput
  simp only [hrx, hstream, htx, Rx.buffer, Tx.rest, List.append_nil] at hwire
  have hdrop : p.records.drop p.opened = [] := by
    cases hd : p.records.drop p.opened with
    | nil => rfl
    | cons r more =>
      rw [hd] at hwire
      simp [Pipe.wire, encode_ne_nil] at hwire
  have htake : p.records.take p.opened = p.records := by
    have hboth := List.take_append_drop p.opened p.records
    rwa [hdrop, List.append_nil] at hboth
  rw [htake, h.sending.kept (by simp [htx])] at houtput
  simpa [Rx.rest] using houtput

theorem Wf.ended (h : Wf total p) (hrx : p.rx = .frame []) (hstream : p.stream = [])
    (hfin : p.fin = true) : Wf total { p with rx := .closing, shutdown := true } := by
  have hr := h.receiving
  have hwire := hr.wire_eq (by simp [hrx])
  have houtput := hr.output (by simp [hrx])
  rw [hrx] at hwire houtput
  exact ⟨h.sending, hr.opened_le, fun _ => hwire, by simp [Rx.buffer], hr.given, fun _ => houtput,
    fun _ => ⟨hfin, .inl rfl, fun htx => h.all_written hrx hstream htx⟩, by simp⟩

theorem Wf.flushed (h : Wf total p) (hrx : p.rx = .writing (chunk ++ rest)) :
    Wf total { p with written := p.written ++ chunk, rx := .after rest } := by
  have hr := h.receiving
  have hwire := hr.wire_eq (by simp [hrx])
  have houtput := hr.output (by simp [hrx])
  rw [hrx] at hwire houtput
  simp only [Rx.rest] at houtput
  refine ⟨h.sending, hr.opened_le, fun _ => ?_, by simp, ?_, fun _ => ?_, fun hshut => ?_,
    after_posture _⟩
  · rw [buffer_after]
    exact hwire
  · rw [← houtput, ← List.append_assoc]
    exact List.prefix_append _ _
  · rw [rest_after, List.append_assoc]
    exact houtput
  · have hclosed := (hr.shut hshut).2.1
    simp [hrx] at hclosed

theorem Wf.closed (h : Wf total p) (hrx : p.rx = .closing) : Wf total { p with rx := .done } := by
  have hr := h.receiving
  have hwire := hr.wire_eq (by simp [hrx])
  have houtput := hr.output (by simp [hrx])
  rw [hrx] at hwire houtput
  exact ⟨h.sending, hr.opened_le, fun _ => hwire, by simp [Rx.buffer], hr.given, fun _ => houtput,
    fun hshut => ⟨(hr.shut hshut).1, .inr (.inl rfl), (hr.shut hshut).2.2⟩,
    ⟨by simp, fun _ => hr.posture.2 (.inl hrx)⟩⟩

theorem Wf.moves (h : Wf total p) (hm : Moves noise p p') : Wf total p' := by
  cases hm with
  | stay => exact h
  | read htx hsource _ hmax => exact h.read htx hsource hmax
  | eof htx hsource => exact h.eof htx hsource
  | wrote htx _ hrest => exact h.wrote htx hrest
  | framed htx => exact h.framed htx
  | buffered hrx hstream hchunk hwant hfeed => exact h.buffered hrx hstream hchunk hwant hfeed
  | opened hrx hstream hchunk hwant hfeed hrecord =>
    exact h.opened hrx hstream hchunk hwant hfeed hrecord
  | ended hrx hstream hfin => exact h.ended hrx hstream hfin
  | flushed hrx _ => exact h.flushed hrx
  | closed hrx => exact h.closed hrx

theorem Wf.dropRx (h : Wf total p) : Wf total p.dropRx := by
  unfold Pipe.dropRx
  split
  · exact h
  · have hr := h.receiving
    exact ⟨h.sending, hr.opened_le, by simp, by simp [Rx.buffer], hr.given, by simp,
      fun hshut => ⟨(hr.shut hshut).1, .inr (.inr rfl), (hr.shut hshut).2.2⟩, by simp⟩

theorem Wf.dropped (h : Wf total p) (hfin : p.fin = false) (hinput : read' ++ source' = total)
    (hread : p.read <+: read') (hrest : p.tx.rest = rest)
    (hframe : sent ≠ [] → p.tx = .writing sent rest) :
    Wf total
      { p with source := source', read := read', tx := .dropped sent rest, fin := true } := by
  have hs := h.sending
  have hr := h.receiving
  have heof : p.eof = false := by
    by_contra he
    have htx := hs.eof_iff.mp (by simpa using he)
    have hf := hs.fin_iff.mpr (.inl htx)
    rw [hfin] at hf
    cases hf
  refine ⟨⟨hinput, hs.taken.trans hread, ?_, ?_, ?_, ?_, hs.sizes, ?_⟩,
    ⟨hr.opened_le, fun hrx => ?_, hr.buffer_lt, hr.given, hr.output, ?_, hr.posture⟩⟩
  · exact fun hno => absurd rfl (hno sent rest)
  · simp [heof]
  · simp [heof]
  · simp
  · intro sent' rest' hw
    obtain ⟨⟨rfl, rfl⟩, hsent⟩ : (sent = sent' ∧ rest = rest') ∧ sent' ≠ [] := by simpa using hw
    exact hs.frame sent rest (.inl (hframe hsent))
  · rw [hr.wire_eq hrx, hrest]
    rfl
  · simp [h.shutdown_eq_false hfin]

theorem Wf.dropTx (h : Wf total p) : Wf total p.dropTx := by
  unfold Pipe.dropTx
  split
  · rename_i htx
    exact h.dropped (h.fin_eq_false (.inl htx)) h.sending.input (List.prefix_refl _)
      (by simp [htx, Tx.rest]) (by simp)
  · rename_i sent rest htx
    exact h.dropped (h.fin_eq_false (.inr ⟨_, _, htx⟩)) h.sending.input (List.prefix_refl _)
      (by simp [htx, Tx.rest]) fun _ => htx
  · exact h
  · exact h

theorem Wf.abandon (h : Wf total p) (htx : p.tx = .reading) (n : Nat) : Wf total (p.abandon n) := by
  refine h.dropped (h.fin_eq_false (.inl htx)) ?_ (List.prefix_append _ _) (by simp [htx, Tx.rest])
    (by simp)
  rw [List.append_assoc, List.take_append_drop]
  exact h.sending.input

-- ---------------------------------------------------------------------------
-- Where a direction can fail
-- ---------------------------------------------------------------------------

/-- A dropped sender inside a frame never looks like an orderly end. -/
theorem Wf.not_ended (h : Wf total p) (hrx : p.rx = .frame []) (hstream : p.stream = [])
    (htx : p.tx = .dropped sent rest) (hsent : sent ≠ []) : False := by
  obtain ⟨hrest, earlier, r, hrecords, hencode⟩ := h.sending.frame sent rest (.inr ⟨htx, hsent⟩)
  have hwire := h.receiving.wire_eq (by simp [hrx])
  simp only [hrx, hstream, htx, Rx.buffer, Tx.rest, List.nil_append] at hwire
  have hlast : p.opened ≤ earlier.length := by
    by_contra hgt
    have hall : p.records.length ≤ p.opened := by
      rw [hrecords, List.length_append, List.length_singleton]
      omega
    rw [List.drop_eq_nil_of_le hall] at hwire
    exact hrest hwire.symm
  rw [hrecords, List.drop_append_of_le_length hlast, wire_append] at hwire
  have hlen := congrArg List.length hwire
  simp only [Pipe.wire, List.flatMap_cons, List.flatMap_nil, List.append_nil, List.length_append,
    hencode] at hlen
  have hpos : 0 < sent.length := List.length_pos_of_ne_nil hsent
  omega

/-- The only failure a direction brings about by itself is a frame cut short. -/
theorem Wf.step_error (h : Wf total p) (he : p.step noise action = .error fault) :
    ∃ buffer, p.rx = .frame buffer ∧ buffer ≠ [] ∧ p.stream = [] ∧ p.fin = true := by
  cases action with
  | write | flush | closed => cases he
  | read n =>
    obtain ⟨p', hok⟩ := readStep_ok noise n p
    rw [step, hok] at he
    cases he
  | receive n =>
    simp only [step, receiveStep] at he
    split at he
    · rename_i buffer hrx
      split at he
      · rename_i hstream
        split at he
        · rename_i hfin
          split at he
          · cases he
          · exact ⟨buffer, hrx, ‹_›, hstream, hfin⟩
        · cases he
      · split at he
        · rename_i hn
          obtain ⟨r, hget, hlen, hstart⟩ := h.next_frame hrx (List.take_append_drop n p.stream).symm
            (take_ne_nil hn.1 hn.2.2) ((List.length_take_le n p.stream).trans hn.2.1)
          -- The bytes are the start of a frame of the sender, or all of it.
          rcases Nat.lt_or_ge (buffer ++ p.stream.take n).length
            (encode r.cipher).length with hlt | hge
          · rw [feed_of_start hlen hstart hlt] at he
            cases he
          · have hopen : p.readMessage r.cipher = .ok r.plain := by simp [readMessage, hget]
            rw [List.IsPrefix.eq_of_length_le hstart hge, feed_encode hlen] at he
            change (p.readMessage r.cipher >>= _) = _ at he
            rw [hopen] at he
            cases he
        · cases he
    · cases he

structure Intact (p : Pipe) : Prop where
  tx : ∀ sent rest, p.tx ≠ .dropped sent rest
  rx : p.rx ≠ .dropped

theorem Intact.moves (h : Intact p) (hm : Moves noise p p') : Intact p' := by
  have hafter : ∀ rest, Rx.after rest ≠ .dropped := by
    intro rest
    unfold Rx.after
    split <;> simp
  cases hm with
  | stay => exact h
  | read | eof | wrote | framed => exact ⟨by simp, h.rx⟩
  | buffered | ended | closed => exact ⟨h.tx, by simp⟩
  | opened | flushed => exact ⟨h.tx, hafter _⟩

theorem Wf.step_ok (h : Wf total p) (hintact : Intact p) (noise : Cipher) (action : PipeAction) :
    ∃ p', p.step noise action = .ok p' := by
  cases he : p.step noise action with
  | ok p' => exact ⟨p', rfl⟩
  | error fault =>
    obtain ⟨buffer, hrx, hbuffer, hstream, hfin⟩ := h.step_error he
    have htx : p.tx = .finished := by
      rcases h.sending.fin_iff.mp hfin with htx | ⟨sent, rest, htx⟩
      · exact htx
      · exact absurd htx (hintact.tx sent rest)
    have hwire := h.receiving.wire_eq hintact.rx
    obtain ⟨r, hget, hlt⟩ := h.receiving.buffer_lt (by simpa [hrx, Rx.buffer] using hbuffer)
    obtain ⟨hopened, hget⟩ := List.getElem?_eq_some_iff.mp hget
    rw [List.drop_eq_getElem_cons hopened, hget] at hwire
    have hlen := congrArg List.length hwire
    simp only [hrx, hstream, htx, Rx.buffer, Tx.rest, Pipe.wire, List.flatMap_cons, List.append_nil,
      List.length_append] at hlen hlt
    omega

-- ---------------------------------------------------------------------------
-- A direction runs to its end
-- ---------------------------------------------------------------------------

/-- What is left to do. A byte weighs less the further it has come. -/
def remaining (p : Pipe) : Nat :=
  100 * p.source.length + p.tx.weight + 3 * p.tx.rest.length + 2 * p.stream.length +
    p.rx.weight + p.rx.buffer.length + p.rx.rest.length

theorem feed_some (h : feed buffer = .ok (some cipher)) : buffer.length = cipher.length + 4 := by
  unfold feed at h
  split at h
  · cases h
  · split at h
    · split at h
      · cases h
      · obtain rfl := Option.some.inj (Except.ok.inj h)
        rw [List.length_drop]
        omega
    · cases h

theorem weight_after (rest : Bytes) : (Rx.after rest).weight = 2 := by
  unfold Rx.after
  split <;> rfl

theorem Wf.remaining_lt (h : Wf total p) (hm : Moves noise p p') (hne : p' ≠ p) :
    p'.remaining < p.remaining := by
  cases hm with
  | stay => exact absurd rfl hne
  | read htx hsource hplain hmax =>
    have hpos := List.length_pos_of_ne_nil hplain
    simp only [remaining, htx, hsource, Tx.weight, Tx.rest, List.length_append, List.length_nil,
      length_encode, noise.length_encrypt]
    omega
  | eof htx hsource => simp [remaining, htx, Tx.weight, Tx.rest]
  | wrote htx hchunk hrest =>
    have hpos := List.length_pos_of_ne_nil hchunk
    simp only [remaining, htx, Tx.weight, Tx.rest, List.length_append]
    omega
  | framed htx =>
    have hpos := List.length_pos_of_ne_nil (h.sending.frame _ _ (.inl htx)).1
    simp only [remaining, htx, Tx.weight, Tx.rest, List.length_append, List.length_nil]
    omega
  | buffered hrx hstream hchunk hwant hfeed =>
    have hpos := List.length_pos_of_ne_nil hchunk
    simp only [remaining, hrx, hstream, Rx.weight, Rx.buffer, Rx.rest, List.length_append]
    omega
  | opened hrx hstream hchunk hwant hfeed hrecord =>
    have hpos := List.length_pos_of_ne_nil hchunk
    have hframe := feed_some hfeed
    have hcipher := (h.sending.sizes _ (List.mem_of_getElem? hrecord)).1
    rw [List.length_append] at hframe
    simp only [remaining, weight_after, buffer_after, rest_after]
    simp only [hrx, hstream, Rx.weight, Rx.buffer, Rx.rest, List.length_append, List.length_nil]
    omega
  | ended hrx => simp [remaining, hrx, Rx.weight, Rx.buffer, Rx.rest]
  | flushed hrx hchunk =>
    have hpos := List.length_pos_of_ne_nil hchunk
    simp only [remaining, weight_after, buffer_after, rest_after]
    simp only [hrx, Rx.weight, Rx.buffer, Rx.rest, List.length_append, List.length_nil]
    omega
  | closed hrx => simp [remaining, hrx, Rx.weight, Rx.buffer, Rx.rest]

/-- Everything the reader had was written, and then the writer shut down. -/
structure Complete (total : Bytes) (p : Pipe) : Prop where
  eof : p.eof = true
  written : p.written = total
  shutdown : p.shutdown = true

section

variable (hintact : Intact p) (hstuck : ∀ action, p.step noise action = .ok p)
include hintact hstuck

theorem finished_of_stuck : p.tx = .finished := by
  cases htx : p.tx with
  | finished => rfl
  | dropped sent rest => exact absurd htx (hintact.tx sent rest)
  | reading =>
    by_cases hsource : p.source = []
    · have hread := hstuck (.read 0)
      rw [step, readStep, if_neg (not_not.mpr htx), if_pos rfl, if_pos hsource] at hread
      have hsame := congrArg Pipe.tx (Except.ok.inj hread)
      rw [htx] at hsame
      cases hsame
    · have hpos := List.length_pos_of_ne_nil hsource
      have hread := hstuck (.read 1)
      rw [step, readStep_chunk htx (by decide) (by decide) hpos] at hread
      have hsame := congrArg Pipe.tx (Except.ok.inj hread)
      rw [htx] at hsame
      cases hsame
  | writing sent rest =>
    have hwrite := hstuck (.write rest.length)
    simp only [step, writeStep, htx, lt_irrefl, and_false, ↓reduceIte] at hwrite
    have hsame := congrArg Pipe.tx (Except.ok.inj hwrite)
    rw [htx] at hsame
    cases hsame

omit hintact in
theorem Wf.stream_of_stuck (h : Wf total p) (hrx : p.rx = .frame buffer) : p.stream = [] := by
  by_contra hstream
  obtain ⟨r, more, -, hlen, -, hstart, hlt⟩ := h.buffer_start hrx hstream
  have hpos := List.length_pos_of_ne_nil hstream
  have hwant := (want_of_start hlen hstart hlt).1
  have hreceive := hstuck (.receive 1)
  simp only [step, receiveStep, hrx] at hreceive
  rw [if_neg hstream, if_pos ⟨le_rfl, hwant, hpos⟩] at hreceive
  simp only [bind_eq_ok] at hreceive
  obtain ⟨result, -, hreceive⟩ := hreceive
  -- Whatever came of it, the byte is no longer on the stream.
  have hsame : p.stream.drop 1 = p.stream := by
    cases result with
    | none => exact congrArg Pipe.stream (Except.ok.inj hreceive)
    | some cipher =>
      simp only [bind_eq_ok] at hreceive
      obtain ⟨plain, -, hreceive⟩ := hreceive
      exact congrArg Pipe.stream (Except.ok.inj hreceive)
  have hlength := congrArg List.length hsame
  rw [List.length_drop] at hlength
  omega

theorem Wf.done_of_stuck (h : Wf total p) : p.rx = .done := by
  have hfin : p.fin = true := h.sending.fin_iff.mpr (.inl (finished_of_stuck hintact hstuck))
  cases hrx : p.rx with
  | done => rfl
  | dropped => exact absurd hrx hintact.rx
  | closing =>
    have hclosed := hstuck .closed
    simp only [step, closedStep, hrx, ↓reduceIte] at hclosed
    have hsame := congrArg Pipe.rx (Except.ok.inj hclosed)
    rw [hrx] at hsame
    cases hsame
  | writing rest =>
    have hrest : rest ≠ [] := fun hnil => h.receiving.posture.1 (hnil ▸ hrx)
    have hpos : 1 ≤ rest.length := List.length_pos_of_ne_nil hrest
    have hflush := hstuck (.flush 1)
    simp only [step, flushStep, hrx, le_refl, true_and] at hflush
    rw [if_pos hpos] at hflush
    have hsame := congrArg (List.length ∘ Pipe.written) (Except.ok.inj hflush)
    simp only [Function.comp, List.length_append, List.length_take] at hsame
    omega
  | frame buffer =>
    have hreceive := hstuck (.receive 0)
    simp only [step, receiveStep, hrx, h.stream_of_stuck hstuck hrx, hfin, ↓reduceIte] at hreceive
    split at hreceive
    · have hsame := congrArg Pipe.rx (Except.ok.inj hreceive)
      rw [hrx] at hsame
      cases hsame
    · cases hreceive

theorem Wf.complete_of_stuck (h : Wf total p) : Complete total p := by
  have htx := finished_of_stuck hintact hstuck
  have heof : p.eof = true := h.sending.eof_iff.mpr htx
  have hshut : p.shutdown = true :=
    h.receiving.posture.2 (.inr (h.done_of_stuck hintact hstuck))
  refine ⟨heof, ?_, hshut⟩
  rw [(h.receiving.shut hshut).2.2 htx]
  have hinput := h.sending.input
  rwa [h.sending.exhausted heof, List.append_nil] at hinput

end

end Pipe

end Cathole
