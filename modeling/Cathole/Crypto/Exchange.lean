import Cathole.Crypto.Datagram
import Cathole.Crypto.Frame
import Cathole.Crypto.Handshake
import Cathole.Lib.Dialogue

/-!
# Setting up a session or a stream

`complete_handshake` of `crypto.rs` and the four functions that exchange a
request and a reply after it, as programs over frames. Each party keeps whose
turn it is in a variable of its own.

Snow and the TLS exporter are outside the repository; a `Peer` has what they do
for one party. The handshake goes on until snow says that it is finished. Here
it is given a number of messages after which the timeout around the setup ends
it; any number that is not below that of the pattern will do.
-/

namespace Cathole

open Words (toBe fromBe)

inductive Place
  | header
  -- By its position in the handshake.
  | handshake (message : Nat)
  | request
  | reply
  -- The read that expects the end of the stream.
  | last
  deriving DecidableEq, Repr

abbrev Talk := Dialogue.Prog Place Bytes Fault

namespace Talk

def writeFrame (place : Place) (data : Bytes) : Talk Unit := do
  ensure (data.length ≤ maxFrame) "frame too large"
  .write place data fun isOpen => .done (accept isOpen .stream)

def readFrame (place : Place) : Talk (Option Bytes) := .read place fun got => .done (.ok got)

def finish : Talk Unit := Dialogue.Prog.finish fun isOpen => .done (accept isOpen .stream)

theorem writeFrame_bind (h : data.length ≤ maxFrame) (f : Unit → Talk α) :
    (writeFrame place data >>= f) =
      .write place data fun isOpen => .done (accept isOpen .stream) >>= f := by
  simp [writeFrame, h]

theorem writeFrame_too_large (h : ¬data.length ≤ maxFrame) (f : Unit → Talk α) :
    (writeFrame place data >>= f) = .done (.error (.message "frame too large")) := by
  simp [writeFrame, h]

@[simp] theorem readFrame_bind (f : Option Bytes → Talk α) :
    (readFrame place >>= f) = .read place f := rfl

@[simp] theorem finish_bind (f : Unit → Talk α) :
    (finish >>= f) = Dialogue.Prog.finish fun isOpen => .done (accept isOpen .stream) >>= f := rfl

end Talk

/-- The libraries of one party, with `σ` for a `HandshakeState`. -/
structure Peer (σ : Type) where
  snow : Snow σ
  decode : String → Option Bytes
  exporter : String → Bytes → Option Binding
  isHandshakeFinished : σ → Bool
  writeMessage : σ → Option (Bytes × σ)
  readMessage : σ → Bytes → Option σ
  -- What a finished handshake sends and receives with, by nonce.
  encrypt : σ → Nat → Bytes → Option Bytes
  decrypt : σ → Nat → Bytes → Option Bytes

/-- `TransportState`: the keys, and the nonces used up. -/
structure TransportState (σ : Type) where
  keys : σ
  sent : Nat := 0
  received : Nat := 0

namespace Peer

variable {σ : Type} (peer : Peer σ)

/-- The loop of `complete_handshake`. -/
def exchange : Nat → Nat → σ → Bool → Talk σ
  | 0, _, hs, _ => if peer.isHandshakeFinished hs then pure hs else .done (.error .elapsed)
  | fuel + 1, message, hs, ourTurn =>
    if peer.isHandshakeFinished hs then pure hs
    else if ourTurn then do
      let (data, hs) ← orFault (peer.writeMessage hs) .noise
      Talk.writeFrame (.handshake message) data
      exchange fuel (message + 1) hs !ourTurn
    else do
      let frame ← Talk.readFrame (.handshake message)
      let data ← context frame "missing Noise handshake message"
      let hs ← orFault (peer.readMessage hs data) .noise
      exchange fuel (message + 1) hs !ourTurn

def completeHandshake (fuel : Nat) (cfg : Noise) (purpose : Bytes) (initiator : Bool) : Talk σ := do
  let hs ← handshake peer.snow peer.decode peer.exporter cfg initiator purpose
  peer.exchange fuel 0 hs initiator

def intoTransportMode (hs : σ) : Except Fault (TransportState σ) := do
  accept (peer.isHandshakeFinished hs) .noise
  pure { keys := hs }

def intoStatelessTransportMode (hs : σ) : Except Fault Stateless := do
  accept (peer.isHandshakeFinished hs) .noise
  pure {}

def writeTransport (state : TransportState σ) (place : Place) (payload : Bytes) :
    Talk (TransportState σ) := do
  let cipher ← orFault (peer.encrypt state.keys state.sent payload) .noise
  Talk.writeFrame place cipher
  pure { state with sent := state.sent + 1 }

def readTransport (state : TransportState σ) (place : Place) :
    Talk (TransportState σ × Option Bytes) := do
  match ← Talk.readFrame place with
  | none => pure (state, none)
  | some cipher =>
    let plain ← orFault (peer.decrypt state.keys state.received cipher) .noise
    pure ({ state with received := state.received + 1 }, some plain)

def initiateStream (fuel : Nat) (cfg : Noise) (purpose payload : Bytes) :
    Talk (TransportState σ × Bytes) := do
  let hs ← peer.completeHandshake fuel cfg purpose true
  let state ← peer.intoTransportMode hs
  let state ← peer.writeTransport state .request payload
  let (state, reply) ← peer.readTransport state .reply
  let reply ← context reply "missing Noise response"
  pure (state, reply)

def receiveStream (fuel : Nat) (cfg : Noise) (purpose : Bytes) :
    Talk (TransportState σ × Bytes) := do
  let hs ← peer.completeHandshake fuel cfg purpose false
  let state ← peer.intoTransportMode hs
  let (state, payload) ← peer.readTransport state .request
  let payload ← context payload "missing Noise request"
  pure (state, payload)

/-- The keys are returned beside the `DatagramCrypto` that uses them. -/
def initiateDatagram (fuel : Nat) (cfg : Noise) (purpose payload : Bytes) :
    Talk (σ × DatagramCrypto × Bytes) := do
  let hs ← peer.completeHandshake fuel cfg purpose true
  let state ← peer.intoStatelessTransportMode hs
  let (sealed, crypto) := (DatagramCrypto.new state).seal' (peer.encrypt hs) payload
  Talk.writeFrame .request (← sealed)
  let frame ← context (← Talk.readFrame .reply) "missing Noise response"
  let (opened, crypto) := crypto.open' (peer.decrypt hs) frame
  pure (hs, crypto, ← opened)

def receiveDatagram (fuel : Nat) (cfg : Noise) (purpose : Bytes) :
    Talk (σ × DatagramCrypto × Bytes) := do
  let hs ← peer.completeHandshake fuel cfg purpose false
  let state ← peer.intoStatelessTransportMode hs
  let frame ← context (← Talk.readFrame .request) "missing Noise request"
  let (opened, crypto) := (DatagramCrypto.new state).open' (peer.decrypt hs) frame
  pure (hs, crypto, ← opened)

-- ---------------------------------------------------------------------------
-- Two parties whose handshakes belong together
-- ---------------------------------------------------------------------------

variable {peer}

/-- What one party encrypts, the other decrypts; a message has 16 bytes more
than its payload and 65535 at most. -/
structure Opens (a : Peer σ) (b : Peer τ) (keys : σ) (keys' : τ) : Prop where
  opens : ∀ nonce plain, nonce + 1 < 2 ^ 64 → plain.length + 16 ≤ maxFrame →
    ∃ cipher, a.encrypt keys nonce plain = some cipher ∧ cipher.length = plain.length + 16 ∧
      b.decrypt keys' nonce cipher = some plain
  limit : ∀ nonce plain, maxFrame < plain.length + 16 → a.encrypt keys nonce plain = none

/-- The handshake is finished, with keys that belong together. -/
structure Agreed (a : Peer σ) (b : Peer τ) (i : σ) (r : τ) : Prop where
  initiator : a.isHandshakeFinished i = true
  responder : b.isHandshakeFinished r = true
  toResponder : Opens a b i r
  toInitiator : Opens b a r i

/-- The handshake is finished after `k` more messages, the next of which is the
initiator's if `turn`, and each party accepts those of the other. -/
def Paired (a : Peer σ) (b : Peer τ) : Nat → Bool → σ → τ → Prop
  | 0, _, i, r => Agreed a b i r
  | k + 1, true, i, r =>
    a.isHandshakeFinished i = false ∧ b.isHandshakeFinished r = false ∧
      ∃ data i' r', a.writeMessage i = some (data, i') ∧ data.length ≤ maxFrame ∧
        b.readMessage r data = some r' ∧ Paired a b k false i' r'
  | k + 1, false, i, r =>
    a.isHandshakeFinished i = false ∧ b.isHandshakeFinished r = false ∧
      ∃ data i' r', b.writeMessage r = some (data, r') ∧ data.length ≤ maxFrame ∧
        a.readMessage i data = some i' ∧ Paired a b k true i' r'

theorem intoStatelessTransportMode_ok (h : peer.isHandshakeFinished hs = true) :
    peer.intoStatelessTransportMode hs = .ok {} := by
  simp [intoStatelessTransportMode, accept, h]

theorem intoTransportMode_ok (h : peer.isHandshakeFinished hs = true) :
    peer.intoTransportMode hs = .ok { keys := hs } := by
  simp [intoTransportMode, accept, h]

theorem writeTransport_eq (hencrypt : peer.encrypt keys sent payload = some cipher)
    (hlen : cipher.length ≤ maxFrame) :
    peer.writeTransport ⟨keys, sent, received⟩ place payload =
      .write place cipher fun isOpen => .done (accept isOpen .stream) >>= fun _ =>
        pure ⟨keys, sent + 1, received⟩ := by
  simp [writeTransport, hencrypt, orFault, Talk.writeFrame_bind hlen]

theorem readTransport_bind {state : TransportState σ}
    (f : TransportState σ × Option Bytes → Talk α) :
    (peer.readTransport state place >>= f) =
      .read place fun got =>
        match got with
        | none => f (state, none)
        | some cipher =>
          .done (orFault (peer.decrypt state.keys state.received cipher) .noise) >>= fun plain =>
            f ({ state with received := state.received + 1 }, some plain) := by
  simp only [readTransport, Talk.readFrame_bind, Dialogue.Prog.read_bind]
  congr
  funext got
  cases got with
  | none => rfl
  | some cipher => simp

theorem exchange_finished (h : peer.isHandshakeFinished hs = true) :
    peer.exchange fuel message hs ourTurn = pure hs := by
  cases fuel with
  | zero => simp [exchange, h]
  | succ fuel => simp [exchange, h]

theorem exchange_write (h : peer.isHandshakeFinished hs = false)
    (hwrite : peer.writeMessage hs = some (data, hs')) (hlen : data.length ≤ maxFrame)
    (f : σ → Talk α) :
    (peer.exchange (fuel + 1) message hs true >>= f) =
      .write (.handshake message) data fun isOpen =>
        .done (accept isOpen .stream) >>= fun _ =>
          peer.exchange fuel (message + 1) hs' false >>= f := by
  simp [exchange, h, hwrite, orFault, Talk.writeFrame, hlen]

theorem exchange_read (h : peer.isHandshakeFinished hs = false) (f : σ → Talk α) :
    (peer.exchange (fuel + 1) message hs false >>= f) =
      .read (.handshake message) fun got =>
        .done (context got "missing Noise handshake message") >>= fun data =>
          .done (orFault (peer.readMessage hs data) .noise) >>= fun hs' =>
            peer.exchange fuel (message + 1) hs' true >>= f := by
  simp [exchange, h, Talk.readFrame]

open Dialogue (State Step Steps SamePlaces)

variable {a : Peer σ} {b : Peer τ} {i : σ} {r : τ} {seen seen' : List (Place × Place)}

/-- Every message is read as the message it was written as, and nothing is left
on the channels. -/
theorem exchange_runs (h : Paired a b k turn i r) (hfuel : k ≤ fuel) (hfuel' : k ≤ fuel')
    (message : Nat) (f : σ → Talk α) (g : τ → Talk β) (hseen : SamePlaces seen)
    (hseen' : SamePlaces seen') :
    ∃ i' r' read read', Agreed a b i' r' ∧ SamePlaces read ∧ SamePlaces read' ∧
      Steps Step (2 * k)
        (⟨⟨a.exchange fuel message i turn >>= f, seen⟩,
          ⟨b.exchange fuel' message r (!turn) >>= g, seen'⟩, {}, {}⟩ : State Place Bytes Fault α β)
        ⟨⟨f i', read⟩, ⟨g r', read'⟩, {}, {}⟩ := by
  induction k generalizing fuel fuel' message turn i r seen seen' with
  | zero =>
    refine ⟨i, r, seen, seen', h, hseen, hseen', ?_⟩
    rw [exchange_finished h.initiator, exchange_finished h.responder]
    exact .refl _
  | succ k ih =>
    obtain ⟨n, rfl⟩ : ∃ n, fuel = n + 1 := ⟨fuel - 1, by omega⟩
    obtain ⟨n', rfl⟩ : ∃ n', fuel' = n' + 1 := ⟨fuel' - 1, by omega⟩
    have hn : k ≤ n := Nat.le_of_succ_le_succ hfuel
    have hn' : k ≤ n' := Nat.le_of_succ_le_succ hfuel'
    have hsteps : 2 * (k + 1) = 2 + 2 * k := by omega
    rw [hsteps]
    cases turn with
    | true =>
      obtain ⟨hi, hr, data, i₁, r₁, hwrite, hlen, hread, hpaired⟩ := h
      obtain ⟨i', r', read, read', hagreed, hmatch, hmatch', hrun⟩ :=
        ih hpaired hn hn' (message + 1) hseen (hseen'.snoc (.handshake message))
      refine ⟨i', r', read, read', hagreed, hmatch, hmatch', ?_⟩
      rw [exchange_write hi hwrite hlen, Bool.not_true, exchange_read hr]
      refine Dialogue.left_to_right.trans ?_
      simpa [accept, context, hread, orFault] using hrun
    | false =>
      obtain ⟨hi, hr, data, i₁, r₁, hwrite, hlen, hread, hpaired⟩ := h
      obtain ⟨i', r', read, read', hagreed, hmatch, hmatch', hrun⟩ :=
        ih hpaired hn hn' (message + 1) (hseen.snoc (.handshake message)) hseen'
      refine ⟨i', r', read, read', hagreed, hmatch, hmatch', ?_⟩
      rw [exchange_read hi, Bool.not_false, exchange_write hr hwrite hlen]
      refine Dialogue.right_to_left.trans ?_
      simpa [accept, context, hread, orFault] using hrun

theorem ends_of_exchange {P : State Place Bytes Fault α β → Prop} {f : σ → Talk α} {g : τ → Talk β}
    (h : Paired a b k true i r) (hfuel : k ≤ fuel) (hfuel' : k ≤ fuel') (hseen : SamePlaces seen)
    (hseen' : SamePlaces seen')
    (hrest : ∀ i' r' read read', Agreed a b i' r' → SamePlaces read → SamePlaces read' →
      Dialogue.Ends P ⟨⟨f i', read⟩, ⟨g r', read'⟩, {}, {}⟩) :
    Dialogue.Ends P
      ⟨⟨a.exchange fuel 0 i true >>= f, seen⟩,
        ⟨b.exchange fuel' 0 r false >>= g, seen'⟩, {}, {}⟩ := by
  obtain ⟨i', r', read, read', hagreed, hmatch, hmatch', hrun⟩ :=
    exchange_runs h hfuel hfuel' 0 f g hseen hseen'
  exact (hrest i' r' read read' hagreed hmatch hmatch').after hrun

-- ---------------------------------------------------------------------------
-- The first message under a key
-- ---------------------------------------------------------------------------

theorem encrypt_first (h : Opens a b i r) (plain : Bytes) (hlen : plain.length + 16 ≤ maxFrame) :
    ∃ cipher, a.encrypt i 0 plain = some cipher ∧ cipher.length ≤ maxFrame ∧
      b.decrypt r 0 cipher = some plain := by
  obtain ⟨cipher, hencrypt, hcipher, hdecrypt⟩ := h.opens 0 plain (by decide) hlen
  exact ⟨cipher, hencrypt, hcipher ▸ hlen, hdecrypt⟩

theorem seal'_first {c : DatagramCrypto} (h : Opens a b i r) (hnext : c.next = 0) (plain : Bytes)
    (hlen : plain.length + 16 ≤ maxFrame) :
    ∃ cipher c', c.seal' (a.encrypt i) plain = (.ok (toBe 8 0 ++ cipher), c') ∧
      cipher.length = plain.length + 16 ∧ c'.replay = c.replay ∧
      b.decrypt r 0 cipher = some plain := by
  obtain ⟨cipher, hencrypt, hcipher, hdecrypt⟩ := h.opens 0 plain (by decide) hlen
  refine ⟨cipher, (c.seal' (a.encrypt i) plain).2, ?_, hcipher,
    DatagramCrypto.seal'_replay, hdecrypt⟩
  rw [DatagramCrypto.seal'_within (by rw [hnext]; decide), hnext, hencrypt]
  rfl

theorem open'_first {c : DatagramCrypto} (hreplay : c.replay = .default) (hlen : 16 ≤ cipher.length)
    (hdecrypt : b.decrypt r 0 cipher = some plain) :
    ∃ c', c.open' (b.decrypt r) (toBe 8 0 ++ cipher) = (.ok plain, c') ∧ c'.next = c.next := by
  have hnonce : DatagramCrypto.nonceOf (toBe 8 0 ++ cipher) = 0 := by
    rw [DatagramCrypto.nonceOf, Words.take_toBe_append]
    decide
  have hdrop : (toBe 8 0 ++ cipher).drop 8 = cipher := by
    rw [Words.drop_toBe_append]
  have hshort : ¬(toBe 8 0 ++ cipher).length < 24 := by
    rw [List.length_append, Words.length_toBe]
    omega
  have hnew : (0 < DatagramCrypto.budget && c.replay.acceptable 0) = true := by
    rw [hreplay]
    decide
  refine ⟨{ c with replay := c.replay.record 0 }, ?_, rfl⟩
  simp only [DatagramCrypto.open', hshort, if_false, hnonce, hnew, if_true, hdrop, hdecrypt]

theorem sealed_opens {c c₁ : DatagramCrypto} (h : Opens a b i r) (hnext : c.next = 0)
    (hreplay : c₁.replay = .default) (plain : Bytes) (hlen : plain.length + 24 ≤ maxFrame) :
    ∃ data c' c₁', c.seal' (a.encrypt i) plain = (.ok data, c') ∧ data.length ≤ maxFrame ∧
      c'.replay = c.replay ∧ c₁.open' (b.decrypt r) data = (.ok plain, c₁') ∧
      c₁'.next = c₁.next := by
  obtain ⟨cipher, c', hseal, hcipher, hreplay', hdecrypt⟩ :=
    seal'_first h hnext plain (Nat.le_of_add_right_le (k := 8) hlen)
  have htag : 16 ≤ cipher.length := hcipher ▸ Nat.le_add_left 16 plain.length
  obtain ⟨c₁', hopen, hnext'⟩ := open'_first hreplay htag hdecrypt
  refine ⟨toBe 8 0 ++ cipher, c', c₁', hseal, ?_, hreplay', hopen, hnext'⟩
  rw [List.length_append, Words.length_toBe, hcipher]
  omega

/-- A payload that does not fit is refused, by snow or by `write_frame`. -/
theorem seal'_too_large {c : DatagramCrypto} (h : Opens a b i r) (hnext : c.next = 0)
    (hlen : maxFrame < plain.length + 24) :
    (∃ fault c', c.seal' (a.encrypt i) plain = (.error fault, c')) ∨
    ∃ data c', c.seal' (a.encrypt i) plain = (.ok data, c') ∧ ¬data.length ≤ maxFrame := by
  rcases Nat.lt_or_ge maxFrame (plain.length + 16) with hlarge | hsmall
  · refine .inl ⟨.noise, (c.seal' (a.encrypt i) plain).2, ?_⟩
    rw [DatagramCrypto.seal'_within (by rw [hnext]; decide), h.limit _ _ hlarge]
    rfl
  · obtain ⟨cipher, c', hseal, hcipher, -, -⟩ := seal'_first h hnext plain hsmall
    refine .inr ⟨toBe 8 0 ++ cipher, c', hseal, ?_⟩
    rw [List.length_append, Words.length_toBe]
    omega

end Peer

end Cathole
