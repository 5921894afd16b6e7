import Cathole.Crypto.Datagram
import Cathole.Datagram.Reassembler

/-!
# One endpoint of a session

The datagram half of a session at the client or the server: the registration
exchange on the control stream (`initiate_datagram`, `receive_datagram` and the
server's sealed `ok`), the concurrent calls of `Sender::send`, and the
`read_packet` loop, all sharing one `DatagramCrypto` behind a mutex.

A call of `send` runs on some thread while others do, so it is a small machine
(`Send`) that the scheduler advances between two locked regions: drawing the
message ID, sealing one fragment, handing one datagram to quinn. An `Action` is
one such step, or one iteration of `read_packet`, or a tick; a run of an
endpoint is a list of actions, whatever their order. An action the endpoint is
not ready for does nothing.

Frames and datagrams from the network are arbitrary bytes, and `decrypt` may
differ from one action to the next.
-/

namespace Cathole

structure Sender where
  crypto : DatagramCrypto
  nextMessage : UInt64
  deriving DecidableEq

def Sender.new (crypto : DatagramCrypto) : Sender where
  crypto := crypto
  nextMessage := 0

inductive SendPhase
  -- At the head of the loop, about to build and seal fragment `index`.
  | fragment (index : Nat)
  -- Fragment `index` is sealed and not yet given to `send_datagram`.
  | queue (index : Nat) (datagram : Bytes)
  | returned (result : Except Fault Unit)
  deriving DecidableEq

structure Send where
  message : Message
  phase : SendPhase
  deriving DecidableEq

/-- The checks of `Sender::send` before its loop: the size, then a fresh
message ID from the atomic counter. -/
def Sender.start (service : UInt16) (flow : UInt64) (payload : Bytes) (s : Sender) :
    Except Fault Send × Sender :=
  if payload.length ≤ maxPayload then
    match Words.checkedSucc s.nextMessage with
    | some next =>
      (.ok { message := ⟨service, flow, s.nextMessage, payload⟩, phase := .fragment 0 },
        { s with nextMessage := next })
    | none => (.error (.message "message ID exhausted"), s)
  else (.error (.message "UDP payload too large"), s)

/-- The next atomic step of a call, and the datagrams it hands to quinn.
`queued` is the answer of `send_datagram`. The connection close on a failed
seal only ends the run early. -/
def Send.advance (encrypt : Nat → Bytes → Option Bytes) (queued : Bool) (s : Sender) (call : Send) :
    Send × Sender × List Bytes :=
  match call.phase with
  | .fragment i =>
    if i < call.message.count then
      match DatagramCrypto.seal' encrypt (call.message.fragment i) s.crypto with
      | (.ok datagram, crypto) =>
        ({ call with phase := .queue i datagram }, { s with crypto := crypto }, [])
      | (.error fault, crypto) =>
        ({ call with phase := .returned (.error fault) }, { s with crypto := crypto }, [])
    else ({ call with phase := .returned (.ok ()) }, s, [])
  | .queue i datagram =>
    if queued then ({ call with phase := .fragment (i + 1) }, s, [datagram])
    else ({ call with phase := .returned (.error .datagram) }, s, [])
  | .returned _ => (call, s, [])

inductive Role
  | client
  | server
  deriving DecidableEq, Repr

inductive Stage
  -- `DatagramCrypto::new`; the registration has not been sealed or opened.
  | fresh
  -- The client waits for the reply, the server binds its listeners.
  | waiting
  -- The forwarding loop runs.
  | live
  -- The session function returned an error.
  | failed
  deriving DecidableEq, Repr

/-- `Sender::new` starts the message IDs at zero, so the crypto state is kept
in a `Sender` from the beginning. -/
structure Endpoint where
  role : Role
  stage : Stage
  sender : Sender
  -- The calls of `send` that passed their checks, in order.
  calls : List Send
  -- Frames and datagrams handed to quinn.
  emitted : List Bytes
  assembly : Reassembler
  -- What `read_packet` has returned.
  delivered : List Packet
  deriving DecidableEq

inductive Action
  -- Client: `initiate_datagram` seals the registration.
  | request (payload : Bytes)
  -- Client: the reply is opened and has to be `ok`.
  | reply (frame : Bytes)
  -- Server: `receive_datagram` opens the registration.
  | accept (frame : Bytes)
  -- Server: the listeners are bound and `ok` is sealed.
  | confirm
  -- A task calls `Sender::send`.
  | send (service : UInt16) (flow : UInt64) (payload : Bytes)
  -- A running call of `send` takes its next step.
  | advance (call : Nat) (queued : Bool)
  -- One iteration of `read_packet`.
  | receive (bytes : Bytes) (now : Nat)
  | tick (now : Nat)
  deriving DecidableEq, Repr

namespace Endpoint

def new (role : Role) : Endpoint where
  role := role
  stage := .fresh
  sender := .new (.new {})
  calls := []
  emitted := []
  assembly := .default
  delivered := []

def crypto (e : Endpoint) : DatagramCrypto := e.sender.crypto

def written (e : Endpoint) : List Call := e.sender.crypto.state.written

def sealFrame (encrypt : Nat → Bytes → Option Bytes) (plain : Bytes) (next : Stage) (e : Endpoint) :
    Endpoint :=
  match DatagramCrypto.seal' encrypt plain e.crypto with
  | (.ok frame, crypto) =>
    { e with
      stage := next
      sender := { e.sender with crypto := crypto }
      emitted := e.emitted ++ [frame] }
  | (.error _, crypto) => { e with stage := .failed, sender := { e.sender with crypto := crypto } }

def openFrame (decrypt : Nat → Bytes → Option Bytes) (frame : Bytes) (acceptable : Bytes → Bool)
    (next : Stage) (e : Endpoint) : Endpoint :=
  match DatagramCrypto.open' decrypt frame e.crypto with
  | (.ok plain, crypto) =>
    { e with
      stage := if acceptable plain then next else .failed
      sender := { e.sender with crypto := crypto } }
  | (.error _, crypto) => { e with stage := .failed, sender := { e.sender with crypto := crypto } }

def startSend (service : UInt16) (flow : UInt64) (payload : Bytes) (e : Endpoint) : Endpoint :=
  match e.sender.start service flow payload with
  | (.ok call, sender) => { e with sender := sender, calls := e.calls ++ [call] }
  | (.error _, sender) => { e with sender := sender }

def advanceSend (encrypt : Nat → Bytes → Option Bytes) (k : Nat) (queued : Bool) (e : Endpoint) :
    Endpoint :=
  match e.calls[k]? with
  | none => e
  | some call =>
    let (call, sender, out) := call.advance encrypt queued e.sender
    { e with sender := sender, calls := e.calls.set k call, emitted := e.emitted ++ out }

/-- The packet `read_packet` returns after a push, if it does not go on. -/
def handedOn : Except Fault (Option Packet) → List Packet
  | .ok (some packet) => [packet]
  | _ => []

/-- One turn of the loop of `read_packet`: open, then push; failures are
logged and dropped. -/
def readDatagram (decrypt : Nat → Bytes → Option Bytes) (bytes : Bytes) (now : Nat) (e : Endpoint) :
    Endpoint :=
  match DatagramCrypto.open' decrypt bytes e.crypto with
  | (.error _, crypto) => { e with sender := { e.sender with crypto := crypto } }
  | (.ok plain, crypto) =>
    let (result, assembly) := e.assembly.push plain now
    { e with
      sender := { e.sender with crypto := crypto }
      assembly := assembly
      delivered := e.delivered ++ handedOn result }

def step (encrypt decrypt : Nat → Bytes → Option Bytes) (action : Action)
    (e : Endpoint) : Endpoint :=
  match action, e.role, e.stage with
  | .request payload, .client, .fresh => e.sealFrame encrypt payload .waiting
  | .reply frame, .client, .waiting => e.openFrame decrypt frame (· == okReply) .live
  | .accept frame, .server, .fresh => e.openFrame decrypt frame (fun _ => true) .waiting
  | .confirm, .server, .waiting => e.sealFrame encrypt okReply .live
  | .send service flow payload, _, .live => e.startSend service flow payload
  | .advance k queued, _, .live => e.advanceSend encrypt k queued
  | .receive bytes now, _, .live => e.readDatagram decrypt bytes now
  | .tick now, _, .live => { e with assembly := e.assembly.expire now }
  | _, _, _ => e

/-- A run: each action with the answers of the receiving key at that time. -/
def run (encrypt : Nat → Bytes → Option Bytes)
    (actions : List ((Nat → Bytes → Option Bytes) × Action)) (e : Endpoint) : Endpoint :=
  actions.foldl (fun e action => e.step encrypt action.1 action.2) e

-- ---------------------------------------------------------------------------
-- Everything a step can do
-- ---------------------------------------------------------------------------

def withCrypto (c : DatagramCrypto) (e : Endpoint) : Endpoint :=
  { e with sender := { e.sender with crypto := c } }

def setPhase (k : Nat) (call : Send) (phase : SendPhase) (e : Endpoint) : Endpoint :=
  { e with calls := e.calls.set k { call with phase := phase } }

/-- A frame of the exchange that may be sealed now, and the stage it leads to. -/
inductive Seals (e : Endpoint) : Bytes → Stage → Prop
  | request (payload : Bytes) (hrole : e.role = .client) (hstage : e.stage = .fresh) :
      Seals e payload .waiting
  | confirm (hrole : e.role = .server) (hstage : e.stage = .waiting) : Seals e okReply .live

/-- A frame of the exchange that may be opened now, and the stage it leads to. -/
inductive Opens (e : Endpoint) : Bytes → Stage → Prop
  | reply (hrole : e.role = .client) (hstage : e.stage = .waiting) : Opens e okReply .live
  | rejected (plain : Bytes) (hrole : e.role = .client) (hstage : e.stage = .waiting) :
      Opens e plain .failed
  | accept (plain : Bytes) (hrole : e.role = .server) (hstage : e.stage = .fresh) :
      Opens e plain .waiting

inductive Moves (encrypt decrypt : Nat → Bytes → Option Bytes) (e : Endpoint) : Endpoint → Prop
  | stay : Moves encrypt decrypt e e
  | sealed (hready : Seals e plain next)
      (hseal : DatagramCrypto.seal' encrypt plain e.crypto = (.ok frame, c)) :
      Moves encrypt decrypt e
        { e.withCrypto c with stage := next, emitted := e.emitted ++ [frame] }
  | sealFailed (hready : Seals e plain next)
      (hseal : DatagramCrypto.seal' encrypt plain e.crypto = (.error fault, c)) :
      Moves encrypt decrypt e { e.withCrypto c with stage := .failed }
  | opened (hready : Opens e plain next)
      (hopen : DatagramCrypto.open' decrypt frame e.crypto = (.ok plain, c)) :
      Moves encrypt decrypt e { e.withCrypto c with stage := next }
  | openFailed (hstage : e.stage ≠ .live) : Moves encrypt decrypt e { e with stage := .failed }
  | started (hstage : e.stage = .live) (hlen : payload.length ≤ maxPayload)
      (hnext : Words.checkedSucc e.sender.nextMessage = some next) :
      Moves encrypt decrypt e
        { e with
          sender := { e.sender with nextMessage := next }
          calls := e.calls ++
            [⟨⟨service, flow, e.sender.nextMessage, payload⟩, .fragment 0⟩] }
  | fragment (hstage : e.stage = .live) (hcall : e.calls[k]? = some call)
      (hphase : call.phase = .fragment i) (hi : i < call.message.count)
      (hseal : DatagramCrypto.seal' encrypt (call.message.fragment i) e.crypto =
        (.ok datagram, c)) :
      Moves encrypt decrypt e ((e.withCrypto c).setPhase k call (.queue i datagram))
  | fragmentFailed (hstage : e.stage = .live) (hcall : e.calls[k]? = some call)
      (hphase : call.phase = .fragment i) (hi : i < call.message.count)
      (hseal : DatagramCrypto.seal' encrypt (call.message.fragment i) e.crypto =
        (.error fault, c)) :
      Moves encrypt decrypt e ((e.withCrypto c).setPhase k call (.returned (.error fault)))
  | returned (hcall : e.calls[k]? = some call) (result : Except Fault Unit) :
      Moves encrypt decrypt e (e.setPhase k call (.returned result))
  | queued (hcall : e.calls[k]? = some call) (hphase : call.phase = .queue i datagram) :
      Moves encrypt decrypt e
        { e.setPhase k call (.fragment (i + 1)) with emitted := e.emitted ++ [datagram] }
  | received (hstage : e.stage = .live)
      (hopen : DatagramCrypto.open' decrypt bytes e.crypto = (.ok plain, c)) (now : Nat) :
      Moves encrypt decrypt e
        { e.withCrypto c with
          assembly := (e.assembly.push plain now).2
          delivered := e.delivered ++ handedOn (e.assembly.push plain now).1 }
  | expired (now : Nat) : Moves encrypt decrypt e { e with assembly := e.assembly.expire now }

variable {encrypt decrypt : Nat → Bytes → Option Bytes} {e : Endpoint}

theorem sealFrame_moves (hready : Seals e plain next) :
    Moves encrypt decrypt e (e.sealFrame encrypt plain next) := by
  unfold sealFrame
  split
  · exact .sealed hready ‹_›
  · exact .sealFailed hready ‹_›

theorem openFrame_moves {acceptable : Bytes → Bool} (hstage : e.stage ≠ .live)
    (hready : ∀ plain, Opens e plain (if acceptable plain then next else .failed)) :
    Moves encrypt decrypt e (e.openFrame decrypt frame acceptable next) := by
  unfold openFrame
  split
  · exact .opened (hready _) ‹_›
  · rename_i hopen
    have hsame := DatagramCrypto.open'_error (congrArg Prod.fst hopen)
    rw [hopen] at hsame
    simp only at hsame
    subst hsame
    exact .openFailed hstage

theorem startSend_moves (hstage : e.stage = .live) :
    Moves encrypt decrypt e (e.startSend service flow payload) := by
  unfold startSend Sender.start
  by_cases hlen : payload.length ≤ maxPayload
  · cases hnext : Words.checkedSucc e.sender.nextMessage with
    | none => simpa [hlen, hnext] using .stay
    | some next => simpa [hlen, hnext] using .started hstage hlen hnext
  · simpa [hlen] using .stay

theorem advanceSend_moves (hstage : e.stage = .live) :
    Moves encrypt decrypt e (e.advanceSend encrypt k queued) := by
  unfold advanceSend
  split
  · exact .stay
  rename_i call hcall
  unfold Send.advance
  cases hphase : call.phase with
  | fragment i =>
    by_cases hi : i < call.message.count
    · simp only [hi, ↓reduceIte]
      cases hseal : DatagramCrypto.seal' encrypt (call.message.fragment i) e.sender.crypto with
      | mk result c =>
        cases result with
        | ok datagram => simpa using .fragment hstage hcall hphase hi hseal
        | error fault => simpa using .fragmentFailed hstage hcall hphase hi hseal
    · simpa [hi] using .returned hcall _
  | queue i datagram =>
    cases queued with
    | true => simpa using .queued hcall hphase
    | false => simpa using .returned hcall _
  | returned result =>
    have hsame : e.calls.set k call = e.calls := by
      obtain ⟨hk, hget⟩ := List.getElem?_eq_some_iff.mp hcall
      rw [← hget, List.set_getElem_self]
    simpa [hsame] using .stay

theorem readDatagram_moves (hstage : e.stage = .live) :
    Moves encrypt decrypt e (e.readDatagram decrypt bytes now) := by
  unfold readDatagram
  split
  · rename_i hopen
    have hsame := DatagramCrypto.open'_error (congrArg Prod.fst hopen)
    rw [hopen] at hsame
    simp only at hsame
    subst hsame
    exact .stay
  · exact .received hstage ‹_› now

theorem step_moves (encrypt decrypt : Nat → Bytes → Option Bytes) (action : Action) (e : Endpoint) :
    Moves encrypt decrypt e (e.step encrypt decrypt action) := by
  unfold step
  split
  · exact sealFrame_moves (.request _ ‹_› ‹_›)
  · rename_i hrole hstage
    refine openFrame_moves (by simp [hstage]) fun plain => ?_
    by_cases h : plain = okReply
    · subst h
      simpa using Opens.reply hrole hstage
    · simpa [h] using Opens.rejected plain hrole hstage
  · rename_i hrole hstage
    refine openFrame_moves (by simp [hstage]) fun plain => ?_
    simpa using Opens.accept plain hrole hstage
  · exact sealFrame_moves (.confirm ‹_› ‹_›)
  · exact startSend_moves ‹_›
  · exact advanceSend_moves ‹_›
  · exact readDatagram_moves ‹_›
  · exact .expired _
  · exact .stay

end Endpoint

end Cathole
