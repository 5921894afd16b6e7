import Cathole.Datagram.Nonces

/-!
# The UDP tunnel is authentic, intact and at most once

Two endpoints of one session share a Noise session. The AEAD is ideal and
directional: a ciphertext opens under a nonce exactly when the peer obtained it
from `write_message` under that nonce, and then to the plaintext given there
(`authentic_iff`). The network is free: an endpoint may be handed any bytes, on
the control stream or as a datagram, at any time and any number of times.

The argument joins four invariants. Each sender numbers its calls of
`write_message` without gaps (`Accounted`); all but the first, which belongs to
the registration, are fragments of its send calls, each sealed once (`Ledger`);
the receiver's replay window takes each nonce once, the first one during the
registration; so no fragment is pushed twice, and a message is complete at most
once (`Receives`).
-/

namespace Cathole

theorem fragment_inj {m m' : Message} (hm : m.payload.length ≤ maxPayload) (hi : i < m.count)
    (hm' : m'.payload.length ≤ maxPayload) (hi' : i' < m'.count)
    (h : m.fragment i = m'.fragment i') : m.message = m'.message ∧ i = i' := by
  have hparts : m.part i = m'.part i' := by
    have hd := decode_fragment m hm hi
    rw [h, decode_fragment m' hm' hi'] at hd
    exact (Except.ok.inj hd).symm
  exact ⟨congrArg Fragment.message hparts, congrArg Fragment.index hparts⟩

/-- The fragment a call of `send` will seal next, if it goes on. -/
def Send.upcoming (call : Send) : Option Nat :=
  match call.phase with
  | .fragment i => some i
  | .queue i _ => some (i + 1)
  | .returned _ => none

-- ---------------------------------------------------------------------------
-- The sender's books
-- ---------------------------------------------------------------------------

/-- What was encrypted after the registration is fragments of the send calls,
each once and none of those still to come. -/
structure Ledger (written : List Call) (calls : List Send) : Prop where
  ids : ∀ (k : Nat) (call : Send), calls[k]? = some call →
    call.message.message.toNat = k ∧ call.message.payload.length ≤ maxPayload
  origin : ∀ w ∈ written, w.nonce ≠ 0 →
    ∃ call ∈ calls, ∃ i < call.message.count, w.plain = call.message.fragment i
  once : ∀ w ∈ written, ∀ w' ∈ written, w.nonce ≠ 0 → w'.nonce ≠ 0 →
    w.plain = w'.plain → w.nonce = w'.nonce
  ahead : ∀ call ∈ calls, ∀ i, call.upcoming = some i → ∀ w ∈ written, w.nonce ≠ 0 →
    ∀ j < call.message.count, i ≤ j → w.plain ≠ call.message.fragment j

namespace Ledger

variable {written more : List Call} {calls : List Send} {call : Send} {m : Message}

theorem empty : Ledger [] [] := ⟨by simp, by simp, by simp, by simp⟩

theorem length_le (h : Ledger written calls) (hc : call ∈ calls) :
    call.message.payload.length ≤ maxPayload := by
  obtain ⟨k, hk⟩ := List.getElem?_of_mem hc
  exact (h.ids k call hk).2

/-- Message IDs are positions, so they identify the call. -/
theorem unique (h : Ledger written calls) {call' : Send} (hc : call ∈ calls) (hc' : call' ∈ calls)
    (hid : call.message.message = call'.message.message) : call = call' := by
  obtain ⟨k, hk⟩ := List.getElem?_of_mem hc
  obtain ⟨k', hk'⟩ := List.getElem?_of_mem hc'
  have hkk : k = k' := by
    rw [← (h.ids k call hk).1, ← (h.ids k' call' hk').1, hid]
  subst hkk
  exact Option.some.inj (hk.symm.trans hk')

/-- A frame of the registration is not part of the books. -/
theorem control (h : Ledger written calls) (hmore : ∀ w ∈ more, w.nonce = 0) :
    Ledger (written ++ more) calls := by
  have hold : ∀ w ∈ written ++ more, w.nonce ≠ 0 → w ∈ written := by
    intro w hw hn
    rcases List.mem_append.mp hw with hw | hw
    · exact hw
    · exact absurd (hmore w hw) hn
  refine ⟨h.ids, fun w hw hn => h.origin w (hold w hw hn) hn, ?_, ?_⟩
  · intro w hw w' hw' hn hn'
    exact h.once w (hold w hw hn) w' (hold w' hw' hn') hn hn'
  · intro call hc i hi w hw hn
    exact h.ahead call hc i hi w (hold w hw hn) hn

theorem start (h : Ledger written calls) (hlen : m.payload.length ≤ maxPayload)
    (hid : m.message.toNat = calls.length) : Ledger written (calls ++ [⟨m, .fragment 0⟩]) := by
  refine ⟨?_, ?_, h.once, ?_⟩
  · intro k call hk
    rcases Nat.lt_or_ge k calls.length with hlt | hge
    · rw [List.getElem?_append_left hlt] at hk
      exact h.ids k call hk
    · rw [List.getElem?_append_right hge] at hk
      obtain ⟨hzero, rfl⟩ : k - calls.length = 0 ∧ call = ⟨m, .fragment 0⟩ := by
        simpa [List.getElem?_singleton, eq_comm] using hk
      exact ⟨by simp only; omega, hlen⟩
  · intro w hw hn
    obtain ⟨call, hc, hi⟩ := h.origin w hw hn
    exact ⟨call, List.mem_append_left _ hc, hi⟩
  · intro call hc i hi w hw hn j hj hij
    rcases List.mem_append.mp hc with hc | hc
    · exact h.ahead call hc i hi w hw hn j hj hij
    · rw [List.mem_singleton.mp hc] at hj ⊢
      intro hplain
      obtain ⟨old, hold, i', hi', hplain'⟩ := h.origin w hw hn
      obtain ⟨hsame, -⟩ := fragment_inj hlen hj (h.length_le hold) hi' (hplain.symm.trans hplain')
      obtain ⟨k, hk⟩ := List.getElem?_of_mem hold
      have hlt : k < calls.length := (List.getElem?_eq_some_iff.mp hk).1
      rw [← (h.ids k old hk).1, ← hsame, hid] at hlt
      exact lt_irrefl _ hlt

/-- A call may move on, but not back to a fragment it has passed. -/
theorem setPhase (h : Ledger written calls) (hcall : calls[k]? = some call)
    (hup : ∀ j, Send.upcoming { call with phase := phase } = some j →
      ∃ i ≤ j, call.upcoming = some i) :
    Ledger written (calls.set k { call with phase := phase }) := by
  have hmem : call ∈ calls := List.mem_of_getElem? hcall
  refine ⟨?_, ?_, h.once, ?_⟩
  · intro k' call' hk'
    rw [List.getElem?_set] at hk'
    split at hk'
    · rename_i hkk
      subst hkk
      split at hk'
      · obtain rfl := Option.some.inj hk'
        exact h.ids k call hcall
      · cases hk'
    · exact h.ids k' call' hk'
  · intro w hw hn
    obtain ⟨old, hold, i, hi, hplain⟩ := h.origin w hw hn
    by_cases hsame : old = call
    · subst hsame
      exact ⟨_, List.mem_set (List.getElem?_eq_some_iff.mp hcall).1 _, i, hi, hplain⟩
    · refine ⟨old, ?_, i, hi, hplain⟩
      obtain ⟨k', hk'⟩ := List.getElem?_of_mem hold
      refine List.mem_of_getElem? (i := k') ?_
      rw [List.getElem?_set_ne, hk']
      rintro rfl
      exact hsame (Option.some.inj (hk'.symm.trans hcall))
  · intro call' hc j hj w hw hn j' hj' hle
    rcases List.mem_or_eq_of_mem_set hc with hc | rfl
    · exact h.ahead call' hc j hj w hw hn j' hj' hle
    · obtain ⟨i, hij, hi⟩ := hup j hj
      exact h.ahead call hmem i hi w hw hn j' hj' (hij.trans hle)

theorem encrypted (h : Ledger written calls) (hcall : call ∈ calls) (hi : i < call.message.count)
    (hmore : ∀ w ∈ more, w.plain = call.message.fragment i ∧ w.nonce = n)
    (hnew : ∀ w ∈ written, w.nonce ≠ 0 → w.plain ≠ call.message.fragment i)
    (hpast : ∀ j, call.upcoming = some j → i < j) : Ledger (written ++ more) calls := by
  refine ⟨h.ids, ?_, ?_, ?_⟩
  · intro w hw hn
    rcases List.mem_append.mp hw with hw | hw
    · exact h.origin w hw hn
    · exact ⟨call, hcall, i, hi, (hmore w hw).1⟩
  · intro w hw w' hw' hn hn' hplain
    rcases List.mem_append.mp hw with hw | hw <;> rcases List.mem_append.mp hw' with hw' | hw'
    · exact h.once w hw w' hw' hn hn' hplain
    · exact absurd (hplain.trans (hmore w' hw').1) (hnew w hw hn)
    · exact absurd (hplain.symm.trans (hmore w hw).1) (hnew w' hw' hn')
    · rw [(hmore w hw).2, (hmore w' hw').2]
  · intro call' hc j hj w hw hn j' hj' hle hplain
    rcases List.mem_append.mp hw with hw | hw
    · exact h.ahead call' hc j hj w hw hn j' hj' hle hplain
    · obtain ⟨hsame, rfl⟩ := fragment_inj (h.length_le hcall) hi (h.length_le hc) hj'
        ((hmore w hw).1.symm.trans hplain)
      obtain rfl := h.unique hcall hc hsame
      exact absurd (hpast j hj) (Nat.not_lt.mpr hle)

end Ledger

namespace Endpoint

variable {e e' x y : Endpoint} {encrypt decrypt : Nat → Bytes → Option Bytes}

/-- The books of a whole endpoint: its ledger is right, message IDs count its
calls, only a live endpoint has made any, and the one frame of the registration
it seals is the first thing it encrypts. -/
structure Honest (e : Endpoint) : Prop where
  numbered : DatagramCrypto.Numbered e.crypto
  ledger : Ledger e.written e.calls
  nextMessage : e.sender.nextMessage.toNat = e.calls.length
  quiet : e.stage ≠ .live → e.calls = []
  unsealed : e.stage = .fresh ∨ e.role = .server ∧ e.stage = .waiting → e.crypto.next = 0

theorem honest_new (role : Role) : Honest (new role) :=
  ⟨DatagramCrypto.numbered_new, .empty, rfl, fun _ => rfl, fun _ => rfl⟩

theorem Seals.first (h : Seals e plain next) (he : Honest e) :
    e.crypto.next = 0 ∧ e.calls = [] := by
  cases h with
  | request _ hrole hstage => exact ⟨he.unsealed (.inl hstage), he.quiet (by simp [hstage])⟩
  | confirm hrole hstage => exact ⟨he.unsealed (.inr ⟨hrole, hstage⟩), he.quiet (by simp [hstage])⟩

theorem Honest.sealed (h : Honest e) (hstage : e.stage = .live) (hcall : e.calls[k]? = some call)
    (hphase : call.phase = .fragment i) (hi : i < call.message.count)
    (hs : DatagramCrypto.seal' encrypt (call.message.fragment i) e.crypto = (result, c))
    (hpast : ∀ j, Send.upcoming { call with phase := phase } = some j → i < j) :
    Honest ((e.withCrypto c).setPhase k call phase) := by
  have hup : call.upcoming = some i := by simp [Send.upcoming, hphase]
  obtain ⟨more, hwritten, hmore⟩ := DatagramCrypto.seal'_written hs
  have hledger : Ledger e.written (e.calls.set k { call with phase := phase }) :=
    h.ledger.setPhase hcall fun j hj => ⟨i, (hpast j hj).le, hup⟩
  have hmem : { call with phase := phase } ∈ e.calls.set k { call with phase := phase } :=
    List.mem_set (List.getElem?_eq_some_iff.mp hcall).1 _
  have hnew : ∀ w ∈ e.written, w.nonce ≠ 0 → w.plain ≠ call.message.fragment i :=
    fun w hw hn => h.ledger.ahead call (List.mem_of_getElem? hcall) i hup w hw hn i hi le_rfl
  refine ⟨h.numbered.seal' hs, ?_, ?_, fun hno => absurd hstage hno, ?_⟩
  · rw [show ((e.withCrypto c).setPhase k call phase).written = e.written ++ more from hwritten]
    exact hledger.encrypted hmem hi hmore hnew hpast
  · simpa [setPhase, withCrypto] using h.nextMessage
  · simp [setPhase, withCrypto, hstage]

theorem Honest.setPhase (h : Honest e) (hcall : e.calls[k]? = some call)
    (hup : ∀ j, Send.upcoming { call with phase := phase } = some j →
      ∃ i ≤ j, call.upcoming = some i) : Honest (e.setPhase k call phase) := by
  refine ⟨h.numbered, h.ledger.setPhase hcall hup, ?_, fun hno => ?_, h.unsealed⟩
  · simpa [Endpoint.setPhase] using h.nextMessage
  · simp [Endpoint.setPhase, h.quiet hno]

theorem Honest.control (h : Honest e) (hready : Seals e plain after)
    (hs : DatagramCrypto.seal' encrypt plain e.crypto = (result, c))
    (hnext : next = after ∨ next = .failed) (emitted : List Bytes) :
    Honest { e.withCrypto c with stage := next, emitted := emitted } := by
  obtain ⟨hzero, hcalls⟩ := hready.first h
  obtain ⟨more, hwritten, hmore⟩ := DatagramCrypto.seal'_written hs
  refine ⟨h.numbered.seal' hs, ?_, h.nextMessage, fun _ => hcalls, ?_⟩
  · show Ledger c.state.written e.calls
    rw [hwritten]
    exact h.ledger.control fun w hw => (hmore w hw).2.trans hzero
  · -- The stage after the seal is one in which nothing is left to be sealed.
    rintro (hfresh | ⟨hserver, hwaiting⟩)
    · cases hready <;> rcases hnext with rfl | rfl <;> cases hfresh
    · cases hready with
      | request _ hrole => cases hrole.symm.trans hserver
      | confirm => rcases hnext with rfl | rfl <;> cases hwaiting

theorem Honest.moves (h : Honest e) (hm : Moves encrypt decrypt e e') : Honest e' := by
  cases hm with
  | stay => exact h
  | sealed hready hs => exact h.control hready hs (.inl rfl) _
  | sealFailed hready hs => exact h.control hready hs (.inr rfl) _
  | opened hready ho =>
    obtain ⟨hstate, hnext⟩ := DatagramCrypto.open'_sending ho
    have hlive : e.stage ≠ .live := by cases hready <;> simp [*]
    refine ⟨h.numbered.open' ho, ?_, h.nextMessage, fun _ => h.quiet hlive, fun hun => ?_⟩
    · simpa [written, withCrypto, hstate, crypto] using h.ledger
    · refine hnext.trans (h.unsealed ?_)
      cases hready with
      | reply | rejected => simp at hun
      | accept _ hrole hstage => exact .inl hstage
  | openFailed hstage => exact ⟨h.numbered, h.ledger, h.nextMessage,
      fun _ => h.quiet hstage, by simp⟩
  | started hstage hlen hnext =>
    refine ⟨h.numbered, h.ledger.start hlen h.nextMessage, ?_, fun hno => absurd hstage hno,
      h.unsealed⟩
    rw [List.length_append, ← h.nextMessage]
    exact Words.checkedSucc_some hnext
  | fragment hstage hcall hphase hi hs =>
    exact h.sealed hstage hcall hphase hi hs fun j hj => by
      obtain rfl := Option.some.inj hj
      exact Nat.lt_succ_self _
  | fragmentFailed hstage hcall hphase hi hs =>
    exact h.sealed hstage hcall hphase hi hs fun j hj => by cases hj
  | returned hcall result => exact h.setPhase hcall fun j hj => by cases hj
  | queued hcall hphase =>
    rename_i k call i datagram
    have hset : Honest (e.setPhase k call (.fragment (i + 1))) := h.setPhase hcall fun j hj =>
      ⟨j, le_rfl, by simpa [Send.upcoming, hphase] using hj⟩
    exact ⟨hset.numbered, hset.ledger, hset.nextMessage, hset.quiet, hset.unsealed⟩
  | received hstage ho =>
    obtain ⟨hstate, hnext⟩ := DatagramCrypto.open'_sending ho
    refine ⟨h.numbered.open' ho, ?_, h.nextMessage, h.quiet,
      fun hun => hnext.trans (h.unsealed hun)⟩
    simpa [written, withCrypto, hstate, crypto] using h.ledger
  | expired => exact ⟨h.numbered, h.ledger, h.nextMessage, h.quiet, h.unsealed⟩

end Endpoint

-- ---------------------------------------------------------------------------
-- The receiver's side
-- ---------------------------------------------------------------------------

/-- The ideal AEAD of one direction: `read_message` answers from the peer's
calls of `write_message`. -/
def authentic (peer : Stateless) (nonce : Nat) (cipher : Bytes) : Option Bytes :=
  (peer.written.find? fun call => call.nonce = nonce ∧ call.cipher = some cipher).map (·.plain)

/-- `read_message` succeeds with a plaintext exactly when the peer encrypted it
under that nonce and got that ciphertext. -/
theorem authentic_iff (h : DatagramCrypto.Numbered c) :
    authentic c.state n cipher = some plain ↔ ⟨n, plain, some cipher⟩ ∈ c.state.written := by
  unfold authentic
  constructor
  · intro ha
    obtain ⟨call, hfind, rfl⟩ := Option.map_eq_some_iff.mp ha
    have hcall := List.find?_some hfind
    simp only [decide_eq_true_eq] at hcall
    obtain ⟨rfl, hcipher⟩ := hcall
    rw [← hcipher]
    exact List.mem_of_find?_eq_some hfind
  · intro hmem
    have hnodup : (c.state.written.map (·.nonce)).Nodup := h.nonces ▸ List.nodup_range
    cases hfind : c.state.written.find? fun call => call.nonce = n ∧ call.cipher = some cipher with
    | none =>
      have hno := List.find?_eq_none.mp hfind _ hmem
      simp at hno
    | some call =>
      have hcall := List.find?_some hfind
      simp only [decide_eq_true_eq] at hcall
      have hsame := List.inj_on_of_nodup_map hnodup (List.mem_of_find?_eq_some hfind) hmem hcall.1
      simp [hsame]

namespace Endpoint

def messages (e : Endpoint) : List Message := e.calls.map (·.message)

/-- Fragment `j` of `m` was sent by `x` and opened under one of `taken`. -/
def Pushed (x : Endpoint) (taken : Set Nat) (m : Message) (j : Nat) : Prop :=
  m ∈ x.messages ∧ j < m.count ∧
    ∃ w ∈ x.written, w.nonce ≠ 0 ∧ w.nonce ∈ taken ∧ w.plain = m.fragment j

/-- What `y` holds and has delivered comes from `x`: `taken` are the nonces `y`
has opened, the registration's among them once it is through, and `sources` the
messages it has delivered. -/
structure Receives (x y : Endpoint) (taken : Set Nat) (sources : List Message) : Prop where
  replay : y.crypto.replay.Refines taken
  first : y.stage = .live ∨ y.role = .server ∧ y.stage = .waiting → 0 ∈ taken
  assembly : y.assembly.Sound (Pushed x taken)
  delivered : y.delivered = sources.map (·.packet)
  complete : ∀ m ∈ sources, ∀ j < m.count, Pushed x taken m j
  nodup : sources.Nodup

variable {e e' x x' y y' : Endpoint} {encrypt decrypt : Nat → Bytes → Option Bytes}

theorem receives_new (x : Endpoint) (role : Role) : Receives x (new role) ∅ [] where
  replay := ReplayWindow.refines_default
  first := by simp [new]
  assembly := Reassembler.sound_default
  delivered := rfl
  complete := by simp
  nodup := .nil

theorem messages_setPhase (hcall : e.calls[k]? = some call) :
    (e.setPhase k call phase).messages = e.messages := by
  apply List.ext_getElem?
  intro j
  simp only [messages, setPhase, List.getElem?_map, List.getElem?_set]
  split
  · rename_i hkj
    subst hkj
    obtain ⟨hk, hget⟩ := List.getElem?_eq_some_iff.mp hcall
    simp [hk, hget]
  · rfl

theorem Moves.grows (hm : Moves encrypt decrypt e e') :
    e.written ⊆ e'.written ∧ e.messages ⊆ e'.messages := by
  have hseal : ∀ {plain result c}, DatagramCrypto.seal' encrypt plain e.crypto = (result, c) →
      e.written ⊆ c.state.written := by
    intro plain result c hs
    obtain ⟨more, hwritten, -⟩ := DatagramCrypto.seal'_written hs
    exact hwritten ▸ List.subset_append_left _ _
  have hopen : ∀ {frame result c}, DatagramCrypto.open' decrypt frame e.crypto = (result, c) →
      e.written ⊆ c.state.written := by
    intro frame result c ho
    rw [(DatagramCrypto.open'_sending ho).1]
    exact List.Subset.refl _
  cases hm with
  | stay | openFailed | expired => exact ⟨List.Subset.refl _, List.Subset.refl _⟩
  | sealed _ hs | sealFailed _ hs => exact ⟨hseal hs, List.Subset.refl _⟩
  | opened _ ho | received _ ho => exact ⟨hopen ho, List.Subset.refl _⟩
  | started => exact ⟨List.Subset.refl _, List.map_subset _ (List.subset_append_left _ _)⟩
  | fragment _ hcall _ _ hs | fragmentFailed _ hcall _ _ hs =>
    refine ⟨hseal hs, ?_⟩
    show e.messages ⊆ (e.setPhase _ _ _).messages
    rw [messages_setPhase hcall]
    exact List.Subset.refl _
  | returned hcall | queued hcall =>
    refine ⟨List.Subset.refl _, ?_⟩
    show e.messages ⊆ (e.setPhase _ _ _).messages
    rw [messages_setPhase hcall]
    exact List.Subset.refl _

theorem Pushed.mono (h : Pushed x taken m j) (hw : x.written ⊆ x'.written)
    (hm : x.messages ⊆ x'.messages) (ht : taken ⊆ taken') : Pushed x' taken' m j := by
  obtain ⟨hmem, hj, w, hwritten, hn, htaken, hplain⟩ := h
  exact ⟨hm hmem, hj, w, hw hwritten, hn, ht htaken, hplain⟩

theorem Receives.sender_moves (h : Receives x y taken sources) (hm : Moves encrypt decrypt x x') :
    Receives x' y taken sources := by
  obtain ⟨hw, hmsg⟩ := hm.grows
  have hpushed : ∀ m j, Pushed x taken m j → Pushed x' taken m j :=
    fun m j hp => hp.mono hw hmsg (Set.Subset.refl _)
  exact ⟨h.replay, h.first, h.assembly.mono hpushed, h.delivered,
    fun m hm j hj => hpushed m j (h.complete m hm j hj), h.nodup⟩

theorem Honest.opens (hx : Honest x) (hr : y.crypto.replay.Refines taken)
    (ho : DatagramCrypto.open' (authentic x.crypto.state) bytes y.crypto = (.ok plain, c)) :
    ∃ w ∈ x.written, w.plain = plain ∧ w.nonce ∉ taken ∧
      c.replay.Refines (insert w.nonce taken) := by
  have hok := DatagramCrypto.open'_ok (congrArg Prod.fst ho)
  obtain ⟨-, -, ha, hd, hc⟩ := hok
  rw [ho] at hc
  refine ⟨_, (authentic_iff hx.numbered).mp hd, rfl, ?_, ?_⟩
  · exact ((ReplayWindow.acceptable_iff hr).mp ha).1
  · rw [show c = _ from hc]
    exact hr.record ha

/-- The first nonce belongs to the registration, whose frames are shorter than
any fragment. -/
theorem Honest.ok_first (hx : Honest x) (hw : w ∈ x.written) (hplain : w.plain = okReply) :
    w.nonce = 0 := by
  by_contra hn
  obtain ⟨call, -, i, -, hfragment⟩ := hx.ledger.origin w hw hn
  have hlength := congrArg List.length (hplain.symm.trans hfragment)
  rw [length_fragment] at hlength
  simp only [okReply, header, List.length_cons, List.length_nil] at hlength
  omega

/-- A datagram is opened and pushed: its fragment is new, so if it completes a
message, that message was not delivered before. -/
theorem Receives.received (h : Receives x y taken sources) (hx : Honest x) (hlive : y.stage = .live)
    (ho : DatagramCrypto.open' (authentic x.crypto.state) bytes y.crypto = (.ok plain, c))
    (now : Nat) :
    ∃ taken' sources', Receives x
      { y.withCrypto c with
        assembly := (y.assembly.push plain now).2
        delivered := y.delivered ++ handedOn (y.assembly.push plain now).1 } taken' sources' := by
  obtain ⟨w, hw, rfl, hfresh, hrecord⟩ := hx.opens h.replay ho
  have hzero : 0 ∈ taken := h.first (.inl hlive)
  have hn : w.nonce ≠ 0 := fun hn => hfresh (hn ▸ hzero)
  obtain ⟨call, hcall, i, hi, hplain⟩ := hx.ledger.origin w hw hn
  have hmem : call.message ∈ x.messages := List.mem_map_of_mem hcall
  have hid : ∀ m j, Pushed x taken m j → m.message = call.message.message → m = call.message := by
    rintro m j ⟨hm, -⟩ hsame
    obtain ⟨call', hcall', rfl⟩ := List.mem_map.mp hm
    rw [hx.ledger.unique hcall' hcall hsame]
  have hold : ∀ m j, Pushed x taken m j → Pushed x (insert w.nonce taken) m j := fun m j hp =>
    hp.mono (List.Subset.refl _) (List.Subset.refl _) (Set.subset_insert _ _)
  have hnew : Pushed x (insert w.nonce taken) call.message i :=
    ⟨hmem, hi, w, hw, hn, Set.mem_insert _ _, hplain⟩
  obtain ⟨hsound, hresult⟩ := h.assembly.push hid (hx.ledger.length_le hcall) hi now
  rw [← hplain] at hsound hresult
  have hsound' : Reassembler.Sound (Pushed x (insert w.nonce taken))
      (y.assembly.push w.plain now).2 := by
    refine hsound.mono fun m j hp => ?_
    rcases hp with hp | ⟨rfl, rfl⟩
    · exact hold m j hp
    · exact hnew
  rcases hresult with hresult | ⟨hresult, hall⟩
  · refine ⟨insert w.nonce taken, sources, hrecord, fun _ => .inr hzero, hsound', ?_, ?_, h.nodup⟩
    · simpa [hresult, handedOn] using h.delivered
    · exact fun m hm j hj => hold m j (h.complete m hm j hj)
  · refine ⟨insert w.nonce taken, sources ++ [call.message], hrecord, fun _ => .inr hzero, hsound',
      ?_, ?_, ?_⟩
    · simp [hresult, handedOn, h.delivered]
    · intro m hm j hj
      rcases List.mem_append.mp hm with hm | hm
      · exact hold m j (h.complete m hm j hj)
      · obtain rfl := List.mem_singleton.mp hm
        rcases hall j hj with hp | rfl
        · exact hold _ j hp
        · exact hnew
    · -- A second delivery would need a second nonce for the fragment at hand.
      refine List.Nodup.append h.nodup (List.nodup_singleton _) ?_
      intro m hm hm'
      obtain rfl := List.mem_singleton.mp hm'
      obtain ⟨-, -, w', hw', hn', htaken, hplain'⟩ := h.complete _ hm i hi
      exact hfresh (hx.ledger.once w hw w' hw' hn hn' (hplain.trans hplain'.symm) ▸ htaken)

theorem Receives.opened (h : Receives x y taken sources) (hx : Honest x)
    (hfirst : y.role = .server → y.stage = .fresh → x.calls = []) (hready : Opens y plain next)
    (ho : DatagramCrypto.open' (authentic x.crypto.state) frame y.crypto = (.ok plain, c)) :
    ∃ taken', Receives x { y.withCrypto c with stage := next } taken' sources := by
  obtain ⟨w, hw, hplain, -, hrecord⟩ := hx.opens h.replay ho
  have hold : ∀ m j, Pushed x taken m j → Pushed x (insert w.nonce taken) m j := fun m j hp =>
    hp.mono (List.Subset.refl _) (List.Subset.refl _) (Set.subset_insert _ _)
  refine ⟨insert w.nonce taken, hrecord, fun hthrough => ?_, h.assembly.mono hold, h.delivered,
    fun m hm j hj => hold m j (h.complete m hm j hj), h.nodup⟩
  have hzero : w.nonce = 0 := by
    cases hready with
    | reply => exact hx.ok_first hw hplain
    | rejected => simp at hthrough
    | accept _ hrole hstage =>
      by_contra hn
      obtain ⟨call, hcall, -⟩ := hx.ledger.origin w hw hn
      rw [hfirst hrole hstage] at hcall
      cases hcall
  exact .inl hzero.symm

theorem Receives.receiver_moves (h : Receives x y taken sources) (hx : Honest x)
    (hfirst : y.role = .server → y.stage = .fresh → x.calls = [])
    (hm : Moves encrypt (authentic x.crypto.state) y y') :
    ∃ taken' sources', Receives x y' taken' sources' := by
  have hseal : ∀ {plain result c}, DatagramCrypto.seal' encrypt plain y.crypto = (result, c) →
      c.replay.Refines taken := by
    intro plain result c hs
    have hreplay : (DatagramCrypto.seal' encrypt plain y.crypto).2.replay = y.crypto.replay :=
      DatagramCrypto.seal'_replay
    rw [hs] at hreplay
    exact hreplay ▸ h.replay
  cases hm with
  | stay => exact ⟨_, _, h⟩
  | sealed hready hs =>
    refine ⟨_, _, hseal hs, fun hthrough => h.first ?_, h.assembly, h.delivered,
      h.complete, h.nodup⟩
    cases hready with
    | request _ hrole => simp [withCrypto, hrole] at hthrough
    | confirm hrole hstage => exact .inr ⟨hrole, hstage⟩
  | sealFailed _ hs =>
    exact ⟨_, _, hseal hs, by simp, h.assembly, h.delivered, h.complete, h.nodup⟩
  | opened hready ho =>
    obtain ⟨taken', hreceives⟩ := h.opened hx hfirst hready ho
    exact ⟨_, _, hreceives⟩
  | openFailed => exact ⟨_, _, h.replay, by simp, h.assembly, h.delivered, h.complete, h.nodup⟩
  | fragment _ _ _ _ hs | fragmentFailed _ _ _ _ hs =>
    exact ⟨_, _, hseal hs, h.first, h.assembly, h.delivered, h.complete, h.nodup⟩
  | started | returned | queued =>
    exact ⟨_, _, h.replay, h.first, h.assembly, h.delivered, h.complete, h.nodup⟩
  | received hstage ho now => exact h.received hx hstage ho now
  | expired now =>
    exact ⟨_, _, h.replay, h.first, h.assembly.expire now, h.delivered, h.complete, h.nodup⟩

-- ---------------------------------------------------------------------------
-- Both directions
-- ---------------------------------------------------------------------------

structure Linked (x y : Endpoint) : Prop where
  left : Honest x
  right : Honest y
  forward : ∃ taken sources, Receives x y taken sources
  back : ∃ taken sources, Receives y x taken sources

theorem Linked.symm (h : Linked x y) : Linked y x := ⟨h.right, h.left, h.back, h.forward⟩

theorem Linked.moves (h : Linked x y) (hfirst : x.role = .server → x.stage = .fresh → y.calls = [])
    (hm : Moves encrypt (authentic y.crypto.state) x x') : Linked x' y := by
  obtain ⟨taken, sources, hforward⟩ := h.forward
  obtain ⟨taken', sources', hback⟩ := h.back
  exact ⟨h.left.moves hm, h.right, ⟨taken, sources, hforward.sender_moves hm⟩,
    hback.receiver_moves h.right hfirst hm⟩

theorem Receives.injects (h : Receives x y taken sources) :
    ∃ f : Fin y.delivered.length → Fin x.calls.length, Function.Injective f ∧
      ∀ i, y.delivered.get i = (x.calls.get (f i)).message.packet := by
  have hlength : y.delivered.length = sources.length := by simp [h.delivered]
  have hcall : ∀ i : Fin y.delivered.length, ∃ k : Fin x.calls.length,
      (x.calls.get k).message = sources.get (i.cast hlength) := by
    intro i
    have hm := List.get_mem sources (i.cast hlength)
    obtain ⟨hmem, -⟩ := h.complete _ hm 0 (Chunks.count_pos _ _)
    obtain ⟨call, hcall, hmessage⟩ := List.mem_map.mp hmem
    obtain ⟨k, rfl⟩ := List.get_of_mem hcall
    exact ⟨k, hmessage⟩
  choose f hf using hcall
  refine ⟨f, fun i j hij => ?_, fun i => ?_⟩
  · have hsame : sources.get (i.cast hlength) = sources.get (j.cast hlength) := by
      rw [← hf i, ← hf j, hij]
    exact Fin.cast_injective hlength (List.nodup_iff_injective_get.mp h.nodup hsame)
  · rw [hf i]
    simp [h.delivered]

theorem Moves.role_eq (hm : Moves encrypt decrypt e e') : e'.role = e.role := by
  cases hm <;> rfl

theorem Moves.stage_ne_fresh (hm : Moves encrypt decrypt e e') (h : e.stage ≠ .fresh) :
    e'.stage ≠ .fresh := by
  cases hm with
  | sealed hready => cases hready <;> simp
  | opened hready => cases hready <;> simp
  | sealFailed | openFailed => simp
  | _ => exact h

/-- The client goes live only on a reply the server encrypted. -/
theorem Moves.live_of_client (hm : Moves encrypt (authentic y.crypto.state) e e')
    (hrole : e.role = .client) (hy : Honest y) (hempty : y.crypto.next = 0)
    (h : e.stage ≠ .live) : e'.stage ≠ .live := by
  cases hm with
  | sealed hready =>
    cases hready with
    | request => simp
    | confirm hserver => cases hrole.symm.trans hserver
  | opened hready ho =>
    have hok := DatagramCrypto.open'_ok (congrArg Prod.fst ho)
    obtain ⟨-, -, -, hd, -⟩ := hok
    have hwritten := (authentic_iff hy.numbered).mp hd
    have hnil : y.crypto.state.written = [] := by
      simpa [hempty] using hy.numbered.nonces
    rw [hnil] at hwritten
    cases hwritten
  | sealFailed | openFailed => simp
  | _ => exact h

end Endpoint

open Endpoint (Honest Receives Linked)

structure Tunnel where
  client : Endpoint
  server : Endpoint
  deriving DecidableEq

namespace Tunnel

def new : Tunnel where
  client := .new .client
  server := .new .server

/-- One endpoint takes a step; its `read_message` answers from the other's
calls of `write_message`. -/
def step (encrypt : Role → Nat → Bytes → Option Bytes) (t : Tunnel) : Role × Action → Tunnel
  | (.client, action) =>
    { t with client := t.client.step (encrypt .client) (authentic t.server.crypto.state) action }
  | (.server, action) =>
    { t with server := t.server.step (encrypt .server) (authentic t.client.crypto.state) action }

def run (encrypt : Role → Nat → Bytes → Option Bytes) (actions : List (Role × Action)) : Tunnel :=
  actions.foldl (step encrypt) new

structure Inv (t : Tunnel) : Prop where
  linked : Linked t.client t.server
  client : t.client.role = .client
  server : t.server.role = .server
  -- The client waits for the server's reply.
  order : t.server.stage = .fresh → t.client.stage ≠ .live

theorem inv_new : Inv new where
  linked := ⟨Endpoint.honest_new _, Endpoint.honest_new _, ⟨_, _, Endpoint.receives_new _ _⟩,
    ⟨_, _, Endpoint.receives_new _ _⟩⟩
  client := rfl
  server := rfl
  order := by simp [new, Endpoint.new]

theorem Inv.step (h : Inv t) (encrypt : Role → Nat → Bytes → Option Bytes) (side : Role × Action) :
    Inv (t.step encrypt side) := by
  obtain ⟨side, action⟩ := side
  cases side with
  | client =>
    have hm := Endpoint.step_moves (encrypt .client)
      (authentic t.server.crypto.state) action t.client
    refine ⟨h.linked.moves (fun hrole => ?_) hm, hm.role_eq.trans h.client, h.server,
      fun hfresh => ?_⟩
    · cases h.client.symm.trans hrole
    · exact hm.live_of_client h.client h.linked.right (h.linked.right.unsealed (.inl hfresh))
        (h.order hfresh)
  | server =>
    have hm := Endpoint.step_moves (encrypt .server)
      (authentic t.client.crypto.state) action t.server
    refine ⟨(h.linked.symm.moves (fun _ hfresh => ?_) hm).symm, h.client,
      hm.role_eq.trans h.server, fun hfresh => ?_⟩
    · exact h.linked.left.quiet (h.order hfresh)
    · refine h.order ?_
      by_contra hno
      exact hm.stage_ne_fresh hno hfresh

theorem inv_run (encrypt : Role → Nat → Bytes → Option Bytes) (actions : List (Role × Action)) :
    Inv (run encrypt actions) := by
  unfold run
  generalize hstart : new = t
  have h : Inv t := hstart ▸ inv_new
  clear hstart
  induction actions generalizing t with
  | nil => exact h
  | cons action actions ih => exact ih _ (h.step encrypt action)

/-- Over every run of a session: whatever the calls of `send` on both sides,
however they interleave or fail, and whatever the network hands to either
endpoint, the packets `read_packet` returned at one end belong to distinct calls
of `send` at the other, with the same service, flow and complete payload. -/
theorem authentic_intact_once (encrypt : Role → Nat → Bytes → Option Bytes)
    (actions : List (Role × Action)) :
    let t := run encrypt actions
    (∃ f : Fin t.server.delivered.length → Fin t.client.calls.length, Function.Injective f ∧
      ∀ i, t.server.delivered.get i = (t.client.calls.get (f i)).message.packet) ∧
    (∃ f : Fin t.client.delivered.length → Fin t.server.calls.length, Function.Injective f ∧
      ∀ i, t.client.delivered.get i = (t.server.calls.get (f i)).message.packet) := by
  intro t
  have h := (inv_run encrypt actions).linked
  obtain ⟨_, _, hforward⟩ := h.forward
  obtain ⟨_, _, hback⟩ := h.back
  exact ⟨hforward.injects, hback.injects⟩

-- A registration, one datagram, its replay, and a replay of the registration.
example :
    let encrypt (_ : Role) (_ : Nat) (plain : Bytes) := some (plain ++ List.replicate 16 7)
    let frame (n : Nat) (plain : Bytes) : Bytes := Words.toBe 8 n ++ (plain ++ List.replicate 16 7)
    let m : Message := ⟨3, 9, 0, [1, 2]⟩
    (run encrypt
      [(.client, .request [1]), (.server, .accept (frame 0 [1])), (.server, .confirm),
        (.client, .reply (frame 0 okReply)), (.client, .send 3 9 [1, 2]),
        (.client, .advance 0 true), (.server, .receive (frame 1 (m.fragment 0)) 5),
        (.server, .receive (frame 1 (m.fragment 0)) 6),
        (.server, .receive (frame 0 [1]) 7)]).server.delivered = [m.packet] := by
  decide +kernel

end Tunnel

end Cathole
