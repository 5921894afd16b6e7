import Cathole.Datagram.Tunnel

/-!
# What is sent arrives

`Tunnel` says that nothing arrives that was not sent. This is the other half:
from whatever state a live session has come to, a payload given to `send` is
delivered at the other end once each of its datagrams got through, in any order
and any number of times, unless the reassembler had no room for its first
fragment. The session carries nothing else meanwhile.

A receiver's replay window only knows nonces that the sender has used (`Ahead`),
so the datagrams of a new call are above all of them, and fewer than a window
apart. Its message ID is new too, so no assembly waits under it.
-/

namespace Cathole

open Words (toBe)

-- ---------------------------------------------------------------------------
-- The reassembly of one message
-- ---------------------------------------------------------------------------

namespace Reassembler

variable {m : Message} {r : Reassembler} {seen : Set Nat} {now first i i₀ : Nat}

/-- The fragments of `m` that were `seen` are kept, since the time `first`. -/
def Filling (m : Message) (first : Nat) (seen : Set Nat) (r : Reassembler) : Prop :=
  ∃ a, r.pending.lookup m.message = some a ∧ a.Of m ∧ a.created = first ∧ ∀ j, a.holds j ↔ j ∈ seen

def Lacking (m : Message) (i₀ : Nat) (r : Reassembler) : Prop :=
  ∀ a, r.pending.lookup m.message = some a → a.Of m ∧ ¬a.holds i₀

/-- With the last push, the fragments that were `seen` are all there are and make
up the message, or are kept. -/
def Joins (m : Message) (first : Nat) (seen : Set Nat)
    (result : Except Fault (Option Packet) × Reassembler) : Prop :=
  ((∀ j < m.count, j ∈ seen) ∧ result.1 = .ok (some m.packet)) ∨
    (¬(∀ j < m.count, j ∈ seen) ∧ result.1 = .ok none ∧ Filling m first seen result.2)

theorem push_seen (hlen : m.payload.length ≤ maxPayload) (hcount : m.count ≠ 1) (hi : i < m.count)
    (hof : ∀ a, r.pending.lookup m.message = some a → a.Of m)
    (hroom : m.message ∈ (r.expire now).pending ∨ (r.expire now).pending.size < maxAssemblies)
    (hcreated : ((r.expire now).entry (m.part i) now).created = first)
    (hheld : ∀ j, ((r.expire now).entry (m.part i) now).holds j ↔ j ∈ seen) :
    Joins m first (insert i seen) (r.push (m.fragment i) now) := by
  have hentry : ((r.expire now).entry (m.part i) now).Of m :=
    entry_of fun a ha => hof a (lookup_expire.mp ha).1
  have hput : ∀ j, (((r.expire now).entry (m.part i) now).put (m.part i)).holds j ↔
      j ∈ insert i seen := by
    intro j
    rw [Assembly.holds_put (by rw [hentry.parts]; exact hi), hheld]
    rfl
  obtain ⟨hnot, hfull, -⟩ | ⟨-, ha, ⟨hmissing, hpush⟩ | ⟨hall, hpush⟩⟩ :=
    push_part hlen hcount hi hof now
  · rcases hroom with hmem | hsize
    · exact absurd hmem hnot
    · exact absurd hsize (Nat.not_lt.mpr hfull)
  · rw [hpush]
    refine .inr ⟨fun hall => hmissing fun j hj => (hput j).mpr (hall j hj), rfl, _, ?_, ha,
      hcreated, hput⟩
    exact AList.lookup_insert _
  · rw [hpush]
    exact .inl ⟨fun j hj => (hput j).mp (hall j hj), rfl⟩

theorem Filling.push (h : Filling m first seen r) (hlen : m.payload.length ≤ maxPayload)
    (hcount : m.count ≠ 1) (hi : i < m.count) (htime : now - first < lifetime) :
    Joins m first (insert i seen) (r.push (m.fragment i) now) := by
  obtain ⟨a, ha, hof, hcreated, hheld⟩ := h
  have hkept : (r.expire now).pending.lookup m.message = some a :=
    lookup_expire.mpr ⟨ha, by rwa [hcreated]⟩
  have hentry : (r.expire now).entry (m.part i) now = a := by
    rw [entry, show (m.part i).message = m.message from rfl, hkept, Option.getD_some]
  refine push_seen hlen hcount hi (fun a' ha' => ?_) (.inl (AList.mem_of_lookup hkept)) ?_ ?_
  · cases ha.symm.trans ha'
    exact hof
  · rw [hentry, hcreated]
  · intro j
    rw [hentry, hheld]

theorem push_first (hnew : r.pending.lookup m.message = none) (hlen : m.payload.length ≤ maxPayload)
    (hcount : m.count ≠ 1) (hi : i < m.count)
    (hroom : (r.expire now).pending.size < maxAssemblies) :
    Joins m now (insert i ∅) (r.push (m.fragment i) now) := by
  have hnone : (r.expire now).pending.lookup (m.part i).message = none := by
    cases ha : (r.expire now).pending.lookup (m.part i).message with
    | none => rfl
    | some a => cases hnew.symm.trans (lookup_expire.mp ha).1
  refine push_seen hlen hcount hi (fun a ha => ?_) (.inr hroom) ?_ ?_
  · cases hnew.symm.trans ha
  · rw [entry, hnone, Option.getD_none]
  · intro j
    refine iff_of_false (fun hj => ?_) (Set.notMem_empty j)
    obtain ⟨a, ha, -⟩ := holds_entry hj
    cases hnone.symm.trans ha

theorem push_refused (hnew : r.pending.lookup m.message = none)
    (hlen : m.payload.length ≤ maxPayload) (hcount : m.count ≠ 1) (hi : i < m.count)
    (hfull : maxAssemblies ≤ (r.expire now).pending.size) :
    (r.push (m.fragment i) now).1 = .ok none ∧ Lacking m i (r.push (m.fragment i) now).2 := by
  have hof : ∀ a, r.pending.lookup m.message = some a → a.Of m :=
    fun a ha => nomatch hnew.symm.trans ha
  obtain ⟨-, -, hpush⟩ | ⟨hmem | hsize, -⟩ := push_part hlen hcount hi hof now
  · rw [hpush]
    exact ⟨rfl, fun a ha => nomatch hnew.symm.trans (lookup_expire.mp ha).1⟩
  · obtain ⟨a, ha⟩ := Option.isSome_iff_exists.mp (AList.lookup_isSome.mpr hmem)
    cases hnew.symm.trans (lookup_expire.mp ha).1
  · exact absurd hsize (Nat.not_lt.mpr hfull)

theorem Lacking.push (h : Lacking m i₀ r) (hlen : m.payload.length ≤ maxPayload)
    (hcount : m.count ≠ 1) (hi₀ : i₀ < m.count) (hi : i < m.count) (hne : i ≠ i₀) (now : Nat) :
    (r.push (m.fragment i) now).1 = .ok none ∧ Lacking m i₀ (r.push (m.fragment i) now).2 := by
  have hof : ∀ a, r.pending.lookup m.message = some a → a.Of m := fun a ha => (h a ha).1
  have hentry : ((r.expire now).entry (m.part i) now).Of m :=
    entry_of fun a ha => hof a (lookup_expire.mp ha).1
  have hput : ¬(((r.expire now).entry (m.part i) now).put (m.part i)).holds i₀ := by
    rw [Assembly.holds_put (by rw [hentry.parts]; exact hi)]
    rintro (he | hheld)
    · exact hne he.symm
    · obtain ⟨a, ha, hheld, -⟩ := holds_entry hheld
      exact (h a (lookup_expire.mp ha).1).2 hheld
  obtain ⟨-, -, hpush⟩ | ⟨-, ha, ⟨-, hpush⟩ | ⟨hall, -⟩⟩ := push_part hlen hcount hi hof now
  · rw [hpush]
    exact ⟨rfl, fun a ha => h a (lookup_expire.mp ha).1⟩
  · rw [hpush]
    refine ⟨rfl, fun a' ha' => ?_⟩
    cases (AList.lookup_insert _).symm.trans ha'
    exact ⟨ha, hput⟩
  · exact absurd (hall i₀ hi₀) hput

end Reassembler

-- ---------------------------------------------------------------------------
-- The datagrams of one call
-- ---------------------------------------------------------------------------

namespace Message

def datagram (encrypt : Nat → Bytes → Option Bytes) (n : Nat) (m : Message) (i : Nat) : Bytes :=
  toBe 8 (n + i) ++ (encrypt (n + i) (m.fragment i)).getD []

def sealing (encrypt : Nat → Bytes → Option Bytes) (n : Nat) (m : Message) (i : Nat) : Call where
  nonce := n + i
  plain := m.fragment i
  cipher := encrypt (n + i) (m.fragment i)

/-- Every fragment can be encrypted, and gets a tag. -/
def Encrypts (encrypt : Nat → Bytes → Option Bytes) (n : Nat) (m : Message) : Prop :=
  ∀ i < m.count, ∃ cipher, encrypt (n + i) (m.fragment i) = some cipher ∧ 16 ≤ cipher.length

def handover (encrypt : Nat → Bytes → Option Bytes) (n : Nat) (m : Message)
    (arrivals : List (Nat × Nat)) : List Action :=
  arrivals.map fun e => .receive (m.datagram encrypt n e.1) e.2

end Message

theorem ReplayWindow.acceptable_near (h : Refines w taken) (hnew : n ∉ taken)
    (hnear : ∀ k ∈ taken, k < n + 1024) : w.acceptable n = true := by
  refine (acceptable_iff h).mpr ⟨hnew, ?_⟩
  unfold Refines at h
  split at h
  · exact .inl h.1
  · rename_i high _
    have hhigh := hnear high h.1.1
    exact .inr ⟨high, h.1, by omega⟩

theorem DatagramCrypto.open'_taken (decrypt : Nat → Bytes → Option Bytes)
    (hr : c.replay.Refines taken) (hn : nonceOf bytes ∈ taken) :
    ∃ fault, open' decrypt bytes c = (.error fault, c) := by
  obtain herror | ⟨_, -, -, ha, -, -⟩ := open'_cases decrypt bytes c
  · exact herror
  · exact absurd hn ((ReplayWindow.acceptable_iff hr).mp ha).1

namespace Endpoint

variable {x y : Endpoint} {encrypt encrypt' : Nat → Bytes → Option Bytes} {m : Message}
  {n i now : Nat} {taken seen : Set Nat}

def stepAll (encrypt decrypt : Nat → Bytes → Option Bytes) (actions : List Action) (e : Endpoint) :
    Endpoint :=
  actions.foldl (fun e action => e.step encrypt decrypt action) e

structure Sent (encrypt : Nat → Bytes → Option Bytes) (n : Nat) (m : Message)
    (x : Endpoint) : Prop where
  numbered : DatagramCrypto.Numbered x.crypto
  length : m.payload.length ≤ maxPayload
  encrypts : m.Encrypts encrypt n
  written : ∀ i < m.count, m.sealing encrypt n i ∈ x.written

/-- Before the call nonces below `n` were taken, and since then those of the
fragments that were `seen`. -/
structure Arriving (m : Message) (n : Nat) (taken seen : Set Nat) (y : Endpoint) : Prop where
  live : y.stage = .live
  below : ∀ k ∈ taken, k < n
  valid : ∀ j ∈ seen, j < m.count
  replay : y.crypto.replay.Refines (taken ∪ Set.image (n + ·) seen)

theorem Sent.opens (h : Sent encrypt n m x) (hi : i < m.count) :
    24 ≤ (m.datagram encrypt n i).length ∧ n + i < DatagramCrypto.budget ∧
      DatagramCrypto.nonceOf (m.datagram encrypt n i) = n + i ∧
      authentic x.crypto.state (n + i) ((m.datagram encrypt n i).drop 8) = some (m.fragment i) := by
  obtain ⟨cipher, hcipher, htag⟩ := h.encrypts i hi
  have hmem := h.written i hi
  rw [Message.sealing, hcipher] at hmem
  have hnonce : n + i ∈ List.range x.crypto.next := h.numbered.nonces ▸ List.mem_map_of_mem hmem
  have hbudget := lt_of_lt_of_le (List.mem_range.mp hnonce) h.numbered.budget
  rw [Message.datagram, hcipher, Option.getD_some, DatagramCrypto.nonceOf_toBe hbudget,
    Words.drop_toBe_append, List.length_append, Words.length_toBe]
  exact ⟨by omega, hbudget, rfl, (authentic_iff h.numbered).mpr hmem⟩

@[simp] theorem handedOn_none : handedOn (.ok none) = [] := rfl

@[simp] theorem handedOn_some (packet : Packet) : handedOn (.ok (some packet)) = [packet] := rfl

theorem step_receive (h : y.stage = .live) :
    y.step encrypt' decrypt (.receive bytes now) = y.readDatagram decrypt bytes now := by
  simp only [step, h]

theorem Arriving.again (h : Arriving m n taken seen y) (hx : Sent encrypt n m x) (hi : i ∈ seen)
    (encrypt' : Nat → Bytes → Option Bytes) (now : Nat) :
    y.step encrypt' (authentic x.crypto.state) (.receive (m.datagram encrypt n i) now) = y := by
  have hnonce := (hx.opens (h.valid i hi)).2.2.1
  have htaken : DatagramCrypto.nonceOf (m.datagram encrypt n i) ∈ taken ∪ Set.image (n + ·) seen :=
    .inr ⟨i, hi, hnonce.symm⟩
  obtain ⟨fault, hopen⟩ := DatagramCrypto.open'_taken (authentic x.crypto.state) h.replay htaken
  rw [step_receive h.live, readDatagram, hopen]
  rfl

theorem Arriving.next (h : Arriving m n taken seen y) (hx : Sent encrypt n m x) (hi : i < m.count)
    (hnew : i ∉ seen) (encrypt' : Nat → Bytes → Option Bytes) (now : Nat) :
    let y' := y.step encrypt' (authentic x.crypto.state) (.receive (m.datagram encrypt n i) now)
    Arriving m n taken (insert i seen) y' ∧ y'.assembly = (y.assembly.push (m.fragment i) now).2 ∧
      y'.delivered = y.delivered ++ handedOn (y.assembly.push (m.fragment i) now).1 := by
  obtain ⟨hlen, hbudget, hnonce, hauthentic⟩ := hx.opens hi
  have hcount : m.count ≤ 66 := fragmentCount_le hx.length
  have hfresh : n + i ∉ taken ∪ Set.image (n + ·) seen := by
    rintro (hold | ⟨j, hj, he⟩)
    · exact absurd (h.below _ hold) (by omega)
    · obtain rfl : j = i := by simpa using he
      exact hnew hj
  have hnear : ∀ k ∈ taken ∪ Set.image (n + ·) seen, k < n + i + 1024 := by
    rintro k (hold | ⟨j, hj, rfl⟩)
    · have := h.below k hold
      omega
    · have := h.valid j hj
      dsimp only
      omega
  have hacceptable := ReplayWindow.acceptable_near h.replay hfresh hnear
  have hopen : DatagramCrypto.open' (authentic x.crypto.state) (m.datagram encrypt n i) y.crypto =
      (.ok (m.fragment i), { y.crypto with replay := y.crypto.replay.record (n + i) }) := by
    simp [DatagramCrypto.open', Nat.not_lt.mpr hlen, hnonce, hbudget, hacceptable, hauthentic]
  intro y'
  have hy' : y' = { y.withCrypto { y.crypto with replay := y.crypto.replay.record (n + i) } with
      assembly := (y.assembly.push (m.fragment i) now).2
      delivered := y.delivered ++ handedOn (y.assembly.push (m.fragment i) now).1 } := by
    rw [show y' = _ from step_receive h.live, readDatagram, hopen]
    rfl
  rw [hy']
  refine ⟨⟨h.live, h.below, ?_, ?_⟩, rfl, rfl⟩
  · rintro j (rfl | hj)
    · exact hi
    · exact h.valid j hj
  · rw [Set.image_insert_eq, Set.union_insert]
    exact h.replay.record hacceptable

-- ---------------------------------------------------------------------------
-- All the datagrams of one call
-- ---------------------------------------------------------------------------

section

variable {arrivals : List (Nat × Nat)} (hx : Sent encrypt n m x)
  (hvalid : ∀ e ∈ arrivals, e.1 < m.count)
include hx hvalid

theorem Arriving.done (h : Arriving m n taken seen y) (hall : ∀ j < m.count, j ∈ seen) :
    stepAll encrypt' (authentic x.crypto.state) (m.handover encrypt n arrivals) y = y := by
  induction arrivals with
  | nil => rfl
  | cons e rest ih =>
    have hstep := h.again hx (hall e.1 (hvalid e List.mem_cons_self)) encrypt' e.2
    rw [stepAll, Message.handover, List.map_cons, List.foldl_cons, hstep]
    exact ih fun other hother => hvalid other (List.mem_cons_of_mem _ hother)

theorem Arriving.filling (h : Arriving m n taken seen y) (hcount : m.count ≠ 1)
    (hfilling : y.assembly.Filling m first seen) (hmissing : ¬∀ j < m.count, j ∈ seen)
    (htimes : ∀ e ∈ arrivals, e.2 - first < lifetime)
    (hall : ∀ j < m.count, j ∈ seen ∨ j ∈ arrivals.map Prod.fst) :
    (stepAll encrypt' (authentic x.crypto.state) (m.handover encrypt n arrivals) y).delivered =
      y.delivered ++ [m.packet] := by
  induction arrivals generalizing y seen with
  | nil => exact absurd (fun j hj => (hall j hj).resolve_right (List.not_mem_nil)) hmissing
  | cons e rest ih =>
    have hi := hvalid e List.mem_cons_self
    have hrest : ∀ other ∈ rest, other.1 < m.count := fun other hother =>
      hvalid other (List.mem_cons_of_mem _ hother)
    have htimes' : ∀ other ∈ rest, other.2 - first < lifetime := fun other hother =>
      htimes other (List.mem_cons_of_mem _ hother)
    rw [stepAll, Message.handover, List.map_cons, List.foldl_cons]
    by_cases hseen : e.1 ∈ seen
    · rw [h.again hx hseen]
      refine ih hrest h hfilling hmissing htimes' fun j hj => ?_
      rcases hall j hj with hj | hj
      · exact .inl hj
      · rcases List.mem_cons.mp hj with rfl | hj
        · exact .inl hseen
        · exact .inr hj
    · obtain ⟨hnext, hassembly, hdelivered⟩ := h.next hx hi hseen encrypt' e.2
      obtain ⟨hcomplete, hresult⟩ | ⟨hmore, hresult, hkept⟩ :=
        hfilling.push hx.length hcount hi (htimes e List.mem_cons_self)
      · rw [hresult, handedOn_some] at hdelivered
        rw [← hdelivered]
        exact congrArg Endpoint.delivered (hnext.done hx hrest hcomplete)
      · rw [hresult, handedOn_none, List.append_nil] at hdelivered
        rw [← hassembly] at hkept
        rw [← hdelivered]
        refine ih hrest hnext hkept hmore htimes' fun j hj => ?_
        rcases hall j hj with hj | hj
        · exact .inl (.inr hj)
        · rcases List.mem_cons.mp hj with rfl | hj
          · exact .inl (.inl rfl)
          · exact .inr hj

theorem Arriving.lacking (h : Arriving m n taken seen y) (hcount : m.count ≠ 1) (hseen : i₀ ∈ seen)
    (hlacking : y.assembly.Lacking m i₀) :
    (stepAll encrypt' (authentic x.crypto.state) (m.handover encrypt n arrivals) y).delivered =
      y.delivered := by
  induction arrivals generalizing y seen with
  | nil => rfl
  | cons e rest ih =>
    have hi := hvalid e List.mem_cons_self
    have hrest : ∀ other ∈ rest, other.1 < m.count := fun other hother =>
      hvalid other (List.mem_cons_of_mem _ hother)
    rw [stepAll, Message.handover, List.map_cons, List.foldl_cons]
    by_cases hold : e.1 ∈ seen
    · rw [h.again hx hold]
      exact ih hrest h hseen hlacking
    · obtain ⟨hnext, hassembly, hdelivered⟩ := h.next hx hi hold encrypt' e.2
      have hne : e.1 ≠ i₀ := fun he => hold (he ▸ hseen)
      obtain ⟨hresult, hstill⟩ := hlacking.push hx.length hcount (h.valid i₀ hseen) hi hne e.2
      rw [hresult, handedOn_none, List.append_nil] at hdelivered
      rw [← hassembly] at hstill
      rw [← hdelivered]
      exact ih hrest hnext (.inr hseen) hstill

end

/-- Whether the message is delivered is decided by its first fragment. -/
theorem Arriving.arrives (h : Arriving m n taken ∅ y) (hx : Sent encrypt n m x) (hi : i < m.count)
    (hnew : y.assembly.pending.lookup m.message = none) (hvalid : ∀ e ∈ rest, e.1 < m.count)
    (htimes : ∀ e ∈ rest, e.2 - first < lifetime)
    (hall : ∀ j < m.count, j = i ∨ j ∈ rest.map Prod.fst) :
    (stepAll encrypt' (authentic x.crypto.state) (m.handover encrypt n ((i, first) :: rest))
      y).delivered =
      y.delivered ++
        if m.count = 1 ∨ (y.assembly.expire first).pending.size < maxAssemblies
          then [m.packet] else [] := by
  obtain ⟨hnext, hassembly, hdelivered⟩ :=
    h.next hx hi (Set.notMem_empty i) encrypt' first
  rw [stepAll, Message.handover, List.map_cons, List.foldl_cons]
  by_cases hcount : m.count = 1
  · rw [Reassembler.push_single hx.length hcount hi, handedOn_some] at hdelivered
    rw [if_pos (.inl hcount), ← hdelivered]
    refine congrArg Endpoint.delivered (hnext.done hx hvalid fun j hj => .inl ?_)
    omega
  by_cases hroom : (y.assembly.expire first).pending.size < maxAssemblies
  · rw [if_pos (.inr hroom)]
    obtain ⟨hcomplete, hresult⟩ | ⟨hmore, hresult, hkept⟩ :=
      Reassembler.push_first hnew hx.length hcount hi hroom
    · rw [hresult, handedOn_some] at hdelivered
      rw [← hdelivered]
      exact congrArg Endpoint.delivered (hnext.done hx hvalid hcomplete)
    · rw [hresult, handedOn_none, List.append_nil] at hdelivered
      rw [← hassembly] at hkept
      rw [← hdelivered]
      exact hnext.filling hx hvalid hcount hkept hmore htimes fun j hj => (hall j hj).imp_left .inl
  · rw [if_neg (not_or.mpr ⟨hcount, hroom⟩), List.append_nil]
    obtain ⟨hresult, hlacking⟩ :=
      Reassembler.push_refused hnew hx.length hcount hi (Nat.not_lt.mp hroom)
    rw [hresult, handedOn_none, List.append_nil] at hdelivered
    rw [← hassembly] at hlacking
    rw [← hdelivered]
    exact hnext.lacking hx hvalid hcount (.inl rfl) hlacking

end Endpoint

-- ---------------------------------------------------------------------------
-- One call of `send`, from its checks to its return
-- ---------------------------------------------------------------------------

def Message.sending (k : Nat) (m : Message) : List Action :=
  .send m.service m.flow m.payload :: List.replicate (2 * m.count + 1) (.advance k true)

namespace Endpoint

variable {x x₀ y : Endpoint} {encrypt decrypt : Nat → Bytes → Option Bytes}
  {m : Message} {k i : Nat}

/-- The call that draws `m` can be made, and has nonces for all its fragments. -/
structure CanSend (encrypt : Nat → Bytes → Option Bytes) (m : Message) (x : Endpoint) : Prop where
  live : x.stage = .live
  length : m.payload.length ≤ maxPayload
  message : m.message = x.sender.nextMessage
  ids : m.message.toNat + 1 < 2 ^ 64
  nonces : x.crypto.next + m.count ≤ DatagramCrypto.budget
  encrypts : m.Encrypts encrypt x.crypto.next

structure Sending (encrypt : Nat → Bytes → Option Bytes) (x₀ : Endpoint) (k : Nat)
    (m : Message) (i : Nat) (x : Endpoint) : Prop where
  live : x.stage = .live
  call : x.calls[k]? = some ⟨m, .fragment i⟩
  next : x.crypto.next = x₀.crypto.next + i
  written : x.written = x₀.written ++ (List.range i).map (m.sealing encrypt x₀.crypto.next)
  emitted : x.emitted = x₀.emitted ++ (List.range i).map (m.datagram encrypt x₀.crypto.next)

theorem step_advance (h : x.stage = .live) :
    x.step encrypt decrypt (.advance k queued) = x.advanceSend encrypt k queued := by
  simp only [step, h]

theorem advanceSend_seal (hcall : x.calls[k]? = some ⟨m, .fragment i⟩) (hi : i < m.count)
    (hseal : DatagramCrypto.seal' encrypt (m.fragment i) x.crypto = (.ok d, c)) :
    x.advanceSend encrypt k true = (x.withCrypto c).setPhase k ⟨m, .fragment i⟩ (.queue i d) := by
  rw [advanceSend, hcall]
  simp only [Send.advance, hi, if_true]
  rw [show x.sender.crypto = x.crypto from rfl, hseal]
  simp [setPhase, withCrypto]

theorem advanceSend_queue (hcall : x.calls[k]? = some ⟨m, .queue i d⟩) :
    x.advanceSend encrypt k true =
      { x.setPhase k ⟨m, .queue i d⟩ (.fragment (i + 1)) with emitted := x.emitted ++ [d] } := by
  rw [advanceSend, hcall]
  simp [Send.advance, setPhase]

theorem advanceSend_return (hcall : x.calls[k]? = some ⟨m, .fragment m.count⟩) :
    x.advanceSend encrypt k true = x.setPhase k ⟨m, .fragment m.count⟩ (.returned (.ok ())) := by
  rw [advanceSend, hcall]
  simp [Send.advance, setPhase]

theorem CanSend.start (h : CanSend encrypt m x) (decrypt : Nat → Bytes → Option Bytes) :
    Sending encrypt x x.calls.length m 0
      (x.step encrypt decrypt (.send m.service m.flow m.payload)) := by
  have hnext : Words.checkedSucc x.sender.nextMessage = some (x.sender.nextMessage + 1) := by
    rw [Words.checkedSucc, if_pos (h.message ▸ h.ids)]
  have hstep : x.step encrypt decrypt (.send m.service m.flow m.payload) =
      { x with
        sender := { x.sender with nextMessage := x.sender.nextMessage + 1 }
        calls := x.calls ++ [⟨m, .fragment 0⟩] } := by
    have hm : (⟨m.service, m.flow, x.sender.nextMessage, m.payload⟩ : Message) = m := by
      rw [← h.message]
    simp only [step, h.live, startSend, Sender.start, h.length, if_true, hnext, hm]
  rw [hstep]
  exact ⟨h.live, by simp, rfl, by simp [written], by simp⟩

theorem Sending.fragment (h : Sending encrypt x₀ k m i x) (hi : i < m.count)
    (hbudget : x₀.crypto.next + i < DatagramCrypto.budget)
    (hcipher : encrypt (x₀.crypto.next + i) (m.fragment i) = some cipher) :
    Sending encrypt x₀ k m (i + 1)
      (stepAll encrypt decrypt [.advance k true, .advance k true] x) := by
  have hk : k < x.calls.length := (List.getElem?_eq_some_iff.mp h.call).1
  let c : DatagramCrypto := { x.crypto with
    state := { written := x.written ++ [m.sealing encrypt x₀.crypto.next i] }
    next := x.crypto.next + 1 }
  have hseal : DatagramCrypto.seal' encrypt (m.fragment i) x.crypto =
      (.ok (m.datagram encrypt x₀.crypto.next i), c) := by
    rw [DatagramCrypto.seal'_within (h.next ▸ hbudget), h.next, hcipher, Message.datagram, hcipher]
    simp only [c, h.next, Message.sealing, hcipher]
    rfl
  have hqueued : ((x.withCrypto c).setPhase k ⟨m, .fragment i⟩
      (.queue i (m.datagram encrypt x₀.crypto.next i))).calls[k]? =
      some ⟨m, .queue i (m.datagram encrypt x₀.crypto.next i)⟩ := by
    simp [setPhase, withCrypto, hk]
  rw [stepAll, List.foldl_cons, List.foldl_cons, List.foldl_nil, step_advance h.live,
    advanceSend_seal h.call hi hseal, step_advance (by exact h.live), advanceSend_queue hqueued]
  refine ⟨h.live, ?_, ?_, ?_, ?_⟩
  · simp [setPhase, withCrypto, hk]
  · show x.crypto.next + 1 = x₀.crypto.next + (i + 1)
    rw [h.next, Nat.add_assoc]
  · show x.written ++ [m.sealing encrypt x₀.crypto.next i] = _
    rw [h.written, List.range_succ, List.map_append, List.append_assoc]
    rfl
  · show x.emitted ++ [m.datagram encrypt x₀.crypto.next i] = _
    rw [h.emitted, List.range_succ, List.map_append, List.append_assoc]
    rfl

theorem stepAll_append (actions more : List Action) (e : Endpoint) :
    stepAll encrypt decrypt (actions ++ more) e =
      stepAll encrypt decrypt more (stepAll encrypt decrypt actions e) := List.foldl_append

theorem CanSend.loop (h : CanSend encrypt m x₀) (decrypt : Nat → Bytes → Option Bytes)
    (hstart : Sending encrypt x₀ k m 0 x) (hi : i ≤ m.count) :
    Sending encrypt x₀ k m i
      (stepAll encrypt decrypt (List.replicate (2 * i) (.advance k true)) x) := by
  induction i with
  | zero => exact hstart
  | succ i ih =>
    have hnonces := h.nonces
    obtain ⟨cipher, hcipher, -⟩ := h.encrypts i hi
    have htwo : List.replicate (2 * (i + 1)) (Action.advance k true) =
        List.replicate (2 * i) (.advance k true) ++ [.advance k true, .advance k true] := by
      rw [Nat.mul_add, List.replicate_add]
      rfl
    rw [htwo, stepAll_append]
    exact (ih (Nat.le_of_lt hi)).fragment hi (by omega) hcipher

/-- The call returns with all its fragments sealed and handed to quinn. -/
theorem CanSend.sends (h : CanSend encrypt m x) (decrypt : Nat → Bytes → Option Bytes) :
    let x' := stepAll encrypt decrypt (m.sending x.calls.length) x
    x'.calls[x.calls.length]? = some ⟨m, .returned (.ok ())⟩ ∧
      x'.written = x.written ++ (List.range m.count).map (m.sealing encrypt x.crypto.next) ∧
      x'.emitted = x.emitted ++ (List.range m.count).map (m.datagram encrypt x.crypto.next) := by
  have hlast := h.loop decrypt (h.start decrypt) le_rfl
  intro x'
  have hx' : x' =
      (stepAll encrypt decrypt (List.replicate (2 * m.count) (.advance x.calls.length true))
        (x.step encrypt decrypt (.send m.service m.flow m.payload))).step encrypt decrypt
        (.advance x.calls.length true) := by
    simp only [x', Message.sending, stepAll, List.foldl_cons, List.replicate_add, List.foldl_append]
    rfl
  generalize stepAll encrypt decrypt
    (List.replicate (2 * m.count) (.advance x.calls.length true)) _ = sent
    at hlast hx'
  have hk : x.calls.length < sent.calls.length := (List.getElem?_eq_some_iff.mp hlast.call).1
  rw [step_advance hlast.live, advanceSend_return hlast.call] at hx'
  rw [hx']
  exact ⟨by simp [setPhase, hk], hlast.written, hlast.emitted⟩

theorem honest_stepAll (h : Honest e) (actions : List Action) :
    Honest (stepAll encrypt decrypt actions e) := by
  refine List.foldlRecOn actions _ h fun e he action _ => ?_
  exact he.moves (step_moves encrypt decrypt action e)

theorem CanSend.sent (h : CanSend encrypt m x) (hx : Honest x)
    (decrypt : Nat → Bytes → Option Bytes) :
    Sent encrypt x.crypto.next m (stepAll encrypt decrypt (m.sending x.calls.length) x) := by
  obtain ⟨-, hwritten, -⟩ := h.sends decrypt
  refine ⟨(honest_stepAll hx _).numbered, h.length, h.encrypts, fun i hi => ?_⟩
  rw [hwritten]
  exact List.mem_append_right _ (List.mem_map_of_mem (List.mem_range.mpr hi))

end Endpoint

-- ---------------------------------------------------------------------------
-- The receiver knows no nonce before it is used
-- ---------------------------------------------------------------------------

namespace Endpoint

variable {x x' y y' : Endpoint} {encrypt decrypt : Nat → Bytes → Option Bytes}

/-- The nonces that `y` has opened are below the counter of `x`. -/
def Ahead (x y : Endpoint) : Prop :=
  ∃ taken, y.crypto.replay.Refines taken ∧ ∀ k ∈ taken, k < x.crypto.next

theorem Moves.next_le (hm : Moves encrypt decrypt x x') : x.crypto.next ≤ x'.crypto.next := by
  have hseal : ∀ {plain result c}, DatagramCrypto.seal' encrypt plain x.crypto = (result, c) →
      x.crypto.next ≤ c.next := by
    intro plain result c hs
    rcases Nat.lt_or_ge x.crypto.next DatagramCrypto.budget with hn | hn
    · rw [DatagramCrypto.seal'_within hn] at hs
      obtain rfl := (Prod.mk.inj hs).2
      exact Nat.le_succ _
    · rw [DatagramCrypto.seal'_exhausted hn] at hs
      exact (Prod.mk.inj hs).2 ▸ le_rfl
  cases hm with
  | sealed _ hs | sealFailed _ hs | fragment _ _ _ _ hs | fragmentFailed _ _ _ _ hs =>
      exact hseal hs
  | opened _ ho | received _ ho => exact (DatagramCrypto.open'_sending ho).2.symm.le
  | stay | openFailed | started | returned | queued | expired => exact le_rfl

theorem Moves.replay (hm : Moves encrypt decrypt y y') :
    y'.crypto.replay = y.crypto.replay ∨
      ∃ bytes plain, DatagramCrypto.open' decrypt bytes y.crypto = (.ok plain, y'.crypto) := by
  have hseal : ∀ {plain result c}, DatagramCrypto.seal' encrypt plain y.crypto = (result, c) →
      c.replay = y.crypto.replay := by
    intro plain result c hs
    have hreplay : (DatagramCrypto.seal' encrypt plain y.crypto).2.replay = y.crypto.replay :=
      DatagramCrypto.seal'_replay
    rwa [hs] at hreplay
  cases hm with
  | sealed _ hs | sealFailed _ hs | fragment _ _ _ _ hs | fragmentFailed _ _ _ _ hs =>
      exact .inl (hseal hs)
  | opened _ ho | received _ ho => exact .inr ⟨_, _, ho⟩
  | stay | openFailed | started | returned | queued | expired => exact .inl rfl

theorem Ahead.sender_moves (h : Ahead x y) (hm : Moves encrypt decrypt x x') : Ahead x' y := by
  obtain ⟨taken, hr, hbelow⟩ := h
  exact ⟨taken, hr, fun k hk => lt_of_lt_of_le (hbelow k hk) hm.next_le⟩

theorem Ahead.receiver_moves (h : Ahead x y) (hx : Honest x)
    (hm : Moves encrypt (authentic x.crypto.state) y y') : Ahead x y' := by
  obtain ⟨taken, hr, hbelow⟩ := h
  obtain hsame | ⟨bytes, plain, hopen⟩ := hm.replay
  · exact ⟨taken, hsame ▸ hr, hbelow⟩
  · obtain ⟨w, hw, -, -, hrecord⟩ := hx.opens hr hopen
    have hused : w.nonce ∈ List.range x.crypto.next := hx.numbered.nonces ▸ List.mem_map_of_mem hw
    refine ⟨insert w.nonce taken, hrecord, ?_⟩
    rintro k (rfl | hk)
    · exact List.mem_range.mp hused
    · exact hbelow k hk

/-- No assembly waits under an ID that the sender has not drawn yet. -/
theorem Receives.lookup_fresh (h : Receives x y taken sources) (hx : Honest x) :
    y.assembly.pending.lookup x.sender.nextMessage = none := by
  cases ha : y.assembly.pending.lookup x.sender.nextMessage with
  | none => rfl
  | some a =>
    obtain ⟨m, hid, -, ⟨j, hj⟩, hpushed⟩ := h.assembly _ a ha
    obtain ⟨call, hcall, rfl⟩ := List.mem_map.mp (hpushed j hj).1
    obtain ⟨k, hk⟩ := List.getElem?_of_mem hcall
    have hlt : k < x.calls.length := (List.getElem?_eq_some_iff.mp hk).1
    rw [← (hx.ledger.ids k call hk).1, hid, hx.nextMessage] at hlt
    exact absurd hlt (lt_irrefl _)

end Endpoint

-- ---------------------------------------------------------------------------
-- From one end to the other
-- ---------------------------------------------------------------------------

def Role.other : Role → Role
  | .client => .server
  | .server => .client

namespace Tunnel

open Endpoint (stepAll Ahead CanSend Linked)

variable {t : Tunnel}

def side (t : Tunnel) : Role → Endpoint
  | .client => t.client
  | .server => t.server

theorem foldl_side (encrypt : Role → Nat → Bytes → Option Bytes) (role : Role)
    (actions : List Action) (t : Tunnel) :
    let t' := (actions.map (role, ·)).foldl (step encrypt) t
    t'.side role =
        stepAll (encrypt role) (authentic (t.side role.other).crypto.state) actions (t.side role) ∧
      t'.side role.other = t.side role.other := by
  induction actions generalizing t with
  | nil => exact ⟨rfl, rfl⟩
  | cons action rest ih =>
    have hother : (t.step encrypt (role, action)).side role.other = t.side role.other := by
      cases role <;> rfl
    have hown : (t.step encrypt (role, action)).side role = (t.side role).step (encrypt role)
        (authentic (t.side role.other).crypto.state) action := by
      cases role <;> rfl
    obtain ⟨hside, hsame⟩ := ih (t.step encrypt (role, action))
    rw [hother, hown] at hside
    exact ⟨hside, hsame.trans hother⟩

theorem Inv.side (h : Inv t) (role : Role) : Linked (t.side role) (t.side role.other) := by
  cases role with
  | client => exact h.linked
  | server => exact h.linked.symm

theorem ahead_run (encrypt : Role → Nat → Bytes → Option Bytes) (actions : List (Role × Action))
    (role : Role) : Ahead ((run encrypt actions).side role)
    ((run encrypt actions).side role.other) := by
  induction actions using List.reverseRecOn generalizing role with
  | nil => cases role <;> exact ⟨∅, ReplayWindow.refines_default,
      fun k hk => absurd hk (Set.notMem_empty k)⟩
  | append_singleton actions action ih =>
    rw [run, List.foldl_append]
    have hinv := inv_run encrypt actions
    have hclient := ih .client
    have hserver := ih .server
    obtain ⟨actor, action⟩ := action
    have hm := Endpoint.step_moves (encrypt actor)
      (authentic ((run encrypt actions).side actor.other).crypto.state) action
      ((run encrypt actions).side actor)
    cases actor <;> cases role
    · exact hclient.sender_moves hm
    · exact hserver.receiver_moves hinv.linked.right hm
    · exact hclient.receiver_moves hinv.linked.left hm
    · exact hserver.sender_moves hm

section

variable {encrypt : Role → Nat → Bytes → Option Bytes} {role : Role} {m : Message} {i first : Nat}
  {rest : List (Nat × Nat)}

/-- First the sender runs alone, then the receiver. -/
theorem passes (h : Inv t) (hahead : Ahead (t.side role) (t.side role.other))
    (hsend : CanSend (encrypt role) m (t.side role)) (hlive : (t.side role.other).stage = .live)
    (harrivals : ∀ e ∈ (i, first) :: rest, e.1 < m.count ∧ e.2 - first < lifetime)
    (hall : ∀ j < m.count, j ∈ ((i, first) :: rest).map Prod.fst) :
    let k := (t.side role).calls.length
    let n := (t.side role).crypto.next
    let t₁ := ((m.sending k).map (role, ·)).foldl (step encrypt) t
    let t₂ := ((m.handover (encrypt role) n ((i, first) :: rest)).map (role.other, ·)).foldl
      (step encrypt) t₁
    (t₂.side role).calls[k]? = some ⟨m, .returned (.ok ())⟩ ∧
    (t₂.side role).emitted = (t.side role).emitted ++
      (List.range m.count).map (m.datagram (encrypt role) n) ∧
    (t₂.side role.other).delivered = (t.side role.other).delivered ++
      if m.count = 1 ∨ ((t.side role.other).assembly.expire first).pending.size < maxAssemblies
      then [m.packet] else [] := by
  intro k n t₁ t₂
  have hlinked := h.side role
  obtain ⟨taken, hreplay, hbelow⟩ := hahead
  obtain ⟨_, _, hreceives⟩ := hlinked.forward
  obtain ⟨hside₁, hother₁⟩ := foldl_side encrypt role (m.sending k) t
  obtain ⟨hside₂, hother₂⟩ :=
    foldl_side encrypt role.other (m.handover (encrypt role) n ((i, first) :: rest)) t₁
  have hback : role.other.other = role := by cases role <;> rfl
  rw [hback] at hother₂ hside₂
  obtain ⟨hcall, -, hemitted⟩ := hsend.sends (authentic (t.side role.other).crypto.state)
  have hsent := hsend.sent hlinked.left (authentic (t.side role.other).crypto.state)
  rw [← hside₁] at hcall hemitted hsent
  refine ⟨by rw [hother₂]; exact hcall, by rw [hother₂]; exact hemitted, ?_⟩
  have harriving : Endpoint.Arriving m n taken ∅ (t.side role.other) :=
    ⟨hlive, hbelow, fun j hj => absurd hj (Set.notMem_empty j), by simpa using hreplay⟩
  have hnew : (t.side role.other).assembly.pending.lookup m.message = none :=
    hsend.message ▸ hreceives.lookup_fresh hlinked.left
  rw [hside₂, hother₁]
  refine harriving.arrives hsent (harrivals _ List.mem_cons_self).1 hnew
    (fun e he => (harrivals e (List.mem_cons_of_mem _ he)).1)
    (fun e he => (harrivals e (List.mem_cons_of_mem _ he)).2) fun j hj => ?_
  exact List.mem_cons.mp (hall j hj)

end

/-- In whatever state the session is, a payload that `send` takes at one end is
delivered at the other, once, if nothing happens from then on but that each of its
datagrams is handed over, in any order and any number of times within two seconds of
the first; only a payload of several fragments whose first finds no room is lost.
Other traffic in between could push a datagram out of the replay window. -/
theorem send_delivered (encrypt : Role → Nat → Bytes → Option Bytes) (before : List (Role × Action))
    (role : Role) (m : Message) (i first : Nat) (rest : List (Nat × Nat)) :
    let t := run encrypt before
    let n := (t.side role).crypto.next
    let k := (t.side role).calls.length
    let arrivals := (i, first) :: rest
    let t' := run encrypt (before ++ (m.sending k).map (role, ·) ++
      (m.handover (encrypt role) n arrivals).map (role.other, ·))
    CanSend (encrypt role) m (t.side role) → (t.side role.other).stage = .live →
      (∀ e ∈ arrivals, e.1 < m.count ∧ e.2 - first < lifetime) →
      (∀ j < m.count, j ∈ arrivals.map Prod.fst) →
      (t'.side role).calls[k]? = some ⟨m, .returned (.ok ())⟩ ∧
      (t'.side role).emitted = (t.side role).emitted ++
        (List.range m.count).map (m.datagram (encrypt role) n) ∧
      (t'.side role.other).delivered = (t.side role.other).delivered ++
        if m.count = 1 ∨ ((t.side role.other).assembly.expire first).pending.size < maxAssemblies
        then [m.packet] else [] := by
  intro t n k arrivals t' hsend hlive harrivals hall
  have hpasses :=
    passes (inv_run encrypt before) (ahead_run encrypt before role) hsend hlive harrivals hall
  have ht' : t' = ((m.handover (encrypt role) n arrivals).map (role.other, ·)).foldl (step encrypt)
      (((m.sending k).map (role, ·)).foldl (step encrypt) t) := by
    simp only [t', t, run, List.foldl_append]
  rw [ht']
  exact hpasses

/-- Two fragments that arrive in the wrong order, one of them twice. -/
theorem send_delivered_reordered :
    let encrypt (_ : Role) (_ : Nat) (plain : Bytes) := some (plain ++ List.replicate 16 7)
    let frame (plain : Bytes) : Bytes := toBe 8 0 ++ (plain ++ List.replicate 16 7)
    let before :=
      [(Role.client, Action.request [1]), (.server, .accept (frame [1])), (.server, .confirm),
      (.client, .reply (frame okReply))]
    let m : Message := ⟨3, 9, 0, List.replicate 1001 5⟩
    (run encrypt (before ++ (m.sending 0).map (.client, ·) ++
      (m.handover (encrypt .client) 1 [(1, 5), (1, 6), (0, 7)]).map
      (.server, ·))).server.delivered =
        [m.packet] := by
  intro encrypt frame before m
  have hsend : CanSend (encrypt .client) m ((run encrypt before).side .client) :=
    ⟨by decide +kernel, by decide +kernel, by decide +kernel, by decide +kernel, by decide +kernel,
      fun i _ => ⟨_, rfl, by simp⟩⟩
  have hdelivered := (send_delivered encrypt before .client m 1 5 [(1, 6), (0, 7)] hsend
    (by decide +kernel) (by decide +kernel) (by decide +kernel)).2.2
  rwa [if_pos (by decide +kernel)] at hdelivered

end Tunnel

end Cathole
