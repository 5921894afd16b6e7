import Cathole.Datagram.Endpoint

/-!
# No nonce is used twice

The counter of `DatagramCrypto` is shared by the registration exchange and every
call of `send`, and moves before an encryption that may fail. `Numbered` says
what that buys: the calls of `write_message` have the nonces `0, 1, 2, …` in
order, none is missing or repeated, and whatever reached the network carries the
nonce it was encrypted under.
-/

namespace Cathole

open Words (toBe)

/-- `datagram` is the nonce and the ciphertext of one call of `write_message`. -/
def Sealed (written : List Call) (datagram : Bytes) : Prop :=
  ∃ call ∈ written, ∃ cipher, call.cipher = some cipher ∧ datagram = toBe 8 call.nonce ++ cipher

theorem Sealed.append (h : Sealed written datagram) (more : List Call) :
    Sealed (written ++ more) datagram := by
  obtain ⟨call, hcall, h⟩ := h
  exact ⟨call, List.mem_append_left _ hcall, h⟩

namespace DatagramCrypto

/-- The calls so far used up exactly the nonces below the counter. -/
structure Numbered (c : DatagramCrypto) : Prop where
  nonces : c.state.written.map (·.nonce) = List.range c.next
  budget : c.next ≤ budget

theorem numbered_new : Numbered (new {}) := ⟨rfl, Nat.zero_le _⟩

theorem Numbered.seal' (h : Numbered c) (hs : seal' encrypt plain c = (result, c')) :
    Numbered c' := by
  rcases Nat.lt_or_ge c.next DatagramCrypto.budget with hn | hn
  · rw [seal'_within hn] at hs
    obtain rfl := (Prod.mk.inj hs).2
    refine ⟨?_, hn⟩
    rw [List.map_append, h.nonces, List.range_succ]
    rfl
  · rw [seal'_exhausted hn] at hs
    exact (Prod.mk.inj hs).2 ▸ h

theorem seal'_written (hs : seal' encrypt plain c = (result, c')) :
    ∃ more, c'.state.written = c.state.written ++ more ∧
      ∀ call ∈ more, call.plain = plain ∧ call.nonce = c.next := by
  rcases Nat.lt_or_ge c.next budget with hn | hn
  · rw [seal'_within hn] at hs
    obtain rfl := (Prod.mk.inj hs).2
    exact ⟨[_], rfl, by simp⟩
  · rw [seal'_exhausted hn] at hs
    obtain rfl := (Prod.mk.inj hs).2
    exact ⟨[], by simp, by simp⟩

theorem open'_sending (ho : open' decrypt cipher c = (result, c')) :
    c'.state = c.state ∧ c'.next = c.next := by
  have hstate : (open' decrypt cipher c).2.state = c.state := open'_state
  have hnext : (open' decrypt cipher c).2.next = c.next := open'_next
  rw [ho] at hstate hnext
  exact ⟨hstate, hnext⟩

theorem Numbered.open' (h : Numbered c) (ho : open' decrypt cipher c = (result, c')) :
    Numbered c' := by
  obtain ⟨hstate, hnext⟩ := open'_sending ho
  exact ⟨by rw [hstate, hnext]; exact h.nonces, by rw [hnext]; exact h.budget⟩

theorem seal'_sealed (h : seal' encrypt plain c = (.ok datagram, c')) :
    Sealed c'.state.written datagram := by
  rcases Nat.lt_or_ge c.next budget with hn | hn
  · rw [seal'_within hn] at h
    obtain ⟨hresult, rfl⟩ := Prod.mk.inj h
    cases he : encrypt c.next plain with
    | none => simp [he] at hresult
    | some cipher =>
      rw [he, Option.elim_some, Except.ok.injEq] at hresult
      exact ⟨⟨c.next, plain, some cipher⟩, by simp, cipher, rfl, hresult.symm⟩
  · rw [seal'_exhausted hn] at h
    cases h

theorem nonceOf_toBe (hn : n < budget) (cipher : Bytes) : nonceOf (toBe 8 n ++ cipher) = n := by
  rw [nonceOf, Words.take_toBe_append]
  exact Words.fromBe_toBe (lt_of_lt_of_le hn (by decide))

end DatagramCrypto

namespace Endpoint

open DatagramCrypto (Numbered)

/-- The endpoint's counter is in step with its calls, and every datagram it
sealed, sent or still to be sent, carries its own nonce. -/
structure Accounted (e : Endpoint) : Prop where
  numbered : Numbered e.crypto
  emitted : ∀ d ∈ e.emitted, Sealed e.written d
  queued : ∀ call ∈ e.calls, ∀ i d, call.phase = .queue i d → Sealed e.written d

theorem accounted_new (role : Role) : Accounted (new role) :=
  ⟨DatagramCrypto.numbered_new, by simp [new], by simp [new]⟩

variable {e : Endpoint} {encrypt decrypt : Nat → Bytes → Option Bytes}

theorem mem_setPhase (h : x ∈ (e.setPhase k call phase).calls) :
    x ∈ e.calls ∨ x.phase = phase := by
  rcases List.mem_or_eq_of_mem_set h with h | rfl
  · exact .inl h
  · exact .inr rfl

theorem Accounted.grow (h : Accounted e) (hn : Numbered e'.crypto)
    (hw : ∃ more, e'.written = e.written ++ more)
    (hemitted : ∀ d ∈ e'.emitted, d ∈ e.emitted ∨ Sealed e'.written d)
    (hcalls : ∀ call ∈ e'.calls, call ∈ e.calls ∨
      ∀ i d, call.phase = .queue i d → Sealed e'.written d) : Accounted e' := by
  obtain ⟨more, hw⟩ := hw
  refine ⟨hn, fun d hd => ?_, fun call hc i d hp => ?_⟩
  · rcases hemitted d hd with hd | hd
    · exact hw ▸ (h.emitted d hd).append more
    · exact hd
  · rcases hcalls call hc with hc | hc
    · exact hw ▸ (h.queued call hc i d hp).append more
    · exact hc i d hp

theorem Accounted.moves (h : Accounted e) (hm : Moves encrypt decrypt e e') : Accounted e' := by
  have hseal : ∀ {plain result c}, DatagramCrypto.seal' encrypt plain e.crypto = (result, c) →
      ∃ more, c.state.written = e.written ++ more := fun hs =>
    (DatagramCrypto.seal'_written hs).imp fun _ hmore => hmore.1
  have hopen : ∀ {frame result c}, DatagramCrypto.open' decrypt frame e.crypto = (result, c) →
      ∃ more, c.state.written = e.written ++ more := fun ho =>
    ⟨[], by rw [List.append_nil, (DatagramCrypto.open'_sending ho).1]; rfl⟩
  cases hm with
  | stay => exact h
  | sealed hready hs =>
    refine h.grow (h.numbered.seal' hs) (hseal hs) (fun d hd => ?_) fun call hc => .inl hc
    rcases List.mem_append.mp hd with hd | hd
    · exact .inl hd
    · rw [List.mem_singleton.mp hd]
      exact .inr (DatagramCrypto.seal'_sealed hs)
  | sealFailed hready hs =>
    exact h.grow (h.numbered.seal' hs) (hseal hs) (fun d hd => .inl hd) fun call hc => .inl hc
  | opened hready ho =>
    exact h.grow (h.numbered.open' ho) (hopen ho) (fun d hd => .inl hd) fun call hc => .inl hc
  | openFailed => exact ⟨h.numbered, h.emitted, h.queued⟩
  | started =>
    refine h.grow h.numbered ⟨[], by simp [written]⟩ (fun d hd => .inl hd) fun call hc => ?_
    rcases List.mem_append.mp hc with hc | hc
    · exact .inl hc
    · rw [List.mem_singleton.mp hc]
      exact .inr fun i d hp => nomatch hp
  | fragment hstage hcall hphase hi hs =>
    refine h.grow (h.numbered.seal' hs) (hseal hs) (fun d hd => .inl hd) fun call hc => ?_
    rcases mem_setPhase hc with hc | hc
    · exact .inl hc
    · refine .inr fun i d hp => ?_
      cases hc.symm.trans hp
      exact DatagramCrypto.seal'_sealed hs
  | fragmentFailed hstage hcall hphase hi hs =>
    refine h.grow (h.numbered.seal' hs) (hseal hs) (fun d hd => .inl hd) fun call hc => ?_
    exact (mem_setPhase hc).imp_right fun hc i d hp => nomatch hc.symm.trans hp
  | returned hcall result =>
    refine h.grow h.numbered ⟨[], by simp [written, setPhase]⟩
      (fun d hd => .inl hd) fun call hc => ?_
    exact (mem_setPhase hc).imp_right fun hc i d hp => nomatch hc.symm.trans hp
  | queued hcall hphase =>
    refine h.grow h.numbered ⟨[], by simp [written, setPhase]⟩ (fun d hd => ?_) fun call hc => ?_
    · rcases List.mem_append.mp hd with hd | hd
      · exact .inl hd
      · rw [List.mem_singleton.mp hd]
        exact .inr (h.queued _ (List.mem_of_getElem? hcall) _ _ hphase)
    · exact (mem_setPhase hc).imp_right fun hc i d hp => nomatch hc.symm.trans hp
  | received hstage ho =>
    exact h.grow (h.numbered.open' ho) (hopen ho) (fun d hd => .inl hd) fun call hc => .inl hc
  | expired => exact ⟨h.numbered, h.emitted, h.queued⟩

theorem accounted_run (actions : List ((Nat → Bytes → Option Bytes) × Action))
    (h : Accounted e) : Accounted (run encrypt actions e) := by
  induction actions generalizing e with
  | nil => exact h
  | cons action actions ih => exact ih (h.moves (step_moves encrypt action.1 action.2 e))

theorem written_moves (hm : Moves encrypt decrypt e e')
    (h : DatagramCrypto.budget ≤ e.crypto.next) :
    e'.written = e.written ∧ e'.crypto.next = e.crypto.next := by
  have hseal : ∀ {plain result c}, DatagramCrypto.seal' encrypt plain e.crypto = (result, c) →
      c = e.crypto := by
    intro plain result c hs
    rw [DatagramCrypto.seal'_exhausted h] at hs
    exact (Prod.mk.inj hs).2.symm
  cases hm with
  | sealed _ hs | sealFailed _ hs | fragment _ _ _ _ hs | fragmentFailed _ _ _ _ hs =>
    obtain rfl := hseal hs
    exact ⟨rfl, rfl⟩
  | opened _ ho | received _ ho =>
    obtain ⟨hstate, hnext⟩ := DatagramCrypto.open'_sending ho
    exact ⟨congrArg Stateless.written hstate, hnext⟩
  | stay | openFailed | started | returned | queued | expired => exact ⟨rfl, rfl⟩

theorem written_run (actions : List ((Nat → Bytes → Option Bytes) × Action))
    (h : DatagramCrypto.budget ≤ e.crypto.next) :
    (run encrypt actions e).written = e.written := by
  induction actions generalizing e with
  | nil => rfl
  | cons action actions ih =>
    obtain ⟨hw, hn⟩ := written_moves (step_moves encrypt action.1 action.2 e) h
    exact (ih (hn ▸ h)).trans hw

/-- Over every run of an endpoint, from its registration through any
interleaving of sends, with any encryption failing and any call left unfinished:
the nonces given to `write_message` increase strictly and stay below `2 ^ 32`,
every emitted datagram starts with the nonce it was encrypted under, and once
`2 ^ 32` calls were made every further seal fails and changes nothing. -/
theorem nonces_never_reused (encrypt : Nat → Bytes → Option Bytes) (role : Role)
    (actions : List ((Nat → Bytes → Option Bytes) × Action)) :
    let e := run encrypt actions (new role)
    (e.written.map (·.nonce)).Pairwise (· < ·) ∧
    (∀ call ∈ e.written, call.nonce < 2 ^ 32) ∧
    (∀ d ∈ e.emitted, ∃ call ∈ e.written, ∃ cipher, call.cipher = some cipher ∧
      d = toBe 8 call.nonce ++ cipher ∧ DatagramCrypto.nonceOf d = call.nonce) ∧
    (2 ^ 32 ≤ e.written.length →
      (∀ plain, DatagramCrypto.seal' encrypt plain e.crypto =
        (.error (.message "Noise UDP key packet budget exhausted; reconnect required"), e.crypto)) ∧
      ∀ more, (run encrypt more e).written = e.written) := by
  intro e
  have h : Accounted e := accounted_run actions (accounted_new role)
  have hlength : e.written.length = e.crypto.next := by
    simpa [written, crypto] using congrArg List.length h.numbered.nonces
  have hbelow : ∀ call ∈ e.written, call.nonce < 2 ^ 32 := by
    intro call hc
    have hmem : call.nonce ∈ List.range e.crypto.next :=
      h.numbered.nonces ▸ List.mem_map.mpr ⟨call, hc, rfl⟩
    exact lt_of_lt_of_le (List.mem_range.mp hmem) h.numbered.budget
  refine ⟨?_, hbelow, fun d hd => ?_, fun hspent => ?_⟩
  · exact h.numbered.nonces ▸ List.pairwise_lt_range
  · obtain ⟨call, hc, cipher, hcipher, rfl⟩ := h.emitted d hd
    exact ⟨call, hc, cipher, hcipher, rfl, DatagramCrypto.nonceOf_toBe (hbelow call hc) cipher⟩
  · have hfull : DatagramCrypto.budget ≤ e.crypto.next := hlength ▸ hspent
    exact ⟨fun plain => DatagramCrypto.seal'_exhausted hfull, fun more => written_run more hfull⟩

end Endpoint

end Cathole
