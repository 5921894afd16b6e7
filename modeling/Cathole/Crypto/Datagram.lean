import Cathole.Crypto.Replay
import Cathole.Fault
import Cathole.Lib.Words

/-!
# Datagram encryption

`DatagramCrypto` of `crypto.rs`. Snow's stateless transport is outside the
repository: what it encrypts and decrypts is given by the functions `encrypt`
and `decrypt` of the sending and the receiving key, both free to fail, and
`Stateless` keeps the calls of `write_message` that were made.

Lean reserves the words `seal` and `open`, so the two operations carry a prime.
Both return the state beside the result, because `seal` changes it even when it
fails: the counter moves before the encryption is tried.
-/

namespace Cathole

open Words (toBe fromBe)

def okReply : Bytes := [0x6f, 0x6b]

structure Call where
  nonce : Nat
  plain : Bytes
  cipher : Option Bytes
  deriving DecidableEq, Repr

/-- `StatelessTransportState`: the calls of `write_message`, in order. -/
structure Stateless where
  written : List Call := []
  deriving DecidableEq, Repr

def Stateless.writeMessage (encrypt : Nat → Bytes → Option Bytes) (nonce : Nat) (plain : Bytes)
    (s : Stateless) : Option Bytes × Stateless :=
  let cipher := encrypt nonce plain
  (cipher, { written := s.written ++ [⟨nonce, plain, cipher⟩] })

structure DatagramCrypto where
  state : Stateless
  next : Nat
  replay : ReplayWindow
  deriving DecidableEq

namespace DatagramCrypto

def new (state : Stateless) : DatagramCrypto where
  state := state
  next := 0
  replay := .default

def budget : Nat := 2 ^ 32

def seal' (encrypt : Nat → Bytes → Option Bytes) (plain : Bytes) (c : DatagramCrypto) :
    Except Fault Bytes × DatagramCrypto :=
  if c.next < budget then
    let nonce := c.next
    let (cipher, state) := c.state.writeMessage encrypt nonce plain
    let c := { c with state, next := c.next + 1 }
    match cipher with
    | none => (.error .noise, c)
    | some cipher => (.ok (toBe 8 nonce ++ cipher), c)
  else (.error (.message "Noise UDP key packet budget exhausted; reconnect required"), c)

def nonceOf (cipher : Bytes) : Nat := fromBe (cipher.take 8)

def open' (decrypt : Nat → Bytes → Option Bytes) (cipher : Bytes) (c : DatagramCrypto) :
    Except Fault Bytes × DatagramCrypto :=
  if cipher.length < 24 then (.error (.message "short Noise datagram"), c)
  else
    let n := nonceOf cipher
    if n < budget && c.replay.acceptable n then
      match decrypt n (cipher.drop 8) with
      | none => (.error .noise, c)
      | some plain => (.ok plain, { c with replay := c.replay.record n })
    else (.error (.message "replayed or stale datagram"), c)

variable {encrypt decrypt : Nat → Bytes → Option Bytes} {c : DatagramCrypto}

-- ---------------------------------------------------------------------------
-- What one call does
-- ---------------------------------------------------------------------------

/-- A seal within the budget spends its nonce, whether or not it succeeds. -/
theorem seal'_within (h : c.next < budget) :
    seal' encrypt plain c =
      ((encrypt c.next plain).elim (.error .noise) fun cipher => .ok (toBe 8 c.next ++ cipher),
        { c with
          state := { written := c.state.written ++ [⟨c.next, plain, encrypt c.next plain⟩] }
          next := c.next + 1 }) := by
  cases he : encrypt c.next plain <;> simp [seal', h, Stateless.writeMessage, he]

theorem seal'_exhausted (h : budget ≤ c.next) :
    seal' encrypt plain c =
      (.error (.message "Noise UDP key packet budget exhausted; reconnect required"), c) := by
  simp [seal', Nat.not_lt.mpr h]

@[simp] theorem seal'_replay : (seal' encrypt plain c).2.replay = c.replay := by
  rcases Nat.lt_or_ge c.next budget with h | h
  · rw [seal'_within h]
  · rw [seal'_exhausted h]

theorem open'_cases (decrypt : Nat → Bytes → Option Bytes) (cipher : Bytes) (c : DatagramCrypto) :
    (∃ fault, open' decrypt cipher c = (.error fault, c)) ∨
    ∃ plain, 24 ≤ cipher.length ∧ nonceOf cipher < budget ∧
      c.replay.acceptable (nonceOf cipher) = true ∧
      decrypt (nonceOf cipher) (cipher.drop 8) = some plain ∧
      open' decrypt cipher c =
        (.ok plain, { c with replay := c.replay.record (nonceOf cipher) }) := by
  unfold open'
  split
  · exact .inl ⟨_, rfl⟩
  rename_i hlen
  simp only
  split
  · rename_i hn
    simp only [Bool.and_eq_true, decide_eq_true_eq] at hn
    split
    · exact .inl ⟨_, rfl⟩
    · rename_i plain hd
      exact .inr ⟨plain, by omega, hn.1, hn.2, hd, rfl⟩
  · exact .inl ⟨_, rfl⟩

theorem open'_ok (h : (open' decrypt cipher c).1 = .ok plain) :
    24 ≤ cipher.length ∧ nonceOf cipher < budget ∧ c.replay.acceptable (nonceOf cipher) = true ∧
      decrypt (nonceOf cipher) (cipher.drop 8) = some plain ∧
      (open' decrypt cipher c).2 = { c with replay := c.replay.record (nonceOf cipher) } := by
  obtain ⟨fault, he⟩ | ⟨p, hlen, hn, ha, hd, he⟩ := open'_cases decrypt cipher c
  · rw [he] at h
    cases h
  · rw [he] at h ⊢
    cases h
    exact ⟨hlen, hn, ha, hd, rfl⟩

theorem open'_error (h : (open' decrypt cipher c).1 = .error fault) :
    (open' decrypt cipher c).2 = c := by
  obtain ⟨_, he⟩ | ⟨p, -, -, -, -, he⟩ := open'_cases decrypt cipher c
  · rw [he]
  · rw [he] at h
    cases h

@[simp] theorem open'_state : (open' decrypt cipher c).2.state = c.state := by
  obtain ⟨_, he⟩ | ⟨_, -, -, -, -, he⟩ := open'_cases decrypt cipher c <;> rw [he]

@[simp] theorem open'_next : (open' decrypt cipher c).2.next = c.next := by
  obtain ⟨_, he⟩ | ⟨_, -, -, -, -, he⟩ := open'_cases decrypt cipher c <;> rw [he]

theorem open'_isOk_iff :
    (open' decrypt cipher c).1.isOk = true ↔
      24 ≤ cipher.length ∧ nonceOf cipher < budget ∧
        (decrypt (nonceOf cipher) (cipher.drop 8)).isSome = true ∧
        c.replay.acceptable (nonceOf cipher) = true := by
  constructor
  · intro h
    cases hr : (open' decrypt cipher c).1 with
    | error fault => rw [hr] at h; cases h
    | ok plain =>
      obtain ⟨hlen, hn, ha, hd, -⟩ := open'_ok hr
      exact ⟨hlen, hn, by simp [hd], ha⟩
  · rintro ⟨hlen, hn, hd, ha⟩
    obtain ⟨plain, hp⟩ := Option.isSome_iff_exists.mp hd
    simp [open', Nat.not_lt.mpr hlen, hn, ha, hp, Except.isOk, Except.toBool]

-- ---------------------------------------------------------------------------
-- Whole runs of `open`
-- ---------------------------------------------------------------------------

/-- The results of a run of calls, in order, and the state after it. -/
def openAll (decrypt : Nat → Bytes → Option Bytes) :
    List Bytes → DatagramCrypto → List (Except Fault Bytes) × DatagramCrypto
  | [], c => ([], c)
  | cipher :: rest, c =>
    let (result, c) := open' decrypt cipher c
    let (results, c) := openAll decrypt rest c
    (result :: results, c)

theorem openAll_append (xs ys : List Bytes) (c : DatagramCrypto) :
    openAll decrypt (xs ++ ys) c =
      ((openAll decrypt xs c).1 ++ (openAll decrypt ys (openAll decrypt xs c).2).1,
        (openAll decrypt ys (openAll decrypt xs c).2).2) := by
  induction xs generalizing c with
  | nil => rfl
  | cons x xs ih => simp [openAll, ih]

def acceptedNonces (decrypt : Nat → Bytes → Option Bytes) (history : List Bytes)
    (c : DatagramCrypto) : Set Nat :=
  { n | ∃ earlier cipher later, history = earlier ++ cipher :: later ∧
    (open' decrypt cipher (openAll decrypt earlier c).2).1.isOk = true ∧ n = nonceOf cipher }

theorem acceptedNonces_append (history : List Bytes) (cipher : Bytes) (c : DatagramCrypto) :
    acceptedNonces decrypt (history ++ [cipher]) c =
      if (open' decrypt cipher (openAll decrypt history c).2).1.isOk
      then insert (nonceOf cipher) (acceptedNonces decrypt history c)
      else acceptedNonces decrypt history c := by
  ext n
  -- The last successful call is either the new one or one of the old run.
  have hsplit : n ∈ acceptedNonces decrypt (history ++ [cipher]) c ↔
      (open' decrypt cipher (openAll decrypt history c).2).1.isOk = true ∧ n = nonceOf cipher ∨
        n ∈ acceptedNonces decrypt history c := by
    constructor
    · rintro ⟨earlier, x, later, he, hok, hn⟩
      rcases List.eq_nil_or_concat' later with rfl | ⟨later, y, rfl⟩
      · obtain ⟨rfl, hx⟩ := List.append_inj' he rfl
        cases hx
        exact .inl ⟨hok, hn⟩
      · rw [← List.cons_append, ← List.append_assoc] at he
        obtain ⟨rfl, -⟩ := List.append_inj' he rfl
        exact .inr ⟨earlier, x, later, rfl, hok, hn⟩
    · rintro (⟨hok, hn⟩ | ⟨earlier, x, later, rfl, hok, hn⟩)
      · exact ⟨history, cipher, [], rfl, hok, hn⟩
      · exact ⟨earlier, x, later ++ [cipher], by simp, hok, hn⟩
  rw [hsplit]
  split <;> simp_all

theorem open'_refines (h : c.replay.Refines taken) :
    (open' decrypt cipher c).2.replay.Refines
      (if (open' decrypt cipher c).1.isOk then insert (nonceOf cipher) taken else taken) := by
  cases hr : (open' decrypt cipher c).1 with
  | error fault =>
    rw [open'_error hr]
    simpa [Except.isOk, Except.toBool] using h
  | ok plain =>
    obtain ⟨-, -, ha, -, hc⟩ := open'_ok hr
    rw [hc]
    simpa [Except.isOk, Except.toBool] using h.record ha

theorem openAll_refines (history : List Bytes) (state : Stateless) :
    (openAll decrypt history (new state)).2.replay.Refines
      (acceptedNonces decrypt history (new state)) := by
  induction history using List.reverseRecOn with
  | nil =>
    have hempty : acceptedNonces decrypt [] (new state) = ∅ := by
      ext n
      simp [acceptedNonces]
    rw [hempty]
    exact ReplayWindow.refines_default
  | append_singleton history cipher ih =>
    rw [acceptedNonces_append, openAll_append]
    exact open'_refines ih

theorem length_openAll (xs : List Bytes) (c : DatagramCrypto) :
    (openAll decrypt xs c).1.length = xs.length := by
  induction xs generalizing c with
  | nil => rfl
  | cons x xs ih => simp [openAll, ih]

/-- A failed call can be left out of a run: the others return the same. -/
theorem openAll_drop_failed (history later : List Bytes)
    (h : (open' decrypt cipher (openAll decrypt history c).2).1.isOk = false) :
    (openAll decrypt (history ++ cipher :: later) c).1.eraseIdx history.length =
        (openAll decrypt (history ++ later) c).1 ∧
      (openAll decrypt (history ++ cipher :: later) c).2 =
        (openAll decrypt (history ++ later) c).2 := by
  obtain ⟨fault, hr⟩ : ∃ fault, (open' decrypt cipher (openAll decrypt history c).2).1 =
      .error fault := by
    cases hr : (open' decrypt cipher (openAll decrypt history c).2).1 with
    | error fault => exact ⟨fault, rfl⟩
    | ok plain => rw [hr] at h; cases h
  rw [openAll_append, openAll_append]
  simp only [openAll, open'_error hr]
  rw [List.eraseIdx_append_of_length_le (by rw [length_openAll]), length_openAll]
  simp

/-- The acceptance rule over whole runs: after any history of calls, a datagram
is opened exactly when it is long enough, its nonce is within the budget and
authenticates it, and the nonce is new and above or less than 1024 below the
highest nonce opened so far. A refused datagram leaves no trace, and the bitmap
is the set of opened nonces inside the window. -/
theorem open_run_rule (decrypt : Nat → Bytes → Option Bytes) (state : Stateless)
    (history : List Bytes) (cipher : Bytes) :
    let c := (openAll decrypt history (new state)).2
    let accepted := acceptedNonces decrypt history (new state)
    let n := nonceOf cipher
    ((open' decrypt cipher c).1.isOk = true ↔
      24 ≤ cipher.length ∧ n < 2 ^ 32 ∧ (decrypt n (cipher.drop 8)).isSome = true ∧
        n ∉ accepted ∧
        (accepted = ∅ ∨ ∃ h, IsGreatest accepted h ∧ (h < n ∨ h - n < 1024))) ∧
    ((open' decrypt cipher c).1.isOk = false →
      (open' decrypt cipher c).2 = c ∧
      ∀ later,
        (openAll decrypt (history ++ cipher :: later) (new state)).1.eraseIdx history.length =
          (openAll decrypt (history ++ later) (new state)).1 ∧
        (openAll decrypt (history ++ cipher :: later) (new state)).2 =
          (openAll decrypt (history ++ later) (new state)).2) ∧
    c.replay.Refines accepted := by
  intro c accepted n
  have href : c.replay.Refines accepted := openAll_refines history state
  refine ⟨?_, ?_, href⟩
  · rw [open'_isOk_iff, ReplayWindow.acceptable_iff href]
    rfl
  · intro hfail
    refine ⟨?_, fun later => openAll_drop_failed history later hfail⟩
    cases hr : (open' decrypt cipher c).1 with
    | error fault => exact open'_error hr
    | ok plain => rw [hr] at hfail; cases hfail

end DatagramCrypto

end Cathole
