import Mathlib.Tactic

/-!
# Failures

Fallible code returns `Except Fault`. A failure the repository words itself,
by `ensure!`, `bail!` or `context`, is `Fault.message` with that text; a failure
passed on from a library is a constructor naming the library.
-/

namespace Cathole

inductive Fault
  | message (text : String)
  -- `snow`: a pattern, a key or a message it refuses.
  | noise
  -- `quinn`: a stream that was reset, stopped or ended inside a read.
  | stream
  -- `quinn`: a datagram that could not be queued.
  | datagram
  -- `serde_json`: bytes that are no registration.
  | json
  -- `toml`: text that is no configuration.
  | toml
  -- `base64`: text that is no encoding.
  | base64
  -- `rustls` and `rcgen`: an identity they refuse or cannot make.
  | tls
  -- The operating system: files, sockets and name resolution.
  | io
  -- A `tokio` timeout.
  | elapsed
  -- An `unwrap` or an index that panicked.
  | panic
  deriving DecidableEq, Repr

def ensure (condition : Bool) (text : String) : Except Fault Unit :=
  if condition then .ok () else .error (.message text)

/-- `context` and `ok_or_else` on an `Option`. -/
def context (value : Option α) (text : String) : Except Fault α :=
  match value with
  | some a => .ok a
  | none => .error (.message text)

/-- A library call that either returns or fails with its own error. -/
def orFault (value : Option α) (fault : Fault) : Except Fault α :=
  match value with
  | some a => .ok a
  | none => .error fault

/-- A library call that only succeeds or fails. -/
def accept (condition : Bool) (fault : Fault) : Except Fault Unit :=
  if condition then .ok () else .error fault

theorem ok_bind (a : α) (f : α → Except Fault β) : ((.ok a : Except Fault α) >>= f) = f a := rfl

theorem error_bind (e : Fault) (f : α → Except Fault β) :
    ((.error e : Except Fault α) >>= f) = .error e := rfl

theorem bind_eq_ok {x : Except Fault α} {f : α → Except Fault β} :
    (x >>= f) = .ok b ↔ ∃ a, x = .ok a ∧ f a = .ok b := by
  cases x with
  | error e => exact ⟨fun h => (nomatch h), fun ⟨_, h, _⟩ => (nomatch h)⟩
  | ok a => exact ⟨fun h => ⟨a, rfl, h⟩, fun ⟨_, h, hf⟩ => by cases h; exact hf⟩

theorem bind_eq_error {x : Except Fault α} {f : α → Except Fault β} :
    (x >>= f) = .error e ↔ x = .error e ∨ ∃ a, x = .ok a ∧ f a = .error e := by
  cases x with
  | error e' =>
    constructor
    · intro h
      cases h
      exact .inl rfl
    · rintro (h | ⟨a, h, -⟩)
      · cases h
        rfl
      · cases h
  | ok a =>
    constructor
    · intro h
      exact .inr ⟨a, rfl, h⟩
    · rintro (h | ⟨a', h, hf⟩)
      · cases h
      · cases h
        exact hf

theorem pure_eq_ok : (pure a : Except Fault α) = .ok b ↔ a = b :=
  ⟨fun h => by cases h; rfl, fun h => h ▸ rfl⟩

theorem forM_eq_ok {xs : List α} {f : α → Except Fault Unit} :
    xs.forM f = .ok () ↔ ∀ x ∈ xs, f x = .ok () := by
  induction xs with
  | nil => exact ⟨fun _ x hx => (List.not_mem_nil hx).elim, fun _ => rfl⟩
  | cons x xs ih =>
    change (f x >>= fun _ => xs.forM f) = .ok () ↔ _
    rw [List.forall_mem_cons, ← ih, bind_eq_ok]
    constructor
    · rintro ⟨⟨⟩, hx, hxs⟩
      exact ⟨hx, hxs⟩
    · rintro ⟨hx, hxs⟩
      exact ⟨(), hx, hxs⟩

@[simp] theorem ensure_true : ensure true text = .ok () := rfl

@[simp] theorem ensure_false : ensure false text = .error (.message text) := rfl

@[simp] theorem ensure_eq_ok : ensure condition text = .ok u ↔ condition = true := by
  cases condition <;> simp [ensure]

@[simp] theorem ensure_eq_error :
    ensure condition text = .error e ↔ condition = false ∧ e = .message text := by
  cases condition <;> simp [ensure, eq_comm]

@[simp] theorem context_eq_ok : context value text = .ok a ↔ value = some a := by
  cases value <;> simp [context]

@[simp] theorem orFault_eq_ok : orFault value fault = .ok a ↔ value = some a := by
  cases value <;> simp [orFault]

@[simp] theorem accept_eq_ok : accept condition fault = .ok u ↔ condition = true := by
  cases condition <;> simp [accept]

-- ---------------------------------------------------------------------------
-- Operations that panic
-- ---------------------------------------------------------------------------

namespace Checked

def unwrap (value : Option α) : Except Fault α := orFault value .panic

/-- `a - b` on an unsigned integer. -/
def sub (a b : Nat) : Except Fault Nat := if b ≤ a then .ok (a - b) else .error .panic

/-- `xs[lo..hi]`. -/
def slice (xs : List α) (lo hi : Nat) : Except Fault (List α) :=
  if lo ≤ hi ∧ hi ≤ xs.length then .ok ((xs.drop lo).take (hi - lo)) else .error .panic

/-- `xs[i] = x`. -/
def set (xs : List α) (i : Nat) (x : α) : Except Fault (List α) :=
  if i < xs.length then .ok (xs.set i x) else .error .panic

def addU32 (a b : UInt32) : Except Fault UInt32 :=
  if a.toNat + b.toNat < 2 ^ 32 then .ok (a + b) else .error .panic

def addU64 (a b : UInt64) : Except Fault UInt64 :=
  if a.toNat + b.toNat < 2 ^ 64 then .ok (a + b) else .error .panic

def mulU64 (a b : UInt64) : Except Fault UInt64 :=
  if a.toNat * b.toNat < 2 ^ 64 then .ok (a * b) else .error .panic

@[simp] theorem unwrap_some (a : α) : unwrap (some a) = .ok a := rfl

theorem sub_of_le (h : b ≤ a) : sub a b = .ok (a - b) := if_pos h

theorem slice_of_le {xs : List α} (hlo : lo ≤ hi) (hhi : hi ≤ xs.length) :
    slice xs lo hi = .ok ((xs.drop lo).take (hi - lo)) := if_pos ⟨hlo, hhi⟩

theorem addU32_of_lt (h : a.toNat + b.toNat < 2 ^ 32) :
    ∃ c, addU32 a b = .ok c ∧ c.toNat = a.toNat + b.toNat := by
  refine ⟨a + b, if_pos h, ?_⟩
  rw [UInt32.toNat_add, Nat.mod_eq_of_lt h]

theorem addU64_of_lt (h : a.toNat + b.toNat < 2 ^ 64) :
    ∃ c, addU64 a b = .ok c ∧ c.toNat = a.toNat + b.toNat := by
  refine ⟨a + b, if_pos h, ?_⟩
  rw [UInt64.toNat_add, Nat.mod_eq_of_lt h]

theorem mulU64_of_lt (h : a.toNat * b.toNat < 2 ^ 64) :
    ∃ c, mulU64 a b = .ok c ∧ c.toNat = a.toNat * b.toNat := by
  refine ⟨a * b, if_pos h, ?_⟩
  rw [UInt64.toNat_mul, Nat.mod_eq_of_lt h]

theorem set_of_lt {xs : List α} (h : i < xs.length) : set xs i x = .ok (xs.set i x) := if_pos h

end Checked

-- ---------------------------------------------------------------------------
-- Code that does not panic
-- ---------------------------------------------------------------------------

def Safe (x : Except Fault α) : Prop := x ≠ .error .panic

theorem safe_ok (a : α) : Safe (.ok a : Except Fault α) := by
  intro h
  cases h

theorem safe_pure (a : α) : Safe (pure a : Except Fault α) := safe_ok a

theorem Safe.bind {x : Except Fault α} {f : α → Except Fault β} (hx : Safe x)
    (hf : ∀ a, x = .ok a → Safe (f a)) : Safe (x >>= f) := by
  intro h
  rcases bind_eq_error.mp h with hpanic | ⟨a, ha, hpanic⟩
  · exact hx hpanic
  · exact hf a ha hpanic

theorem safe_ensure (condition : Bool) (text : String) : Safe (ensure condition text) := by
  intro h
  cases (ensure_eq_error.mp h).2

theorem safe_context (value : Option α) (text : String) : Safe (context value text) := by
  cases value with
  | none =>
    intro h
    cases h
  | some a => exact safe_ok a

theorem safe_orFault (value : Option α) (hfault : fault ≠ .panic) : Safe (orFault value fault) := by
  cases value with
  | none =>
    intro h
    exact hfault (Except.error.inj h)
  | some a => exact safe_ok a

theorem safe_accept (condition : Bool) (hfault : fault ≠ .panic) :
    Safe (accept condition fault) := by
  cases condition with
  | false =>
    intro h
    exact hfault (Except.error.inj h)
  | true => exact safe_ok ()

theorem safe_forM {xs : List α} {f : α → Except Fault Unit} (hf : ∀ x ∈ xs, Safe (f x)) :
    Safe (xs.forM f) := by
  induction xs with
  | nil => exact safe_pure ()
  | cons x xs ih =>
    refine Safe.bind (hf x List.mem_cons_self) fun _ _ => ih ?_
    intro y hy
    exact hf y (List.mem_cons_of_mem x hy)

end Cathole
