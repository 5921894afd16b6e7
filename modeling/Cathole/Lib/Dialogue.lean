import Mathlib.Tactic

/-!
# Two parties and two queues

A `Prog` writes frames, reads frames and ends with a result or an error. Two of
them are connected by a first-in first-out channel in each direction, which its
writer can finish; a read waits for a frame or for the end of its channel.

A party is deterministic, and a step of one party does not disturb a step of the
other (`Dialogue.diamond`). All interleavings therefore come to the same end: if
one run cannot be continued, every other run leads to the state it stopped in,
in the same number of steps (`Steps.rest`).

Every write and every read names its place in the program, and a channel carries
the place beside the frame; `Dialogue` notes which write each read consumed.
-/

namespace Dialogue

-- ---------------------------------------------------------------------------
-- Relations with the diamond property
-- ---------------------------------------------------------------------------

inductive Steps {α : Type} (r : α → α → Prop) : Nat → α → α → Prop
  | refl (a : α) : Steps r 0 a a
  | head (h : r a b) (rest : Steps r n b c) : Steps r (n + 1) a c

section

variable {α : Type} {r : α → α → Prop} {a b c z : α} {m n : Nat}

theorem Steps.single (h : r a b) : Steps r 1 a b := .head h (.refl b)

theorem Steps.trans (h : Steps r m a b) (h' : Steps r n b c) : Steps r (m + n) a c := by
  induction h with
  | refl a =>
    rw [Nat.zero_add]
    exact h'
  | head h rest ih =>
    rw [Nat.add_right_comm]
    exact .head h (ih h')

/-- Two different steps from one state lead to one state again. -/
def Diamond (r : α → α → Prop) : Prop :=
  ∀ a b c, r a b → r a c → b = c ∨ ∃ d, r b d ∧ r c d

theorem Steps.tail (hr : Diamond r) (hz : ∀ b, ¬r z b) (h : Steps r n a z) (hb : r a b) :
    ∃ k, n = k + 1 ∧ Steps r k b z := by
  induction h generalizing b with
  | refl a => exact absurd hb (hz b)
  | @head a a' k z hstep rest ih =>
    refine ⟨k, rfl, ?_⟩
    rcases hr a a' b hstep hb with rfl | ⟨d, hd, hd'⟩
    · exact rest
    · obtain ⟨l, rfl, hl⟩ := ih hz hd
      exact .head hd' hl

theorem Steps.rest (hr : Diamond r) (hz : ∀ b, ¬r z b) (h : Steps r n a z) (hc : Steps r m a c) :
    ∃ k, n = m + k ∧ Steps r k c z := by
  induction hc generalizing n with
  | refl a => exact ⟨n, (Nat.zero_add n).symm, h⟩
  | head hstep _ ih =>
    obtain ⟨k, rfl, hk⟩ := h.tail hr hz hstep
    obtain ⟨l, rfl, hl⟩ := ih hk
    exact ⟨l, by omega, hl⟩

theorem Steps.progress (h : Steps r n a z) : a = z ∨ ∃ b, r a b := by
  cases h with
  | refl => exact .inl rfl
  | head hstep _ => exact .inr ⟨_, hstep⟩

end

-- ---------------------------------------------------------------------------
-- Programs
-- ---------------------------------------------------------------------------

/-- A program that ends in `α` or in an error. A write and a finish learn
whether the channel was still open. -/
inductive Prog (π φ ε α : Type)
  | done (result : Except ε α)
  | write (place : π) (frame : φ) (next : Bool → Prog π φ ε α)
  | finish (next : Bool → Prog π φ ε α)
  | read (place : π) (next : Option φ → Prog π φ ε α)

variable {π φ ε α β : Type}

def Prog.bind (p : Prog π φ ε α) (f : α → Prog π φ ε β) : Prog π φ ε β :=
  match p with
  | .done (.error e) => .done (.error e)
  | .done (.ok a) => f a
  | .write place frame next => .write place frame fun isOpen => (next isOpen).bind f
  | .finish next => .finish fun isOpen => (next isOpen).bind f
  | .read place next => .read place fun got => (next got).bind f

instance : Monad (Prog π φ ε) where
  pure a := .done (.ok a)
  bind := Prog.bind

instance : MonadLift (Except ε) (Prog π φ ε) where
  monadLift := .done

namespace Prog

variable {γ : Type} {f : α → Prog π φ ε β}

@[simp] theorem pure_eq (a : α) : (pure a : Prog π φ ε α) = .done (.ok a) := rfl

@[simp] theorem lift_eq (x : Except ε α) : (liftM x : Prog π φ ε α) = .done x := rfl

@[simp] theorem ok_bind (a : α) : (.done (.ok a) >>= f : Prog π φ ε β) = f a := rfl

@[simp] theorem error_bind (e : ε) : (.done (.error e) >>= f : Prog π φ ε β) = .done
    (.error e) := rfl

@[simp] theorem write_bind (place : π) (frame : φ) (next : Bool → Prog π φ ε α) :
    (.write place frame next >>= f : Prog π φ ε β) =
      .write place frame fun isOpen => next isOpen >>= f := rfl

@[simp] theorem finish_bind (next : Bool → Prog π φ ε α) :
    (.finish next >>= f : Prog π φ ε β) = .finish fun isOpen => next isOpen >>= f := rfl

@[simp] theorem read_bind (place : π) (next : Option φ → Prog π φ ε α) :
    (.read place next >>= f : Prog π φ ε β) = .read place fun got => next got >>= f := rfl

@[simp] theorem bind_assoc (p : Prog π φ ε α) (g : β → Prog π φ ε γ) :
    (p >>= f >>= g) = p >>= fun a => f a >>= g := by
  induction p with
  | done result => cases result <;> rfl
  | write place frame next ih => simp [ih]
  | finish next ih => simp [ih]
  | read place next ih => simp [ih]

/-- A run of the program by itself, to a result: its reads return the frames of
the list, and its writes anything. -/
inductive Returns : Prog π φ ε α → List (Option φ) → α → Prop
  | done : Returns (.done (.ok a)) [] a
  | write (isOpen : Bool) (h : Returns (next isOpen) frames a) :
      Returns (.write place frame next) frames a
  | finish (isOpen : Bool) (h : Returns (next isOpen) frames a) : Returns (.finish next) frames a
  | read (got : Option φ) (h : Returns (next got) frames a) :
      Returns (.read place next) (got :: frames) a

theorem returns_done {x : Except ε α} {frames : List (Option φ)} {a : α} :
    Returns (.done x : Prog π φ ε α) frames a ↔ x = .ok a ∧ frames = [] := by
  constructor
  · intro h
    cases h
    exact ⟨rfl, rfl⟩
  · rintro ⟨rfl, rfl⟩
    exact .done

/-- A run of two programs in a row is a run of the first and one of the second. -/
theorem Returns.of_bind {p : Prog π φ ε α} {frames : List (Option φ)} {b : β}
    (h : Returns (p >>= f) frames b) :
    ∃ a front back, frames = front ++ back ∧ Returns p front a ∧ Returns (f a) back b := by
  induction p generalizing frames with
  | done result =>
    cases result with
    | error e => cases h
    | ok a => exact ⟨a, [], frames, rfl, .done, h⟩
  | write place frame next ih =>
    cases h with
    | write isOpen h =>
      obtain ⟨a, front, back, hframes, hp, hf⟩ := ih isOpen h
      exact ⟨a, front, back, hframes, .write isOpen hp, hf⟩
  | finish next ih =>
    cases h with
    | finish isOpen h =>
      obtain ⟨a, front, back, hframes, hp, hf⟩ := ih isOpen h
      exact ⟨a, front, back, hframes, .finish isOpen hp, hf⟩
  | read place next ih =>
    cases h with
    | read got h =>
      obtain ⟨a, front, back, rfl, hp, hf⟩ := ih got h
      exact ⟨a, got :: front, back, rfl, .read got hp, hf⟩

end Prog

/-- The frames under way, with the places they were written at. -/
structure Channel (π φ : Type) where
  queue : List (π × φ) := []
  fin : Bool := false

namespace Channel

variable {c : Channel π φ} {got : Option (π × φ)}

def push (item : π × φ) (c : Channel π φ) : Channel π φ :=
  if c.fin then c else { c with queue := c.queue ++ [item] }

def finish (c : Channel π φ) : Channel π φ := { c with fin := true }

def pop (c : Channel π φ) : Channel π φ := { c with queue := c.queue.tail }

def front (c : Channel π φ) : Option (Option (π × φ)) :=
  match c.queue with
  | item :: _ => some (some item)
  | [] => if c.fin then some none else none

/-- A change at the end, which a reader at the front does not notice. -/
structure Extends (f : Channel π φ → Channel π φ) : Prop where
  front : ∀ {c got}, c.front = some got → (f c).front = some got
  pop : ∀ {c got}, c.front = some got → (f c).pop = f c.pop

theorem fin_of_front (h : c.front = some got) (hc : c.queue = []) : c.fin = true := by
  by_contra hopen
  simp [front, hc, hopen] at h

theorem Extends.push (item : π × φ) : Extends (Channel.push item) where
  front {c got} h := by
    cases hc : c.queue with
    | nil =>
      rw [Channel.push, if_pos (fin_of_front h hc)]
      exact h
    | cons first rest =>
      rw [← h]
      unfold Channel.push
      split <;> simp [Channel.front, hc]
  pop {c got} h := by
    cases hc : c.queue with
    | nil => simp [Channel.push, Channel.pop, fin_of_front h hc]
    | cons first rest =>
      unfold Channel.push Channel.pop
      split <;> simp [hc]

theorem Extends.finish : Extends (Channel.finish (π := π) (φ := φ)) where
  front {c got} h := by
    rw [← h]
    cases hc : c.queue with
    | nil => simp [Channel.finish, Channel.front, hc, fin_of_front h hc]
    | cons first rest => simp [Channel.finish, Channel.front, hc]
  pop _ := rfl

end Channel

-- ---------------------------------------------------------------------------
-- Two parties
-- ---------------------------------------------------------------------------

/-- What is left of a program, and the places of the frames it has read: where
each was written, and where it was read. -/
structure Party (π φ ε α : Type) where
  prog : Prog π φ ε α
  seen : List (π × π) := []

/-- A step of a party that writes to `out` and reads from `back`. -/
def Party.step (p : Party π φ ε α) (out back : Channel π φ) :
    Option (Party π φ ε α × Channel π φ × Channel π φ) :=
  match p.prog with
  | .done _ => none
  | .write place frame next =>
    some ({ p with prog := next !out.fin }, out.push (place, frame), back)
  | .finish next => some ({ p with prog := next !out.fin }, out.finish, back)
  | .read place next =>
    back.front.map fun got =>
      (⟨next (got.map (·.2)), p.seen ++ (got.map fun item => (item.1, place)).toList⟩,
        out, back.pop)

structure State (π φ ε α β : Type) where
  left : Party π φ ε α
  right : Party π φ ε β
  toRight : Channel π φ := {}
  toLeft : Channel π φ := {}

inductive Step : State π φ ε α β → State π φ ε α β → Prop
  | left (h : s.left.step s.toRight s.toLeft = some (p, out, back)) :
    Step s { s with left := p, toRight := out, toLeft := back }
  | right (h : s.right.step s.toLeft s.toRight = some (p, out, back)) :
    Step s { s with right := p, toLeft := out, toRight := back }

variable {p p' : Party π φ ε α} {q q' : Party π φ ε β} {s s' z : State π φ ε α β}
  {out out' out'' back back' back'' : Channel π φ}

theorem Party.step_cases (p : Party π φ ε α) :
    (∀ out back, p.step out back = none) ∨
    (∃ (next : Bool → Party π φ ε α) (f : Channel π φ → Channel π φ), Channel.Extends f ∧
      ∀ out back, p.step out back = some (next out.fin, f out, back)) ∨
    ∃ next : Option (π × φ) → Party π φ ε α,
      ∀ out back, p.step out back = back.front.map fun got => (next got, out, back.pop) := by
  unfold Party.step
  cases p.prog with
  | done result => exact .inl fun _ _ => rfl
  | write place frame next =>
    refine .inr (.inl ⟨fun fin => { p with prog := next !fin }, _, .push (place, frame), ?_⟩)
    exact fun _ _ => rfl
  | finish next =>
    refine .inr (.inl ⟨fun fin => { p with prog := next !fin }, _, .finish, ?_⟩)
    exact fun _ _ => rfl
  | read place next => exact .inr (.inr ⟨_, fun _ _ => rfl⟩)

/-- A step looks at the front of one channel and changes the end of the other,
so two parties can step in either order. -/
theorem Party.commute (hp : p.step out back = some (p', out', back'))
    (hq : q.step back out = some (q', back'', out'')) :
    ∃ x y, p.step out'' back'' = some (p', x, y) ∧ q.step back' out' = some (q', y, x) := by
  rcases p.step_cases with hdone | ⟨next, f, hf, hstep⟩ | ⟨next, hstep⟩
  · simp [hdone] at hp
  · rw [hstep] at hp
    cases hp
    rcases q.step_cases with hdone' | ⟨next', f', hf', hstep'⟩ | ⟨next', hstep'⟩
    · simp [hdone'] at hq
    · rw [hstep'] at hq
      cases hq
      exact ⟨_, _, hstep _ _, hstep' _ _⟩
    · rw [hstep', Option.map_eq_some_iff] at hq
      obtain ⟨got, hfront, hq⟩ := hq
      cases hq
      refine ⟨_, _, hstep _ _, ?_⟩
      rw [hstep', hf.front hfront, hf.pop hfront]
      rfl
  · rw [hstep, Option.map_eq_some_iff] at hp
    obtain ⟨got, hfront, hp⟩ := hp
    cases hp
    rcases q.step_cases with hdone' | ⟨next', f', hf', hstep'⟩ | ⟨next', hstep'⟩
    · simp [hdone'] at hq
    · rw [hstep'] at hq
      cases hq
      refine ⟨_, _, ?_, hstep' _ _⟩
      rw [hstep, hf'.front hfront, hf'.pop hfront]
      rfl
    · rw [hstep', Option.map_eq_some_iff] at hq
      obtain ⟨got', hfront', hq⟩ := hq
      cases hq
      refine ⟨out.pop, back.pop, ?_, ?_⟩
      · rw [hstep, hfront]
        rfl
      · rw [hstep', hfront']
        rfl

theorem diamond : Diamond (Step (π := π) (φ := φ) (ε := ε) (α := α) (β := β)) := by
  intro s a b ha hb
  cases ha with
  | left h =>
    cases hb with
    | left h' =>
      cases h.symm.trans h'
      exact .inl rfl
    | right h' =>
      obtain ⟨x, y, hx, hy⟩ := Party.commute h h'
      exact .inr ⟨_, .right hy, .left hx⟩
  | right h =>
    cases hb with
    | left h' =>
      obtain ⟨x, y, hx, hy⟩ := Party.commute h' h
      exact .inr ⟨_, .left hx, .right hy⟩
    | right h' =>
      cases h.symm.trans h'
      exact .inl rfl

-- ---------------------------------------------------------------------------
-- Every run
-- ---------------------------------------------------------------------------

def SamePlaces (seen : List (π × π)) : Prop := ∀ pair ∈ seen, pair.1 = pair.2

theorem samePlaces_nil : SamePlaces ([] : List (π × π)) := by
  intro pair hpair
  cases hpair

theorem SamePlaces.snoc (h : SamePlaces seen) (place : π) :
    SamePlaces (seen ++ [(place, place)]) := by
  intro pair hpair
  rcases List.mem_append.mp hpair with hpair | hpair
  · exact h pair hpair
  · rw [List.mem_singleton.mp hpair]

namespace State

def Finished (s : State π φ ε α β) : Prop :=
  (∃ a, s.left.prog = .done (.ok a)) ∧ ∃ b, s.right.prog = .done (.ok b)

def Failed (s : State π φ ε α β) : Prop :=
  (∃ e, s.left.prog = .done (.error e)) ∨ ∃ e, s.right.prog = .done (.error e)

def Matched (s : State π φ ε α β) : Prop := SamePlaces s.left.seen ∧ SamePlaces s.right.seen

def Drained (fin : Bool) (s : State π φ ε α β) : Prop :=
  s.toRight = { queue := [], fin } ∧ s.toLeft = { queue := [], fin }

/-- Whatever the order of the steps: there are only so many of them; as long as
no party has failed, one of them can go on or both have returned; every frame is
read at the place it was written for; and when both have returned, none is left
unread. -/
structure Orderly (fin : Bool) (s : State π φ ε α β) : Prop where
  bounded : ∃ n, ∀ m c, Steps Step m s c → m ≤ n
  progress : ∀ m c, Steps Step m s c → (∃ c', Step c c') ∨ c.Finished ∨ c.Failed
  matched : ∀ m c, Steps Step m s c → c.Matched
  drained : ∀ m c, Steps Step m s c → c.Finished → c.Drained fin

def Succeeds (s : State π φ ε α β) : Prop := ∀ m c, Steps Step m s c → ¬c.Failed

def Stopped (s : State π φ ε α β) : Prop := ∀ c, ¬Step s c

theorem stopped_of_none (hleft : s.left.step s.toRight s.toLeft = none)
    (hright : s.right.step s.toLeft s.toRight = none) : s.Stopped := by
  intro c hc
  cases hc with
  | left h => simp [hleft] at h
  | right h => simp [hright] at h

theorem Finished.stopped (h : s.Finished) : s.Stopped := by
  obtain ⟨⟨a, ha⟩, b, hb⟩ := h
  exact stopped_of_none (by simp [Party.step, ha]) (by simp [Party.step, hb])

theorem Finished.not_failed (h : s.Finished) : ¬s.Failed := by
  obtain ⟨⟨a, ha⟩, b, hb⟩ := h
  simp [Failed, ha, hb]

end State

theorem Party.seen_step (h : p.step out back = some (p', out', back')) : p.seen <+: p'.seen := by
  unfold Party.step at h
  cases hprog : p.prog with
  | done result => simp [hprog] at h
  | write place frame next =>
    simp only [hprog, Option.some.injEq, Prod.mk.injEq] at h
    rw [← h.1]
  | finish next =>
    simp only [hprog, Option.some.injEq, Prod.mk.injEq] at h
    rw [← h.1]
  | read place next =>
    simp only [hprog, Option.map_eq_some_iff, Prod.mk.injEq] at h
    obtain ⟨got, -, rfl, -⟩ := h
    exact List.prefix_append ..

theorem Step.matched (h : Step s s') (hm : s'.Matched) : s.Matched := by
  cases h with
  | left h => exact ⟨fun pair hpair => hm.1 pair ((Party.seen_step h).subset hpair), hm.2⟩
  | right h => exact ⟨hm.1, fun pair hpair => hm.2 pair ((Party.seen_step h).subset hpair)⟩

theorem Step.failed (h : Step s s') (hf : s.Failed) : s'.Failed := by
  cases h with
  | left h =>
    rcases hf with ⟨e, he⟩ | hf
    · simp [Party.step, he] at h
    · exact .inr hf
  | right h =>
    rcases hf with hf | ⟨e, he⟩
    · exact .inl hf
    · simp [Party.step, he] at h

theorem Steps.matched (h : Steps Step n s z) (hm : z.Matched) : s.Matched := by
  induction h with
  | refl => exact hm
  | head hstep _ ih => exact hstep.matched (ih hm)

theorem Steps.failed (h : Steps Step n s z) (hf : s.Failed) : z.Failed := by
  induction h with
  | refl => exact hf
  | head hstep _ ih => exact ih (hstep.failed hf)

def Ends (P : State π φ ε α β → Prop) (s : State π φ ε α β) : Prop := ∃ n z, Steps Step n s z ∧ P z

theorem Ends.after {P : State π φ ε α β → Prop} (h' : Ends P s') (h : Steps Step n s s') :
    Ends P s := by
  obtain ⟨m, z, hz, hp⟩ := h'
  exact ⟨n + m, z, h.trans hz, hp⟩

theorem Ends.now {P : State π φ ε α β → Prop} (h : P s) : Ends P s := ⟨0, s, .refl s, h⟩

structure State.Done (fin : Bool) (z : State π φ ε α β) : Prop where
  finished : z.Finished
  drained : z.Drained fin
  matched : z.Matched

structure State.Broken (z : State π φ ε α β) : Prop where
  failed : z.Failed
  stopped : z.Stopped
  matched : z.Matched

theorem State.broken_left (hseen : SamePlaces seen) (hseen' : SamePlaces seen') :
    State.Broken
      (⟨⟨.done (.error e), seen⟩, ⟨.read place next, seen'⟩, {}, {}⟩ : State π φ ε α β) where
  failed := .inl ⟨e, rfl⟩
  stopped := stopped_of_none rfl rfl
  matched := ⟨hseen, hseen'⟩

theorem State.broken_right (hseen : SamePlaces seen) (hseen' : SamePlaces seen') :
    State.Broken
      (⟨⟨.read place next, seen⟩, ⟨.done (.error e), seen'⟩, {}, {}⟩ : State π φ ε α β) where
  failed := .inr ⟨e, rfl⟩
  stopped := stopped_of_none rfl rfl
  matched := ⟨hseen, hseen'⟩

/-- One run decides about all of them. -/
theorem orderly_of_run (h : Steps Step n s z) (hz : z.Done fin ∨ z.Broken) : s.Orderly fin := by
  have hstopped : z.Stopped := hz.elim (·.finished.stopped) (·.stopped)
  have hmatched : z.Matched := hz.elim (·.matched) (·.matched)
  have hrest : ∀ m c, Steps Step m s c → ∃ k, n = m + k ∧ Steps Step k c z :=
    fun m c hc => h.rest diamond hstopped hc
  constructor
  · refine ⟨n, fun m c hc => ?_⟩
    obtain ⟨k, rfl, -⟩ := hrest m c hc
    exact Nat.le_add_right m k
  · intro m c hc
    obtain ⟨k, -, hk⟩ := hrest m c hc
    rcases hk.progress with rfl | hstep
    · exact .inr (hz.imp (·.finished) (·.failed))
    · exact .inl hstep
  · intro m c hc
    obtain ⟨k, -, hk⟩ := hrest m c hc
    exact hk.matched hmatched
  · intro m c hc hfinished
    obtain ⟨k, -, hk⟩ := hrest m c hc
    rcases hk.progress with rfl | ⟨c', hstep⟩
    · rcases hz with hdone | hbroken
      · exact hdone.drained
      · exact absurd hbroken.failed hfinished.not_failed
    · exact absurd hstep (hfinished.stopped c')

/-- A run that ends as `granted` decides speaks for all runs. -/
theorem Ends.decides {granted : Prop}
    (h : Ends (fun z => granted ∧ z.Done fin ∨ ¬granted ∧ z.Broken) s) :
    s.Orderly fin ∧ (granted → s.Succeeds) := by
  obtain ⟨n, z, hrun, hz⟩ := h
  refine ⟨orderly_of_run hrun (hz.imp And.right And.right), ?_⟩
  intro hgranted m c hc hfailed
  rcases hz with ⟨-, hdone⟩ | ⟨hno, -⟩
  · obtain ⟨k, -, hk⟩ := hrun.rest diamond hdone.finished.stopped hc
    exact hdone.finished.not_failed (hk.failed hfailed)
  · exact hno hgranted

-- ---------------------------------------------------------------------------
-- Moves of a run
-- ---------------------------------------------------------------------------

section

variable {place place' : π} {frame : φ} {next : Bool → Prog π φ ε α} {next' : Bool → Prog π φ ε β}
  {onRead : Option φ → Prog π φ ε α} {onRead' : Option φ → Prog π φ ε β} {seen seen' : List (π × π)}

theorem left_to_right :
    Steps Step 2
      (⟨⟨.write place frame next, seen⟩, ⟨.read place' onRead', seen'⟩, {}, back⟩ : State π φ ε α β)
      ⟨⟨next true, seen⟩, ⟨onRead' (some frame), seen' ++ [(place, place')]⟩, {}, back⟩ :=
  .head (.left rfl) (.single (.right rfl))

theorem right_to_left :
    Steps Step 2
      (⟨⟨.read place' onRead, seen⟩, ⟨.write place frame next', seen'⟩, out, {}⟩ : State π φ ε α β)
      ⟨⟨onRead (some frame), seen ++ [(place, place')]⟩, ⟨next' true, seen'⟩, out, {}⟩ :=
  .head (.right rfl) (.single (.left rfl))

theorem both_finish {afterFinish : Bool → Prog π φ ε α} {afterFinish' : Bool → Prog π φ ε β}
    (h : afterFinish true = .read place onRead) (h' : afterFinish' true = .read place' onRead') :
    Steps Step 4
      (⟨⟨.finish afterFinish, seen⟩, ⟨.finish afterFinish', seen'⟩, {}, {}⟩ : State π φ ε α β)
      ⟨⟨onRead none, seen⟩, ⟨onRead' none, seen'⟩, { fin := true }, { fin := true }⟩ := by
  refine .head (.left rfl) (.head (.right rfl) ?_)
  simp only [Bool.not_false, h, h']
  refine .head (.left rfl) (.head (.right rfl) ?_)
  simp only [Option.map_none, Option.toList_none, List.append_nil]
  exact .refl _

end

end Dialogue
