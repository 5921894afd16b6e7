import Cathole.Lib.Dialogue

/-!
# Dialogues that are given up

A party may give up at any time. It finishes its channel and reads no more, so the
other party comes to the end of the frames under way, and its writes fail. A
program is `Strict` if it fails as soon as it notices that.

Of two strict parties, one that returns in spite of all returns what it returns in
a run that nobody gives up: but for the parties that have failed, a disturbed run
looks like an undisturbed one (`Covered`).
-/

namespace Dialogue

variable {π φ ε α β : Type}

/-- The program fails at a closed channel and at the end of the frames. -/
inductive Strict : Prog π φ ε α → Prop
  | done (result : Except ε α) : Strict (.done result)
  | write (hclosed : ∃ e, next false = .done (.error e)) (hopen : Strict (next true)) :
    Strict (.write place frame next)
  | read (hend : ∃ e, next none = .done (.error e)) (hframe : ∀ frame, Strict (next (some frame))) :
    Strict (.read place next)

theorem Strict.bind {p : Prog π φ ε α} {f : α → Prog π φ ε β} (h : Strict p)
    (hf : ∀ a, Strict (f a)) :
    Strict (p >>= f) := by
  induction h with
  | done result =>
    cases result with
    | error e => exact .done (.error e)
    | ok a => exact hf a
  | write hclosed _ ih =>
    obtain ⟨e, hclosed⟩ := hclosed
    rw [Prog.write_bind]
    refine .write ⟨e, ?_⟩ ih
    rw [hclosed]
    rfl
  | read hend _ ih =>
    obtain ⟨e, hend⟩ := hend
    rw [Prog.read_bind]
    refine .read ⟨e, ?_⟩ ih
    rw [hend]
    rfl

def Party.Failed (p : Party π φ ε α) : Prop := ∃ e, p.prog = .done (.error e)

namespace State

variable (e : ε) (s : State π φ ε α β)

def leaveLeft : State π φ ε α β :=
  { s with
    left := { s.left with prog := .done (.error e) }
    toRight := s.toRight.finish
    toLeft := { fin := true } }

def leaveRight : State π φ ε α β :=
  { s with
    right := { s.right with prog := .done (.error e) }
    toLeft := s.toLeft.finish
    toRight := { fin := true } }

def swap : State π φ ε β α where
  left := s.right
  right := s.left
  toRight := s.toLeft
  toLeft := s.toRight

end State

inductive Disturbed : State π φ ε α β → State π φ ε α β → Prop
  | step (h : Step s s') : Disturbed s s'
  | left (e : ε) : Disturbed s (s.leaveLeft e)
  | right (e : ε) : Disturbed s (s.leaveRight e)

/-- An undisturbed state that a disturbed one looks like: a party that has not
failed is where it is in the other state, and finds the same frames. -/
structure Covered (c t : State π φ ε α β) : Prop where
  left : t.left = c.left ∨ t.left.Failed
  right : t.right = c.right ∨ t.right.Failed
  toRight : t.right.Failed ∨ t.toRight.queue = c.toRight.queue
  toLeft : t.left.Failed ∨ t.toLeft.queue = c.toLeft.queue
  strict : Strict c.left.prog ∧ Strict c.right.prog
  isOpen : c.toRight.fin = false ∧ c.toLeft.fin = false

variable {s s' c t t' z : State π φ ε α β}

theorem Covered.swap (h : Covered c t) : Covered c.swap t.swap :=
  ⟨h.right, h.left, h.toLeft, h.toRight, h.strict.symm, h.isOpen.symm⟩

theorem Step.swap (h : Step s s') : Step s.swap s'.swap := by
  cases h with
  | left h => exact .right h
  | right h => exact .left h

theorem not_failed_of_step {p p' : Party π φ ε α} {out back out' back' : Channel π φ}
    (h : p.step out back = some (p', out', back')) : ¬p.Failed := by
  rintro ⟨e, he⟩
  simp [Party.step, he] at h

theorem Covered.left_fails (h : Covered c t) (hfailed : p.Failed)
    (hout : out.queue = t.toRight.queue) :
    Covered c { t with left := p, toRight := out, toLeft := back } :=
  ⟨.inr hfailed, h.right, h.toRight.imp id fun hsame => hout.trans hsame, .inl hfailed,
    h.strict, h.isOpen⟩

theorem Covered.left_write (h : Covered c t) (hqueue : t.toLeft.queue = c.toLeft.queue)
    (hprog : c.left.prog = .write place frame next) :
    ∃ c', (c' = c ∨ Step c c') ∧
      Covered c'
        { t with
          left := { c.left with prog := next !t.toRight.fin }
          toRight := t.toRight.push (place, frame) } := by
  have hstrict := h.strict.1
  rw [hprog] at hstrict
  cases hstrict with
  | write hclosed hopen =>
    obtain ⟨e, hclosed⟩ := hclosed
    by_cases hfin : t.toRight.fin = true
    · refine ⟨c, .inl rfl, h.left_fails ⟨e, ?_⟩ ?_⟩
      · simpa [hfin] using hclosed
      · simp [Channel.push, hfin]
    · have hc : c.left.step c.toRight c.toLeft =
          some ({ c.left with prog := next true }, c.toRight.push (place, frame), c.toLeft) := by
        simp [Party.step, hprog, h.isOpen.1]
      refine ⟨_, .inr (.left hc), .inl ?_, h.right, h.toRight.imp id fun hsame => ?_, .inr hqueue,
        ⟨hopen, h.strict.2⟩, ?_, h.isOpen.2⟩
      · simp [hfin]
      · simp [Channel.push, hfin, h.isOpen.1, hsame]
      · simp [Channel.push, h.isOpen.1]

theorem Covered.left_read (h : Covered c t) (hqueue : t.toLeft.queue = c.toLeft.queue)
    (hprog : c.left.prog = .read place next) (hfront : t.toLeft.front = some got) :
    ∃ c', (c' = c ∨ Step c c') ∧
      Covered c'
        { t with
          left := ⟨next (got.map (·.2)), c.left.seen ++
            (got.map fun item => (item.1, place)).toList⟩
          toLeft := t.toLeft.pop } := by
  have hstrict := h.strict.1
  rw [hprog] at hstrict
  cases hstrict with
  | read hend hframe =>
    obtain ⟨e, hend⟩ := hend
    unfold Channel.front at hfront
    cases hitems : t.toLeft.queue with
    | nil =>
      have hnone : got = none := by
        rw [hitems] at hfront
        dsimp only at hfront
        split at hfront
        · exact (Option.some.inj hfront).symm
        · cases hfront
      subst hnone
      exact ⟨c, .inl rfl, h.left_fails ⟨e, hend⟩ rfl⟩
    | cons item rest =>
      have hgot : got = some item := by
        rw [hitems] at hfront
        exact (Option.some.inj hfront).symm
      subst hgot
      have hc : c.left.step c.toRight c.toLeft =
          some (⟨next (some item.2), c.left.seen ++ [(item.1, place)]⟩, c.toRight,
            c.toLeft.pop) := by
        simp [Party.step, hprog, Channel.front, ← hqueue, hitems]
      refine ⟨_, .inr (.left hc), .inl ?_, h.right, h.toRight, .inr ?_, ⟨hframe _, h.strict.2⟩,
        h.isOpen.1, h.isOpen.2⟩
      · simp
      · simp [Channel.pop, hqueue]

theorem Covered.left_step (h : Covered c t)
    (hp : t.left.step t.toRight t.toLeft = some (p, out, back)) :
    ∃ c', (c' = c ∨ Step c c') ∧
      Covered c' { t with left := p, toRight := out, toLeft := back } := by
  have halive := not_failed_of_step hp
  have hleft : t.left = c.left := h.left.resolve_right halive
  have hqueue : t.toLeft.queue = c.toLeft.queue := h.toLeft.resolve_left halive
  unfold Party.step at hp
  rw [hleft] at hp
  cases hprog : c.left.prog with
  | done result => simp [hprog] at hp
  | finish next =>
    have hstrict := h.strict.1
    rw [hprog] at hstrict
    cases hstrict
  | write place frame next =>
    simp only [hprog, Option.some.injEq, Prod.mk.injEq] at hp
    obtain ⟨rfl, rfl, rfl⟩ := hp
    exact h.left_write hqueue hprog
  | read place next =>
    simp only [hprog, Option.map_eq_some_iff, Prod.mk.injEq] at hp
    obtain ⟨got, hfront, rfl, rfl, rfl⟩ := hp
    exact h.left_read hqueue hprog hfront

theorem Covered.leaveLeft (h : Covered c t) (e : ε) : Covered c (t.leaveLeft e) :=
  ⟨.inr ⟨e, rfl⟩, h.right, h.toRight, .inl ⟨e, rfl⟩, h.strict, h.isOpen⟩

theorem Covered.disturbed (h : Covered c t) (hd : Disturbed t t') :
    ∃ c', (c' = c ∨ Step c c') ∧ Covered c' t' := by
  cases hd with
  | step hstep =>
    cases hstep with
    | left hp => exact h.left_step hp
    | right hp =>
      obtain ⟨c', hc', hcovered⟩ := h.swap.left_step hp
      exact ⟨c'.swap, hc'.imp (congrArg State.swap) Step.swap, hcovered.swap⟩
  | left e => exact ⟨c, .inl rfl, h.leaveLeft e⟩
  | right e => exact ⟨c, .inl rfl, (h.swap.leaveLeft e).swap⟩

-- ---------------------------------------------------------------------------
-- What a party returns
-- ---------------------------------------------------------------------------

/-- A run that comes to an end has no loops. -/
theorem Steps.ne_of_step (h : Steps Step n s z) (hz : z.Stopped) (hstep : Step s s') : s' ≠ s := by
  rintro rfl
  induction n with
  | zero =>
    cases h
    exact hz _ hstep
  | succ n ih =>
    obtain ⟨k, hk, hrest⟩ := h.tail diamond hz hstep
    cases hk
    exact ih hrest

theorem Steps.left_done (h : Steps Step n s s') (hdone : s.left.prog = .done result) :
    s'.left = s.left := by
  induction h with
  | refl s => rfl
  | head hstep _ ih =>
    cases hstep with
    | left hp => simp [Party.step, hdone] at hp
    | right hp => exact ih hdone

theorem Steps.swap (h : Steps Step n s s') : Steps Step n s.swap s'.swap := by
  induction h with
  | refl s => exact .refl _
  | head hstep _ ih => exact .head hstep.swap ih

/-- If an undisturbed run ends with two results, no other result is returned, and
two parties that return have read all frames. -/
theorem Covered.returns (h : Covered c t) (hc : Steps Step m c z)
    (hleft : z.left.prog = .done (.ok a)) (hright : z.right.prog = .done (.ok b)) :
    (∀ a', t.left.prog = .done (.ok a') → a' = a) ∧ (∀ b', t.right.prog = .done (.ok b') → b' = b) ∧
      ∀ a' b', t.left.prog = .done (.ok a') → t.right.prog = .done (.ok b') →
        t.toRight.queue = z.toRight.queue ∧ t.toLeft.queue = z.toLeft.queue := by
  have hsame : ∀ a', t.left.prog = .done (.ok a') → t.left = c.left := by
    intro a' ha'
    refine h.left.resolve_right ?_
    rintro ⟨e, he⟩
    cases ha'.symm.trans he
  have hsame' : ∀ b', t.right.prog = .done (.ok b') → t.right = c.right := by
    intro b' hb'
    refine h.right.resolve_right ?_
    rintro ⟨e, he⟩
    cases hb'.symm.trans he
  have hdone : ∀ a', t.left.prog = .done (.ok a') → c.left.prog = .done (.ok a') :=
    fun a' ha' => hsame a' ha' ▸ ha'
  have hdone' : ∀ b', t.right.prog = .done (.ok b') → c.right.prog = .done (.ok b') :=
    fun b' hb' => hsame' b' hb' ▸ hb'
  refine ⟨fun a' ha' => ?_, fun b' hb' => ?_, fun a' b' ha' hb' => ?_⟩
  · rw [hc.left_done (hdone a' ha'), hdone a' ha'] at hleft
    cases hleft
    rfl
  · have hlast : z.right = c.right := hc.swap.left_done (hdone' b' hb')
    rw [hlast, hdone' b' hb'] at hright
    cases hright
    rfl
  · -- Both are done, so the undisturbed run is over as well.
    have hstopped : c.Stopped := State.Finished.stopped ⟨⟨a', hdone a' ha'⟩, b', hdone' b' hb'⟩
    cases hc with
    | head hstep _ => exact absurd hstep (hstopped _)
    | refl =>
      refine ⟨h.toRight.resolve_left ?_, h.toLeft.resolve_left ?_⟩
      · rintro ⟨e, he⟩
        cases hb'.symm.trans he
      · rintro ⟨e, he⟩
        cases ha'.symm.trans he

end Dialogue
