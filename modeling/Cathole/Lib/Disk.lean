import Cathole.Lib.Table

/-!
# Writing new files

A `Job` works on a disk and may fail; what it has written until then stays. Here
are the two operations that only ever add to a disk: making a directory and
writing a file that has to be new. The system may refuse either of them, and it may
stop a write after any number of bytes.

`Grows` says what jobs made of these operations do: everything that was there
stays as it is, and what is new is known.
-/

inductive Entry
  | directory
  -- The mode the file was made with, on a system that has one.
  | file (mode : Option Nat) (bytes : List UInt8)
  deriving DecidableEq, Repr

abbrev Disk (κ : Type) := Table κ Entry

def Job (κ ε α : Type) := Disk κ → Except ε α × Disk κ

inductive Permit
  | refuse
  -- `write_all` fails after this many bytes.
  | cut (written : Nat)
  | grant
  deriving DecidableEq, Repr

namespace Job

variable {κ ε α β : Type} {d d' : Disk κ}

def bind (x : Job κ ε α) (f : α → Job κ ε β) : Job κ ε β := fun d =>
  match x d with
  | (.ok a, d') => f a d'
  | (.error e, d') => (.error e, d')

instance : Monad (Job κ ε) where
  pure a := fun d => (.ok a, d)
  bind := bind

/-- A computation that does not look at the disk. -/
def lift (x : Except ε α) : Job κ ε α := fun d => (x, d)

theorem bind_of_ok {x : Job κ ε α} {f : α → Job κ ε β} (h : x d = (.ok a, d')) :
    (x >>= f) d = f a d' := by
  change bind x f d = _
  rw [bind, h]

theorem bind_of_error {x : Job κ ε α} {f : α → Job κ ε β} (h : x d = (.error e, d')) :
    (x >>= f) d = (.error e, d') := by
  change bind x f d = _
  rw [bind, h]

theorem bind_ok {x : Job κ ε α} {f : α → Job κ ε β} (h : (x >>= f) d = (.ok b, d'')) :
    ∃ a d', x d = (.ok a, d') ∧ f a d' = (.ok b, d'') := by
  rcases hx : x d with ⟨result, d'⟩
  cases result with
  | ok a =>
    rw [bind_of_ok hx] at h
    exact ⟨a, d', rfl, h⟩
  | error e =>
    rw [bind_of_error hx] at h
    cases h

theorem lift_ok {x : Except ε α} (h : (lift x : Job κ ε α) d = (.ok a, d')) :
    x = .ok a ∧ d' = d := by
  cases h
  exact ⟨rfl, rfl⟩

variable [DecidableEq κ]

def createDir (fault : ε) (granted : Bool) (k : κ) : Job κ ε Unit := fun d =>
  if granted ∧ k ∉ d then (.ok (), d.insert k .directory) else (.error fault, d)

/-- A file opened with `create_new`, and `write_all`. -/
def createNew (fault : ε) (permit : Permit) (mode : Option Nat) (k : κ) (bytes : List UInt8) :
    Job κ ε Unit := fun d =>
  if k ∈ d then (.error fault, d)
  else
    match permit with
    | .refuse => (.error fault, d)
    | .cut n => (.error fault, d.insert k (.file mode (bytes.take n)))
    | .grant => (.ok (), d.insert k (.file mode bytes))

theorem createDir_of_mem (fault : ε) (granted : Bool) (h : k ∈ d) :
    createDir fault granted k d = (.error fault, d) :=
  if_neg fun hnew => hnew.2 h

theorem createNew_ok {fault : ε} (h : createNew fault permit mode k bytes d = (.ok u, d')) :
    k ∉ d ∧ d' = d.insert k (.file mode bytes) := by
  unfold createNew at h
  split at h
  · cases h
  · cases permit with
    | grant =>
      cases h
      exact ⟨‹_›, rfl⟩
    | _ => cases h

end Job

-- ---------------------------------------------------------------------------
-- What stays and what is new
-- ---------------------------------------------------------------------------

namespace Disk

variable {κ ε α β : Type} [DecidableEq κ] {d d' d'' : Disk κ} {new : κ → Entry → Prop}

structure Grows (new : κ → Entry → Prop) (d d' : Disk κ) : Prop where
  kept : ∀ k e, d.lookup k = some e → d'.lookup k = some e
  added : ∀ k e, d.lookup k = none → d'.lookup k = some e → new k e

theorem Grows.refl (d : Disk κ) : Grows new d d where
  kept := fun _ _ h => h
  added := fun k e hnone hsome => by
    rw [hnone] at hsome
    cases hsome

theorem Grows.trans (h : Grows new d d') (h' : Grows new d' d'') : Grows new d d'' where
  kept := fun k e hk => h'.kept k e (h.kept k e hk)
  added := by
    intro k e hnone hsome
    cases hmiddle : d'.lookup k with
    | none => exact h'.added k e hmiddle hsome
    | some e' =>
      cases (h'.kept k e' hmiddle).symm.trans hsome
      exact h.added k e hnone hmiddle

theorem Grows.insert (hk : k ∉ d) (hnew : new k e) : Grows new d (d.insert k e) where
  kept := by
    intro k' e' hk'
    have hne : k' ≠ k := by
      rintro rfl
      exact hk (AList.mem_of_lookup hk')
    rwa [AList.lookup_insert_ne hne]
  added := by
    intro k' e' hnone hsome
    rw [AList.lookup_insert_eq] at hsome
    split at hsome
    · rename_i he
      cases he
      cases hsome
      exact hnew
    · rw [hnone] at hsome
      cases hsome

/-- Whether it succeeds or fails. -/
def Adds (new : κ → Entry → Prop) (x : Job κ ε α) : Prop := ∀ d, Grows new d (x d).2

theorem Adds.bind {x : Job κ ε α} {f : α → Job κ ε β} (hx : Adds new x) (hf : ∀ a, Adds new (f a)) :
    Adds new (x >>= f) := by
  intro d
  have hfirst := hx d
  rcases hrun : x d with ⟨result, d'⟩
  rw [hrun] at hfirst
  cases result with
  | ok a =>
    rw [Job.bind_of_ok hrun]
    exact hfirst.trans (hf a d')
  | error e =>
    rw [Job.bind_of_error hrun]
    exact hfirst

theorem adds_lift_bind {x : Except ε α} {f : α → Job κ ε β} (hf : ∀ a, x = .ok a → Adds new (f a)) :
    Adds new (Job.lift x >>= f) := by
  intro d
  cases x with
  | ok a => exact hf a rfl d
  | error e => exact Grows.refl d

theorem adds_createDir (fault : ε) (granted : Bool) (hnew : new k .directory) :
    Adds new (Job.createDir fault granted k) := by
  intro d
  unfold Job.createDir
  split
  · exact Grows.insert ‹_ ∧ _›.2 hnew
  · exact Grows.refl d

theorem adds_createNew (fault : ε) (permit : Permit)
    (hnew : ∀ n, new k (.file mode (bytes.take n))) :
    Adds new (Job.createNew fault permit mode k bytes) := by
  intro d
  unfold Job.createNew
  split
  · exact Grows.refl d
  · cases permit with
    | refuse => exact Grows.refl d
    | cut n => exact Grows.insert ‹_› (hnew n)
    | grant =>
      have hall := hnew bytes.length
      rw [List.take_length] at hall
      exact Grows.insert ‹_› hall

end Disk
