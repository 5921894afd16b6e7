import Mathlib.Tactic

/-!
# Tasks that hold permits

A semaphore together with the tasks its permits were moved into. A task drops its
permit when it is over, whether or not anybody has joined it by then. The tasks
keep their number, and carry a value of their own.
-/

inductive Progress
  | running
  | finished
  | joined
  deriving DecidableEq, Repr

structure Pool (α : Type) where
  permits : Nat
  tasks : List (α × Progress)
  deriving DecidableEq, Repr

namespace Pool

variable {α : Type} {p p' : Pool α} {a : α} {i limit : Nat} {progress : Progress}

def new (limit : Nat) : Pool α where
  permits := limit
  tasks := []

def isRunning (t : α × Progress) : Bool := t.2 = .running

def running (p : Pool α) : Nat := p.tasks.countP isRunning

/-- Try to acquire a permit, and spawn a task with it. -/
def spawn (a : α) (p : Pool α) : Option (Pool α) :=
  if p.permits = 0 then none
  else some { permits := p.permits - 1, tasks := p.tasks ++ [(a, .running)] }

def finish (i : Nat) (p : Pool α) : Pool α :=
  match p.tasks[i]? with
  | some (a, .running) => { permits := p.permits + 1, tasks := p.tasks.set i (a, .finished) }
  | _ => p

def join (i : Nat) (p : Pool α) : Pool α :=
  match p.tasks[i]? with
  | some (a, .finished) => { p with tasks := p.tasks.set i (a, .joined) }
  | _ => p

def update (i : Nat) (f : α → α) (p : Pool α) : Pool α :=
  match p.tasks[i]? with
  | some (a, progress) => { p with tasks := p.tasks.set i (f a, progress) }
  | none => p

def map (f : α → α) (p : Pool α) : Pool α := { p with tasks := p.tasks.map fun t => (f t.1, t.2) }

def idle (p : Pool α) : Bool := p.tasks.all fun t => t.2 = .joined

theorem tasks_update (ht : p.tasks[i]? = some (a, progress)) (f : α → α) :
    (p.update i f).tasks = p.tasks.set i (f a, progress) := by
  simp [update, ht]

theorem update_id (i : Nat) (p : Pool α) : p.update i id = p := by
  unfold update
  split
  · rename_i a progress ht
    obtain ⟨hi, he⟩ := List.getElem?_eq_some_iff.mp ht
    rw [id, ← he, List.set_getElem_self]
  · rfl

theorem tasks_spawn (hs : p.spawn a = some p') : p'.tasks = p.tasks ++ [(a, .running)] := by
  unfold spawn at hs
  split at hs
  · cases hs
  · cases hs
    rfl

theorem mem_update {t : α × Progress} {f : α → α} (ht : t ∈ (p.update i f).tasks) :
    t ∈ p.tasks ∨ ∃ a progress, p.tasks[i]? = some (a, progress) ∧ t = (f a, progress) := by
  unfold update at ht
  split at ht
  · rename_i a progress hget
    rcases List.mem_or_eq_of_mem_set ht with ht | rfl
    · exact .inl ht
    · exact .inr ⟨a, progress, hget, rfl⟩
  · exact .inl ht

def progressOf (i : Nat) (p : Pool α) : Option Progress := p.tasks[i]?.map (·.2)

theorem progressOf_set {t t' : α × Progress} (ht : p.tasks[i]? = some t)
    (htasks : p'.tasks = p.tasks.set i t') (j : Nat) :
    p'.progressOf j = if j = i then some t'.2 else p.progressOf j := by
  unfold progressOf
  rw [htasks]
  split
  · rename_i hij
    subst hij
    rw [List.getElem?_set_self (List.getElem?_eq_some_iff.mp ht).1]
    rfl
  · rename_i hij
    rw [List.getElem?_set_ne (Ne.symm hij)]

theorem progressOf_update (i j : Nat) (f : α → α) : (p.update i f).progressOf j =
    p.progressOf j := by
  cases ht : p.tasks[i]? with
  | none => simp only [update, ht]
  | some t =>
    rw [progressOf_set ht (tasks_update ht f)]
    split
    · rename_i hij
      rw [hij, progressOf, ht]
      rfl
    · rfl

theorem finish_cases (i : Nat) (p : Pool α) : (p.finish i = p ∧ p.progressOf i ≠ some .running) ∨
    ∃ a, p.tasks[i]? = some (a, .running) ∧ (p.finish i).tasks = p.tasks.set i (a, .finished) := by
  unfold finish
  split
  · exact .inr ⟨_, ‹_›, rfl⟩
  · rename_i hno
    refine .inl ⟨rfl, fun hrunning => ?_⟩
    obtain ⟨⟨a, progress⟩, ht, rfl⟩ := Option.map_eq_some_iff.mp hrunning
    exact hno a ht

theorem join_cases (i : Nat) (p : Pool α) : (p.join i = p ∧ p.progressOf i ≠ some .finished) ∨
    ∃ a, p.tasks[i]? = some (a, .finished) ∧ (p.join i).tasks = p.tasks.set i (a, .joined) := by
  unfold join
  split
  · exact .inr ⟨_, ‹_›, rfl⟩
  · rename_i hno
    refine .inl ⟨rfl, fun hfinished => ?_⟩
    obtain ⟨⟨a, progress⟩, ht, rfl⟩ := Option.map_eq_some_iff.mp hfinished
    exact hno a ht

theorem progressOf_finish (i j : Nat) (p : Pool α) :
    (p.finish i).progressOf j =
      if j = i ∧ p.progressOf i = some .running then some .finished else p.progressOf j := by
  obtain ⟨hsame, hno⟩ | ⟨a, ht, htasks⟩ := finish_cases i p
  · rw [hsame, if_neg fun hboth => hno hboth.2]
  · have hrunning : p.progressOf i = some .running := by simp [progressOf, ht]
    simp [progressOf_set ht htasks, hrunning]

theorem progressOf_join (i j : Nat) (p : Pool α) :
    (p.join i).progressOf j =
      if j = i ∧ p.progressOf i = some .finished then some .joined else p.progressOf j := by
  obtain ⟨hsame, hno⟩ | ⟨a, ht, htasks⟩ := join_cases i p
  · rw [hsame, if_neg fun hboth => hno hboth.2]
  · have hfinished : p.progressOf i = some .finished := by simp [progressOf, ht]
    simp [progressOf_set ht htasks, hfinished]

theorem idle_update (hidle : p.idle = true) (i : Nat) (f : α → α) : (p.update i f).idle = true := by
  refine List.all_eq_true.mpr fun t ht => ?_
  obtain ht | ⟨a, progress, hget, rfl⟩ := mem_update ht
  · exact List.all_eq_true.mp hidle t ht
  · exact List.all_eq_true.mp hidle (a, progress) (List.mem_of_getElem? hget)

theorem progressOf_map (f : α → α) (i : Nat) : (p.map f).progressOf i = p.progressOf i := by
  simp [progressOf, map, Function.comp_def]

-- ---------------------------------------------------------------------------
-- No permit is lost
-- ---------------------------------------------------------------------------

def Conserves (limit : Nat) (p : Pool α) : Prop := p.permits + p.running = limit

theorem conserves_new (limit : Nat) : Conserves limit (new limit : Pool α) := rfl

theorem Conserves.running_le (h : Conserves limit p) : p.running ≤ limit :=
  h ▸ Nat.le_add_left p.running p.permits

theorem Conserves.spawn (h : Conserves limit p) (hs : p.spawn a = some p') :
    Conserves limit p' := by
  unfold Pool.spawn at hs
  split at hs
  · cases hs
  · cases hs
    unfold Conserves running at h ⊢
    have hone : List.countP isRunning [(a, Progress.running)] = 1 := rfl
    rw [List.countP_append, hone]
    dsimp only
    omega

/-- A permit is refused exactly if as many tasks run as there are permits. -/
theorem Conserves.spawn_none (h : Conserves limit p) : p.spawn a = none ↔ p.running = limit := by
  unfold Conserves at h
  unfold Pool.spawn
  split
  · simp only [true_iff]
    omega
  · simp only [reduceCtorEq, false_iff]
    omega

theorem countP_set_of {tasks : List (α × Progress)} {q : α × Progress → Bool} {t : α × Progress}
    (ht : tasks[i]? = some t) (t' : α × Progress) :
    (tasks.set i t').countP q +
    (if q t then 1 else 0) = tasks.countP q + if q t' then 1 else 0 := by
  obtain ⟨hi, rfl⟩ := List.getElem?_eq_some_iff.mp ht
  have hpos : (if q tasks[i] then 1 else 0) ≤ tasks.countP q := by
    split
    · exact List.countP_pos_iff.mpr ⟨_, List.getElem_mem hi, ‹_›⟩
    · exact Nat.zero_le _
  rw [List.countP_set hi]
  omega

theorem Conserves.finish (h : Conserves limit p) (i : Nat) : Conserves limit (p.finish i) := by
  unfold Pool.finish
  split
  · rename_i a ht
    have hcount := countP_set_of (q := isRunning) ht (a, .finished)
    unfold Conserves running at h ⊢
    simp [isRunning] at hcount h ⊢
    omega
  · exact h

theorem Conserves.join (h : Conserves limit p) (i : Nat) : Conserves limit (p.join i) := by
  unfold Pool.join
  split
  · rename_i a ht
    have hcount := countP_set_of (q := isRunning) ht (a, .joined)
    unfold Conserves running at h ⊢
    simp [isRunning] at hcount h ⊢
    omega
  · exact h

theorem Conserves.update (h : Conserves limit p) (i : Nat) (f : α → α) :
    Conserves limit (p.update i f) := by
  unfold Pool.update
  split
  · rename_i a progress ht
    have hcount := countP_set_of (q := isRunning) ht (f a, progress)
    have hsame : isRunning (f a, progress) = isRunning (a, progress) := rfl
    unfold Conserves running at h ⊢
    rw [hsame] at hcount
    dsimp only
    omega
  · exact h

theorem Conserves.map (h : Conserves limit p) (f : α → α) : Conserves limit (p.map f) := by
  have hrunning : (p.map f).running = p.running := List.countP_map
  unfold Conserves at h ⊢
  rw [hrunning]
  exact h

theorem Conserves.idle (h : Conserves limit p) (hidle : p.idle = true) : p.permits = limit := by
  have hnone : p.running = 0 := by
    refine List.countP_eq_zero.mpr fun t ht hrunning => ?_
    have hjoined := List.all_eq_true.mp hidle t ht
    simp_all [isRunning]
  unfold Conserves at h
  omega

end Pool
