import Mathlib.Data.List.Perm.Subperm
import Mathlib.Data.List.Forall2
import Mathlib.Tactic

/-!
# Lists matched into lists

`Matched R l l'`: every element of `l` is related to an element of `l'` of its
own. The order of the two lists does not matter, and `l'` may have more.
-/

def Matched {α β : Type} (R : α → β → Prop) (l : List α) (l' : List β) : Prop :=
  ∃ m, List.Forall₂ R l m ∧ m.Subperm l'

namespace Matched

variable {α β : Type} {R S : α → β → Prop} {l l₁ : List α} {l' l'' : List β} {a : α} {b : β}

theorem nil : Matched R [] l' := ⟨[], .nil, List.nil_subperm⟩

theorem mono (h : Matched R l l') (hsub : ∀ a b, R a b → S a b) : Matched S l l' := by
  obtain ⟨m, hm, hm'⟩ := h
  exact ⟨m, hm.imp hsub, hm'⟩

theorem grow (h : Matched R l l') (hsub : l'.Subperm l'') : Matched R l l'' := by
  obtain ⟨m, hm, hm'⟩ := h
  exact ⟨m, hm, hm'.trans hsub⟩

theorem concat (h : Matched R l l') (hab : R a b) : Matched R (l ++ [a]) (l' ++ [b]) := by
  obtain ⟨m, hm, hm'⟩ := h
  exact ⟨m ++ [b], List.rel_append hm (.cons hab .nil), (List.subperm_append_right [b]).mpr hm'⟩

theorem of_sublist {m : List β} (hsub : l₁.Sublist l) (h : List.Forall₂ R l m) :
    ∃ m₁, List.Forall₂ R l₁ m₁ ∧ m₁.Sublist m := by
  induction hsub generalizing m with
  | slnil => exact ⟨[], .nil, List.nil_sublist m⟩
  | cons a _ ih =>
    cases h with
    | cons _ htail =>
      obtain ⟨m₁, hm₁, hsub₁⟩ := ih htail
      exact ⟨m₁, hm₁, hsub₁.trans (List.sublist_cons_self _ _)⟩
  | cons_cons a _ ih =>
    cases h with
    | @cons _ b _ _ hab htail =>
      obtain ⟨m₁, hm₁, hsub₁⟩ := ih htail
      exact ⟨b :: m₁, .cons hab hm₁, hsub₁.cons_cons b⟩

theorem some (h : Matched R l l') (hsub : l₁.Subperm l) : Matched R l₁ l' := by
  obtain ⟨m, hm, hm'⟩ := h
  obtain ⟨l₂, hperm, hsub⟩ := hsub
  obtain ⟨m₂, hm₂, hsub₂⟩ := of_sublist hsub hm
  obtain ⟨m₁, hm₁, hperm₁⟩ := List.perm_comp_forall₂ hperm.symm hm₂
  exact ⟨m₁, hm₁, (hperm₁.subperm.trans hsub₂.subperm).trans hm'⟩

end Matched

theorem List.Forall₂.set {α β : Type} {R : α → β → Prop} {l : List α} {l' : List β} {a : α} {b : β}
    (h : List.Forall₂ R l l') (i : Nat) (hab : R a b) : List.Forall₂ R (l.set i a)
    (l'.set i b) := by
  induction h generalizing i with
  | nil => exact .nil
  | cons hhead htail ih =>
    cases i with
    | zero => exact .cons hab htail
    | succ i => exact .cons hhead (ih i)

theorem List.Forall₂.set_left {α β : Type} {R : α → β → Prop} {l : List α} {l' : List β} {a : α}
    (h : List.Forall₂ R l l') (i : Nat) (hab : ∀ b, l'[i]? = .some b → R a b) :
    List.Forall₂ R (l.set i a) l' := by
  induction h generalizing i with
  | nil => exact .nil
  | cons hhead htail ih =>
    cases i with
    | zero => exact .cons (hab _ rfl) htail
    | succ i => exact .cons hhead (ih i hab)

theorem List.Forall₂.countP_le {α β : Type} {R : α → β → Prop} {l : List α} {l' : List β}
    {p : α → Bool} {q : β → Bool} (h : List.Forall₂ R l l')
    (hpq : ∀ a b, R a b → q b = true → p a = true) :
    l'.countP q ≤ l.countP p := by
  induction h with
  | nil => exact Nat.le_refl _
  | @cons a b l l' hab _ ih =>
    rw [List.countP_cons, List.countP_cons]
    have hone := hpq a b hab
    cases hq : q b with
    | false => simpa using Nat.le_add_right_of_le ih
    | true => simpa [hone hq] using ih

theorem List.count_map_fiber {α κ ν : Type} [DecidableEq κ] [DecidableEq ν] (f : α → κ)
    (g : α → ν) (k : κ) (v : ν) (l : List α) :
    (l.map fun a => (f a, g a)).count (k, v) = ((l.filter fun a => f a = k).map g).count v := by
  induction l with
  | nil => rfl
  | cons a l ih =>
    rw [List.map_cons, List.count_cons, ih]
    by_cases hk : f a = k
    · rw [List.filter_cons_of_pos (by simpa using hk), List.map_cons, List.count_cons]
      simp [hk]
    · rw [List.filter_cons_of_neg (by simpa using hk)]
      simp [hk]

/-- Lists whose values are contained in each other key by key are so as a whole. -/
theorem List.subperm_of_fibers {α β κ ν : Type} [DecidableEq κ] [DecidableEq ν]
    (f : α → κ) (g : α → ν) (f' : β → κ) (g' : β → ν) {l : List α} {l' : List β}
    (h : ∀ k, ((l.filter fun a => f a = k).map g).Subperm ((l'.filter fun b => f' b = k).map g')) :
    (l.map fun a => (f a, g a)).Subperm (l'.map fun b => (f' b, g' b)) := by
  rw [List.subperm_ext_iff]
  rintro ⟨k, v⟩ -
  rw [List.count_map_fiber, List.count_map_fiber]
  exact (h k).count_le v

-- ---------------------------------------------------------------------------
-- Places
-- ---------------------------------------------------------------------------

/-- The elements of `l'` are those at the `places` of `l`, which are distinct. -/
def Picked {α : Type} (places : List Nat) (l l' : List α) : Prop :=
  places.Nodup ∧ places.map (l[·]?) = l'.map some

namespace Picked

variable {α : Type} {places : List Nat} {l l' l'' : List α} {a : α}

theorem nil : Picked [] l [] := ⟨.nil, rfl⟩

theorem grow (h : Picked places l l') (hbegins : l <+: l'') : Picked places l'' l' := by
  obtain ⟨more, rfl⟩ := hbegins
  refine ⟨h.1, Eq.trans (List.map_congr_left fun k hk => ?_) h.2⟩
  have hsome : l[k]? ∈ l'.map some := h.2 ▸ List.mem_map_of_mem hk
  obtain ⟨b, -, hb⟩ := List.mem_map.mp hsome
  rw [List.getElem?_append_left (List.getElem?_eq_some_iff.mp hb.symm).1]

theorem countP_eq [DecidableEq α] (hmap : places.map (l[·]?) = l'.map some) (a : α) :
    places.countP (fun k => l[k]? = some a) = l'.count a := by
  have hcount := congrArg (List.countP fun b => b = some a) hmap
  rw [List.countP_map, List.countP_map] at hcount
  refine hcount.trans (List.countP_congr fun b _ => ?_)
  simp

/-- As long as `l` has enough of everything, the next element finds a place. -/
theorem next [DecidableEq α] (h : Picked places l l') (hsub : (l' ++ [a]).Subperm l) :
    ∃ k, l[k]? = some a ∧ k ∉ places ∧ Picked (places ++ [k]) l (l' ++ [a]) := by
  have hrange : (List.range l.length).map (l[·]?) = l.map some := by
    refine List.ext_getElem? fun i => ?_
    rcases Nat.lt_or_ge i l.length with hi | hi
    · simp [hi]
    · simp [hi]
  obtain ⟨k, hk, hnew⟩ : ∃ k, l[k]? = some a ∧ k ∉ places := by
    by_contra hno
    push Not at hno
    -- Then the places of `a` are all taken, and `l'` has every `a` there is.
    have hle : (List.range l.length).countP (fun k => l[k]? = some a) ≤
        places.countP fun k => l[k]? = some a := by
      rw [List.countP_eq_length_filter, List.countP_eq_length_filter]
      refine (List.subperm_of_subset (List.nodup_range.filter _) fun k hk => ?_).length_le
      simp only [List.mem_filter, decide_eq_true_eq] at hk ⊢
      exact ⟨hno k hk.2, hk.2⟩
    rw [countP_eq hrange, countP_eq h.2] at hle
    have hmore := hsub.count_le a
    rw [List.count_append, List.count_singleton_self] at hmore
    omega
  refine ⟨k, hk, hnew, ?_, ?_⟩
  · rw [List.nodup_append]
    refine ⟨h.1, List.nodup_singleton k, fun x hx y hy hxy => hnew ?_⟩
    rw [List.mem_singleton.mp hy] at hxy
    exact hxy ▸ hx
  · rw [List.map_append, List.map_append, h.2]
    simp [hk]

end Picked
