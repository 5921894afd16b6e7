import Mathlib.Data.Finset.Insert
import Mathlib.Tactic

/-!
# Resources and their owners

Owners take resources out of a common table and give them back. `Owned` says that
the table knows exactly what is held, and that nothing is held twice. It is kept by
every `Trade` of one owner, as an owner takes only what the table has free.
-/

structure Owned {ι κ : Type} (held : ι → List κ) (taken : Finset κ) : Prop where
  taken_iff : ∀ k, k ∈ taken ↔ ∃ i, k ∈ held i
  apart : ∀ i j k, k ∈ held i → k ∈ held j → i = j
  nodup : ∀ i, (held i).Nodup

/-- What an owner may do. -/
inductive Trade {κ : Type} [DecidableEq κ] (l : List κ) (taken : Finset κ) :
    List κ → Finset κ → Prop
  | same : Trade l taken l taken
  | took (hfree : k ∉ taken) : Trade l taken (l ++ [k]) (insert k taken)
  | gave (hperm : (k :: l').Perm l) : Trade l taken l' (taken.erase k)

namespace Owned

variable {ι κ : Type} {held : ι → List κ} {taken taken' : Finset κ} {l' : List κ} {i : ι}

theorem empty : Owned (fun _ : ι => ([] : List κ)) ∅ := ⟨by simp, by simp, by simp⟩

theorem taken_empty (h : Owned held taken) (hnil : ∀ i, held i = []) : taken = ∅ := by
  refine Finset.eq_empty_iff_forall_notMem.mpr fun k hk => ?_
  obtain ⟨i, hi⟩ := (h.taken_iff k).mp hk
  rw [hnil i] at hi
  cases hi

theorem mem_taken (h : Owned held taken) (i : ι) (k : κ) :
    k ∈ taken ↔ k ∈ held i ∨ ∃ j, j ≠ i ∧ k ∈ held j := by
  rw [h.taken_iff]
  constructor
  · rintro ⟨j, hk⟩
    by_cases hj : j = i
    · exact .inl (hj ▸ hk)
    · exact .inr ⟨j, hj, hk⟩
  · rintro (hk | ⟨j, -, hk⟩)
    · exact ⟨i, hk⟩
    · exact ⟨j, hk⟩

variable [DecidableEq κ] (h : Owned held taken) (ht : Trade (held i) taken l' taken')
include h ht

/-- Nobody else holds what the owner holds afterwards. -/
theorem trade_clear (hj : j ≠ i) (hk : k ∈ held j) : k ∉ l' := by
  intro hk'
  cases ht with
  | same => exact hj (h.apart j i k hk hk')
  | took hfree =>
    rcases List.mem_append.mp hk' with hk' | hk'
    · exact hj (h.apart j i k hk hk')
    · cases List.mem_singleton.mp hk'
      exact hfree ((h.taken_iff _).mpr ⟨j, hk⟩)
  | gave hperm => exact hj (h.apart j i k hk (hperm.subset (List.mem_cons_of_mem _ hk')))

theorem trade_nodup : l'.Nodup := by
  cases ht with
  | same => exact h.nodup i
  | took hfree =>
    refine List.Nodup.append (h.nodup i) (List.nodup_singleton _) fun k hk hk' => ?_
    cases List.mem_singleton.mp hk'
    exact hfree ((h.taken_iff _).mpr ⟨i, hk⟩)
  | gave hperm => exact (List.nodup_cons.mp (hperm.nodup_iff.mpr (h.nodup i))).2

theorem trade_taken (k : κ) : k ∈ taken' ↔ k ∈ l' ∨ ∃ j, j ≠ i ∧ k ∈ held j := by
  have hbefore := h.mem_taken i k
  cases ht with
  | same => exact hbefore
  | took hfree =>
    rw [Finset.mem_insert, hbefore, List.mem_append, List.mem_singleton]
    exact or_left_comm.trans or_assoc.symm
  | @gave freed _ hperm =>
    rw [Finset.mem_erase, hbefore, ← hperm.mem_iff, List.mem_cons]
    by_cases hfreed : k = freed
    · subst hfreed
      refine ⟨fun hne => absurd rfl hne.1, ?_⟩
      rintro (hk | ⟨j, hj, hk⟩)
      · exact absurd hk (List.nodup_cons.mp (hperm.nodup_iff.mpr (h.nodup i))).1
      · exact absurd (h.apart j i k hk (hperm.subset List.mem_cons_self)) hj
    · simp [hfreed]

theorem trade [DecidableEq ι] : Owned (Function.update held i l') taken' := by
  have hself : Function.update held i l' i = l' := Function.update_self ..
  have hother : ∀ j, j ≠ i → Function.update held i l' j = held j := fun j hj =>
    Function.update_of_ne hj ..
  refine ⟨fun k => ?_, fun j j' k hk hk' => ?_, fun j => ?_⟩
  · rw [h.trade_taken ht]
    constructor
    · rintro (hk | ⟨j, hj, hk⟩)
      · exact ⟨i, hself.symm ▸ hk⟩
      · exact ⟨j, (hother j hj).symm ▸ hk⟩
    · rintro ⟨j, hk⟩
      by_cases hj : j = i
      · subst hj
        exact .inl (hself ▸ hk)
      · exact .inr ⟨j, hj, hother j hj ▸ hk⟩
  · by_cases hj : j = i
    · by_cases hj' : j' = i
      · rw [hj, hj']
      · rw [hj, hself] at hk
        rw [hother j' hj'] at hk'
        exact absurd hk (h.trade_clear ht hj' hk')
    · rw [hother j hj] at hk
      by_cases hj' : j' = i
      · rw [hj', hself] at hk'
        exact absurd hk' (h.trade_clear ht hj hk)
      · rw [hother j' hj'] at hk'
        exact h.apart j j' k hk hk'
  · by_cases hj : j = i
    · rw [hj, hself]
      exact h.trade_nodup ht
    · rw [hother j hj]
      exact h.nodup j

end Owned
