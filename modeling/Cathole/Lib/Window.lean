import Mathlib.Tactic

/-!
# Sliding windows over a circular bitmap

A receiver that must refuse repeated sequence numbers keeps the highest number
it has taken and one bit for each of the last `size` numbers, number `x`
sharing the cell `x % size` with every number congruent to it.

`Accepts` is the rule such a receiver implements over the whole history: a set
of numbers already taken, with no window in its storage. `Tracks` relates a
bitmap to that set, and is the invariant of a receiver: it survives marking a
number inside the window (`Tracks.mark`) and sliding to a higher one, by
clearing the cells passed over (`Tracks.slide`) or all of them when everything
taken before is a whole window below (`Tracks.restart`).
-/

namespace Window

variable {size : Nat} {taken : Set Nat} {bit bit' : Nat → Bool} {high n x : Nat}

def Accepts (size : Nat) (taken : Set Nat) (n : Nat) : Prop :=
  n ∉ taken ∧ (taken = ∅ ∨ ∃ high, IsGreatest taken high ∧ (high < n ∨ high - n < size))

/-- Inside the window below `high` the bitmap is the set. -/
def Tracks (size : Nat) (bit : Nat → Bool) (taken : Set Nat) (high : Nat) : Prop :=
  ∀ x, x ≤ high → high - x < size → (bit (x % size) = true ↔ x ∈ taken)

theorem accepts_empty : Accepts size ∅ n := ⟨fun h => h, .inl rfl⟩

theorem accepts_above (h : IsGreatest taken high) (hn : high < n) : Accepts size taken n :=
  ⟨fun hm => absurd (h.2 hm) (by omega), .inr ⟨high, h, .inl hn⟩⟩

theorem accepts_below (h : IsGreatest taken high) (ht : Tracks size bit taken high)
    (hn : n ≤ high) :
    Accepts size taken n ↔ high - n < size ∧ bit (n % size) = false := by
  constructor
  · rintro ⟨hnew, hempty | ⟨high', hg, hrange⟩⟩
    · exact absurd h.1 (by simp [hempty])
    · obtain rfl := hg.unique h
      have hw : high' - n < size := by omega
      refine ⟨hw, ?_⟩
      rw [← Bool.not_eq_true]
      exact fun hb => hnew ((ht n hn hw).mp hb)
  · rintro ⟨hw, hb⟩
    refine ⟨fun hm => ?_, .inr ⟨high, h, .inr hw⟩⟩
    rw [(ht n hn hw).mpr hm] at hb
    exact Bool.noConfusion hb

/-- Two numbers less than a window apart never share a cell. -/
theorem mod_ne_of_near (hlt : x < n) (hnear : n - x < size) : x % size ≠ n % size := by
  intro h
  have hm : x ≡ n [MOD size] := h
  have hdvd : size ∣ n - x := (Nat.modEq_iff_dvd' (by omega)).mp hm
  exact absurd (Nat.le_of_dvd (by omega) hdvd) (by omega)

theorem mod_eq_of_window (hx : x ≤ n) (hw : n - x < size) (h : x % size = n % size) : x = n := by
  by_contra hne
  exact mod_ne_of_near (by omega) hw h

theorem Tracks.mark (ht : Tracks size bit taken high) (hn : n ≤ high) (hnear : high - n < size)
    (hbit : ∀ i < size, bit' i = true ↔ bit i = true ∨ i = n % size) :
    Tracks size bit' (insert n taken) high := by
  intro x hx hw
  rw [hbit _ (Nat.mod_lt x (by omega)), ht x hx hw, Set.mem_insert_iff, or_comm]
  apply or_congr_left
  constructor
  · intro h
    rcases Nat.lt_trichotomy x n with hlt | heq | hgt
    · exact absurd h (mod_ne_of_near hlt (by omega))
    · exact heq
    · exact absurd h.symm (mod_ne_of_near hgt (by omega))
  · exact fun h => congrArg (· % size) h

/-- Sliding up by less than a window: the cells of the numbers passed over
are cleared, so the new window starts empty above the old highest number. -/
theorem Tracks.slide (ht : Tracks size bit taken high) (hg : IsGreatest taken high) (hn : high < n)
    (hbit : ∀ i < size, bit' i = true ↔
      bit i = true ∧ (∀ y, high < y → y ≤ n → y % size ≠ i) ∨ i = n % size) :
    Tracks size bit' (insert n taken) n := by
  intro x hx hw
  rw [hbit _ (Nat.mod_lt x (by omega)), Set.mem_insert_iff, or_comm]
  rcases Nat.lt_or_ge high x with hxh | hxh
  · -- Passed over or `n` itself: never taken before, and its cell was cleared.
    have hnot : x ∉ taken := fun hm => absurd (hg.2 hm) (by omega)
    apply or_congr
    · exact ⟨fun h => mod_eq_of_window hx hw h, fun h => congrArg (· % size) h⟩
    · exact ⟨fun h => absurd rfl (h.2 x hxh hx), fun h => absurd h hnot⟩
  · -- Still in the window: no number passed over shares its cell.
    have hkept : ∀ y, high < y → y ≤ n → y % size ≠ x % size := by
      intro y hy hyn
      exact (mod_ne_of_near (by omega) (by omega)).symm
    apply or_congr
    · exact ⟨fun h => mod_eq_of_window hx hw h, fun h => congrArg (· % size) h⟩
    · rw [ht x hxh (by omega)]
      exact and_iff_left hkept

/-- Starting afresh: everything taken before is a whole window below. -/
theorem Tracks.restart (hold : ∀ x ∈ taken, x + size ≤ n)
    (hbit : ∀ i < size, bit' i = true ↔ i = n % size) :
    Tracks size bit' (insert n taken) n := by
  intro x hx hw
  have hnot : x ∉ taken := fun hm => absurd (hold x hm) (by omega)
  rw [hbit _ (Nat.mod_lt x (by omega)), Set.mem_insert_iff, or_iff_left hnot]
  exact ⟨fun h => mod_eq_of_window hx hw h, fun h => congrArg (· % size) h⟩

end Window
