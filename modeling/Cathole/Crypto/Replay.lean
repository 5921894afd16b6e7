import Cathole.Lib.Window
import Mathlib.Tactic

/-!
# The replay window

`ReplayWindow` of `crypto.rs`: the highest nonce recorded and sixteen 64-bit
words of circular bitmap. Nonces are `u64` in the source; every one that gets
here is below `2 ^ 32`, so no operation on them wraps.

`Refines` ties the window to the set of all nonces recorded so far, by the
general window invariant. The two operations are then exactly the rule over
that set: `acceptable_iff` and `Refines.record`.
-/

namespace Cathole

structure ReplayWindow where
  highest : Option Nat
  seen : Vector (BitVec 64) 16
  deriving DecidableEq

namespace ReplayWindow

def default : ReplayWindow where
  highest := none
  seen := Vector.replicate 16 0

def word (n : Nat) : Fin 16 := ⟨n % 1024 / 64, by omega⟩

def mask (n : Nat) : BitVec 64 := 1#64 <<< (n % 64)

def acceptable (w : ReplayWindow) (n : Nat) : Bool :=
  match w.highest with
  | none => true
  | some h =>
    if n > h then true
    else decide (h - n < 1024) && w.seen.get (word n) &&& mask n == 0

def clear (seen : Vector (BitVec 64) 16) (x : Nat) : Vector (BitVec 64) 16 :=
  seen.set (word x) (seen.get (word x) &&& ~~~(mask x))

def mark (seen : Vector (BitVec 64) 16) (n : Nat) : Vector (BitVec 64) 16 :=
  seen.set (word n) (seen.get (word n) ||| mask n)

/-- The bitmap after the window has moved up to `n`: the loop over
`h + 1..=n`, or a fresh bitmap when the gap is a whole window. -/
def advance (w : ReplayWindow) (n : Nat) : Vector (BitVec 64) 16 :=
  match w.highest with
  | none => w.seen
  | some h =>
    if n > h then
      if n - h ≥ 1024 then Vector.replicate 16 0
      else (List.range' (h + 1) (n - h)).foldl clear w.seen
    else w.seen

def record (w : ReplayWindow) (n : Nat) : ReplayWindow where
  highest := some (w.highest.elim n fun h => max h n)
  seen := mark (w.advance n) n

-- ---------------------------------------------------------------------------
-- Bits of the bitmap
-- ---------------------------------------------------------------------------

def bit (seen : Vector (BitVec 64) 16) (i : Nat) : Bool := (seen.get (word i)).getLsbD (i % 64)

theorem getLsbD_mask : (mask n).getLsbD i = decide (i = n % 64) := by
  have hn : n % 64 < 64 := Nat.mod_lt _ (by decide)
  rw [mask, ← BitVec.twoPow_eq, BitVec.getLsbD_twoPow]
  simp [hn, eq_comm]

theorem get_set (seen : Vector (BitVec 64) 16) (i j : Fin 16) (v : BitVec 64) :
    (seen.set i v).get j = if i = j then v else seen.get j := by
  change (seen.set i v)[j.val] = if i = j then v else seen[j.val]
  simp only [Vector.getElem_set, Fin.ext_iff]

theorem same_cell (h : word i = word n) : i % 64 = n % 64 ↔ i % 1024 = n % 1024 := by
  simp only [word, Fin.mk.injEq] at h
  omega

theorem word_ne (h : word n ≠ word i) : i % 1024 ≠ n % 1024 :=
  fun he => h (by simp [word, he])

theorem bit_mark {words : Vector (BitVec 64) 16} :
    bit (mark words n) i = true ↔ bit words i = true ∨ i % 1024 = n % 1024 := by
  unfold bit mark
  rw [get_set]
  split
  · rename_i h
    rw [h, BitVec.getLsbD_or, getLsbD_mask, Bool.or_eq_true, decide_eq_true_eq,
      same_cell h.symm]
  · rename_i h
    simp [word_ne h]

theorem bit_clear {words : Vector (BitVec 64) 16} :
    bit (clear words n) i = true ↔ bit words i = true ∧ n % 1024 ≠ i % 1024 := by
  have hi : i % 64 < 64 := Nat.mod_lt _ (by decide)
  unfold bit clear
  rw [get_set]
  split
  · rename_i h
    rw [h, BitVec.getLsbD_and, BitVec.getLsbD_not, getLsbD_mask]
    simp [hi, same_cell h.symm, eq_comm (a := n % 1024)]
  · rename_i h
    simp [(word_ne h).symm]

theorem bit_foldl_clear (xs : List Nat) (seen : Vector (BitVec 64) 16) :
    bit (xs.foldl clear seen) i = true ↔ bit seen i = true ∧ ∀ x ∈ xs, x % 1024 ≠ i % 1024 := by
  induction xs generalizing seen with
  | nil => simp
  | cons x xs ih => simp [ih, bit_clear, and_assoc]

theorem bit_replicate : bit (Vector.replicate 16 0) i = false := by
  change ((Vector.replicate 16 0#64)[(word i).val]).getLsbD (i % 64) = false
  simp

theorem bit_mod {words : Vector (BitVec 64) 16} : bit words (n % 1024) = bit words n := by
  have hw : word (n % 1024) = word n := by simp [word]
  have hm : n % 1024 % 64 = n % 64 := by omega
  rw [bit, bit, hw, hm]

theorem and_mask_eq_zero (seen : Vector (BitVec 64) 16) (n : Nat) :
    (seen.get (word n) &&& mask n == 0) = !bit seen (n % 1024) := by
  rw [bit_mod, Bool.eq_iff_iff]
  simp only [beq_iff_eq, Bool.not_eq_true', bit]
  constructor
  · intro h
    have hbit := congrArg (·.getLsbD (n % 64)) h
    simpa [getLsbD_mask] using hbit
  · intro h
    apply BitVec.eq_of_getLsbD_eq
    intro i hi
    rw [BitVec.getLsbD_and, getLsbD_mask]
    by_cases he : i = n % 64
    · simp [he, h]
    · simp [he]

-- ---------------------------------------------------------------------------
-- The window refines the set of recorded nonces
-- ---------------------------------------------------------------------------

/-- `taken` is every nonce ever recorded in the window. -/
def Refines (w : ReplayWindow) (taken : Set Nat) : Prop :=
  match w.highest with
  | none => taken = ∅ ∧ ∀ i, bit w.seen i = false
  | some h => IsGreatest taken h ∧ Window.Tracks 1024 (bit w.seen) taken h

theorem refines_default : Refines default ∅ := ⟨rfl, fun _ => bit_replicate⟩

theorem acceptable_iff (h : Refines w taken) :
    w.acceptable n = true ↔ Window.Accepts 1024 taken n := by
  unfold acceptable
  unfold Refines at h
  split at h
  · rename_i hw
    obtain ⟨rfl, -⟩ := h
    simp [Window.accepts_empty]
  · rename_i high hw
    obtain ⟨hg, ht⟩ := h
    split
    · rename_i hn
      simp [Window.accepts_above hg hn]
    · rename_i hn
      rw [Window.accepts_below hg ht (by omega), and_mask_eq_zero]
      simp

/-- Recording an acceptable nonce adds it to the set, whatever the gap. -/
theorem Refines.record (h : Refines w taken) (ha : w.acceptable n = true) :
    Refines (w.record n) (insert n taken) := by
  have hrule := (acceptable_iff h).mp ha
  unfold Refines at h
  split at h
  · rename_i hw
    obtain ⟨rfl, hzero⟩ := h
    simp only [Refines, ReplayWindow.record, advance, hw, Option.elim_none]
    refine ⟨?_, Window.Tracks.restart (by simp) ?_⟩
    · simp [isGreatest_singleton]
    · intro i hi
      rw [bit_mark, hzero]
      simp [Nat.mod_eq_of_lt hi]
  · rename_i high hw
    obtain ⟨hg, ht⟩ := h
    simp only [Refines, ReplayWindow.record, advance, hw, Option.elim_some]
    refine ⟨max_comm n high ▸ hg.insert n, ?_⟩
    split
    · rename_i hn
      rw [max_eq_right (le_of_lt hn)]
      split
      · rename_i hgap
        refine Window.Tracks.restart (fun x hx => ?_) ?_
        · have := hg.2 hx
          omega
        · intro i hi
          rw [bit_mark, bit_replicate]
          simp [Nat.mod_eq_of_lt hi]
      · refine ht.slide hg hn ?_
        intro i hi
        rw [bit_mark, bit_foldl_clear, Nat.mod_eq_of_lt hi]
        simp only [List.mem_range'_1]
        refine or_congr_left (and_congr_right fun _ => ?_)
        exact ⟨fun hx y hy hyn => hx y ⟨hy, by omega⟩, fun hx y hy => hx y hy.1 (by omega)⟩
    · rename_i hn
      rw [max_eq_left (by omega)]
      refine ht.mark (by omega) ((Window.accepts_below hg ht (by omega)).mp hrule).1 ?_
      intro i hi
      rw [bit_mark, Nat.mod_eq_of_lt hi]

end ReplayWindow

end Cathole
