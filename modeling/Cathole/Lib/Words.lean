import Mathlib.Tactic

/-!
# Fixed-width big-endian words

`toBe w n` is the `w`-byte big-endian encoding of `n`, truncated to its low
`8 * w` bits as an `as` cast truncates; `fromBe` reads any byte string back.
The two are inverse on values that fit and on strings of the right length,
and a fixed-width field in front of a byte string can be split off again.
-/

abbrev Bytes := List UInt8

namespace Words

def toBe : Nat → Nat → Bytes
  | 0, _ => []
  | width + 1, n => UInt8.ofNat (n / 256 ^ width) :: toBe width n

def fromBe (bytes : Bytes) : Nat := bytes.foldl (fun acc b => acc * 256 + b.toNat) 0

@[simp] theorem length_toBe (width n : Nat) : (toBe width n).length = width := by
  induction width with
  | zero => rfl
  | succ width ih => simp [toBe, ih]

theorem fromBe_foldl (bytes : Bytes) (acc : Nat) :
    bytes.foldl (fun acc b => acc * 256 + b.toNat) acc =
      acc * 256 ^ bytes.length + fromBe bytes := by
  induction bytes generalizing acc with
  | nil => simp [fromBe]
  | cons b rest ih =>
    have hb : fromBe (b :: rest) = b.toNat * 256 ^ rest.length + fromBe rest := by
      simp only [fromBe, List.foldl_cons, Nat.zero_mul, Nat.zero_add]
      exact ih _
    rw [List.foldl_cons, ih, hb, List.length_cons, Nat.pow_succ]
    ring

@[simp] theorem fromBe_nil : fromBe [] = 0 := rfl

theorem fromBe_cons (b : UInt8) (rest : Bytes) :
    fromBe (b :: rest) = b.toNat * 256 ^ rest.length + fromBe rest := by
  simpa [fromBe] using fromBe_foldl rest b.toNat

theorem fromBe_lt (bytes : Bytes) : fromBe bytes < 256 ^ bytes.length := by
  induction bytes with
  | nil => simp
  | cons b rest ih =>
    have hb : b.toNat + 1 ≤ 256 := b.toNat_lt
    calc fromBe (b :: rest) = b.toNat * 256 ^ rest.length + fromBe rest := fromBe_cons b rest
      _ < b.toNat * 256 ^ rest.length + 256 ^ rest.length := by omega
      _ = (b.toNat + 1) * 256 ^ rest.length := by ring
      _ ≤ 256 * 256 ^ rest.length := Nat.mul_le_mul_right _ hb
      _ = 256 ^ (b :: rest).length := by rw [List.length_cons, Nat.pow_succ']

/-- Writing truncates, reading does not: the round trip is the low bits. -/
theorem fromBe_toBe_mod (width n : Nat) : fromBe (toBe width n) = n % 256 ^ width := by
  induction width with
  | zero => simp [toBe, Nat.mod_one]
  | succ width ih =>
    have hd : (UInt8.ofNat (n / 256 ^ width)).toNat = n / 256 ^ width % 256 := by simp
    rw [toBe, fromBe_cons, length_toBe, ih, hd, Nat.pow_succ, Nat.mod_mul]
    ring

theorem fromBe_toBe (h : n < 256 ^ width) : fromBe (toBe width n) = n := by
  rw [fromBe_toBe_mod, Nat.mod_eq_of_lt h]

theorem toBe_inj {n m : Nat} (hn : n < 256 ^ width) (hm : m < 256 ^ width)
    (h : toBe width n = toBe width m) : n = m := by
  rw [← fromBe_toBe hn, h, fromBe_toBe hm]

theorem toBe_add_mul (width n k : Nat) : toBe width (n + k * 256 ^ width) = toBe width n := by
  induction width generalizing k with
  | zero => rfl
  | succ width ih =>
    have hpos : 0 < 256 ^ width := by positivity
    have hk : k * 256 ^ (width + 1) = k * 256 * 256 ^ width := by ring
    rw [toBe, toBe, hk, ih, Nat.add_mul_div_right _ _ hpos]
    congr 1
    apply UInt8.toNat_inj.mp
    simp

theorem toBe_fromBe (bytes : Bytes) : toBe bytes.length (fromBe bytes) = bytes := by
  induction bytes with
  | nil => rfl
  | cons b rest ih =>
    have hpos : 0 < 256 ^ rest.length := by positivity
    have hlt := fromBe_lt rest
    have hdiv : fromBe (b :: rest) / 256 ^ rest.length = b.toNat := by
      rw [fromBe_cons, Nat.add_comm, Nat.add_mul_div_right _ _ hpos, Nat.div_eq_of_lt hlt]
      simp
    rw [List.length_cons, toBe, hdiv, fromBe_cons, Nat.add_comm, toBe_add_mul, ih]
    simp

@[simp] theorem take_toBe_append (width n : Nat) (rest : Bytes) :
    (toBe width n ++ rest).take width = toBe width n := by
  simp

@[simp] theorem drop_toBe_append (width n : Nat) (rest : Bytes) :
    (toBe width n ++ rest).drop width = rest := by
  simp

-- ---------------------------------------------------------------------------
-- Checked increments
-- ---------------------------------------------------------------------------

/-- `u64::checked_add(1)`. -/
def checkedSucc (n : UInt64) : Option UInt64 :=
  if n.toNat + 1 < 2 ^ 64 then some (n + 1) else none

theorem checkedSucc_some (h : checkedSucc n = some m) : m.toNat = n.toNat + 1 := by
  unfold checkedSucc at h
  split at h
  · rename_i hn
    obtain rfl := Option.some.inj h
    simpa [UInt64.toNat_add] using Nat.mod_eq_of_lt hn
  · cases h

theorem checkedSucc_none : checkedSucc n = none ↔ n.toNat = 2 ^ 64 - 1 := by
  have hn := n.toNat_lt
  unfold checkedSucc
  split <;> simp <;> omega

end Words
