import Mathlib.Data.BitVec

/-!
# Machine integers

The arithmetic of unsigned machine integers that is not plain modular arithmetic: the checked,
overflowing and saturating operations, and the operators whose behaviour at the edge of the range
depends on how the program was built. With overflow checks such an operator stops the program,
which is `none` here; without them `+` wraps and `>>` masks its shift amount.
-/

namespace Integers

variable {w : ℕ}

/-- `a.checked_add(b)`. -/
def checkedAdd (a b : BitVec w) : Option (BitVec w) :=
  if a.toNat + b.toNat < 2 ^ w then some (a + b) else none

/-- `a.checked_sub(b)`. -/
def checkedSub (a b : BitVec w) : Option (BitVec w) :=
  if b ≤ a then some (a - b) else none

/-- `a.overflowing_mul(b)`: the wrapped product, and whether it wrapped. -/
def overflowingMul (a b : BitVec w) : BitVec w × Bool :=
  (a * b, decide (2 ^ w ≤ a.toNat * b.toNat))

/-- `a.saturating_add(b)`. -/
def saturatingAdd (a b : BitVec w) : BitVec w :=
  if a.toNat + b.toNat < 2 ^ w then a + b else BitVec.allOnes w

/-- `a + b`. -/
def add (overflowChecks : Bool) (a b : BitVec w) : Option (BitVec w) :=
  if a.toNat + b.toNat < 2 ^ w then some (a + b)
  else if overflowChecks then none else some (a + b)

/-- `a >> n`. -/
def shiftRight (overflowChecks : Bool) (a : BitVec w) (n : ℕ) : Option (BitVec w) :=
  if n < w then some (a >>> n)
  else if overflowChecks then none else some (a >>> (n % w))

/-- A number within the range keeps its value. -/
theorem toNat_ofNat_of_lt {n : ℕ} (h : n < 2 ^ w) : (BitVec.ofNat w n).toNat = n := by
  rw [BitVec.toNat_ofNat, Nat.mod_eq_of_lt h]

/-- A checked sum is the exact one. -/
theorem checkedAdd_eq_some_iff {a b c : BitVec w} :
    checkedAdd a b = some c ↔ c.toNat = a.toNat + b.toNat := by
  unfold checkedAdd
  split_ifs with h
  · rw [Option.some.injEq, ← BitVec.toNat_add_of_lt h, eq_comm]
    exact BitVec.toNat_inj.symm
  · -- a sum out of the range is the value of no integer of the width
    have hc := c.isLt
    simp only [false_iff]
    omega

/-- A checked difference is the exact one. -/
theorem checkedSub_eq_some_iff {a b c : BitVec w} :
    checkedSub a b = some c ↔ a.toNat = b.toNat + c.toNat := by
  unfold checkedSub
  split_ifs with h
  · have hle : b.toNat ≤ a.toNat := h
    rw [Option.some.injEq, ← BitVec.toNat_inj, BitVec.toNat_sub_of_le h]
    omega
  · have hlt : ¬ b.toNat ≤ a.toNat := h
    simp only [false_iff]
    omega

/-- Whatever the build, a sum that comes back is the wrapped one. -/
theorem toNat_of_add {overflowChecks : Bool} {a b c : BitVec w}
    (h : add overflowChecks a b = some c) : c.toNat = (a.toNat + b.toNat) % 2 ^ w := by
  rw [← BitVec.toNat_add]
  unfold add at h
  split_ifs at h <;> exact congrArg BitVec.toNat (Option.some.inj h).symm

/-- Whatever the build, a sum that comes back is at most the exact one. -/
theorem toNat_add_le {overflowChecks : Bool} {a b c : BitVec w}
    (h : add overflowChecks a b = some c) : c.toNat ≤ a.toNat + b.toNat := by
  rw [toNat_of_add h]
  exact Nat.mod_le _ _

/-- Adding to zero never overflows. -/
theorem zero_add {overflowChecks : Bool} (b : BitVec w) : add overflowChecks 0 b = some b := by
  have hfits : (0 : BitVec w).toNat + b.toNat < 2 ^ w := by simpa using b.isLt
  rw [add, if_pos hfits]
  simp

/-- A sum fails to come back exactly with overflow checks and out of the range. -/
theorem add_eq_none_iff {overflowChecks : Bool} {a b : BitVec w} :
    add overflowChecks a b = none ↔ overflowChecks = true ∧ 2 ^ w ≤ a.toNat + b.toNat := by
  unfold add
  split_ifs with hfits hchecks
  · simp [hfits]
  · simp [hchecks, Nat.not_lt.mp hfits]
  · simp [hchecks]

/-- With overflow checks a sum that comes back is within the range. -/
theorem lt_of_add_true {a b c : BitVec w} (h : add true a b = some c) :
    a.toNat + b.toNat < 2 ^ w := by
  unfold add at h
  split at h
  · assumption
  · cases h

end Integers
