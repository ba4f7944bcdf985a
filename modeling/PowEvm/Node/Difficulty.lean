import Mathlib.Algebra.Order.Floor.Div
import Mathlib.Data.Set.Card
import Mathlib.Order.Interval.Finset.Nat
import PowEvm.Node.Sha3Pow

/-!
# The share of accepted hashes

The difficulty test looks at the overflow of a product. It is a comparison with a target, the
quotient of `2 ^ 256` by the difficulty rounded up, which is also the number of hashes that pass.

## Main results

* `hashMeetsDifficulty_iff_lt`: the target;
* `ncard_hashMeetsDifficulty`: the number of accepted hashes;
* `hashMeetsDifficulty_anti`: what is accepted for a difficulty is accepted for the smaller ones;
* `difficulty_share`: all three.
-/

namespace PowEvm.Sha3Pow

variable {difficulty : U256}

/-- A hash meets the difficulty exactly when its big-endian value is below the target. -/
theorem hashMeetsDifficulty_iff_lt (hpos : 1 ≤ difficulty) (hash : H256) :
    hashMeetsDifficulty hash difficulty = true ↔
      Scale.ofBigEndian hash.toList < 2 ^ 256 ⌈/⌉ difficulty.toNat := by
  have hpos' : 0 < difficulty.toNat := BitVec.le_def.mp hpos
  -- rounding up is adjoint to multiplying
  have htarget := ceilDiv_le_iff_le_mul (b := 2 ^ 256) (c := Scale.ofBigEndian hash.toList) hpos'
  rw [hashMeetsDifficulty_iff, Nat.mul_comm, ← not_le, ← htarget, not_le]

/-- There are `2 ^ 256` hashes. -/
theorem card_h256 : Nat.card H256 = 2 ^ 256 := by
  rw [Nat.card_eq_fintype_card, card_vector, Fintype.card_fin]
  norm_num

/-- The target is the number of hashes that meet the difficulty. -/
theorem ncard_hashMeetsDifficulty (hpos : 1 ≤ difficulty) :
    {hash : H256 | hashMeetsDifficulty hash difficulty = true}.ncard =
      2 ^ 256 ⌈/⌉ difficulty.toNat := by
  have hpos' : 0 < difficulty.toNat := BitVec.le_def.mp hpos
  have hle : 2 ^ 256 ⌈/⌉ difficulty.toNat ≤ 2 ^ 256 :=
    (ceilDiv_le_iff_le_mul hpos').mpr (Nat.le_mul_of_pos_left _ hpos')
  -- the accepted hashes are those that the big-endian reading takes below the target
  have hpreimage : {hash : H256 | hashMeetsDifficulty hash difficulty = true} =
      Set.preimage (fun hash : H256 => Scale.ofBigEndian hash.toList)
        (Set.Iio (2 ^ 256 ⌈/⌉ difficulty.toNat)) := by
    ext hash
    exact hashMeetsDifficulty_iff_lt hpos hash
  have hrange : Set.Iio (2 ^ 256 ⌈/⌉ difficulty.toNat) ⊆
      Set.range fun hash : H256 => Scale.ofBigEndian hash.toList := by
    intro n hn
    have hn' : n < 256 ^ 32 := (lt_of_lt_of_le hn hle).trans_eq (by norm_num)
    exact Scale.exists_ofBigEndian hn'
  have hinjective := Scale.ofBigEndian_injective 32
  rw [hpreimage, Set.ncard_preimage_of_injective_subset_range hinjective hrange, ← Finset.coe_Iio,
    Set.ncard_coe_finset, Nat.card_Iio]

/-- What meets a difficulty meets every smaller one. -/
theorem hashMeetsDifficulty_anti {easier : U256} (hle : easier ≤ difficulty) {hash : H256}
    (h : hashMeetsDifficulty hash difficulty = true) : hashMeetsDifficulty hash easier = true := by
  rw [hashMeetsDifficulty_iff] at h ⊢
  exact (Nat.mul_le_mul_left _ (BitVec.le_def.mp hle)).trans_lt h

/-- At every difficulty from `1` on a hash is accepted exactly when its big-endian value is below
`2 ^ 256` divided by the difficulty and rounded up, so that many of the `2 ^ 256` hashes are
accepted, and they are accepted at every smaller difficulty. -/
theorem difficulty_share (hpos : 1 ≤ difficulty) :
    (∀ hash : H256, hashMeetsDifficulty hash difficulty = true ↔
      Scale.ofBigEndian hash.toList < 2 ^ 256 ⌈/⌉ difficulty.toNat) ∧
    {hash : H256 | hashMeetsDifficulty hash difficulty = true}.ncard =
      2 ^ 256 ⌈/⌉ difficulty.toNat ∧
    Nat.card H256 = 2 ^ 256 ∧
    ∀ (hash : H256) (easier : U256), easier ≤ difficulty →
      hashMeetsDifficulty hash difficulty = true → hashMeetsDifficulty hash easier = true :=
  ⟨hashMeetsDifficulty_iff_lt hpos, ncard_hashMeetsDifficulty hpos, card_h256,
    fun _ _ hle h => hashMeetsDifficulty_anti hle h⟩

/-- Difficulty `3`, which does not divide `2 ^ 256`. -/
theorem difficulty_share_sample :
    {hash : H256 | hashMeetsDifficulty hash 3 = true}.ncard = (2 ^ 256 - 1) / 3 + 1 ∧
      ∀ hash : H256, hashMeetsDifficulty hash 3 = true → hashMeetsDifficulty hash 2 = true := by
  obtain ⟨-, hcard, -, hanti⟩ := difficulty_share (show (1 : U256) ≤ 3 by decide)
  refine ⟨?_, fun hash => hanti hash 2 (by decide)⟩
  rw [hcard, Nat.ceilDiv_eq_add_pred_div]
  rfl

end PowEvm.Sha3Pow
