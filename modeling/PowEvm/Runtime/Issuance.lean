import PowEvm.Runtime.Types

/-!
# Block issuance

The issuance schedules of `issuance.rs`. The halving schedule shifts a `u32` by the number of
halvings, which is at least the width of the type from block `6_720_000` on, and its guard stops
only at 64: what the shift does in between depends on the build.

## Main results

* `bitcoinHalving_eq`: the issuance of every block in every build;
* `bitcoinHalving_eq_zero_iff`: the blocks without issuance;
* `halving_schedule_iff`: the blocks whose issuance is the halved one in every build, and the pairs
  of blocks between which it does not rise.
-/

namespace PowEvm.Issuance

/-- The number of blocks between each halvening. -/
def HALVING_INTERVAL : BitVec 32 := 210000

/-- The per-block issuance before any halvenings. -/
def INITIAL_ISSUANCE : BitVec 32 := 50

/-- `BitcoinHalving::issuance`. -/
def bitcoinHalving (overflowChecks : Bool) (block : BlockNumber) : Option Value :=
  let halvings := block / HALVING_INTERVAL
  if 64 ≤ halvings then some 0
  else
    (Integers.shiftRight overflowChecks INITIAL_ISSUANCE halvings.toNat).map (BitVec.setWidth 128)

/-- The configuration of the runtime, whose `Issuance` is `BitcoinHalving`. -/
def runtimeConfig (blakeTwo256 : Bytes → H256) (sr25519Verify : H512 → Bytes → H256 → Bool)
    (overflowChecks : Bool) : Config where
  blakeTwo256 := blakeTwo256
  sr25519Verify := sr25519Verify
  issuance := bitcoinHalving overflowChecks
  overflowChecks := overflowChecks

/-! ## The schedule -/

/-- The number of halvings before a block. -/
def halvings (block : BlockNumber) : ℕ := block.toNat / 210000

theorem toNat_div_interval (block : BlockNumber) :
    (block / HALVING_INTERVAL).toNat = halvings block :=
  BitVec.toNat_udiv

/-- The issuance halves up to the width of the shifted type. From there to the guard the build
decides whether the schedule stops the program or starts again. -/
theorem bitcoinHalving_eq (overflowChecks : Bool) (block : BlockNumber) :
    bitcoinHalving overflowChecks block =
      if halvings block < 32 then some (BitVec.ofNat 128 (50 / 2 ^ halvings block))
      else if halvings block < 64 then
        if overflowChecks then none
        else some (BitVec.ofNat 128 (50 / 2 ^ (halvings block - 32)))
      else some 0 := by
  have hguard : (64 : BitVec 32) ≤ block / HALVING_INTERVAL ↔ 64 ≤ halvings block := by
    rw [BitVec.le_def, toNat_div_interval]
    rfl
  have hshift (n : ℕ) :
      (INITIAL_ISSUANCE >>> n).setWidth 128 = BitVec.ofNat 128 (50 / 2 ^ n) := by
    apply BitVec.eq_of_toNat_eq
    rw [BitVec.toNat_setWidth, BitVec.toNat_ushiftRight, Nat.shiftRight_eq_div_pow,
      BitVec.toNat_ofNat]
    rfl
  -- the guard first, then the width of the shifted type
  unfold bitcoinHalving Integers.shiftRight
  simp only [hguard, toNat_div_interval]
  by_cases h64 : 64 ≤ halvings block
  · rw [if_pos h64, if_neg (by omega), if_neg (by omega)]
  rw [if_neg h64, if_pos (show halvings block < 64 by omega)]
  by_cases h32 : halvings block < 32
  · rw [if_pos h32, if_pos h32, Option.map_some, hshift]
  rw [if_neg h32, if_neg h32]
  -- the masked shift amount
  have hmod : halvings block % 32 = halvings block - 32 := by omega
  cases overflowChecks with
  | true => rfl
  | false =>
    change some ((INITIAL_ISSUANCE >>> (halvings block % 32)).setWidth 128) = _
    rw [hshift, hmod]
    rfl

/-- The number of halvings of blocks without issuance: the sixth halving is the first to leave
nothing of `50`, and without overflow checks the schedule starts again at the thirty-second. -/
def Exhausted (overflowChecks : Bool) (n : ℕ) : Prop :=
  6 ≤ n ∧ n < 32 ∨ (if overflowChecks then 64 else 38) ≤ n

instance (overflowChecks : Bool) (n : ℕ) : Decidable (Exhausted overflowChecks n) :=
  inferInstanceAs (Decidable (_ ∨ _))

theorem halved_eq_zero_iff (n : ℕ) : BitVec.ofNat 128 (50 / 2 ^ n) = 0 ↔ 6 ≤ n := by
  have hlt : 50 / 2 ^ n < 2 ^ 128 := (Nat.div_le_self _ _).trans_lt (by norm_num)
  rw [← BitVec.toNat_inj, Integers.toNat_ofNat_of_lt hlt]
  change 50 / 2 ^ n = 0 ↔ 6 ≤ n
  rw [Nat.div_eq_zero_iff_lt (by positivity)]
  constructor
  · -- five halvings still leave one
    intro h
    by_contra hn
    have hpow : 2 ^ n ≤ 2 ^ 5 := Nat.pow_le_pow_right (by norm_num) (by omega)
    omega
  · intro h
    have hpow : 2 ^ 6 ≤ 2 ^ n := Nat.pow_le_pow_right (by norm_num) h
    omega

theorem bitcoinHalving_eq_zero_iff (overflowChecks : Bool) (block : BlockNumber) :
    bitcoinHalving overflowChecks block = some 0 ↔ Exhausted overflowChecks (halvings block) := by
  rw [bitcoinHalving_eq, Exhausted]
  by_cases h32 : halvings block < 32
  · rw [if_pos h32, Option.some.injEq, halved_eq_zero_iff]
    cases overflowChecks <;> simp only [Bool.false_eq_true, if_true, if_false] <;> omega
  rw [if_neg h32]
  by_cases h64 : halvings block < 64
  · rw [if_pos h64]
    cases overflowChecks with
    -- with overflow checks there is no issuance in between, not even zero
    | true => simp [h32, h64]
    | false =>
      simp only [Bool.false_eq_true, if_false, Option.some.injEq, halved_eq_zero_iff]
      omega
  · -- the guard of the source
    have hend : (if overflowChecks then 64 else 38) ≤ halvings block := by split_ifs <;> omega
    rw [if_neg h64]
    exact iff_of_true rfl (Or.inr hend)

/-! ## Where the schedule halves -/

/-- The initial issuance, cut in half as many times as there were halvings. -/
def halvedIssuance (block : BlockNumber) : Value := BitVec.ofNat 128 (50 / 2 ^ halvings block)

/-- The shift amount is below the width of the shifted type, or the guard keeps it from being
shifted by. -/
def ShiftFits (block : BlockNumber) : Prop := halvings block < 32 ∨ 64 ≤ halvings block

instance (block : BlockNumber) : Decidable (ShiftFits block) :=
  inferInstanceAs (Decidable (_ ∨ _))

/-- In every build the issuance of the first block and that of the second can be computed, the
second is not above the first, and there is none for the second if there is none for the first. -/
def NoRise (first second : BlockNumber) : Prop :=
  ∀ overflowChecks, ∃ v w, bitcoinHalving overflowChecks first = some v ∧
    bitcoinHalving overflowChecks second = some w ∧ w ≤ v ∧ (v = 0 → w = 0)

theorem toNat_halvedIssuance (block : BlockNumber) :
    (halvedIssuance block).toNat = 50 / 2 ^ halvings block :=
  Integers.toNat_ofNat_of_lt ((Nat.div_le_self _ _).trans_lt (by norm_num))

theorem halvings_mono {first second : BlockNumber} (h : first ≤ second) :
    halvings first ≤ halvings second :=
  Nat.div_le_div_right h

/-- Halving further never raises the issuance. -/
theorem halvedIssuance_antitone {first second : BlockNumber} (h : first ≤ second) :
    halvedIssuance second ≤ halvedIssuance first := by
  rw [BitVec.le_def, toNat_halvedIssuance, toNat_halvedIssuance]
  have hpow : 2 ^ halvings first ≤ 2 ^ halvings second :=
    Nat.pow_le_pow_right (by norm_num) (halvings_mono h)
  exact Nat.div_le_div_left hpow (by positivity)

/-- With the shift amount in range the build does not matter. -/
theorem bitcoinHalving_of_shiftFits {block : BlockNumber} (h : ShiftFits block)
    (overflowChecks : Bool) :
    bitcoinHalving overflowChecks block = some (halvedIssuance block) := by
  rw [bitcoinHalving_eq]
  by_cases h32 : halvings block < 32
  · rw [if_pos h32]
    rfl
  · have h64 : 64 ≤ halvings block := h.resolve_left h32
    rw [if_neg h32, if_neg (by omega)]
    -- from the guard on the halved issuance is zero as well
    exact congrArg some ((halved_eq_zero_iff _).mpr (by omega)).symm

/-- Out of range the shift stops a build with overflow checks. -/
theorem bitcoinHalving_true_eq_none {block : BlockNumber} (h : ¬ ShiftFits block) :
    bitcoinHalving true block = none := by
  unfold ShiftFits at h
  rw [bitcoinHalving_eq, if_neg (by omega), if_pos (by omega)]
  rfl

/-- Without overflow checks the masked shift gives the halved issuance again once it has used up
the initial one a second time. -/
theorem bitcoinHalving_false_eq_halved_iff (block : BlockNumber) :
    bitcoinHalving false block = some (halvedIssuance block) ↔
      halvings block < 32 ∨ 38 ≤ halvings block := by
  rw [bitcoinHalving_eq]
  by_cases h32 : halvings block < 32
  · rw [if_pos h32]
    exact iff_of_true rfl (Or.inl h32)
  -- from here on the halved issuance is zero
  have hzero : halvedIssuance block = 0 := (halved_eq_zero_iff _).mpr (by omega)
  rw [if_neg h32, hzero]
  by_cases h64 : halvings block < 64
  · rw [if_pos h64, if_neg Bool.false_ne_true, Option.some.injEq, halved_eq_zero_iff]
    omega
  · rw [if_neg h64]
    exact iff_of_true rfl (Or.inr (by omega))

/-- The schedule halves at a block in every build exactly when the shift amount fits, and it does
not rise from one block to a later one exactly when it fits at both. -/
theorem halving_schedule_iff (block later : BlockNumber) :
    ((∀ overflowChecks, bitcoinHalving overflowChecks block = some (halvedIssuance block)) ↔
        ShiftFits block) ∧
      (block ≤ later → (NoRise block later ↔ ShiftFits block ∧ ShiftFits later)) := by
  -- the build with overflow checks tells whether the shift amount fits
  have hfits {block : BlockNumber} {v : Value} (h : bitcoinHalving true block = some v) :
      ShiftFits block := by
    by_contra hnot
    rw [bitcoinHalving_true_eq_none hnot] at h
    cases h
  refine ⟨⟨fun h => hfits (h true), bitcoinHalving_of_shiftFits⟩, ?_⟩
  intro hle
  refine ⟨?_, ?_⟩
  · intro h
    obtain ⟨v, w, hv, hw, -, -⟩ := h true
    exact ⟨hfits hv, hfits hw⟩
  · rintro ⟨hblock, hlater⟩ overflowChecks
    have hdown := halvedIssuance_antitone hle
    refine ⟨_, _, bitcoinHalving_of_shiftFits hblock overflowChecks,
      bitcoinHalving_of_shiftFits hlater overflowChecks, hdown, ?_⟩
    intro hzero
    rw [hzero] at hdown
    exact BitVec.le_zero_iff.mp hdown

theorem halving_schedule_sample :
    (∀ overflowChecks,
      bitcoinHalving overflowChecks 420000 = some (halvedIssuance 420000)) ∧
    NoRise 420000 4294967295 := by
  obtain ⟨hhalved, hrise⟩ := halving_schedule_iff 420000 4294967295
  exact ⟨hhalved.mpr (by decide +kernel), (hrise (by decide +kernel)).mpr (by decide +kernel)⟩

/-- At the thirty-second halving the shift stops a build with overflow checks, and gives the initial
issuance in one without, after blocks without any. -/
theorem halving_schedule_restarts :
    bitcoinHalving true 6720000 = none ∧ bitcoinHalving false 6720000 = some 50 ∧
      halvedIssuance 6720000 = 0 ∧ bitcoinHalving false 6719999 = some 0 := by
  decide +kernel

end PowEvm.Issuance
