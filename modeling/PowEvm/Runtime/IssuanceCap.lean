import PowEvm.Library.Schedule
import PowEvm.Runtime.Filings

/-!
# The cap on the issuance

The halving schedule pays once for each block that has an author, and block numbers grow. Whatever
is executed, a run therefore issues at most what the schedule pays over all blocks. A build without
overflow checks pays it twice over, since there the schedule starts again at the thirty-second
halving.

## Main results

* `issued_le_cap`: the cap on what a run issues;
* `isGreatest_issued`: the cap is reached, by the run whose every block has an author.
-/

namespace PowEvm.Issuance

open Utxo Finset

variable {cfg : Config} {overflowChecks : Bool} {utxos : List TransactionOutput}
  {st st' : ChainState} {trace : List (Transition ChainState Action)} {action : Action}

/-- What a block with an author issues after so many halvings. -/
def issuedPerBlock (overflowChecks : Bool) (halvings : ℕ) : ℕ :=
  if halvings < 32 then 50 / 2 ^ halvings
  else if overflowChecks ∨ 64 ≤ halvings then 0
  else 50 / 2 ^ (halvings - 32)

/-- The most a run can issue: what the schedule pays over all blocks but genesis. -/
def issuanceCap (overflowChecks : Bool) : ℕ := if overflowChecks then 20369950 else 40739950

theorem issuanceCap_le (overflowChecks : Bool) : issuanceCap overflowChecks ≤ 40739950 := by
  cases overflowChecks with
  | true => decide
  | false => decide

/-- The issuance of a block, `0` where computing it stops the program. -/
theorem elim_bitcoinHalving (overflowChecks : Bool) (block : BlockNumber) :
    (bitcoinHalving overflowChecks block).elim 0 BitVec.toNat =
      issuedPerBlock overflowChecks (block.toNat / 210000) := by
  have hlt (n : ℕ) : 50 / 2 ^ n < 2 ^ 128 := (Nat.div_le_self _ _).trans_lt (by norm_num)
  change _ = issuedPerBlock overflowChecks (halvings block)
  rw [bitcoinHalving_eq, issuedPerBlock]
  by_cases h32 : halvings block < 32
  · rw [if_pos h32, if_pos h32, Option.elim_some, Integers.toNat_ofNat_of_lt (hlt _)]
  rw [if_neg h32, if_neg h32]
  by_cases h64 : halvings block < 64
  · rw [if_pos h64]
    cases overflowChecks with
    | true => rfl
    | false =>
      rw [if_neg Bool.false_ne_true, if_neg (by simp [h64]), Option.elim_some,
        Integers.toNat_ofNat_of_lt (hlt _)]
  · rw [if_neg h64, if_pos (Or.inr (by omega)), Option.elim_some]
    rfl

/-! ## What the schedule pays -/

theorem issuedPerBlock_of_le {n : ℕ} (h : 64 ≤ n) : issuedPerBlock overflowChecks n = 0 := by
  rw [issuedPerBlock, if_neg (by omega), if_pos (Or.inr h)]

/-- What the schedule pays over the periods with issuance. -/
theorem sum_issuedPerBlock (overflowChecks : Bool) :
    210000 * ∑ n ∈ range 64, issuedPerBlock overflowChecks n = issuanceCap overflowChecks + 50 := by
  cases overflowChecks with
  | true => decide +kernel
  | false => decide +kernel

theorem sum_range_eq_add_Ico {ticks : ℕ} (h : 1 ≤ ticks) :
    ∑ n ∈ range ticks, issuedPerBlock overflowChecks (n / 210000) =
      50 + ∑ n ∈ Ico 1 ticks, issuedPerBlock overflowChecks (n / 210000) := by
  rw [range_eq_Ico, ← sum_Ico_consecutive _ (Nat.zero_le 1) h, Nat.Ico_zero_eq_range, sum_range_one]
  rfl

/-- What the schedule pays from the first block on never exceeds the cap. -/
theorem sum_Ico_le_cap (ticks : ℕ) :
    ∑ n ∈ Ico 1 ticks, issuedPerBlock overflowChecks (n / 210000) ≤ issuanceCap overflowChecks := by
  rcases Nat.eq_zero_or_pos ticks with rfl | hpos
  · simp
  · have hend : ∀ n, 64 ≤ n → issuedPerBlock overflowChecks n = 0 := fun _ => issuedPerBlock_of_le
    have hle := sum_range_div_le (b := 210000) (by norm_num) hend ticks
    rw [sum_issuedPerBlock, sum_range_eq_add_Ico hpos] at hle
    omega

/-! ## Every run -/

/-- The number of the next block that can be finalized. -/
def nextBlock (st : ChainState) : ℕ :=
  if st.inBlock then st.storage.number.toNat else st.storage.number.toNat + 1

theorem nextBlock_of_busy (h : st.inBlock = true) : nextBlock st = st.storage.number.toNat :=
  if_pos h

theorem nextBlock_of_idle (h : st.inBlock = false) :
    nextBlock st = st.storage.number.toNat + 1 := by
  rw [nextBlock, h]
  rfl

section Halving

variable (hcfg : cfg.issuance = bitcoinHalving overflowChecks)

include hcfg

/-- Finalizing a block with an author issues what the schedule pays for the block. -/
theorem issuedAt_of_author {author : Public} (set : st.storage.author = some author) :
    issuedAt cfg ⟨st, .onFinalize, st'⟩ =
      issuedPerBlock overflowChecks (st.storage.number.toNat / 210000) := by
  rw [issuedAt_finalize set, hcfg, elim_bitcoinHalving]

/-- A step moves on to a later block, or stays in the block and issues nothing, or finalizes the
block and issues what the schedule pays for it at most. -/
theorem issued_step (h : Effect cfg st action st') :
    nextBlock st ≤ nextBlock st' ∧
      issuedAt cfg ⟨st, action, st'⟩ ≤ ∑ n ∈ Ico (nextBlock st) (nextBlock st'),
        issuedPerBlock overflowChecks (n / 210000) := by
  cases h with
  | @initialized number idle later =>
    -- the blocks whose numbers are skipped are not paid for
    have hlater : st.storage.number.toNat < number.toNat := later
    rw [nextBlock_of_idle idle, nextBlock_of_busy rfl]
    exact ⟨hlater, Nat.zero_le _⟩
  | spent busy =>
    rw [nextBlock_of_busy busy, nextBlock_of_busy rfl]
    exact ⟨Nat.le_refl _, Nat.zero_le _⟩
  | authorSet busy =>
    rw [nextBlock_of_busy busy, nextBlock_of_busy rfl]
    exact ⟨Nat.le_refl _, Nat.zero_le _⟩
  | failed => exact ⟨Nat.le_refl _, Nat.zero_le _⟩
  | wasted busy unset =>
    rw [nextBlock_of_busy busy, nextBlock_of_idle rfl, issuedAt_finalize_of_none unset]
    exact ⟨Nat.le_succ _, Nat.zero_le _⟩
  | paid busy set =>
    rw [nextBlock_of_busy busy, nextBlock_of_idle rfl, issuedAt_of_author hcfg set]
    refine ⟨Nat.le_succ _, ?_⟩
    change _ ≤ ∑ n ∈ Ico st.storage.number.toNat (st.storage.number.toNat + 1), _
    rw [sum_Ico_succ_top (Nat.le_refl _), Ico_self, sum_empty, Nat.zero_add]

/-- Whatever a run executes, it issues at most what the schedule pays over all blocks. -/
theorem issued_le_cap (hrun : ChainRun cfg (genesis cfg utxos) trace st) :
    (trace.map (issuedAt cfg)).sum ≤ issuanceCap overflowChecks := by
  obtain ⟨-, hle⟩ := hrun.sum_gain_le_of_clock nextBlock
    (fun n => issuedPerBlock overflowChecks (n / 210000)) (issuedAt cfg)
    fun hstep => issued_step hcfg (chainStep_eq_some_iff.mp hstep)
  exact hle.trans (sum_Ico_le_cap _)

/-! ## The run with an author in every block -/

/-- After an empty `RewardTotal`, a block with an author and no transaction issues what the schedule
pays for it and leaves nothing. -/
theorem exists_run_succ (author : Public) {n : ℕ} {issued : Value} (hn : n + 1 < 2 ^ 32)
    (hissuance : cfg.issuance (BitVec.ofNat 32 (n + 1)) = some issued)
    (hrun : ChainRun cfg (genesis cfg utxos) trace st) (hidle : st.inBlock = false)
    (hnumber : st.storage.number = BitVec.ofNat 32 n) (hreward : st.storage.rewardTotal = 0) :
    ∃ trace' st', ChainRun cfg (genesis cfg utxos) trace' st' ∧ st'.inBlock = false ∧
      st'.storage.number = BitVec.ofNat 32 (n + 1) ∧ st'.storage.rewardTotal = 0 ∧
      (trace'.map (issuedAt cfg)).sum =
        (trace.map (issuedAt cfg)).sum + issuedPerBlock overflowChecks ((n + 1) / 210000) := by
  let opened : Storage :=
    { st.storage with number := BitVec.ofNat 32 (n + 1), author := none }
  let authored : Storage := { opened with author := some author }
  have hopened : chainStep cfg st (.onInitialize (BitVec.ofNat 32 (n + 1))) =
      some ⟨opened, true⟩ := by
    refine chainStep_of_effect (.initialized hidle ?_)
    rw [hnumber, BitVec.lt_def, Integers.toNat_ofNat_of_lt (by omega),
      Integers.toNat_ofNat_of_lt hn]
    exact Nat.lt_succ_self n
  have hauthored : chainStep cfg ⟨opened, true⟩ (.call .none (.setAuthor author)) =
      some ⟨authored, true⟩ :=
    chainStep_of_effect (.authorSet rfl rfl)
  have hpayout : payout cfg authored = some issued := by
    change (cfg.issuance (BitVec.ofNat 32 (n + 1))).bind
      (Integers.add cfg.overflowChecks st.storage.rewardTotal) = _
    rw [hissuance, hreward, Option.bind_some, Integers.zero_add]
  have hpaid : chainStep cfg ⟨authored, true⟩ .onFinalize =
      some ⟨paidStorage cfg authored author issued, false⟩ :=
    chainStep_of_effect (.paid rfl rfl hpayout)
  refine ⟨_, _, ((hrun.snoc hopened).snoc hauthored).snoc hpaid, rfl, rfl, rfl, ?_⟩
  have hissued : issuedAt cfg ⟨⟨authored, true⟩, .onFinalize,
      ⟨paidStorage cfg authored author issued, false⟩⟩ =
        issuedPerBlock overflowChecks ((n + 1) / 210000) := by
    rw [issuedAt_of_author hcfg rfl, Integers.toNat_ofNat_of_lt hn]
  -- opening the block and setting its author issue nothing
  have hzero : issuedAt cfg ⟨st, .onInitialize (BitVec.ofNat 32 (n + 1)), ⟨opened, true⟩⟩ = 0 := rfl
  have hzero' : issuedAt cfg
      ⟨⟨opened, true⟩, .call .none (.setAuthor author), ⟨authored, true⟩⟩ = 0 := rfl
  simp only [List.map_append, List.sum_append, List.map_singleton, List.sum_singleton, hissued,
    hzero, hzero', Nat.add_zero]

/-- The run with an author in every block up to `n` issues what the schedule pays up to there. -/
theorem exists_run_of_issued {n : ℕ} (hn : n < 2 ^ 32)
    (hissuance : ∀ m ≤ n, (cfg.issuance (BitVec.ofNat 32 m)).isSome) :
    ∃ trace st, ChainRun cfg (genesis cfg utxos) trace st ∧ st.inBlock = false ∧
      st.storage.number = BitVec.ofNat 32 n ∧ st.storage.rewardTotal = 0 ∧
      (trace.map (issuedAt cfg)).sum =
        ∑ m ∈ Ico 1 (n + 1), issuedPerBlock overflowChecks (m / 210000) := by
  induction n with
  | zero => exact ⟨[], ⟨genesis cfg utxos, false⟩, .nil, rfl, rfl, rfl, by simp⟩
  | succ n ih =>
    obtain ⟨trace, st, hrun, hidle, hnumber, hreward, hsum⟩ :=
      ih (by omega) fun m hm => hissuance m (by omega)
    obtain ⟨issued, hissued⟩ := Option.isSome_iff_exists.mp (hissuance (n + 1) (Nat.le_refl _))
    obtain ⟨trace', st', hrun', hidle', hnumber', hreward', hsum'⟩ :=
      exists_run_succ hcfg (h256 0) hn hissued hrun hidle hnumber hreward
    refine ⟨trace', st', hrun', hidle', hnumber', hreward', ?_⟩
    rw [hsum', hsum, sum_Ico_succ_top (by omega : 1 ≤ n + 1)]

end Halving

/-- The last block the schedule pays for. -/
def lastPaidBlock (overflowChecks : Bool) : ℕ :=
  if overflowChecks then 6 * 210000 - 1 else 38 * 210000 - 1

/-- Up to its last paid block the schedule stops no program. -/
theorem isSome_bitcoinHalving_of_le {m : ℕ} (h : m ≤ lastPaidBlock overflowChecks) :
    (bitcoinHalving overflowChecks (BitVec.ofNat 32 m)).isSome := by
  have hle : lastPaidBlock overflowChecks ≤ 38 * 210000 - 1 := by
    unfold lastPaidBlock
    split_ifs <;> norm_num
  have hm : (BitVec.ofNat 32 m).toNat = m := Integers.toNat_ofNat_of_lt (by omega)
  rw [bitcoinHalving_eq, halvings, hm]
  cases overflowChecks with
  | true =>
    have hm' : m ≤ 6 * 210000 - 1 := h
    rw [if_pos (by omega)]
    rfl
  | false =>
    rw [if_neg Bool.false_ne_true]
    split_ifs <;> rfl

/-- Up to the last paid block the schedule pays the cap. -/
theorem sum_Ico_lastPaidBlock (overflowChecks : Bool) :
    ∑ m ∈ Ico 1 (lastPaidBlock overflowChecks + 1),
      issuedPerBlock overflowChecks (m / 210000) = issuanceCap overflowChecks := by
  have hperiods (periods : ℕ) (hpos : 1 ≤ periods * 210000)
      (hpaid : 210000 * ∑ n ∈ range periods, issuedPerBlock overflowChecks n =
        issuanceCap overflowChecks + 50) :
      ∑ m ∈ Ico 1 (periods * 210000), issuedPerBlock overflowChecks (m / 210000) =
        issuanceCap overflowChecks := by
    rw [← sum_range_mul_div _ (by norm_num), sum_range_eq_add_Ico hpos] at hpaid
    omega
  cases overflowChecks with
  | true => exact hperiods 6 (by norm_num) (by decide +kernel)
  | false => exact hperiods 38 (by norm_num) (by decide +kernel)

/-- In every build of the runtime the cap is the most that any run issues: no run issues more, and
some run issues it. -/
theorem isGreatest_issued (blakeTwo256 : Bytes → H256)
    (sr25519Verify : H512 → Bytes → H256 → Bool) (overflowChecks : Bool)
    (utxos : List TransactionOutput) :
    let cfg := runtimeConfig blakeTwo256 sr25519Verify overflowChecks
    IsGreatest {issued | ∃ trace st, ChainRun cfg (genesis cfg utxos) trace st ∧
      issued = (trace.map (issuedAt cfg)).sum} (if overflowChecks then 20369950 else 40739950) := by
  intro cfg
  have hcfg : cfg.issuance = bitcoinHalving overflowChecks := rfl
  refine ⟨?_, ?_⟩
  · have hlt : lastPaidBlock overflowChecks < 2 ^ 32 := by
      unfold lastPaidBlock
      split_ifs <;> norm_num
    obtain ⟨trace, st, hrun, -, -, -, hsum⟩ :=
      exists_run_of_issued hcfg hlt fun m hm => isSome_bitcoinHalving_of_le hm
    exact ⟨trace, st, hrun, (hsum.trans (sum_Ico_lastPaidBlock overflowChecks)).symm⟩
  · rintro issued ⟨trace, st, hrun, rfl⟩
    exact issued_le_cap hcfg hrun

end PowEvm.Issuance
