import PowEvm.Runtime.Bookkeeping
import PowEvm.Runtime.IssuanceCap
import PowEvm.Runtime.Progress

/-!
# The configured chains

`chain_spec.rs` configures the development chain and the local testnet with one genesis, in which
every endowed key owns an output of `100`. Fees pass through a `u64` and rewards through a `u128`;
on a chain started from such a genesis there is never enough value for either to overflow, so as
long as nobody claims an outpoint twice, the supply is what was endowed and issued, to the unit.

## Main results

* `supply_lt`: all there is fits into a `u64`;
* `conserved_of_testnetGenesis`: nothing is lost, nothing is made up, and the only block that cannot
  be finalized is one with an author whose issuance cannot be computed.
-/

namespace PowEvm.ChainSpec

open Utxo Issuance

/-- What `testnet_genesis` configures of the UTXO module. -/
structure GenesisConfig where
  /-- `UtxoConfig`. -/
  genesisUtxos : List TransactionOutput
  deriving DecidableEq

/-- `testnet_genesis`. -/
def testnetGenesis (endowedUtxos : List Public) : GenesisConfig where
  genesisUtxos := endowedUtxos.map fun x => { value := 100, pubkey := x }

variable {blakeTwo256 : Bytes → H256} {sr25519Verify : H512 → Bytes → H256 → Bool}
  {overflowChecks : Bool} {cfg : Config} {endowed : List Public} {st : ChainState}
  {trace : List (Transition ChainState Action)}

/-! ## Genesis -/

theorem dedup_genesisUtxos (endowed : List Public) :
    (testnetGenesis endowed).genesisUtxos.dedup =
      (testnetGenesis endowed.dedup).genesisUtxos := by
  have hinjective : Function.Injective fun x : Public => (⟨100, x⟩ : TransactionOutput) :=
    fun _ _ h => congrArg TransactionOutput.pubkey h
  exact List.dedup_map_of_injective hinjective endowed

theorem sum_genesisUtxos (endowed : List Public) :
    ((testnetGenesis endowed).genesisUtxos.map fun u => u.value.toNat).sum =
      100 * endowed.length := by
  induction endowed with
  | nil => rfl
  | cons x endowed ih =>
    change (100 : Value).toNat + _ = _
    rw [List.length_cons, Nat.mul_add, ← ih, Nat.add_comm]
    rfl

/-- Every different key is endowed once. -/
theorem supply_genesis
    (hinj : Set.InjOn cfg.blakeTwo256
      {p | p ∈ (testnetGenesis endowed).genesisUtxos.map TransactionOutput.encode}) :
    supply (genesis cfg (testnetGenesis endowed).genesisUtxos) = 100 * endowed.dedup.length := by
  rw [supply, utxoTotal_genesis hinj, dedup_genesisUtxos, sum_genesisUtxos]
  rfl

/-- Endowing at most `2 ^ 57` keys leaves room for the whole issuance in a `u64`. -/
theorem supply_genesis_le (hlength : endowed.length ≤ 2 ^ 57) :
    supply (genesis cfg (testnetGenesis endowed).genesisUtxos) ≤ 100 * 2 ^ 57 := by
  have hle : (genesis cfg (testnetGenesis endowed).genesisUtxos).utxoTotal ≤
      100 * endowed.length := by
    have hinserted := Finmap.total_insertAll_le (w := valueWeight) (m := ∅)
      ((testnetGenesis endowed).genesisUtxos.map (genesisEntry cfg))
    rw [List.map_map, Finmap.total_empty, Nat.zero_add] at hinserted
    exact hinserted.trans_eq (sum_genesisUtxos endowed)
  have hzero : (genesis cfg (testnetGenesis endowed).genesisUtxos).rewardTotal.toNat = 0 := rfl
  rw [supply]
  omega

/-! ## Runs -/

section Runs

variable (hcfg : cfg.issuance = bitcoinHalving overflowChecks) (hlength : endowed.length ≤ 2 ^ 57)

include hcfg hlength

/-- In a run without double claims everything there is fits into a `u64`. -/
theorem supply_lt
    (hrun : ChainRun cfg (genesis cfg (testnetGenesis endowed).genesisUtxos) trace st)
    (hclaim : ∀ t ∈ trace, ¬ ClaimsTwice cfg t) : supply st.storage < 2 ^ 64 := by
  have hle := hrun.measure_le (fun st => supply st.storage) (issuedAt cfg) hclaim
    fun hstep hcond => supply_step_le (chainStep_eq_some_iff.mp hstep) hcond
  have hgenesis : supply (genesis cfg (testnetGenesis endowed).genesisUtxos) ≤ 100 * 2 ^ 57 :=
    supply_genesis_le hlength
  have hcap := issued_le_cap hcfg hrun
  have hcap' := issuanceCap_le overflowChecks
  dsimp only at hle
  omega

/-- No step of such a run takes place with more than a `u64` around. -/
theorem supply_pre_lt
    (hrun : ChainRun cfg (genesis cfg (testnetGenesis endowed).genesisUtxos) trace st)
    (hclaim : ∀ t ∈ trace, ¬ ClaimsTwice cfg t) {t : Transition ChainState Action}
    (ht : t ∈ trace) : supply t.pre.storage < 2 ^ 64 := by
  obtain ⟨-, before, after, rfl, hbefore⟩ := hrun.exists_of_mem ht
  exact supply_lt hcfg hlength hbefore fun t' ht' => hclaim t' (List.mem_append_left _ ht')

omit hlength in
/-- A block issues little. -/
theorem issuedAt_lt
    (hrun : ChainRun cfg (genesis cfg (testnetGenesis endowed).genesisUtxos) trace st)
    {t : Transition ChainState Action} (ht : t ∈ trace) : issuedAt cfg t < 2 ^ 64 := by
  have hle : issuedAt cfg t ≤ (trace.map (issuedAt cfg)).sum :=
    List.single_le_sum (fun _ _ => Nat.zero_le _) _ (List.mem_map_of_mem ht)
  have hcap := issued_le_cap hcfg hrun
  have hcap' := issuanceCap_le overflowChecks
  omega

end Runs

/-- A chain keeps its money: what there is was endowed or issued, fees arrive whole, and the open
block can be finalized unless the schedule stops the program. -/
structure Conserved (cfg : Config) (overflowChecks : Bool) (endowed : List Public)
    (trace : List (Transition ChainState Action)) (st : ChainState) : Prop where
  supply_eq : supply st.storage = 100 * endowed.dedup.length + (trace.map (issuedAt cfg)).sum
  supply_le : supply st.storage ≤ 100 * endowed.dedup.length + issuanceCap overflowChecks
  fee_arrives : ∀ t ∈ trace, ∀ tx, SpendSucceeds cfg tx t →
    t.post.storage.rewardTotal.toNat = t.pre.storage.rewardTotal.toNat +
      (inputTotal t.pre.storage.utxoStore tx - tx.outputTotal)
  finalizes_iff : st.inBlock = true → (chainStep cfg st .onFinalize = none ↔
    overflowChecks = true ∧ st.storage.author.isSome ∧ ¬ ShiftFits st.storage.number)

/-- A successful `spend` of a step that destroys nothing adds its whole fee to `RewardTotal`. -/
theorem fee_arrives_of_destroyed {t : Transition ChainState Action} {tx : Transaction}
    (h : Effect cfg t.pre t.label t.post) (hsucceeds : SpendSucceeds cfg tx t)
    (hdestroyed : destroyed cfg t = 0) :
    t.post.storage.rewardTotal.toNat = t.pre.storage.rewardTotal.toNat +
      (inputTotal t.pre.storage.utxoStore tx - tx.outputTotal) := by
  obtain ⟨pre, label, post⟩ := t
  obtain ⟨⟨origin, rfl⟩, hok⟩ := hsucceeds
  obtain ⟨⟨message, stem, hspendable⟩, hpost⟩ := run_spend_eq_ok_iff.mp (h.run_spend hok)
  dsimp only at hspendable hpost ⊢
  have hfee : inputTotal pre.storage.utxoStore tx - tx.outputTotal -
      creditedFee pre.storage.utxoStore tx = 0 := (if_pos hok).symm.trans hdestroyed
  have hle : creditedFee pre.storage.utxoStore tx ≤
      inputTotal pre.storage.utxoStore tx - tx.outputTotal := Nat.mod_le _ _
  have hreward : (spentStorage cfg pre.storage tx).rewardTotal.toNat =
      pre.storage.rewardTotal.toNat + creditedFee pre.storage.utxoStore tx :=
    Integers.toNat_ofNat_of_lt hspendable.reward_lt
  rw [hpost, hreward]
  omega

/-- A chain of the runtime whose genesis endows at most `2 ^ 57` keys keeps its money over every run
without double claims and without a hash collision. -/
theorem conserved_of_testnetGenesis
    (hcfg : cfg = runtimeConfig blakeTwo256 sr25519Verify overflowChecks)
    (hlength : endowed.length ≤ 2 ^ 57)
    (hrun : ChainRun cfg (genesis cfg (testnetGenesis endowed).genesisUtxos) trace st)
    (hinj : Set.InjOn cfg.blakeTwo256
      {p | p ∈ runPreimages cfg (testnetGenesis endowed).genesisUtxos trace})
    (hclaim : ∀ t ∈ trace, ¬ ClaimsTwice cfg t) :
    Conserved cfg overflowChecks endowed trace st := by
  have hissuance : cfg.issuance = bitcoinHalving overflowChecks := by rw [hcfg]; rfl
  have hdestroyed : ∀ t ∈ trace, destroyed cfg t = 0 := fun t ht =>
    destroyed_eq_zero (hclaim t ht) (supply_pre_lt hissuance hlength hrun hclaim ht)
      (issuedAt_lt hissuance hrun ht)
  have hsupply : supply st.storage =
      100 * endowed.dedup.length + (trace.map (issuedAt cfg)).sum := by
    have hbooks := supply_books hrun (filesFresh_of_injOn hrun hinj)
    have hzero : (trace.map (destroyed cfg)).sum = 0 := by
      rw [List.sum_eq_zero_iff_forall_eq_nat, List.forall_mem_map]
      exact hdestroyed
    have hzero' : (trace.map (conjured cfg)).sum = 0 := by
      rw [List.sum_eq_zero_iff_forall_eq_nat, List.forall_mem_map]
      exact fun t ht => conjured_eq_zero (hclaim t ht)
    have hgenesis : supply (genesis cfg (testnetGenesis endowed).genesisUtxos) =
        100 * endowed.dedup.length :=
      supply_genesis (hinj.mono fun p hp => List.mem_append_left _ hp)
    rw [hzero, hzero', hgenesis] at hbooks
    omega
  refine ⟨hsupply, ?_, ?_, ?_⟩
  · rw [hsupply]
    exact Nat.add_le_add_left (issued_le_cap hissuance hrun) _
  · intro t ht tx hsucceeds
    exact fee_arrives_of_destroyed (chainStep_eq_some_iff.mp (hrun.exists_of_mem ht).1) hsucceeds
      (hdestroyed t ht)
  · intro hbusy
    -- what is to be paid is part of the supply, but for the issuance of the block
    have hlt := supply_lt hissuance hlength hrun hclaim
    have hle : (halvedIssuance st.storage.number).toNat ≤ 50 := by
      rw [toNat_halvedIssuance]
      exact Nat.div_le_self _ _
    have hfits : ¬ 2 ^ 128 ≤
        st.storage.rewardTotal.toNat + (halvedIssuance st.storage.number).toNat := by
      rw [supply] at hlt
      omega
    subst hcfg
    rw [chainStep_onFinalize_eq_none_iff, Refuses]
    simp only [hbusy, Bool.true_eq_false, false_or, hfits, or_false]

/-- Alice is endowed and pays a fee of `10` in the first block, whose author is paid. -/
theorem conserved_of_testnetGenesis_sample :
    let run := replay (chainStep Sample.config) []
      ⟨genesis Sample.config (testnetGenesis [Sample.alice]).genesisUtxos, false⟩
      (Sample.labels.take 4)
    supply run.2.storage = 150 ∧ Conserved Sample.config false [Sample.alice] run.1 run.2 := by
  intro run
  have hissued : (run.1.map (issuedAt Sample.config)).sum = 50 := by decide +kernel
  have hclaim : ∀ t ∈ run.1, ¬ ClaimsTwice Sample.config t := by
    have hall : (run.1.all fun t => ¬ ClaimsTwice Sample.config t) = true := by decide +kernel
    simpa using hall
  have hconserved : Conserved Sample.config false [Sample.alice] run.1 run.2 :=
    conserved_of_testnetGenesis rfl (by decide) (Run.nil.of_replay _)
      (injOn_of_nodup_map (by decide +kernel)) hclaim
  refine ⟨?_, hconserved⟩
  rw [hconserved.supply_eq, hissued]
  rfl

end PowEvm.ChainSpec
