import PowEvm.Runtime.SignedMessage

/-!
# The contract of `spend`

What a caller of `spend` may rely on: which transactions it executes, what an executed one does to
the store and to `RewardTotal`, and that a refused one does nothing. The fee is the exception. It
passes through the `u64` priority of the validation result, and what does not fit is lost.

## Main results

* `spend_of_meetsRules`: a transaction that meets the documented rules is executed;
* `spend_effect`: an executed transaction replaces its outpoints by its outputs, and touches no
  other entry;
* `fee_credited_iff`: its fee is credited exactly when it is below `2 ^ 64`;
* `spend_error_unchanged`: neither `spend` nor `update_storage` returns an error after a write.
-/

namespace PowEvm.Utxo

open Integers

variable {cfg : Config} {s s' : Storage} {tx : Transaction} {message stem : Bytes} {u : Unit}

/-! ## The documented rules -/

/-- The rules in the documentation of `validate_transaction`, with the inputs all there and told
apart by their outpoints, and room for the fee. -/
structure MeetsRules (cfg : Config) (s : Storage) (tx : Transaction) : Prop where
  inputs_ne : tx.inputs ≠ []
  outputs_ne : tx.outputs ≠ []
  outpoints_nodup : tx.outpoints.Nodup
  present : ∀ k ∈ tx.outpoints, k ∈ s.utxoStore
  outputs_nodup : tx.outputs.Nodup
  positive : ∀ output ∈ tx.outputs, 0 < output.value
  signed : ∀ message, getSimpleTransaction tx = some message → ∀ input ∈ tx.inputs, ∀ utxo,
    s.utxoStore.lookup input.outpoint = some utxo →
      cfg.sr25519Verify input.sigscript message utxo.pubkey = true
  input_lt : inputTotal s.utxoStore tx < 2 ^ 128
  output_lt : tx.outputTotal < 2 ^ 128
  balanced : tx.outputTotal ≤ inputTotal s.utxoStore tx
  fresh : ∀ i < tx.outputs.length, ∀ k,
    outputHash cfg tx (BitVec.ofNat 64 i) = some k → k ∉ s.utxoStore
  reward_lt : s.rewardTotal.toNat + (inputTotal s.utxoStore tx - tx.outputTotal) < 2 ^ 128

/-- The created entries are the outputs under the hashes of their indices. -/
theorem mem_createdEntries_iff {k : H256} {output : TransactionOutput} :
    (k, output) ∈ createdEntries cfg tx ↔
      ∃ i, tx.outputs[i]? = some output ∧ outputHash cfg tx (BitVec.ofNat 64 i) = some k := by
  unfold createdEntries hashed outputHash
  rw [List.mem_map]
  refine ⟨?_, ?_⟩
  · rintro ⟨⟨bytes, output'⟩, hfiled, heq⟩
    obtain ⟨rfl, rfl⟩ := Prod.ext_iff.mp heq
    obtain ⟨i, hi, hpreimage⟩ := mem_filed_iff.mp hfiled
    exact ⟨i, hi, by rw [hpreimage, Option.map_some]⟩
  · rintro ⟨i, hi, hk⟩
    obtain ⟨bytes, hpreimage, rfl⟩ := Option.map_eq_some_iff.mp hk
    exact ⟨(bytes, output), mem_filed_iff.mpr ⟨i, hi, hpreimage⟩, rfl⟩

/-- The created keys are the hashes of the indices. -/
theorem mem_createdKeys_iff {k : H256} :
    k ∈ createdKeys cfg tx ↔
      ∃ i < tx.outputs.length, outputHash cfg tx (BitVec.ofNat 64 i) = some k := by
  unfold createdKeys
  rw [List.mem_map]
  refine ⟨?_, ?_⟩
  · rintro ⟨⟨k', output⟩, hmem, rfl⟩
    obtain ⟨i, hi, hk⟩ := mem_createdEntries_iff.mp hmem
    exact ⟨i, (List.getElem?_eq_some_iff.mp hi).1, hk⟩
  · rintro ⟨i, hi, hk⟩
    exact ⟨(k, tx.outputs[i]), mem_createdEntries_iff.mpr ⟨i, List.getElem?_eq_getElem hi, hk⟩, rfl⟩

/-- A received transaction that meets the rules is spendable. -/
theorem MeetsRules.spendable (h : MeetsRules cfg s tx) (hreceived : Received tx) :
    ∃ message stem, Spendable cfg s tx message stem := by
  obtain ⟨stem, hstem⟩ := hreceived.exists_outputStem
  obtain ⟨bytes, hbytes, -⟩ := received_iff.mp hreceived
  obtain ⟨hinputsLt, houtputsLt⟩ := Transaction.exists_encode_iff.mp ⟨bytes, hbytes⟩
  obtain ⟨message, hmessage⟩ := exists_getSimpleTransaction hinputsLt houtputsLt
  -- different outpoints make different inputs
  have hinputs : tx.inputs.Nodup := List.Nodup.of_map _ h.outpoints_nodup
  have hfresh : ∀ k ∈ createdKeys cfg tx, k ∉ s.utxoStore := by
    intro k hk
    obtain ⟨i, hi, hkey⟩ := mem_createdKeys_iff.mp hk
    exact h.fresh i hi k hkey
  -- the part of the fee that is credited is at most the fee
  have hcredited : creditedFee s.utxoStore tx ≤ inputTotal s.utxoStore tx - tx.outputTotal :=
    Nat.mod_le _ _
  have hreward := h.reward_lt
  refine ⟨message, stem, ⟨h.inputs_ne, h.outputs_ne, hinputs, h.outputs_nodup, hmessage, hstem,
    h.signed message hmessage, h.positive, hfresh, h.input_lt, h.output_lt, fun _ => h.balanced⟩,
    h.present, by omega⟩

/-- A received transaction that meets the rules is valid without requirements, and is executed. -/
theorem spend_of_meetsRules (h : MeetsRules cfg s tx) (hreceived : Received tx) :
    (∃ v, validateTransaction cfg s.utxoStore tx = .ok v ∧ v.requires = []) ∧
      ∃ s', (spend cfg tx).run s = .ok () s' := by
  obtain ⟨message, stem, hspendable⟩ := h.spendable hreceived
  have hmissing := missingOf_eq_nil_iff.mpr h.present
  refine ⟨⟨validTransactionOf cfg s.utxoStore tx, ?_, ?_⟩, ⟨spentStorage cfg s tx, ?_⟩⟩
  · exact validateTransaction_eq_ok_iff.mpr ⟨⟨message, stem, hspendable.accepted⟩, rfl⟩
  · rw [validTransactionOf, hmissing, List.map_nil]
  · exact run_spend_eq_ok_iff.mpr ⟨⟨message, stem, hspendable⟩, rfl⟩

/-- The first transaction of the sample run meets the rules at genesis. -/
theorem spend_of_meetsRules_sample :
    (∃ v, validateTransaction Sample.config (genesis Sample.config Sample.coins).utxoStore
      Sample.aliceSpends = .ok v ∧ v.requires = []) ∧
      ∃ s', (spend Sample.config Sample.aliceSpends).run
        (genesis Sample.config Sample.coins) = .ok () s' := by
  have hcoin : (genesis Sample.config Sample.coins).utxoStore.lookup Sample.aliceCoin =
      some ⟨100, Sample.alice⟩ := by decide +kernel
  have hnew : (createdKeys Sample.config Sample.aliceSpends).all
      (fun k => k ∉ (genesis Sample.config Sample.coins).utxoStore) = true := by decide +kernel
  have hfresh : ∀ k ∈ createdKeys Sample.config Sample.aliceSpends,
      k ∉ (genesis Sample.config Sample.coins).utxoStore := by simpa using hnew
  have hrules : MeetsRules Sample.config (genesis Sample.config Sample.coins)
      Sample.aliceSpends :=
    { inputs_ne := by decide
      outputs_ne := by decide
      outpoints_nodup := List.nodup_singleton _
      present := by
        intro k hk
        obtain rfl := List.mem_singleton.mp hk
        exact Finmap.mem_of_lookup_eq_some hcoin
      outputs_nodup := by decide +kernel
      positive := by decide +kernel
      signed := by
        intro message _ input hinput utxo hutxo
        obtain rfl := List.mem_singleton.mp hinput
        obtain rfl := Option.some.inj (hutxo.symm.trans hcoin)
        -- the message does not enter into the check
        change
          decide ((Sample.signature Sample.alice 1).toList.take 32 = Sample.alice.toList) = true
        decide +kernel
      input_lt := by decide +kernel
      output_lt := by decide +kernel
      balanced := by decide +kernel
      fresh := fun i hi k hk => hfresh k (mem_createdKeys_iff.mpr ⟨i, hi, hk⟩)
      reward_lt := by decide +kernel }
  have hreceived : Received Sample.aliceSpends := by
    obtain ⟨bytes, hbytes⟩ := Transaction.exists_encode_iff.mpr
      (show Sample.aliceSpends.inputs.length < 2 ^ 32 ∧
        Sample.aliceSpends.outputs.length < 2 ^ 32 by decide)
    obtain ⟨i, o, -, hi, -, ho, hlength⟩ := Transaction.length_encode hbytes
    have hcounts : Sample.aliceSpends.inputs.length = 1 ∧
        Sample.aliceSpends.outputs.length = 2 := by decide
    exact received_iff.mpr ⟨bytes, hbytes, by omega⟩
  exact spend_of_meetsRules hrules hreceived

/-! ## The effect on the store -/

/-- The preimages of the keys of a transaction's outputs. -/
def outputPreimages (tx : Transaction) : Set Bytes :=
  {bytes | ∃ i < tx.outputs.length, outputPreimage tx (BitVec.ofNat 64 i) = some bytes}

/-- The store after a transaction: its outputs at the hashes of their indices, nothing at its
outpoints, and every other entry as it was. -/
structure ReplacesEntries (cfg : Config) (s s' : Storage) (tx : Transaction) : Prop where
  created : ∀ i output, tx.outputs[i]? = some output →
    ∃ k, outputHash cfg tx (BitVec.ofNat 64 i) = some k ∧ s'.utxoStore.lookup k = some output ∧
      k ∉ s.utxoStore
  keys_ne : ∀ i < tx.outputs.length, ∀ j < tx.outputs.length,
    outputHash cfg tx (BitVec.ofNat 64 i) = outputHash cfg tx (BitVec.ofNat 64 j) → i = j
  consumed : ∀ k ∈ tx.outpoints, k ∉ s'.utxoStore
  kept : ∀ k ∉ tx.outpoints,
    (∀ i < tx.outputs.length, outputHash cfg tx (BitVec.ofNat 64 i) ≠ some k) →
      s'.utxoStore.lookup k = s.utxoStore.lookup k
  card_eq : s'.utxoStore.keys.card + tx.outpoints.toFinset.card =
    s.utxoStore.keys.card + tx.outputs.length

/-- A key of a transaction is the hash of the preimage of its index. -/
theorem exists_outputPreimage (cfg : Config) (hstem : outputStem tx = some stem) (i : ℕ) :
    ∃ bytes, outputPreimage tx (BitVec.ofNat 64 i) = some bytes ∧
      outputHash cfg tx (BitVec.ofNat 64 i) = some (cfg.blakeTwo256 bytes) := by
  have hpreimage := outputPreimage_eq tx (BitVec.ofNat 64 i)
  rw [hstem, Option.map_some] at hpreimage
  exact ⟨_, hpreimage, by rw [outputHash, hpreimage, Option.map_some]⟩

/-- Without a collision the outputs have different keys. -/
theorem index_eq_of_outputHash_eq (hstem : outputStem tx = some stem)
    (hinj : Set.InjOn cfg.blakeTwo256 (outputPreimages tx)) {i j : ℕ}
    (hi : i < tx.outputs.length) (hj : j < tx.outputs.length)
    (h : outputHash cfg tx (BitVec.ofNat 64 i) = outputHash cfg tx (BitVec.ofNat 64 j)) :
    i = j := by
  obtain ⟨x, hx, hxkey⟩ := exists_outputPreimage cfg hstem i
  obtain ⟨y, hy, hykey⟩ := exists_outputPreimage cfg hstem j
  rw [hxkey, hykey, Option.some.injEq] at h
  -- equal keys come from equal preimages, and these end in the index
  have hbytes : x = y := hinj ⟨i, hi, hx⟩ ⟨j, hj, hy⟩ h
  rw [← hbytes] at hy
  have hindex := congrArg BitVec.toNat (outputPreimage_inj hx hy).2
  have hlength := length_outputs_lt hstem
  rwa [toNat_ofNat_of_lt (by omega), toNat_ofNat_of_lt (by omega)] at hindex

/-- The preimages of the keys are those of the filed outputs. -/
theorem outputPreimages_eq (tx : Transaction) :
    outputPreimages tx = {bytes | bytes ∈ (filed tx).map Prod.fst} := by
  ext bytes
  refine ⟨?_, ?_⟩
  · rintro ⟨i, hi, hpreimage⟩
    have hfiled := mem_filed_iff.mpr ⟨i, List.getElem?_eq_getElem hi, hpreimage⟩
    exact List.mem_map.mpr ⟨_, hfiled, rfl⟩
  · intro hmem
    obtain ⟨⟨_, output⟩, hfiled, rfl⟩ := List.mem_map.mp hmem
    obtain ⟨i, hi, hpreimage⟩ := mem_filed_iff.mp hfiled
    exact ⟨i, (List.getElem?_eq_some_iff.mp hi).1, hpreimage⟩

/-- Without a collision the created keys are different. -/
theorem nodup_createdKeys (hinj : Set.InjOn cfg.blakeTwo256 (outputPreimages tx)) :
    (createdKeys cfg tx).Nodup := by
  rw [outputPreimages_eq] at hinj
  exact nodup_keys_hashed (nodup_filed tx) hinj

/-- A successful `spend` replaces the outpoints of its transaction by the outputs, unless two of
their keys collide. -/
theorem spend_effect (hrun : (spend cfg tx).run s = .ok u s')
    (hinj : Set.InjOn cfg.blakeTwo256 (outputPreimages tx)) : ReplacesEntries cfg s s' tx := by
  obtain ⟨⟨message, stem, hspendable⟩, rfl⟩ := run_spend_eq_ok_iff.mp hrun
  have hstem := hspendable.accepted.stem_eq
  have hnodup := nodup_createdKeys hinj
  have hfresh := hspendable.accepted.fresh
  refine ⟨?_, fun i hi j hj => index_eq_of_outputHash_eq hstem hinj hi hj, ?_, ?_, ?_⟩
  · intro i output hi
    obtain ⟨bytes, -, hkey⟩ := exists_outputPreimage cfg hstem i
    have hmem := mem_createdEntries_iff.mpr ⟨i, hi, hkey⟩
    exact ⟨_, hkey, Finmap.lookup_insertAll_of_mem hnodup hmem,
      hfresh _ (List.mem_map_of_mem hmem)⟩
  · -- an outpoint is present before, and the created keys are not
    intro k hk hmem
    change k ∈ Finmap.insertAll (createdEntries cfg tx)
      (Finmap.eraseAll tx.outpoints s.utxoStore) at hmem
    rw [Finmap.mem_insertAll, Finmap.mem_eraseAll] at hmem
    rcases hmem with ⟨-, hnot⟩ | hnew
    · exact hnot hk
    · exact hfresh k hnew (hspendable.present k hk)
  · intro k hk hother
    have hnot : k ∉ createdKeys cfg tx := by
      intro hmem
      obtain ⟨i, hi, hkey⟩ := mem_createdKeys_iff.mp hmem
      exact hother i hi hkey
    change (Finmap.insertAll (createdEntries cfg tx)
      (Finmap.eraseAll tx.outpoints s.utxoStore)).lookup k = _
    rw [Finmap.lookup_insertAll_of_notMem hnot, Finmap.lookup_eraseAll, if_neg hk]
  · rw [← length_createdEntries cfg hstem]
    exact Finmap.card_keys_replace hspendable.present hnodup hfresh

theorem spend_effect_sample :
    ∃ s', (spend Sample.config Sample.aliceSpends).run (genesis Sample.config Sample.coins) =
      .ok () s' ∧
      ReplacesEntries Sample.config (genesis Sample.config Sample.coins) s' Sample.aliceSpends := by
  have hrun := run_spend_of_spendOk Sample.spendOk_aliceSpends
  refine ⟨_, hrun, spend_effect hrun ?_⟩
  rw [outputPreimages_eq]
  exact injOn_of_nodup_map (by decide +kernel)

/-! ## The fee -/

/-- A successful `spend` credits the fee, the value of its inputs above that of its outputs, exactly
when the fee is below `2 ^ 64`. The `u64` priority is where the rest is lost. -/
theorem fee_credited_iff (hrun : (spend cfg tx).run s = .ok u s') :
    tx.outputTotal ≤ inputTotal s.utxoStore tx ∧
      (s'.rewardTotal.toNat =
          s.rewardTotal.toNat + (inputTotal s.utxoStore tx - tx.outputTotal) ↔
        inputTotal s.utxoStore tx - tx.outputTotal < 2 ^ 64) ∧
      ∀ v, validateTransaction cfg s.utxoStore tx = .ok v →
        ((v.priority.setWidth 128).toNat = inputTotal s.utxoStore tx - tx.outputTotal ↔
          inputTotal s.utxoStore tx - tx.outputTotal < 2 ^ 64) := by
  obtain ⟨⟨message, stem, hspendable⟩, rfl⟩ := run_spend_eq_ok_iff.mp hrun
  have hmissing := missingOf_eq_nil_iff.mpr hspendable.present
  have hcredited : (spentStorage cfg s tx).rewardTotal.toNat =
      s.rewardTotal.toNat + creditedFee s.utxoStore tx := toNat_ofNat_of_lt hspendable.reward_lt
  -- a remainder is the number itself exactly when the number is below the modulus
  have hfits : creditedFee s.utxoStore tx = inputTotal s.utxoStore tx - tx.outputTotal ↔
      inputTotal s.utxoStore tx - tx.outputTotal < 2 ^ 64 := by
    unfold creditedFee
    omega
  refine ⟨hspendable.accepted.balanced hmissing, ?_, ?_⟩
  · rw [hcredited, Nat.add_left_cancel_iff, hfits]
  · intro v hv
    obtain ⟨-, rfl⟩ := validateTransaction_eq_ok_iff.mp hv
    rw [toNat_priority hspendable.present, hfits]

theorem fee_credited_sample :
    ∃ s', (spend Sample.config Sample.aliceSpends).run (genesis Sample.config Sample.coins) =
      .ok () s' ∧ s'.rewardTotal.toNat = 0 + (100 - 90) := by
  have hrun := run_spend_of_spendOk Sample.spendOk_aliceSpends
  exact ⟨_, hrun, (fee_credited_iff hrun).2.1.mpr (by decide +kernel)⟩

namespace Overpaid

open Sample

def coin : H256 := h256 0x233558c38e183401563b8b114d08420d762aaa4c07f94d60cd8a110b8a4d97ba

def coins : List TransactionOutput := [⟨0x10000000000000005, alice⟩]

/-- A coin of `2 ^ 64 + 5` is spent on an output of `5`. -/
def overpays : Transaction where
  inputs := [⟨coin, signature alice 1⟩]
  outputs := [⟨5, bob⟩]

def config : Config :=
  { Sample.config with
    blakeTwo256 := fun bytes =>
      if bytes = TransactionOutput.encode ⟨0x10000000000000005, alice⟩ then coin
      else if outputPreimage overpays 0 = some bytes then
        h256 0xaab92815e48399acad2a7348afc2e9648d351e47f94e3094b381b7f516bc4eb6
      else h256 0 }

end Overpaid

/-- A transaction with a fee of `2 ^ 64` is executed, and no fee is credited. -/
theorem overpaid_not_credited :
    ∃ s', (spend Overpaid.config Overpaid.overpays).run
        (genesis Overpaid.config Overpaid.coins) = .ok () s' ∧
      inputTotal (genesis Overpaid.config Overpaid.coins).utxoStore Overpaid.overpays -
        Overpaid.overpays.outputTotal = 2 ^ 64 ∧
      (genesis Overpaid.config Overpaid.coins).rewardTotal.toNat = 0 ∧
      s'.rewardTotal.toNat = 0 := by
  have hok : spendOk Overpaid.config (genesis Overpaid.config Overpaid.coins) Overpaid.overpays =
      true := by
    decide +kernel
  have hrun := run_spend_of_spendOk hok
  exact ⟨_, hrun, by decide +kernel, by decide +kernel, by decide +kernel⟩

/-! ## Errors -/

/-- Without an encoding of the transaction, the second loop of `update_storage` does not return an
error: it stops the program at the first output. -/
theorem run_foldlM_insertOutput_of_none (cfg : Config) (hstem : outputStem tx = none)
    (outputs : List TransactionOutput) (index : BitVec 64) (s : Storage) :
    (outputs.foldlM (insertOutput cfg tx) index).run s = .ok index s ∨
      (outputs.foldlM (insertOutput cfg tx) index).run s = .error .panic s := by
  cases outputs with
  | nil => exact Or.inl rfl
  | cons output outputs =>
    refine Or.inr ?_
    have hkey : orPanic (outputHash cfg tx index) = .error .panic := by
      rw [outputHash, outputPreimage_eq, hstem]
      rfl
    have hhead : (insertOutput cfg tx index output).run s = .error .panic s := by
      unfold insertOutput
      rw [hkey]
      rfl
    rw [List.foldlM_cons, EStateM.run_bind, hhead]

/-- An error of `update_storage` comes before its first write. -/
theorem run_updateStorage_eq_error {reward : Value} {e : DispatchError}
    (h : (updateStorage cfg tx reward).run s = .error (.error e) s') : s' = s := by
  cases hstem : outputStem tx with
  | some stem =>
    rw [run_updateStorage hstem] at h
    split_ifs at h
    exact (EStateM.Result.error.inj h).2.symm
  | none =>
    unfold updateStorage checkedAdd at h
    rw [EStateM.run_get_bind] at h
    split_ifs at h with hreward
    · -- after the writes the loops go through or stop the program
      let credited := { s with rewardTotal := s.rewardTotal + reward }
      change ((tx.inputs.forM removeInput >>= fun _ =>
        tx.outputs.foldlM (insertOutput cfg tx) 0 >>= fun _ => pure ()).run credited) = _ at h
      rw [EStateM.run_bind, run_forM_removeInput] at h
      dsimp only at h
      rw [EStateM.run_bind] at h
      rcases run_foldlM_insertOutput_of_none cfg hstem tx.outputs 0 _ with hloop | hloop
      · rw [hloop] at h
        cases h
      · rw [hloop] at h
        cases h
    · exact (EStateM.Result.error.inj h).2.symm

/-- A `spend` that returns an error leaves the storage as it was, and so does an `update_storage`
of its own: no error comes after a write. -/
theorem spend_error_unchanged (cfg : Config) (s : Storage) (tx : Transaction) :
    (∀ e s', (spend cfg tx).run s = .error (.error e) s' → s' = s) ∧
      ∀ reward e s', (updateStorage cfg tx reward).run s = .error (.error e) s' → s' = s :=
  ⟨fun _ _ h => run_spend_eq_error h, fun _ _ _ h => run_updateStorage_eq_error h⟩

/-- A transaction that was executed is refused the second time. -/
theorem spend_error_unchanged_sample :
    ∃ e s', (spend Sample.config Sample.aliceSpends).run (Sample.after 3).2.storage =
      .error (.error e) s' ∧ s' = (Sample.after 3).2.storage := by
  have hvalid : validateTransaction Sample.config (Sample.after 3).2.storage.utxoStore
      Sample.aliceSpends = .error (.error (.other "output already exists")) := by
    decide +kernel
  have hrun : (spend Sample.config Sample.aliceSpends).run (Sample.after 3).2.storage =
      .error (.error (.other "output already exists")) (Sample.after 3).2.storage := by
    rw [run_spend, hvalid]
  exact ⟨_, _, hrun, (spend_error_unchanged _ _ _).1 _ _ hrun⟩

end PowEvm.Utxo
