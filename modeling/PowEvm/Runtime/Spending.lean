import PowEvm.Runtime.Validation

/-!
# What `spend` does

`spend` validates, then updates storage in two loops. Its effect is one bulk erasure of the
outpoints and one bulk insertion of the created entries, and a failing call writes nothing.

## Main results

* `run_spend_eq_ok_iff`: `spend` succeeds on exactly the transactions that are `Spendable`, and
  ends in `spentStorage`;
* `run_spend_eq_error`: a failing `spend` leaves the storage as it was.
-/

namespace PowEvm.Utxo

open Integers

variable {cfg : Config} {s s' : Storage} {tx : Transaction} {message stem : Bytes}

/-- The amount a successful `spend` adds to `RewardTotal`: the fee, cut down to a `u64` when it
passes through the priority. -/
def creditedFee (store : UtxoStore) (tx : Transaction) : ℕ :=
  (inputTotal store tx - tx.outputTotal) % 2 ^ 64

/-- What `spend` checks, with the message that is signed and the stem of the created keys. -/
structure Spendable (cfg : Config) (s : Storage) (tx : Transaction) (message stem : Bytes) :
    Prop where
  accepted : Accepted cfg s.utxoStore tx message stem
  present : ∀ k ∈ tx.outpoints, k ∈ s.utxoStore
  reward_lt : s.rewardTotal.toNat + creditedFee s.utxoStore tx < 2 ^ 128

/-- The storage after a successful `spend`. -/
def spentStorage (cfg : Config) (s : Storage) (tx : Transaction) : Storage :=
  { s with
    utxoStore := Finmap.insertAll (createdEntries cfg tx)
      (Finmap.eraseAll tx.outpoints s.utxoStore)
    rewardTotal := BitVec.ofNat 128 (s.rewardTotal.toNat + creditedFee s.utxoStore tx)
    events := s.events ++ [.transactionSuccess tx] }

theorem mem_spentStorage_iff {k : H256} :
    k ∈ (spentStorage cfg s tx).utxoStore ↔
      (k ∈ s.utxoStore ∧ k ∉ tx.outpoints) ∨ k ∈ createdKeys cfg tx := by
  change k ∈ Finmap.insertAll (createdEntries cfg tx) _ ↔ _
  rw [Finmap.mem_insertAll, Finmap.mem_eraseAll]
  rfl

/-- An input carries a sigscript that is accepted for the owner of the UTXO it refers to. -/
def claims (cfg : Config) (s : Storage) (tx : Transaction) (input : TransactionInput) : Bool :=
  match getSimpleTransaction tx, s.utxoStore.lookup input.outpoint with
  | some message, some utxo => cfg.sr25519Verify input.sigscript message utxo.pubkey
  | _, _ => false

/-- Every input of a spendable transaction claims its UTXO. -/
theorem Spendable.claims (h : Spendable cfg s tx message stem) {input : TransactionInput}
    (hinput : input ∈ tx.inputs) : claims cfg s tx input = true := by
  obtain ⟨utxo, hutxo⟩ := Finmap.mem_iff.mp (h.present _ (List.mem_map_of_mem hinput))
  unfold Utxo.claims
  rw [h.accepted.simple, hutxo]
  exact h.accepted.signed input hinput utxo hutxo

/-! ## The loops of `update_storage` -/

/-- The first loop erases the outpoints. -/
theorem run_forM_removeInput (inputs : List TransactionInput) (s : Storage) :
    (inputs.forM removeInput).run s =
      .ok () { s with
        utxoStore := Finmap.eraseAll (inputs.map TransactionInput.outpoint) s.utxoStore } := by
  induction inputs generalizing s with
  | nil => rfl
  | cons input inputs ih => exact ih { s with utxoStore := s.utxoStore.erase input.outpoint }

/-- The second loop files the outputs under their keys, and never runs out of indices. -/
theorem run_foldlM_insertOutput (cfg : Config) (hstem : outputStem tx = some stem)
    (outputs : List TransactionOutput) (index : ℕ) (s : Storage)
    (hlt : index + outputs.length < 2 ^ 64) :
    (outputs.foldlM (insertOutput cfg tx) (BitVec.ofNat 64 index)).run s =
      .ok (BitVec.ofNat 64 (index + outputs.length)) { s with
        utxoStore := Finmap.insertAll (entriesFrom cfg stem outputs index) s.utxoStore } := by
  induction outputs generalizing index s with
  | nil => rfl
  | cons output outputs ih =>
    rw [List.length_cons] at hlt
    -- below `2 ^ 64` the checked increment of the index does not fail
    have hindex : (BitVec.ofNat 64 index).toNat = index := toNat_ofNat_of_lt (by omega)
    have hkey :
        orPanic (outputHash cfg tx (BitVec.ofNat 64 index)) = .ok (keyAt cfg stem index) := by
      rw [outputHash_eq hstem, hindex]
      rfl
    have hnext : okOr (checkedAdd (BitVec.ofNat 64 index) 1) "output index overflow" =
        .ok (BitVec.ofNat 64 (index + 1)) := by
      rw [okOr_eq_ok_iff, checkedAdd_eq_some_iff, hindex, toNat_ofNat_of_lt (by omega)]
      rfl
    have hhead : (insertOutput cfg tx (BitVec.ofNat 64 index) output).run s =
        .ok (BitVec.ofNat 64 (index + 1))
          { s with utxoStore := s.utxoStore.insert (keyAt cfg stem index) output } := by
      unfold insertOutput
      rw [hkey, hnext]
      rfl
    -- the rest of the loop starts at the next index, from the store with this entry
    rw [List.foldlM_cons, EStateM.run_bind, hhead]
    have htail := ih (index + 1)
      { s with utxoStore := s.utxoStore.insert (keyAt cfg stem index) output } (by omega)
    rw [Nat.add_assoc, Nat.add_comm 1] at htail
    exact htail

/-- `update_storage` either refuses before it writes, or replaces the inputs by the outputs. -/
theorem run_updateStorage (hstem : outputStem tx = some stem) (reward : Value) :
    (updateStorage cfg tx reward).run s =
      if s.rewardTotal.toNat + reward.toNat < 2 ^ 128 then
        .ok () { s with
          utxoStore := Finmap.insertAll (createdEntries cfg tx)
            (Finmap.eraseAll tx.outpoints s.utxoStore)
          rewardTotal := s.rewardTotal + reward }
      else .error (.error (.other "Reward overflow")) s := by
  have hlength : 0 + tx.outputs.length < 2 ^ 64 := by
    have := length_outputs_lt hstem
    omega
  unfold updateStorage checkedAdd
  rw [EStateM.run_get_bind]
  split_ifs with hreward
  · -- the new total is written before the loops, which touch the store only
    let credited := { s with rewardTotal := s.rewardTotal + reward }
    change ((tx.inputs.forM removeInput >>= fun _ =>
      tx.outputs.foldlM (insertOutput cfg tx) 0 >>= fun _ => pure ()).run credited) = _
    rw [EStateM.run_bind, run_forM_removeInput]
    have hloop := run_foldlM_insertOutput cfg hstem tx.outputs 0
      { credited with utxoStore :=
          Finmap.eraseAll (tx.inputs.map TransactionInput.outpoint) s.utxoStore } hlength
    change ((tx.outputs.foldlM (insertOutput cfg tx) (BitVec.ofNat 64 0) >>=
      fun _ => pure ()).run _) = _
    rw [EStateM.run_bind, hloop, createdEntries_eq hstem]
    rfl
  · -- `Reward overflow` comes before the first write
    rfl

/-! ## The call -/

theorem missingOf_eq_nil_iff {store : UtxoStore} :
    missingOf store tx.inputs = [] ↔ ∀ k ∈ tx.outpoints, k ∈ store := by
  unfold missingOf Transaction.outpoints
  simp [Finmap.lookup_eq_none]

/-- With every input present the reward is the fee cut down to a `u64`. -/
theorem toNat_priority {store : UtxoStore} (h : ∀ k ∈ tx.outpoints, k ∈ store) :
    ((validTransactionOf cfg store tx).priority.setWidth 128).toNat = creditedFee store tx := by
  have hfee : feeOf store tx = inputTotal store tx - tx.outputTotal :=
    if_pos (missingOf_eq_nil_iff.mpr h)
  -- widening the priority again loses nothing more
  have hlt : (inputTotal store tx - tx.outputTotal) % 2 ^ 64 < 2 ^ 128 :=
    (Nat.mod_lt _ (by norm_num)).trans (by norm_num)
  rw [validTransactionOf, hfee, BitVec.toNat_setWidth, BitVec.toNat_ofNat, Nat.mod_eq_of_lt hlt,
    creditedFee]

/-- `spend` as what it does with the verdict of validation. -/
theorem run_spend (cfg : Config) (s : Storage) (tx : Transaction) :
    (spend cfg tx).run s =
      match validateTransaction cfg s.utxoStore tx with
      | .error e => .error e s
      | .ok v =>
        if v.requires = [] then
          (updateStorage cfg tx (v.priority.setWidth 128) >>= fun _ =>
            depositEvent (.transactionSuccess tx)).run s
        else .error (.error (.other "missing inputs")) s := by
  unfold spend ensure
  rw [EStateM.run_get_bind]
  cases validateTransaction cfg s.utxoStore tx with
  | error e => rfl
  | ok v =>
    rw [EStateM.run_ofExcept_ok_bind]
    dsimp only
    split_ifs with h
    · rw [EStateM.run_ofExcept_ok_bind]
    · rw [EStateM.run_ofExcept_error_bind]

/-- What `spend` does with a transaction that validation accepts. -/
theorem run_spend_of_accepted (h : Accepted cfg s.utxoStore tx message stem) :
    (spend cfg tx).run s =
      if missingOf s.utxoStore tx.inputs = [] then
        if s.rewardTotal.toNat + creditedFee s.utxoStore tx < 2 ^ 128 then
          .ok () (spentStorage cfg s tx)
        else .error (.error (.other "Reward overflow")) s
      else .error (.error (.other "missing inputs")) s := by
  have hvalid : validateTransaction cfg s.utxoStore tx =
      .ok (validTransactionOf cfg s.utxoStore tx) :=
    validateTransaction_eq_ok_iff.mpr ⟨⟨message, stem, h⟩, rfl⟩
  have hrequires : (validTransactionOf cfg s.utxoStore tx).requires = [] ↔
      missingOf s.utxoStore tx.inputs = [] := by
    rw [validTransactionOf, List.map_eq_nil_iff]
  rw [run_spend, hvalid]
  dsimp only
  rw [if_congr hrequires rfl rfl]
  split_ifs with hmissing hreward
  · -- with all inputs present the priority is the fee, which the total has room for
    have hpresent := missingOf_eq_nil_iff.mp hmissing
    rw [EStateM.run_bind, run_updateStorage h.stem_eq, toNat_priority hpresent, if_pos hreward]
    have htotal : s.rewardTotal +
        (validTransactionOf cfg s.utxoStore tx).priority.setWidth 128 =
          BitVec.ofNat 128 (s.rewardTotal.toNat + creditedFee s.utxoStore tx) := by
      apply BitVec.eq_of_toNat_eq
      rw [BitVec.toNat_add, toNat_priority hpresent, BitVec.toNat_ofNat]
    rw [htotal]
    rfl
  · have hpresent := missingOf_eq_nil_iff.mp hmissing
    rw [EStateM.run_bind, run_updateStorage h.stem_eq, toNat_priority hpresent, if_neg hreward]
  · rfl

/-- `spend` succeeds on exactly the transactions that are spendable. -/
theorem run_spend_eq_ok_iff {u : Unit} :
    (spend cfg tx).run s = .ok u s' ↔
      (∃ message stem, Spendable cfg s tx message stem) ∧ s' = spentStorage cfg s tx := by
  constructor
  · intro h
    obtain ⟨message, stem, haccepted⟩ :
        ∃ message stem, Accepted cfg s.utxoStore tx message stem := by
      rw [run_spend] at h
      cases hvalid : validateTransaction cfg s.utxoStore tx with
      | error e => simp [hvalid] at h
      | ok v => exact (validateTransaction_eq_ok_iff.mp hvalid).1
    rw [run_spend_of_accepted haccepted] at h
    -- the two branches that fail are not `ok`
    split_ifs at h with hmissing hreward
    obtain ⟨-, rfl⟩ := EStateM.Result.ok.inj h
    exact ⟨⟨message, stem, haccepted, missingOf_eq_nil_iff.mp hmissing, hreward⟩, rfl⟩
  · rintro ⟨⟨message, stem, h⟩, rfl⟩
    rw [run_spend_of_accepted h.accepted, if_pos (missingOf_eq_nil_iff.mpr h.present),
      if_pos h.reward_lt]

/-- A failing `spend` writes nothing. -/
theorem run_spend_eq_error {e : Failure} (h : (spend cfg tx).run s = .error e s') : s' = s := by
  cases hvalid : validateTransaction cfg s.utxoStore tx with
  | error e' =>
    rw [run_spend, hvalid] at h
    exact (EStateM.Result.error.inj h).2.symm
  | ok v =>
    -- once validation has accepted, both errors come before the first write
    obtain ⟨message, stem, haccepted⟩ := (validateTransaction_eq_ok_iff.mp hvalid).1
    rw [run_spend_of_accepted haccepted] at h
    split_ifs at h
    · exact (EStateM.Result.error.inj h).2.symm
    · exact (EStateM.Result.error.inj h).2.symm

end PowEvm.Utxo
