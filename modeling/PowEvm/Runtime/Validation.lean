import Mathlib.Algebra.Order.BigOperators.Group.List
import PowEvm.Library.Fallible
import PowEvm.Runtime.Preimages

/-!
# What validation accepts

`validateTransaction_eq_ok_iff` says exactly when `validateTransaction` accepts a transaction and
what it returns then: the loops are replaced by their totals, the maps of the uniqueness checks by
`Nodup`, and the accumulated vectors by the missing outpoints and the created keys.
-/

namespace PowEvm.Utxo

open Integers

variable {cfg : Config} {store : UtxoStore} {tx : Transaction} {message : Bytes}

/-! ## The helpers -/

theorem ensure_eq_ok_iff {condition : Prop} [Decidable condition] {text : String} {u : Unit} :
    ensure condition text = .ok u ↔ condition := by
  unfold ensure
  split_ifs with h <;> simp [h]

theorem okOr_eq_ok_iff {α : Type} {value : Option α} {text : String} {a : α} :
    okOr value text = .ok a ↔ value = some a := by
  cases value <;> simp [okOr]

theorem orPanic_eq_ok_iff {α : Type} {value : Option α} {a : α} :
    orPanic value = .ok a ↔ value = some a := by
  cases value <;> simp [orPanic]

/-! ## The input loop -/

/-- The value of the UTXO an outpoint refers to, `0` when there is none. -/
def valueOf (store : UtxoStore) (outpoint : H256) : ℕ :=
  store.weightAt (fun utxo => utxo.value.toNat) outpoint

/-- The sum over the inputs of the value each one refers to. -/
def inputTotal (store : UtxoStore) (tx : Transaction) : ℕ := (tx.outpoints.map (valueOf store)).sum

/-- The sigscript of an input is accepted for the owner of the UTXO it refers to, if there is
one. -/
def Signed (cfg : Config) (store : UtxoStore) (message : Bytes) (input : TransactionInput) : Prop :=
  ∀ utxo, store.lookup input.outpoint = some utxo →
    cfg.sr25519Verify input.sigscript message utxo.pubkey = true

/-- The outpoints of a list of inputs that are not in the store. -/
def missingOf (store : UtxoStore) (inputs : List TransactionInput) : List H256 :=
  (inputs.filter fun input => (store.lookup input.outpoint).isNone).map TransactionInput.outpoint

theorem missingOf_cons (store : UtxoStore) (input : TransactionInput)
    (inputs : List TransactionInput) :
    missingOf store (input :: inputs) = missingOf store [input] ++ missingOf store inputs := by
  unfold missingOf
  rw [← List.map_append, ← List.filter_append]
  rfl

theorem checkInput_eq_ok_iff {acc acc' : Value × List Bytes} {input : TransactionInput} :
    checkInput cfg store message acc input = .ok acc' ↔
      Signed cfg store message input ∧
        acc'.1.toNat = acc.1.toNat + valueOf store input.outpoint ∧
        acc'.2 = acc.2 ++ (missingOf store [input]).map List.Vector.toList := by
  unfold checkInput Signed valueOf missingOf Finmap.weightAt
  cases h : store.lookup input.outpoint with
  | none =>
    change Except.ok (acc.1, acc.2 ++ [input.outpoint.toList]) = .ok acc' ↔ _
    constructor
    · intro hacc
      obtain rfl := Except.ok.inj hacc
      simp [h]
    · -- a missing input adds nothing, and no signature is checked for it
      rintro ⟨-, htotal, hmissing⟩
      have htotal' : acc'.1 = acc.1 := BitVec.eq_of_toNat_eq (by simpa using htotal)
      have hmissing' : acc'.2 = acc.2 ++ [input.outpoint.toList] := by simpa [h] using hmissing
      exact congrArg Except.ok (Prod.ext htotal'.symm hmissing'.symm)
  | some utxo =>
    -- a present one is signed for, and its value is added without overflow
    simp only [Except.bind_eq_ok_iff, ensure_eq_ok_iff, okOr_eq_ok_iff, checkedAdd_eq_some_iff]
    constructor
    · rintro ⟨-, hsigned, total, htotal, hacc⟩
      obtain rfl := Except.ok.inj hacc
      exact ⟨by simpa using hsigned, by simpa using htotal, by simp [h]⟩
    · rintro ⟨hsigned, htotal, hmissing⟩
      refine ⟨(), hsigned utxo rfl, acc'.1, by simpa using htotal, ?_⟩
      have hmissing' : acc'.2 = acc.2 := by simpa [h] using hmissing
      exact congrArg Except.ok (Prod.ext rfl hmissing'.symm)

/-- The loop over the inputs adds up the values, checks every signature, and collects the missing
outpoints. -/
theorem foldlM_checkInput_eq_ok_iff {inputs : List TransactionInput}
    {acc acc' : Value × List Bytes} :
    inputs.foldlM (checkInput cfg store message) acc = .ok acc' ↔
      (∀ input ∈ inputs, Signed cfg store message input) ∧
        acc'.1.toNat = acc.1.toNat + (inputs.map fun input => valueOf store input.outpoint).sum ∧
        acc'.2 = acc.2 ++ (missingOf store inputs).map List.Vector.toList := by
  induction inputs generalizing acc with
  | nil =>
    change Except.ok acc = .ok acc' ↔ _
    constructor
    · intro hacc
      obtain rfl := Except.ok.inj hacc
      simp [missingOf]
    · rintro ⟨-, htotal, hmissing⟩
      have htotal' : acc'.1 = acc.1 := BitVec.eq_of_toNat_eq (by simpa using htotal)
      have hmissing' : acc'.2 = acc.2 := by simpa [missingOf] using hmissing
      exact congrArg Except.ok (Prod.ext htotal'.symm hmissing'.symm)
  | cons input inputs ih =>
    simp only [Except.foldlM_cons_eq_ok_iff, checkInput_eq_ok_iff, ih]
    rw [List.map_cons, List.sum_cons, missingOf_cons store input inputs, List.map_append,
      List.forall_mem_cons]
    constructor
    · -- the first step and the rest of the loop make up the totals
      rintro ⟨mid, ⟨hsigned, hmid, hmid'⟩, hrest, htotal, hmissing⟩
      refine ⟨⟨hsigned, hrest⟩, by omega, ?_⟩
      rw [hmissing, hmid', List.append_assoc]
    · rintro ⟨⟨hsigned, hrest⟩, htotal, hmissing⟩
      -- the partial sum is below the final one, which is a `u128`
      have hlt := acc'.1.isLt
      let mid : Value × List Bytes :=
        (BitVec.ofNat 128 (acc.1.toNat + valueOf store input.outpoint),
          acc.2 ++ (missingOf store [input]).map List.Vector.toList)
      have hmid : mid.1.toNat = acc.1.toNat + valueOf store input.outpoint :=
        toNat_ofNat_of_lt (by omega)
      exact ⟨mid, ⟨hsigned, hmid, rfl⟩, hrest, by omega, by rw [hmissing, List.append_assoc]⟩

/-! ## The output loop -/

/-- The key under which the output at `index` is filed, given the stem of the transaction. -/
def keyAt (cfg : Config) (stem : Bytes) (index : ℕ) : H256 :=
  cfg.blakeTwo256 (stem ++ (u64Layout (BitVec.ofNat 64 index)).toList)

/-- Outputs numbered from `index` on, each with the preimage of its key. -/
def filedFrom (stem : Bytes) : List TransactionOutput → ℕ → List (Bytes × TransactionOutput)
  | [], _ => []
  | output :: outputs, index =>
    (stem ++ (u64Layout (BitVec.ofNat 64 index)).toList, output) ::
      filedFrom stem outputs (index + 1)

/-- The outputs a transaction files, none when its encoding stops the program. -/
def filed (tx : Transaction) : List (Bytes × TransactionOutput) :=
  (outputStem tx).elim [] fun stem => filedFrom stem tx.outputs 0

/-- Outputs under the hashes of their preimages. -/
def hashed (cfg : Config) (outputs : List (Bytes × TransactionOutput)) :
    List (H256 × TransactionOutput) :=
  outputs.map fun p => (cfg.blakeTwo256 p.1, p.2)

/-- Outputs numbered from `index` on, with their keys. -/
def entriesFrom (cfg : Config) (stem : Bytes) (outputs : List TransactionOutput) (index : ℕ) :
    List (H256 × TransactionOutput) :=
  hashed cfg (filedFrom stem outputs index)

/-- The entries a transaction creates. -/
def createdEntries (cfg : Config) (tx : Transaction) : List (H256 × TransactionOutput) :=
  hashed cfg (filed tx)

/-- The keys a transaction creates. -/
def createdKeys (cfg : Config) (tx : Transaction) : List H256 :=
  (createdEntries cfg tx).map Prod.fst

theorem entriesFrom_cons (cfg : Config) (stem : Bytes) (output : TransactionOutput)
    (outputs : List TransactionOutput) (index : ℕ) :
    entriesFrom cfg stem (output :: outputs) index =
      (keyAt cfg stem index, output) :: entriesFrom cfg stem outputs (index + 1) :=
  rfl

theorem outputHash_eq {stem : Bytes} (hstem : outputStem tx = some stem) (index : BitVec 64) :
    outputHash cfg tx index = some (keyAt cfg stem index.toNat) := by
  rw [outputHash, outputPreimage_eq, hstem, keyAt, BitVec.ofNat_toNat, BitVec.setWidth_eq]
  rfl

theorem filedFrom_map_snd {stem : Bytes} {outputs : List TransactionOutput} {index : ℕ} :
    (filedFrom stem outputs index).map Prod.snd = outputs := by
  induction outputs generalizing index with
  | nil => rfl
  | cons output outputs ih => rw [filedFrom, List.map_cons, ih]

theorem checkOutput_eq_ok_iff {stem : Bytes} (hstem : outputStem tx = some stem)
    {acc acc' : Value × BitVec 64 × List Bytes} {output : TransactionOutput} :
    checkOutput cfg store tx acc output = .ok acc' ↔
      0 < output.value ∧ keyAt cfg stem acc.2.1.toNat ∉ store ∧
        acc'.1.toNat = acc.1.toNat + output.value.toNat ∧
        acc'.2.1.toNat = acc.2.1.toNat + 1 ∧
        acc'.2.2 = acc.2.2 ++ [(keyAt cfg stem acc.2.1.toNat).toList] := by
  unfold checkOutput
  simp only [Except.bind_eq_ok_iff, ensure_eq_ok_iff, okOr_eq_ok_iff, orPanic_eq_ok_iff,
    checkedAdd_eq_some_iff, outputHash_eq hstem, Option.some.injEq]
  constructor
  · rintro ⟨-, hpos, hash, rfl, next, hnext, -, hfresh, total, htotal, hacc⟩
    obtain rfl := Except.ok.inj hacc
    exact ⟨hpos, hfresh, htotal, by simpa using hnext, rfl⟩
  · rintro ⟨hpos, hfresh, htotal, hnext, hkeys⟩
    refine ⟨(), hpos, _, rfl, acc'.2.1, by simpa using hnext, (), hfresh, acc'.1, htotal, ?_⟩
    exact congrArg Except.ok (Prod.ext rfl (Prod.ext rfl hkeys.symm))

/-- The loop over the outputs adds up the values, and collects keys that are new to the store. -/
theorem foldlM_checkOutput_eq_ok_iff {stem : Bytes} (hstem : outputStem tx = some stem)
    {outputs : List TransactionOutput} {acc acc' : Value × BitVec 64 × List Bytes} :
    outputs.foldlM (checkOutput cfg store tx) acc = .ok acc' ↔
      (∀ output ∈ outputs, 0 < output.value) ∧
        (∀ e ∈ entriesFrom cfg stem outputs acc.2.1.toNat, e.1 ∉ store) ∧
        acc'.1.toNat = acc.1.toNat + (outputs.map fun output => output.value.toNat).sum ∧
        acc'.2.1.toNat = acc.2.1.toNat + outputs.length ∧
        acc'.2.2 = acc.2.2 ++
          (entriesFrom cfg stem outputs acc.2.1.toNat).map fun e => e.1.toList := by
  induction outputs generalizing acc with
  | nil =>
    change Except.ok acc = .ok acc' ↔ _
    constructor
    · intro hacc
      obtain rfl := Except.ok.inj hacc
      simp [entriesFrom, hashed, filedFrom]
    · rintro ⟨-, -, htotal, hindex, hkeys⟩
      have htotal' : acc'.1 = acc.1 := BitVec.eq_of_toNat_eq (by simpa using htotal)
      have hindex' : acc'.2.1 = acc.2.1 := BitVec.eq_of_toNat_eq (by simpa using hindex)
      have hkeys' : acc'.2.2 = acc.2.2 := by
        simpa [entriesFrom, hashed, filedFrom] using hkeys
      exact congrArg Except.ok
        (Prod.ext htotal'.symm (Prod.ext hindex'.symm hkeys'.symm))
  | cons output outputs ih =>
    simp only [Except.foldlM_cons_eq_ok_iff, checkOutput_eq_ok_iff hstem, ih]
    rw [List.map_cons, List.sum_cons, List.length_cons, entriesFrom_cons, List.map_cons,
      List.forall_mem_cons, List.forall_mem_cons]
    constructor
    · rintro ⟨mid, ⟨hpos, hfresh, hmid, hindex, hkeys⟩, hposs, hfreshs, htotal, hlen, hall⟩
      -- the rest of the loop numbers its outputs from the next index on
      rw [hindex] at hfreshs hall
      refine ⟨⟨hpos, hposs⟩, ⟨hfresh, hfreshs⟩, by omega, by omega, ?_⟩
      rw [hall, hkeys, List.append_assoc]
      rfl
    · rintro ⟨⟨hpos, hposs⟩, ⟨hfresh, hfreshs⟩, htotal, hlen, hall⟩
      -- both partial sums are below the final ones
      have hlt := acc'.1.isLt
      have hlt' := acc'.2.1.isLt
      let mid : Value × BitVec 64 × List Bytes :=
        (BitVec.ofNat 128 (acc.1.toNat + output.value.toNat),
          BitVec.ofNat 64 (acc.2.1.toNat + 1),
          acc.2.2 ++ [(keyAt cfg stem acc.2.1.toNat).toList])
      have hmid : mid.1.toNat = acc.1.toNat + output.value.toNat :=
        toNat_ofNat_of_lt (by omega)
      have hindex : mid.2.1.toNat = acc.2.1.toNat + 1 := toNat_ofNat_of_lt (by omega)
      refine ⟨mid, ⟨hpos, hfresh, hmid, hindex, rfl⟩, hposs, ?_, by omega, by omega, ?_⟩
      · rwa [hindex]
      · rw [hindex, hall, List.append_assoc]
        rfl

/-! ## Validation -/

/-- What validation checks, with the message that is signed and the stem of the created keys. -/
structure Accepted (cfg : Config) (store : UtxoStore) (tx : Transaction) (message stem : Bytes) :
    Prop where
  inputs_ne : tx.inputs ≠ []
  outputs_ne : tx.outputs ≠ []
  inputs_nodup : tx.inputs.Nodup
  outputs_nodup : tx.outputs.Nodup
  simple : getSimpleTransaction tx = some message
  stem_eq : outputStem tx = some stem
  signed : ∀ input ∈ tx.inputs, Signed cfg store message input
  positive : ∀ output ∈ tx.outputs, 0 < output.value
  fresh : ∀ k ∈ createdKeys cfg tx, k ∉ store
  input_lt : inputTotal store tx < 2 ^ 128
  output_lt : tx.outputTotal < 2 ^ 128
  balanced : missingOf store tx.inputs = [] → tx.outputTotal ≤ inputTotal store tx

theorem outpoints_eq_nil_iff : tx.outpoints = [] ↔ tx.inputs = [] := List.map_eq_nil_iff

theorem Accepted.outpoints_ne {stem : Bytes} (h : Accepted cfg store tx message stem) :
    tx.outpoints ≠ [] :=
  mt outpoints_eq_nil_iff.mp h.inputs_ne

/-- What the inputs are worth above the outputs, `0` while an input is missing. -/
def feeOf (store : UtxoStore) (tx : Transaction) : ℕ :=
  if missingOf store tx.inputs = [] then inputTotal store tx - tx.outputTotal else 0

/-- What validation returns for a transaction it accepts. The priority is the fee cut down to a
`u64`. -/
def validTransactionOf (cfg : Config) (store : UtxoStore) (tx : Transaction) :
    ValidTransaction where
  requires := (missingOf store tx.inputs).map List.Vector.toList
  provides := (createdKeys cfg tx).map List.Vector.toList
  priority := BitVec.ofNat 64 (feeOf store tx)
  longevity := BitVec.allOnes 64
  propagate := true

theorem filed_eq {stem : Bytes} (h : outputStem tx = some stem) :
    filed tx = filedFrom stem tx.outputs 0 := by
  rw [filed, h]
  rfl

theorem createdEntries_eq {stem : Bytes} (h : outputStem tx = some stem) :
    createdEntries cfg tx = entriesFrom cfg stem tx.outputs 0 := by
  rw [createdEntries, filed_eq h]
  rfl

theorem length_createdEntries (cfg : Config) {stem : Bytes} (h : outputStem tx = some stem) :
    (createdEntries cfg tx).length = tx.outputs.length := by
  have hsnd : ((filedFrom stem tx.outputs 0).map Prod.snd).length = tx.outputs.length :=
    congrArg List.length filedFrom_map_snd
  rw [List.length_map] at hsnd
  rw [createdEntries_eq h, entriesFrom, hashed, List.length_map, hsnd]

/-- The whole loop over the outputs collects the keys the transaction creates. -/
theorem outputLoop_eq_ok_iff {stem : Bytes} (hstem : outputStem tx = some stem)
    {acc : Value × BitVec 64 × List Bytes} :
    tx.outputs.foldlM (checkOutput cfg store tx) (0, 0, []) = .ok acc ↔
      (∀ output ∈ tx.outputs, 0 < output.value) ∧ (∀ k ∈ createdKeys cfg tx, k ∉ store) ∧
        acc.1.toNat = tx.outputTotal ∧ acc.2.1.toNat = tx.outputs.length ∧
        acc.2.2 = (createdKeys cfg tx).map List.Vector.toList := by
  rw [foldlM_checkOutput_eq_ok_iff hstem, createdKeys, createdEntries_eq hstem, List.map_map,
    List.forall_mem_map]
  simp only [BitVec.ofNat_eq_ofNat, BitVec.toNat_ofNat, Nat.zero_mod, Nat.zero_add,
    List.nil_append]
  rfl

theorem checkReward_eq_ok_iff {totalInput totalOutput reward : Value} {missing : List H256} :
    checkReward totalInput totalOutput (missing.map List.Vector.toList) = .ok reward ↔
      (missing = [] → totalOutput ≤ totalInput) ∧
        reward.toNat = if missing = [] then totalInput.toNat - totalOutput.toNat else 0 := by
  unfold checkReward
  cases missing with
  | nil =>
    -- nothing is missing: after the comparison the subtraction cannot underflow
    simp only [List.map_nil, List.isEmpty_nil, if_true, Except.bind_eq_ok_iff, ensure_eq_ok_iff,
      okOr_eq_ok_iff, checkedSub_eq_some_iff, true_implies]
    constructor
    · rintro ⟨-, hle, heq⟩
      exact ⟨hle, by omega⟩
    · rintro ⟨hle, heq⟩
      have hle' : totalOutput.toNat ≤ totalInput.toNat := hle
      exact ⟨(), hle, by omega⟩
  | cons outpoint missing =>
    change Except.ok 0 = .ok reward ↔ _
    simp [← BitVec.toNat_inj, eq_comm]

theorem inputTotal_eq (store : UtxoStore) (tx : Transaction) :
    inputTotal store tx = (tx.inputs.map fun input => valueOf store input.outpoint).sum := by
  rw [inputTotal, Transaction.outpoints, List.map_map]
  rfl

/-- The keys of the outputs are computed as soon as there is an output. -/
theorem exists_outputStem {acc acc' : Value × BitVec 64 × List Bytes} (hne : tx.outputs ≠ [])
    (h : tx.outputs.foldlM (checkOutput cfg store tx) acc = .ok acc') :
    ∃ stem, outputStem tx = some stem := by
  obtain ⟨output, outputs, houtputs⟩ := List.exists_cons_of_ne_nil hne
  rw [houtputs, Except.foldlM_cons_eq_ok_iff] at h
  obtain ⟨mid, hmid, -⟩ := h
  -- the hash of the first output was computed, so the transaction has an encoding
  simp only [checkOutput, Except.bind_eq_ok_iff, orPanic_eq_ok_iff] at hmid
  obtain ⟨-, -, key, hkey, -⟩ := hmid
  rw [outputHash, outputPreimage_eq, Option.map_eq_some_iff] at hkey
  obtain ⟨preimage, hpreimage, -⟩ := hkey
  obtain ⟨stem, hstem, -⟩ := Option.map_eq_some_iff.mp hpreimage
  exact ⟨stem, hstem⟩

/-- Validation accepts exactly the transactions that pass its checks. -/
theorem validateTransaction_eq_ok_iff {v : ValidTransaction} :
    validateTransaction cfg store tx = .ok v ↔
      (∃ message stem, Accepted cfg store tx message stem) ∧
        v = validTransactionOf cfg store tx := by
  -- a list has as many elements as the map keyed by them exactly when none occurs twice
  have inputsCard : tx.inputs.toFinset.card = tx.inputs.length ↔ tx.inputs.Nodup :=
    Multiset.toFinset_card_eq_card_iff_nodup
  have outputsCard : tx.outputs.toFinset.card = tx.outputs.length ↔ tx.outputs.Nodup :=
    Multiset.toFinset_card_eq_card_iff_nodup
  unfold validateTransaction
  simp only [Except.bind_eq_ok_iff, ensure_eq_ok_iff, orPanic_eq_ok_iff, inputsCard, outputsCard,
    foldlM_checkInput_eq_ok_iff, ← inputTotal_eq, List.nil_append, BitVec.ofNat_eq_ofNat,
    BitVec.toNat_ofNat, Nat.zero_mod, Nat.zero_add]
  constructor
  · rintro ⟨-, hinputs, -, houtputs, -, hinputsNodup, -, houtputsNodup, message, hsimple,
      totals, ⟨hsigned, htotal, hmissing⟩, created, hloop, reward, hreward, hv⟩
    -- the keys could be computed, as there is an output
    obtain ⟨stem, hstem⟩ := exists_outputStem houtputs hloop
    obtain ⟨hpositive, hfresh, houtputTotal, -, hkeys⟩ := (outputLoop_eq_ok_iff hstem).mp hloop
    rw [hmissing, checkReward_eq_ok_iff] at hreward
    obtain ⟨hbalanced, hfee⟩ := hreward
    obtain rfl := Except.ok.inj hv
    refine ⟨⟨message, stem, hinputs, houtputs, hinputsNodup, houtputsNodup, hsimple, hstem,
      hsigned, hpositive, hfresh, htotal ▸ totals.1.isLt, houtputTotal ▸ created.1.isLt, ?_⟩, ?_⟩
    · intro hnone
      have hle : created.1.toNat ≤ totals.1.toNat := hbalanced hnone
      omega
    · -- what is returned: the reward is the fee, the keys of the loop are the created ones
      have hfee' : reward.toNat = feeOf store tx := by rw [hfee, feeOf, htotal, houtputTotal]
      have hpriority : reward.setWidth 64 = BitVec.ofNat 64 (feeOf store tx) := by
        rw [← hfee', BitVec.ofNat_toNat]
      rw [validTransactionOf, hmissing, hpriority, hkeys]
  · rintro ⟨⟨message, stem, h⟩, rfl⟩
    -- the `u64` index reaches the number of outputs
    have hlength : tx.outputs.length < 2 ^ 64 :=
      (length_outputs_lt h.stem_eq).trans (by norm_num)
    have hfee : feeOf store tx < 2 ^ 128 := by
      have hlt := h.input_lt
      unfold feeOf
      split_ifs <;> omega
    -- every loop returns its totals, which fit
    refine ⟨(), h.inputs_ne, (), h.outputs_ne, (), h.inputs_nodup, (), h.outputs_nodup, message,
      h.simple, (BitVec.ofNat 128 (inputTotal store tx),
        (missingOf store tx.inputs).map List.Vector.toList), ⟨h.signed, ?_, rfl⟩,
      (BitVec.ofNat 128 tx.outputTotal, BitVec.ofNat 64 tx.outputs.length,
        (createdKeys cfg tx).map List.Vector.toList), ?_, BitVec.ofNat 128 (feeOf store tx), ?_, ?_⟩
    · exact toNat_ofNat_of_lt h.input_lt
    · exact (outputLoop_eq_ok_iff h.stem_eq).mpr ⟨h.positive, h.fresh,
        toNat_ofNat_of_lt h.output_lt, toNat_ofNat_of_lt hlength, rfl⟩
    · rw [checkReward_eq_ok_iff, toNat_ofNat_of_lt hfee,
        toNat_ofNat_of_lt h.input_lt, toNat_ofNat_of_lt h.output_lt]
      refine ⟨fun hnone => ?_, rfl⟩
      rw [BitVec.le_def, toNat_ofNat_of_lt h.input_lt,
        toNat_ofNat_of_lt h.output_lt]
      exact h.balanced hnone
    · have hpriority :
          (BitVec.ofNat 128 (feeOf store tx)).setWidth 64 = BitVec.ofNat 64 (feeOf store tx) := by
        rw [BitVec.setWidth_ofNat_of_le (by norm_num)]
      rw [validTransactionOf, hpriority]
      rfl

end PowEvm.Utxo
