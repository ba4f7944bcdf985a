import PowEvm.Runtime.Types

/-!
# The UTXO pallet

`utxo.rs`: the genesis builder, the validation of a transaction, its execution, and the payment of
the block reward when a block is finalized.

Validation only reads the UTXO store, so it is a function of it. The loops over the inputs and
outputs are folds of one step each, with the accumulators the source declares before the loop.
-/

namespace PowEvm.Utxo

open Integers

/-! ## Keys -/

/-- The bytes hashed into the key of an output, `(&transaction.encode(), output_index).encode()`. -/
def outputPreimage (transaction : Transaction) (outputIndex : BitVec 64) : Option Bytes := do
  let encoded ← transaction.encode
  (Scale.bytes.prod (Codec.fixed u64Layout)).encode (encoded, outputIndex)

/-- `BlakeTwo256::hash_of(&(&transaction.encode(), output_index))`. -/
def outputHash (cfg : Config) (transaction : Transaction) (outputIndex : BitVec 64) :
    Option H256 :=
  (outputPreimage transaction outputIndex).map cfg.blakeTwo256

/-- The bytes hashed into the key of a block reward: the output, then the block number as a
`u64`. -/
def rewardPreimage (utxo : TransactionOutput) (block : BitVec 64) : Bytes :=
  utxo.encode ++ (u64Layout block).toList

/-- `BlakeTwo256::hash_of(&(&utxo, block_number.saturated_into::<u64>()))`. -/
def rewardHash (cfg : Config) (utxo : TransactionOutput) (block : BlockNumber) : H256 :=
  cfg.blakeTwo256 (rewardPreimage utxo (block.setWidth 64))

/-! ## Genesis -/

/-- `UtxoStore build`: every configured output under the hash of its encoding. -/
def genesisUtxos (cfg : Config) (genesisUtxos : List TransactionOutput) : UtxoStore :=
  Finmap.insertAll (genesisUtxos.map fun u => (cfg.blakeTwo256 u.encode, u)) ∅

/-- Storage after genesis. -/
def genesis (cfg : Config) (utxos : List TransactionOutput) : Storage where
  utxoStore := genesisUtxos cfg utxos
  rewardTotal := 0
  author := none
  number := 0
  events := []

/-! ## Validation -/

/-- The encoding of the transaction with every sigscript zeroed, the message that is signed. -/
def getSimpleTransaction (transaction : Transaction) : Option Bytes :=
  Transaction.encode { transaction with
    inputs := transaction.inputs.map fun input =>
      { input with sigscript := List.Vector.replicate 64 0 } }

/-- `get_missing_utxos`: the outpoints that are not in the store. -/
def getMissingUtxos (utxoStore : UtxoStore) (transaction : Transaction) : List H256 :=
  (transaction.inputs.filter fun input => (utxoStore.lookup input.outpoint).isNone).map
    TransactionInput.outpoint

/-- One input: `total_input` and `missing_utxos`. -/
def checkInput (cfg : Config) (utxoStore : UtxoStore) (simpleTransaction : Bytes)
    (acc : Value × List Bytes) (input : TransactionInput) : Except Failure (Value × List Bytes) :=
  match utxoStore.lookup input.outpoint with
  | some inputUtxo => do
    ensure (cfg.sr25519Verify input.sigscript simpleTransaction inputUtxo.pubkey = true)
      "signature must be valid"
    let totalInput ← okOr (checkedAdd acc.1 inputUtxo.value) "input value overflow"
    return (totalInput, acc.2)
  | none => return (acc.1, acc.2 ++ [input.outpoint.toList])

/-- One output: `total_output`, `output_index` and `new_utxos`. -/
def checkOutput (cfg : Config) (utxoStore : UtxoStore) (transaction : Transaction)
    (acc : Value × BitVec 64 × List Bytes) (output : TransactionOutput) :
    Except Failure (Value × BitVec 64 × List Bytes) := do
  ensure (0 < output.value) "output value must be nonzero"
  let hash ← orPanic (outputHash cfg transaction acc.2.1)
  let outputIndex ← okOr (checkedAdd acc.2.1 1) "output index overflow"
  ensure (hash ∉ utxoStore) "output already exists"
  let totalOutput ← okOr (checkedAdd acc.1 output.value) "output value overflow"
  return (totalOutput, outputIndex, acc.2.2 ++ [hash.toList])

/-- The reward of a transaction, which stays zero while an input is missing. -/
def checkReward (totalInput totalOutput : Value) (missingUtxos : List Bytes) :
    Except Failure Value :=
  if missingUtxos.isEmpty then do
    ensure (totalOutput ≤ totalInput) "output value must not exceed input value"
    okOr (checkedSub totalInput totalOutput) "reward underflow"
  else return 0

/-- `validate_transaction`. -/
def validateTransaction (cfg : Config) (utxoStore : UtxoStore) (transaction : Transaction) :
    Except Failure ValidTransaction := do
  ensure (transaction.inputs ≠ []) "no inputs"
  ensure (transaction.outputs ≠ []) "no outputs"
  -- the maps of the source are keyed by whole inputs and whole outputs
  ensure (transaction.inputs.toFinset.card = transaction.inputs.length)
    "each input must only be used once"
  ensure (transaction.outputs.toFinset.card = transaction.outputs.length)
    "each output must be defined only once"
  let simpleTransaction ← orPanic (getSimpleTransaction transaction)
  let (totalInput, missingUtxos) ←
    transaction.inputs.foldlM (checkInput cfg utxoStore simpleTransaction) (0, [])
  let (totalOutput, _, newUtxos) ←
    transaction.outputs.foldlM (checkOutput cfg utxoStore transaction) (0, 0, [])
  let reward ← checkReward totalInput totalOutput missingUtxos
  return {
    requires := missingUtxos
    provides := newUtxos
    priority := reward.setWidth 64
    longevity := BitVec.allOnes 64
    propagate := true }

/-! ## Execution -/

/-- `Self::deposit_event`. -/
def depositEvent (event : Event) : Dispatch Unit :=
  modify fun s => { s with events := s.events ++ [event] }

/-- `<UtxoStore>::remove(input.outpoint)`. -/
def removeInput (input : TransactionInput) : Dispatch Unit :=
  modify fun s => { s with utxoStore := s.utxoStore.erase input.outpoint }

/-- One output of the insertion loop, returning the next index. -/
def insertOutput (cfg : Config) (transaction : Transaction) (index : BitVec 64)
    (output : TransactionOutput) : Dispatch (BitVec 64) := do
  let hash ← ofExcept (orPanic (outputHash cfg transaction index))
  let next ← ofExcept (okOr (checkedAdd index 1) "output index overflow")
  modify fun s => { s with utxoStore := s.utxoStore.insert hash output }
  return next

/-- `update_storage`. -/
def updateStorage (cfg : Config) (transaction : Transaction) (reward : Value) : Dispatch Unit := do
  let newTotal ← ofExcept (okOr (checkedAdd (← get).rewardTotal reward) "Reward overflow")
  modify fun s => { s with rewardTotal := newTotal }
  transaction.inputs.forM removeInput
  let _ ← transaction.outputs.foldlM (insertOutput cfg transaction) 0

/-- `spend`, which any origin may call. -/
def spend (cfg : Config) (transaction : Transaction) : Dispatch Unit := do
  let transactionValidity ← ofExcept (validateTransaction cfg (← get).utxoStore transaction)
  ofExcept (ensure (transactionValidity.requires = []) "missing inputs")
  updateStorage cfg transaction (transactionValidity.priority.setWidth 128)
  depositEvent (.transactionSuccess transaction)

/-! ## Finalization -/

/-- `disperse_reward`. -/
def disperseReward (cfg : Config) (author : Public) : Dispatch Unit := do
  let total := (← get).rewardTotal
  modify fun s => { s with rewardTotal := 0 }
  let issued ← ofExcept (orPanic (cfg.issuance (← get).number))
  let reward ← ofExcept (orPanic (Integers.add cfg.overflowChecks total issued))
  let utxo : TransactionOutput := { value := reward, pubkey := author }
  let hash := rewardHash cfg utxo (← get).number
  modify fun s => { s with utxoStore := s.utxoStore.insert hash utxo }
  depositEvent (.rewardsIssued reward hash)

/-- `on_finalize`, with `T::BlockAuthor` the block author pallet. -/
def onFinalize (cfg : Config) : Dispatch Unit := do
  match (← get).author with
  | none => depositEvent .rewardsWasted
  | some author => disperseReward cfg author

end PowEvm.Utxo
