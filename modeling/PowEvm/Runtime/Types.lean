import PowEvm.Library.FiniteMap
import PowEvm.Library.Integers
import PowEvm.Library.Scale

/-!
# The data of the runtime pallets

The transactions of the UTXO pallet with their derived encodings, the storage the UTXO and block
author pallets share with the system pallet, and the ways a call can end.

Each `#[derive(Encode)]` is a `Codec`: the fields in order. Integers are little-endian, `H256` and
`H512` are their raw bytes, and a vector is its compact length followed by its elements. Encoding a
vector of `2 ^ 32` elements or more stops the program, which `encode` returning `none` stands for.
-/

namespace PowEvm

/-- `sp_core::H256`. -/
abbrev H256 := FixedBytes 32

/-- A digest from its big-endian value. -/
def h256 (n : ℕ) : H256 := ⟨(Scale.littleEndian 32 n).reverse, by simp⟩

/-- `sp_core::H512`. -/
abbrev H512 := FixedBytes 64

/-- `sp_core::U256`. -/
abbrev U256 := BitVec 256

/-- `sp_core::sr25519::Public`. -/
abbrev Public := FixedBytes 32

/-- The account ids of the runtime. -/
abbrev AccountId := FixedBytes 32

/-- `pub type Value = u128`. -/
abbrev Value := BitVec 128

/-- `pub type BlockNumber = u32`. -/
abbrev BlockNumber := BitVec 32

/-! ## Transactions -/

/-- Single transaction input that refers to one UTXO. -/
structure TransactionInput where
  outpoint : H256
  sigscript : H512
  deriving DecidableEq

/-- Single transaction output to create upon transaction dispatch. -/
structure TransactionOutput where
  value : Value
  pubkey : H256
  deriving DecidableEq

/-- Single transaction to be dispatched. -/
structure Transaction where
  inputs : List TransactionInput
  outputs : List TransactionOutput
  deriving DecidableEq

/-- The 96 bytes of an input: the outpoint, then the sigscript. -/
def TransactionInput.layout : TransactionInput ≃ FixedBytes 96 :=
  Equiv.trans
    { toFun := fun input => (input.outpoint, input.sigscript)
      invFun := fun p => ⟨p.1, p.2⟩
      left_inv := fun _ => rfl
      right_inv := fun _ => rfl }
    (FixedBytes.appendEquiv 32 64)

/-- The 48 bytes of an output: the value, then the public key. -/
def TransactionOutput.layout : TransactionOutput ≃ FixedBytes 48 :=
  Equiv.trans
    { toFun := fun output => (output.value, output.pubkey)
      invFun := fun p => ⟨p.1, p.2⟩
      left_inv := fun _ => rfl
      right_inv := fun _ => rfl }
    ((Equiv.prodCongr (Scale.leEquiv 16) (Equiv.refl _)).trans (FixedBytes.appendEquiv 16 32))

/-- A `u64`. -/
def u64Layout : BitVec 64 ≃ FixedBytes 8 := Scale.leEquiv 8

/-- The inputs, then the outputs. -/
def Transaction.codec : Codec Transaction :=
  Codec.congr
    { toFun := fun transaction => (transaction.inputs, transaction.outputs)
      invFun := fun p => ⟨p.1, p.2⟩
      left_inv := fun _ => rfl
      right_inv := fun _ => rfl }
    ((Scale.vec (Codec.fixed TransactionInput.layout)).prod
      (Scale.vec (Codec.fixed TransactionOutput.layout)))

/-- `transaction.encode()`. -/
def Transaction.encode (transaction : Transaction) : Option Bytes :=
  Transaction.codec.encode transaction

/-- `output.encode()`. -/
def TransactionOutput.encode (output : TransactionOutput) : Bytes :=
  (TransactionOutput.layout output).toList

/-- The outpoints of the inputs, in order. -/
def Transaction.outpoints (transaction : Transaction) : List H256 :=
  transaction.inputs.map TransactionInput.outpoint

/-- The sum of the output values. -/
def Transaction.outputTotal (transaction : Transaction) : ℕ :=
  (transaction.outputs.map fun output => output.value.toNat).sum

/-! ## Storage -/

/-- All valid unspent transaction outputs, by their key. -/
abbrev UtxoStore := Finmap fun _ : H256 => TransactionOutput

/-- `utxo::Event`. -/
inductive Event where
  /-- Transaction was executed successfully. -/
  | transactionSuccess (transaction : Transaction)
  /-- Rewards were issued. Amount, UTXO hash. -/
  | rewardsIssued (amount : Value) (hash : H256)
  /-- Rewards were wasted. -/
  | rewardsWasted
  deriving DecidableEq

/-- The storage items the two pallets read and write. The event log is the system pallet's, kept
over the blocks: the system pallet empties it at each block. -/
structure Storage where
  utxoStore : UtxoStore
  rewardTotal : Value
  author : Option Public
  number : BlockNumber
  events : List Event
  deriving DecidableEq

/-- The sum of all values in the UTXO store. -/
def Storage.utxoTotal (s : Storage) : ℕ :=
  s.utxoStore.total fun utxo => utxo.value.toNat

/-! ## Outcomes -/

/-- `sp_runtime::DispatchError`, as far as the two pallets return it. -/
inductive DispatchError where
  /-- `DispatchError::Other`, what an error text turns into. -/
  | other (message : String)
  | badOrigin
  | authorAlreadySet
  deriving DecidableEq

/-- The ways a function does not return normally: it returns an error, or it panics. -/
inductive Failure where
  | error (error : DispatchError)
  | panic
  deriving DecidableEq

/-- Code that reads and writes storage. What was written before a failure stays written. -/
abbrev Dispatch := EStateM Failure Storage

/-- `ensure!(condition, message)`. -/
def ensure (condition : Prop) [Decidable condition] (message : String) : Except Failure Unit :=
  if condition then .ok () else .error (.error (.other message))

/-- `value.ok_or(message)?`. -/
def okOr {α : Type} (value : Option α) (message : String) : Except Failure α :=
  value.elim (.error (.error (.other message))) .ok

/-- A value that is there unless the program stopped while computing it. -/
def orPanic {α : Type} (value : Option α) : Except Failure α := value.elim (.error .panic) .ok

/-- `sp_runtime::ValidTransaction`. -/
structure ValidTransaction where
  requires : List Bytes
  provides : List Bytes
  priority : BitVec 64
  longevity : BitVec 64
  propagate : Bool
  deriving DecidableEq

/-- `utxo::Config` at the runtime's block number type, with the code outside the repository that
the pallet calls. -/
structure Config where
  /-- The BLAKE2b-256 digest, `BlakeTwo256`. -/
  blakeTwo256 : Bytes → H256
  /-- `sp_io::crypto::sr25519_verify` on the raw signature, the message and the key. -/
  sr25519Verify : H512 → Bytes → H256 → Bool
  /-- `Issuance::issuance`, `none` where it stops the program. -/
  issuance : BlockNumber → Option Value
  /-- Whether the program was built with integer overflow checks. -/
  overflowChecks : Bool

end PowEvm
