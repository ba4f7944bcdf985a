import PowEvm.Runtime.PoolTags

/-!
# Admission to the transaction pool

`TaggedTransactionQueue::validate_transaction` in `lib.rs` answers the pool about a `spend` with the
verdict of the UTXO pallet, and about every other call with the one of `frame_executive`. Applying
an extrinsic goes through `frame_executive` in both cases, which checks the envelope of a signed
one. A signed `spend` is therefore admitted without the checks it is later rejected by.

`frame_executive` is not part of the repository. It is a parameter with the two functions the
runtime calls and the checks they share.

## Main results

* `ready_iff`: which extrinsics with a `spend` the pool holds ready;
* `applicable_of_ready_iff`: being ready means being applicable exactly when it is not the envelope
  that fails;
* `not_rejected_of_other`: what the pool is told about the other calls is right.
-/

namespace PowEvm.TaggedTransactionQueue

open Utxo

/-! ## Extrinsics -/

/-- The calls of the runtime, with those of the other pallets left open. -/
inductive RuntimeCall (Other : Type) where
  /-- `utxo::Call::spend`. -/
  | spend (transaction : Transaction)
  | other (call : Other)
  deriving DecidableEq

/-- `generic::UncheckedExtrinsic`, where the address, the signature and the signed extension of a
signed extrinsic make up its envelope. -/
structure UncheckedExtrinsic (Envelope Other : Type) where
  signature : Option Envelope
  function : RuntimeCall Other

/-- `sp_runtime::transaction_validity::InvalidTransaction`. -/
inductive InvalidTransaction where
  | call
  | payment
  | future
  | stale
  | badProof
  | ancientBirthBlock
  | exhaustsResources
  | custom (code : BitVec 8)
  | badMandatory
  | mandatoryValidation
  | badSigner
  deriving DecidableEq

/-- `sp_runtime::transaction_validity::UnknownTransaction`. -/
inductive UnknownTransaction where
  | cannotLookup
  | noUnsignedValidator
  | custom (code : BitVec 8)
  deriving DecidableEq

/-- `sp_runtime::transaction_validity::TransactionValidityError`. -/
inductive TransactionValidityError where
  | invalid (error : InvalidTransaction)
  | unknown (error : UnknownTransaction)
  deriving DecidableEq

/-- `sp_runtime::transaction_validity::TransactionSource`. -/
inductive TransactionSource where
  | inBlock
  | ofLocal
  | external
  deriving DecidableEq

/-- `sp_runtime::transaction_validity::TransactionValidity`. -/
abbrev TransactionValidity := Except TransactionValidityError ValidTransaction

/-- `sp_runtime::ApplyExtrinsicResult`: the extrinsic is rejected, or its call was dispatched. -/
abbrev ApplyExtrinsicResult := Except TransactionValidityError (Except DispatchError Unit)

/-- The storage of the modelled pallets, and of the rest of the runtime. -/
structure RuntimeState (System : Type) where
  storage : Storage
  system : System

variable {System Envelope Other : Type}

/-! ## The executive -/

/-- The functions of `frame_executive` that the runtime calls, and the checks of signed extrinsics
they share. Applying an extrinsic is `none` where the dispatched call stops the program. -/
structure Executive (System Envelope Other : Type) where
  /-- The signature of the envelope verifies. -/
  verifies : RuntimeState System → Envelope → RuntimeCall Other → Bool
  /-- The checks of `SignedExtra` pass. -/
  extraPasses : RuntimeState System → Envelope → RuntimeCall Other → Bool
  applyExtrinsic :
    RuntimeState System → UncheckedExtrinsic Envelope Other → Option ApplyExtrinsicResult
  validateTransaction : TransactionSource → UncheckedExtrinsic Envelope Other → H256 →
    RuntimeState System → TransactionValidity

/-- An extrinsic passes the checks if it is unsigned, or its envelope does. -/
def Executive.passes (x : Executive System Envelope Other) (st : RuntimeState System)
    (tx : UncheckedExtrinsic Envelope Other) : Bool :=
  tx.signature.all fun envelope =>
    x.verifies st envelope tx.function && x.extraPasses st envelope tx.function

/-- What a dispatched call returns, `none` where it stops the program. -/
def dispatchOutcome : EStateM.Result Failure Storage Unit → Option (Except DispatchError Unit)
  | .ok () _ => some (.ok ())
  | .error (.error e) _ => some (.error e)
  | .error .panic _ => none

/-- The documented behaviour of `frame_executive`: an extrinsic is rejected exactly when it fails
the checks, the call of every other one is dispatched, and the default validation performs the same
checks. -/
structure Executive.Documented (cfg : Config) (x : Executive System Envelope Other) : Prop where
  rejects_iff : ∀ st tx, (∃ e, x.applyExtrinsic st tx = some (.error e)) ↔ x.passes st tx = false
  dispatches : ∀ st tx transaction, tx.function = .spend transaction → x.passes st tx = true →
    x.applyExtrinsic st tx =
      (dispatchOutcome ((spend cfg transaction).run st.storage)).map Except.ok
  validates : ∀ source tx hash st v, x.validateTransaction source tx hash st = .ok v →
    x.passes st tx = true

/-! ## The runtime API -/

/-- `TaggedTransactionQueue::validate_transaction`, `none` where it stops the program. -/
def validateTransaction (cfg : Config) (x : Executive System Envelope Other)
    (source : TransactionSource) (tx : UncheckedExtrinsic Envelope Other) (blockHash : H256)
    (st : RuntimeState System) : Option TransactionValidity :=
  match tx.function with
  | .spend transaction =>
    match Utxo.validateTransaction cfg st.storage.utxoStore transaction with
    | .error .panic => none
    | .error (.error _) => some (.error (.invalid (.custom 1)))
    | .ok tv => some (.ok tv)
  | .other _ => some (x.validateTransaction source tx blockHash st)

/-- The pool holds the extrinsic ready: it is valid and waits for nothing. -/
def Ready (cfg : Config) (x : Executive System Envelope Other) (source : TransactionSource)
    (tx : UncheckedExtrinsic Envelope Other) (blockHash : H256) (st : RuntimeState System) : Prop :=
  ∃ v, validateTransaction cfg x source tx blockHash st = some (.ok v) ∧ v.requires = []

/-- Applying the extrinsic does not reject it, and dispatches its call. -/
def Applicable (x : Executive System Envelope Other) (tx : UncheckedExtrinsic Envelope Other)
    (st : RuntimeState System) : Prop :=
  ∃ outcome, x.applyExtrinsic st tx = some (.ok outcome)

variable {cfg : Config} {x : Executive System Envelope Other} {source : TransactionSource}
  {signed : Option Envelope} {transaction : Transaction} {blockHash : H256}
  {st : RuntimeState System}

/-- The pool holds a `spend` ready when the UTXO pallet accepts it with all inputs there, signed or
not. -/
theorem ready_iff :
    Ready cfg x source ⟨signed, .spend transaction⟩ blockHash st ↔
      (∃ message stem, Accepted cfg st.storage.utxoStore transaction message stem) ∧
        ∀ k ∈ transaction.outpoints, k ∈ st.storage.utxoStore := by
  have hrequires : (validTransactionOf cfg st.storage.utxoStore transaction).requires = [] ↔
      ∀ k ∈ transaction.outpoints, k ∈ st.storage.utxoStore := by
    rw [validTransactionOf, List.map_eq_nil_iff, missingOf_eq_nil_iff]
  unfold Ready validateTransaction
  dsimp only
  refine ⟨?_, ?_⟩
  · rintro ⟨v, hv, hempty⟩
    cases hvalid : Utxo.validateTransaction cfg st.storage.utxoStore transaction with
    | error e =>
      rw [hvalid] at hv
      cases e with
      | error e => simp at hv
      | panic => simp at hv
    | ok tv =>
      rw [hvalid] at hv
      obtain rfl := Except.ok.inj (Option.some.inj hv)
      obtain ⟨haccepted, rfl⟩ := validateTransaction_eq_ok_iff.mp hvalid
      exact ⟨haccepted, hrequires.mp hempty⟩
  · rintro ⟨haccepted, hpresent⟩
    have hvalid : Utxo.validateTransaction cfg st.storage.utxoStore transaction =
        .ok (validTransactionOf cfg st.storage.utxoStore transaction) :=
      validateTransaction_eq_ok_iff.mpr ⟨haccepted, rfl⟩
    rw [hvalid]
    exact ⟨_, rfl, hrequires.mpr hpresent⟩

/-- Dispatching an accepted `spend` returns. -/
theorem exists_dispatchOutcome {s : Storage} {message stem : Bytes}
    (h : Accepted cfg s.utxoStore transaction message stem) :
    ∃ outcome, dispatchOutcome ((spend cfg transaction).run s) = some outcome := by
  rw [run_spend_of_accepted h]
  split_ifs
  · exact ⟨_, rfl⟩
  · exact ⟨_, rfl⟩
  · exact ⟨_, rfl⟩

/-- A `spend` that is ready can be applied, unless it is the envelope of a signed one that fails
while the UTXO pallet accepts the transaction with all inputs there. -/
theorem applicable_of_ready_iff (hx : x.Documented cfg) :
    (Ready cfg x source ⟨signed, .spend transaction⟩ blockHash st →
        Applicable x ⟨signed, .spend transaction⟩ st) ↔
      ¬ ((∃ envelope, signed = some envelope ∧
            (x.verifies st envelope (.spend transaction) = false ∨
              x.extraPasses st envelope (.spend transaction) = false)) ∧
          (∃ message stem, Accepted cfg st.storage.utxoStore transaction message stem) ∧
          ∀ k ∈ transaction.outpoints, k ∈ st.storage.utxoStore) := by
  have hfails : x.passes st ⟨signed, .spend transaction⟩ = false ↔
      ∃ envelope, signed = some envelope ∧
        (x.verifies st envelope (.spend transaction) = false ∨
          x.extraPasses st envelope (.spend transaction) = false) := by
    cases signed with
    | none => simp [Executive.passes]
    | some envelope =>
      rw [Executive.passes, Option.all_some, Bool.and_eq_false_iff]
      simp
  rw [← hfails, ready_iff]
  refine ⟨?_, ?_⟩
  · rintro happlies ⟨hfailing, hready⟩
    obtain ⟨outcome, houtcome⟩ := happlies hready
    obtain ⟨e, he⟩ := (hx.rejects_iff st _).mpr hfailing
    rw [he] at houtcome
    simp at houtcome
  · intro hcond hready
    have hpasses : x.passes st ⟨signed, .spend transaction⟩ = true := by
      rw [← Bool.not_eq_false]
      exact fun hfailing => hcond ⟨hfailing, hready⟩
    obtain ⟨⟨message, stem, haccepted⟩, -⟩ := hready
    obtain ⟨outcome, houtcome⟩ := exists_dispatchOutcome haccepted
    refine ⟨outcome, ?_⟩
    rw [hx.dispatches st _ transaction rfl hpasses, houtcome, Option.map_some]

/-- The fallback is right: a call of another pallet that the pool admits is not rejected. -/
theorem not_rejected_of_other (hx : x.Documented cfg) {call : Other} {v : ValidTransaction}
    (h : validateTransaction cfg x source ⟨signed, .other call⟩ blockHash st = some (.ok v))
    (e : TransactionValidityError) :
    x.applyExtrinsic st ⟨signed, .other call⟩ ≠ some (.error e) := by
  have hpasses := hx.validates _ _ _ _ _ (Option.some.inj h)
  intro hrejected
  have hfails := (hx.rejects_iff st _).mp ⟨e, hrejected⟩
  rw [hpasses] at hfails
  simp at hfails

/-! ## A signed `spend`

An executive that knows the nonces of the accounts.
-/

namespace SignedSpend

open PowEvm.Sample

/-- A signer, its signature of the transaction, and its nonce. -/
structure Signed where
  signer : Public
  signature : H512
  nonce : ℕ

def verifies (envelope : Signed) : RuntimeCall Empty → Bool
  | .spend transaction =>
    config.sr25519Verify envelope.signature (transaction.encode.getD []) envelope.signer

/-- Why an extrinsic is rejected, if it is. -/
def refusal (st : RuntimeState (Public → ℕ)) (tx : UncheckedExtrinsic Signed Empty) :
    Option TransactionValidityError :=
  match tx.signature with
  | none => none
  | some envelope =>
    if verifies envelope tx.function then
      if envelope.nonce = st.system envelope.signer then none else some (.invalid .stale)
    else some (.invalid .badProof)

def dispatched (st : RuntimeState (Public → ℕ)) :
    RuntimeCall Empty → Option (Except DispatchError Unit)
  | .spend transaction => dispatchOutcome ((spend config transaction).run st.storage)

def executive : Executive (Public → ℕ) Signed Empty where
  verifies _ envelope function := verifies envelope function
  extraPasses st envelope _ := envelope.nonce = st.system envelope.signer
  applyExtrinsic st tx :=
    match refusal st tx with
    | some e => some (.error e)
    | none => (dispatched st tx.function).map Except.ok
  validateTransaction _ tx _ st :=
    match refusal st tx with
    | some e => .error e
    | none => .ok ⟨[], [], 0, BitVec.allOnes 64, true⟩

theorem refusal_eq_none_iff {st : RuntimeState (Public → ℕ)}
    {tx : UncheckedExtrinsic Signed Empty} :
    refusal st tx = none ↔ executive.passes st tx = true := by
  unfold refusal Executive.passes
  cases tx.signature with
  | none => simp
  | some envelope =>
    rw [Option.all_some, Bool.and_eq_true]
    change _ ↔ verifies envelope tx.function = true ∧
      decide (envelope.nonce = st.system envelope.signer) = true
    dsimp only
    split_ifs with hverifies hextra
    · simp [hverifies, hextra]
    · simp [hextra]
    · simp [hverifies]

theorem executive_documented : executive.Documented config where
  rejects_iff st tx := by
    rw [← Bool.not_eq_true, ← refusal_eq_none_iff]
    unfold executive
    dsimp only
    cases refusal st tx with
    | some e => simp
    | none => simp
  dispatches st tx transaction hcall hpasses := by
    rw [← refusal_eq_none_iff] at hpasses
    unfold executive
    dsimp only
    rw [hpasses, hcall]
    rfl
  validates source tx hash st v hv := by
    rw [← refusal_eq_none_iff]
    unfold executive at hv
    dsimp only at hv
    cases hrefusal : refusal st tx with
    | none => rfl
    | some e =>
      rw [hrefusal] at hv
      cases hv

/-- Alice's transaction in a signed extrinsic of hers with the signature of somebody else. -/
def misSigned : UncheckedExtrinsic Signed Empty :=
  ⟨some ⟨alice, signature bob 1, 0⟩, .spend aliceSpends⟩

/-- The genesis of the sample run, with no account used yet. -/
def state : RuntimeState (Public → ℕ) := ⟨genesis config coins, fun _ => 0⟩

theorem ready (signed : Option Signed) :
    Ready config executive .external ⟨signed, .spend aliceSpends⟩ (h256 0) state := by
  obtain ⟨message, stem, hspendable⟩ := spendOk_iff.mp spendOk_aliceSpends
  exact ready_iff.mpr ⟨⟨message, stem, hspendable.accepted⟩, hspendable.present⟩

end SignedSpend

/-- Alice's transaction is applicable in an unsigned extrinsic. -/
theorem applicable_of_ready_sample :
    Applicable SignedSpend.executive ⟨none, .spend Sample.aliceSpends⟩ SignedSpend.state := by
  refine (applicable_of_ready_iff SignedSpend.executive_documented).mpr ?_ (SignedSpend.ready none)
  rintro ⟨⟨envelope, hsigned, -⟩, -⟩
  simp at hsigned

/-- In a signed extrinsic whose signature does not verify it is ready, and applying the extrinsic
rejects it. -/
theorem ready_rejected :
    SignedSpend.executive.Documented Sample.config ∧
      Ready Sample.config SignedSpend.executive .external SignedSpend.misSigned (h256 0)
        SignedSpend.state ∧
      SignedSpend.executive.applyExtrinsic SignedSpend.state SignedSpend.misSigned =
        some (.error (.invalid .badProof)) :=
  ⟨SignedSpend.executive_documented, SignedSpend.ready _, by decide +kernel⟩

end PowEvm.TaggedTransactionQueue
