import PowEvm.Runtime.SignedMessage
import PowEvm.Runtime.Steps

/-!
# Where block execution stops

A panic stops the execution of a block, and with it the chain if the block has to be executed again
by everybody. No call panics on a transaction that the runtime can receive. Finalizing a block can,
in a build with overflow checks.

## Main results

* `validateTransaction_ne_panic`: validation answers on every received transaction;
* `run_spend_ne_panic`: so does `spend`;
* `chainStep_eq_none_iff`: the steps that block execution does not take, in every state.
-/

namespace PowEvm

open Utxo Issuance

variable {cfg : Config} {s s' : Storage} {st : ChainState} {tx : Transaction}

/-! ## Transactions -/

namespace Utxo

theorem ensure_ne_panic {condition : Prop} [Decidable condition] {text : String} :
    ensure condition text ≠ .error .panic := by
  unfold ensure
  split_ifs <;> simp

theorem okOr_ne_panic {α : Type} {value : Option α} {text : String} :
    okOr value text ≠ .error .panic := by
  cases value <;> simp [okOr]

theorem orPanic_ne_panic_of_eq {α : Type} {value : Option α} {a : α} (h : value = some a) :
    orPanic value ≠ .error .panic := by
  rw [h]
  simp [orPanic]

variable {store : UtxoStore} {message : Bytes}

theorem checkInput_ne_panic (acc : Value × List Bytes) (input : TransactionInput) :
    checkInput cfg store message acc input ≠ .error .panic := by
  unfold checkInput
  cases store.lookup input.outpoint with
  | none => simp [pure, Except.pure]
  | some utxo =>
    refine Except.bind_ne_error ensure_ne_panic fun _ _ => ?_
    refine Except.bind_ne_error okOr_ne_panic fun _ _ => ?_
    simp [pure, Except.pure]

theorem checkOutput_ne_panic {stem : Bytes} (hstem : outputStem tx = some stem)
    (acc : Value × BitVec 64 × List Bytes) (output : TransactionOutput) :
    checkOutput cfg store tx acc output ≠ .error .panic := by
  unfold checkOutput
  refine Except.bind_ne_error ensure_ne_panic fun _ _ => ?_
  -- the hash can be computed as the transaction has an encoding
  refine Except.bind_ne_error (orPanic_ne_panic_of_eq (outputHash_eq hstem _)) fun _ _ => ?_
  refine Except.bind_ne_error okOr_ne_panic fun _ _ => ?_
  refine Except.bind_ne_error ensure_ne_panic fun _ _ => ?_
  refine Except.bind_ne_error okOr_ne_panic fun _ _ => ?_
  simp [pure, Except.pure]

theorem checkReward_ne_panic (totalInput totalOutput : Value) (missingUtxos : List Bytes) :
    checkReward totalInput totalOutput missingUtxos ≠ .error .panic := by
  unfold checkReward
  split_ifs
  · exact Except.bind_ne_error ensure_ne_panic fun _ _ => okOr_ne_panic
  · simp [pure, Except.pure]

/-- Validation answers on every received transaction, whatever is in the store. -/
theorem validateTransaction_ne_panic (h : Received tx) (store : UtxoStore) :
    validateTransaction cfg store tx ≠ .error .panic := by
  obtain ⟨stem, hstem⟩ := h.exists_outputStem
  obtain ⟨bytes, hbytes, -⟩ := received_iff.mp h
  obtain ⟨hinputs, houtputs⟩ := Transaction.exists_encode_iff.mp ⟨bytes, hbytes⟩
  obtain ⟨message, hmessage⟩ := exists_getSimpleTransaction hinputs houtputs
  unfold validateTransaction
  refine Except.bind_ne_error ensure_ne_panic fun _ _ => ?_
  refine Except.bind_ne_error ensure_ne_panic fun _ _ => ?_
  refine Except.bind_ne_error ensure_ne_panic fun _ _ => ?_
  refine Except.bind_ne_error ensure_ne_panic fun _ _ => ?_
  refine Except.bind_ne_error (orPanic_ne_panic_of_eq hmessage) fun _ _ => ?_
  refine Except.bind_ne_error (Except.foldlM_ne_error checkInput_ne_panic _ _) fun _ _ => ?_
  refine Except.bind_ne_error (Except.foldlM_ne_error (checkOutput_ne_panic hstem) _ _)
    fun _ _ => ?_
  refine Except.bind_ne_error (checkReward_ne_panic _ _ _) fun _ _ => ?_
  simp [pure, Except.pure]

/-- `spend` answers on every received transaction, whatever the storage. -/
theorem run_spend_ne_panic (h : Received tx) : (spend cfg tx).run s ≠ .error .panic s' := by
  intro hpanic
  cases hvalid : validateTransaction cfg s.utxoStore tx with
  | error e =>
    rw [run_spend, hvalid] at hpanic
    obtain ⟨rfl, -⟩ := EStateM.Result.error.inj hpanic
    exact validateTransaction_ne_panic h _ hvalid
  | ok v =>
    -- the errors after validation are the two texts
    obtain ⟨message, stem, haccepted⟩ := (validateTransaction_eq_ok_iff.mp hvalid).1
    rw [run_spend_of_accepted haccepted] at hpanic
    split_ifs at hpanic <;> simp at hpanic

end Utxo

/-! ## Steps -/

/-- The calls of the step carry transactions that the runtime can receive. -/
def ReceivedAction (action : Action) : Prop :=
  ∀ origin tx, action = .call origin (.spend tx) → Received tx

theorem settle_eq_none_iff {r : EStateM.Result Failure Storage Unit} :
    settle r = none ↔ ∃ s, r = .error .panic s := by
  rcases r with ⟨⟨⟩, s⟩ | ⟨_ | _, s⟩
  · simp [settle]
  · simp [settle]
  · simp [settle]

/-- Every received call is dispatched. -/
theorem settle_dispatch_ne_none {origin : BlockAuthor.Origin} {call : Call}
    (h : ReceivedAction (.call origin call)) :
    settle ((dispatch cfg origin call).run s) ≠ none := by
  rw [Ne, settle_eq_none_iff]
  rintro ⟨s', hpanic⟩
  cases call with
  | spend tx => exact run_spend_ne_panic (h origin tx rfl) hpanic
  | setAuthor author =>
    change (BlockAuthor.setAuthor origin author).run s = _ at hpanic
    rw [run_setAuthor] at hpanic
    split_ifs at hpanic <;> simp at hpanic

theorem bitcoinHalving_eq_none_iff {overflowChecks : Bool} {block : BlockNumber} :
    bitcoinHalving overflowChecks block = none ↔ overflowChecks = true ∧ ¬ ShiftFits block := by
  by_cases hfits : ShiftFits block
  · simp [bitcoinHalving_of_shiftFits hfits, hfits]
  cases overflowChecks with
  | true => simp [bitcoinHalving_true_eq_none hfits, hfits]
  | false =>
    -- the masked shift comes back
    rw [bitcoinHalving_eq, if_neg Bool.false_ne_true]
    split_ifs <;> simp

section Runtime

variable {blakeTwo256 : Bytes → H256} {sr25519Verify : H512 → Bytes → H256 → Bool}
  {overflowChecks : Bool}

/-- Computing the reward stops the program exactly in a build with overflow checks, where the shift
amount of the schedule is out of range, or `RewardTotal` and the issuance do not fit together. -/
theorem payout_eq_none_iff :
    payout (runtimeConfig blakeTwo256 sr25519Verify overflowChecks) s = none ↔
      overflowChecks = true ∧ (¬ ShiftFits s.number ∨
        2 ^ 128 ≤ s.rewardTotal.toNat + (halvedIssuance s.number).toNat) := by
  change (bitcoinHalving overflowChecks s.number).bind
    (Integers.add overflowChecks s.rewardTotal) = none ↔ _
  by_cases hfits : ShiftFits s.number
  · rw [bitcoinHalving_of_shiftFits hfits, Option.bind_some, Integers.add_eq_none_iff]
    simp [hfits]
  cases hissued : bitcoinHalving overflowChecks s.number with
  | none => simp [(bitcoinHalving_eq_none_iff.mp hissued).1, hfits]
  | some issued =>
    -- out of range the schedule only comes back without overflow checks
    have hchecks : overflowChecks = false := by
      cases overflowChecks with
      | false => rfl
      | true => simp [bitcoinHalving_true_eq_none hfits] at hissued
    rw [Option.bind_some, Integers.add_eq_none_iff]
    simp [hchecks]

/-- What keeps block execution from a step: being in a block when it is to begin with a higher
number or outside of one otherwise, and the panic of a finalization that pays. -/
def Refuses (overflowChecks : Bool) (st : ChainState) : Action → Prop
  | .onInitialize number => st.inBlock = true ∨ number ≤ st.storage.number
  | .call _ _ => st.inBlock = false
  | .onFinalize => st.inBlock = false ∨
      overflowChecks = true ∧ st.storage.author.isSome ∧ (¬ ShiftFits st.storage.number ∨
        2 ^ 128 ≤ st.storage.rewardTotal.toNat + (halvedIssuance st.storage.number).toNat)

/-- Finalizing panics exactly where an author is to be paid and its reward cannot be computed. -/
theorem settle_onFinalize_eq_none_iff :
    settle ((onFinalize cfg).run s) = none ↔ s.author.isSome ∧ payout cfg s = none := by
  cases hauthor : s.author with
  | none =>
    rw [run_onFinalize_of_none hauthor]
    simp [settle]
  | some author =>
    rw [run_onFinalize_of_some hauthor, run_disperseReward]
    cases payout cfg s with
    | none => simp [settle]
    | some reward => simp [settle]

/-- A block is not finalized outside of one, or where finalizing panics. -/
theorem chainStep_onFinalize_eq_none_iff :
    chainStep (runtimeConfig blakeTwo256 sr25519Verify overflowChecks) st .onFinalize = none ↔
      Refuses overflowChecks st .onFinalize := by
  unfold chainStep Refuses
  dsimp only
  split_ifs with hbusy
  · rw [Option.map_eq_none_iff, settle_onFinalize_eq_none_iff, payout_eq_none_iff]
    simp only [hbusy, Bool.true_eq_false, false_or]
    tauto
  · simp [hbusy]

/-- In every state of the runtime, the steps that are not taken are those out of order and the
panics of finalization. -/
theorem chainStep_eq_none_iff {action : Action} (hreceived : ReceivedAction action) :
    chainStep (runtimeConfig blakeTwo256 sr25519Verify overflowChecks) st action = none ↔
      Refuses overflowChecks st action := by
  cases action with
  | onInitialize number =>
    rw [chainStep, Refuses]
    split_ifs with hguard
    · have hlt : ¬ number ≤ st.storage.number := BitVec.not_le.mpr hguard.2
      simp [hguard.1, hlt]
    · rw [not_and_or, Bool.not_eq_false, BitVec.not_lt] at hguard
      simp [hguard]
  | call origin call =>
    rw [chainStep, Refuses]
    split_ifs with hbusy
    · rw [Option.map_eq_none_iff]
      simp [settle_dispatch_ne_none hreceived, hbusy]
    · simp [hbusy]
  | onFinalize => exact chainStep_onFinalize_eq_none_iff

end Runtime

theorem Sample.received_aliceSpends : Received Sample.aliceSpends := by
  have hlength : (Sample.aliceSpends.encode.any fun bytes => bytes.length < 2 ^ 32) = true := by
    decide +kernel
  obtain ⟨bytes, hbytes, hlt⟩ := (Option.any_eq_true _ _).mp hlength
  exact received_iff.mpr ⟨bytes, hbytes, of_decide_eq_true hlt⟩

/-- At the thirty-second halving a build with overflow checks executes the transactions of a block
with an author, which has to be open for that, and cannot finalize it. -/
theorem chainStep_eq_none_sample :
    let cfg := runtimeConfig Sample.config.blakeTwo256 Sample.config.sr25519Verify true
    let s := { genesis Sample.config Sample.coins with
      number := 6720000, author := some Sample.miner }
    let spends := Action.call (.signed Sample.alice) (.spend Sample.aliceSpends)
    chainStep cfg ⟨s, true⟩ spends ≠ none ∧ chainStep cfg ⟨s, false⟩ spends = none ∧
      chainStep cfg ⟨s, true⟩ .onFinalize = none := by
  intro cfg s spends
  have hreceived : ReceivedAction spends := by
    intro origin tx hspends
    obtain ⟨-, hcall⟩ := Action.call.inj hspends
    exact Call.spend.inj hcall ▸ Sample.received_aliceSpends
  have hfinalize : ReceivedAction .onFinalize := by simp [ReceivedAction]
  refine ⟨?_, (chainStep_eq_none_iff hreceived).mpr rfl,
    (chainStep_eq_none_iff hfinalize).mpr (Or.inr ⟨rfl, rfl, Or.inl ?_⟩)⟩
  · rw [Ne, chainStep_eq_none_iff hreceived]
    exact Bool.false_ne_true.symm
  · decide +kernel

end PowEvm
