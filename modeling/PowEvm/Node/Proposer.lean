import PowEvm.Runtime.Authorless
import PowEvm.Runtime.Inherent
import PowEvm.Runtime.Pool

/-!
# The blocks the node proposes

`service.rs` has the mining worker and the import provide one inherent, the timestamp. The author
inherent is created from data that nobody provides, and the pool passes no other call that could set
the author, so the chain of the node as it is wired never pays a miner: every fee is added to
`RewardTotal` and stays there.

`frame_executive` and the timestamp inherent are not part of the repository. The first is the
parameter of the transaction pool, the second is inherent data that holds nothing but its own
identifier.

## Main results

* `Included.ne_setAuthor`: no call that the node puts into a block sets the author;
* `unrewarded_of_included`: over every run of blocks with such calls no reward is issued and
  `RewardTotal` keeps the sum of all fees.
-/

namespace PowEvm.Proposer

open BlockAuthor TaggedTransactionQueue Utxo

/-- `sp_timestamp::INHERENT_IDENTIFIER`, the bytes of `timstap0`. -/
def timestampIdentifier : InherentIdentifier :=
  ⟨[0x74, 0x69, 0x6d, 0x73, 0x74, 0x61, 0x70, 0x30], rfl⟩

/-- The inherent data of `sp_timestamp::InherentDataProvider`, the only provider of `new_partial`
and `new_full`: there is nothing under the other identifiers. -/
def TimestampOnly (data : InherentData) : Prop :=
  ∀ identifier, identifier ≠ timestampIdentifier → data.getData identifier = some none

variable {System Envelope : Type}

/-- The documented verdict on unsigned calls of a pallet without `ValidateUnsigned`, as the block
author pallet is. -/
def NoUnsignedValidator (x : Executive System Envelope BlockAuthor.Call) : Prop :=
  ∀ source call blockHash st v,
    x.validateTransaction source ⟨none, .other call⟩ blockHash st ≠ .ok v

/-- The origin an extrinsic is dispatched with. -/
def originOf (signer : Envelope → AccountId)
    (tx : UncheckedExtrinsic Envelope BlockAuthor.Call) : Origin :=
  match tx.signature with
  | some envelope => .signed (signer envelope)
  | none => .none

/-- The call among those of the two pallets. -/
def callOf : RuntimeCall BlockAuthor.Call → PowEvm.Call
  | .spend transaction => .spend transaction
  | .other call => call.toRuntime

/-- What the node puts into a block: the inherents that the runtime creates from the data of the
provider, and the transactions that the pool has found valid. -/
inductive Included (cfg : Config) (x : Executive System Envelope BlockAuthor.Call)
    (signer : Envelope → AccountId) : Origin → PowEvm.Call → Prop
  | inherent {data : InherentData} {call : BlockAuthor.Call} (provided : TimestampOnly data)
      (created : createInherent data = .ok (some call)) :
      Included cfg x signer .none call.toRuntime
  | pooled {source : TransactionSource} {tx : UncheckedExtrinsic Envelope BlockAuthor.Call}
      {blockHash : H256} {st : RuntimeState System} {v : ValidTransaction}
      (valid : validateTransaction cfg x source tx blockHash st = some (.ok v)) :
      Included cfg x signer (originOf signer tx) (callOf tx.function)

/-- The calls of the run are those of blocks that the node proposes. -/
def AllIncluded (cfg : Config) (x : Executive System Envelope BlockAuthor.Call)
    (signer : Envelope → AccountId) (trace : List (Transition ChainState Action)) : Prop :=
  ∀ t ∈ trace, ∀ origin call, t.label = .call origin call → Included cfg x signer origin call

variable {cfg : Config} {x : Executive System Envelope BlockAuthor.Call}
  {signer : Envelope → AccountId} {s : Storage} {st : ChainState}
  {trace : List (Transition ChainState Action)}

/-! ## Calls -/

/-- No author inherent is created from the data of the timestamp provider. -/
theorem createInherent_eq_none {data : InherentData} (h : TimestampOnly data) :
    createInherent data = .ok none := by
  have hdata : data.getData inherentIdentifier = some none := h _ (by decide)
  rw [createInherent, hdata]
  rfl

/-- No call that the node puts into a block sets the author. -/
theorem Included.ne_setAuthor (hx : NoUnsignedValidator x) {call : PowEvm.Call}
    (h : Included cfg x signer .none call) (author : Public) : call ≠ .setAuthor author := by
  generalize horigin : Origin.none = origin at h
  cases h with
  | inherent provided created =>
    rw [createInherent_eq_none provided] at created
    simp at created
  | @pooled source tx blockHash st v valid =>
    obtain ⟨signature, function⟩ := tx
    cases signature with
    | some envelope => cases horigin
    | none =>
      cases function with
      | spend transaction => simp [callOf]
      | other call => exact absurd (Option.some.inj valid) (hx _ _ _ _ _)

/-- What the node puts into its blocks names no author. -/
theorem AllIncluded.authorless (hx : NoUnsignedValidator x) (h : AllIncluded cfg x signer trace) :
    Authorless trace := by
  intro t ht author hlabel
  exact (h t ht _ _ hlabel).ne_setAuthor hx author rfl

/-- Over every run of blocks that the node proposes no reward is issued, whatever the issuance is
and however the transactions in them turn out. -/
theorem unrewarded_of_included (hx : NoUnsignedValidator x) (hrun : ChainRun cfg s trace st)
    (hincluded : AllIncluded cfg x signer trace) : Unrewarded cfg s trace st :=
  unrewarded_of_authorless hrun (hincluded.authorless hx)

/-! ## A proposed block -/

namespace Sample

open PowEvm.Sample

/-- An executive that finds every signed extrinsic valid. -/
def executive : Executive Unit AccountId BlockAuthor.Call where
  verifies _ _ _ := true
  extraPasses _ _ _ := true
  applyExtrinsic st tx :=
    (dispatchOutcome ((dispatch config (originOf id tx) (callOf tx.function)).run st.storage)).map
      Except.ok
  validateTransaction _ tx _ _ :=
    match tx.signature with
    | none => .error (.unknown .noUnsignedValidator)
    | some _ => .ok ⟨[], [], 0, BitVec.allOnes 64, true⟩

theorem noUnsignedValidator : NoUnsignedValidator executive := by
  intro source call blockHash st v h
  cases h

/-- A block of the node with the transaction of Alice in it, which Bob hands in, and a call of hers
that names her the author. -/
def run : List (Transition ChainState Action) × ChainState :=
  replay (chainStep config) [] ⟨genesis config coins, false⟩
    [.onInitialize 1, .call (.signed alice) (.setAuthor alice),
      .call (.signed bob) (.spend aliceSpends), .onFinalize]

theorem allIncluded : AllIncluded config executive id run.1 := by
  have hlabels : run.1.map Transition.label = [.onInitialize 1,
      .call (.signed alice) (.setAuthor alice), .call (.signed bob) (.spend aliceSpends),
      .onFinalize] := by
    decide +kernel
  intro t ht origin call hlabel
  have hmem : Action.call origin call ∈ run.1.map Transition.label :=
    hlabel ▸ List.mem_map_of_mem ht
  rw [hlabels] at hmem
  simp only [List.mem_cons, reduceCtorEq, Action.call.injEq, List.not_mem_nil, or_false,
    false_or] at hmem
  let st : RuntimeState Unit := ⟨genesis config coins, ()⟩
  obtain ⟨rfl, rfl⟩ | ⟨rfl, rfl⟩ := hmem
  · have hvalid : validateTransaction config executive .external
        ⟨some alice, .other (.setAuthor alice)⟩ (h256 0) st =
          some (.ok ⟨[], [], 0, BitVec.allOnes 64, true⟩) := rfl
    exact .pooled hvalid
  · obtain ⟨message, stem, hspendable⟩ := spendOk_iff.mp spendOk_aliceSpends
    have hready : Ready config executive .external ⟨some bob, .spend aliceSpends⟩ (h256 0) st :=
      ready_iff.mpr ⟨⟨message, stem, hspendable.accepted⟩, hspendable.present⟩
    obtain ⟨v, hvalid, -⟩ := hready
    exact .pooled hvalid

end Sample

/-- The fee of the block stays in `RewardTotal`. -/
theorem unrewarded_of_included_sample :
    Sample.run.2.storage.rewardTotal.toNat = 10 ∧
      Sample.run.2.storage.events.filterMap issuedReward = [] := by
  have hrun : ChainRun PowEvm.Sample.config (genesis PowEvm.Sample.config PowEvm.Sample.coins)
      Sample.run.1 Sample.run.2 := Run.nil.of_replay _
  have hunrewarded := unrewarded_of_included Sample.noUnsignedValidator hrun Sample.allIncluded
  refine ⟨?_, hunrewarded.rewards_eq⟩
  rw [hunrewarded.rewardTotal_eq]
  decide +kernel

end PowEvm.Proposer
