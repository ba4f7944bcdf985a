import PowEvm.Runtime.Filings

/-!
# The supply

The supply is what the UTXO store holds and what waits in `RewardTotal`. Validation adds up what
each input refers to, execution removes each outpoint once, so the two agree only while no outpoint
is claimed by two inputs. The uniqueness check compares whole inputs, with their sigscripts, and
does not rule that out.

## Main results

* `supply_spentStorage_le`: a `spend` without a double claim does not raise the supply;
* `supply_le_of_not_doubleClaim`: no run without double claims inflates the supply beyond the
  issuance;
* `doubleClaim_inflates`: a run with one does.
-/

namespace PowEvm

open Utxo

variable {cfg : Config} {s : Storage} {st : ChainState} {tx : Transaction} {message stem : Bytes}

/-- The value in the UTXO store and in `RewardTotal`. -/
def supply (s : Storage) : ℕ := s.utxoTotal + s.rewardTotal.toNat

/-- Two different inputs of a transaction name the same UTXO, both with a sigscript that is
accepted for its owner. -/
def DoubleClaim (cfg : Config) (s : Storage) (tx : Transaction) : Prop :=
  ∃ a ∈ tx.inputs, ∃ b ∈ tx.inputs, a ≠ b ∧ a.outpoint = b.outpoint ∧
    claims cfg s tx a = true ∧ claims cfg s tx b = true

instance : Decidable (DoubleClaim cfg s tx) :=
  inferInstanceAs (Decidable (∃ a ∈ tx.inputs, ∃ b ∈ tx.inputs, _))

/-- The step dispatches a `spend` that claims a UTXO twice. -/
def ClaimsTwice (cfg : Config) (t : Transition ChainState Action) : Prop :=
  match t.label with
  | .call _ (.spend tx) => DoubleClaim cfg t.pre.storage tx
  | _ => False

instance : DecidablePred (ClaimsTwice cfg) := fun t =>
  match t with
  | ⟨pre, .call _ (.spend tx), _⟩ => inferInstanceAs (Decidable (DoubleClaim cfg pre.storage tx))
  | ⟨_, .call _ (.setAuthor _), _⟩ => inferInstanceAs (Decidable False)
  | ⟨_, .onInitialize _, _⟩ => inferInstanceAs (Decidable False)
  | ⟨_, .onFinalize, _⟩ => inferInstanceAs (Decidable False)

/-! ## One `spend` -/

/-- Without a double claim the outpoints of a spendable transaction are different. -/
theorem nodup_outpoints (h : Spendable cfg s tx message stem) (hclaim : ¬ DoubleClaim cfg s tx) :
    tx.outpoints.Nodup := by
  apply h.accepted.inputs_nodup.map_on
  intro a ha b hb hab
  by_contra hne
  exact hclaim ⟨a, ha, b, hb, hne, hab, h.claims ha, h.claims hb⟩

theorem filed_map_snd (h : outputStem tx = some stem) : (filed tx).map Prod.snd = tx.outputs := by
  rw [filed_eq h, filedFrom_map_snd]

/-- The entries a transaction creates are worth its outputs. -/
theorem createdEntries_total (cfg : Config) (h : outputStem tx = some stem) :
    ((createdEntries cfg tx).map fun e => e.2.value.toNat).sum = tx.outputTotal := by
  unfold Transaction.outputTotal
  rw [← filed_map_snd h, createdEntries, hashed, List.map_map, List.map_map]
  rfl

/-- A `spend` without a double claim does not raise the supply. -/
theorem supply_spentStorage_le (h : Spendable cfg s tx message stem)
    (hclaim : ¬ DoubleClaim cfg s tx) : supply (spentStorage cfg s tx) ≤ supply s := by
  -- the inputs are worth what their removal takes off the store
  let value := fun utxo : TransactionOutput => utxo.value.toNat
  let removed := Finmap.eraseAll tx.outpoints s.utxoStore
  have hremoved : Finmap.total value removed + inputTotal s.utxoStore tx = s.utxoTotal :=
    Finmap.total_eraseAll (nodup_outpoints h hclaim) h.present
  -- the insertions add at most the outputs
  have hinserted : (spentStorage cfg s tx).utxoTotal ≤
      Finmap.total value removed + tx.outputTotal := by
    rw [← createdEntries_total cfg h.accepted.stem_eq]
    exact Finmap.total_insertAll_le _
  have hbalanced := h.accepted.balanced (missingOf_eq_nil_iff.mpr h.present)
  have hfee : creditedFee s.utxoStore tx ≤ inputTotal s.utxoStore tx - tx.outputTotal :=
    Nat.mod_le _ _
  have hreward : (spentStorage cfg s tx).rewardTotal.toNat =
      s.rewardTotal.toNat + creditedFee s.utxoStore tx :=
    Integers.toNat_ofNat_of_lt h.reward_lt
  unfold supply
  omega

/-! ## Runs -/

/-- Paying the reward adds at most the issuance. -/
theorem supply_paidStorage_le {author : Public} {reward : Value}
    (h : payout cfg s = some reward) :
    supply (paidStorage cfg s author reward) ≤
      supply s + (cfg.issuance s.number).elim 0 BitVec.toNat := by
  obtain ⟨issued, hissued, hadd⟩ := Option.bind_eq_some_iff.mp h
  have hreward := Integers.toNat_add_le hadd
  have hinserted : (paidStorage cfg s author reward).utxoTotal ≤ reward.toNat + s.utxoTotal :=
    Finmap.total_insert_le
  have hzero : (paidStorage cfg s author reward).rewardTotal.toNat = 0 := rfl
  rw [hissued, Option.elim_some]
  unfold supply
  omega

/-- No step adds more than its issuance, a double claim aside. -/
theorem supply_step_le {st' : ChainState} {action : Action} (h : Effect cfg st action st')
    (hclaim : ¬ ClaimsTwice cfg ⟨st, action, st'⟩) :
    supply st'.storage ≤ supply st.storage + issuedAt cfg ⟨st, action, st'⟩ := by
  cases h with
  | initialized => exact Nat.le_refl _
  | spent busy spendable => exact supply_spentStorage_le spendable hclaim
  | authorSet => exact Nat.le_refl _
  | failed => exact Nat.le_add_right _ _
  | wasted => exact Nat.le_add_right _ _
  | paid busy set payout_eq =>
    refine (supply_paidStorage_le payout_eq).trans (Nat.add_le_add_left ?_ _)
    simp [issuedAt, set]

/-- In a run none of whose `spend` calls claims a UTXO twice, the supply never exceeds the genesis
outputs and the issuance of the blocks that had an author, and no successful `spend` raises it. -/
theorem supply_le_of_not_doubleClaim {utxos : List TransactionOutput}
    {trace : List (Transition ChainState Action)}
    (hrun : ChainRun cfg (genesis cfg utxos) trace st)
    (hclaim : ∀ t ∈ trace, ¬ ClaimsTwice cfg t) :
    supply st.storage ≤ (genesis cfg utxos).utxoTotal + (trace.map (issuedAt cfg)).sum ∧
      ∀ t ∈ trace, ∀ tx, SpendSucceeds cfg tx t →
        supply t.post.storage ≤ supply t.pre.storage := by
  constructor
  -- the gains of the steps are their issuance, and a `spend` has none
  · exact hrun.measure_le (fun st => supply st.storage) (issuedAt cfg) hclaim
      fun hstep hcond => supply_step_le (chainStep_eq_some_iff.mp hstep) hcond
  · rintro ⟨pre, label, post⟩ ht tx ⟨⟨origin, rfl⟩, -⟩
    have hstep := chainStep_eq_some_iff.mp (hrun.exists_of_mem ht).1
    exact supply_step_le hstep (hclaim _ ht)

theorem supply_le_sample :
    (∀ t ∈ Sample.run.1, ¬ ClaimsTwice Sample.config t) ∧ Sample.run.1.length = 7 ∧
      supply Sample.run.2.storage ≤ (genesis Sample.config Sample.coins).utxoTotal +
        (Sample.run.1.map (issuedAt Sample.config)).sum ∧
      ∀ t ∈ Sample.run.1, ∀ tx, SpendSucceeds Sample.config tx t →
        supply t.post.storage ≤ supply t.pre.storage :=
  ⟨by decide +kernel, by decide +kernel,
    supply_le_of_not_doubleClaim Sample.chainRun (by decide +kernel)⟩

/-! ## A double claim -/

namespace Attack

open Sample

/-- One coin of `100`, listed twice with two signatures of its owner, turned into `200`. -/
def aliceInflates : Transaction where
  inputs := [⟨aliceCoin, signature alice 1⟩, ⟨aliceCoin, signature alice 2⟩]
  outputs := [⟨200, alice⟩]

def config : Config :=
  { Sample.config with
    blakeTwo256 := fun bytes =>
      if outputPreimage aliceInflates 0 = some bytes then
        h256 0x6053a1f363fc1188fdc752c5ae4925ea96876fbb1c3277006eeff49e9b9333ac
      else Sample.config.blakeTwo256 bytes }

/-- A block that does nothing but the attack. -/
def run : List (Transition ChainState Action) × ChainState :=
  replay (chainStep config) [] ⟨genesis config coins, false⟩
    [.onInitialize 1, .call .root (.spend aliceInflates), .onFinalize]

theorem chainRun : ChainRun config (genesis config coins) run.1 run.2 := Run.nil.of_replay _

end Attack

/-- A run without a hash collision that inflates the supply, by the value of the coin claimed
twice. -/
theorem doubleClaim_inflates :
    ∃ trace st, ChainRun Attack.config (genesis Attack.config Sample.coins) trace st ∧
      Set.InjOn Attack.config.blakeTwo256
        {p | p ∈ runPreimages Attack.config Sample.coins trace} ∧
      (genesis Attack.config Sample.coins).utxoTotal +
        (trace.map (issuedAt Attack.config)).sum < supply st.storage := by
  refine ⟨Attack.run.1, Attack.run.2, Attack.chainRun, injOn_of_nodup_map ?_, ?_⟩
  · decide +kernel
  · decide +kernel

end PowEvm
