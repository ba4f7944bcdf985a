import PowEvm.Runtime.Filings

/-!
# Fees and issuance are paid out once

`RewardTotal` is a carry: successful spends add their fees to it, and a finalization with an author
takes it, adds the issuance and pays the sum as one output. A finalization without an author reports
the reward as wasted, yet leaves `RewardTotal` to the next author.

## Main results

* `owed_step`: each step adds its fee and its issuance to what was paid and what is carried;
* `paidOnce_of_fits`: over a run the rewards paid and the carry are the fees and the issuance, and
  the log and the store hold one entry for each finalization with an author.
-/

namespace PowEvm

open Utxo

variable {cfg : Config} {s : Storage} {st st' : ChainState} {action : Action}
  {trace : List (Transition ChainState Action)}

/-- The amount and the key of a `RewardsIssued` event. -/
def issuedReward : Event → Option (Value × H256)
  | .rewardsIssued amount hash => some (amount, hash)
  | _ => none

/-- The sum of the amounts of all `RewardsIssued` events. -/
def issuedTotal (events : List Event) : ℕ :=
  ((events.filterMap issuedReward).map fun p => p.1.toNat).sum

/-- What a successful `spend` adds to `RewardTotal`, `0` for every other step. -/
def addedFee (cfg : Config) (t : Transition ChainState Action) : ℕ :=
  match t.label with
  | .call _ (.spend tx) =>
    if spendOk cfg t.pre.storage tx then creditedFee t.pre.storage.utxoStore tx else 0
  | _ => 0

/-- The reward a step pays: what finalizing a block with an author files, and its key. -/
def paidReward (cfg : Config) (t : Transition ChainState Action) : Option (Value × H256) :=
  match t.label with
  | .onFinalize =>
    (paidOutput cfg t.pre.storage).head?.map fun p => (p.2.value, cfg.blakeTwo256 p.1)
  | _ => none

/-- Finalizing a block with an author does not overflow. -/
def PayoutFits (cfg : Config) (t : Transition ChainState Action) : Prop :=
  t.label = .onFinalize → t.pre.storage.author.isSome →
    t.pre.storage.rewardTotal.toNat +
      (cfg.issuance t.pre.storage.number).elim 0 BitVec.toNat < 2 ^ 128

instance : DecidablePred (PayoutFits cfg) := fun t =>
  inferInstanceAs (Decidable (t.label = .onFinalize → _ → _))

/-! ## Steps -/

theorem issuedTotal_append (events : List Event) (event : Event) :
    issuedTotal (events ++ [event]) =
      issuedTotal events + (issuedReward event).elim 0 fun p => p.1.toNat := by
  unfold issuedTotal
  rw [List.filterMap_append, List.map_append, List.sum_append]
  cases h : issuedReward event with
  | none => simp [h]
  | some p => simp [h]

/-- A reward that fits is the carry and the issuance. -/
theorem toNat_payout {reward : Value} (h : payout cfg s = some reward)
    (hfits : s.rewardTotal.toNat + (cfg.issuance s.number).elim 0 BitVec.toNat < 2 ^ 128) :
    reward.toNat = s.rewardTotal.toNat + (cfg.issuance s.number).elim 0 BitVec.toNat := by
  obtain ⟨issued, hissued, hadd⟩ := Option.bind_eq_some_iff.mp h
  rw [hissued, Option.elim_some] at hfits ⊢
  rw [Integers.toNat_of_add hadd, Nat.mod_eq_of_lt hfits]

/-- What was paid and what is carried. -/
def owed (s : Storage) : ℕ := issuedTotal s.events + s.rewardTotal.toNat

/-- Each step adds its fee and its issuance to what was paid and what is carried. -/
theorem owed_step (h : Effect cfg st action st') (hfits : PayoutFits cfg ⟨st, action, st'⟩) :
    owed st'.storage =
      owed st.storage + (addedFee cfg ⟨st, action, st'⟩ + issuedAt cfg ⟨st, action, st'⟩) := by
  cases h with
  | initialized => rfl
  | @spent origin tx message stem busy spendable =>
    have hcarry : (spentStorage cfg st.storage tx).rewardTotal.toNat =
        st.storage.rewardTotal.toNat + creditedFee st.storage.utxoStore tx :=
      Integers.toNat_ofNat_of_lt spendable.reward_lt
    have hevents : issuedTotal (spentStorage cfg st.storage tx).events =
        issuedTotal st.storage.events + 0 := issuedTotal_append _ _
    change owed (spentStorage cfg st.storage tx) = owed st.storage +
      ((if spendOk cfg st.storage tx then creditedFee st.storage.utxoStore tx else 0) + 0)
    rw [if_pos (spendOk_iff.mpr ⟨_, _, spendable⟩), owed, owed, hcarry, hevents]
    omega
  | authorSet => rfl
  | @failed origin call e busy error =>
    -- a failed call leaves the storage as it was and adds no fee
    have hfee : addedFee cfg ⟨st, .call origin call, st⟩ = 0 := by
      cases call with
      | spend tx => exact if_neg (by simp [spendOk_eq_false error])
      | setAuthor author => rfl
    rw [hfee]
    rfl
  | wasted busy unset =>
    -- `RewardsWasted` is no payment, and the carry stays
    have hevents : issuedTotal (wastedStorage st.storage).events =
        issuedTotal st.storage.events + 0 := issuedTotal_append _ _
    change owed (wastedStorage st.storage) = owed st.storage +
      (0 + if st.storage.author.isSome then
        (cfg.issuance st.storage.number).elim 0 BitVec.toNat else 0)
    rw [if_neg (by simp [unset]), owed, owed, hevents]
    rfl
  | @paid author reward busy set payout_eq =>
    have hset : st.storage.author.isSome := by rw [set]; rfl
    -- the carry moves into the amount of the event, along with the issuance
    have hreward := toNat_payout payout_eq (hfits rfl hset)
    have hevents : issuedTotal (paidStorage cfg st.storage author reward).events =
        issuedTotal st.storage.events + reward.toNat := issuedTotal_append _ _
    have hcarry : (paidStorage cfg st.storage author reward).rewardTotal.toNat = 0 := rfl
    change owed (paidStorage cfg st.storage author reward) = owed st.storage +
      (0 + if st.storage.author.isSome then
        (cfg.issuance st.storage.number).elim 0 BitVec.toNat else 0)
    rw [if_pos hset, owed, owed, hevents, hcarry, hreward]
    omega

theorem paidReward_of_none (h : st.storage.author = none) :
    paidReward cfg ⟨st, .onFinalize, st'⟩ = none := by
  simp [paidReward, paidOutput, h]

theorem paidReward_of_some {author : Public} {reward : Value} (h : st.storage.author = some author)
    (hpayout : payout cfg st.storage = some reward) :
    paidReward cfg ⟨st, .onFinalize, st'⟩ =
      some (reward, rewardHash cfg ⟨reward, author⟩ st.storage.number) := by
  simp only [paidReward, paidOutput, h, hpayout]
  rfl

/-- Each step logs the reward it pays, if any. -/
theorem issuedRewards_step (h : Effect cfg st action st') :
    st'.storage.events.filterMap issuedReward =
      st.storage.events.filterMap issuedReward ++ (paidReward cfg ⟨st, action, st'⟩).toList := by
  cases h with
  | initialized => exact (List.append_nil _).symm
  | spent => exact List.filterMap_append
  | authorSet => exact (List.append_nil _).symm
  | failed => exact (List.append_nil _).symm
  | wasted busy unset =>
    rw [paidReward_of_none unset]
    exact List.filterMap_append
  | @paid author reward busy set payout_eq =>
    rw [paidReward_of_some set payout_eq]
    exact List.filterMap_append

/-! ## Runs -/

/-- A run pays its fees and its issuance once. -/
structure PaidOnce (cfg : Config) (s : Storage) (trace : List (Transition ChainState Action))
    (st : ChainState) : Prop where
  /-- What was paid and what is carried are the fees added by the successful spends and the issuance
  of the blocks finalized with an author. -/
  balance : issuedTotal st.storage.events + st.storage.rewardTotal.toNat =
    issuedTotal s.events + ((trace.map (addedFee cfg)).sum + (trace.map (issuedAt cfg)).sum)
  /-- A successful `spend` adds its fee to `RewardTotal`. -/
  fee_added : ∀ t ∈ trace, ∀ tx, SpendSucceeds cfg tx t →
    t.post.storage.rewardTotal.toNat = t.pre.storage.rewardTotal.toNat + addedFee cfg t
  /-- The `RewardsIssued` events are those of the finalizations that pay, in order. -/
  events_eq : st.storage.events.filterMap issuedReward =
    s.events.filterMap issuedReward ++ trace.filterMap (paidReward cfg)
  /-- A payment goes to the author of the block, under the key and with the amount of its event, and
  takes what `RewardTotal` held. -/
  entry_of_paid : ∀ t ∈ trace, ∀ amount key, paidReward cfg t = some (amount, key) →
    t.label = .onFinalize ∧
      ∃ author, t.pre.storage.author = some author ∧
        t.post.storage.utxoStore.lookup key = some ⟨amount, author⟩ ∧
        amount.toNat = t.pre.storage.rewardTotal.toNat + issuedAt cfg t ∧
        t.post.storage.rewardTotal = 0
  /-- Every block finalized with an author is paid for. -/
  paid_of_author : ∀ t ∈ trace, t.label = .onFinalize → t.pre.storage.author.isSome →
    (paidReward cfg t).isSome
  /-- A block finalized without an author leaves `RewardTotal` to the next one. -/
  carried : ∀ t ∈ trace, t.label = .onFinalize → t.pre.storage.author = none →
    t.post.storage.rewardTotal = t.pre.storage.rewardTotal

theorem Effect.fee_added {tx : Transaction} (h : Effect cfg st action st')
    (hsucceeds : SpendSucceeds cfg tx ⟨st, action, st'⟩) :
    st'.storage.rewardTotal.toNat =
      st.storage.rewardTotal.toNat + addedFee cfg ⟨st, action, st'⟩ := by
  obtain ⟨⟨origin, rfl⟩, hok⟩ := hsucceeds
  obtain ⟨⟨message, stem, hspendable⟩, hst'⟩ := run_spend_eq_ok_iff.mp (h.run_spend hok)
  change _ = _ + if spendOk cfg st.storage tx then creditedFee st.storage.utxoStore tx else 0
  rw [if_pos hok, hst']
  exact Integers.toNat_ofNat_of_lt hspendable.reward_lt

/-- What finalizing a block does with the reward. -/
theorem Effect.finalized (h : Effect cfg st .onFinalize st') :
    (st.storage.author = none ∧ paidReward cfg ⟨st, .onFinalize, st'⟩ = none ∧
      st'.storage.rewardTotal = st.storage.rewardTotal) ∨
    ∃ author reward, st.storage.author = some author ∧ payout cfg st.storage = some reward ∧
      paidReward cfg ⟨st, .onFinalize, st'⟩ =
        some (reward, rewardHash cfg ⟨reward, author⟩ st.storage.number) ∧
      st'.storage = paidStorage cfg st.storage author reward := by
  cases h with
  | wasted busy unset => exact Or.inl ⟨unset, paidReward_of_none unset, rfl⟩
  | @paid author reward busy set payout_eq =>
    exact Or.inr ⟨author, reward, set, payout_eq, paidReward_of_some set payout_eq, rfl⟩

/-- Over a run each fee and each issuance is owed once. -/
theorem owed_run (hrun : ChainRun cfg s trace st) (hfits : ∀ t ∈ trace, PayoutFits cfg t) :
    owed st.storage =
      owed s + ((trace.map (addedFee cfg)).sum + (trace.map (issuedAt cfg)).sum) := by
  rw [← List.sum_map_add]
  exact hrun.measure_eq (fun st => owed st.storage) (fun t => addedFee cfg t + issuedAt cfg t)
    hfits fun hstep hcond => owed_step (chainStep_eq_some_iff.mp hstep) hcond

/-- A run logs the rewards it pays. -/
theorem issuedRewards_run (hrun : ChainRun cfg s trace st) :
    st.storage.events.filterMap issuedReward =
      s.events.filterMap issuedReward ++ trace.filterMap (paidReward cfg) := by
  refine hrun.history_induct
    (motive := fun trace st => st.storage.events.filterMap issuedReward =
      s.events.filterMap issuedReward ++ trace.filterMap (paidReward cfg))
    (List.append_nil _).symm ?_
  intro trace st action st' _ ih hstep
  rw [issuedRewards_step (chainStep_eq_some_iff.mp hstep), ih, List.filterMap_append,
    List.append_assoc]
  congr 2

/-- From an empty carry, a run whose payouts fit pays its fees and its issuance once. -/
theorem paidOnce_of_fits (hstart : s.rewardTotal = 0) (hrun : ChainRun cfg s trace st)
    (hfits : ∀ t ∈ trace, PayoutFits cfg t) : PaidOnce cfg s trace st where
  balance := by
    have howed := owed_run hrun hfits
    have hzero : s.rewardTotal.toNat = 0 := by rw [hstart]; rfl
    rwa [owed, owed, hzero, Nat.add_zero] at howed
  fee_added := by
    rintro ⟨pre, label, post⟩ ht tx hsucceeds
    exact (chainStep_eq_some_iff.mp (hrun.exists_of_mem ht).1).fee_added hsucceeds
  events_eq := issuedRewards_run hrun
  entry_of_paid := by
    rintro ⟨pre, label, post⟩ ht amount key hpaid
    have heffect := chainStep_eq_some_iff.mp (hrun.exists_of_mem ht).1
    cases label with
    | onInitialize number => cases hpaid
    | call origin call => cases hpaid
    | onFinalize =>
      refine ⟨rfl, ?_⟩
      obtain ⟨-, hnone, -⟩ | ⟨author, reward, hset, hpayout, hpaid', hpost⟩ := heffect.finalized
      · cases hnone.symm.trans hpaid
      · -- the payment of the step is the one of its author
        obtain ⟨rfl, rfl⟩ := Prod.ext_iff.mp (Option.some.inj (hpaid'.symm.trans hpaid))
        have hauthor : pre.storage.author.isSome := by rw [hset]; rfl
        have hissued : issuedAt cfg ⟨pre, .onFinalize, post⟩ =
            (cfg.issuance pre.storage.number).elim 0 BitVec.toNat := if_pos hauthor
        dsimp only
        rw [hissued, hpost]
        exact ⟨author, hset, Finmap.lookup_insert _,
          toNat_payout hpayout (hfits _ ht rfl hauthor), rfl⟩
  paid_of_author := by
    rintro ⟨pre, label, post⟩ ht rfl hauthor
    obtain ⟨hunset, -, -⟩ | ⟨author, reward, -, -, hpaid, -⟩ :=
      (chainStep_eq_some_iff.mp (hrun.exists_of_mem ht).1).finalized
    · exact absurd hauthor (Option.not_isSome_iff_eq_none.mpr hunset)
    · rw [hpaid]
      rfl
  carried := by
    rintro ⟨pre, label, post⟩ ht rfl hauthor
    obtain ⟨-, -, hsame⟩ | ⟨author, reward, hset, -, -, -⟩ :=
      (chainStep_eq_some_iff.mp (hrun.exists_of_mem ht).1).finalized
    · exact hsame
    · cases hset.symm.trans hauthor

theorem paidOnce_sample :
    Sample.run.1.filterMap (paidReward Sample.config) ≠ [] ∧
      PaidOnce Sample.config (genesis Sample.config Sample.coins) Sample.run.1 Sample.run.2 :=
  ⟨by decide +kernel, paidOnce_of_fits rfl Sample.chainRun (by decide +kernel)⟩

end PowEvm
