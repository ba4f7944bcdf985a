import PowEvm.Runtime.Accounting

/-!
# Runs without an author

Blocks in which nothing names an author. Their finalization reports the rewards as wasted, so over
a run of such blocks no reward is issued, whatever the issuance is, and `RewardTotal` keeps every
fee.

## Main results

* `noAuthor_run`: at no point of such a run is there an author;
* `unrewarded_of_authorless`: over such a run no reward is issued.
-/

namespace PowEvm

open Utxo

variable {cfg : Config} {s : Storage} {st st' : ChainState} {action : Action}
  {trace : List (Transition ChainState Action)}

/-- No step dispatches the call that sets the author with the origin that may. -/
def Authorless (trace : List (Transition ChainState Action)) : Prop :=
  ∀ t ∈ trace, ∀ author, t.label ≠ .call .none (.setAuthor author)

/-- While a block is open nobody is its author. -/
def NoAuthor (st : ChainState) : Prop := st.inBlock = true → st.storage.author = none

/-! ## Steps -/

theorem NoAuthor.step (h : NoAuthor st) (heffect : Effect cfg st action st')
    (hauthorless : ∀ author, action ≠ .call .none (.setAuthor author)) : NoAuthor st' := by
  cases heffect with
  | initialized => exact fun _ => rfl
  | spent busy spendable => exact fun _ => h busy
  | @authorSet author busy unset => exact absurd rfl (hauthorless author)
  | failed busy error => exact h
  | wasted busy unset => exact fun hopen => absurd hopen Bool.false_ne_true
  | paid busy set payout_eq => exact fun hopen => absurd hopen Bool.false_ne_true

/-- A block is finalized in a step only while it is open. -/
theorem inBlock_of_onFinalize (h : Effect cfg st .onFinalize st') : st.inBlock = true := by
  cases h with
  | wasted busy unset => exact busy
  | paid busy set payout_eq => exact busy

/-- Finalizing a block without an author reports the rewards as wasted. -/
theorem eq_of_onFinalize (h : Effect cfg st .onFinalize st') (hunset : st.storage.author = none) :
    st' = ⟨wastedStorage st.storage, false⟩ := by
  cases h with
  | wasted busy unset => rfl
  | paid busy set payout_eq => exact absurd (set.symm.trans hunset) (by simp)

/-! ## Runs -/

/-- At no point of a run without an author is there one. -/
theorem noAuthor_run (hrun : ChainRun cfg s trace st) (hauthorless : Authorless trace) :
    NoAuthor st := by
  refine hrun.induct_on (motive := fun _ st => NoAuthor st) hauthorless
    (fun hopen => absurd hopen Bool.false_ne_true) ?_
  intro _ st action st' _ ih hstep hcond
  exact ih.step (chainStep_eq_some_iff.mp hstep) hcond

/-- Every block of such a run is finalized without an author. -/
theorem author_eq_none_of_onFinalize (hrun : ChainRun cfg s trace st)
    (hauthorless : Authorless trace) :
    ∀ t ∈ trace, t.label = .onFinalize → t.pre.storage.author = none := by
  rintro ⟨pre, label, post⟩ ht rfl
  obtain ⟨hstep, before, after, rfl, hbefore⟩ := hrun.exists_of_mem ht
  have hnone : NoAuthor pre :=
    noAuthor_run hbefore fun t' ht' => hauthorless t' (List.mem_append_left _ ht')
  exact hnone (inBlock_of_onFinalize (chainStep_eq_some_iff.mp hstep))

/-- Nothing is issued where no block is finalized with an author. -/
theorem issuedAt_eq_zero {t : Transition ChainState Action}
    (hunset : t.label = .onFinalize → t.pre.storage.author = none) : issuedAt cfg t = 0 := by
  obtain ⟨pre, label, post⟩ := t
  cases label with
  | onInitialize number => rfl
  | call origin call => rfl
  | onFinalize => exact issuedAt_finalize_of_none (hunset rfl)

/-- A run issues no reward: what there is to pay is carried, and announced as wasted. -/
structure Unrewarded (cfg : Config) (s : Storage) (trace : List (Transition ChainState Action))
    (st : ChainState) : Prop where
  /-- No `RewardsIssued` event is added. -/
  rewards_eq : st.storage.events.filterMap issuedReward = s.events.filterMap issuedReward
  /-- `RewardTotal` keeps every fee. -/
  rewardTotal_eq : st.storage.rewardTotal.toNat =
    s.rewardTotal.toNat + (trace.map (addedFee cfg)).sum
  /-- Every finalization reports the rewards as wasted, and writes nothing else. -/
  wasted : ∀ t ∈ trace, t.label = .onFinalize → t.post = ⟨wastedStorage t.pre.storage, false⟩
  /-- The open block can be finalized. -/
  finalizes : st.inBlock = true →
    chainStep cfg st .onFinalize = some ⟨wastedStorage st.storage, false⟩

/-- Over every run without an author no reward is issued. -/
theorem unrewarded_of_authorless (hrun : ChainRun cfg s trace st)
    (hauthorless : Authorless trace) : Unrewarded cfg s trace st := by
  have hunset := author_eq_none_of_onFinalize hrun hauthorless
  have hpaid : trace.filterMap (paidReward cfg) = [] := by
    rw [List.filterMap_eq_nil_iff]
    rintro ⟨pre, label, post⟩ ht
    cases label with
    | onInitialize number => rfl
    | call origin call => rfl
    | onFinalize => exact paidReward_of_none (hunset _ ht rfl)
  have hrewards : st.storage.events.filterMap issuedReward = s.events.filterMap issuedReward := by
    rw [issuedRewards_run hrun, hpaid, List.append_nil]
  refine ⟨hrewards, ?_, ?_, ?_⟩
  · have hfits : ∀ t ∈ trace, PayoutFits cfg t := by
      intro t ht hlabel hauthor
      rw [hunset t ht hlabel] at hauthor
      exact absurd hauthor (by simp)
    have hissued : (trace.map (issuedAt cfg)).sum = 0 := by
      rw [List.sum_eq_zero_iff_forall_eq_nat, List.forall_mem_map]
      exact fun t ht => issuedAt_eq_zero (hunset t ht)
    -- what is owed grows by the fees alone, and none of it is paid
    have howed := owed_run hrun hfits
    rw [owed, owed, issuedTotal, issuedTotal, hrewards, hissued] at howed
    omega
  · rintro ⟨pre, label, post⟩ ht rfl
    exact eq_of_onFinalize (chainStep_eq_some_iff.mp (hrun.exists_of_mem ht).1) (hunset _ ht rfl)
  · intro hopen
    exact chainStep_of_effect (.wasted hopen (noAuthor_run hrun hauthorless hopen))

end PowEvm
