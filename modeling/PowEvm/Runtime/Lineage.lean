import PowEvm.Runtime.Waiting

/-!
# The lineage of a transaction

An output is filed under the hash of the whole transaction that creates it. A transaction that
spends the output therefore names the one before it, that one names those before it, and so on back
to the coins of genesis and the rewards of blocks. A run executes a transaction only after all of
its lineage, and what takes the place of one transaction cuts off everything that descends from it.

## Main results

* `exists_succeeds_of_mem`: an output of a transaction is in the store only if the run has executed
  the transaction;
* `lineage_executed`: a transaction that goes through has its lineage executed before it, the oldest
  first, and no rival of the lineage is ever executed;
* `not_succeeds_of_rival`: nothing that descends from a transaction is executed in a run that
  executes a rival of it.
-/

namespace PowEvm

open Utxo

variable {cfg : Config} {utxos : List TransactionOutput} {st : ChainState}
  {trace : List (Transition ChainState Action)} {a b tx : Transaction}
  {lineage : List Transaction}

/-- Each transaction of the list spends an output of the next one. -/
def Lineage (cfg : Config) (txs : List Transaction) : Prop := txs.IsChain fun a b => Feeds cfg b a

theorem exists_outputPreimage_of_mem_filed {p : Bytes} (h : p ∈ (filed tx).map Prod.fst) :
    ∃ index, outputPreimage tx index = some p := by
  obtain ⟨⟨_, output⟩, hmem, rfl⟩ := List.mem_map.mp h
  obtain ⟨i, -, hpreimage⟩ := mem_filed_iff.mp hmem
  exact ⟨_, hpreimage⟩

/-- What finalization files has the preimage of a reward. -/
theorem exists_rewardPreimage {s : Storage} {p : Bytes}
    (h : p ∈ (paidOutput cfg s).map Prod.fst) : ∃ utxo block, p = rewardPreimage utxo block := by
  unfold paidOutput at h
  split at h
  · exact ⟨_, _, List.mem_singleton.mp h⟩
  · exact absurd h List.not_mem_nil

/-- A step that files a preimage of an output of a transaction executes the transaction. -/
theorem succeeds_of_mem_filedBy {t : Transition ChainState Action} {p : Bytes}
    (hstep : p ∈ (filedBy cfg t).map Prod.fst) (hfiled : p ∈ (filed tx).map Prod.fst) :
    SpendSucceeds cfg tx t := by
  obtain ⟨index, hpreimage⟩ := exists_outputPreimage_of_mem_filed hfiled
  obtain ⟨pre, label, post⟩ := t
  cases label with
  | onInitialize number => exact absurd hstep List.not_mem_nil
  | onFinalize =>
    obtain ⟨utxo, block, rfl⟩ := exists_rewardPreimage hstep
    exact absurd hpreimage outputPreimage_ne_rewardPreimage
  | call origin call =>
    cases call with
    | setAuthor author => exact absurd hstep List.not_mem_nil
    | spend tx' =>
      by_cases hok : spendOk cfg pre.storage tx' = true
      · rw [filedBy_spend hok] at hstep
        obtain ⟨index', hpreimage'⟩ := exists_outputPreimage_of_mem_filed hstep
        -- one preimage belongs to one transaction
        obtain ⟨rfl, -⟩ := outputPreimage_inj hpreimage' hpreimage
        exact ⟨⟨origin, rfl⟩, hok⟩
      · have hnone : filedBy cfg ⟨pre, .call origin (.spend tx'), post⟩ = [] := if_neg hok
        rw [hnone] at hstep
        exact absurd hstep List.not_mem_nil

/-- An output of a transaction is in the store of a run only if the run has executed the
transaction, unless the hash collides. -/
theorem exists_succeeds_of_mem (hrun : ChainRun cfg (genesis cfg utxos) trace st)
    (hinj : Set.InjOn cfg.blakeTwo256 {p | p ∈ runPreimages cfg utxos trace ∨
      p ∈ (filed tx).map Prod.fst})
    {k : H256} (hk : k ∈ createdKeys cfg tx) (hmem : k ∈ st.storage.utxoStore) :
    ∃ t ∈ trace, SpendSucceeds cfg tx t := by
  obtain ⟨hconsistent, -⟩ := consistent_of_injOn hrun (hinj.mono fun _ hp => Or.inl hp)
  obtain ⟨p, hp, rfl⟩ := hconsistent.sound.live_known k hmem
  obtain ⟨q, hq, heq⟩ := mem_createdKeys_iff_filed.mp hk
  obtain rfl := hinj (Or.inr hq) (Or.inl hp) heq
  rcases List.mem_append.mp hp with hgenesis | hfiled
  · -- the coins of genesis are no outputs of a transaction
    obtain ⟨utxo, -, rfl⟩ := List.mem_map.mp hgenesis
    obtain ⟨index, hpreimage⟩ := exists_outputPreimage_of_mem_filed hq
    exact absurd hpreimage outputPreimage_ne_encode
  · obtain ⟨t, ht, hstep⟩ := List.mem_flatMap.mp hfiled
    exact ⟨t, ht, succeeds_of_mem_filedBy hstep hq⟩

/-! ## Executed before -/

/-- The lineage of a transaction that goes through at the end of a run was executed in it, the
oldest first. -/
theorem exists_steps_of_lineage (hrun : ChainRun cfg (genesis cfg utxos) trace st)
    (hinj : Set.InjOn cfg.blakeTwo256 {p | p ∈ runPreimages cfg utxos trace ∨
      ∃ a ∈ lineage, p ∈ (filed a).map Prod.fst})
    (hlineage : Lineage cfg (tx :: lineage)) (hok : spendOk cfg st.storage tx = true) :
    ∃ steps, steps.Sublist trace ∧ List.Forall₂ (SpendSucceeds cfg) lineage.reverse steps := by
  induction lineage generalizing tx st trace with
  | nil => exact ⟨[], List.nil_sublist trace, .nil⟩
  | cons a lineage ih =>
    obtain ⟨⟨k, hk, hcreated⟩, hrest⟩ := List.isChain_cons_cons.mp hlineage
    obtain ⟨message, stem, hspendable⟩ := spendOk_iff.mp hok
    -- what `tx` spends of `a` is there, so `a` was executed
    have hinj' : Set.InjOn cfg.blakeTwo256 {p | p ∈ runPreimages cfg utxos trace ∨
        p ∈ (filed a).map Prod.fst} :=
      hinj.mono fun p hp => hp.imp_right fun hpa => ⟨a, List.mem_cons_self, hpa⟩
    obtain ⟨t, ht, hsucceeds⟩ :=
      exists_succeeds_of_mem hrun hinj' hcreated (hspendable.present k hk)
    -- and at that time the rest of the lineage had been
    obtain ⟨-, before, after, rfl, hbefore⟩ := hrun.exists_of_mem ht
    have hinjBefore : Set.InjOn cfg.blakeTwo256 {p | p ∈ runPreimages cfg utxos before ∨
        ∃ b ∈ lineage, p ∈ (filed b).map Prod.fst} := by
      refine hinj.mono ?_
      rintro p (hp | ⟨b, hb, hp⟩)
      · exact Or.inl (runPreimages_append_subset _ hp)
      · exact Or.inr ⟨b, List.mem_cons_of_mem a hb, hp⟩
    obtain ⟨steps, hsteps, hall⟩ := ih hbefore hinjBefore hrest hsucceeds.2
    refine ⟨steps ++ [t], hsteps.append (List.singleton_sublist.mpr List.mem_cons_self), ?_⟩
    rw [List.reverse_cons]
    exact List.rel_append hall (.cons hsucceeds .nil)

theorem exists_step_of_forall₂ {txs : List Transaction}
    {steps : List (Transition ChainState Action)}
    (h : List.Forall₂ (SpendSucceeds cfg) txs steps) (ha : a ∈ txs) :
    ∃ t ∈ steps, SpendSucceeds cfg a t := by
  induction h with
  | nil => exact absurd ha List.not_mem_nil
  | @cons b t txs steps hsucceeds _ ih =>
    rcases List.mem_cons.mp ha with rfl | ha
    · exact ⟨t, List.mem_cons_self, hsucceeds⟩
    · obtain ⟨t', ht', hsucceeds'⟩ := ih ha
      exact ⟨t', List.mem_cons_of_mem t ht', hsucceeds'⟩

/-! ## Rivals -/

/-- Two transactions that a run executes are the same, or share no outpoint. -/
theorem Unreplayed.eq_or_disjoint (h : Unreplayed cfg utxos trace)
    {t t' : Transition ChainState Action} (ht : t ∈ trace) (ht' : t' ∈ trace)
    (hsucceeds : SpendSucceeds cfg a t) (hsucceeds' : SpendSucceeds cfg b t') :
    a = b ∨ OutpointsDisjoint a b := by
  obtain ⟨before, after, rfl⟩ := List.mem_iff_append.mp ht
  obtain ⟨-, hafter, hbefore⟩ := List.pairwise_append.mp h.spends_disjoint
  rcases List.mem_append.mp ht' with hmem | hmem
  · exact Or.inr (hbefore t' hmem t List.mem_cons_self b a hsucceeds' hsucceeds).2.symm
  · rcases List.mem_cons.mp hmem with rfl | hmem
    · -- one step dispatches one call
      obtain ⟨⟨_, hlabel⟩, -⟩ := hsucceeds
      obtain ⟨⟨_, hlabel'⟩, -⟩ := hsucceeds'
      obtain ⟨-, hcall⟩ := Action.call.inj (hlabel.symm.trans hlabel')
      exact Or.inl (Call.spend.inj hcall)
    · exact Or.inr ((List.pairwise_cons.mp hafter).1 t' hmem a b hsucceeds hsucceeds').2

/-- In a run without a hash collision, nothing that descends from a transaction is executed, before
or after, if a rival of the transaction is: another one that spends one of its outpoints. -/
theorem not_succeeds_of_rival (hrun : ChainRun cfg (genesis cfg utxos) trace st)
    (hinj : Set.InjOn cfg.blakeTwo256 {p | p ∈ runPreimages cfg utxos trace ∨
      ∃ a ∈ lineage, p ∈ (filed a).map Prod.fst})
    (hlineage : Lineage cfg (tx :: lineage)) (ha : a ∈ tx :: lineage)
    {t : Transition ChainState Action} (ht : t ∈ trace) (hrival : SpendSucceeds cfg b t)
    (hne : a ≠ b) (hshared : ¬ OutpointsDisjoint a b) :
    ∀ t' ∈ trace, ¬ SpendSucceeds cfg tx t' := by
  intro t' ht' hsucceeds
  obtain ⟨-, hunreplayed⟩ := consistent_of_injOn hrun (hinj.mono fun _ hp => Or.inl hp)
  -- if `tx` is executed then so is `a`, and the run has executed two rivals
  have hexecuted : ∃ t'' ∈ trace, SpendSucceeds cfg a t'' := by
    rcases List.mem_cons.mp ha with rfl | ha
    · exact ⟨t', ht', hsucceeds⟩
    · obtain ⟨-, before, after, rfl, hbefore⟩ := hrun.exists_of_mem ht'
      obtain ⟨steps, hsteps, hall⟩ := exists_steps_of_lineage hbefore
        (hinj.mono fun p hp => hp.imp_left fun hpast => runPreimages_append_subset _ hpast)
        hlineage hsucceeds.2
      obtain ⟨t'', ht'', hsucceeds'⟩ :=
        exists_step_of_forall₂ hall (List.mem_reverse.mpr ha)
      exact ⟨t'', List.mem_append_left _ (hsteps.mem ht''), hsucceeds'⟩
  obtain ⟨t'', ht'', hsucceeds'⟩ := hexecuted
  exact (hunreplayed.eq_or_disjoint ht'' ht hsucceeds' hrival).elim hne hshared

/-- Over a run without a hash collision, a transaction that goes through at some point of it has had
its lineage executed before, the oldest first, and no rival of the lineage is executed before or
after. -/
theorem lineage_executed {before after : List (Transition ChainState Action)} {mid : ChainState}
    (hrun : ChainRun cfg (genesis cfg utxos) before mid) (hlater : Run (chainStep cfg) mid after st)
    (hinj : Set.InjOn cfg.blakeTwo256 {p | p ∈ runPreimages cfg utxos (before ++ after) ∨
      ∃ a ∈ lineage, p ∈ (filed a).map Prod.fst})
    (hlineage : Lineage cfg (tx :: lineage)) (hok : spendOk cfg mid.storage tx = true) :
    (∃ steps, steps.Sublist before ∧
        List.Forall₂ (SpendSucceeds cfg) lineage.reverse steps) ∧
      ∀ a ∈ lineage, ∀ t ∈ before ++ after, ∀ b, SpendSucceeds cfg b t →
        a = b ∨ OutpointsDisjoint a b := by
  obtain ⟨-, hunreplayed⟩ := consistent_of_injOn (Run.append_iff.mpr ⟨mid, hrun, hlater⟩)
    (hinj.mono fun _ hp => Or.inl hp)
  obtain ⟨steps, hsteps, hall⟩ := exists_steps_of_lineage hrun
    (hinj.mono fun p hp => hp.imp_left fun hpast => runPreimages_append_subset _ hpast)
    hlineage hok
  refine ⟨⟨steps, hsteps, hall⟩, ?_⟩
  intro a ha t ht b hsucceeds
  obtain ⟨t', ht', hsucceeds'⟩ := exists_step_of_forall₂ hall (List.mem_reverse.mpr ha)
  exact hunreplayed.eq_or_disjoint (List.mem_append_left after (hsteps.mem ht')) ht hsucceeds'
    hsucceeds

/-- The transaction that forwards an output of the sample run comes from the first one of the
run. -/
theorem lineage_executed_sample :
    Lineage Sample.config [Sample.bobForwards, Sample.aliceSpends] ∧
      ∃ steps, steps.Sublist (Sample.after 4).1 ∧
        List.Forall₂ (SpendSucceeds Sample.config) [Sample.aliceSpends] steps := by
  have hfeeds : Feeds Sample.config Sample.aliceSpends Sample.bobForwards :=
    ⟨_, List.mem_singleton.mpr rfl, by decide +kernel⟩
  have hlineage : Lineage Sample.config [Sample.bobForwards, Sample.aliceSpends] :=
    List.isChain_cons_cons.mpr ⟨hfeeds, .singleton _⟩
  have hnodup : ((runPreimages Sample.config Sample.coins ((Sample.after 4).1 ++ [])).map
      Sample.config.blakeTwo256).Nodup := by
    decide +kernel
  have hknown : ∀ p ∈ (filed Sample.aliceSpends).map Prod.fst,
      p ∈ runPreimages Sample.config Sample.coins ((Sample.after 4).1 ++ []) := by
    simpa using (show (((filed Sample.aliceSpends).map Prod.fst).all fun p =>
      (runPreimages Sample.config Sample.coins ((Sample.after 4).1 ++ [])).contains p) = true by
        decide +kernel)
  have hinj := injOn_of_nodup_map hnodup
  refine ⟨hlineage, (lineage_executed (Sample.chainRun_after 4) .nil (hinj.mono ?_) hlineage
    (by decide +kernel)).1⟩
  rintro p (hp | ⟨a, ha, hp⟩)
  · exact hp
  · obtain rfl := List.mem_singleton.mp ha
    exact hknown p hp

end PowEvm
