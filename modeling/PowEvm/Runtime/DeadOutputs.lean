import PowEvm.Runtime.Filings

/-!
# Outputs of value zero

An output of value zero can never be consumed to any effect. `spend` refuses to create one. The
reward of a block is inserted without that check, so a block with an author and nothing to pay
creates one: no fee is waiting, and the halving schedule is exhausted or started again too late, or
the sum of the two wraps to zero.

## Main results

* `allPositive_spentStorage`: `spend` creates no output of value zero;
* `allPositive_onFinalize_iff`: finalization does exactly when `SinksReward` holds before it;
* `allPositive_iff_not_sinksReward`: a run meets no output of value zero exactly when none of its
  finalizations sinks the reward.
-/

namespace PowEvm

open Utxo Issuance

variable {cfg : Config} {s s' : Storage} {st st' : ChainState} {tx : Transaction}
  {message stem : Bytes}

/-- Every entry of the UTXO store has a value. -/
def AllPositive (s : Storage) : Prop :=
  ∀ k utxo, s.utxoStore.lookup k = some utxo → 0 < utxo.value

/-- The block has an author, and either nothing is due to it or what is due wraps to nothing. -/
def SinksReward (overflowChecks : Bool) (s : Storage) : Prop :=
  s.author.isSome ∧
    (s.rewardTotal = 0 ∧ Exhausted overflowChecks (halvings s.number) ∨
      overflowChecks = false ∧
        s.rewardTotal.toNat + (bitcoinHalving false s.number).elim 0 BitVec.toNat = 2 ^ 128)

instance (overflowChecks : Bool) (s : Storage) : Decidable (SinksReward overflowChecks s) :=
  inferInstanceAs (Decidable (_ ∧ _))

/-! ## One call or hook -/

/-- The outputs of a transaction are checked one by one. -/
theorem allPositive_spentStorage (h : Spendable cfg s tx message stem) (hpos : AllPositive s) :
    AllPositive (spentStorage cfg s tx) := by
  intro k utxo hk
  rcases Finmap.lookup_insertAll_cases hk with hold | hnew
  · rw [Finmap.lookup_eraseAll] at hold
    split_ifs at hold
    exact hpos k utxo hold
  · -- a created entry is one of the outputs
    obtain ⟨⟨bytes, output⟩, hfiled, heq⟩ := List.mem_map.mp hnew
    obtain ⟨-, rfl⟩ := Prod.ext_iff.mp heq
    obtain ⟨i, hi, -⟩ := mem_filed_iff.mp hfiled
    exact h.accepted.positive output (List.mem_of_getElem? hi)

/-- The reward is inserted unchecked. -/
theorem allPositive_paidStorage_iff {author : Public} {reward : Value} (hpos : AllPositive s) :
    AllPositive (paidStorage cfg s author reward) ↔ reward ≠ 0 := by
  constructor
  · intro h hzero
    have hlookup : (paidStorage cfg s author reward).utxoStore.lookup
        (rewardHash cfg ⟨reward, author⟩ s.number) = some ⟨reward, author⟩ :=
      Finmap.lookup_insert _
    have hlt : 0 < reward := h _ _ hlookup
    rw [hzero] at hlt
    exact absurd hlt (by decide)
  · -- any other entry was there before
    intro hreward k utxo hk
    by_cases hkey : k = rewardHash cfg ⟨reward, author⟩ s.number
    · subst hkey
      have hlookup := Finmap.lookup_insert (a := rewardHash cfg ⟨reward, author⟩ s.number)
        (b := (⟨reward, author⟩ : TransactionOutput)) s.utxoStore
      obtain rfl := Option.some.inj (hk.symm.trans hlookup)
      change 0 < reward
      bv_omega
    · exact hpos k utxo ((Finmap.lookup_insert_of_ne _ hkey).symm.trans hk)

/-- The reward is zero exactly when the block sinks it. -/
theorem payout_eq_zero_iff (hissuance : cfg.issuance = bitcoinHalving cfg.overflowChecks)
    {reward : Value} (hauthor : s.author.isSome) (h : payout cfg s = some reward) :
    reward = 0 ↔ SinksReward cfg.overflowChecks s := by
  obtain ⟨issued, hissued, hadd⟩ := Option.bind_eq_some_iff.mp h
  rw [hissuance] at hissued
  have hexhausted : issued = 0 ↔ Exhausted cfg.overflowChecks (halvings s.number) := by
    rw [← bitcoinHalving_eq_zero_iff, hissued, Option.some.injEq]
  have hzero (x : Value) : x = 0 ↔ x.toNat = 0 := BitVec.toNat_inj.symm
  have hreward := Integers.toNat_of_add hadd
  have hlt := s.rewardTotal.isLt
  have hlt' := issued.isLt
  unfold SinksReward
  rw [← hexhausted, hzero, hzero, hzero, hreward]
  cases hchecks : cfg.overflowChecks with
  | true =>
    -- with overflow checks the sum that came back did not wrap
    rw [hchecks] at hadd
    rw [Nat.mod_eq_of_lt (Integers.lt_of_add_true hadd)]
    simp [hauthor, Nat.add_eq_zero_iff]
  | false =>
    -- without them it may have wrapped, and then it is zero for one exact sum only
    rw [hchecks] at hissued
    rw [hissued, Option.elim_some]
    constructor
    · intro hmod
      refine ⟨hauthor, ?_⟩
      by_cases hwraps : s.rewardTotal.toNat + issued.toNat < 2 ^ 128
      · rw [Nat.mod_eq_of_lt hwraps] at hmod
        exact Or.inl (by omega)
      · exact Or.inr ⟨rfl, by omega⟩
    · rintro ⟨-, ⟨htotal, hissued⟩ | ⟨-, hwraps⟩⟩
      · omega
      · omega

/-- Finalizing creates an output of value zero exactly when it sinks the reward. -/
theorem allPositive_onFinalize_iff (hissuance : cfg.issuance = bitcoinHalving cfg.overflowChecks)
    (hpos : AllPositive s) (h : (onFinalize cfg).run s = .ok () s') :
    AllPositive s' ↔ ¬ SinksReward cfg.overflowChecks s := by
  cases hauthor : s.author with
  | none =>
    -- nothing is paid, and nothing is sunk
    rw [run_onFinalize_of_none hauthor] at h
    obtain ⟨-, rfl⟩ := EStateM.Result.ok.inj h
    exact iff_of_true hpos (by simp [SinksReward, hauthor])
  | some author =>
    rw [run_onFinalize_of_some hauthor, run_disperseReward] at h
    cases hpayout : payout cfg s with
    | none =>
      -- the hook returned, so it did not panic
      rw [hpayout] at h
      cases h
    | some reward =>
      rw [hpayout] at h
      obtain ⟨-, rfl⟩ := EStateM.Result.ok.inj h
      have hset : s.author.isSome := by rw [hauthor]; rfl
      rw [allPositive_paidStorage_iff hpos, ne_eq, payout_eq_zero_iff hissuance hset hpayout]

/-! ## Runs -/

/-- Every step but a finalization that sinks the reward keeps the entries positive. -/
theorem AllPositive.step (hissuance : cfg.issuance = bitcoinHalving cfg.overflowChecks)
    {action : Action} (h : Effect cfg st action st') (hpos : AllPositive st.storage)
    (hsinks : action = .onFinalize → ¬ SinksReward cfg.overflowChecks st.storage) :
    AllPositive st'.storage := by
  cases h with
  | initialized => exact hpos
  | spent busy spendable => exact allPositive_spentStorage spendable hpos
  | authorSet => exact hpos
  | failed => exact hpos
  | wasted => exact hpos
  | paid busy set payout_eq =>
    have hset : st.storage.author.isSome := by rw [set]; rfl
    rw [allPositive_paidStorage_iff hpos, ne_eq, payout_eq_zero_iff hissuance hset payout_eq]
    exact hsinks rfl

theorem allPositive_genesis {utxos : List TransactionOutput} (h : ∀ utxo ∈ utxos, 0 < utxo.value) :
    AllPositive (genesis cfg utxos) := by
  intro k utxo hk
  rcases Finmap.lookup_insertAll_cases hk with hempty | hmem
  · rw [Finmap.lookup_empty] at hempty
    cases hempty
  · obtain ⟨utxo', hutxo', heq⟩ := List.mem_map.mp hmem
    obtain ⟨-, rfl⟩ := Prod.ext_iff.mp heq
    exact h utxo' hutxo'

/-- A finalization, as the hook it runs. -/
theorem Effect.run_onFinalize (h : Effect cfg st .onFinalize st') :
    (onFinalize cfg).run st.storage = .ok () st'.storage := by
  cases h with
  | wasted busy unset => exact run_onFinalize_of_none unset
  | paid busy set payout_eq => rw [run_onFinalize_of_some set, run_disperseReward, payout_eq]

/-- From a genesis without outputs of value zero, a run meets one exactly when it finalizes a block
that sinks its reward. -/
theorem allPositive_run_iff (hissuance : cfg.issuance = bitcoinHalving cfg.overflowChecks)
    {utxos : List TransactionOutput} {trace : List (Transition ChainState Action)}
    (hutxos : ∀ utxo ∈ utxos, 0 < utxo.value)
    (hrun : ChainRun cfg (genesis cfg utxos) trace st) :
    (∀ t ∈ trace, AllPositive t.post.storage) ↔
      ∀ t ∈ trace, t.label = .onFinalize → ¬ SinksReward cfg.overflowChecks t.pre.storage := by
  constructor
  · intro hall t ht hlabel
    obtain ⟨hstep, before, after, htrace, hbefore⟩ := hrun.exists_of_mem ht
    -- the state before `t` is the genesis or the one after an earlier transition
    have hpre : AllPositive t.pre.storage := by
      rcases hbefore.eq_or_exists_post with heq | ⟨t', ht', heq⟩
      · rw [heq]
        exact allPositive_genesis hutxos
      · rw [← heq]
        exact hall t' (by simp [htrace, ht'])
    rw [hlabel] at hstep
    have hfinalize := (chainStep_eq_some_iff.mp hstep).run_onFinalize
    exact (allPositive_onFinalize_iff hissuance hpre hfinalize).mp (hall t ht)
  · -- the invariant of the induction also covers the state reached
    intro hsinks
    have hrun' := hrun.induct_on
      (motive := fun trace st =>
        (∀ t ∈ trace, AllPositive t.post.storage) ∧ AllPositive st.storage)
      hsinks ⟨fun t ht => absurd ht List.not_mem_nil, allPositive_genesis hutxos⟩
      (by
        rintro trace st label st' - ⟨hall, hpos⟩ hstep hcond
        have hpos' := hpos.step hissuance (chainStep_eq_some_iff.mp hstep) hcond
        refine ⟨?_, hpos'⟩
        intro t ht
        rcases List.mem_append.mp ht with ht | ht
        · exact hall t ht
        · obtain rfl := List.mem_singleton.mp ht
          exact hpos')
    exact hrun'.1

/-- With the issuance of the runtime: `spend` creates no output of value zero; a finalization
creates one exactly when it sinks the reward; and so a run from a genesis without any meets one
exactly when one of its finalizations sinks the reward. -/
theorem allPositive_iff_not_sinksReward (blakeTwo256 : Bytes → H256)
    (sr25519Verify : H512 → Bytes → H256 → Bool) (overflowChecks : Bool) :
    (∀ s s' tx, AllPositive s →
      (spend (runtimeConfig blakeTwo256 sr25519Verify overflowChecks) tx).run s = .ok () s' →
        AllPositive s') ∧
    (∀ s s', AllPositive s →
      (onFinalize (runtimeConfig blakeTwo256 sr25519Verify overflowChecks)).run s = .ok () s' →
        (AllPositive s' ↔ ¬ SinksReward overflowChecks s)) ∧
    ∀ utxos trace st, (∀ utxo ∈ utxos, 0 < utxo.value) →
      ChainRun (runtimeConfig blakeTwo256 sr25519Verify overflowChecks)
        (genesis (runtimeConfig blakeTwo256 sr25519Verify overflowChecks) utxos) trace st →
        ((∀ t ∈ trace, AllPositive t.post.storage) ↔
          ∀ t ∈ trace, t.label = .onFinalize → ¬ SinksReward overflowChecks t.pre.storage) := by
  refine ⟨?_, ?_, ?_⟩
  · intro s s' tx hpos h
    obtain ⟨⟨message, stem, hspendable⟩, rfl⟩ := run_spend_eq_ok_iff.mp h
    exact allPositive_spentStorage hspendable hpos
  · intro s s' hpos h
    exact allPositive_onFinalize_iff rfl hpos h
  · intro utxos trace st hutxos hrun
    exact allPositive_run_iff rfl hutxos hrun

theorem allPositive_sample :
    (∀ t ∈ Sample.run.1, t.label = .onFinalize → ¬ SinksReward false t.pre.storage) ∧
      ∀ t ∈ Sample.run.1, AllPositive t.post.storage :=
  ⟨by decide +kernel,
    ((allPositive_iff_not_sinksReward _ _ false).2.2 Sample.coins Sample.run.1 Sample.run.2
      (by decide +kernel) Sample.chainRun).mpr (by decide +kernel)⟩

/-! ## A reward of nothing -/

namespace Sunk

open Sample

/-- Block `1_260_000` is the first one without issuance. -/
def config : Config :=
  { Sample.config with
    blakeTwo256 := fun bytes =>
      if bytes = rewardPreimage ⟨0, miner⟩ 1260000 then
        h256 0xbdebea0ee4adcc98ee7c6050d3bb213e94b911f1a7c77c3a4640d0b8ee717250
      else Sample.config.blakeTwo256 bytes }

/-- A block with an author and no transaction. -/
def run : List (Transition ChainState Action) × ChainState :=
  replay (chainStep config) [] ⟨genesis config coins, false⟩
    [.onInitialize 1260000, .call .none (.setAuthor miner), .onFinalize]

theorem chainRun : ChainRun config (genesis config coins) run.1 run.2 := Run.nil.of_replay _

end Sunk

/-- A run from a genesis without outputs of value zero, with the issuance of the runtime, that
creates one. -/
theorem sunk_run :
    Sunk.config.issuance = bitcoinHalving Sunk.config.overflowChecks ∧
      (∀ utxo ∈ Sample.coins, 0 < utxo.value) ∧
      ∃ trace st, ChainRun Sunk.config (genesis Sunk.config Sample.coins) trace st ∧
        ¬ AllPositive st.storage := by
  refine ⟨rfl, by decide +kernel, Sunk.run.1, Sunk.run.2, Sunk.chainRun, ?_⟩
  intro hpos
  have hlookup : Sunk.run.2.storage.utxoStore.lookup
      (rewardHash Sunk.config ⟨0, Sample.miner⟩ 1260000) = some ⟨0, Sample.miner⟩ := by
    decide +kernel
  exact absurd (hpos _ _ hlookup) (by decide)

end PowEvm
