import PowEvm.Runtime.Genesis
import PowEvm.Runtime.Replay

/-!
# The store as the unspent outputs

Storage keeps no history. That the UTXO store is nevertheless the set of unspent outputs, every
output ever filed less every outpoint ever spent, is a property of whole runs.

## Main results

* `unspent_run`: the store of a run holds what was created and not spent;
* `lookup_eq_some_iff_unspent`: an output is found under a key exactly when it was filed under it,
  by genesis or by a step of the run, and no successful spend of the run has consumed the key.
-/

namespace PowEvm

open Utxo

variable {cfg : Config} {utxos : List TransactionOutput} {st st' : ChainState}
  {trace : List (Transition ChainState Action)} {action : Action}

/-- The entries that genesis and the steps of a run filed. -/
def createdIn (cfg : Config) (utxos : List TransactionOutput)
    (trace : List (Transition ChainState Action)) : List (H256 × TransactionOutput) :=
  utxos.map (genesisEntry cfg) ++ trace.flatMap fun t => hashed cfg (filedBy cfg t)

/-- The outpoints that the successful spends of a run consumed. -/
def spentIn (cfg : Config) (trace : List (Transition ChainState Action)) : List H256 :=
  trace.flatMap (spentBy cfg)

theorem createdIn_append (t : Transition ChainState Action) :
    createdIn cfg utxos (trace ++ [t]) =
      createdIn cfg utxos trace ++ hashed cfg (filedBy cfg t) := by
  rw [createdIn, createdIn, List.flatMap_append, List.flatMap_singleton, List.append_assoc]

theorem spentIn_append (t : Transition ChainState Action) :
    spentIn cfg (trace ++ [t]) = spentIn cfg trace ++ spentBy cfg t := by
  rw [spentIn, spentIn, List.flatMap_append, List.flatMap_singleton]

/-- A key was created exactly when it is the hash of a preimage of the run. -/
theorem mem_map_fst_createdIn_iff {k : H256} :
    k ∈ (createdIn cfg utxos trace).map Prod.fst ↔
      ∃ p ∈ runPreimages cfg utxos trace, cfg.blakeTwo256 p = k := by
  have hkeys : (createdIn cfg utxos trace).map Prod.fst =
      (runPreimages cfg utxos trace).map cfg.blakeTwo256 := by
    simp only [createdIn, runPreimages, hashed, List.map_append, List.map_flatMap, List.map_map]
    rfl
  rw [hkeys, List.mem_map]

/-- A consumed outpoint was consumed by a successful spend. -/
theorem mem_spentBy_iff {t : Transition ChainState Action} {k : H256} :
    k ∈ spentBy cfg t ↔ ∃ tx, SpendSucceeds cfg tx t ∧ k ∈ tx.outpoints := by
  obtain ⟨pre, label, post⟩ := t
  cases label with
  | onInitialize number => simp [spentBy, SpendSucceeds]
  | onFinalize => simp [spentBy, SpendSucceeds]
  | call origin call =>
    cases call with
    | setAuthor author => simp [spentBy, SpendSucceeds]
    | spend tx =>
      change k ∈ (if spendOk cfg pre.storage tx then tx.outpoints else []) ↔ _
      by_cases hok : spendOk cfg pre.storage tx = true
      · rw [if_pos hok]
        refine ⟨fun hk => ⟨tx, ⟨⟨origin, rfl⟩, hok⟩, hk⟩, ?_⟩
        rintro ⟨tx', ⟨⟨origin', hlabel⟩, -⟩, hk⟩
        obtain ⟨-, hcall⟩ := Action.call.inj hlabel
        exact Call.spend.inj hcall ▸ hk
      · rw [if_neg hok]
        refine ⟨fun hk => absurd hk List.not_mem_nil, ?_⟩
        rintro ⟨tx', ⟨⟨origin', hlabel⟩, hok'⟩, -⟩
        obtain ⟨-, hcall⟩ := Action.call.inj hlabel
        exact absurd (Call.spend.inj hcall ▸ hok') hok

theorem mem_spentIn_iff {k : H256} :
    k ∈ spentIn cfg trace ↔ ∃ t ∈ trace, ∃ tx, SpendSucceeds cfg tx t ∧ k ∈ tx.outpoints := by
  simp only [spentIn, List.mem_flatMap, mem_spentBy_iff]

/-! ## Genesis -/

/-- Genesis holds what it created. -/
theorem unspent_genesis
    (hinj : Set.InjOn cfg.blakeTwo256 {p | p ∈ utxos.map TransactionOutput.encode}) :
    Finmap.Unspent (createdIn cfg utxos []) (spentIn cfg []) (genesis cfg utxos).utxoStore where
  lookup_iff k v := by
    have hcreated : createdIn cfg utxos [] = utxos.map (genesisEntry cfg) := List.append_nil _
    rw [hcreated]
    refine ⟨?_, ?_⟩
    · intro h
      refine ⟨?_, List.not_mem_nil⟩
      rcases Finmap.lookup_insertAll_cases h with hempty | hmem
      · exact absurd hempty (by simp)
      · exact hmem
    · rintro ⟨hmem, -⟩
      exact Finmap.lookup_insertAll_of_injOn (injOn_genesisEntry hinj) hmem
  created_of_spent k hk := absurd hk List.not_mem_nil

/-! ## Runs -/

/-- The preimages of the first part of a run are among those of the run. -/
theorem runPreimages_append_subset (after : List (Transition ChainState Action)) :
    {p | p ∈ runPreimages cfg utxos trace} ⊆ {p | p ∈ runPreimages cfg utxos (trace ++ after)} := by
  intro p hp
  rw [Set.mem_ofPred_eq, runPreimages, List.flatMap_append, ← List.append_assoc]
  exact List.mem_append_left _ hp

/-- What a step spends is in the store. -/
theorem mem_utxoStore_of_mem_spentBy {t : Transition ChainState Action} {k : H256}
    (hk : k ∈ spentBy cfg t) : k ∈ t.pre.storage.utxoStore := by
  obtain ⟨tx, hsucceeds, hmem⟩ := mem_spentBy_iff.mp hk
  obtain ⟨message, stem, hspendable⟩ := spendOk_iff.mp hsucceeds.2
  exact hspendable.present k hmem

/-- Without a collision among the preimages of a run, the store holds what was created and not
spent. -/
theorem unspent_run (hrun : ChainRun cfg (genesis cfg utxos) trace st)
    (hinj : Set.InjOn cfg.blakeTwo256 {p | p ∈ runPreimages cfg utxos trace}) :
    Finmap.Unspent (createdIn cfg utxos trace) (spentIn cfg trace) st.storage.utxoStore := by
  refine hrun.history_induct
    (motive := fun trace st => Set.InjOn cfg.blakeTwo256 {p | p ∈ runPreimages cfg utxos trace} →
      Finmap.Unspent (createdIn cfg utxos trace) (spentIn cfg trace) st.storage.utxoStore)
    ?_ ?_ hinj
  · intro hinj
    apply unspent_genesis
    simpa [runPreimages] using hinj
  · intro trace st action st' hrun ih hstep hinj
    have heffect := chainStep_eq_some_iff.mp hstep
    have hinj' := hinj.mono (runPreimages_subset _)
    obtain ⟨hconsistent, -⟩ := consistent_of_injOn hrun hinj'
    have hfiled : Set.InjOn cfg.blakeTwo256
        {p | p ∈ (filedBy cfg ⟨st, action, st'⟩).map Prod.fst} := by
      apply hinj.mono
      intro p hp
      rw [Set.mem_ofPred_eq, runPreimages_append]
      exact List.mem_append_right _ hp
    rw [createdIn_append, spentIn_append, heffect.utxoStore_eq]
    apply (ih hinj').replace (fun k hk => mem_utxoStore_of_mem_spentBy hk)
      (nodup_keys_hashed heffect.nodup_filedBy hfiled)
    -- the keys of the step are new to the history
    intro k hk hcreated
    obtain ⟨p, hp, hpk⟩ := mem_map_fst_createdIn_iff.mp hcreated
    exact hconsistent.key_ne hinj heffect hk p hp hpk

/-- Without a collision among the preimages of a run, an output is found under a key exactly when
genesis or a step of the run filed it under the key, and no successful spend of the run has consumed
the key. -/
theorem lookup_eq_some_iff_unspent (hrun : ChainRun cfg (genesis cfg utxos) trace st)
    (hinj : Set.InjOn cfg.blakeTwo256 {p | p ∈ runPreimages cfg utxos trace})
    (k : H256) (utxo : TransactionOutput) :
    st.storage.utxoStore.lookup k = some utxo ↔
      ((utxo ∈ utxos ∧ cfg.blakeTwo256 utxo.encode = k) ∨
          ∃ t ∈ trace, ∃ bytes, (bytes, utxo) ∈ filedBy cfg t ∧ cfg.blakeTwo256 bytes = k) ∧
        ∀ t ∈ trace, ∀ tx, SpendSucceeds cfg tx t → k ∉ tx.outpoints := by
  have hcreated : (k, utxo) ∈ createdIn cfg utxos trace ↔
      (utxo ∈ utxos ∧ cfg.blakeTwo256 utxo.encode = k) ∨
        ∃ t ∈ trace, ∃ bytes, (bytes, utxo) ∈ filedBy cfg t ∧ cfg.blakeTwo256 bytes = k := by
    simp [createdIn, genesisEntry, hashed]
  have hspent : k ∉ spentIn cfg trace ↔
      ∀ t ∈ trace, ∀ tx, SpendSucceeds cfg tx t → k ∉ tx.outpoints := by
    rw [mem_spentIn_iff]
    push Not
    rfl
  rw [(unspent_run hrun hinj).lookup_iff, hcreated, hspent]

/-- The first coin of the sample run is spent, the second output of its first transaction is not. -/
theorem lookup_eq_some_iff_unspent_sample :
    Sample.run.2.storage.utxoStore.lookup Sample.aliceCoin ≠ some ⟨100, Sample.alice⟩ ∧
      ∀ k utxo, Sample.run.2.storage.utxoStore.lookup k = some utxo ↔
        ((utxo ∈ Sample.coins ∧ Sample.config.blakeTwo256 utxo.encode = k) ∨
          ∃ t ∈ Sample.run.1, ∃ bytes, (bytes, utxo) ∈ filedBy Sample.config t ∧
            Sample.config.blakeTwo256 bytes = k) ∧
          ∀ t ∈ Sample.run.1, ∀ tx, SpendSucceeds Sample.config tx t → k ∉ tx.outpoints :=
  ⟨by decide +kernel, fun k utxo => lookup_eq_some_iff_unspent Sample.chainRun
    (injOn_of_nodup_map (by decide +kernel)) k utxo⟩

end PowEvm
