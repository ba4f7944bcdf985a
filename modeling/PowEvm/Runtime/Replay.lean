import PowEvm.Library.ContentAddressed
import PowEvm.Runtime.Filings

/-!
# Replay protection

Storage forgets a key when it is spent, so `output already exists` alone would let a removed key be
filed again. That it never is comes from the keys themselves: they are hashes of what created the
entry, a transaction with the outpoints it spends or a block with its number. The UTXO store of a
run is a content-addressed ledger, whose parents are the outpoints of the creating transaction.

## Main results

* `extends_of_effect`: every step of the chain extends the ledger;
* `unreplayed_of_injOn`: no key is inserted twice, no entry is overwritten, and no transaction or
  outpoint is spent twice.
-/

namespace PowEvm

open Utxo ContentLedger

variable {cfg : Config} {utxos : List TransactionOutput} {st st' : ChainState}
  {trace : List (Transition ChainState Action)}
  {action : Action}

/-- The outpoints spent by the transaction that created the entry with a preimage. -/
def parents (bytes : Bytes) : Set H256 :=
  {k | ∃ tx index, outputPreimage tx index = some bytes ∧ k ∈ tx.outpoints}

/-- The ledger of a run: the keys in the store, and the preimages of all keys inserted so far. -/
def ledger (cfg : Config) (utxos : List TransactionOutput)
    (trace : List (Transition ChainState Action)) (st : ChainState) : ContentLedger H256 Bytes where
  live := {k | k ∈ st.storage.utxoStore}
  history := runPreimages cfg utxos trace

/-- The rewards filed so far are those of earlier blocks, and of the last one once it is over. -/
def RewardsBefore (history : List Bytes) (st : ChainState) : Prop :=
  ∀ utxo block, rewardPreimage utxo block ∈ history →
    block.toNat ≤ st.storage.number.toNat ∧
      (st.inBlock = true → block.toNat < st.storage.number.toNat)

/-! ## Parents -/

theorem parents_of_outputPreimage {tx : Transaction} {index : BitVec 64} {bytes : Bytes}
    (h : outputPreimage tx index = some bytes) : parents bytes = {k | k ∈ tx.outpoints} := by
  ext k
  constructor
  · rintro ⟨tx', index', h', hk⟩
    obtain ⟨rfl, -⟩ := outputPreimage_inj h' h
    exact hk
  · intro hk
    exact ⟨tx, index, h, hk⟩

theorem parents_encode (utxo : TransactionOutput) : parents utxo.encode = ∅ := by
  rw [Set.eq_empty_iff_forall_notMem]
  rintro k ⟨tx, index, h, -⟩
  exact outputPreimage_ne_encode h

theorem parents_rewardPreimage (utxo : TransactionOutput) (block : BitVec 64) :
    parents (rewardPreimage utxo block) = ∅ := by
  rw [Set.eq_empty_iff_forall_notMem]
  rintro k ⟨tx, index, h, -⟩
  exact outputPreimage_ne_rewardPreimage h

theorem parents_of_mem_filed {tx : Transaction} {bytes : Bytes}
    (h : bytes ∈ (filed tx).map Prod.fst) : parents bytes = {k | k ∈ tx.outpoints} := by
  obtain ⟨⟨_, output⟩, hfiled, rfl⟩ := List.mem_map.mp h
  obtain ⟨i, -, hpreimage⟩ := mem_filed_iff.mp hfiled
  exact parents_of_outputPreimage hpreimage

/-! ## Steps -/

theorem toNat_block (number : BlockNumber) : (number.setWidth 64).toNat = number.toNat := by
  rw [BitVec.toNat_setWidth_of_le (by norm_num)]

theorem runPreimages_append (t : Transition ChainState Action) :
    runPreimages cfg utxos (trace ++ [t]) =
      runPreimages cfg utxos trace ++ (filedBy cfg t).map Prod.fst := by
  simp [runPreimages, List.append_assoc]

theorem runPreimages_subset (t : Transition ChainState Action) :
    {p | p ∈ runPreimages cfg utxos trace} ⊆ {p | p ∈ runPreimages cfg utxos (trace ++ [t])} := by
  intro p hp
  rw [Set.mem_ofPred_eq, runPreimages_append]
  exact List.mem_append_left _ hp

theorem mem_insertedKeys_iff {t : Transition ChainState Action} {k : H256} :
    k ∈ insertedKeys cfg t ↔ ∃ p ∈ (filedBy cfg t).map Prod.fst, cfg.blakeTwo256 p = k := by
  simp [insertedKeys, hashed]

/-- Every step spends live keys and files items whose parents it spends. -/
theorem extends_of_effect (h : Effect cfg st action st')
    (hrewards : RewardsBefore (runPreimages cfg utxos trace) st) :
    Extends cfg.blakeTwo256 parents {k | k ∈ spentBy cfg ⟨st, action, st'⟩}
      ((filedBy cfg ⟨st, action, st'⟩).map Prod.fst) (ledger cfg utxos trace st)
      (ledger cfg utxos (trace ++ [⟨st, action, st'⟩]) st') := by
  -- the keys of the store and the history move as the store and the run do, whatever the step
  have hlive : (ledger cfg utxos (trace ++ [⟨st, action, st'⟩]) st').live =
      (ledger cfg utxos trace st).live \ {k | k ∈ spentBy cfg ⟨st, action, st'⟩} ∪
        {k | ∃ p ∈ (filedBy cfg ⟨st, action, st'⟩).map Prod.fst, cfg.blakeTwo256 p = k} := by
    ext k
    change k ∈ st'.storage.utxoStore ↔ _
    rw [h.utxoStore_eq, Finmap.mem_insertAll, Finmap.mem_eraseAll]
    exact or_congr Iff.rfl mem_insertedKeys_iff
  have hhistory : (ledger cfg utxos (trace ++ [⟨st, action, st'⟩]) st').history =
      (ledger cfg utxos trace st).history ++ (filedBy cfg ⟨st, action, st'⟩).map Prod.fst :=
    runPreimages_append _
  obtain ⟨tx, message, stem, hspendable, hfiled, hspent, -⟩ |
    ⟨author, reward, hbusy, -, hfiled, hspent, -⟩ | ⟨hfiled, hspent, -⟩ := h.files
  · -- a transaction: its outpoints are live, and there is one
    refine ⟨?_, ?_, ?_, hlive, hhistory⟩
    · intro k hk
      rw [hspent] at hk
      exact hspendable.present k hk
    · intro bytes hbytes
      rw [hfiled] at hbytes
      rw [hspent]
      exact parents_of_mem_filed hbytes
    · intro hempty
      obtain ⟨input, inputs, hinputs⟩ :=
        List.exists_cons_of_ne_nil hspendable.accepted.inputs_ne
      have hmem : input.outpoint ∈ tx.outpoints := by simp [Transaction.outpoints, hinputs]
      rw [hspent] at hempty
      exact absurd hmem (Set.eq_empty_iff_forall_notMem.mp hempty input.outpoint)
  · -- a reward: the number of the current block is above those of all rewards so far
    refine ⟨?_, ?_, ?_, hlive, hhistory⟩
    · simp [hspent]
    · intro bytes hbytes
      rw [hfiled, List.map_singleton, List.mem_singleton] at hbytes
      subst hbytes
      simp [hspent, parents_rewardPreimage]
    · intro _ bytes hbytes hmem
      rw [hfiled, List.map_singleton, List.mem_singleton] at hbytes
      subst hbytes
      have hlt := (hrewards _ _ hmem).2 hbusy
      rw [toNat_block] at hlt
      exact Nat.lt_irrefl _ hlt
  · refine ⟨?_, ?_, ?_, hlive, hhistory⟩
    · simp [hspent]
    · simp [hfiled]
    · simp [hfiled]

/-- Every step keeps the rewards filed so far in the past. -/
theorem RewardsBefore.step (hrewards : RewardsBefore (runPreimages cfg utxos trace) st)
    (h : Effect cfg st action st') :
    RewardsBefore (runPreimages cfg utxos (trace ++ [⟨st, action, st'⟩])) st' := by
  intro utxo block hmem
  rw [runPreimages_append, List.mem_append] at hmem
  rcases hmem with hmem | hmem
  · -- an old reward: the block number grows, or stays while the block is open
    obtain ⟨hle, hlt⟩ := hrewards utxo block hmem
    rcases h.number with ⟨-, hlater⟩ | ⟨hbusy, hsame⟩
    · have hlater' : st.storage.number.toNat < st'.storage.number.toNat := hlater
      exact ⟨by omega, fun _ => by omega⟩
    · rw [hsame]
      exact ⟨hle, fun _ => hlt hbusy⟩
  · -- a new reward: that of the block just closed
    obtain ⟨tx, _, _, -, hfiled, -, -⟩ | ⟨author, reward, -, -, hfiled, -, rfl⟩ |
      ⟨hfiled, -, -⟩ := h.files
    · rw [hfiled] at hmem
      obtain ⟨⟨bytes, output⟩, houtput, rfl⟩ := List.mem_map.mp hmem
      obtain ⟨i, -, hpreimage⟩ := mem_filed_iff.mp houtput
      exact absurd hpreimage outputPreimage_ne_rewardPreimage
    · rw [hfiled, List.map_singleton, List.mem_singleton] at hmem
      obtain ⟨-, rfl⟩ := rewardPreimage_inj hmem
      rw [toNat_block]
      exact ⟨Nat.le_refl _, fun hbusy => absurd hbusy Bool.false_ne_true⟩
    · rw [hfiled] at hmem
      exact absurd hmem List.not_mem_nil

/-- The preimages of the keys a step inserts are different. -/
theorem Effect.nodup_filedBy (h : Effect cfg st action st') :
    ((filedBy cfg ⟨st, action, st'⟩).map Prod.fst).Nodup := by
  -- the outputs of one transaction, one reward, or nothing
  obtain ⟨tx, _, _, -, hfiled, -, -⟩ | ⟨author, reward, -, -, hfiled, -, -⟩ | ⟨hfiled, -, -⟩ :=
    h.files
  · rw [hfiled]
    exact nodup_filed tx
  · rw [hfiled]
    exact List.nodup_singleton _
  · rw [hfiled]
    exact List.nodup_nil

/-! ## Runs -/

/-- The ledger of a run is sound, and its rewards lie in the past. -/
structure Consistent (cfg : Config) (utxos : List TransactionOutput)
    (trace : List (Transition ChainState Action)) (st : ChainState) : Prop where
  sound : Sound cfg.blakeTwo256 parents (ledger cfg utxos trace st)
  rewards : RewardsBefore (runPreimages cfg utxos trace) st

theorem consistent_genesis (cfg : Config) (utxos : List TransactionOutput) :
    Consistent cfg utxos [] ⟨genesis cfg utxos, false⟩ where
  sound := by
    -- genesis outputs have no parents
    apply sound_of_orphans
    · ext k
      simp [ledger, runPreimages, genesis, genesisUtxos, Finmap.mem_insertAll,
        Finmap.notMem_empty]
    · intro bytes hbytes
      simp only [ledger, runPreimages, List.flatMap_nil, List.append_nil, List.mem_map] at hbytes
      obtain ⟨utxo, -, rfl⟩ := hbytes
      exact parents_encode utxo
  rewards := by
    intro utxo block hmem
    simp only [runPreimages, List.flatMap_nil, List.append_nil, List.mem_map] at hmem
    obtain ⟨utxo', -, heq⟩ := hmem
    exact absurd heq.symm rewardPreimage_ne_encode

variable (hinj : Set.InjOn cfg.blakeTwo256
  {p | p ∈ runPreimages cfg utxos (trace ++ [⟨st, action, st'⟩])})

include hinj

theorem Consistent.step (h : Consistent cfg utxos trace st) (heffect : Effect cfg st action st') :
    Consistent cfg utxos (trace ++ [⟨st, action, st'⟩]) st' where
  sound := h.sound.of_extends hinj (extends_of_effect heffect h.rewards)
  rewards := h.rewards.step heffect

/-- A key inserted by a step was not inserted before it. -/
theorem Consistent.key_ne (h : Consistent cfg utxos trace st) (heffect : Effect cfg st action st')
    {k : H256} (hk : k ∈ insertedKeys cfg ⟨st, action, st'⟩) :
    ∀ p ∈ runPreimages cfg utxos trace, cfg.blakeTwo256 p ≠ k := by
  obtain ⟨q, hq, rfl⟩ := mem_insertedKeys_iff.mp hk
  exact (extends_of_effect heffect h.rewards).key_notMem hinj h.sound hq

/-- A key inserted by a step is not in the store before it. -/
theorem Consistent.key_notMem_store (h : Consistent cfg utxos trace st)
    (heffect : Effect cfg st action st') {k : H256}
    (hk : k ∈ insertedKeys cfg ⟨st, action, st'⟩) : k ∉ st.storage.utxoStore := by
  obtain ⟨q, hq, rfl⟩ := mem_insertedKeys_iff.mp hk
  exact (extends_of_effect heffect h.rewards).key_notMem_live hinj h.sound hq

omit hinj

/-- No key is used twice in a run, so nothing is replayed. -/
structure Unreplayed (cfg : Config) (utxos : List TransactionOutput)
    (trace : List (Transition ChainState Action)) : Prop where
  /-- No key is inserted twice. -/
  keys_nodup : (trace.flatMap (insertedKeys cfg)).Nodup
  /-- No key of a genesis output is inserted again. -/
  keys_notMem_genesis : ∀ k ∈ trace.flatMap (insertedKeys cfg), k ∉ genesisKeys cfg utxos
  /-- The inserted keys and removed outpoints are those of the step. -/
  utxoStore_eq : ∀ t ∈ trace, t.post.storage.utxoStore =
    Finmap.insertAll (hashed cfg (filedBy cfg t))
      (Finmap.eraseAll (spentBy cfg t) t.pre.storage.utxoStore)
  /-- No insertion overwrites an entry. -/
  keys_notMem_store : ∀ t ∈ trace, ∀ k ∈ insertedKeys cfg t, k ∉ t.pre.storage.utxoStore
  /-- No transaction succeeds twice, and no outpoint is consumed twice. -/
  spends_disjoint : trace.Pairwise fun t t' => ∀ tx tx', SpendSucceeds cfg tx t →
    SpendSucceeds cfg tx' t' → tx ≠ tx' ∧ List.Disjoint tx.outpoints tx'.outpoints

/-- What a successful spend of a run has spent is no longer in the store. -/
theorem Consistent.spent_notMem_store (h : Consistent cfg utxos trace st)
    {t : Transition ChainState Action} (ht : t ∈ trace) {tx : Transaction}
    (hsucceeds : SpendSucceeds cfg tx t) {k : H256} (hk : k ∈ tx.outpoints) :
    k ∉ st.storage.utxoStore := by
  obtain ⟨⟨origin, hlabel⟩, hok⟩ := hsucceeds
  obtain ⟨message, stem, hspendable⟩ := spendOk_iff.mp hok
  obtain ⟨output, outputs, houtputs⟩ := List.exists_cons_of_ne_nil hspendable.accepted.outputs_ne
  have hfiledBy : filedBy cfg t = filed tx := by
    rw [filedBy, hlabel]
    exact if_pos hok
  -- the first output of the transaction is in the history, and `k` is one of its parents
  have hpreimage : outputPreimage tx (BitVec.ofNat 64 0) =
      some (stem ++ (u64Layout (BitVec.ofNat 64 0)).toList) := by
    rw [outputPreimage_eq, hspendable.accepted.stem_eq]
    rfl
  have hfiled : (_, output) ∈ filed tx := mem_filed_iff.mpr ⟨0, by simp [houtputs], hpreimage⟩
  have hhistory : stem ++ (u64Layout (BitVec.ofNat 64 0)).toList ∈
      runPreimages cfg utxos trace := by
    refine List.mem_append_right _ (List.mem_flatMap.mpr ⟨t, ht, ?_⟩)
    rw [hfiledBy]
    exact List.mem_map_of_mem hfiled
  apply h.sound.parents_spent _ hhistory k
  rw [parents_of_outputPreimage hpreimage]
  exact hk

theorem mem_runPreimages_of_mem_keys {k : H256}
    (hk : k ∈ trace.flatMap (insertedKeys cfg)) :
    ∃ p ∈ runPreimages cfg utxos trace, cfg.blakeTwo256 p = k := by
  obtain ⟨t, ht, hkt⟩ := List.mem_flatMap.mp hk
  obtain ⟨p, hp, hpk⟩ := mem_insertedKeys_iff.mp hkt
  exact ⟨p, List.mem_append_right _ (List.mem_flatMap.mpr ⟨t, ht, hp⟩), hpk⟩

theorem mem_runPreimages_of_mem_genesisKeys {k : H256} (hk : k ∈ genesisKeys cfg utxos) :
    ∃ p ∈ runPreimages cfg utxos trace, cfg.blakeTwo256 p = k := by
  obtain ⟨utxo, hutxo, hkey⟩ := List.mem_map.mp hk
  exact ⟨utxo.encode, List.mem_append_left _ (List.mem_map_of_mem hutxo), hkey⟩

/-- One more step replays nothing. -/
theorem Unreplayed.step (h : Unreplayed cfg utxos trace)
    (hconsistent : Consistent cfg utxos trace st) (heffect : Effect cfg st action st')
    (hinj : Set.InjOn cfg.blakeTwo256
      {p | p ∈ runPreimages cfg utxos (trace ++ [⟨st, action, st'⟩])}) :
    Unreplayed cfg utxos (trace ++ [⟨st, action, st'⟩]) where
  keys_nodup := by
    rw [List.flatMap_append, List.flatMap_singleton, List.nodup_append]
    refine ⟨h.keys_nodup, ?_, ?_⟩
    · -- within the step the preimages differ, so the keys do
      apply nodup_keys_hashed heffect.nodup_filedBy
      apply hinj.mono
      intro p hp
      rw [Set.mem_ofPred_eq, runPreimages_append]
      exact List.mem_append_right _ hp
    · -- an earlier key belongs to a preimage of the history
      rintro k hk k' hk' rfl
      obtain ⟨p, hp, hpk⟩ := mem_runPreimages_of_mem_keys hk
      exact hconsistent.key_ne hinj heffect hk' p hp hpk
  keys_notMem_genesis := by
    intro k hk hgenesis
    rw [List.flatMap_append, List.flatMap_singleton, List.mem_append] at hk
    rcases hk with hk | hk
    · exact h.keys_notMem_genesis k hk hgenesis
    · obtain ⟨p, hp, hpk⟩ := mem_runPreimages_of_mem_genesisKeys hgenesis
      exact hconsistent.key_ne hinj heffect hk p hp hpk
  utxoStore_eq := by
    intro t ht
    rcases List.mem_append.mp ht with ht | ht
    · exact h.utxoStore_eq t ht
    · obtain rfl := List.mem_singleton.mp ht
      exact heffect.utxoStore_eq
  keys_notMem_store := by
    intro t ht k hk
    rcases List.mem_append.mp ht with ht | ht
    · exact h.keys_notMem_store t ht k hk
    · obtain rfl := List.mem_singleton.mp ht
      exact hconsistent.key_notMem_store hinj heffect hk
  spends_disjoint := by
    rw [List.pairwise_append]
    refine ⟨h.spends_disjoint, List.pairwise_singleton _ _, ?_⟩
    intro t ht t' ht' tx tx' hsucceeds hsucceeds'
    -- what an earlier `spend` has spent is gone, but the outpoints of this one are present
    obtain rfl := List.mem_singleton.mp ht'
    obtain ⟨message, stem, hspendable⟩ := spendOk_iff.mp hsucceeds'.2
    have hdisjoint : List.Disjoint tx.outpoints tx'.outpoints := by
      intro k hk hk'
      exact hconsistent.spent_notMem_store ht hsucceeds hk (hspendable.present k hk')
    refine ⟨?_, hdisjoint⟩
    -- a transaction has an outpoint, so it is not disjoint from itself
    rintro rfl
    obtain ⟨input, inputs, hinputs⟩ := List.exists_cons_of_ne_nil hspendable.accepted.inputs_ne
    have hmem : input.outpoint ∈ tx.outpoints := by simp [Transaction.outpoints, hinputs]
    exact hdisjoint hmem hmem

/-- Without a collision among the preimages of a run, the invariant holds after it. -/
theorem consistent_of_injOn (hrun : ChainRun cfg (genesis cfg utxos) trace st)
    (hinj : Set.InjOn cfg.blakeTwo256 {p | p ∈ runPreimages cfg utxos trace}) :
    Consistent cfg utxos trace st ∧ Unreplayed cfg utxos trace := by
  refine hrun.history_induct
    (motive := fun trace st => Set.InjOn cfg.blakeTwo256 {p | p ∈ runPreimages cfg utxos trace} →
      Consistent cfg utxos trace st ∧ Unreplayed cfg utxos trace) ?_ ?_ hinj
  · intro _
    refine ⟨consistent_genesis cfg utxos, ?_⟩
    exact
      { keys_nodup := List.nodup_nil
        keys_notMem_genesis := fun k hk => absurd hk List.not_mem_nil
        utxoStore_eq := fun t ht => absurd ht List.not_mem_nil
        keys_notMem_store := fun t ht => absurd ht List.not_mem_nil
        spends_disjoint := List.Pairwise.nil }
  · intro trace st action st' _ ih hstep hinj
    have heffect := chainStep_eq_some_iff.mp hstep
    obtain ⟨hconsistent, hunreplayed⟩ := ih (hinj.mono (runPreimages_subset _))
    exact ⟨hconsistent.step hinj heffect, hunreplayed.step hconsistent heffect hinj⟩

/-- Without a collision among the preimages of a run, it inserts no key twice, overwrites nothing,
and executes no transaction and consumes no outpoint twice. -/
theorem unreplayed_of_injOn (hrun : ChainRun cfg (genesis cfg utxos) trace st)
    (hinj : Set.InjOn cfg.blakeTwo256 {p | p ∈ runPreimages cfg utxos trace}) :
    Unreplayed cfg utxos trace :=
  (consistent_of_injOn hrun hinj).2

theorem unreplayed_sample :
    Sample.run.1.flatMap (insertedKeys Sample.config) ≠ [] ∧
      Unreplayed Sample.config Sample.coins Sample.run.1 :=
  ⟨by decide +kernel,
    unreplayed_of_injOn Sample.chainRun (injOn_of_nodup_map (by decide +kernel))⟩

end PowEvm
