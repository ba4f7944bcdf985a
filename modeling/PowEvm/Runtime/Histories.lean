import PowEvm.Runtime.Accounting
import PowEvm.Runtime.Forks
import PowEvm.Runtime.Independence

/-!
# What a chain has executed

The transactions that a chain has executed and the rewards that it has paid decide what its store
holds, which fees were credited and what it carries to the next author. How they were spread over
blocks, in what order, and what was refused in between, makes no difference.

## Main results

* `filedBy_eq`, `spentBy_eq`: what a step does to the store, by the transactions and rewards of the
  step;
* `fees_eq`: the fees of a run by the transactions alone, whatever the states they were executed in;
* `sameFunds_of_sameHistory`: two chains that have executed and paid the same hold the same outputs
  and carry the same reward.
-/

namespace PowEvm

open Utxo

variable {cfg : Config} {utxos utxos' : List TransactionOutput} {st st' : ChainState}
  {trace trace' : List (Transition ChainState Action)} {action : Action} {tx : Transaction}

/-- The transaction a step executes. -/
def executedBy (cfg : Config) (t : Transition ChainState Action) : List Transaction :=
  match t.label with
  | .call _ (.spend tx) => if spendOk cfg t.pre.storage tx then [tx] else []
  | _ => []

/-- The reward a step pays, with the number of the block it pays for. -/
def paidBy (cfg : Config) (t : Transition ChainState Action) :
    List (BlockNumber × TransactionOutput) :=
  match t.label, t.pre.storage.author, payout cfg t.pre.storage with
  | .onFinalize, some author, some reward => [(t.pre.storage.number, ⟨reward, author⟩)]
  | _, _, _ => []

/-- The transactions a run has executed. -/
def executedIn (cfg : Config) (trace : List (Transition ChainState Action)) : List Transaction :=
  trace.flatMap (executedBy cfg)

/-- The rewards a run has paid, with the numbers of their blocks. -/
def paidIn (cfg : Config) (trace : List (Transition ChainState Action)) :
    List (BlockNumber × TransactionOutput) :=
  trace.flatMap (paidBy cfg)

/-- Every output that a run has created, spent or not. -/
def archive (cfg : Config) (utxos : List TransactionOutput)
    (trace : List (Transition ChainState Action)) : UtxoStore :=
  Finmap.insertAll (createdIn cfg utxos trace) ∅

/-- A paid reward as it is filed, with the preimage of its key. -/
def filedReward (paid : BlockNumber × TransactionOutput) : Bytes × TransactionOutput :=
  (rewardPreimage paid.2 (paid.1.setWidth 64), paid.2)

/-! ## Steps -/

theorem paidBy_finalize (cfg : Config) (st st' : ChainState) :
    (paidBy cfg ⟨st, .onFinalize, st'⟩).map filedReward = paidOutput cfg st.storage := by
  dsimp only [paidBy, paidOutput]
  cases st.storage.author with
  | none => rfl
  | some author =>
    cases payout cfg st.storage with
    | none => rfl
    | some reward => rfl

/-- A step executes one transaction or none, and all it does to the store and to `RewardTotal`
besides paying a reward is what the transaction does. -/
theorem executedBy_cases (cfg : Config) (t : Transition ChainState Action) :
    (∃ tx, SpendSucceeds cfg tx t ∧ executedBy cfg t = [tx] ∧ paidBy cfg t = [] ∧
        filedBy cfg t = filed tx ∧ spentBy cfg t = tx.outpoints ∧
        addedFee cfg t = creditedFee t.pre.storage.utxoStore tx) ∨
      (executedBy cfg t = [] ∧ filedBy cfg t = (paidBy cfg t).map filedReward ∧
        spentBy cfg t = [] ∧ addedFee cfg t = 0) := by
  obtain ⟨pre, label, post⟩ := t
  cases label with
  | onInitialize number => exact Or.inr ⟨rfl, rfl, rfl, rfl⟩
  | onFinalize => exact Or.inr ⟨rfl, (paidBy_finalize cfg pre post).symm, rfl, rfl⟩
  | call origin call =>
    cases call with
    | setAuthor author => exact Or.inr ⟨rfl, rfl, rfl, rfl⟩
    | spend tx =>
      by_cases hok : spendOk cfg pre.storage tx = true
      · exact Or.inl ⟨tx, ⟨⟨origin, rfl⟩, hok⟩, if_pos hok, rfl, if_pos hok, if_pos hok, if_pos hok⟩
      · exact Or.inr ⟨if_neg hok, if_neg hok, if_neg hok, if_neg hok⟩

theorem spendSucceeds_of_mem_executedBy {t : Transition ChainState Action}
    (htx : tx ∈ executedBy cfg t) : SpendSucceeds cfg tx t := by
  obtain ⟨tx', hsucceeds, hexecuted, -⟩ | ⟨hexecuted, -⟩ := executedBy_cases cfg t
  · rw [hexecuted, List.mem_singleton] at htx
    exact htx ▸ hsucceeds
  · rw [hexecuted] at htx
    exact absurd htx List.not_mem_nil

/-- A step files the outputs of the transaction it executes and the reward it pays. -/
theorem filedBy_eq (cfg : Config) (t : Transition ChainState Action) :
    filedBy cfg t = (executedBy cfg t).flatMap filed ++ (paidBy cfg t).map filedReward := by
  obtain ⟨tx, -, hexecuted, hpaid, hfiled, -⟩ | ⟨hexecuted, hfiled, -⟩ := executedBy_cases cfg t
  · rw [hexecuted, hpaid, hfiled, List.flatMap_singleton, List.map_nil, List.append_nil]
  · rw [hexecuted, hfiled, List.flatMap_nil, List.nil_append]

/-- A step removes the outpoints of the transaction it executes. -/
theorem spentBy_eq (cfg : Config) (t : Transition ChainState Action) :
    spentBy cfg t = (executedBy cfg t).flatMap Transaction.outpoints := by
  obtain ⟨tx, -, hexecuted, -, -, hspent, -⟩ | ⟨hexecuted, -, hspent, -⟩ := executedBy_cases cfg t
  · rw [hexecuted, hspent, List.flatMap_singleton]
  · rw [hexecuted, hspent, List.flatMap_nil]

/-- A step credits the fee of the transaction it executes. -/
theorem addedFee_eq (cfg : Config) (t : Transition ChainState Action) :
    addedFee cfg t =
      ((executedBy cfg t).map (creditedFee t.pre.storage.utxoStore)).sum := by
  obtain ⟨tx, -, hexecuted, -, -, -, hfee⟩ | ⟨hexecuted, -, -, hfee⟩ := executedBy_cases cfg t
  · rw [hexecuted, hfee, List.map_singleton, List.sum_singleton]
  · rw [hexecuted, hfee, List.map_nil, List.sum_nil]

/-- What finalizing a block issues and what it logs are decided by the reward it pays. -/
theorem Effect.paidBy_eq (h : Effect cfg st action st') :
    issuedAt cfg ⟨st, action, st'⟩ =
        ((paidBy cfg ⟨st, action, st'⟩).map fun paid =>
          (cfg.issuance paid.1).elim 0 BitVec.toNat).sum ∧
      ((paidReward cfg ⟨st, action, st'⟩).toList.map fun p => p.1.toNat).sum =
        ((paidBy cfg ⟨st, action, st'⟩).map fun paid => paid.2.value.toNat).sum := by
  cases h with
  | initialized => exact ⟨rfl, rfl⟩
  | spent => exact ⟨rfl, rfl⟩
  | authorSet => exact ⟨rfl, rfl⟩
  | failed => exact ⟨rfl, rfl⟩
  | wasted busy unset =>
    have hpaid : paidBy cfg ⟨st, .onFinalize, ⟨wastedStorage st.storage, false⟩⟩ = [] := by
      simp only [paidBy, unset]
    rw [issuedAt_finalize_of_none unset, paidReward_of_none unset, hpaid]
    exact ⟨rfl, rfl⟩
  | @paid author reward busy set payout_eq =>
    have hpaid : paidBy cfg ⟨st, .onFinalize, ⟨paidStorage cfg st.storage author reward, false⟩⟩ =
        [(st.storage.number, ⟨reward, author⟩)] := by
      simp only [paidBy, set, payout_eq]
    rw [issuedAt_finalize set, paidReward_of_some set payout_eq, hpaid]
    exact ⟨rfl, rfl⟩

/-! ## Runs -/

/-- The sum over all that the steps do is the sum of what each of them does. -/
theorem sum_map_flatMap {α β : Type} (f : β → ℕ) (g : α → List β) (l : List α) :
    ((l.flatMap g).map f).sum = (l.map fun a => ((g a).map f).sum).sum := by
  rw [List.map_flatMap, List.flatMap_def, List.sum_flatten, List.map_map]
  rfl

/-- What a run files is what its transactions and its rewards do, in some order. -/
theorem flatMap_filedBy_perm (cfg : Config) (trace : List (Transition ChainState Action)) :
    ((executedIn cfg trace).flatMap filed ++ (paidIn cfg trace).map filedReward).Perm
      (trace.flatMap (filedBy cfg)) := by
  have hfiledBy : filedBy cfg =
      fun t => (executedBy cfg t).flatMap filed ++ (paidBy cfg t).map filedReward :=
    funext (filedBy_eq cfg)
  rw [executedIn, paidIn, List.flatMap_assoc, List.map_flatMap, hfiledBy]
  exact List.flatMap_append_perm _ _ _

theorem spentIn_eq (cfg : Config) (trace : List (Transition ChainState Action)) :
    spentIn cfg trace = (executedIn cfg trace).flatMap Transaction.outpoints := by
  rw [spentIn, executedIn, List.flatMap_assoc, funext (spentBy_eq cfg)]

theorem createdIn_eq (cfg : Config) (utxos : List TransactionOutput)
    (trace : List (Transition ChainState Action)) :
    createdIn cfg utxos trace =
      utxos.map (genesisEntry cfg) ++ hashed cfg (trace.flatMap (filedBy cfg)) := by
  rw [createdIn, hashed, List.map_flatMap]
  rfl

section Runs

variable (hrun : ChainRun cfg (genesis cfg utxos) trace st)

include hrun

/-- What a run issues is decided by the rewards it pays. -/
theorem issued_eq :
    (trace.map (issuedAt cfg)).sum =
      ((paidIn cfg trace).map fun paid => (cfg.issuance paid.1).elim 0 BitVec.toNat).sum := by
  rw [paidIn, sum_map_flatMap]
  congr 1
  apply List.map_congr_left
  intro t ht
  exact (chainStep_eq_some_iff.mp (hrun.exists_of_mem ht).1).paidBy_eq.1

/-- The log of a run adds up to the rewards it pays. -/
theorem issuedTotal_eq :
    issuedTotal st.storage.events =
      ((paidIn cfg trace).map fun paid => paid.2.value.toNat).sum := by
  have hlog : st.storage.events.filterMap issuedReward = trace.filterMap (paidReward cfg) :=
    issuedRewards_run hrun
  rw [issuedTotal, hlog, List.filterMap_eq_flatMap_toList, paidIn, sum_map_flatMap,
    sum_map_flatMap]
  congr 1
  apply List.map_congr_left
  intro t ht
  exact (chainStep_eq_some_iff.mp (hrun.exists_of_mem ht).1).paidBy_eq.2

variable (hinj : Set.InjOn cfg.blakeTwo256 {p | p ∈ runPreimages cfg utxos trace})

include hinj

/-- No transaction is executed twice. -/
theorem nodup_executedIn : (executedIn cfg trace).Nodup := by
  have hdisjoint := (consistent_of_injOn hrun hinj).2.spends_disjoint
  rw [executedIn, List.nodup_flatMap]
  refine ⟨?_, ?_⟩
  · intro t _
    obtain ⟨tx, -, hexecuted, -⟩ | ⟨hexecuted, -⟩ := executedBy_cases cfg t
    · rw [hexecuted]
      exact List.nodup_singleton tx
    · rw [hexecuted]
      exact List.nodup_nil
  · refine hdisjoint.imp ?_
    intro t t' hne tx htx htx'
    exact (hne tx tx (spendSucceeds_of_mem_executedBy htx)
      (spendSucceeds_of_mem_executedBy htx')).1 rfl

/-- No block is paid for twice. -/
theorem nodup_paidIn : (paidIn cfg trace).Nodup := by
  have hkeys := (consistent_of_injOn hrun hinj).2.keys_nodup
  -- each reward has a key among those that the steps insert
  have hpaid : ((paidIn cfg trace).map fun paid => cfg.blakeTwo256 (filedReward paid).1).Nodup := by
    refine hkeys.sublist ?_
    rw [paidIn, List.map_flatMap]
    apply List.Sublist.flatMap_right
    intro t _
    rw [insertedKeys, filedBy_eq, hashed, List.map_map, List.map_append, List.map_map]
    exact List.sublist_append_right _ _
  exact hpaid.of_map _

/-- A run creates one output under each key. -/
theorem injOn_createdIn : Set.InjOn Prod.fst {e | e ∈ createdIn cfg utxos trace} := by
  rintro ⟨k, u⟩ hk ⟨k', u'⟩ hk' (rfl : k = k')
  obtain ⟨p, hp, hpk, hdescribes⟩ := describes_of_mem_createdIn hrun hk
  obtain ⟨p', hp', hpk', hdescribes'⟩ := describes_of_mem_createdIn hrun hk'
  obtain rfl := hinj hp hp' (hpk.trans hpk'.symm)
  rw [hdescribes.unique hdescribes']

theorem lookup_archive_iff {k : H256} {u : TransactionOutput} :
    (archive cfg utxos trace).lookup k = some u ↔ (k, u) ∈ createdIn cfg utxos trace :=
  Finmap.lookup_insertAll_empty_iff (injOn_createdIn hrun hinj)

/-- What a step finds in the store is what the run has created under the key. -/
theorem lookup_archive_of_mem {t : Transition ChainState Action} (ht : t ∈ trace) {k : H256}
    (hk : k ∈ t.pre.storage.utxoStore) :
    t.pre.storage.utxoStore.lookup k = (archive cfg utxos trace).lookup k := by
  obtain ⟨u, hu⟩ := Finmap.mem_iff.mp hk
  rw [hu, eq_comm, lookup_archive_iff hrun hinj]
  -- the part of the run up to the step has created it already
  obtain ⟨-, before, after, rfl, hbefore⟩ := hrun.exists_of_mem ht
  have hunspent := unspent_run hbefore (hinj.mono (runPreimages_append_subset _))
  have hcreated : (k, u) ∈ createdIn cfg utxos before := ((hunspent.lookup_iff k u).mp hu).1
  rw [createdIn, List.flatMap_append, ← List.append_assoc]
  exact List.mem_append_left _ hcreated

/-- The fees of a run by the transactions it executes and the outputs it creates. -/
theorem fees_eq :
    (trace.map (addedFee cfg)).sum =
      ((executedIn cfg trace).map (creditedFee (archive cfg utxos trace))).sum := by
  rw [executedIn, sum_map_flatMap]
  congr 1
  apply List.map_congr_left
  intro t ht
  rw [addedFee_eq]
  congr 1
  apply List.map_congr_left
  intro tx htx
  -- the outpoints of an executed transaction are all there
  obtain ⟨message, stem, hspendable⟩ :=
    spendOk_iff.mp (spendSucceeds_of_mem_executedBy htx).2
  exact creditedFee_congr fun k hk => lookup_archive_of_mem hrun hinj ht (hspendable.present k hk)

end Runs

/-! ## Two chains with the same history -/

/-- The two chains start from the same outputs, have executed the same transactions and have paid
the same rewards for the same blocks. -/
structure SameHistory (cfg : Config) (utxos utxos' : List TransactionOutput)
    (trace trace' : List (Transition ChainState Action)) : Prop where
  genesis_iff : ∀ u, u ∈ utxos ↔ u ∈ utxos'
  executed_iff : ∀ tx, tx ∈ executedIn cfg trace ↔ tx ∈ executedIn cfg trace'
  paid_iff : ∀ paid, paid ∈ paidIn cfg trace ↔ paid ∈ paidIn cfg trace'

section SameHistory

variable (h : SameHistory cfg utxos utxos' trace trace')

include h

theorem SameHistory.mem_filed_iff (x : Bytes × TransactionOutput) :
    x ∈ trace.flatMap (filedBy cfg) ↔ x ∈ trace'.flatMap (filedBy cfg) := by
  rw [← (flatMap_filedBy_perm cfg trace).mem_iff, ← (flatMap_filedBy_perm cfg trace').mem_iff]
  simp only [List.mem_append, List.mem_flatMap, List.mem_map, h.executed_iff, h.paid_iff]

theorem SameHistory.mem_createdIn_iff (e : H256 × TransactionOutput) :
    e ∈ createdIn cfg utxos trace ↔ e ∈ createdIn cfg utxos' trace' := by
  rw [createdIn_eq, createdIn_eq, hashed, hashed]
  simp only [List.mem_append, List.mem_map, h.genesis_iff, h.mem_filed_iff]

theorem SameHistory.mem_runPreimages_iff (p : Bytes) :
    p ∈ runPreimages cfg utxos trace ↔ p ∈ runPreimages cfg utxos' trace' := by
  rw [runPreimages, runPreimages, ← List.map_flatMap, ← List.map_flatMap]
  simp only [List.mem_append, List.mem_map, h.genesis_iff, h.mem_filed_iff]

theorem SameHistory.mem_spentIn_iff (k : H256) :
    k ∈ spentIn cfg trace ↔ k ∈ spentIn cfg trace' := by
  rw [spentIn_eq, spentIn_eq]
  simp only [List.mem_flatMap, h.executed_iff]

variable (hrun : ChainRun cfg (genesis cfg utxos) trace st)
  (hrun' : ChainRun cfg (genesis cfg utxos') trace' st')
  (hinj : Set.InjOn cfg.blakeTwo256 {p | p ∈ runPreimages cfg utxos trace})

include hinj in
theorem SameHistory.injOn :
    Set.InjOn cfg.blakeTwo256 {p | p ∈ runPreimages cfg utxos' trace'} := by
  simpa only [← h.mem_runPreimages_iff] using hinj

include hrun hrun' hinj

/-- The two chains have created and spent the same. -/
theorem SameHistory.utxoStore_eq : st.storage.utxoStore = st'.storage.utxoStore :=
  (unspent_run hrun hinj).eq_of_mem_iff (unspent_run hrun' (h.injOn hinj)) h.mem_createdIn_iff
    h.mem_spentIn_iff

theorem SameHistory.archive_eq : archive cfg utxos trace = archive cfg utxos' trace' := by
  apply Finmap.ext_lookup
  intro k
  ext u
  rw [lookup_archive_iff hrun hinj, lookup_archive_iff hrun' (h.injOn hinj), h.mem_createdIn_iff]

theorem SameHistory.fees_eq :
    (trace.map (addedFee cfg)).sum = (trace'.map (addedFee cfg)).sum := by
  have hexecuted : (executedIn cfg trace).Perm (executedIn cfg trace') :=
    (List.perm_ext_iff_of_nodup (nodup_executedIn hrun hinj)
      (nodup_executedIn hrun' (h.injOn hinj))).mpr h.executed_iff
  rw [PowEvm.fees_eq hrun hinj, PowEvm.fees_eq hrun' (h.injOn hinj),
    h.archive_eq hrun hrun' hinj]
  exact (hexecuted.map _).sum_eq

/-- The two chains have paid the same rewards, each once. -/
theorem SameHistory.paid_perm : (paidIn cfg trace).Perm (paidIn cfg trace') :=
  (List.perm_ext_iff_of_nodup (nodup_paidIn hrun hinj)
    (nodup_paidIn hrun' (h.injOn hinj))).mpr h.paid_iff

end SameHistory

/-- Two chains with the same history hold the same outputs and carry the same reward, unless two of
their preimages collide or a payout overflows. -/
theorem sameFunds_of_sameHistory (hrun : ChainRun cfg (genesis cfg utxos) trace st)
    (hrun' : ChainRun cfg (genesis cfg utxos') trace' st')
    (hinj : Set.InjOn cfg.blakeTwo256 {p | p ∈ runPreimages cfg utxos trace})
    (hfits : ∀ t ∈ trace, PayoutFits cfg t) (hfits' : ∀ t ∈ trace', PayoutFits cfg t)
    (h : SameHistory cfg utxos utxos' trace trace') :
    SameFunds st.storage st'.storage ∧
      (trace.map (addedFee cfg)).sum = (trace'.map (addedFee cfg)).sum := by
  have hfees := h.fees_eq hrun hrun' hinj
  have hpaid := h.paid_perm hrun hrun' hinj
  -- what is carried is what was credited and issued less what was paid
  have hissued : (trace.map (issuedAt cfg)).sum = (trace'.map (issuedAt cfg)).sum := by
    rw [issued_eq hrun, issued_eq hrun']
    exact (hpaid.map _).sum_eq
  have htotal : issuedTotal st.storage.events = issuedTotal st'.storage.events := by
    rw [issuedTotal_eq hrun, issuedTotal_eq hrun']
    exact (hpaid.map _).sum_eq
  have howed := owed_run hrun hfits
  have howed' := owed_run hrun' hfits'
  have hzero : owed (genesis cfg utxos) = owed (genesis cfg utxos') := rfl
  rw [owed, hfees, hissued, htotal, hzero] at howed
  rw [owed] at howed'
  refine ⟨⟨h.utxoStore_eq hrun hrun' hinj, BitVec.eq_of_toNat_eq ?_⟩, hfees⟩
  omega

namespace Sample

/-- Both coins are spent in one block. -/
def aliceFirst : List (Transition ChainState Action) × ChainState :=
  replay (chainStep config) [] ⟨genesis config coins, false⟩
    [.onInitialize 1, .call .none (.setAuthor miner), .call .root (.spend aliceSpends),
      .call .root (.spend bobSpends), .onFinalize]

/-- The other way round, with a spend that is refused and a block without an author after it, from
the coins in the other order. -/
def bobFirst : List (Transition ChainState Action) × ChainState :=
  replay (chainStep config) [] ⟨genesis config coins.reverse, false⟩
    [.onInitialize 1, .call .none (.setAuthor miner), .call .root (.spend bobSpends),
      .call .root (.spend bobSpends), .call .root (.spend aliceSpends), .onFinalize,
      .onInitialize 2, .onFinalize]

theorem sameHistory :
    SameHistory config coins coins.reverse aliceFirst.1 bobFirst.1 where
  genesis_iff u := List.mem_reverse.symm
  executed_iff _ := (show (executedIn config aliceFirst.1).Perm (executedIn config bobFirst.1) by
    decide +kernel).mem_iff
  paid_iff paid := by
    have hpaid : paidIn config aliceFirst.1 = paidIn config bobFirst.1 := by decide +kernel
    rw [hpaid]

end Sample

theorem sameFunds_of_sameHistory_sample :
    executedIn Sample.config Sample.aliceFirst.1 = [Sample.aliceSpends, Sample.bobSpends] ∧
      executedIn Sample.config Sample.bobFirst.1 = [Sample.bobSpends, Sample.aliceSpends] ∧
      paidIn Sample.config Sample.bobFirst.1 = [(1, ⟨65, Sample.miner⟩)] ∧
      SameFunds Sample.aliceFirst.2.storage Sample.bobFirst.2.storage ∧
      (Sample.aliceFirst.1.map (addedFee Sample.config)).sum =
        (Sample.bobFirst.1.map (addedFee Sample.config)).sum :=
  ⟨by decide +kernel, by decide +kernel, by decide +kernel,
    sameFunds_of_sameHistory (Run.nil.of_replay _) (Run.nil.of_replay _)
      (injOn_of_nodup_map (by decide +kernel)) (by decide +kernel) (by decide +kernel)
      Sample.sameHistory⟩

end PowEvm
