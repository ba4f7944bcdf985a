import PowEvm.Runtime.Independence
import PowEvm.Runtime.PoolTags
import PowEvm.Runtime.Unspent

/-!
# Ready transactions

The pool holds a transaction as ready when validation has accepted it without missing inputs. How
long that verdict lasts, and which ready transactions go into one block together, is decided by the
outpoints alone.

## Main results

* `validateTransaction_later_iff`: the verdict on a ready transaction stays what it is but for the
  outpoints that are spent, which it waits for from then on;
* `forM_spend_ok_iff_disjoint`: ready transactions can be executed one after the other exactly when
  no two of them share an outpoint.
-/

namespace PowEvm.Utxo

variable {cfg : Config} {s s' : Storage} {a b tx : Transaction} {message stem : Bytes}
  {v : ValidTransaction}

/-- The storage with nothing in `RewardTotal`, where every fee fits. -/
def emptied (s : Storage) : Storage := { s with rewardTotal := 0 }

/-- A fee is credited as a `u64`. -/
theorem creditedFee_lt (store : UtxoStore) (tx : Transaction) : creditedFee store tx < 2 ^ 64 :=
  Nat.mod_lt _ (by norm_num)

theorem emptied_reward_lt :
    (emptied s).rewardTotal.toNat + creditedFee s.utxoStore tx < 2 ^ 128 := by
  have hfee := creditedFee_lt s.utxoStore tx
  exact (Nat.zero_add _).trans_lt (hfee.trans (by norm_num))

/-- A transaction is ready when a `spend` of it goes through, the room in `RewardTotal` aside. -/
theorem ready_iff_spendable :
    (∃ v, validateTransaction cfg s.utxoStore tx = .ok v ∧ v.requires = []) ↔
      ∃ message stem, Spendable cfg (emptied s) tx message stem := by
  have hrequires : (validTransactionOf cfg s.utxoStore tx).requires = [] ↔
      ∀ k ∈ tx.outpoints, k ∈ s.utxoStore := by
    rw [validTransactionOf, List.map_eq_nil_iff, missingOf_eq_nil_iff]
  refine ⟨?_, ?_⟩
  · rintro ⟨v, hvalid, hnone⟩
    obtain ⟨⟨message, stem, haccepted⟩, rfl⟩ := validateTransaction_eq_ok_iff.mp hvalid
    exact ⟨message, stem, haccepted, hrequires.mp hnone, emptied_reward_lt⟩
  · rintro ⟨message, stem, haccepted, hpresent, -⟩
    exact ⟨_, validateTransaction_eq_ok_iff.mpr ⟨⟨message, stem, haccepted⟩, rfl⟩,
      hrequires.mpr hpresent⟩

/-- With room for the fee, a ready transaction is spendable. -/
theorem Spendable.of_emptied (h : Spendable cfg (emptied s) tx message stem)
    (hfee : s.rewardTotal.toNat + creditedFee s.utxoStore tx < 2 ^ 128) :
    Spendable cfg s tx message stem :=
  h.transfer (fun _ _ => rfl) h.accepted.fresh hfee

theorem Spendable.to_emptied (h : Spendable cfg s tx message stem) :
    Spendable cfg (emptied s) tx message stem :=
  h.transfer (fun _ _ => rfl) h.accepted.fresh emptied_reward_lt

/-! ## Later in the run -/

/-- What the steps spend of the outpoints of a transaction. -/
def spentOf (cfg : Config) (after : List (Transition ChainState Action)) (tx : Transaction) :
    List H256 :=
  tx.outpoints.filter fun k => (spentIn cfg after).contains k

/-- The verdict `v` on a ready transaction, with what was spent of its outpoints to wait for. -/
def verdictAfter (cfg : Config) (after : List (Transition ChainState Action)) (tx : Transaction)
    (v : ValidTransaction) : ValidTransaction :=
  { v with
    requires := (spentOf cfg after tx).map List.Vector.toList
    priority := if (spentOf cfg after tx).isEmpty then v.priority else 0 }

theorem spentOf_eq_nil_iff {after : List (Transition ChainState Action)} :
    spentOf cfg after tx = [] ↔ ∀ k ∈ tx.outpoints, k ∉ spentIn cfg after := by
  simp [spentOf, List.filter_eq_nil_iff]

/-- The keys a transaction creates are the hashes of the preimages of its outputs. -/
theorem mem_createdKeys_iff_filed {k : H256} :
    k ∈ createdKeys cfg tx ↔ ∃ p ∈ (filed tx).map Prod.fst, cfg.blakeTwo256 p = k := by
  simp [createdKeys, createdEntries, hashed]

section Later

variable {utxos : List TransactionOutput} {before after : List (Transition ChainState Action)}
  {mid st : ChainState}

/-- Unless there is a collision, no key of a transaction whose outpoints are all in the store of a
run was made before. -/
theorem createdKeys_ne_of_present {trace : List (Transition ChainState Action)}
    (hrun : ChainRun cfg (genesis cfg utxos) trace st)
    (hinj : Set.InjOn cfg.blakeTwo256 {p | p ∈ runPreimages cfg utxos trace ∨
      p ∈ (filed tx).map Prod.fst})
    (hinputs : tx.outpoints ≠ []) (hpresent : ∀ k ∈ tx.outpoints, k ∈ st.storage.utxoStore) :
    ∀ k ∈ createdKeys cfg tx, ∀ p ∈ runPreimages cfg utxos trace, cfg.blakeTwo256 p ≠ k := by
  obtain ⟨hconsistent, -⟩ := consistent_of_injOn hrun (hinj.mono fun p hp => Or.inl hp)
  rintro k hk p hp rfl
  obtain ⟨bytes, hbytes, heq⟩ := mem_createdKeys_iff_filed.mp hk
  -- the key would be that of the same preimage, whose parents are spent
  obtain rfl := hinj (Or.inr hbytes) (Or.inl hp) heq
  obtain ⟨outpoint, houtpoint⟩ := List.exists_mem_of_ne_nil _ hinputs
  have hparent : outpoint ∈ parents bytes := by
    rw [parents_of_mem_filed hbytes]
    exact houtpoint
  exact hconsistent.sound.parents_spent bytes hp outpoint hparent (hpresent outpoint houtpoint)

/-- A transaction whose outpoints are all in the store of a run has all its keys still to create. -/
theorem createdKeys_notMem_of_present {trace : List (Transition ChainState Action)}
    (hrun : ChainRun cfg (genesis cfg utxos) trace st)
    (hinj : Set.InjOn cfg.blakeTwo256 {p | p ∈ runPreimages cfg utxos trace ∨
      p ∈ (filed tx).map Prod.fst})
    (hinputs : tx.outpoints ≠ []) (hpresent : ∀ k ∈ tx.outpoints, k ∈ st.storage.utxoStore) :
    ∀ k ∈ createdKeys cfg tx, k ∉ st.storage.utxoStore := by
  obtain ⟨hconsistent, -⟩ := consistent_of_injOn hrun (hinj.mono fun p hp => Or.inl hp)
  intro k hk hmem
  obtain ⟨p, hp, heq⟩ := hconsistent.sound.live_known _ hmem
  exact createdKeys_ne_of_present hrun hinj hinputs hpresent k hk p hp heq

variable (hrun : ChainRun cfg (genesis cfg utxos) before mid)
  (hlater : Run (chainStep cfg) mid after st)

include hrun hlater

/-- What is not spent later is kept. -/
theorem lookup_later
    (hinj : Set.InjOn cfg.blakeTwo256 {p | p ∈ runPreimages cfg utxos (before ++ after)})
    {k : H256} {utxo : TransactionOutput} (hk : mid.storage.utxoStore.lookup k = some utxo)
    (hspent : k ∉ spentIn cfg after) : st.storage.utxoStore.lookup k = some utxo := by
  have hwhole := unspent_run (Run.append_iff.mpr ⟨mid, hrun, hlater⟩) hinj
  obtain ⟨hcreated, hnot⟩ :=
    ((unspent_run hrun (hinj.mono (runPreimages_append_subset after))).lookup_iff k utxo).mp hk
  refine (hwhole.lookup_iff k utxo).mpr ⟨?_, ?_⟩
  -- what the first part of the run created, the whole run created
  · rw [createdIn, List.flatMap_append, ← List.append_assoc]
    exact List.mem_append_left _ hcreated
  · rw [spentIn, List.flatMap_append, List.mem_append, not_or]
    exact ⟨hnot, hspent⟩

/-- An outpoint that was there is there later with the same output, unless it was spent. -/
theorem lookup_later_eq
    (hinj : Set.InjOn cfg.blakeTwo256 {p | p ∈ runPreimages cfg utxos (before ++ after)})
    {k : H256} (hk : k ∈ mid.storage.utxoStore) :
    st.storage.utxoStore.lookup k =
      if k ∈ spentIn cfg after then none else mid.storage.utxoStore.lookup k := by
  obtain ⟨utxo, hutxo⟩ := Finmap.mem_iff.mp hk
  split_ifs with hspent
  · obtain ⟨t, ht, tx', hsucceeds, hk'⟩ := mem_spentIn_iff.mp hspent
    obtain ⟨hconsistent, -⟩ :=
      consistent_of_injOn (Run.append_iff.mpr ⟨mid, hrun, hlater⟩) hinj
    exact Finmap.lookup_eq_none.mpr
      (hconsistent.spent_notMem_store (List.mem_append_right _ ht) hsucceeds hk')
  · rw [hutxo]
    exact lookup_later hrun hlater hinj hutxo hspent

section Ready

variable {message stem : Bytes}
  (hspendable : Spendable cfg (emptied mid.storage) tx message stem)
  (hinj : Set.InjOn cfg.blakeTwo256 {p | p ∈ runPreimages cfg utxos (before ++ after)})

include hspendable hinj

/-- A ready transaction misses later what was spent of its outpoints. -/
theorem missingOf_later :
    missingOf st.storage.utxoStore tx.inputs = spentOf cfg after tx := by
  rw [missingOf_eq_filter, spentOf]
  apply List.filter_congr
  intro k hk
  have hpresent := hspendable.present k hk
  rw [List.contains_eq_mem, decide_eq_decide, ← Finmap.lookup_eq_none,
    lookup_later_eq hrun hlater hinj hpresent]
  split_ifs with hspent
  · simp [hspent]
  · have hsome : mid.storage.utxoStore.lookup k ≠ none :=
      fun hnone => Finmap.lookup_eq_none.mp hnone hpresent
    simp [hspent, hsome]

/-- While nothing is missing the outpoints hold what they held. -/
theorem lookup_of_missingOf_later (hnone : missingOf st.storage.utxoStore tx.inputs = []) :
    ∀ k ∈ tx.outpoints, st.storage.utxoStore.lookup k = mid.storage.utxoStore.lookup k := by
  rw [missingOf_later hrun hlater hspendable hinj, spentOf_eq_nil_iff] at hnone
  intro k hk
  rw [lookup_later_eq hrun hlater hinj (hspendable.present k hk), if_neg (hnone k hk)]

/-- A ready transaction goes on to be accepted as long as its outputs are not in the store. -/
theorem accepted_later (hfresh : ∀ k ∈ createdKeys cfg tx, k ∉ st.storage.utxoStore) :
    Accepted cfg st.storage.utxoStore tx message stem := by
  have haccepted := hspendable.accepted
  -- a spent outpoint adds nothing any more, and every other one what it did
  have hle : inputTotal st.storage.utxoStore tx ≤ inputTotal mid.storage.utxoStore tx := by
    refine List.sum_le_sum fun k hk => ?_
    rw [valueOf, valueOf, Finmap.weightAt, Finmap.weightAt,
      lookup_later_eq hrun hlater hinj (hspendable.present k hk)]
    split_ifs
    · exact Nat.zero_le _
    · exact Nat.le_refl _
  refine
    { haccepted with
      signed := ?_
      fresh := hfresh
      input_lt := hle.trans_lt haccepted.input_lt
      balanced := ?_ }
  · -- the signature of an outpoint that is still there was checked for the same owner
    intro input hinput utxo hutxo
    rw [lookup_later_eq hrun hlater hinj
      (hspendable.present _ (List.mem_map_of_mem hinput))] at hutxo
    split_ifs at hutxo
    exact haccepted.signed input hinput utxo hutxo
  · intro hnone
    have hsame : inputTotal st.storage.utxoStore tx = inputTotal mid.storage.utxoStore tx :=
      inputTotal_congr (lookup_of_missingOf_later hrun hlater hspendable hinj hnone)
    rw [hsame]
    exact haccepted.balanced (missingOf_eq_nil_iff.mpr hspendable.present)

end Ready

/-- In every later state of a run without a hash collision, a transaction that was ready is valid
exactly when none of its outputs is in the store, and the verdict is what it was but for the spent
outpoints, which it waits for without a priority. While none is spent, none of the outputs is there
either. -/
theorem validateTransaction_later_iff
    (hvalid : validateTransaction cfg mid.storage.utxoStore tx = .ok v) (hready : v.requires = [])
    (hinj : Set.InjOn cfg.blakeTwo256 {p | p ∈ runPreimages cfg utxos (before ++ after) ∨
      p ∈ (filed tx).map Prod.fst}) :
    (∀ v', validateTransaction cfg st.storage.utxoStore tx = .ok v' ↔
        (∀ k ∈ createdKeys cfg tx, k ∉ st.storage.utxoStore) ∧ v' = verdictAfter cfg after tx v) ∧
      ((∀ k ∈ tx.outpoints, k ∉ spentIn cfg after) →
        ∀ k ∈ createdKeys cfg tx, k ∉ st.storage.utxoStore) := by
  have hrunInj : Set.InjOn cfg.blakeTwo256 {p | p ∈ runPreimages cfg utxos (before ++ after)} :=
    hinj.mono fun p hp => Or.inl hp
  obtain ⟨message, stem, hspendable⟩ := ready_iff_spendable.mp ⟨v, hvalid, hready⟩
  have hmissing := missingOf_later hrun hlater hspendable hrunInj
  have hpresent : missingOf mid.storage.utxoStore tx.inputs = [] :=
    missingOf_eq_nil_iff.mpr hspendable.present
  have hverdict : validTransactionOf cfg st.storage.utxoStore tx = verdictAfter cfg after tx v := by
    rw [(validateTransaction_eq_ok_iff.mp hvalid).2, verdictAfter, validTransactionOf,
      validTransactionOf, feeOf, feeOf, hmissing, if_pos hpresent]
    dsimp only
    by_cases hspent : spentOf cfg after tx = []
    · -- nothing was spent, so the fee is what it was
      have hlookup := lookup_of_missingOf_later hrun hlater hspendable hrunInj
        (hmissing.trans hspent)
      rw [if_pos hspent, if_pos (List.isEmpty_iff.mpr hspent), inputTotal_congr hlookup]
    · rw [if_neg hspent, if_neg (mt List.isEmpty_iff.mp hspent)]
      rfl
  refine ⟨?_, ?_⟩
  · intro v'
    rw [validateTransaction_eq_ok_iff, hverdict]
    refine and_congr_left fun _ => ⟨?_, ?_⟩
    · rintro ⟨_, _, haccepted⟩
      exact haccepted.fresh
    · intro hfresh
      exact ⟨message, stem, accepted_later hrun hlater hspendable hrunInj hfresh⟩
  · intro hkept
    refine createdKeys_notMem_of_present (Run.append_iff.mpr ⟨mid, hrun, hlater⟩) hinj
      hspendable.accepted.outpoints_ne ?_
    rw [← missingOf_eq_nil_iff, hmissing, spentOf_eq_nil_iff]
    exact hkept

end Later

/-- The second transaction of the sample run is ready at genesis, and still is with the same verdict
after the block that executes the first one. -/
theorem validateTransaction_later_sample :
    ∃ v, validateTransaction Sample.config (genesis Sample.config Sample.coins).utxoStore
        Sample.bobSpends = .ok v ∧ v.requires = [] ∧
      validateTransaction Sample.config (Sample.after 4).2.storage.utxoStore Sample.bobSpends =
        .ok v := by
  let s := genesis Sample.config Sample.coins
  let v := validTransactionOf Sample.config s.utxoStore Sample.bobSpends
  have hvalid : validateTransaction Sample.config s.utxoStore Sample.bobSpends = .ok v := by
    decide +kernel
  have hready : v.requires = [] := by decide +kernel
  have hnodup : ((runPreimages Sample.config Sample.coins ([] ++ (Sample.after 4).1) ++
      (filed Sample.bobSpends).map Prod.fst).map Sample.config.blakeTwo256).Nodup := by
    decide +kernel
  have hkept : ∀ k ∈ Sample.bobSpends.outpoints, k ∉ spentIn Sample.config (Sample.after 4).1 := by
    simpa using (show (Sample.bobSpends.outpoints.all
      fun k => k ∉ spentIn Sample.config (Sample.after 4).1) = true by decide +kernel)
  obtain ⟨hverdict, hfresh⟩ := validateTransaction_later_iff .nil (Sample.chainRun_after 4) hvalid
    hready ((injOn_of_nodup_map hnodup).mono fun p hp => List.mem_append.mpr hp)
  exact ⟨v, hvalid, hready, (hverdict v).mpr ⟨hfresh hkept, by decide +kernel⟩⟩

/-! ## In one block -/

/-- The transactions share no outpoint. -/
def OutpointsDisjoint (a b : Transaction) : Prop := List.Disjoint a.outpoints b.outpoints

/-- A ready transaction and one that is executed in the same state are independent if they share no
outpoint: what the one spends was there before, and what the other creates was not. -/
theorem independent_of_ready {ma sa mb sb : Bytes} (ha : Spendable cfg s a ma sa)
    (hb : Spendable cfg (emptied s) b mb sb) (hdisjoint : OutpointsDisjoint a b) :
    Independent cfg a b where
  outpoints := hdisjoint
  left k hk hmem := hb.accepted.fresh k hmem (ha.present k hk)
  right k hk hmem := ha.accepted.fresh k hmem (hb.present k hk)

/-- Transactions that share no outpoint create different keys, unless two preimages collide. -/
theorem createdKeys_disjoint (ha : a.outpoints ≠ [])
    (hinj : Set.InjOn cfg.blakeTwo256
      {p | p ∈ (filed a).map Prod.fst ∨ p ∈ (filed b).map Prod.fst})
    (hdisjoint : OutpointsDisjoint a b) :
    ∀ k ∈ createdKeys cfg b, k ∉ createdKeys cfg a := by
  intro k hb' ha'
  obtain ⟨p, hp, rfl⟩ := mem_createdKeys_iff_filed.mp hb'
  obtain ⟨q, hq, heq⟩ := mem_createdKeys_iff_filed.mp ha'
  obtain rfl := hinj (Or.inl hq) (Or.inr hp) heq
  -- a common preimage has the outpoints of both as its parents
  have hparents := (parents_of_mem_filed hq).symm.trans (parents_of_mem_filed hp)
  obtain ⟨outpoint, houtpoint⟩ := List.exists_mem_of_ne_nil _ ha
  have hmem : outpoint ∈ {k | k ∈ b.outpoints} := hparents ▸ houtpoint
  exact hdisjoint houtpoint hmem

/-- Executing a transaction leaves one that shares no outpoint with it ready. -/
theorem Spendable.ready_after {ma sa mb sb : Bytes} (ha : Spendable cfg s a ma sa)
    (hb : Spendable cfg (emptied s) b mb sb) (hdisjoint : OutpointsDisjoint a b)
    (hkeys : ∀ k ∈ createdKeys cfg b, k ∉ createdKeys cfg a) :
    Spendable cfg (emptied (spentStorage cfg s a)) b mb sb := by
  have hind := independent_of_ready ha hb hdisjoint
  have hlookup : ∀ k ∈ b.outpoints,
      (spentStorage cfg s a).utxoStore.lookup k = s.utxoStore.lookup k :=
    fun k hk => lookup_spentStorage_of_independent hind hk
  refine hb.transfer hlookup ?_ hb.reward_lt
  intro k hk hmem
  rcases mem_spentStorage_iff.mp hmem with ⟨hold, -⟩ | hnew
  · exact hb.accepted.fresh k hk hold
  · exact hkeys k hk hnew

/-- Executing transactions that do not create a missing key needs none of them to spend it. -/
theorem notMem_outpoints_of_run {txs : List Transaction} {k : H256}
    (hrun : txs.foldlM (spendStep cfg) s = some s') (hmissing : k ∉ s.utxoStore)
    (hkeys : ∀ tx ∈ txs, k ∉ createdKeys cfg tx) : ∀ tx ∈ txs, k ∉ tx.outpoints := by
  induction txs generalizing s with
  | nil => exact fun _ h => absurd h List.not_mem_nil
  | cons a txs ih =>
    rw [List.foldlM_cons] at hrun
    obtain ⟨s₁, hstep, hrest⟩ := Option.bind_eq_some_iff.mp hrun
    obtain ⟨⟨message, stem, hspendable⟩, rfl⟩ := spendStep_eq_some_iff.mp hstep
    rw [List.forall_mem_cons] at hkeys ⊢
    refine ⟨fun hk => hmissing (hspendable.present k hk), ih hrest ?_ hkeys.2⟩
    -- the key is missing after `a`, too
    rw [mem_spentStorage_iff, not_or]
    exact ⟨fun h => hmissing h.1, hkeys.1⟩

/-- Transactions that spend keys of a store and create none of them share no outpoint if they can be
executed one after the other: what one has spent is missing for every later one. -/
theorem outpointsDisjoint_of_run {txs : List Transaction} {store : UtxoStore}
    (hspent : ∀ tx ∈ txs, ∀ k ∈ tx.outpoints, k ∈ store)
    (hcreated : ∀ tx ∈ txs, ∀ k ∈ createdKeys cfg tx, k ∉ store)
    (hrun : txs.foldlM (spendStep cfg) s = some s') : txs.Pairwise OutpointsDisjoint := by
  induction txs generalizing s with
  | nil => exact List.Pairwise.nil
  | cons a txs ih =>
    rw [List.foldlM_cons] at hrun
    obtain ⟨s₁, hstep, hrest⟩ := Option.bind_eq_some_iff.mp hrun
    obtain ⟨-, rfl⟩ := spendStep_eq_some_iff.mp hstep
    rw [List.forall_mem_cons] at hspent hcreated
    refine List.pairwise_cons.mpr ⟨?_, ih hspent.2 hcreated.2 hrest⟩
    intro tx htx k hk
    -- `a` has spent the key, and neither it nor a later transaction creates it
    have hmissing : k ∉ (spentStorage cfg s a).utxoStore := by
      rw [mem_spentStorage_iff, not_or]
      exact ⟨fun h => h.2 hk, fun h => hcreated.1 k h (hspent.1 k hk)⟩
    have hkeys : ∀ tx ∈ txs, k ∉ createdKeys cfg tx :=
      fun tx htx hmem => hcreated.2 tx htx k hmem (hspent.1 k hk)
    exact notMem_outpoints_of_run hrest hmissing hkeys tx htx

/-- What executing transactions one after the other leaves: their outpoints replaced by their
outputs, and their fees added to `RewardTotal`. -/
structure SpendsAll (cfg : Config) (s s' : Storage) (txs : List Transaction) : Prop where
  utxoStore_eq : s'.utxoStore = Finmap.insertAll (txs.flatMap (createdEntries cfg))
    (Finmap.eraseAll (txs.flatMap Transaction.outpoints) s.utxoStore)
  rewardTotal_eq : s'.rewardTotal.toNat =
    s.rewardTotal.toNat + (txs.map (creditedFee s.utxoStore)).sum

/-- Transactions that are ready in one state and share no outpoint go through one after the other,
each paying the fee it was to pay in that state. -/
theorem spendsAll_of_disjoint {txs : List Transaction}
    (hready : ∀ tx ∈ txs, ∃ message stem, Spendable cfg (emptied s) tx message stem)
    (hfees : s.rewardTotal.toNat + (txs.map (creditedFee s.utxoStore)).sum < 2 ^ 128)
    (hinj : Set.InjOn cfg.blakeTwo256 {p | ∃ tx ∈ txs, p ∈ (filed tx).map Prod.fst})
    (hdisjoint : txs.Pairwise OutpointsDisjoint) :
    ∃ s', txs.foldlM (spendStep cfg) s = some s' ∧ SpendsAll cfg s s' txs := by
  induction txs generalizing s with
  | nil => exact ⟨s, rfl, rfl, rfl⟩
  | cons a txs ih =>
    rw [List.map_cons, List.sum_cons] at hfees
    rw [List.forall_mem_cons] at hready
    rw [List.pairwise_cons] at hdisjoint
    obtain ⟨ma, sa, hemptied⟩ := hready.1
    have ha : Spendable cfg s a ma sa := hemptied.of_emptied (by omega)
    have hkeys : ∀ tx ∈ txs, ∀ k ∈ createdKeys cfg tx, k ∉ createdKeys cfg a := by
      intro tx htx
      refine createdKeys_disjoint ha.accepted.outpoints_ne (hinj.mono ?_) (hdisjoint.1 tx htx)
      rintro p (hp | hp)
      · exact ⟨a, List.mem_cons_self, hp⟩
      · exact ⟨tx, List.mem_cons_of_mem _ htx, hp⟩
    have hready' : ∀ tx ∈ txs, ∃ message stem,
        Spendable cfg (emptied (spentStorage cfg s a)) tx message stem := by
      intro tx htx
      obtain ⟨message, stem, htxReady⟩ := hready.2 tx htx
      exact ⟨message, stem, ha.ready_after htxReady (hdisjoint.1 tx htx) (hkeys tx htx)⟩
    -- the others are worth after `a` what they were worth before it
    have hlookup : ∀ tx ∈ txs, ∀ k ∈ tx.outpoints,
        (spentStorage cfg s a).utxoStore.lookup k = s.utxoStore.lookup k := by
      intro tx htx k hk
      obtain ⟨message, stem, htxReady⟩ := hready.2 tx htx
      exact lookup_spentStorage_of_independent
        (independent_of_ready ha htxReady (hdisjoint.1 tx htx)) hk
    have hsame : txs.map (creditedFee (spentStorage cfg s a).utxoStore) =
        txs.map (creditedFee s.utxoStore) :=
      List.map_congr_left fun tx htx => creditedFee_congr (hlookup tx htx)
    have hcarry := toNat_rewardTotal_spentStorage ha
    have hsub : {p | ∃ tx ∈ txs, p ∈ (filed tx).map Prod.fst} ⊆
        {p | ∃ tx ∈ a :: txs, p ∈ (filed tx).map Prod.fst} := by
      rintro p ⟨tx, htx, hp⟩
      exact ⟨tx, List.mem_cons_of_mem _ htx, hp⟩
    obtain ⟨s', hrun, hspends⟩ := ih hready' (by rw [hsame, hcarry]; omega)
      (hinj.mono hsub) hdisjoint.2
    refine ⟨s', ?_, ?_, ?_⟩
    · rw [List.foldlM_cons, spendStep_eq_some_iff.mpr ⟨⟨ma, sa, ha⟩, rfl⟩]
      exact hrun
    · -- the outpoints of the others are no keys that `a` creates
      have hnew : ∀ k ∈ txs.flatMap Transaction.outpoints,
          k ∉ (createdEntries cfg a).map Prod.fst := by
        intro k hk hmem
        obtain ⟨tx, htx, hk'⟩ := List.mem_flatMap.mp hk
        obtain ⟨message, stem, htxReady⟩ := hready.2 tx htx
        exact ha.accepted.fresh k hmem (htxReady.present k hk')
      rw [hspends.utxoStore_eq, List.flatMap_cons, List.flatMap_cons]
      exact Finmap.insertAll_eraseAll_append hnew
    · rw [hspends.rewardTotal_eq, hsame, hcarry, List.map_cons, List.sum_cons, Nat.add_assoc]

/-- Transactions that are ready in one state, and whose fees fit, can be executed one after the
other exactly when no two of them share an outpoint. Each then pays the fee it was to pay in that
state. -/
theorem forM_spend_ok_iff_disjoint {txs : List Transaction}
    (hready : ∀ tx ∈ txs, ∃ v, validateTransaction cfg s.utxoStore tx = .ok v ∧ v.requires = [])
    (hfees : s.rewardTotal.toNat + (txs.map (creditedFee s.utxoStore)).sum < 2 ^ 128)
    (hinj : Set.InjOn cfg.blakeTwo256 {p | ∃ tx ∈ txs, p ∈ (filed tx).map Prod.fst}) :
    ((∃ s', (txs.forM (spend cfg)).run s = .ok () s') ↔ txs.Pairwise OutpointsDisjoint) ∧
      ∀ s', (txs.forM (spend cfg)).run s = .ok () s' → SpendsAll cfg s s' txs := by
  have hspendable : ∀ tx ∈ txs, ∃ message stem, Spendable cfg (emptied s) tx message stem :=
    fun tx htx => ready_iff_spendable.mp (hready tx htx)
  have hiff : (∃ s', (txs.forM (spend cfg)).run s = .ok () s') ↔
      txs.Pairwise OutpointsDisjoint := by
    simp only [run_forM_spend_eq_ok_iff]
    refine ⟨?_, ?_⟩
    · rintro ⟨s', hrun⟩
      have hspent : ∀ tx ∈ txs, ∀ k ∈ tx.outpoints, k ∈ s.utxoStore := by
        intro tx htx
        obtain ⟨_, _, h⟩ := hspendable tx htx
        exact h.present
      have hcreated : ∀ tx ∈ txs, ∀ k ∈ createdKeys cfg tx, k ∉ s.utxoStore := by
        intro tx htx
        obtain ⟨_, _, h⟩ := hspendable tx htx
        exact h.accepted.fresh
      exact outpointsDisjoint_of_run hspent hcreated hrun
    · intro hdisjoint
      obtain ⟨s', hrun, -⟩ := spendsAll_of_disjoint hspendable hfees hinj hdisjoint
      exact ⟨s', hrun⟩
  refine ⟨hiff, ?_⟩
  intro s' hrun
  obtain ⟨s'', hrun', hspends⟩ :=
    spendsAll_of_disjoint hspendable hfees hinj (hiff.mp ⟨s', hrun⟩)
  rw [run_forM_spend_eq_ok_iff, hrun'] at hrun
  exact Option.some.inj hrun ▸ hspends

/-- Both transactions of the sample run are ready at genesis, and go into one block. -/
theorem forM_spend_ok_iff_disjoint_sample :
    ∃ s', ([Sample.bobSpends, Sample.aliceSpends].forM (spend Sample.config)).run
        (genesis Sample.config Sample.coins) = .ok () s' ∧
      SpendsAll Sample.config (genesis Sample.config Sample.coins) s'
        [Sample.bobSpends, Sample.aliceSpends] := by
  let s := genesis Sample.config Sample.coins
  have hvalid (tx : Transaction) (htx : tx ∈ [Sample.bobSpends, Sample.aliceSpends]) :
      validateTransaction Sample.config s.utxoStore tx =
        .ok (validTransactionOf Sample.config s.utxoStore tx) ∧
      (validTransactionOf Sample.config s.utxoStore tx).requires = [] := by
    rcases List.mem_pair.mp htx with rfl | rfl
    · decide +kernel
    · decide +kernel
  have hnodup : (([Sample.bobSpends, Sample.aliceSpends].flatMap fun tx =>
      (filed tx).map Prod.fst).map Sample.config.blakeTwo256).Nodup := by
    decide +kernel
  obtain ⟨hiff, hspends⟩ := forM_spend_ok_iff_disjoint (fun tx htx => ⟨_, hvalid tx htx⟩)
    (by decide +kernel : s.rewardTotal.toNat +
      ([Sample.bobSpends, Sample.aliceSpends].map (creditedFee s.utxoStore)).sum < 2 ^ 128)
    ((injOn_of_nodup_map hnodup).mono fun p hp => List.mem_flatMap.mpr hp)
  have hdisjoint : [Sample.bobSpends, Sample.aliceSpends].Pairwise OutpointsDisjoint := by
    refine List.pairwise_pair.mpr ?_
    simp [OutpointsDisjoint, Transaction.outpoints, Sample.bobSpends, Sample.aliceSpends,
      show Sample.aliceCoin ≠ Sample.bobCoin by decide +kernel]
  obtain ⟨s', hrun⟩ := hiff.mpr hdisjoint
  exact ⟨s', hrun, hspends s' hrun⟩

end PowEvm.Utxo
