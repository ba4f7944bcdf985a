import PowEvm.Library.Commutation
import PowEvm.Runtime.Filings

/-!
# Independent transactions

Two transactions are independent when they list no common outpoint and neither spends what the
other creates. Then neither changes what the other reads of the UTXO store, and the fees add up in
both orders.

## Main results

* `Spendable.transfer`: what of the storage the success of a `spend` depends on;
* `spend_commutes`: independent transactions commute up to the event log;
* `forM_spend_perm`: a list of pairwise independent transactions that all succeed in one order does
  so in every order, and ends in the same store and the same `RewardTotal`.
-/

namespace PowEvm.Utxo

variable {cfg : Config} {s s' t : Storage} {a b tx : Transaction} {message stem : Bytes}

/-- The two transactions list no common outpoint, and neither lists a key the other creates. -/
structure Independent (cfg : Config) (a b : Transaction) : Prop where
  outpoints : List.Disjoint a.outpoints b.outpoints
  left : ∀ k ∈ a.outpoints, k ∉ createdKeys cfg b
  right : ∀ k ∈ b.outpoints, k ∉ createdKeys cfg a

theorem Independent.symm (h : Independent cfg a b) : Independent cfg b a where
  outpoints := h.outpoints.symm
  left := h.right
  right := h.left

instance : Decidable (Independent cfg a b) :=
  decidable_of_iff
    ((a.outpoints.all fun k => k ∉ b.outpoints) ∧ (a.outpoints.all fun k => k ∉ createdKeys cfg b) ∧
      b.outpoints.all fun k => k ∉ createdKeys cfg a)
    ⟨fun ⟨h, hleft, hright⟩ =>
      ⟨by simpa [List.disjoint_left] using h, by simpa using hleft, by simpa using hright⟩,
      fun ⟨h, hleft, hright⟩ =>
      ⟨by simpa [List.disjoint_left] using h, by simpa using hleft, by simpa using hright⟩⟩

/-- The two storages agree on the UTXO store and on `RewardTotal`. -/
structure SameFunds (s t : Storage) : Prop where
  utxoStore_eq : s.utxoStore = t.utxoStore
  rewardTotal_eq : s.rewardTotal = t.rewardTotal

/-- The storage after a `spend`, `none` when it fails. -/
def spendStep (cfg : Config) (s : Storage) (tx : Transaction) : Option Storage :=
  match (spend cfg tx).run s with
  | .ok _ s' => some s'
  | .error _ _ => none

theorem spendStep_eq_some_iff :
    spendStep cfg s tx = some s' ↔
      (∃ message stem, Spendable cfg s tx message stem) ∧ s' = spentStorage cfg s tx := by
  rw [← run_spend_eq_ok_iff (u := ()), spendStep]
  cases h : (spend cfg tx).run s with
  | ok u s'' => simp
  | error e s'' => simp

/-! ## What a `spend` depends on -/

/-- What the inputs are worth depends on the store at the outpoints only. -/
theorem inputTotal_congr {store store' : UtxoStore}
    (h : ∀ k ∈ tx.outpoints, store.lookup k = store'.lookup k) :
    inputTotal store tx = inputTotal store' tx := by
  unfold inputTotal
  -- the sums agree term by term
  congr 1
  apply List.map_congr_left
  intro k hk
  rw [valueOf, valueOf, Finmap.weightAt, Finmap.weightAt, h k hk]

theorem creditedFee_congr {store store' : UtxoStore}
    (h : ∀ k ∈ tx.outpoints, store.lookup k = store'.lookup k) :
    creditedFee store tx = creditedFee store' tx := by
  rw [creditedFee, creditedFee, inputTotal_congr h]

/-- A transaction stays spendable as long as its outpoints hold what they held, its keys are new and
its fee fits. -/
theorem Spendable.transfer (h : Spendable cfg s tx message stem)
    (hlookup : ∀ k ∈ tx.outpoints, t.utxoStore.lookup k = s.utxoStore.lookup k)
    (hfresh : ∀ k ∈ createdKeys cfg tx, k ∉ t.utxoStore)
    (hreward : t.rewardTotal.toNat + creditedFee s.utxoStore tx < 2 ^ 128) :
    Spendable cfg t tx message stem := by
  -- nothing else of the store enters into the checks
  have htotal := inputTotal_congr hlookup
  have hpresent : ∀ k ∈ tx.outpoints, k ∈ t.utxoStore := by
    intro k hk
    rw [← Finmap.lookup_isSome, hlookup k hk, Finmap.lookup_isSome]
    exact h.present k hk
  refine ⟨⟨h.accepted.inputs_ne, h.accepted.outputs_ne, h.accepted.inputs_nodup,
    h.accepted.outputs_nodup, h.accepted.simple, h.accepted.stem_eq, ?_, h.accepted.positive,
    hfresh, ?_, h.accepted.output_lt, ?_⟩, hpresent, ?_⟩
  · intro input hinput utxo hutxo
    rw [hlookup _ (List.mem_map_of_mem hinput)] at hutxo
    exact h.accepted.signed input hinput utxo hutxo
  · rw [htotal]
    exact h.accepted.input_lt
  · intro _
    rw [htotal]
    exact h.accepted.balanced (missingOf_eq_nil_iff.mpr h.present)
  · rw [creditedFee_congr hlookup]
    exact hreward

/-! ## Two transactions -/

/-- A `spend` leaves the outpoints of an independent transaction alone. -/
theorem lookup_spentStorage_of_independent (h : Independent cfg a b) {k : H256}
    (hk : k ∈ b.outpoints) :
    (spentStorage cfg s a).utxoStore.lookup k = s.utxoStore.lookup k := by
  have hspent : k ∉ a.outpoints := fun hmem => h.outpoints hmem hk
  change (Finmap.insertAll (createdEntries cfg a)
    (Finmap.eraseAll a.outpoints s.utxoStore)).lookup k = _
  rw [Finmap.lookup_insertAll_of_notMem (h.right k hk), Finmap.lookup_eraseAll, if_neg hspent]

theorem toNat_rewardTotal_spentStorage (h : Spendable cfg s tx message stem) :
    (spentStorage cfg s tx).rewardTotal.toNat =
      s.rewardTotal.toNat + creditedFee s.utxoStore tx :=
  Integers.toNat_ofNat_of_lt h.reward_lt

/-- Of two independent transactions that succeed one after the other, the second succeeds first and
the first after it. -/
theorem Spendable.swap {ma sa mb sb : Bytes} (hind : Independent cfg a b)
    (ha : Spendable cfg s a ma sa) (hb : Spendable cfg (spentStorage cfg s a) b mb sb) :
    Spendable cfg s b mb sb ∧ Spendable cfg (spentStorage cfg s b) a ma sa ∧
      SameFunds (spentStorage cfg (spentStorage cfg s a) b)
        (spentStorage cfg (spentStorage cfg s b) a) := by
  have hlookupB : ∀ k ∈ b.outpoints,
      s.utxoStore.lookup k = (spentStorage cfg s a).utxoStore.lookup k :=
    fun k hk => (lookup_spentStorage_of_independent hind hk).symm
  have hfeeB := creditedFee_congr hlookupB
  have hfeeA : creditedFee (spentStorage cfg s b).utxoStore a = creditedFee s.utxoStore a :=
    creditedFee_congr fun k hk => lookup_spentStorage_of_independent hind.symm hk
  -- a key of `b` was not there to begin with, or `a` would have left it in place
  have hfreshB : ∀ k ∈ createdKeys cfg b, k ∉ s.utxoStore := by
    intro k hk hmem
    refine hb.accepted.fresh k hk (mem_spentStorage_iff.mpr (Or.inl ⟨hmem, ?_⟩))
    exact fun hspent => hind.left k hspent hk
  -- the keys of `a` are in the store when those of `b` are checked against it
  have hkeys : ∀ k ∈ createdKeys cfg a, k ∉ createdKeys cfg b := by
    intro k hkA hkB
    exact hb.accepted.fresh k hkB (mem_spentStorage_iff.mpr (Or.inr hkA))
  -- each fee fits alone, since both fit together
  have htotal := hb.reward_lt
  rw [toNat_rewardTotal_spentStorage ha] at htotal
  have hb' : Spendable cfg s b mb sb := hb.transfer hlookupB hfreshB (by omega)
  have ha' : Spendable cfg (spentStorage cfg s b) a ma sa := by
    apply ha.transfer fun k hk => lookup_spentStorage_of_independent hind.symm hk
    · intro k hk hmem
      rcases mem_spentStorage_iff.mp hmem with ⟨hold, -⟩ | hnew
      · exact ha.accepted.fresh k hk hold
      · exact hkeys k hk hnew
    · rw [toNat_rewardTotal_spentStorage hb', hfeeB]
      omega
  refine ⟨hb', ha', ?_, ?_⟩
  · exact Finmap.insertAll_eraseAll_comm hkeys hind.left hind.right
  · apply BitVec.eq_of_toNat_eq
    rw [toNat_rewardTotal_spentStorage hb, toNat_rewardTotal_spentStorage ha,
      toNat_rewardTotal_spentStorage ha', toNat_rewardTotal_spentStorage hb', hfeeA, hfeeB]
    omega

/-! ## Lists of transactions -/

theorem SameFunds.spentStorage (h : SameFunds s t) :
    SameFunds (spentStorage cfg s tx) (spentStorage cfg t tx) := by
  refine ⟨?_, ?_⟩
  · change Finmap.insertAll _ (Finmap.eraseAll _ s.utxoStore) = _
    rw [h.utxoStore_eq]
    rfl
  · change BitVec.ofNat 128 (s.rewardTotal.toNat + creditedFee s.utxoStore tx) = _
    rw [h.utxoStore_eq, h.rewardTotal_eq]
    rfl

theorem SameFunds.spendable (h : SameFunds s t) (hs : Spendable cfg s tx message stem) :
    Spendable cfg t tx message stem := by
  apply hs.transfer fun k _ => by rw [h.utxoStore_eq]
  · rw [← h.utxoStore_eq]
    exact hs.accepted.fresh
  · rw [← h.rewardTotal_eq]
    exact hs.reward_lt

/-- Independent transactions commute up to the event log. -/
theorem spend_commutes (cfg : Config) :
    Commutation.Commutes (spendStep cfg) SameFunds (Independent cfg) where
  same_refl _ := ⟨rfl, rfl⟩
  same_trans h h' := ⟨h.utxoStore_eq.trans h'.utxoStore_eq,
    h.rewardTotal_eq.trans h'.rewardTotal_eq⟩
  independent_symm := Independent.symm
  congr := by
    intro s t s' tx hsame hstep
    obtain ⟨⟨message, stem, hspendable⟩, rfl⟩ := spendStep_eq_some_iff.mp hstep
    exact ⟨spentStorage cfg t tx,
      spendStep_eq_some_iff.mpr ⟨⟨message, stem, hsame.spendable hspendable⟩, rfl⟩,
      hsame.spentStorage⟩
  swap := by
    intro s s₁ s₂ a b hind hstep hstep'
    obtain ⟨⟨ma, sa, ha⟩, rfl⟩ := spendStep_eq_some_iff.mp hstep
    obtain ⟨⟨mb, sb, hb⟩, rfl⟩ := spendStep_eq_some_iff.mp hstep'
    obtain ⟨hb', ha', hsame⟩ := Spendable.swap hind ha hb
    exact ⟨spentStorage cfg s b, spentStorage cfg (spentStorage cfg s b) a,
      spendStep_eq_some_iff.mpr ⟨⟨mb, sb, hb'⟩, rfl⟩,
      spendStep_eq_some_iff.mpr ⟨⟨ma, sa, ha'⟩, rfl⟩, hsame⟩

/-- Executing a list of transactions one after the other, all successfully. -/
theorem run_forM_spend_eq_ok_iff {txs : List Transaction} :
    (txs.forM (spend cfg)).run s = .ok () s' ↔ txs.foldlM (spendStep cfg) s = some s' := by
  induction txs generalizing s with
  | nil =>
    change EStateM.Result.ok () s = .ok () s' ↔ some s = some s'
    simp
  | cons tx txs ih =>
    change (spend cfg tx >>= fun _ => txs.forM (spend cfg)).run s = _ ↔ _
    rw [EStateM.run_bind, List.foldlM_cons, spendStep]
    cases (spend cfg tx).run s with
    | ok u s'' => exact ih
    | error e s'' => simp

/-- Pairwise independent transactions that all succeed in the order of the list succeed in every
other order, and end in the same store and the same `RewardTotal`. -/
theorem forM_spend_perm {txs txs' : List Transaction} (hperm : txs.Perm txs')
    (hind : txs.Pairwise (Independent cfg))
    (hrun : (txs.forM (spend cfg)).run s = .ok () s') :
    ∃ t', (txs'.forM (spend cfg)).run s = .ok () t' ∧
      t'.utxoStore = s'.utxoStore ∧ t'.rewardTotal = s'.rewardTotal := by
  rw [run_forM_spend_eq_ok_iff] at hrun
  obtain ⟨t', ht', hsame⟩ := (spend_commutes cfg).foldlM_perm hperm hind hrun
  exact ⟨t', run_forM_spend_eq_ok_iff.mpr ht', hsame.utxoStore_eq.symm, hsame.rewardTotal_eq.symm⟩

/-- The two transactions of the sample run, the other way round. -/
theorem forM_spend_perm_sample :
    ∃ t', ([Sample.bobSpends, Sample.aliceSpends].forM (spend Sample.config)).run
      (genesis Sample.config Sample.coins) = .ok () t' ∧ t'.rewardTotal = 15 := by
  have hperm : [Sample.aliceSpends, Sample.bobSpends].Perm [Sample.bobSpends, Sample.aliceSpends] :=
    .swap _ _ _
  have hind : [Sample.aliceSpends, Sample.bobSpends].Pairwise (Independent Sample.config) :=
    List.pairwise_pair.mpr (by decide +kernel)
  have hfees : ([Sample.aliceSpends, Sample.bobSpends].foldlM (spendStep Sample.config)
      (genesis Sample.config Sample.coins)).map Storage.rewardTotal = some 15 := by
    decide +kernel
  obtain ⟨s', hrun, hreward⟩ := Option.map_eq_some_iff.mp hfees
  obtain ⟨t', hrun', -, hreward'⟩ :=
    forM_spend_perm hperm hind (run_forM_spend_eq_ok_iff.mpr hrun)
  exact ⟨t', hrun', hreward'.trans hreward⟩

end PowEvm.Utxo
