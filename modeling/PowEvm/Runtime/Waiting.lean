import PowEvm.Runtime.Readiness

/-!
# Waiting transactions

The pool keeps a transaction whose inputs are not all there, and waits for the tags it requires.
Which transactions it keeps that way, and what it makes them wait for, is decided before the inputs
exist.

## Main results

* `validateTransaction_earlier`: a transaction that becomes ready in some state of a run was valid
  all along, and required the outpoints that were yet to be created;
* `forM_spend_ok_iff_respectsTags`: transactions that can be executed in one order can be executed
  in another exactly when it respects their tags.
-/

namespace PowEvm

/-- A transaction that spends the first output of the first transaction of the sample run. -/
def Sample.bobForwards : Transaction where
  inputs := [⟨h256 0xa78960980e18d536987b40446818cd9c67055de912ab530fac4a433003d1338e,
    signature bob 1⟩]
  outputs := [⟨20, alice⟩]

namespace Utxo

variable {cfg : Config} {s s' : Storage} {a b tx : Transaction} {message stem : Bytes}
  {v : ValidTransaction}

/-! ## Earlier in the run -/

/-- What the steps create of the outpoints of a transaction. -/
def createdOf (cfg : Config) (after : List (Transition ChainState Action)) (tx : Transaction) :
    List H256 :=
  tx.outpoints.filter fun k => (after.flatMap (insertedKeys cfg)).contains k

/-- The verdict `v` on a ready transaction, as long as it waits for what the steps create of its
outpoints. -/
def verdictBefore (cfg : Config) (after : List (Transition ChainState Action)) (tx : Transaction)
    (v : ValidTransaction) : ValidTransaction :=
  { v with
    requires := (createdOf cfg after tx).map List.Vector.toList
    priority := if (createdOf cfg after tx).isEmpty then v.priority else 0 }

section Earlier

variable {utxos : List TransactionOutput} {before after : List (Transition ChainState Action)}
  {mid st : ChainState} (hrun : ChainRun cfg (genesis cfg utxos) before mid)
  (hlater : Run (chainStep cfg) mid after st)

include hrun hlater

/-- A key that is inserted later is not in the store yet. -/
theorem notMem_of_inserted_later
    (hinj : Set.InjOn cfg.blakeTwo256 {p | p ∈ runPreimages cfg utxos (before ++ after)})
    {k : H256} (hk : k ∈ after.flatMap (insertedKeys cfg)) : k ∉ mid.storage.utxoStore := by
  intro hmem
  obtain ⟨t, ht, hkt⟩ := List.mem_flatMap.mp hk
  obtain ⟨hstep, between, rest, rfl, hbetween⟩ := hlater.exists_of_mem ht
  have heffect := chainStep_eq_some_iff.mp hstep
  -- the run up to the step that inserts the key, and with it
  have hinj' : Set.InjOn cfg.blakeTwo256
      {p | p ∈ runPreimages cfg utxos (before ++ between ++ [⟨t.pre, t.label, t.post⟩])} := by
    refine hinj.mono ?_
    have hsplit : before ++ (between ++ t :: rest) = before ++ between ++ [t] ++ rest := by simp
    rw [hsplit]
    exact runPreimages_append_subset rest
  obtain ⟨hconsistent, -⟩ := consistent_of_injOn (Run.append_iff.mpr ⟨mid, hrun, hbetween⟩)
    (hinj'.mono (runPreimages_subset _))
  obtain ⟨hconsistent', -⟩ := consistent_of_injOn hrun
    (hinj.mono (runPreimages_append_subset (between ++ t :: rest)))
  obtain ⟨p, hp, heq⟩ := hconsistent'.sound.live_known k hmem
  exact hconsistent.key_ne hinj' heffect hkt p (runPreimages_append_subset between hp) heq

/-- An outpoint that is there was there with the same output, unless it was yet to be inserted. -/
theorem lookup_earlier_eq
    (hinj : Set.InjOn cfg.blakeTwo256 {p | p ∈ runPreimages cfg utxos (before ++ after)})
    {k : H256} (hk : k ∈ st.storage.utxoStore) :
    mid.storage.utxoStore.lookup k =
      if k ∈ after.flatMap (insertedKeys cfg) then none else st.storage.utxoStore.lookup k := by
  obtain ⟨utxo, hutxo⟩ := Finmap.mem_iff.mp hk
  split_ifs with hinserted
  · exact Finmap.lookup_eq_none.mpr (notMem_of_inserted_later hrun hlater hinj hinserted)
  · have hwhole := unspent_run (Run.append_iff.mpr ⟨mid, hrun, hlater⟩) hinj
    have hpart := unspent_run hrun (hinj.mono (runPreimages_append_subset after))
    obtain ⟨hcreated, hnot⟩ := (hwhole.lookup_iff k utxo).mp hutxo
    rw [createdIn, List.flatMap_append, ← List.append_assoc, List.mem_append] at hcreated
    rw [spentIn, List.flatMap_append, List.mem_append, not_or] at hnot
    rw [hutxo]
    refine (hpart.lookup_iff k utxo).mpr ⟨?_, hnot.1⟩
    -- what is not inserted later was created before
    refine hcreated.resolve_right fun hlate => hinserted ?_
    obtain ⟨t, ht, hmem⟩ := List.mem_flatMap.mp hlate
    exact List.mem_flatMap.mpr ⟨t, ht, List.mem_map_of_mem hmem⟩

section Spendable

variable (hspendable : Spendable cfg (emptied st.storage) tx message stem)
  (hinj : Set.InjOn cfg.blakeTwo256 {p | p ∈ runPreimages cfg utxos (before ++ after) ∨
    p ∈ (filed tx).map Prod.fst})

include hspendable hinj

/-- A transaction that becomes ready misses what is yet to be created of its outpoints. -/
theorem missingOf_earlier :
    missingOf mid.storage.utxoStore tx.inputs = createdOf cfg after tx := by
  rw [missingOf_eq_filter, createdOf]
  apply List.filter_congr
  intro k hk
  have hpresent := hspendable.present k hk
  rw [List.contains_eq_mem, decide_eq_decide, ← Finmap.lookup_eq_none,
    lookup_earlier_eq hrun hlater (hinj.mono fun _ hp => Or.inl hp) hpresent]
  split_ifs with hinserted
  · simp [hinserted]
  · have hsome : st.storage.utxoStore.lookup k ≠ none :=
      fun hnone => Finmap.lookup_eq_none.mp hnone hpresent
    simp [hinserted, hsome]

/-- While nothing is missing the outpoints hold what they are to hold. -/
theorem lookup_of_missingOf_earlier (hnone : missingOf mid.storage.utxoStore tx.inputs = []) :
    ∀ k ∈ tx.outpoints, mid.storage.utxoStore.lookup k = st.storage.utxoStore.lookup k := by
  rw [missingOf_earlier hrun hlater hspendable hinj, createdOf, List.filter_eq_nil_iff] at hnone
  intro k hk
  have hold : k ∉ after.flatMap (insertedKeys cfg) := by simpa using hnone k hk
  rw [lookup_earlier_eq hrun hlater (hinj.mono fun _ hp => Or.inl hp)
    (hspendable.present k hk), if_neg hold]

/-- A transaction that becomes ready is accepted before. -/
theorem accepted_earlier : Accepted cfg mid.storage.utxoStore tx message stem := by
  have hrunInj : Set.InjOn cfg.blakeTwo256 {p | p ∈ runPreimages cfg utxos (before ++ after)} :=
    hinj.mono fun _ hp => Or.inl hp
  have haccepted := hspendable.accepted
  -- an outpoint that is still to come adds nothing yet
  have hle : inputTotal mid.storage.utxoStore tx ≤ inputTotal st.storage.utxoStore tx := by
    refine List.sum_le_sum fun k hk => ?_
    rw [valueOf, valueOf, Finmap.weightAt, Finmap.weightAt,
      lookup_earlier_eq hrun hlater hrunInj (hspendable.present k hk)]
    split_ifs
    · exact Nat.zero_le _
    · exact Nat.le_refl _
  refine
    { haccepted with
      signed := ?_
      fresh := ?_
      input_lt := hle.trans_lt haccepted.input_lt
      balanced := ?_ }
  · intro input hinput utxo hutxo
    rw [lookup_earlier_eq hrun hlater hrunInj
      (hspendable.present _ (List.mem_map_of_mem hinput))] at hutxo
    split_ifs at hutxo
    exact haccepted.signed input hinput utxo hutxo
  · -- an output in the store would be known to the whole run
    intro k hk hmem
    obtain ⟨hconsistent, -⟩ :=
      consistent_of_injOn hrun (hrunInj.mono (runPreimages_append_subset after))
    obtain ⟨p, hp, heq⟩ := hconsistent.sound.live_known k hmem
    exact createdKeys_ne_of_present (Run.append_iff.mpr ⟨mid, hrun, hlater⟩) hinj
      haccepted.outpoints_ne hspendable.present k hk p (runPreimages_append_subset after hp) heq
  · intro hnone
    have hsame : inputTotal mid.storage.utxoStore tx = inputTotal st.storage.utxoStore tx :=
      inputTotal_congr (lookup_of_missingOf_earlier hrun hlater hspendable hinj hnone)
    rw [hsame]
    exact haccepted.balanced (missingOf_eq_nil_iff.mpr hspendable.present)

end Spendable

/-- In a run without a hash collision, a transaction that becomes ready in some state is valid in
every earlier one, and the verdict is what it is going to be but for the outpoints yet to be
created, which it waits for without a priority. -/
theorem validateTransaction_earlier
    (hvalid : validateTransaction cfg st.storage.utxoStore tx = .ok v) (hready : v.requires = [])
    (hinj : Set.InjOn cfg.blakeTwo256 {p | p ∈ runPreimages cfg utxos (before ++ after) ∨
      p ∈ (filed tx).map Prod.fst}) :
    validateTransaction cfg mid.storage.utxoStore tx = .ok (verdictBefore cfg after tx v) := by
  obtain ⟨message, stem, hspendable⟩ := ready_iff_spendable.mp ⟨v, hvalid, hready⟩
  have hmissing := missingOf_earlier hrun hlater hspendable hinj
  have hpresent : missingOf st.storage.utxoStore tx.inputs = [] :=
    missingOf_eq_nil_iff.mpr hspendable.present
  refine validateTransaction_eq_ok_iff.mpr
    ⟨⟨message, stem, accepted_earlier hrun hlater hspendable hinj⟩, ?_⟩
  rw [(validateTransaction_eq_ok_iff.mp hvalid).2, verdictBefore, validTransactionOf,
    validTransactionOf, feeOf, feeOf, hmissing, if_pos hpresent]
  dsimp only
  by_cases hcreated : createdOf cfg after tx = []
  · -- nothing is yet to be created, so the fee is what it will be
    have hlookup := lookup_of_missingOf_earlier hrun hlater hspendable hinj
      (hmissing.trans hcreated)
    rw [if_pos hcreated, if_pos (List.isEmpty_iff.mpr hcreated), inputTotal_congr hlookup]
  · rw [if_neg hcreated, if_neg (mt List.isEmpty_iff.mp hcreated)]
    rfl

end Earlier

/-- The transaction that forwards an output of the sample run is ready after the block that creates
the output, and waits for it at genesis. -/
theorem validateTransaction_earlier_sample :
    ∃ v v', validateTransaction Sample.config (Sample.after 4).2.storage.utxoStore
        Sample.bobForwards = .ok v ∧ v.requires = [] ∧ v.priority = 40 ∧
      validateTransaction Sample.config (genesis Sample.config Sample.coins).utxoStore
        Sample.bobForwards = .ok v' ∧
      v'.requires = Sample.bobForwards.outpoints.map List.Vector.toList ∧ v'.priority = 0 := by
  let v := validTransactionOf Sample.config (Sample.after 4).2.storage.utxoStore Sample.bobForwards
  have hvalid : validateTransaction Sample.config (Sample.after 4).2.storage.utxoStore
      Sample.bobForwards = .ok v := by decide +kernel
  have hready : v.requires = [] := by decide +kernel
  have hnodup : ((runPreimages Sample.config Sample.coins ([] ++ (Sample.after 4).1) ++
      (filed Sample.bobForwards).map Prod.fst).map Sample.config.blakeTwo256).Nodup := by
    decide +kernel
  have hearlier := validateTransaction_earlier .nil (Sample.chainRun_after 4) hvalid hready
    ((injOn_of_nodup_map hnodup).mono fun p hp => List.mem_append.mpr hp)
  exact ⟨v, _, hvalid, hready, by decide +kernel, hearlier, by decide +kernel, by decide +kernel⟩

/-! ## In one block -/

/-- The second transaction spends an output of the first one. -/
def Feeds (cfg : Config) (a b : Transaction) : Prop := ∃ k ∈ b.outpoints, k ∈ createdKeys cfg a

instance : Std.Symm OutpointsDisjoint where
  symm _ _ h := h.symm

/-- Whatever tag a transaction of the list requires in a store, an earlier one of the list
provides. -/
def RespectsTags (cfg : Config) (store : UtxoStore) (txs : List Transaction) : Prop :=
  ∀ before tx after, txs = before ++ tx :: after →
    ∀ v, validateTransaction cfg store tx = .ok v → ∀ tag ∈ v.requires,
      ∃ a ∈ before, ∃ va, validateTransaction cfg store a = .ok va ∧ tag ∈ va.provides

/-- The steps that execute transactions one after the other. -/
def spendTrace (cfg : Config) : Storage → List Transaction → List (Transition ChainState Action)
  | _, [] => []
  | s, tx :: txs =>
    ⟨⟨s, true⟩, .call .none (.spend tx), ⟨spentStorage cfg s tx, true⟩⟩ ::
      spendTrace cfg (spentStorage cfg s tx) txs

/-- Executing transactions one after the other is a run of the chain, which files their outputs. -/
theorem run_spendTrace {txs : List Transaction} (hrun : txs.foldlM (spendStep cfg) s = some s') :
    Run (chainStep cfg) ⟨s, true⟩ (spendTrace cfg s txs) ⟨s', true⟩ ∧
      (spendTrace cfg s txs).flatMap (filedBy cfg) = txs.flatMap filed := by
  induction txs generalizing s with
  | nil =>
    obtain rfl := Option.some.inj hrun
    exact ⟨.nil, rfl⟩
  | cons tx txs ih =>
    rw [List.foldlM_cons] at hrun
    obtain ⟨s₁, hstep, hrest⟩ := Option.bind_eq_some_iff.mp hrun
    obtain ⟨⟨message, stem, hspendable⟩, rfl⟩ := spendStep_eq_some_iff.mp hstep
    obtain ⟨hruns, hfiled⟩ := ih hrest
    refine ⟨?_, ?_⟩
    · exact Run.cons_iff.mpr ⟨rfl, chainStep_of_effect (.spent rfl hspendable), hruns⟩
    · rw [spendTrace, List.flatMap_cons, hfiled, List.flatMap_cons,
        filedBy_spend (spendOk_iff.mpr ⟨_, _, hspendable⟩)]

/-- What is in the store after transactions was there before them, or one of them created it. -/
theorem mem_or_mem_createdKeys_of_run {txs : List Transaction} {k : H256}
    (hrun : txs.foldlM (spendStep cfg) s = some s') (hk : k ∈ s'.utxoStore) :
    k ∈ s.utxoStore ∨ ∃ a ∈ txs, k ∈ createdKeys cfg a := by
  induction txs generalizing s with
  | nil =>
    obtain rfl := Option.some.inj hrun
    exact Or.inl hk
  | cons a txs ih =>
    rw [List.foldlM_cons] at hrun
    obtain ⟨s₁, hstep, hrest⟩ := Option.bind_eq_some_iff.mp hrun
    obtain ⟨-, rfl⟩ := spendStep_eq_some_iff.mp hstep
    rcases ih hrest with hmem | ⟨b, hb, hmem⟩
    · rcases mem_spentStorage_iff.mp hmem with ⟨hold, -⟩ | hnew
      · exact Or.inl hold
      · exact Or.inr ⟨a, List.mem_cons_self, hnew⟩
    · exact Or.inr ⟨b, List.mem_cons_of_mem _ hb, hmem⟩

/-- A transaction of a list that is executed finds the state that those before it leave. -/
theorem exists_spendable_of_run {pre post : List Transaction}
    (hrun : (pre ++ tx :: post).foldlM (spendStep cfg) s = some s') :
    ∃ s₁ message stem, pre.foldlM (spendStep cfg) s = some s₁ ∧
      Spendable cfg s₁ tx message stem := by
  rw [List.foldlM_append] at hrun
  obtain ⟨s₁, hpre, hrest⟩ := Option.bind_eq_some_iff.mp hrun
  rw [List.foldlM_cons] at hrest
  obtain ⟨s₂, hstep, -⟩ := Option.bind_eq_some_iff.mp hrest
  obtain ⟨⟨message, stem, hspendable⟩, -⟩ := spendStep_eq_some_iff.mp hstep
  exact ⟨s₁, message, stem, hpre, hspendable⟩

section Block

variable {utxos : List TransactionOutput} {trace : List (Transition ChainState Action)}
  {txs txs' : List Transaction}

/-- Executing transactions adds the preimages of their outputs. -/
theorem mem_runPreimages_spendTrace {p : Bytes} (hrun : txs.foldlM (spendStep cfg) s = some s')
    (hp : p ∈ runPreimages cfg utxos (trace ++ spendTrace cfg s txs)) :
    p ∈ runPreimages cfg utxos trace ∨ ∃ tx ∈ txs, p ∈ (filed tx).map Prod.fst := by
  rw [runPreimages, List.flatMap_append, ← List.append_assoc, List.mem_append] at hp
  refine hp.imp_right fun hnew => ?_
  rw [← List.map_flatMap, (run_spendTrace hrun).2, List.map_flatMap] at hnew
  exact List.mem_flatMap.mp hnew

variable (hrun : ChainRun cfg (genesis cfg utxos) trace ⟨s, true⟩)
  (hinj : Set.InjOn cfg.blakeTwo256 {p | p ∈ runPreimages cfg utxos trace ∨
    ∃ tx ∈ txs, p ∈ (filed tx).map Prod.fst})
  (hall : txs.foldlM (spendStep cfg) s = some s')

include hrun hinj hall

/-- Each of the transactions that are executed one after the other is accepted at the start. -/
theorem accepted_of_run (htx : tx ∈ txs) :
    ∃ message stem, Accepted cfg s.utxoStore tx message stem := by
  obtain ⟨pre, post, rfl⟩ := List.mem_iff_append.mp htx
  obtain ⟨s₁, message, stem, hpre, hspendable⟩ := exists_spendable_of_run hall
  refine ⟨message, stem,
    accepted_earlier hrun (run_spendTrace hpre).1 hspendable.to_emptied (hinj.mono ?_)⟩
  rintro p (hp | hp)
  · refine (mem_runPreimages_spendTrace hpre hp).imp_right ?_
    rintro ⟨a, ha, hpa⟩
    exact ⟨a, List.mem_append_left _ ha, hpa⟩
  · exact Or.inr ⟨tx, htx, hp⟩

/-- Of transactions executed one after the other, none spends what an earlier one has spent or what
a later one creates. -/
theorem pairwise_of_run :
    txs.Pairwise fun a b => OutpointsDisjoint a b ∧ ¬ Feeds cfg b a := by
  induction txs generalizing s trace with
  | nil => exact List.Pairwise.nil
  | cons a txs ih =>
    have haccepted : ∀ b ∈ txs, ∃ message stem, Accepted cfg s.utxoStore b message stem :=
      fun b hb => accepted_of_run hrun hinj hall (List.mem_cons_of_mem a hb)
    rw [List.foldlM_cons] at hall
    obtain ⟨s₁, hstep, hrest⟩ := Option.bind_eq_some_iff.mp hall
    obtain ⟨⟨message, stem, hspendable⟩, rfl⟩ := spendStep_eq_some_iff.mp hstep
    have hok : spendOk cfg s a = true := spendOk_iff.mpr ⟨_, _, hspendable⟩
    -- the run goes on with `a`
    let t : Transition ChainState Action :=
      ⟨⟨s, true⟩, .call .none (.spend a), ⟨spentStorage cfg s a, true⟩⟩
    have hrun' : ChainRun cfg (genesis cfg utxos) (trace ++ [t]) t.post :=
      hrun.snoc (chainStep_of_effect (.spent rfl hspendable))
    have hfiled : filedBy cfg t = filed a := filedBy_spend hok
    have hinj' : Set.InjOn cfg.blakeTwo256 {p | p ∈ runPreimages cfg utxos (trace ++ [t]) ∨
        ∃ tx ∈ txs, p ∈ (filed tx).map Prod.fst} := by
      refine hinj.mono ?_
      rintro p (hp | ⟨b, hb, hp⟩)
      · rw [runPreimages_append, hfiled, List.mem_append] at hp
        exact hp.imp_right fun hpa => ⟨a, List.mem_cons_self, hpa⟩
      · exact Or.inr ⟨b, List.mem_cons_of_mem a hb, hp⟩
    refine List.pairwise_cons.mpr ⟨fun b hb => ⟨?_, ?_⟩, ih hrun' hinj' hrest⟩
    · -- what `a` has spent is not there any more when `b` is executed
      intro k hka hkb
      obtain ⟨pre, post, rfl⟩ := List.mem_iff_append.mp hb
      obtain ⟨s₂, _, _, hpre, hb'⟩ := exists_spendable_of_run hrest
      have hwhole : ChainRun cfg (genesis cfg utxos)
          (trace ++ [t] ++ spendTrace cfg (spentStorage cfg s a) pre) ⟨s₂, true⟩ :=
        Run.append_iff.mpr ⟨t.post, hrun', (run_spendTrace hpre).1⟩
      have hinj'' : Set.InjOn cfg.blakeTwo256 {p | p ∈ runPreimages cfg utxos
          (trace ++ [t] ++ spendTrace cfg (spentStorage cfg s a) pre)} := by
        refine hinj'.mono fun p hp => (mem_runPreimages_spendTrace hpre hp).imp_right ?_
        rintro ⟨c, hc, hpc⟩
        exact ⟨c, List.mem_append_left _ hc, hpc⟩
      obtain ⟨hconsistent, -⟩ := consistent_of_injOn hwhole hinj''
      have ht : t ∈ trace ++ [t] ++ spendTrace cfg (spentStorage cfg s a) pre := by simp
      exact hconsistent.spent_notMem_store ht ⟨⟨.none, rfl⟩, hok⟩ hka (hb'.present k hkb)
    · -- what `a` spends is there, and what `b` creates is not
      rintro ⟨k, hka, hkb⟩
      obtain ⟨_, _, hb'⟩ := haccepted b hb
      exact hb'.fresh k hkb (hspendable.present k hka)

/-- Different ones of the transactions share no outpoint. -/
theorem outpointsDisjoint_of_ne (ha : a ∈ txs) (hb : b ∈ txs) (hne : a ≠ b) :
    OutpointsDisjoint a b :=
  ((pairwise_of_run hrun hinj hall).imp And.left).forall ha hb hne

/-- Different ones of the transactions create different keys. -/
theorem eq_of_common_key (ha : a ∈ txs) (hb : b ∈ txs) {k : H256} (hka : k ∈ createdKeys cfg a)
    (hkb : k ∈ createdKeys cfg b) : a = b := by
  by_contra hne
  have hdisjoint := outpointsDisjoint_of_ne hrun hinj hall ha hb hne
  obtain ⟨_, _, haccepted⟩ := accepted_of_run hrun hinj hall ha
  refine createdKeys_disjoint haccepted.outpoints_ne (hinj.mono ?_) hdisjoint k hkb hka
  rintro p (hp | hp)
  · exact Or.inr ⟨a, ha, hp⟩
  · exact Or.inr ⟨b, hb, hp⟩

/-- No transaction is executed twice. -/
theorem nodup_of_run : txs.Nodup := by
  refine (pairwise_of_run hrun hinj hall).imp_of_mem ?_
  rintro a b ha - ⟨hdisjoint, -⟩ rfl
  obtain ⟨_, _, haccepted⟩ := accepted_of_run hrun hinj hall ha
  obtain ⟨k, hk⟩ := List.exists_mem_of_ne_nil _ haccepted.outpoints_ne
  exact hdisjoint hk hk

/-- Those of the transactions that do not feed one another are independent. -/
theorem independent_of_run (ha : a ∈ txs) (hb : b ∈ txs) (hne : a ≠ b)
    (hab : ¬ Feeds cfg a b) (hba : ¬ Feeds cfg b a) : Independent cfg a b where
  outpoints := outpointsDisjoint_of_ne hrun hinj hall ha hb hne
  left k hk hmem := hba ⟨k, hk, hmem⟩
  right k hk hmem := hab ⟨k, hk, hmem⟩

/-- An order that respects the tags has no transaction before one that feeds it. -/
theorem pairwise_of_respectsTags (hperm : txs.Perm txs')
    (hrespects : RespectsTags cfg s.utxoStore txs') :
    txs'.Pairwise fun a b => ¬ Feeds cfg b a := by
  have hnodup : txs'.Nodup := hperm.nodup_iff.mp (nodup_of_run hrun hinj hall)
  suffices h : ∀ before rest, txs' = before ++ rest → rest.Pairwise fun a b => ¬ Feeds cfg b a from
    h [] txs' rfl
  intro before rest
  induction rest generalizing before with
  | nil => exact fun _ => List.Pairwise.nil
  | cons a rest ih =>
    intro hsplit
    refine List.pairwise_cons.mpr ⟨?_, ih (before ++ [a]) (by simp [hsplit])⟩
    rintro b hb ⟨k, hka, hkb⟩
    have hmem : ∀ c ∈ txs', c ∈ txs := fun c hc => hperm.mem_iff.mpr hc
    have hb' : b ∈ txs := hmem b (by simp [hsplit, hb])
    obtain ⟨_, _, hbAccepted⟩ := accepted_of_run hrun hinj hall hb'
    obtain ⟨_, _, haAccepted⟩ := accepted_of_run hrun hinj hall (hmem a (by simp [hsplit]))
    -- the key is not there yet, so `a` requires it
    have hrequires : k.toList ∈ (validTransactionOf cfg s.utxoStore a).requires := by
      rw [validTransactionOf, mem_map_toList_iff, missingOf_eq_filter, List.mem_filter,
        decide_eq_true_iff]
      exact ⟨hka, hbAccepted.fresh k hkb⟩
    obtain ⟨c, hc, vc, hvc, hprovides⟩ := hrespects before a rest hsplit _
      (validateTransaction_eq_ok_iff.mpr ⟨⟨_, _, haAccepted⟩, rfl⟩) _ hrequires
    -- only `b` provides it, which comes after `a`
    rw [(validateTransaction_eq_ok_iff.mp hvc).2, validTransactionOf, mem_map_toList_iff]
      at hprovides
    have hc' : c ∈ txs := hmem c (by simp [hsplit, hc])
    obtain rfl := eq_of_common_key hrun hinj hall hc' hb' hprovides hkb
    rw [hsplit, List.nodup_append] at hnodup
    exact hnodup.2.2 c hc c (List.mem_cons_of_mem a hb) rfl

omit hinj hall hrun in
/-- An order in which accepted transactions can be executed respects the tags. -/
theorem respectsTags_of_run
    (haccepted : ∀ tx ∈ txs, ∃ message stem, Accepted cfg s.utxoStore tx message stem)
    (hall : txs.foldlM (spendStep cfg) s = some s') : RespectsTags cfg s.utxoStore txs := by
  rintro before tx rest rfl v hvalid tag htag
  obtain ⟨s₁, _, _, hbefore, hspendable⟩ := exists_spendable_of_run hall
  rw [(validateTransaction_eq_ok_iff.mp hvalid).2, validTransactionOf, List.mem_map] at htag
  obtain ⟨k, hk, rfl⟩ := htag
  rw [missingOf_eq_filter, List.mem_filter, decide_eq_true_iff] at hk
  -- the outpoint is there when `tx` is executed, so a transaction before it created it
  obtain ⟨a, ha, hcreated⟩ :=
    (mem_or_mem_createdKeys_of_run hbefore (hspendable.present k hk.1)).resolve_left hk.2
  refine ⟨a, ha, _, validateTransaction_eq_ok_iff.mpr
    ⟨haccepted a (List.mem_append_left _ ha), rfl⟩, ?_⟩
  rw [validTransactionOf, mem_map_toList_iff]
  exact hcreated

end Block

/-- Let transactions be executed one after the other in an open block, with no hash collision. Then
each of them is valid at the start, whatever it spends of the others; they can be executed in
another order exactly when the order respects the tags they have at the start, and then end in the
same store and the same `RewardTotal`. -/
theorem forM_spend_ok_iff_respectsTags {utxos : List TransactionOutput}
    {trace : List (Transition ChainState Action)} {st : ChainState} {txs txs' : List Transaction}
    (hrun : ChainRun cfg (genesis cfg utxos) trace st) (hopen : st.inBlock = true)
    (hinj : Set.InjOn cfg.blakeTwo256 {p | p ∈ runPreimages cfg utxos trace ∨
      ∃ tx ∈ txs, p ∈ (filed tx).map Prod.fst})
    (hok : (txs.forM (spend cfg)).run st.storage = .ok () s') (hperm : txs.Perm txs') :
    (∀ tx ∈ txs, ∃ v, validateTransaction cfg st.storage.utxoStore tx = .ok v) ∧
      ((∃ t', (txs'.forM (spend cfg)).run st.storage = .ok () t') ↔
        RespectsTags cfg st.storage.utxoStore txs') ∧
      ∀ t', (txs'.forM (spend cfg)).run st.storage = .ok () t' → SameFunds s' t' := by
  obtain ⟨s, inBlock⟩ := st
  obtain rfl : inBlock = true := hopen
  have hall : txs.foldlM (spendStep cfg) s = some s' := run_forM_spend_eq_ok_iff.mp hok
  have haccepted : ∀ tx ∈ txs, ∃ message stem, Accepted cfg s.utxoStore tx message stem :=
    fun tx htx => accepted_of_run hrun hinj hall htx
  have hother (hrespects : RespectsTags cfg s.utxoStore txs') :
      ∃ t', txs'.foldlM (spendStep cfg) s = some t' ∧ SameFunds s' t' := by
    refine (spend_commutes cfg).foldlM_of_linearExtensions hperm (nodup_of_run hrun hinj hall)
      ((pairwise_of_run hrun hinj hall).imp And.right)
      (pairwise_of_respectsTags hrun hinj hall hperm hrespects) ?_ hall
    exact fun a ha b hb => independent_of_run hrun hinj hall ha hb
  have hrespects (t' : Storage) (hrun' : txs'.foldlM (spendStep cfg) s = some t') :
      RespectsTags cfg s.utxoStore txs' :=
    respectsTags_of_run (fun tx htx => haccepted tx (hperm.mem_iff.mpr htx)) hrun'
  simp only [run_forM_spend_eq_ok_iff]
  refine ⟨?_, ⟨?_, ?_⟩, ?_⟩
  · intro tx htx
    exact ⟨_, validateTransaction_eq_ok_iff.mpr ⟨haccepted tx htx, rfl⟩⟩
  · rintro ⟨t', hrun'⟩
    exact hrespects t' hrun'
  · intro htags
    obtain ⟨t', hrun', -⟩ := hother htags
    exact ⟨t', hrun'⟩
  · intro t' hrun'
    obtain ⟨t'', hrun'', hsame⟩ := hother (hrespects t' hrun')
    obtain rfl := Option.some.inj (hrun'.symm.trans hrun'')
    exact hsame

/-- The transaction that forwards an output goes into the block that creates it, but not before the
transaction that does. -/
theorem forM_spend_ok_iff_respectsTags_sample :
    (∃ s', ([Sample.aliceSpends, Sample.bobForwards].forM (spend Sample.config)).run
        (Sample.after 2).2.storage = .ok () s') ∧
      (∀ tx ∈ [Sample.aliceSpends, Sample.bobForwards], ∃ v, validateTransaction Sample.config
        (Sample.after 2).2.storage.utxoStore tx = .ok v) ∧
      ¬ RespectsTags Sample.config (Sample.after 2).2.storage.utxoStore
        [Sample.bobForwards, Sample.aliceSpends] := by
  have hok : ([Sample.aliceSpends, Sample.bobForwards].foldlM (spendStep Sample.config)
      (Sample.after 2).2.storage).isSome = true := by decide +kernel
  obtain ⟨s', hs'⟩ := Option.isSome_iff_exists.mp hok
  have hrun' := run_forM_spend_eq_ok_iff.mpr hs'
  have hstuck : [Sample.bobForwards, Sample.aliceSpends].foldlM (spendStep Sample.config)
      (Sample.after 2).2.storage = none := by decide +kernel
  have hnodup : ((runPreimages Sample.config Sample.coins (Sample.after 2).1 ++
      [Sample.aliceSpends, Sample.bobForwards].flatMap fun tx => (filed tx).map Prod.fst).map
        Sample.config.blakeTwo256).Nodup := by
    decide +kernel
  obtain ⟨hvalid, hiff, -⟩ := forM_spend_ok_iff_respectsTags (Sample.chainRun_after 2)
    (by decide +kernel) ((injOn_of_nodup_map hnodup).mono fun p hp =>
      List.mem_append.mpr (hp.imp_right List.mem_flatMap.mpr)) hrun'
    (List.Perm.swap Sample.bobForwards Sample.aliceSpends [])
  refine ⟨⟨s', hrun'⟩, hvalid, ?_⟩
  intro hrespects
  obtain ⟨t', ht'⟩ := hiff.mpr hrespects
  rw [run_forM_spend_eq_ok_iff, hstuck] at ht'
  exact absurd ht' (by simp)

end Utxo

end PowEvm
