import PowEvm.Runtime.Bookkeeping
import PowEvm.Runtime.Lineage
import PowEvm.Runtime.SignedMessage

/-!
# Transactions that differ in their signatures

The signed message leaves the sigscripts out, but the keys of the outputs are hashes of the
transaction with its sigscripts. Whoever signs for an input can sign again: the result goes through
wherever the first transaction does and leaves everybody with the same balance, but under other
keys. What was prepared to spend the outputs of the first transaction is void then.

## Main results

* `Twin.spendable`: a transaction goes through where one that differs in the sigscripts does;
* `twin_supplants`: it leaves the same balances, and cuts off all that descends from the other.
-/

namespace PowEvm

open Utxo

variable {cfg : Config} {utxos : List TransactionOutput} {s : Storage} {st : ChainState}
  {trace : List (Transition ChainState Action)} {a b tx twin : Transaction}
  {message stem : Bytes}

/-- The two transactions differ in their sigscripts, and in nothing else. -/
structure Twin (a b : Transaction) : Prop where
  outpoints_eq : b.outpoints = a.outpoints
  outputs_eq : b.outputs = a.outputs
  ne : a ≠ b

/-- Nothing that descends from the transaction is executed in any continuation of the run that is
free of hash collisions. -/
def CutOff (cfg : Config) (utxos : List TransactionOutput)
    (trace : List (Transition ChainState Action)) (st : ChainState) (tx : Transaction) : Prop :=
  ∀ after st', Run (chainStep cfg) st after st' → ∀ descendant lineage,
    Lineage cfg (descendant :: lineage) → tx ∈ descendant :: lineage →
    Set.InjOn cfg.blakeTwo256 {p | p ∈ runPreimages cfg utxos (trace ++ after) ∨
      ∃ a ∈ lineage, p ∈ (filed a).map Prod.fst} →
    ∀ t ∈ after, ¬ SpendSucceeds cfg descendant t

/-! ## What twins share -/

theorem Twin.getSimpleTransaction_eq (h : Twin a b) :
    getSimpleTransaction b = getSimpleTransaction a :=
  congrArg Transaction.encode (stripped_eq_iff.mpr ⟨h.outputs_eq, h.outpoints_eq⟩)

theorem Twin.inputTotal_eq (h : Twin a b) (store : UtxoStore) :
    inputTotal store b = inputTotal store a := by
  rw [inputTotal, inputTotal, h.outpoints_eq]

theorem Twin.outputTotal_eq (h : Twin a b) : b.outputTotal = a.outputTotal := by
  rw [Transaction.outputTotal, Transaction.outputTotal, h.outputs_eq]

theorem Twin.creditedFee_eq (h : Twin a b) (store : UtxoStore) :
    creditedFee store b = creditedFee store a := by
  rw [creditedFee, creditedFee, h.inputTotal_eq, h.outputTotal_eq]

/-- A received transaction goes through where its twin does, if its signatures are accepted and it
creates new keys. -/
theorem Twin.spendable (h : Twin a b) (ha : Spendable cfg s a message stem)
    (hreceived : Received b) (hnodup : b.inputs.Nodup)
    (hsigned : ∀ input ∈ b.inputs, Signed cfg s.utxoStore message input)
    (hfresh : ∀ k ∈ createdKeys cfg b, k ∉ s.utxoStore) :
    ∃ stem', Spendable cfg s b message stem' := by
  obtain ⟨stem', hstem'⟩ := hreceived.exists_outputStem
  have haccepted := ha.accepted
  have hpresent : ∀ k ∈ b.outpoints, k ∈ s.utxoStore := by
    rw [h.outpoints_eq]
    exact ha.present
  have hinputs : b.inputs ≠ [] := by
    rw [← outpoints_eq_nil_iff.ne, h.outpoints_eq]
    exact haccepted.outpoints_ne
  refine ⟨stem', ⟨hinputs, ?_, hnodup, ?_, ?_, hstem', hsigned, ?_, hfresh, ?_, ?_, ?_⟩,
    hpresent, ?_⟩
  · rw [h.outputs_eq]
    exact haccepted.outputs_ne
  · rw [h.outputs_eq]
    exact haccepted.outputs_nodup
  · rw [h.getSimpleTransaction_eq]
    exact haccepted.simple
  · rw [h.outputs_eq]
    exact haccepted.positive
  · rw [h.inputTotal_eq]
    exact haccepted.input_lt
  · rw [h.outputTotal_eq]
    exact haccepted.output_lt
  · intro _
    rw [h.outputTotal_eq, h.inputTotal_eq]
    exact haccepted.balanced (missingOf_eq_nil_iff.mpr ha.present)
  · rw [h.creditedFee_eq]
    exact ha.reward_lt

/-! ## The books after a `spend` -/

/-- A `spend` that creates new keys takes from an owner what it spends and gives it what it
files. -/
theorem balanceOf_spentStorage (h : Spendable cfg s tx message stem)
    (hinj : Set.InjOn cfg.blakeTwo256 {p | p ∈ (filed tx).map Prod.fst}) (owner : H256) :
    balanceOf owner (spentStorage cfg s tx) +
        (tx.outpoints.dedup.map (s.utxoStore.weightAt (ownedValue owner))).sum =
      balanceOf owner s + (tx.outputs.map (ownedValue owner)).sum := by
  have houtputs : ((createdEntries cfg tx).map fun e => ownedValue owner e.2).sum =
      (tx.outputs.map (ownedValue owner)).sum := by
    rw [← filed_map_snd h.accepted.stem_eq, createdEntries, hashed, List.map_map, List.map_map]
    rfl
  rw [← houtputs]
  exact Finmap.total_replace h.present (nodup_keys_hashed (nodup_filed tx) hinj) h.accepted.fresh

/-- Twins create different keys, unless two preimages collide. -/
theorem Twin.createdKeys_disjoint (h : Twin a b)
    (hinj : Set.InjOn cfg.blakeTwo256
      {p | p ∈ (filed a).map Prod.fst ∨ p ∈ (filed b).map Prod.fst}) :
    List.Disjoint (createdKeys cfg a) (createdKeys cfg b) := by
  intro k ha hb
  obtain ⟨p, hp, rfl⟩ := mem_createdKeys_iff_filed.mp ha
  obtain ⟨q, hq, heq⟩ := mem_createdKeys_iff_filed.mp hb
  obtain rfl := hinj (Or.inr hq) (Or.inl hp) heq
  -- a preimage belongs to one transaction, sigscripts included
  obtain ⟨_, hpreimage⟩ := exists_outputPreimage_of_mem_filed hp
  obtain ⟨_, hpreimage'⟩ := exists_outputPreimage_of_mem_filed hq
  exact h.ne (outputPreimage_inj hpreimage hpreimage').1

/-- After a transaction was executed, everything that descends from a twin of it is cut off. -/
theorem cutOff_of_twin (hrun : ChainRun cfg (genesis cfg utxos) trace st) (h : Twin tx twin)
    {t : Transition ChainState Action} (ht : t ∈ trace) (hsucceeds : SpendSucceeds cfg twin t) :
    CutOff cfg utxos trace st tx := by
  intro after st' hlater descendant lineage hlineage hmem hinj t' ht'
  obtain ⟨message, stem, hspendable⟩ := spendOk_iff.mp hsucceeds.2
  have hshared : ¬ OutpointsDisjoint tx twin := by
    obtain ⟨k, hk⟩ := List.exists_mem_of_ne_nil _ hspendable.accepted.outpoints_ne
    exact fun hdisjoint => hdisjoint (h.outpoints_eq ▸ hk) hk
  exact not_succeeds_of_rival (Run.append_iff.mpr ⟨st, hrun, hlater⟩) hinj hlineage hmem
    (List.mem_append_left after ht) hsucceeds h.ne hshared t' (List.mem_append_right trace ht')

/-- Let a transaction go through in a state of a run, and let another one differ from it in the
sigscripts alone, with none of its inputs repeated and all its sigscripts accepted. Without a hash
collision it goes through there as well and leaves the same `RewardTotal` and everybody with the
same balance, but no key in common; and from then on nothing that descends from the first
transaction is executed. -/
theorem twin_supplants (hrun : ChainRun cfg (genesis cfg utxos) trace st)
    (hopen : st.inBlock = true) {s₁ : Storage} (hok : (spend cfg tx).run st.storage = .ok () s₁)
    (htwin : Twin tx twin) (hreceived : Received twin) (hnodup : twin.inputs.Nodup)
    (hsigned : ∀ message, getSimpleTransaction tx = some message →
      ∀ input ∈ twin.inputs, Signed cfg st.storage.utxoStore message input)
    (hinj : Set.InjOn cfg.blakeTwo256 {p | p ∈ runPreimages cfg utxos trace ∨
      p ∈ (filed tx).map Prod.fst ∨ p ∈ (filed twin).map Prod.fst}) :
    ∃ s₂, (spend cfg twin).run st.storage = .ok () s₂ ∧ s₂.rewardTotal = s₁.rewardTotal ∧
      (∀ owner, balanceOf owner s₂ = balanceOf owner s₁) ∧
      List.Disjoint (createdKeys cfg tx) (createdKeys cfg twin) ∧
      CutOff cfg utxos (trace ++ [⟨st, .call .none (.spend twin), ⟨s₂, true⟩⟩]) ⟨s₂, true⟩ tx := by
  obtain ⟨⟨message, stem, hspendable⟩, rfl⟩ := run_spend_eq_ok_iff.mp hok
  have houtpoints : twin.outpoints ≠ [] := by
    rw [htwin.outpoints_eq]
    exact hspendable.accepted.outpoints_ne
  have hpresent : ∀ k ∈ twin.outpoints, k ∈ st.storage.utxoStore := by
    rw [htwin.outpoints_eq]
    exact hspendable.present
  have hfresh : ∀ k ∈ createdKeys cfg twin, k ∉ st.storage.utxoStore :=
    createdKeys_notMem_of_present hrun (hinj.mono fun p hp => hp.imp_right Or.inr) houtpoints
      hpresent
  obtain ⟨stem', hspendable'⟩ := htwin.spendable hspendable hreceived hnodup
    (hsigned message hspendable.accepted.simple) hfresh
  have hstep : chainStep cfg st (.call .none (.spend twin)) =
      some ⟨spentStorage cfg st.storage twin, true⟩ :=
    chainStep_of_effect (.spent hopen hspendable')
  refine ⟨spentStorage cfg st.storage twin,
    run_spend_eq_ok_iff.mpr ⟨⟨message, stem', hspendable'⟩, rfl⟩, ?_, ?_, ?_, ?_⟩
  · change BitVec.ofNat 128 _ = BitVec.ofNat 128 _
    rw [htwin.creditedFee_eq]
  · intro owner
    -- both take the same from the owner and give it the same
    have hbooks := balanceOf_spentStorage hspendable
      (hinj.mono fun p hp => Or.inr (Or.inl hp)) owner
    have hbooks' := balanceOf_spentStorage hspendable'
      (hinj.mono fun p hp => Or.inr (Or.inr hp)) owner
    rw [htwin.outpoints_eq, htwin.outputs_eq] at hbooks'
    omega
  · exact htwin.createdKeys_disjoint (hinj.mono fun p hp => Or.inr hp)
  · exact cutOff_of_twin (hrun.snoc hstep) htwin (List.mem_append_right trace List.mem_cons_self)
      ⟨⟨.none, rfl⟩, spendOk_iff.mpr ⟨message, stem', hspendable'⟩⟩

/-- Bob signs the second transaction of the sample run again. -/
theorem twin_supplants_sample :
    let twin : Transaction :=
      { Sample.bobSpends with inputs := [⟨Sample.bobCoin, Sample.signature Sample.bob 2⟩] }
    ∃ s₂, (spend Sample.config twin).run (Sample.after 2).2.storage = .ok () s₂ ∧
      balanceOf Sample.alice s₂ = 145 ∧
      CutOff Sample.config Sample.coins
        ((Sample.after 2).1 ++ [⟨(Sample.after 2).2, .call .none (.spend twin), ⟨s₂, true⟩⟩])
        ⟨s₂, true⟩ Sample.bobSpends := by
  intro twin
  let s := (Sample.after 2).2.storage
  have hok : spendOk Sample.config s Sample.bobSpends = true := by decide +kernel
  have htwin : Twin Sample.bobSpends twin := ⟨rfl, rfl, by decide +kernel⟩
  have hreceived : Received twin := by
    have hencoded : (twin.encode.map List.length) = some 146 := by decide +kernel
    obtain ⟨bytes, hbytes, hlength⟩ := Option.map_eq_some_iff.mp hencoded
    exact received_iff.mpr ⟨bytes, hbytes, by omega⟩
  have hcoin : s.utxoStore.lookup Sample.bobCoin = some ⟨50, Sample.bob⟩ := by decide +kernel
  have hsigned : ∀ message, getSimpleTransaction Sample.bobSpends = some message →
      ∀ input ∈ twin.inputs, Signed Sample.config s.utxoStore message input := by
    intro message _ input hinput utxo hutxo
    obtain rfl := List.mem_singleton.mp hinput
    obtain rfl := Option.some.inj (hcoin.symm.trans hutxo)
    rfl
  have hnodup : ((runPreimages Sample.config Sample.coins (Sample.after 2).1 ++
      ((filed Sample.bobSpends).map Prod.fst ++ (filed twin).map Prod.fst)).map
        Sample.config.blakeTwo256).Nodup := by
    decide +kernel
  have hbalance : balanceOf Sample.alice (spentStorage Sample.config s Sample.bobSpends) = 145 := by
    decide +kernel
  obtain ⟨s₂, hrun, -, hsame, -, hcut⟩ := twin_supplants (Sample.chainRun_after 2)
    (by decide +kernel) (run_spend_of_spendOk hok) htwin hreceived (List.nodup_singleton _) hsigned
    ((injOn_of_nodup_map hnodup).mono fun p hp =>
      List.mem_append.mpr (hp.imp_right List.mem_append.mpr))
  exact ⟨s₂, hrun, (hsame Sample.alice).trans hbalance, hcut⟩

end PowEvm
