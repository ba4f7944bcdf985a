import PowEvm.Runtime.Readiness

/-!
# Forks

Miners extend the chain at the same time, so that the node has to switch from one run to another.
Keys are the hashes of what they stand for, so two forks agree on every entry they share, and a
transaction that goes through on one of them goes through on every other one that has all its
outpoints. Neither the keys nor the signed message names the chain, so the same holds of chains that
started from different genesis entries.

## Main results

* `Describes.unique`: the preimage of a key determines the output that is filed under it;
* `lookup_eq_of_forks`: no two chains hold different outputs under one key;
* `spendOk_on_fork_iff`: a transaction that goes through at the end of one chain goes through at the
  end of another exactly when its outpoints are there and its fee fits.
-/

namespace PowEvm

open Utxo

variable {cfg : Config} {utxos utxos' : List TransactionOutput} {st st' : ChainState}
  {trace trace' : List (Transition ChainState Action)} {u u' : TransactionOutput} {p : Bytes}

/-! ## What a preimage stands for -/

/-- The preimage is hashed into the key of the output, by genesis, by a transaction or by the
finalization of a block. -/
inductive Describes : Bytes → TransactionOutput → Prop
  | genesis (u : TransactionOutput) : Describes u.encode u
  | output {tx : Transaction} {i : ℕ} {p : Bytes} {u : TransactionOutput}
      (preimage : outputPreimage tx (BitVec.ofNat 64 i) = some p) (get : tx.outputs[i]? = some u) :
      Describes p u
  | reward (u : TransactionOutput) (block : BitVec 64) : Describes (rewardPreimage u block) u

/-- The index of an output of a transaction that can be encoded fits into a `u64`. -/
theorem toNat_index {tx : Transaction} {i : ℕ}
    (hpreimage : outputPreimage tx (BitVec.ofNat 64 i) = some p) (hget : tx.outputs[i]? = some u) :
    (BitVec.ofNat 64 i).toNat = i := by
  rw [outputPreimage_eq] at hpreimage
  obtain ⟨stem, hstem, -⟩ := Option.map_eq_some_iff.mp hpreimage
  have hlength := length_outputs_lt hstem
  have hi := (List.getElem?_eq_some_iff.mp hget).1
  exact Integers.toNat_ofNat_of_lt (by omega)

/-- A preimage stands for one output. -/
theorem Describes.unique (h : Describes p u) (h' : Describes p u') : u = u' := by
  -- the preimages of the three kinds are different, and those of one kind are injective
  generalize hp : p = q at h'
  cases h with
  | genesis u =>
    cases h' with
    | genesis u' => exact TransactionOutput.encode_inj hp
    | output preimage' get' => exact absurd (hp ▸ preimage') outputPreimage_ne_encode
    | reward u' block' => exact absurd hp.symm rewardPreimage_ne_encode
  | output preimage get =>
    cases h' with
    | genesis u' => exact absurd (hp ▸ preimage) outputPreimage_ne_encode
    | output preimage' get' =>
      obtain ⟨rfl, hindex⟩ := outputPreimage_inj preimage (hp ▸ preimage')
      have hnat := congrArg BitVec.toNat hindex
      rw [toNat_index preimage get, toNat_index preimage' get'] at hnat
      exact Option.some.inj (get.symm.trans (hnat ▸ get'))
    | reward u' block' => exact absurd (hp ▸ preimage) outputPreimage_ne_rewardPreimage
  | reward u block =>
    cases h' with
    | genesis u' => exact absurd hp rewardPreimage_ne_encode
    | output preimage' get' => exact absurd (hp ▸ preimage') outputPreimage_ne_rewardPreimage
    | reward u' block' => exact (rewardPreimage_inj hp).1

/-- What a step files stands for the output it is filed for. -/
theorem describes_of_mem_filedBy {t : Transition ChainState Action}
    (h : Effect cfg t.pre t.label t.post) (hfiled : (p, u) ∈ filedBy cfg t) : Describes p u := by
  obtain ⟨tx, _, _, -, hfiledBy, -, -⟩ | ⟨author, reward, -, -, hfiledBy, -, -⟩ |
    ⟨hfiledBy, -, -⟩ := h.files
  · rw [show filedBy cfg t = filed tx from hfiledBy] at hfiled
    obtain ⟨i, hget, hpreimage⟩ := mem_filed_iff.mp hfiled
    exact .output hpreimage hget
  · rw [show filedBy cfg t = _ from hfiledBy, List.mem_singleton] at hfiled
    obtain ⟨rfl, rfl⟩ := Prod.ext_iff.mp hfiled
    exact .reward _ _
  · rw [show filedBy cfg t = [] from hfiledBy] at hfiled
    exact absurd hfiled List.not_mem_nil

/-- Every output that was created in a run is under the hash of a preimage of the run that stands
for it. -/
theorem describes_of_mem_createdIn (hrun : ChainRun cfg (genesis cfg utxos) trace st) {k : H256}
    (hk : (k, u) ∈ createdIn cfg utxos trace) :
    ∃ p ∈ runPreimages cfg utxos trace, cfg.blakeTwo256 p = k ∧ Describes p u := by
  rw [createdIn, List.mem_append, List.mem_map, List.mem_flatMap] at hk
  rcases hk with ⟨u', hu', hentry⟩ | ⟨t, ht, hentry⟩
  · obtain ⟨rfl, rfl⟩ := Prod.ext_iff.mp hentry
    exact ⟨_, List.mem_append_left _ (List.mem_map_of_mem hu'), rfl, .genesis _⟩
  · obtain ⟨⟨p, u'⟩, hfiled, hentry⟩ := List.mem_map.mp hentry
    obtain ⟨rfl, rfl⟩ := Prod.ext_iff.mp hentry
    have heffect := chainStep_eq_some_iff.mp (hrun.exists_of_mem ht).1
    exact ⟨p, List.mem_append_right _ (List.mem_flatMap.mpr ⟨t, ht, List.mem_map_of_mem hfiled⟩),
      rfl, describes_of_mem_filedBy heffect hfiled⟩

/-- Every entry of the store is under the hash of a preimage of the run that stands for it. -/
theorem exists_describes (hrun : ChainRun cfg (genesis cfg utxos) trace st)
    (hinj : Set.InjOn cfg.blakeTwo256 {p | p ∈ runPreimages cfg utxos trace}) {k : H256}
    (hk : st.storage.utxoStore.lookup k = some u) :
    ∃ p ∈ runPreimages cfg utxos trace, cfg.blakeTwo256 p = k ∧ Describes p u :=
  describes_of_mem_createdIn hrun (((unspent_run hrun hinj).lookup_iff k u).mp hk).1

/-! ## Two forks -/

section Forks

variable (hrun : ChainRun cfg (genesis cfg utxos) trace st)
  (hrun' : ChainRun cfg (genesis cfg utxos') trace' st')

include hrun hrun'

/-- No two chains hold different outputs under one key, unless two of their preimages collide. -/
theorem lookup_eq_of_forks
    (hinj : Set.InjOn cfg.blakeTwo256
      {p | p ∈ runPreimages cfg utxos trace ∨ p ∈ runPreimages cfg utxos' trace'})
    {k : H256} (hk : st.storage.utxoStore.lookup k = some u)
    (hk' : st'.storage.utxoStore.lookup k = some u') : u = u' := by
  obtain ⟨p, hp, hpk, hdescribes⟩ := exists_describes hrun (hinj.mono fun _ h => Or.inl h) hk
  obtain ⟨p', hp', hpk', hdescribes'⟩ := exists_describes hrun' (hinj.mono fun _ h => Or.inr h) hk'
  obtain rfl := hinj (Or.inl hp) (Or.inr hp') (hpk.trans hpk'.symm)
  exact hdescribes.unique hdescribes'

/-- A transaction that goes through at the end of one chain goes through at the end of another one,
whatever their genesis entries are, exactly when all its outpoints are there and its fee, which is
the same on both, fits into `RewardTotal`, unless two preimages collide. -/
theorem spendOk_on_fork_iff {tx : Transaction}
    (hinj : Set.InjOn cfg.blakeTwo256 {p | p ∈ runPreimages cfg utxos trace ∨
      p ∈ runPreimages cfg utxos' trace' ∨ p ∈ (filed tx).map Prod.fst})
    (hok : spendOk cfg st.storage tx = true) :
    spendOk cfg st'.storage tx = true ↔
      (∀ k ∈ tx.outpoints, k ∈ st'.storage.utxoStore) ∧
        st'.storage.rewardTotal.toNat + creditedFee st.storage.utxoStore tx < 2 ^ 128 := by
  obtain ⟨message, stem, hspendable⟩ := spendOk_iff.mp hok
  -- the chains hold the same outputs under the outpoints, as far as they have them
  have hlookup : (∀ k ∈ tx.outpoints, k ∈ st'.storage.utxoStore) →
      ∀ k ∈ tx.outpoints,
        st'.storage.utxoStore.lookup k = st.storage.utxoStore.lookup k := by
    intro hpresent k hk
    obtain ⟨u, hu⟩ := Finmap.mem_iff.mp (hspendable.present k hk)
    obtain ⟨u', hu'⟩ := Finmap.mem_iff.mp (hpresent k hk)
    have hforks : Set.InjOn cfg.blakeTwo256
        {p | p ∈ runPreimages cfg utxos trace ∨ p ∈ runPreimages cfg utxos' trace'} := by
      refine hinj.mono ?_
      rintro p (hp | hp)
      · exact Or.inl hp
      · exact Or.inr (Or.inl hp)
    rw [hu, hu', lookup_eq_of_forks hrun hrun' hforks hu hu']
  refine ⟨?_, ?_⟩
  · intro hok'
    obtain ⟨_, _, hspendable'⟩ := spendOk_iff.mp hok'
    have hfee := hspendable'.reward_lt
    rw [creditedFee_congr (hlookup hspendable'.present)] at hfee
    exact ⟨hspendable'.present, hfee⟩
  · rintro ⟨hpresent, hfee⟩
    have hfresh : ∀ k ∈ createdKeys cfg tx, k ∉ st'.storage.utxoStore :=
      createdKeys_notMem_of_present hrun' (hinj.mono fun _ h => Or.inr h)
        hspendable.accepted.outpoints_ne hpresent
    exact spendOk_iff.mpr ⟨message, stem, hspendable.transfer (hlookup hpresent) hfresh hfee⟩

end Forks

/-- Bob's transaction goes through after the first block of the sample run, so it does after an
empty one of a chain that endows Bob alone. -/
theorem spendOk_on_fork_sample :
    let empty := replay (chainStep Sample.config) []
      ⟨genesis Sample.config [⟨50, Sample.bob⟩], false⟩ [.onInitialize 7, .onFinalize]
    spendOk Sample.config (Sample.after 4).2.storage Sample.bobSpends = true ∧
      spendOk Sample.config empty.2.storage Sample.bobSpends = true := by
  intro empty
  have hok : spendOk Sample.config (Sample.after 4).2.storage Sample.bobSpends = true := by
    decide +kernel
  have hnodup : ((runPreimages Sample.config Sample.coins (Sample.after 4).1 ++
      (filed Sample.bobSpends).map Prod.fst).map Sample.config.blakeTwo256).Nodup := by
    decide +kernel
  have hempty : runPreimages Sample.config [⟨50, Sample.bob⟩] empty.1 =
      [TransactionOutput.encode ⟨50, Sample.bob⟩] := by
    decide +kernel
  have hpresent : ∀ k ∈ Sample.bobSpends.outpoints, k ∈ empty.2.storage.utxoStore := by
    simpa using (show (Sample.bobSpends.outpoints.all
      fun k => k ∈ empty.2.storage.utxoStore) = true by decide +kernel)
  have hcarry : empty.2.storage.rewardTotal.toNat = 0 := by decide +kernel
  have hfee := creditedFee_lt (Sample.after 4).2.storage.utxoStore Sample.bobSpends
  have hroom : empty.2.storage.rewardTotal.toNat +
      creditedFee (Sample.after 4).2.storage.utxoStore Sample.bobSpends < 2 ^ 128 := by
    omega
  refine ⟨hok, (spendOk_on_fork_iff (Sample.chainRun_after 4) (Run.nil.of_replay _)
    ((injOn_of_nodup_map hnodup).mono ?_) hok).mpr ⟨hpresent, hroom⟩⟩
  rintro p (hp | hp | hp)
  · exact List.mem_append_left _ hp
  · -- the empty block files nothing, and both chains endow Bob with the same coin
    rw [hempty] at hp
    have hcoin : p ∈ Sample.coins.map TransactionOutput.encode := List.mem_cons_of_mem _ hp
    exact List.mem_append_left _ (List.mem_append_left _ hcoin)
  · exact List.mem_append_right _ hp

end PowEvm
