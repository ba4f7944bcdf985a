import PowEvm.Runtime.Contract
import PowEvm.Runtime.Readiness

/-!
# No value is locked in

Whoever can sign for the owners of some entries of the store can collect them in one output, as long
as they are worth something together and no more than a `u128`. Nothing that happens before can take
that away but spending one of the entries.

## Main results

* `meetsRules_sweep`: collecting entries meets the rules of `spend` in every reachable state;
* `exists_spendOk_iff`: some transaction consumes just these entries exactly when their worth is in
  that range, and then they can be collected.
-/

namespace PowEvm.Utxo

variable {cfg : Config} {utxos : List TransactionOutput} {st : ChainState}
  {trace : List (Transition ChainState Action)} {keys : List H256} {sign : H256 → H512}
  {target : H256}

/-- What the entries under the keys are worth. -/
def worth (store : UtxoStore) (keys : List H256) : ℕ := (keys.map (valueOf store)).sum

/-- The transaction that collects the entries under the keys in one output. -/
def sweep (store : UtxoStore) (keys : List H256) (sign : H256 → H512) (target : H256) :
    Transaction where
  inputs := keys.map fun k => ⟨k, sign k⟩
  outputs := [⟨BitVec.ofNat 128 (worth store keys), target⟩]

/-- The signatures are accepted for the owners of the entries. -/
def SignsFor (cfg : Config) (store : UtxoStore) (keys : List H256) (sign : H256 → H512)
    (message : Bytes) : Prop :=
  ∀ k ∈ keys, ∀ utxo, store.lookup k = some utxo →
    cfg.sr25519Verify (sign k) message utxo.pubkey = true

/-- The entries under the keys are replaced by one output of their worth, without a fee. -/
structure Swept (cfg : Config) (s : Storage) (keys : List H256) (target : H256) (s' : Storage) :
    Prop where
  utxoStore_eq : ∃ k ∉ s.utxoStore, s'.utxoStore =
    (Finmap.eraseAll keys s.utxoStore).insert k ⟨BitVec.ofNat 128 (worth s.utxoStore keys), target⟩
  rewardTotal_eq : s'.rewardTotal = s.rewardTotal

theorem outpoints_sweep (store : UtxoStore) (keys : List H256) (sign : H256 → H512)
    (target : H256) : (sweep store keys sign target).outpoints = keys := by
  rw [Transaction.outpoints, sweep, List.map_map]
  exact List.map_id keys

theorem inputTotal_eq_worth (store : UtxoStore) (tx : Transaction) :
    inputTotal store tx = worth store tx.outpoints := rfl

theorem outputTotal_sweep {store : UtxoStore} (h : worth store keys < 2 ^ 128) :
    (sweep store keys sign target).outputTotal = worth store keys := by
  rw [Transaction.outputTotal, sweep, List.map_singleton, List.sum_singleton,
    Integers.toNat_ofNat_of_lt h]

/-- A transaction that goes through consumes entries that are worth something together. -/
theorem worth_of_spendOk {s : Storage} {tx : Transaction} (h : spendOk cfg s tx = true) :
    0 < worth s.utxoStore tx.outpoints ∧ worth s.utxoStore tx.outpoints < 2 ^ 128 := by
  obtain ⟨message, stem, hspendable⟩ := spendOk_iff.mp h
  have haccepted := hspendable.accepted
  have hbalanced := haccepted.balanced (missingOf_eq_nil_iff.mpr hspendable.present)
  rw [inputTotal_eq_worth] at hbalanced
  refine ⟨?_, haccepted.input_lt⟩
  -- some output has to be paid for
  obtain ⟨output, houtput⟩ := List.exists_mem_of_ne_nil _ haccepted.outputs_ne
  have hpositive : 0 < output.value.toNat := haccepted.positive output houtput
  have hle : output.value.toNat ≤ tx.outputTotal :=
    List.single_le_sum (fun _ _ => Nat.zero_le _) _ (List.mem_map_of_mem houtput)
  omega

/-- Collecting entries meets the rules in every reachable state. -/
theorem meetsRules_sweep (hrun : ChainRun cfg (genesis cfg utxos) trace st)
    (hne : keys ≠ []) (hnodup : keys.Nodup) (hpresent : ∀ k ∈ keys, k ∈ st.storage.utxoStore)
    (hsign : ∀ message,
      getSimpleTransaction (sweep st.storage.utxoStore keys sign target) = some message →
        SignsFor cfg st.storage.utxoStore keys sign message)
    (hinj : Set.InjOn cfg.blakeTwo256 {p | p ∈ runPreimages cfg utxos trace ∨
      p ∈ (filed (sweep st.storage.utxoStore keys sign target)).map Prod.fst})
    (hpos : 0 < worth st.storage.utxoStore keys)
    (hlt : worth st.storage.utxoStore keys < 2 ^ 128) :
    MeetsRules cfg st.storage (sweep st.storage.utxoStore keys sign target) := by
  have houtpoints := outpoints_sweep st.storage.utxoStore keys sign target
  have houtput : (sweep st.storage.utxoStore keys sign target).outputTotal =
      worth st.storage.utxoStore keys := outputTotal_sweep hlt
  have hinput : inputTotal st.storage.utxoStore (sweep st.storage.utxoStore keys sign target) =
      worth st.storage.utxoStore keys := by
    rw [inputTotal_eq_worth, houtpoints]
  have hfresh := createdKeys_notMem_of_present hrun hinj (by rw [houtpoints]; exact hne)
    (by rw [houtpoints]; exact hpresent)
  refine
    { inputs_ne := by simpa [sweep] using hne
      outputs_ne := List.cons_ne_nil _ _
      outpoints_nodup := by rw [houtpoints]; exact hnodup
      present := by rw [houtpoints]; exact hpresent
      outputs_nodup := List.nodup_singleton _
      positive := ?_
      signed := ?_
      input_lt := by rw [hinput]; exact hlt
      output_lt := by rw [houtput]; exact hlt
      balanced := by rw [hinput, houtput]
      fresh := fun i hi k hk => hfresh k (mem_createdKeys_iff.mpr ⟨i, hi, hk⟩)
      reward_lt := ?_ }
  · intro output hmem
    obtain rfl := List.mem_singleton.mp hmem
    rw [BitVec.lt_def, Integers.toNat_ofNat_of_lt hlt]
    exact hpos
  · intro message hmessage input hmem utxo hutxo
    obtain ⟨k, hk, rfl⟩ := List.mem_map.mp hmem
    exact hsign message hmessage k hk utxo hutxo
  · rw [hinput, houtput, Nat.sub_self, Nat.add_zero]
    exact st.storage.rewardTotal.isLt

/-- Collecting entries replaces them by one, and pays no fee. -/
theorem swept_of_spendable {s : Storage} {message stem : Bytes}
    (h : Spendable cfg s (sweep s.utxoStore keys sign target) message stem) :
    Swept cfg s keys target (spentStorage cfg s (sweep s.utxoStore keys sign target)) := by
  have houtpoints := outpoints_sweep s.utxoStore keys sign target
  have hentries : createdEntries cfg (sweep s.utxoStore keys sign target) =
      [(keyAt cfg stem 0, ⟨BitVec.ofNat 128 (worth s.utxoStore keys), target⟩)] :=
    createdEntries_eq h.accepted.stem_eq
  refine ⟨⟨keyAt cfg stem 0, ?_, ?_⟩, ?_⟩
  · refine h.accepted.fresh _ ?_
    rw [createdKeys, hentries]
    exact List.mem_cons_self
  · rw [spentStorage, hentries, houtpoints]
    rfl
  · have hlt := h.accepted.input_lt
    rw [inputTotal_eq_worth, houtpoints] at hlt
    have hfee : creditedFee s.utxoStore (sweep s.utxoStore keys sign target) = 0 := by
      rw [creditedFee, inputTotal_eq_worth, houtpoints, outputTotal_sweep hlt, Nat.sub_self,
        Nat.zero_mod]
    rw [spentStorage, hfee, Nat.add_zero, BitVec.ofNat_toNat, BitVec.setWidth_eq]

/-- In every reachable state, for all entries of different keys and signatures for their owners,
some transaction consumes just these entries exactly when their worth is positive and fits into a
`u128`. Then they can be collected without a fee, unless a hash has a collision. -/
theorem exists_spendOk_iff (hrun : ChainRun cfg (genesis cfg utxos) trace st)
    (hne : keys ≠ []) (hnodup : keys.Nodup) (hpresent : ∀ k ∈ keys, k ∈ st.storage.utxoStore)
    (hreceived : Received (sweep st.storage.utxoStore keys sign target))
    (hsign : ∀ message,
      getSimpleTransaction (sweep st.storage.utxoStore keys sign target) = some message →
        SignsFor cfg st.storage.utxoStore keys sign message)
    (hinj : Set.InjOn cfg.blakeTwo256 {p | p ∈ runPreimages cfg utxos trace ∨
      p ∈ (filed (sweep st.storage.utxoStore keys sign target)).map Prod.fst}) :
    ((∃ tx, tx.outpoints = keys ∧ spendOk cfg st.storage tx = true) ↔
        0 < worth st.storage.utxoStore keys ∧ worth st.storage.utxoStore keys < 2 ^ 128) ∧
      (0 < worth st.storage.utxoStore keys → worth st.storage.utxoStore keys < 2 ^ 128 →
        ∃ s', (spend cfg (sweep st.storage.utxoStore keys sign target)).run st.storage = .ok () s' ∧
          Swept cfg st.storage keys target s') := by
  have hspendable : 0 < worth st.storage.utxoStore keys →
      worth st.storage.utxoStore keys < 2 ^ 128 → ∃ message stem,
        Spendable cfg st.storage (sweep st.storage.utxoStore keys sign target) message stem :=
    fun hpos hlt =>
      (meetsRules_sweep hrun hne hnodup hpresent hsign hinj hpos hlt).spendable hreceived
  refine ⟨⟨?_, ?_⟩, ?_⟩
  · rintro ⟨tx, rfl, hok⟩
    exact worth_of_spendOk hok
  · rintro ⟨hpos, hlt⟩
    exact ⟨_, outpoints_sweep _ _ _ _, spendOk_iff.mpr (hspendable hpos hlt)⟩
  · intro hpos hlt
    obtain ⟨message, stem, h⟩ := hspendable hpos hlt
    exact ⟨_, run_spend_eq_ok_iff.mpr ⟨⟨message, stem, h⟩, rfl⟩, swept_of_spendable h⟩

/-! ## Two coins in one -/

namespace Swept.Sample

open PowEvm.Sample

def signatures (k : H256) : H512 := if k = aliceCoin then signature alice 1 else signature bob 1

/-- The digests of the coins and of the output that collects them. -/
def digests : List (Option Bytes × H256) :=
  [(some (TransactionOutput.encode ⟨100, alice⟩), aliceCoin),
    (some (TransactionOutput.encode ⟨50, bob⟩), bobCoin),
    (outputPreimage ⟨[⟨aliceCoin, signature alice 1⟩, ⟨bobCoin, signature bob 1⟩],
        [⟨150, miner⟩]⟩ 0,
      h256 0x9934ca4623784f5243f8c8ab6345e1d224fde3cd67893f4f9e0cc3733351a930)]

def config : Config :=
  Issuance.runtimeConfig (fun bytes => (digests.lookup (some bytes)).getD (h256 0))
    (fun signature _ key => signature.toList.take 32 = key.toList) false

/-- The storage at genesis. -/
def initial : Storage := genesis config coins

theorem lookup_aliceCoin : initial.utxoStore.lookup aliceCoin = some ⟨100, alice⟩ := by
  decide +kernel

theorem lookup_bobCoin : initial.utxoStore.lookup bobCoin = some ⟨50, bob⟩ := by
  decide +kernel

end Swept.Sample

/-- Both coins of genesis are collected for the miner. -/
theorem exists_spendOk_sample :
    ∃ s', (spend Swept.Sample.config (sweep Swept.Sample.initial.utxoStore
        [Sample.aliceCoin, Sample.bobCoin] Swept.Sample.signatures Sample.miner)).run
          Swept.Sample.initial = .ok () s' ∧
      Swept Swept.Sample.config Swept.Sample.initial [Sample.aliceCoin, Sample.bobCoin]
        Sample.miner s' := by
  have halice := Swept.Sample.lookup_aliceCoin
  have hbob := Swept.Sample.lookup_bobCoin
  have hpresent : ∀ k ∈ [Sample.aliceCoin, Sample.bobCoin],
      k ∈ Swept.Sample.initial.utxoStore := by
    intro k hk
    rcases List.mem_pair.mp hk with rfl | rfl
    · exact Finmap.mem_of_lookup_eq_some halice
    · exact Finmap.mem_of_lookup_eq_some hbob
  have hreceived : Received (sweep Swept.Sample.initial.utxoStore
      [Sample.aliceCoin, Sample.bobCoin] Swept.Sample.signatures Sample.miner) := by
    have hlength : (Transaction.encode (sweep Swept.Sample.initial.utxoStore
        [Sample.aliceCoin, Sample.bobCoin] Swept.Sample.signatures Sample.miner)).map
          List.length = some 242 := by
      decide +kernel
    obtain ⟨bytes, hbytes, hlength⟩ := Option.map_eq_some_iff.mp hlength
    exact received_iff.mpr ⟨bytes, hbytes, by omega⟩
  have hsign (message : Bytes) : SignsFor Swept.Sample.config Swept.Sample.initial.utxoStore
      [Sample.aliceCoin, Sample.bobCoin] Swept.Sample.signatures message := by
    -- the message does not enter into the check
    intro k hk utxo hutxo
    change decide ((Swept.Sample.signatures k).toList.take 32 = utxo.pubkey.toList) = true
    rcases List.mem_pair.mp hk with rfl | rfl
    · obtain rfl := Option.some.inj (hutxo.symm.trans halice)
      decide +kernel
    · obtain rfl := Option.some.inj (hutxo.symm.trans hbob)
      decide +kernel
  have hworth : worth Swept.Sample.initial.utxoStore [Sample.aliceCoin, Sample.bobCoin] = 150 := by
    decide +kernel
  have hnodup : ((runPreimages Swept.Sample.config Sample.coins [] ++
      (filed (sweep Swept.Sample.initial.utxoStore [Sample.aliceCoin, Sample.bobCoin]
        Swept.Sample.signatures Sample.miner)).map Prod.fst).map
          Swept.Sample.config.blakeTwo256).Nodup := by
    decide +kernel
  have hrun : ChainRun Swept.Sample.config (genesis Swept.Sample.config Sample.coins) []
      ⟨Swept.Sample.initial, false⟩ := .nil
  have hinj := (injOn_of_nodup_map hnodup).mono fun p hp => List.mem_append.mpr hp
  exact (exists_spendOk_iff hrun (by simp) (by decide +kernel) hpresent hreceived
    (fun message _ => hsign message) hinj).2 (by rw [hworth]; norm_num) (by rw [hworth]; norm_num)

end PowEvm.Utxo
