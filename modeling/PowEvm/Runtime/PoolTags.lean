import PowEvm.Runtime.Contract

/-!
# The tags of the transaction pool

Validation tags a transaction with the keys it waits for and the keys it brings about, and the pool
orders the transactions by these tags alone. Three loops have to agree for that: the hashes of
`validate_transaction`, the hashes of `update_storage`, and the scan of `get_missing_utxos`.

## Main results

* `createdKeys_getElem?`: both hash loops number the outputs in the same way;
* `missingOf_spentStorage`: what an executed transaction does to the outpoints another one misses;
* `tagsTrackStore`: the tags of a transaction follow the store through the execution of another one.
-/

namespace PowEvm.Utxo

variable {cfg : Config} {s s' : Storage} {a b tx : Transaction} {stem : Bytes} {u : Unit}
  {va vb vb' : ValidTransaction}

/-- The storage changed from `s` to `s'` by removing the outpoints of the transaction and inserting
its outputs in order under these keys, none of which was there. -/
structure InsertsUnder (cfg : Config) (s s' : Storage) (tx : Transaction) (keys : List H256) :
    Prop where
  length_eq : keys.length = tx.outputs.length
  key_eq : ∀ i < tx.outputs.length, keys[i]? = outputHash cfg tx (BitVec.ofNat 64 i)
  utxoStore_eq : s'.utxoStore =
    Finmap.insertAll (keys.zip tx.outputs) (Finmap.eraseAll tx.outpoints s.utxoStore)
  mem_iff : ∀ k, k ∈ keys ↔ k ∈ s'.utxoStore ∧ k ∉ s.utxoStore

/-- The tags of `a` and `b` computed before and after `a` was executed, against the store. -/
structure TagsTrackStore (cfg : Config) (s s' : Storage) (a b : Transaction)
    (va vb vb' : ValidTransaction) : Prop where
  requires_eq : vb.requires = (getMissingUtxos s.utxoStore b).map List.Vector.toList
  requires_eq' : vb'.requires = (getMissingUtxos s'.utxoStore b).map List.Vector.toList
  provides_eq : ∃ keys, va.provides = keys.map List.Vector.toList ∧ InsertsUnder cfg s s' a keys
  requires_after : vb'.requires = (b.outpoints.filter fun k =>
    (k.toList ∈ vb.requires ∧ k.toList ∉ va.provides) ∨ k ∈ a.outpoints).map List.Vector.toList

/-! ## The keys of the outputs -/

/-- The key of an output is the hash of its index. -/
theorem createdKeys_getElem? (hstem : outputStem tx = some stem) {i : ℕ}
    (hi : i < tx.outputs.length) :
    (createdKeys cfg tx)[i]? = outputHash cfg tx (BitVec.ofNat 64 i) := by
  rw [outputHash, outputPreimage_eq, hstem, createdKeys, createdEntries, hashed, filed_eq hstem,
    List.getElem?_map, List.getElem?_map, getElem?_filedFrom, List.getElem?_eq_getElem hi,
    Nat.zero_add]
  rfl

/-- The created entries are the keys next to the outputs. -/
theorem createdKeys_zip_outputs (hstem : outputStem tx = some stem) :
    (createdKeys cfg tx).zip tx.outputs = createdEntries cfg tx := by
  have houtputs : (createdEntries cfg tx).map Prod.snd = tx.outputs := by
    rw [createdEntries, hashed, filed_eq hstem, List.map_map]
    exact filedFrom_map_snd
  have hzip := List.zip_of_prod rfl houtputs
  exact hzip.symm

/-! ## The missing outpoints -/

/-- The scan for missing inputs is a filter of the outpoints. -/
theorem missingOf_eq_filter (store : UtxoStore) (tx : Transaction) :
    missingOf store tx.inputs = tx.outpoints.filter fun k => k ∉ store := by
  rw [missingOf, Transaction.outpoints, List.filter_map]
  congr 1
  apply List.filter_congr
  intro input _
  rw [Function.comp_apply, Bool.eq_iff_iff, Option.isNone_iff_eq_none, decide_eq_true_iff,
    Finmap.lookup_eq_none]

/-- After `a` was executed, what it created is not missing any more, and what it spent is. -/
theorem missingOf_spentStorage {message : Bytes} (h : Spendable cfg s a message stem) :
    missingOf (spentStorage cfg s a).utxoStore b.inputs =
      b.outpoints.filter fun k =>
        (k ∈ missingOf s.utxoStore b.inputs ∧ k ∉ createdKeys cfg a) ∨ k ∈ a.outpoints := by
  rw [missingOf_eq_filter, missingOf_eq_filter]
  apply List.filter_congr
  intro k hk
  rw [decide_eq_decide, mem_spentStorage_iff, List.mem_filter, decide_eq_true_iff]
  -- an outpoint of `a` was present, so it is no key that `a` creates
  have hspent : k ∈ a.outpoints → k ∉ createdKeys cfg a := fun hspent hmem =>
    h.accepted.fresh k hmem (h.present k hspent)
  tauto

/-! ## The tags -/

theorem mem_map_toList_iff {k : H256} {keys : List H256} :
    k.toList ∈ keys.map List.Vector.toList ↔ k ∈ keys :=
  List.mem_map_of_injective List.Vector.toList_injective

/-- A successful `spend` inserts the keys that its transaction provides. -/
theorem Spendable.insertsUnder {message : Bytes} (h : Spendable cfg s tx message stem) :
    InsertsUnder cfg s (spentStorage cfg s tx) tx (createdKeys cfg tx) where
  length_eq := (List.length_map _).trans (length_createdEntries cfg h.accepted.stem_eq)
  key_eq _ hi := createdKeys_getElem? h.accepted.stem_eq hi
  utxoStore_eq := by
    rw [createdKeys_zip_outputs h.accepted.stem_eq]
    rfl
  mem_iff k := by
    rw [mem_spentStorage_iff]
    have hfresh := h.accepted.fresh k
    tauto

/-- The tags follow the store through the execution of a transaction: what it provides is what it
inserts, and another transaction goes on to require what it required and was not provided, and what
was spent. -/
theorem tagsTrackStore (hrun : (spend cfg a).run s = .ok u s')
    (hb : validateTransaction cfg s.utxoStore b = .ok vb)
    (hb' : validateTransaction cfg s'.utxoStore b = .ok vb') :
    ∃ va, validateTransaction cfg s.utxoStore a = .ok va ∧
      TagsTrackStore cfg s s' a b va vb vb' := by
  obtain ⟨⟨message, stem, hspendable⟩, rfl⟩ := run_spend_eq_ok_iff.mp hrun
  obtain ⟨-, rfl⟩ := validateTransaction_eq_ok_iff.mp hb
  obtain ⟨-, rfl⟩ := validateTransaction_eq_ok_iff.mp hb'
  refine ⟨validTransactionOf cfg s.utxoStore a,
    validateTransaction_eq_ok_iff.mpr ⟨⟨message, stem, hspendable.accepted⟩, rfl⟩, ?_⟩
  refine ⟨rfl, rfl, ⟨createdKeys cfg a, rfl, hspendable.insertsUnder⟩, ?_⟩
  simp only [validTransactionOf, mem_map_toList_iff]
  rw [missingOf_spentStorage hspendable]

/-- Bob spends what the first transaction of the sample run creates for him, and the coin that this
transaction spends. The first is missing before it was executed, the second after it. -/
theorem tagsTrackStore_sample :
    let forwarded := h256 0xa78960980e18d536987b40446818cd9c67055de912ab530fac4a433003d1338e
    let forwards : Transaction :=
      { inputs := [⟨forwarded, Sample.signature Sample.bob 1⟩,
          ⟨Sample.aliceCoin, Sample.signature Sample.alice 1⟩]
        outputs := [⟨20, Sample.alice⟩] }
    ∃ s' va vb vb', (spend Sample.config Sample.aliceSpends).run
        (genesis Sample.config Sample.coins) = .ok () s' ∧
      vb.requires = [forwarded.toList] ∧ vb'.requires = [Sample.aliceCoin.toList] ∧
      TagsTrackStore Sample.config (genesis Sample.config Sample.coins) s' Sample.aliceSpends
        forwards va vb vb' := by
  intro forwarded forwards
  let s := genesis Sample.config Sample.coins
  let s' := spentStorage Sample.config s Sample.aliceSpends
  have hrun : (spend Sample.config Sample.aliceSpends).run s = .ok () s' :=
    run_spend_of_spendOk Sample.spendOk_aliceSpends
  have hb : validateTransaction Sample.config s.utxoStore forwards =
      .ok (validTransactionOf Sample.config s.utxoStore forwards) := by decide +kernel
  have hb' : validateTransaction Sample.config s'.utxoStore forwards =
      .ok (validTransactionOf Sample.config s'.utxoStore forwards) := by decide +kernel
  have hrequires : (validTransactionOf Sample.config s.utxoStore forwards).requires =
      [forwarded.toList] := by decide +kernel
  have hrequires' : (validTransactionOf Sample.config s'.utxoStore forwards).requires =
      [Sample.aliceCoin.toList] := by decide +kernel
  obtain ⟨va, -, htags⟩ := tagsTrackStore hrun hb hb'
  exact ⟨s', va, _, _, hrun, hrequires, hrequires', htags⟩

end PowEvm.Utxo
