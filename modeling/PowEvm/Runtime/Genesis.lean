import PowEvm.Runtime.Filings

/-!
# The endowment of genesis

The genesis builder files every configured output under the hash of its encoding. Nothing else goes
into the key, neither an index nor a block number, so an output that is listed twice is filed once.

## Main results

* `genesisUtxos_dedup`: the store is the one built from the different outputs of the list;
* `endowsAll_iff`: every listed output is endowed exactly when none is listed twice.
-/

namespace PowEvm

open Utxo

variable {cfg : Config} {utxos : List TransactionOutput}

/-- Genesis endows every listed output: as many entries as outputs, worth what these are worth
together, and an entry of its own for each of them. -/
structure EndowsAll (cfg : Config) (utxos : List TransactionOutput) : Prop where
  entries : (genesis cfg utxos).utxoStore.keys.card = utxos.length
  total : (genesis cfg utxos).utxoTotal = (utxos.map fun u => u.value.toNat).sum
  own_entry : ∃ key : Fin utxos.length → H256, Function.Injective key ∧
    ∀ i, (genesis cfg utxos).utxoStore.lookup (key i) = some (utxos.get i)

/-- The entry the builder makes of an output. -/
def genesisEntry (cfg : Config) (u : TransactionOutput) : H256 × TransactionOutput :=
  (cfg.blakeTwo256 u.encode, u)

theorem genesisUtxos_eq :
    genesisUtxos cfg utxos = Finmap.insertAll (utxos.map (genesisEntry cfg)) ∅ := rfl

theorem genesisEntry_injective (cfg : Config) : Function.Injective (genesisEntry cfg) :=
  fun _ _ h => (Prod.mk.inj h).2

section NoCollision

variable (hinj : Set.InjOn cfg.blakeTwo256 {p | p ∈ utxos.map TransactionOutput.encode})

include hinj

/-- Without a collision the key of an entry determines it. -/
theorem injOn_genesisEntry : Set.InjOn Prod.fst {e | e ∈ utxos.map (genesisEntry cfg)} := by
  intro e he e' he' heq
  obtain ⟨u, hu, rfl⟩ := List.mem_map.mp he
  obtain ⟨u', hu', rfl⟩ := List.mem_map.mp he'
  have hencode := hinj (List.mem_map_of_mem hu) (List.mem_map_of_mem hu') heq
  rw [TransactionOutput.encode_inj hencode]

/-- Genesis forgets how often an output is listed. -/
theorem genesisUtxos_dedup : genesisUtxos cfg utxos = genesisUtxos cfg utxos.dedup := by
  rw [genesisUtxos_eq, genesisUtxos_eq, ← List.dedup_map_of_injective (genesisEntry_injective cfg),
    Finmap.insertAll_dedup (injOn_genesisEntry hinj)]

/-- Different outputs get different keys. -/
theorem nodup_genesisKeys : ((utxos.dedup.map (genesisEntry cfg)).map Prod.fst).Nodup := by
  have hentries := (List.nodup_dedup utxos).map (genesisEntry_injective cfg)
  apply hentries.map_on
  rw [← List.dedup_map_of_injective (genesisEntry_injective cfg)]
  intro e he e' he' heq
  exact injOn_genesisEntry hinj (List.mem_dedup.mp he) (List.mem_dedup.mp he') heq

/-- There are as many entries as different outputs. -/
theorem card_genesisUtxos : (genesisUtxos cfg utxos).keys.card = utxos.dedup.length := by
  rw [genesisUtxos_dedup hinj, genesisUtxos_eq, Finmap.keys_insertAll, Finmap.keys_empty,
    Finset.empty_union, List.toFinset_card_of_nodup (nodup_genesisKeys hinj), List.length_map,
    List.length_map]

/-- The entries are worth what the different outputs are worth together. -/
theorem utxoTotal_genesis :
    (genesis cfg utxos).utxoTotal = (utxos.dedup.map fun u => u.value.toNat).sum := by
  change (genesisUtxos cfg utxos).total (fun u => u.value.toNat) = _
  rw [genesisUtxos_dedup hinj, genesisUtxos_eq,
    Finmap.total_insertAll (nodup_genesisKeys hinj) (fun _ _ => Finmap.notMem_empty),
    Finmap.total_empty, Nat.zero_add, List.map_map]
  rfl

/-- Every listed output is found under its key. -/
theorem lookup_genesis {u : TransactionOutput} (hu : u ∈ utxos) :
    (genesis cfg utxos).utxoStore.lookup (cfg.blakeTwo256 u.encode) = some u :=
  Finmap.lookup_insertAll_of_injOn (injOn_genesisEntry hinj) (List.mem_map_of_mem hu)

end NoCollision

/-- Without a collision genesis endows every listed output exactly when none is listed twice. -/
theorem endowsAll_iff
    (hinj : Set.InjOn cfg.blakeTwo256 {p | p ∈ utxos.map TransactionOutput.encode}) :
    EndowsAll cfg utxos ↔ utxos.Nodup := by
  refine ⟨?_, ?_⟩
  · intro h
    -- as many different outputs as listed ones leave no room for a repetition
    have hlength : utxos.dedup.length = utxos.length :=
      (card_genesisUtxos hinj).symm.trans h.entries
    have hdedup := (List.dedup_sublist utxos).eq_of_length hlength
    exact hdedup ▸ List.nodup_dedup utxos
  · intro hnodup
    have hdedup := hnodup.dedup
    refine ⟨?_, ?_, ?_⟩
    · exact (card_genesisUtxos hinj).trans (congrArg List.length hdedup)
    · rw [utxoTotal_genesis hinj, hdedup]
    · refine ⟨fun i => cfg.blakeTwo256 (utxos.get i).encode, ?_, ?_⟩
      · intro i j hij
        have hencode := hinj (List.mem_map_of_mem (utxos.get_mem i))
          (List.mem_map_of_mem (utxos.get_mem j)) hij
        exact hnodup.injective_get (TransactionOutput.encode_inj hencode)
      · intro i
        exact lookup_genesis hinj (utxos.get_mem i)

theorem endowsAll_iff_sample : EndowsAll Sample.config Sample.coins :=
  have hnodup :
      ((Sample.coins.map TransactionOutput.encode).map Sample.config.blakeTwo256).Nodup := by
    decide +kernel
  (endowsAll_iff (injOn_of_nodup_map hnodup)).mpr (by decide +kernel)

/-- A genesis that lists the coin of one owner twice: one entry, worth one of the two coins. -/
theorem repeated_coin_lost :
    Set.InjOn Sample.config.blakeTwo256
        {p | p ∈ [⟨100, Sample.alice⟩, ⟨100, Sample.alice⟩].map TransactionOutput.encode} ∧
      (genesis Sample.config [⟨100, Sample.alice⟩, ⟨100, Sample.alice⟩]).utxoStore.keys.card = 1 ∧
      (genesis Sample.config [⟨100, Sample.alice⟩, ⟨100, Sample.alice⟩]).utxoTotal = 100 ∧
      ¬ EndowsAll Sample.config [⟨100, Sample.alice⟩, ⟨100, Sample.alice⟩] := by
  have hcard : (genesis Sample.config
      [⟨100, Sample.alice⟩, ⟨100, Sample.alice⟩]).utxoStore.keys.card = 1 := by decide +kernel
  refine ⟨by simp, hcard, by decide +kernel, ?_⟩
  intro h
  exact absurd (hcard.symm.trans h.entries) (by decide)

end PowEvm
