import PowEvm.Runtime.Replay

/-!
# Ownership

An entry of the UTXO store leaves it only through a successful `spend` with a signature of its
owner, and is never changed before. Insertions could change it only by hitting its key, which the
ledger of the run rules out.

## Main results

* `lookup_eq_of_notMem`: what a step neither spends nor files stays as it is;
* `kept_or_claimed`: in every reachable state, a step keeps an entry or was signed for by its owner.
-/

namespace PowEvm

open Utxo

variable {cfg : Config} {utxos : List TransactionOutput} {st st' : ChainState}
  {trace : List (Transition ChainState Action)} {action : Action} {k : H256}

/-- The frame of a step. -/
theorem lookup_eq_of_notMem (h : Effect cfg st action st')
    (hspent : k ∉ spentBy cfg ⟨st, action, st'⟩) (hkeys : k ∉ insertedKeys cfg ⟨st, action, st'⟩) :
    st'.storage.utxoStore.lookup k = st.storage.utxoStore.lookup k := by
  rw [h.utxoStore_eq, Finmap.lookup_insertAll_of_notMem hkeys, Finmap.lookup_eraseAll,
    if_neg hspent]

/-- What a step spends and does not file again is gone. -/
theorem notMem_of_mem_spentBy (h : Effect cfg st action st')
    (hspent : k ∈ spentBy cfg ⟨st, action, st'⟩) (hkeys : k ∉ insertedKeys cfg ⟨st, action, st'⟩) :
    k ∉ st'.storage.utxoStore := by
  rw [h.utxoStore_eq, Finmap.mem_insertAll, Finmap.mem_eraseAll]
  rintro (⟨-, hnot⟩ | hmem)
  · exact hnot hspent
  · exact hkeys hmem

/-- Only a successful `spend` spends, and only the outpoints of its transaction. -/
theorem spend_of_mem_spentBy (h : k ∈ spentBy cfg ⟨st, action, st'⟩) :
    ∃ origin tx, action = .call origin (.spend tx) ∧ spendOk cfg st.storage tx = true ∧
      k ∈ tx.outpoints := by
  cases action with
  | onInitialize number => exact absurd h List.not_mem_nil
  | onFinalize => exact absurd h List.not_mem_nil
  | call origin call =>
    cases call with
    | setAuthor author => exact absurd h List.not_mem_nil
    | spend tx =>
      change k ∈ if spendOk cfg st.storage tx = true then tx.outpoints else [] at h
      split_ifs at h with hok
      · exact ⟨origin, tx, rfl, hok, h⟩
      · exact absurd h List.not_mem_nil

/-- Without a collision among the preimages of a run and of the step after it, the step leaves an
entry as it is, or it is a successful `spend` that removes the entry with a signature of its
owner. -/
theorem kept_or_claimed (hrun : ChainRun cfg (genesis cfg utxos) trace st)
    (hstep : chainStep cfg st action = some st')
    (hinj : Set.InjOn cfg.blakeTwo256
      {p | p ∈ runPreimages cfg utxos (trace ++ [⟨st, action, st'⟩])})
    {o : TransactionOutput} (hk : st.storage.utxoStore.lookup k = some o) :
    st'.storage.utxoStore.lookup k = some o ∨
      ∃ origin tx message, action = .call origin (.spend tx) ∧
        (spend cfg tx).run st.storage = .ok () st'.storage ∧ k ∉ st'.storage.utxoStore ∧
        getSimpleTransaction tx = some message ∧
        ∃ input ∈ tx.inputs, input.outpoint = k ∧
          cfg.sr25519Verify input.sigscript message o.pubkey = true := by
  have heffect := chainStep_eq_some_iff.mp hstep
  have hconsistent := (consistent_of_injOn hrun (hinj.mono (runPreimages_subset _))).1
  -- `k` is in the store, so the step does not insert it
  have hkeys : k ∉ insertedKeys cfg ⟨st, action, st'⟩ := fun hmem =>
    hconsistent.key_notMem_store hinj heffect hmem (Finmap.mem_of_lookup_eq_some hk)
  by_cases hspent : k ∈ spentBy cfg ⟨st, action, st'⟩
  · apply Or.inr
    obtain ⟨origin, tx, rfl, hok, hmem⟩ := spend_of_mem_spentBy hspent
    obtain ⟨message, stem, hspendable⟩ := spendOk_iff.mp hok
    obtain ⟨input, hinput, rfl⟩ := List.mem_map.mp hmem
    have hsuccess := heffect.run_spend hok
    exact ⟨origin, tx, message, rfl, hsuccess, notMem_of_mem_spentBy heffect hspent hkeys,
      hspendable.accepted.simple, input, hinput, rfl, hspendable.accepted.signed input hinput o hk⟩
  · apply Or.inl
    rw [lookup_eq_of_notMem heffect hspent hkeys, hk]

/-- The third step of the sample run spends a coin. -/
theorem kept_or_claimed_sample :
    ((Sample.after 3).2.storage.utxoStore.lookup Sample.aliceCoin = some ⟨100, Sample.alice⟩ ∨
      ∃ origin tx message,
        Action.call .root (.spend Sample.aliceSpends) = .call origin (.spend tx) ∧
        (spend Sample.config tx).run (Sample.after 2).2.storage =
          .ok () (Sample.after 3).2.storage ∧
        Sample.aliceCoin ∉ (Sample.after 3).2.storage.utxoStore ∧
        getSimpleTransaction tx = some message ∧
        ∃ input ∈ tx.inputs, input.outpoint = Sample.aliceCoin ∧
          Sample.config.sr25519Verify input.sigscript message Sample.alice = true) :=
  kept_or_claimed (Sample.chainRun_after 2) (by decide +kernel)
    (injOn_of_nodup_map (by decide +kernel)) (o := ⟨100, Sample.alice⟩) (by decide +kernel)

end PowEvm
