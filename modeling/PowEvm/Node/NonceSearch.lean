import PowEvm.Library.CyclicSearch
import PowEvm.Node.Mining

/-!
# The search for a nonce

The iterations of the mining loop while the worker keeps returning one metadata. The loop is a
search through the residues modulo `2 ^ 256 - 1`: the greatest nonce is the one it never tries.

## Main results

* `nonce_lt`: the greatest nonce is never reached;
* `run_iterations`: the iterations with one metadata are iterations of the loop;
* `nonceSearch_exhaustive`: the search goes through all other nonces without trying one twice, and
  submits the first one that meets the difficulty.
-/

namespace PowEvm.Mining

open Sha3Pow Integers CyclicSearch

variable {sha3 : Bytes → H256} {miner : Miner} {metadata : MiningMetadata} {nonce : U256}

/-- The seal of the nonce meets the difficulty. -/
def Meets (sha3 : Bytes → H256) (metadata : MiningMetadata) (nonce : U256) : Prop :=
  hashMeetsDifficulty (sealOf sha3 nonce metadata).work metadata.difficulty = true

instance : Decidable (Meets sha3 metadata nonce) := inferInstanceAs (Decidable (_ = true))

/-- The loop after `k` more iterations, all of them with the same metadata. -/
def iterations (sha3 : Bytes → H256) (metadata : MiningMetadata) (k : ℕ) (miner : Miner) : Miner :=
  (fun miner => mine sha3 miner (some metadata))^[k] miner

/-! ## The next nonce -/

/-- The value of the next nonce, before and at the wrap. -/
theorem toNat_nextNonce (nonce : U256) :
    (nextNonce nonce).toNat = if nonce.toNat + 1 < 2 ^ 256 - 1 then nonce.toNat + 1 else 0 := by
  have hmax : (BitVec.allOnes 256).toNat = 2 ^ 256 - 1 := BitVec.toNat_allOnes
  rw [nextNonce, saturatingAdd, show (1 : U256).toNat = 1 from rfl]
  by_cases hroom : nonce.toNat + 1 < 2 ^ 256
  · have hsum : (nonce + 1).toNat = nonce.toNat + 1 := BitVec.toNat_add_of_lt hroom
    rw [if_pos hroom]
    by_cases hlast : nonce + 1 = BitVec.allOnes 256
    · -- the greatest number is replaced by zero
      have hend : nonce.toNat + 1 = 2 ^ 256 - 1 := by rw [← hsum, hlast, hmax]
      rw [if_pos hlast, if_neg (by omega)]
      rfl
    · have hne : (nonce + 1).toNat ≠ 2 ^ 256 - 1 := fun heq =>
        hlast (BitVec.toNat_inj.mp (heq.trans hmax.symm))
      rw [if_neg hlast, if_pos (by omega), hsum]
  · -- the sum saturates, and is replaced as well
    rw [if_neg hroom, if_pos rfl, if_neg (by omega)]
    rfl

theorem toNat_zero_lt : (0 : U256).toNat < 2 ^ 256 - 1 := by decide

theorem nextNonce_lt (nonce : U256) : (nextNonce nonce).toNat < 2 ^ 256 - 1 := by
  rw [toNat_nextNonce]
  split_ifs with h
  · exact h
  · norm_num

/-- Below the greatest nonce the next one follows in the cycle. -/
theorem nextNonce_mod (h : nonce.toNat < 2 ^ 256 - 1) :
    (nextNonce nonce).toNat = (nonce.toNat + 1) % (2 ^ 256 - 1) := by
  rw [toNat_nextNonce]
  split_ifs with hlt
  · rw [Nat.mod_eq_of_lt hlt]
  · rw [show nonce.toNat + 1 = 2 ^ 256 - 1 by omega, Nat.mod_self]

/-- No run reaches the greatest nonce. -/
theorem nonce_lt {trace : List (Transition Miner (Option MiningMetadata))}
    (hrun : MiningRun sha3 0 trace miner) : miner.nonce.toNat < 2 ^ 256 - 1 := by
  refine hrun.history_induct (motive := fun _ miner => miner.nonce.toNat < 2 ^ 256 - 1)
    toNat_zero_lt ?_
  intro _ miner label miner' _ ih hstep
  obtain rfl := Option.some.inj hstep
  cases label with
  | none => exact ih
  | some m =>
    by_cases hmeets : Meets sha3 m miner.nonce
    · rw [mine_of_meets hmeets]
      exact toNat_zero_lt
    · rw [mine_of_misses hmeets]
      exact nextNonce_lt _

/-! ## The search -/

theorem meets_ofNat_toNat : Meets sha3 metadata (BitVec.ofNat 256 nonce.toNat) ↔
    Meets sha3 metadata nonce := by
  rw [BitVec.ofNat_toNat, BitVec.setWidth_eq]

/-- The loop is a search of the cycle of nonces. -/
theorem mine_advances : Advances (2 ^ 256 - 1) (fun miner => mine sha3 miner (some metadata))
    (fun miner => miner.nonce.toNat) (fun n => Meets sha3 metadata (BitVec.ofNat 256 n)) := by
  intro miner hlt hmiss
  dsimp only at hmiss ⊢
  rw [meets_ofNat_toNat] at hmiss
  rw [mine_of_misses hmiss]
  exact nextNonce_mod hlt

/-- The misses of the search are iterations whose seals do not meet the difficulty. -/
theorem misses_iff {k : ℕ} :
    Misses (fun miner => mine sha3 miner (some metadata)) (fun miner => miner.nonce.toNat)
        (fun n => Meets sha3 metadata (BitVec.ofNat 256 n)) miner k ↔
      ∀ j < k, ¬ Meets sha3 metadata (iterations sha3 metadata j miner).nonce := by
  simp only [Misses, meets_ofNat_toNat, iterations]

/-- The iterations that miss submit nothing. -/
theorem submitted_iterations {k : ℕ}
    (hmiss : ∀ j < k, ¬ Meets sha3 metadata (iterations sha3 metadata j miner).nonce) :
    (iterations sha3 metadata k miner).submitted = miner.submitted := by
  refine Misses.frame (f := Miner.submitted) ?_ (misses_iff.mpr hmiss)
  intro s hs
  rw [meets_ofNat_toNat] at hs
  rw [mine_of_misses hs]

/-- After `k` misses the loop tries the nonce `k` places after the one it started from. -/
theorem nonce_iterations (hlt : miner.nonce.toNat < 2 ^ 256 - 1) {k : ℕ}
    (hmiss : ∀ j < k, ¬ Meets sha3 metadata (iterations sha3 metadata j miner).nonce) :
    (iterations sha3 metadata k miner).nonce.toNat =
      (miner.nonce.toNat + k) % (2 ^ 256 - 1) :=
  mine_advances.position_iterate hlt (misses_iff.mpr hmiss)

/-- More iterations with one metadata continue a run. -/
theorem run_iterations {start : U256} {trace : List (Transition Miner (Option MiningMetadata))}
    (hrun : MiningRun sha3 start trace miner) (metadata : MiningMetadata) (k : ℕ) :
    ∃ trace', (∀ t ∈ trace', t.label = some metadata) ∧ trace'.length = k ∧
      MiningRun sha3 start (trace ++ trace') (iterations sha3 metadata k miner) := by
  induction k with
  | zero => exact ⟨[], by simp, rfl, by rwa [List.append_nil]⟩
  | succ k ih =>
    obtain ⟨trace', hlabels, hlength, hrun'⟩ := ih
    refine ⟨trace' ++ [⟨iterations sha3 metadata k miner, some metadata,
      iterations sha3 metadata (k + 1) miner⟩], ?_, by simp [hlength], ?_⟩
    · intro t ht
      rcases List.mem_append.mp ht with ht | ht
      · exact hlabels t ht
      · rw [List.mem_singleton.mp ht]
    · rw [← List.append_assoc]
      refine hrun'.snoc ?_
      rw [iterations, iterations, Function.iterate_succ_apply']

/-- An iteration whose seal meets the difficulty submits it. -/
theorem iterations_succ_of_meets {k : ℕ}
    (hmeets : Meets sha3 metadata (iterations sha3 metadata k miner).nonce) :
    iterations sha3 metadata (k + 1) miner =
      ⟨0, (iterations sha3 metadata k miner).submitted ++
        [(metadata, (sealOf sha3 (iterations sha3 metadata k miner).nonce metadata).encode)]⟩ := by
  rw [iterations, Function.iterate_succ_apply']
  exact mine_of_meets hmeets

/-- From every state the loop reaches, for as long as the worker returns one metadata: after `k`
misses the nonce is the one `k` places further in the cycle, within one turn of misses no nonce is
tried twice, and if a nonce of the cycle meets the difficulty the loop submits the first one that
does. -/
theorem nonceSearch_exhaustive {trace : List (Transition Miner (Option MiningMetadata))}
    (hrun : MiningRun sha3 0 trace miner) (metadata : MiningMetadata) :
    (∀ k, (∀ j < k, ¬ Meets sha3 metadata (iterations sha3 metadata j miner).nonce) →
      (iterations sha3 metadata k miner).nonce.toNat =
          (miner.nonce.toNat + k) % (2 ^ 256 - 1) ∧
        (iterations sha3 metadata k miner).submitted = miner.submitted) ∧
    (∀ i j, i < j → j < 2 ^ 256 - 1 →
      (∀ l < j, ¬ Meets sha3 metadata (iterations sha3 metadata l miner).nonce) →
        (iterations sha3 metadata i miner).nonce ≠ (iterations sha3 metadata j miner).nonce) ∧
    ((∃ nonce : U256, nonce.toNat < 2 ^ 256 - 1 ∧ Meets sha3 metadata nonce) →
      ∃ k nonce, k < 2 ^ 256 - 1 ∧
        nonce.toNat = (miner.nonce.toNat + k) % (2 ^ 256 - 1) ∧ Meets sha3 metadata nonce ∧
        (∀ j < k, ∀ earlier : U256,
          earlier.toNat = (miner.nonce.toNat + j) % (2 ^ 256 - 1) →
            ¬ Meets sha3 metadata earlier) ∧
        iterations sha3 metadata k miner = ⟨nonce, miner.submitted⟩ ∧
        iterations sha3 metadata (k + 1) miner =
          ⟨0, miner.submitted ++ [(metadata, (sealOf sha3 nonce metadata).encode)]⟩) := by
  have hlt := nonce_lt hrun
  refine ⟨?_, ?_, ?_⟩
  · intro k hmiss
    exact ⟨nonce_iterations hlt hmiss, submitted_iterations hmiss⟩
  · intro i j hij hj hmiss heq
    exact mine_advances.position_ne hlt hij hj (misses_iff.mpr hmiss) (congrArg BitVec.toNat heq)
  · rintro ⟨nonce, hnonce, hmeets⟩
    obtain ⟨k, hk, hmisses, hhit⟩ := mine_advances.exists_first_hit hlt
      ⟨nonce.toNat, hnonce, meets_ofNat_toNat.mpr hmeets⟩
    have hmeets := meets_ofNat_toNat.mp hhit
    have hmiss := misses_iff.mp hmisses
    have hsubmitted := submitted_iterations hmiss
    refine ⟨k, _, hk, nonce_iterations hlt hmiss, hmeets, ?_, ?_, ?_⟩
    · intro j hj earlier hearlier
      rw [← meets_ofNat_toNat, hearlier]
      exact (mine_advances.misses_iff hlt).mp hmisses j hj
    · rw [← hsubmitted]
    · rw [iterations_succ_of_meets hmeets, hsubmitted]

/-- The digests of the first two attempts at difficulty `5` on the sample header. -/
def searchSha3 (bytes : Bytes) : H256 :=
  if bytes = Compute.encode ⟨5, sampleHeader, 0⟩ then
    h256 0xc46b397436544dc8fe7405d68d5699cab3a1c0c3e3401fcb866650fc7c60f48e
  else if bytes = Compute.encode ⟨5, sampleHeader, 1⟩ then
    h256 0x152e38f2186c810cbba58af9b29ccd3cca1ad86f1d1642039892d64f55df7b20
  else h256 0

/-- Nonce `0` misses, the next one is `1`, and some nonce is submitted. -/
theorem nonceSearch_exhaustive_sample :
    (iterations searchSha3 ⟨sampleHeader, 5⟩ 1 ⟨0, []⟩).nonce.toNat = (0 + 1) % (2 ^ 256 - 1) ∧
      ∃ k nonce, k < 2 ^ 256 - 1 ∧ Meets searchSha3 ⟨sampleHeader, 5⟩ nonce ∧
        iterations searchSha3 ⟨sampleHeader, 5⟩ (k + 1) ⟨0, []⟩ =
          ⟨0, [(⟨sampleHeader, 5⟩, (sealOf searchSha3 nonce ⟨sampleHeader, 5⟩).encode)]⟩ := by
  have hrun : MiningRun searchSha3 0 [] ⟨0, []⟩ := Run.nil
  obtain ⟨hmisses, -, hhit⟩ := nonceSearch_exhaustive hrun ⟨sampleHeader, 5⟩
  refine ⟨?_, ?_⟩
  · refine (hmisses 1 ?_).1
    intro j hj
    obtain rfl := Nat.lt_one_iff.mp hj
    decide +kernel
  · obtain ⟨k, nonce, hk, -, hmeets, -, -, hsubmit⟩ := hhit ⟨1, by decide, by decide +kernel⟩
    exact ⟨k, nonce, hk, hmeets, hsubmit⟩

end PowEvm.Mining
