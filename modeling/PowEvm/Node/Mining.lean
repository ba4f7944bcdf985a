import PowEvm.Library.Transition
import PowEvm.Node.Sha3Pow

/-!
# The mining loop

The thread `new_full` of `service.rs` starts: an endless loop over what the worker returns as
metadata, that computes one seal an iteration and submits the ones that meet the difficulty. A run
of the loop has one transition for each iteration, labelled by the metadata.

## Main results

* `exists_verify_iff`: the verifier accepts some raw seal with a nonce exactly when the seal the
  loop computes for it meets the difficulty;
* `verify_of_mem_submitted`: every raw seal a run submits is accepted for the metadata of its
  iteration;
* `miner_verifier_agree`: both, over every run of the loop.
-/

namespace PowEvm.Mining

open Sha3Pow Integers

/-- `sc_consensus_pow::MiningMetadata`, as far as the loop reads it. -/
structure MiningMetadata where
  preHash : H256
  difficulty : U256
  deriving DecidableEq

/-- The nonce of the next iteration, and the raw seals passed to `worker.submit` so far, each with
the metadata of its iteration. -/
structure Miner where
  nonce : U256
  submitted : List (MiningMetadata × RawSeal)
  deriving DecidableEq

/-- The nonce after a miss. -/
def nextNonce (nonce : U256) : U256 :=
  let next := saturatingAdd nonce 1
  if next = BitVec.allOnes 256 then 0 else next

/-- One iteration of the loop, given what `worker.metadata()` returns. -/
def mine (sha3 : Bytes → H256) (miner : Miner) : Option MiningMetadata → Miner
  | some metadata =>
    let compute : Compute :=
      { difficulty := metadata.difficulty, preHash := metadata.preHash, nonce := miner.nonce }
    let s := compute.compute sha3
    if hashMeetsDifficulty s.work s.difficulty then
      { nonce := 0, submitted := miner.submitted ++ [(metadata, s.encode)] }
    else { miner with nonce := nextNonce miner.nonce }
  -- the thread sleeps
  | none => miner

/-- The runs of the loop from a starting nonce, one transition for each iteration. -/
abbrev MiningRun (sha3 : Bytes → H256) (nonce : U256) :
    List (Transition Miner (Option MiningMetadata)) → Miner → Prop :=
  Run (fun miner metadata => some (mine sha3 miner metadata)) ⟨nonce, []⟩

variable {sha3 : Bytes → H256} {miner : Miner} {metadata : MiningMetadata}

/-! ## One iteration -/

/-- The seal an iteration computes. -/
def sealOf (sha3 : Bytes → H256) (nonce : U256) (metadata : MiningMetadata) : Seal :=
  Compute.compute sha3 ⟨metadata.difficulty, metadata.preHash, nonce⟩

/-- The verifier accepts some raw seal with a nonce exactly when the seal computed for it meets the
difficulty. -/
theorem exists_verify_iff {nonce : U256} :
    (∃ raw, verify sha3 metadata.preHash raw metadata.difficulty = true ∧
      nonceOf raw = some nonce) ↔
        hashMeetsDifficulty (sealOf sha3 nonce metadata).work metadata.difficulty = true := by
  constructor
  · -- an accepted raw seal starts with the computed one, so its nonce is the one computed for
    rintro ⟨raw, hverify, hnonce⟩
    obtain ⟨nonce', rest, rfl, hmeets⟩ := verify_eq_true_iff.mp hverify
    rw [nonceOf_encode_append, Option.some.injEq] at hnonce
    obtain rfl : nonce' = nonce := hnonce
    exact hmeets
  · intro hmeets
    have hraw := (List.append_nil (sealOf sha3 nonce metadata).encode).symm
    refine ⟨_, verify_eq_true_iff.mpr ⟨nonce, [], hraw, hmeets⟩, ?_⟩
    rw [hraw, nonceOf_encode_append]
    rfl

/-- An iteration whose seal meets the difficulty submits it and starts over. -/
theorem mine_of_meets (h :
    hashMeetsDifficulty (sealOf sha3 miner.nonce metadata).work metadata.difficulty = true) :
    mine sha3 miner (some metadata) =
      ⟨0, miner.submitted ++ [(metadata, (sealOf sha3 miner.nonce metadata).encode)]⟩ :=
  if_pos h

/-- An iteration whose seal does not meet the difficulty goes on to the next nonce. -/
theorem mine_of_misses (h :
    ¬ hashMeetsDifficulty (sealOf sha3 miner.nonce metadata).work metadata.difficulty = true) :
    mine sha3 miner (some metadata) = ⟨nextNonce miner.nonce, miner.submitted⟩ :=
  if_neg h

/-- What is submitted is accepted for the metadata of the iteration. -/
theorem verify_encode_sealOf {nonce : U256}
    (h : hashMeetsDifficulty (sealOf sha3 nonce metadata).work metadata.difficulty = true) :
    verify sha3 metadata.preHash (sealOf sha3 nonce metadata).encode metadata.difficulty = true :=
  verify_eq_true_iff.mpr ⟨nonce, [], (List.append_nil _).symm, h⟩

/-- An iteration submits nothing, or one raw seal that is accepted for its metadata. -/
theorem submits_verified (label : Option MiningMetadata) :
    (mine sha3 miner label).submitted = miner.submitted ∨
      ∃ m raw, label = some m ∧ (mine sha3 miner label).submitted = miner.submitted ++ [(m, raw)] ∧
        verify sha3 m.preHash raw m.difficulty = true := by
  cases label with
  | none => exact Or.inl rfl
  | some m =>
    by_cases hmeets : hashMeetsDifficulty (sealOf sha3 miner.nonce m).work m.difficulty = true
    · rw [mine_of_meets hmeets]
      exact Or.inr ⟨m, _, rfl, rfl, verify_encode_sealOf hmeets⟩
    · rw [mine_of_misses hmeets]
      exact Or.inl rfl

/-! ## Runs -/

/-- Every raw seal a run submits is accepted for the metadata of its iteration. -/
theorem verify_of_mem_submitted {nonce : U256}
    {trace : List (Transition Miner (Option MiningMetadata))}
    (hrun : MiningRun sha3 nonce trace miner) :
    ∀ p ∈ miner.submitted, verify sha3 p.1.preHash p.2 p.1.difficulty = true := by
  refine hrun.history_induct
    (motive := fun _ miner => ∀ p ∈ miner.submitted,
      verify sha3 p.1.preHash p.2 p.1.difficulty = true)
    (fun p hp => absurd hp List.not_mem_nil) ?_
  -- what was submitted before stays accepted, whatever the metadata changes to
  intro _ miner label miner' _ ih hstep p hp
  obtain rfl := Option.some.inj hstep
  rcases submits_verified label with hsame | ⟨m, raw, -, hsubmitted, hverify⟩
  · rw [hsame] at hp
    exact ih p hp
  · rw [hsubmitted] at hp
    rcases List.mem_append.mp hp with hp | hp
    · exact ih p hp
    · obtain rfl := List.mem_singleton.mp hp
      exact hverify

/-- Over every run of the loop, whatever metadata the worker returns: each raw seal submitted is
accepted for the metadata of its iteration, and an iteration submits whenever some raw seal with its
nonce is accepted for its metadata. -/
theorem miner_verifier_agree {nonce : U256}
    {trace : List (Transition Miner (Option MiningMetadata))}
    (hrun : MiningRun sha3 nonce trace miner) :
    (∀ p ∈ miner.submitted, verify sha3 p.1.preHash p.2 p.1.difficulty = true) ∧
      ∀ t ∈ trace,
        (t.post.submitted = t.pre.submitted ∨
          ∃ m raw, t.label = some m ∧ t.post.submitted = t.pre.submitted ++ [(m, raw)] ∧
            verify sha3 m.preHash raw m.difficulty = true) ∧
        ∀ m, t.label = some m →
          (∃ raw, verify sha3 m.preHash raw m.difficulty = true ∧
            nonceOf raw = some t.pre.nonce) →
          ∃ raw, t.post.submitted = t.pre.submitted ++ [(m, raw)] := by
  refine ⟨verify_of_mem_submitted hrun, ?_⟩
  rintro ⟨pre, label, post⟩ ht
  have hpost : mine sha3 pre label = post := Option.some.inj (hrun.exists_of_mem ht).1
  subst hpost
  refine ⟨submits_verified label, ?_⟩
  -- an accepted raw seal means that the computed one meets the difficulty, so it is submitted
  rintro m rfl haccepted
  dsimp only
  rw [mine_of_meets (exists_verify_iff.mp haccepted)]
  exact ⟨_, rfl⟩

/-- Two iterations at difficulty `1`, with a pause between them. -/
theorem miner_verifier_agree_sample :
    ∃ trace miner, MiningRun sampleSha3 0 trace miner ∧
      miner.submitted = [(⟨sampleHeader, 1⟩, mined), (⟨sampleHeader, 1⟩, mined)] ∧
      ∀ p ∈ miner.submitted, verify sampleSha3 p.1.preHash p.2 p.1.difficulty = true := by
  have hrun : MiningRun sampleSha3 0 _ _ :=
    Run.nil.of_replay [some ⟨sampleHeader, 1⟩, none, some ⟨sampleHeader, 1⟩]
  exact ⟨_, _, hrun, by decide +kernel, (miner_verifier_agree hrun).1⟩

end PowEvm.Mining
