import PowEvm.Library.Selection
import PowEvm.Runtime.Types

/-!
# The proof of work

`sha3pow`: the seal, the computation that makes one, the difficulty test, the verification of a raw
seal, and the comparison that breaks ties between forks. SHA3-256 and BLAKE2b-256 are parameters.

## Main results

* `verify_eq_true_iff`: a raw seal is accepted exactly when it starts with the seal computed for
  some nonce, and that seal meets the difficulty;
* `canonical_iff_length_eq`: an accepted raw seal is the encoding of a seal exactly when it has 96
  bytes, since the bytes after the seal are not looked at;
* `eq_of_verify_eq_true`: a raw seal is accepted for one difficulty and header only;
* `bestSeal_eq_of_perm`: the winner of a tie does not depend on the order of arrival.
-/

namespace PowEvm.Sha3Pow

open Integers

/-- `sp_consensus_pow::Seal`. -/
abbrev RawSeal := Bytes

/-- `hash_meets_difficulty`: the product of both does not overflow. -/
def hashMeetsDifficulty (hash : H256) (difficulty : U256) : Bool :=
  let numHash : U256 := BitVec.ofNat 256 (Scale.ofBigEndian hash.toList)
  !(overflowingMul numHash difficulty).2

/-- A seal struct to encode as a byte vector and use as the raw seal. -/
structure Seal where
  difficulty : U256
  work : H256
  nonce : U256
  deriving DecidableEq

/-- An attempt to solve a proof of work. -/
structure Compute where
  difficulty : U256
  preHash : H256
  nonce : U256
  deriving DecidableEq

/-- A number, 32 bytes and a number, in 96 bytes. -/
def wordLayout : U256 × H256 × U256 ≃ FixedBytes 96 :=
  (Equiv.prodCongr (Scale.leEquiv 32)
    ((Equiv.prodCongr (Equiv.refl _) (Scale.leEquiv 32)).trans
      (FixedBytes.appendEquiv 32 32))).trans (FixedBytes.appendEquiv 32 64)

/-- The 96 bytes of a seal: difficulty, work, nonce. -/
def Seal.layout : Seal ≃ FixedBytes 96 :=
  Equiv.trans
    { toFun := fun s => (s.difficulty, s.work, s.nonce)
      invFun := fun p => ⟨p.1, p.2.1, p.2.2⟩
      left_inv := fun _ => rfl
      right_inv := fun _ => rfl }
    wordLayout

/-- The 96 bytes of an attempt: difficulty, header hash, nonce. -/
def Compute.layout : Compute ≃ FixedBytes 96 :=
  Equiv.trans
    { toFun := fun compute => (compute.difficulty, compute.preHash, compute.nonce)
      invFun := fun p => ⟨p.1, p.2.1, p.2.2⟩
      left_inv := fun _ => rfl
      right_inv := fun _ => rfl }
    wordLayout

/-- `seal.encode()`. -/
def Seal.encode (s : Seal) : RawSeal := (Seal.layout s).toList

/-- `Seal::decode`, with the bytes it leaves in the input. -/
def Seal.decode (raw : RawSeal) : Option (Seal × Bytes) := (Codec.fixed Seal.layout).decode raw

/-- `compute.encode()`. -/
def Compute.encode (compute : Compute) : Bytes := (Compute.layout compute).toList

/-- `compute`. -/
def Compute.compute (sha3 : Bytes → H256) (compute : Compute) : Seal where
  difficulty := compute.difficulty
  work := sha3 compute.encode
  nonce := compute.nonce

/-- `verify`, which never returns an error. The parent and the digest are not used. -/
def verify (sha3 : Bytes → H256) (preHash : H256) (raw : RawSeal) (difficulty : U256) : Bool :=
  match Seal.decode raw with
  -- the slice that `decode` advances is dropped with what is left in it
  | some (s, _) =>
    if !hashMeetsDifficulty s.work difficulty then false
    else if Compute.compute sha3 ⟨difficulty, preHash, s.nonce⟩ ≠ s then false
    else true
  | none => false

/-- `break_tie`: the arrays are compared lexicographically. -/
def breakTie (blake2256 : Bytes → H256) (ownSeal newSeal : RawSeal) : Bool :=
  (blake2256 newSeal).toList < (blake2256 ownSeal).toList

/-! ## Encodings -/

variable {sha3 : Bytes → H256} {preHash : H256} {raw : RawSeal} {difficulty : U256}

@[simp]
theorem Seal.length_encode (s : Seal) : s.encode.length = 96 := by
  simp [Seal.encode]

theorem Seal.encode_inj {a b : Seal} (h : a.encode = b.encode) : a = b :=
  Seal.layout.injective (List.Vector.eq _ _ h)

theorem Compute.encode_inj {a b : Compute} (h : a.encode = b.encode) : a = b :=
  Compute.layout.injective (List.Vector.eq _ _ h)

/-- Decoding reads an encoding off the front, and leaves the rest. -/
theorem Seal.decode_eq_some_iff {s : Seal} {rest : Bytes} :
    Seal.decode raw = some (s, rest) ↔ raw = s.encode ++ rest := by
  constructor
  · intro h
    obtain ⟨bytes, hbytes, hraw⟩ := (Codec.fixed Seal.layout).encode_of_decode h
    obtain rfl := Option.some.inj hbytes
    exact hraw
  · rintro rfl
    exact (Codec.fixed Seal.layout).decode_encode rfl rest

/-! ## The difficulty test -/

theorem ofBigEndian_lt (hash : H256) : Scale.ofBigEndian hash.toList < 2 ^ 256 := by
  have hlt := Scale.ofLittleEndian_lt hash.toList.reverse
  rw [List.length_reverse, List.Vector.toList_length] at hlt
  exact hlt.trans_eq (by norm_num)

/-- A hash meets the difficulty when the exact product is below `2 ^ 256`. -/
theorem hashMeetsDifficulty_iff (hash : H256) (difficulty : U256) :
    hashMeetsDifficulty hash difficulty = true ↔
      Scale.ofBigEndian hash.toList * difficulty.toNat < 2 ^ 256 := by
  unfold hashMeetsDifficulty overflowingMul
  dsimp only
  rw [toNat_ofNat_of_lt (ofBigEndian_lt hash), Bool.not_eq_true', decide_eq_false_iff_not, not_le]

/-! ## Verification -/

/-- A raw seal is accepted exactly when it starts with the seal computed for its nonce, and that
seal meets the difficulty. -/
theorem verify_eq_true_iff :
    verify sha3 preHash raw difficulty = true ↔
      ∃ nonce rest, raw = (Compute.compute sha3 ⟨difficulty, preHash, nonce⟩).encode ++ rest ∧
        hashMeetsDifficulty (sha3 (Compute.encode ⟨difficulty, preHash, nonce⟩)) difficulty =
          true := by
  unfold verify
  constructor
  · intro h
    cases hdecode : Seal.decode raw with
    | none => simp [hdecode] at h
    | some p =>
      obtain ⟨s, rest⟩ := p
      simp only [hdecode] at h
      split_ifs at h with hmeets hcompute
      -- the seal that was decoded is the one computed for its nonce, difficulty and work included
      have hs : Compute.compute sha3 ⟨difficulty, preHash, s.nonce⟩ = s := not_not.mp hcompute
      refine ⟨s.nonce, rest, ?_, ?_⟩
      · rw [hs]
        exact Seal.decode_eq_some_iff.mp hdecode
      · have hwork : s.work = sha3 (Compute.encode ⟨difficulty, preHash, s.nonce⟩) :=
          congrArg Seal.work hs.symm
        rw [← hwork]
        simpa using hmeets
  · -- the computed seal decodes to itself and passes both tests
    rintro ⟨nonce, rest, hraw, hmeets⟩
    rw [Seal.decode_eq_some_iff.mpr hraw]
    change (if !hashMeetsDifficulty (sha3 (Compute.encode ⟨difficulty, preHash, nonce⟩))
      difficulty then false else _) = true
    rw [hmeets]
    simp [Compute.compute]

/-! ## Canonical seals -/

/-- The raw seal is the encoding of the seal it decodes to. -/
def Canonical (raw : RawSeal) : Prop :=
  ∃ s rest, Seal.decode raw = some (s, rest) ∧ raw = s.encode

/-- The nonce a raw seal decodes to. -/
def nonceOf (raw : RawSeal) : Option U256 := (Seal.decode raw).map fun p => p.1.nonce

theorem nonceOf_encode_append (s : Seal) (rest : Bytes) :
    nonceOf (s.encode ++ rest) = some s.nonce := by
  rw [nonceOf, Seal.decode_eq_some_iff.mpr rfl]
  rfl

/-- Whatever follows an accepted raw seal, it stays accepted. -/
theorem verify_append (h : verify sha3 preHash raw difficulty = true) (rest : Bytes) :
    verify sha3 preHash (raw ++ rest) difficulty = true := by
  obtain ⟨nonce, rest', rfl, hmeets⟩ := verify_eq_true_iff.mp h
  exact verify_eq_true_iff.mpr ⟨nonce, rest' ++ rest, List.append_assoc _ _ _, hmeets⟩

theorem Canonical.length_eq (h : Canonical raw) : raw.length = 96 := by
  obtain ⟨s, -, -, hs⟩ := h
  rw [hs, Seal.length_encode]

/-- An accepted raw seal is canonical exactly when it has 96 bytes, and there is at most one
such for a nonce. -/
theorem canonical_iff_length_eq (h : verify sha3 preHash raw difficulty = true) :
    (Canonical raw ↔ raw.length = 96) ∧
      (raw.length = 96 → ∀ raw', verify sha3 preHash raw' difficulty = true →
        nonceOf raw' = nonceOf raw → raw'.length = 96 → raw' = raw) := by
  obtain ⟨nonce, rest, hraw, -⟩ := verify_eq_true_iff.mp h
  refine ⟨⟨Canonical.length_eq, ?_⟩, ?_⟩
  · -- 96 bytes are taken up by the seal, so nothing follows it
    intro hlength
    have hrest : rest = [] := by simpa [hraw] using hlength
    rw [hrest] at hraw
    exact ⟨_, [], Seal.decode_eq_some_iff.mpr hraw, by rw [hraw, List.append_nil]⟩
  · intro hlength raw' h' hnonce hlength'
    obtain ⟨nonce', rest', hraw', -⟩ := verify_eq_true_iff.mp h'
    have hrest : rest = [] := by simpa [hraw] using hlength
    have hrest' : rest' = [] := by simpa [hraw'] using hlength'
    -- both are the seal computed for the nonce they share
    rw [hraw, hraw', nonceOf_encode_append, nonceOf_encode_append, Option.some.injEq] at hnonce
    have hnonce' : nonce' = nonce := hnonce
    rw [hraw, hraw', hrest, hrest', hnonce']

/-- A header hash, and the digest of the attempt at difficulty and nonce `1` and `0` on it. -/
def sampleHeader : H256 := List.Vector.replicate 32 0x11

def sampleSha3 (bytes : Bytes) : H256 :=
  if bytes = Compute.encode ⟨1, sampleHeader, 0⟩ then
    h256 0xe632652f3ec7a4cf24f0fb171f67b9dab993f08dd1f9ecac10d40ed4197eec19
  else h256 0

/-- The raw seal mined for the header. -/
def mined : RawSeal := (Compute.compute sampleSha3 ⟨1, sampleHeader, 0⟩).encode

theorem canonical_iff_length_eq_sample :
    verify sampleSha3 sampleHeader mined 1 = true ∧
      (Canonical mined ↔ mined.length = 96) ∧
      (mined.length = 96 → ∀ raw', verify sampleSha3 sampleHeader raw' 1 = true →
        nonceOf raw' = nonceOf mined → raw'.length = 96 → raw' = mined) :=
  ⟨by decide +kernel, canonical_iff_length_eq (by decide +kernel)⟩

/-- With a byte added, the mined seal is accepted for the same nonce, and is the encoding of no
seal. -/
theorem accepted_not_canonical :
    verify sampleSha3 sampleHeader mined 1 = true ∧
      verify sampleSha3 sampleHeader (mined ++ [0]) 1 = true ∧
      nonceOf (mined ++ [0]) = nonceOf mined ∧ mined ++ [0] ≠ mined ∧
      ¬ Canonical (mined ++ [0]) := by
  refine ⟨by decide +kernel, by decide +kernel, by decide +kernel, by decide +kernel, ?_⟩
  intro hcanonical
  exact absurd hcanonical.length_eq (by decide +kernel)

/-! ## Reuse of work -/

/-- A raw seal accepted for two difficulties and headers is accepted for one, unless SHA3-256 has a
collision between the two attempts; and the digest of an accepted attempt, multiplied by the
difficulty, is below `2 ^ 256`. -/
theorem eq_of_verify_eq_true {preHash' : H256} {difficulty' : U256}
    (h : verify sha3 preHash raw difficulty = true)
    (h' : verify sha3 preHash' raw difficulty' = true)
    (hinj : ∀ s rest, Seal.decode raw = some (s, rest) → Set.InjOn sha3
      {Compute.encode ⟨difficulty, preHash, s.nonce⟩,
        Compute.encode ⟨difficulty', preHash', s.nonce⟩}) :
    (difficulty = difficulty' ∧ preHash = preHash') ∧
      ∃ s rest, Seal.decode raw = some (s, rest) ∧
        Scale.ofBigEndian (sha3 (Compute.encode ⟨difficulty, preHash, s.nonce⟩)).toList *
          difficulty.toNat < 2 ^ 256 := by
  obtain ⟨nonce, rest, hraw, hmeets⟩ := verify_eq_true_iff.mp h
  obtain ⟨nonce', rest', hraw', -⟩ := verify_eq_true_iff.mp h'
  have hdecode := Seal.decode_eq_some_iff.mpr hraw
  -- both computed seals are the first 96 bytes of the raw one
  obtain ⟨hencode, -⟩ := List.append_inj (hraw.symm.trans hraw') (by simp)
  have hseal := Seal.encode_inj hencode
  have hdifficulty : difficulty = difficulty' := congrArg Seal.difficulty hseal
  have hnonce : nonce = nonce' := congrArg Seal.nonce hseal
  have hwork : sha3 (Compute.encode ⟨difficulty, preHash, nonce⟩) =
      sha3 (Compute.encode ⟨difficulty', preHash', nonce⟩) := by
    rw [hnonce]
    exact hnonce ▸ congrArg Seal.work hseal
  refine ⟨⟨hdifficulty, ?_⟩, _, rest, hdecode, (hashMeetsDifficulty_iff _ _).mp hmeets⟩
  -- equal works come from equal attempts, and these name the header
  have hcompute := hinj _ rest hdecode (Set.mem_insert _ _)
    (Set.mem_insert_of_mem _ (Set.mem_singleton _)) hwork
  exact congrArg Compute.preHash (Compute.encode_inj hcompute)

theorem eq_of_verify_eq_true_sample :
    verify sampleSha3 sampleHeader mined 1 = true ∧
      ((1 : U256) = 1 ∧ sampleHeader = sampleHeader) ∧
      ∃ s rest, Seal.decode mined = some (s, rest) ∧
        Scale.ofBigEndian (sampleSha3 (Compute.encode ⟨1, sampleHeader, s.nonce⟩)).toList *
          (1 : U256).toNat < 2 ^ 256 :=
  have haccepted : verify sampleSha3 sampleHeader mined 1 = true := by decide +kernel
  ⟨haccepted, eq_of_verify_eq_true haccepted haccepted fun _ _ _ => by simp⟩

/-! ## Ties -/

/-- The seal that is best after importing raw seals one after the other, each replacing the best one
so far when `break_tie` says so. -/
def bestSeal (blake2256 : Bytes → H256) : List RawSeal → Option RawSeal
  | [] => none
  | first :: seals => some (Selection.survivor (breakTie blake2256) first seals)

/-- Ties are broken by the hash of the raw seal. -/
theorem breakTie_iff (blake2256 : Bytes → H256) (own new : RawSeal) :
    breakTie blake2256 own new = true ↔ (blake2256 new).toList < (blake2256 own).toList := by
  simp [breakTie]

/-- Without a collision among the seals, the best one does not depend on the order of arrival. -/
theorem bestSeal_eq_of_perm {blake2256 : Bytes → H256} {seals seals' : List RawSeal}
    (hperm : seals.Perm seals') (hinj : Set.InjOn blake2256 {raw | raw ∈ seals}) :
    bestSeal blake2256 seals = bestSeal blake2256 seals' := by
  cases seals with
  | nil =>
    rw [List.nil_perm.mp hperm]
  | cons first seals =>
    cases seals' with
    | nil => exact absurd hperm (List.not_perm_cons_nil)
    | cons first' seals' =>
      have hrank : Set.InjOn (fun raw => (blake2256 raw).toList) {raw | raw ∈ first :: seals} :=
        fun a ha b hb hab => hinj ha hb (List.Vector.eq _ _ hab)
      exact congrArg some
        (Selection.survivor_eq_of_perm (breakTie_iff blake2256) hperm hrank)

/-- The digests of the mined seal and of two longer forms of it. -/
def sampleBlake (bytes : Bytes) : H256 :=
  if bytes = mined then
    h256 0xcf47cc80a8c5c7a6a242de90cb29bc6c7693f96233ecdbdf52e286fd42090857
  else if bytes = mined ++ [0] then
    h256 0x6c0165bfa17da9d92c226aa2c1728e488a60bf7540f55f4cfa765b0319b2837f
  else if bytes = mined ++ [1] then
    h256 0x1b01a910715026382eb2809606a04d9af6058049d53b54028e086ae96e6ad62b
  else h256 0

theorem bestSeal_eq_of_perm_sample :
    bestSeal sampleBlake [mined, mined ++ [0], mined ++ [1], mined] =
      bestSeal sampleBlake [mined ++ [1], mined, mined, mined ++ [0]] := by
  have hinj : ∀ a ∈ [mined, mined ++ [0], mined ++ [1], mined],
      ∀ b ∈ [mined, mined ++ [0], mined ++ [1], mined],
        sampleBlake a = sampleBlake b → a = b := by
    decide +kernel
  exact bestSeal_eq_of_perm (by decide +kernel) fun a ha b hb => hinj a ha b hb

end PowEvm.Sha3Pow
