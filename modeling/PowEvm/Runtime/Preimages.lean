import PowEvm.Runtime.Utxo

/-!
# The preimages of UTXO keys

One hash files three kinds of entries: genesis outputs, transaction outputs and block rewards. No
tag tells them apart, but their preimages have different lengths: 48 bytes, 56 bytes, and for a
transaction output a length that is neither, whatever the modes of its three compact lengths.

## Main results

* `outputPreimage_inj`, `rewardPreimage_inj`, `TransactionOutput.encode_inj`: within each kind, the
  preimage determines what is filed;
* `outputPreimage_ne_encode`, `outputPreimage_ne_rewardPreimage`, `rewardPreimage_ne_encode`: no
  byte string is a preimage of two kinds;
* `exists_outputPreimage_iff`: the outputs with a preimage are those of received transactions;
* `KeySource.eq_of_preimage_eq`: all kinds together, the preimage of a key determines what the key
  is made of.
-/

namespace PowEvm

open Utxo

@[simp]
theorem TransactionOutput.length_encode (u : TransactionOutput) : u.encode.length = 48 := by
  simp [TransactionOutput.encode]

theorem TransactionOutput.encode_inj {u u' : TransactionOutput} (h : u.encode = u'.encode) :
    u = u' :=
  TransactionOutput.layout.injective (List.Vector.eq _ _ h)

theorem Transaction.encode_inj {tx tx' : Transaction} {bytes : Bytes}
    (h : tx.encode = some bytes) (h' : tx'.encode = some bytes) : tx = tx' :=
  Transaction.codec.encode_inj h h'

/-! ## Lengths -/

/-- A compact integer takes one to five bytes. -/
theorem length_encodeCompact {n : ℕ} {bytes : Bytes} (h : Scale.encodeCompact n = some bytes) :
    1 ≤ bytes.length ∧ bytes.length ≤ 5 := by
  unfold Scale.encodeCompact at h
  split_ifs at h
  all_goals
    obtain rfl := Option.some.inj h
    simp

theorem length_encodeAll_fixed {α : Type} {n : ℕ} (e : α ≃ FixedBytes n) {as : List α}
    {bytes : Bytes} (h : (Codec.fixed e).encodeAll as = some bytes) :
    bytes.length = n * as.length := by
  induction as generalizing bytes with
  | nil =>
    obtain rfl := Option.some.inj h
    rfl
  | cons a as ih =>
    obtain ⟨xs, hxs, h⟩ := Option.bind_eq_some_iff.mp h
    obtain rfl := Option.some.inj h
    -- each element adds `n` bytes
    rw [List.length_append, ih hxs, List.Vector.toList_length, List.length_cons]
    ring

/-- The encoding of a transaction is two compact lengths, 96 bytes an input and 48 an output. -/
theorem Transaction.length_encode {tx : Transaction} {bytes : Bytes}
    (h : tx.encode = some bytes) :
    ∃ i o, 1 ≤ i ∧ i ≤ 5 ∧ 1 ≤ o ∧ o ≤ 5 ∧
      bytes.length = i + 96 * tx.inputs.length + (o + 48 * tx.outputs.length) := by
  obtain ⟨x, y, hx, hy, rfl⟩ := Codec.encode_prod_eq_some.mp h
  -- each vector is a compact length and its elements
  obtain ⟨ci, bi, hci, hbi, rfl⟩ := Codec.encode_vec_eq_some.mp hx
  obtain ⟨co, bo, hco, hbo, rfl⟩ := Codec.encode_vec_eq_some.mp hy
  obtain ⟨hi1, hi5⟩ := length_encodeCompact hci
  obtain ⟨ho1, ho5⟩ := length_encodeCompact hco
  have hbi' : bi.length = 96 * tx.inputs.length := length_encodeAll_fixed _ hbi
  have hbo' : bo.length = 48 * tx.outputs.length := length_encodeAll_fixed _ hbo
  refine ⟨ci.length, co.length, hi1, hi5, ho1, ho5, ?_⟩
  simp only [List.length_append, hbi', hbo']

/-! ## Which transactions have encodings -/

theorem exists_encode_fixed {α : Type} {n : ℕ} (e : α ≃ FixedBytes n) (a : α) :
    ∃ x, (Codec.fixed e).encode a = some x :=
  ⟨_, Codec.encode_fixed e a⟩

/-- A transaction has an encoding unless one of its vectors is too long. -/
theorem Transaction.exists_encode_iff {tx : Transaction} :
    (∃ bytes, tx.encode = some bytes) ↔
      tx.inputs.length < 2 ^ 32 ∧ tx.outputs.length < 2 ^ 32 := by
  rw [← Scale.exists_encode_vec_iff (exists_encode_fixed TransactionInput.layout),
    ← Scale.exists_encode_vec_iff (exists_encode_fixed TransactionOutput.layout)]
  refine ⟨?_, ?_⟩
  · rintro ⟨bytes, h⟩
    obtain ⟨x, y, hx, hy, -⟩ := Codec.encode_prod_eq_some.mp h
    exact ⟨⟨x, hx⟩, ⟨y, hy⟩⟩
  · rintro ⟨⟨x, hx⟩, ⟨y, hy⟩⟩
    exact ⟨x ++ y, Codec.encode_prod_eq_some.mpr ⟨x, y, hx, hy, rfl⟩⟩

/-- A transaction as the runtime receives it: read from the bytes of an extrinsic, which the
extrinsic itself counts by a compact `u32`. -/
def Received (tx : Transaction) : Prop :=
  ∃ raw rest : Bytes, raw.length < 2 ^ 32 ∧ Transaction.codec.decode raw = some (tx, rest)

/-- The transactions the runtime can receive are those of less than `2 ^ 32` bytes. -/
theorem received_iff {tx : Transaction} :
    Received tx ↔ ∃ bytes, tx.encode = some bytes ∧ bytes.length < 2 ^ 32 := by
  refine ⟨?_, ?_⟩
  · rintro ⟨raw, rest, hlt, hdecode⟩
    obtain ⟨bytes, hbytes, rfl⟩ := Transaction.codec.encode_of_decode hdecode
    rw [List.length_append] at hlt
    exact ⟨bytes, hbytes, by omega⟩
  · rintro ⟨bytes, hbytes, hlt⟩
    have hdecode := Transaction.codec.decode_encode hbytes []
    rw [List.append_nil] at hdecode
    exact ⟨bytes, [], hlt, hdecode⟩

/-! ## Transaction outputs -/

/-- What precedes the index in the preimage of an output: the length-prefixed transaction. -/
def outputStem (tx : Transaction) : Option Bytes := tx.encode.bind Scale.bytes.encode

/-- The preimages of the outputs of one transaction differ in the index only. -/
theorem outputPreimage_eq (tx : Transaction) (index : BitVec 64) :
    outputPreimage tx index = (outputStem tx).map (· ++ (u64Layout index).toList) := by
  unfold outputPreimage outputStem
  cases h : tx.encode with
  | none => rfl
  | some encoded =>
    change (Scale.bytes.prod (Codec.fixed u64Layout)).encode (encoded, index) =
      (Scale.bytes.encode encoded).map (· ++ (u64Layout index).toList)
    cases hb : Scale.bytes.encode encoded with
    | none => simp [Codec.prod, hb]
    | some stem => simp [Codec.prod, hb]

/-- The keys of a received transaction can be computed. -/
theorem Received.exists_outputStem {tx : Transaction} (h : Received tx) :
    ∃ stem, outputStem tx = some stem := by
  obtain ⟨bytes, hbytes, hlt⟩ := received_iff.mp h
  have hbyte : ∀ b, ∃ x, Scale.byte.encode b = some x := exists_encode_fixed _
  obtain ⟨stem, hstem⟩ := (Scale.exists_encode_vec_iff hbyte).mpr hlt
  exact ⟨stem, by rw [outputStem, hbytes, Option.bind_some]; exact hstem⟩

/-- The outputs of the received transactions have preimages, and no others. -/
theorem exists_outputPreimage_iff {tx : Transaction} (index : BitVec 64) :
    (∃ bytes, outputPreimage tx index = some bytes) ↔ Received tx := by
  refine ⟨?_, ?_⟩
  · rintro ⟨bytes, h⟩
    obtain ⟨encoded, hencoded, h⟩ := Option.bind_eq_some_iff.mp h
    obtain ⟨stem, _, hstem, -⟩ := Codec.encode_prod_eq_some.mp h
    -- the length of the encoded transaction has a compact form
    have hlt := (Scale.exists_encode_vec_iff (exists_encode_fixed _)).mp ⟨stem, hstem⟩
    exact received_iff.mpr ⟨encoded, hencoded, hlt⟩
  · intro h
    obtain ⟨stem, hstem⟩ := h.exists_outputStem
    exact ⟨_, by rw [outputPreimage_eq, hstem, Option.map_some]⟩

/-- The length of a stem is that of the transaction and three compact lengths. -/
theorem length_outputStem {tx : Transaction} {stem : Bytes} (h : outputStem tx = some stem) :
    ∃ c, 3 ≤ c ∧ c ≤ 15 ∧ stem.length = c + 96 * tx.inputs.length + 48 * tx.outputs.length := by
  obtain ⟨encoded, hencoded, h⟩ := Option.bind_eq_some_iff.mp h
  -- the encoded transaction is itself encoded as a vector of bytes
  obtain ⟨c, body, hc, hbody, rfl⟩ := Codec.encode_vec_eq_some.mp h
  rw [Scale.encodeAll_byte, Option.some.injEq] at hbody
  subst hbody
  obtain ⟨hc1, hc5⟩ := length_encodeCompact hc
  obtain ⟨i, o, hi1, hi5, ho1, ho5, hlen⟩ := Transaction.length_encode hencoded
  refine ⟨c.length + i + o, by omega, by omega, ?_⟩
  rw [List.length_append, hlen]
  ring

/-- A transaction whose outputs have keys has fewer than `2 ^ 32` outputs. -/
theorem length_outputs_lt {tx : Transaction} {stem : Bytes} (h : outputStem tx = some stem) :
    tx.outputs.length < 2 ^ 32 := by
  obtain ⟨encoded, hencoded, -⟩ := Option.bind_eq_some_iff.mp h
  obtain ⟨x, y, -, hy, -⟩ := Codec.encode_prod_eq_some.mp hencoded
  obtain ⟨c, -, hc, -, -⟩ := Codec.encode_vec_eq_some.mp hy
  -- the length of the vector of outputs had a compact form
  change Scale.encodeCompact tx.outputs.length = some c at hc
  unfold Scale.encodeCompact at hc
  split_ifs at hc <;> omega

/-- The preimage of an output determines the transaction and the index. -/
theorem outputPreimage_inj {tx tx' : Transaction} {index index' : BitVec 64} {bytes : Bytes}
    (h : outputPreimage tx index = some bytes) (h' : outputPreimage tx' index' = some bytes) :
    tx = tx' ∧ index = index' := by
  obtain ⟨encoded, hencoded, h⟩ := Option.bind_eq_some_iff.mp h
  obtain ⟨encoded', hencoded', h'⟩ := Option.bind_eq_some_iff.mp h'
  -- the pair of the length-prefixed transaction and the index can be read back
  have heq := Codec.encode_inj _ h h'
  obtain ⟨rfl, rfl⟩ := Prod.ext_iff.mp heq
  exact ⟨Transaction.encode_inj hencoded hencoded', rfl⟩

/-! ## Block rewards -/

@[simp]
theorem length_rewardPreimage (u : TransactionOutput) (block : BitVec 64) :
    (rewardPreimage u block).length = 56 := by
  simp [rewardPreimage]

/-- The preimage of a block reward determines the output and the block. -/
theorem rewardPreimage_inj {u u' : TransactionOutput} {block block' : BitVec 64}
    (h : rewardPreimage u block = rewardPreimage u' block') : u = u' ∧ block = block' := by
  -- both outputs take 48 bytes, so the block numbers stand at the same place
  obtain ⟨hu, hblock⟩ := List.append_inj h (by simp)
  exact ⟨TransactionOutput.encode_inj hu, u64Layout.injective (List.Vector.eq _ _ hblock)⟩

/-! ## The three kinds are disjoint -/

/-- The length of the preimage of an output is neither 48 nor 56. -/
theorem length_outputPreimage_ne {tx : Transaction} {index : BitVec 64} {bytes : Bytes}
    (h : outputPreimage tx index = some bytes) : bytes.length ≠ 48 ∧ bytes.length ≠ 56 := by
  rw [outputPreimage_eq] at h
  obtain ⟨stem, hstem, rfl⟩ := Option.map_eq_some_iff.mp h
  obtain ⟨c, hc3, hc15, hlen⟩ := length_outputStem hstem
  -- modulo 48 the length is between 11 and 23, whereas 48 and 56 leave 0 and 8
  rw [List.length_append, hlen, List.Vector.toList_length]
  omega

theorem outputPreimage_ne_encode {tx : Transaction} {index : BitVec 64} {u : TransactionOutput} :
    outputPreimage tx index ≠ some u.encode := by
  intro h
  exact (length_outputPreimage_ne h).1 (TransactionOutput.length_encode u)

theorem outputPreimage_ne_rewardPreimage {tx : Transaction} {index block : BitVec 64}
    {u : TransactionOutput} : outputPreimage tx index ≠ some (rewardPreimage u block) := by
  intro h
  exact (length_outputPreimage_ne h).2 (length_rewardPreimage u block)

theorem rewardPreimage_ne_encode {u u' : TransactionOutput} {block : BitVec 64} :
    rewardPreimage u block ≠ u'.encode := by
  intro h
  have hlen := congrArg List.length h
  simp at hlen

/-- What a key of the UTXO store is made of: an output configured at genesis, the output of a
transaction at an index, or the reward of a block. -/
inductive KeySource where
  | genesis (utxo : TransactionOutput)
  | output (transaction : Transaction) (outputIndex : BitVec 64)
  | reward (utxo : TransactionOutput) (block : BitVec 64)
  deriving DecidableEq

/-- The bytes hashed into the key. -/
def KeySource.preimage : KeySource → Option Bytes
  | .genesis utxo => some utxo.encode
  | .output transaction outputIndex => outputPreimage transaction outputIndex
  | .reward utxo block => some (rewardPreimage utxo block)

/-- The bytes hashed into a key determine what it is made of, the kind included. -/
theorem KeySource.eq_of_preimage_eq {x y : KeySource} {bytes : Bytes}
    (hx : x.preimage = some bytes) (hy : y.preimage = some bytes) : x = y := by
  have h : x.preimage = y.preimage := hx.trans hy.symm
  cases x with
  | genesis u =>
    cases y with
    | genesis u' => rw [TransactionOutput.encode_inj (Option.some.inj h)]
    | output tx index => exact absurd h.symm outputPreimage_ne_encode
    | reward u' block => exact absurd (Option.some.inj h).symm rewardPreimage_ne_encode
  | output tx index =>
    cases y with
    | genesis u => exact absurd h outputPreimage_ne_encode
    | output tx' index' =>
      obtain ⟨rfl, rfl⟩ := outputPreimage_inj hx hy
      rfl
    | reward u block => exact absurd h outputPreimage_ne_rewardPreimage
  | reward u block =>
    cases y with
    | genesis u' => exact absurd (Option.some.inj h) rewardPreimage_ne_encode
    | output tx index => exact absurd h.symm outputPreimage_ne_rewardPreimage
    | reward u' block' =>
      obtain ⟨rfl, rfl⟩ := rewardPreimage_inj (Option.some.inj h)
      rfl

/-- A transaction with one input and one output, and the only source of the preimage of its
output. -/
theorem KeySource.eq_of_preimage_eq_sample :
    let transaction : Transaction :=
      ⟨[⟨List.Vector.replicate 32 1, List.Vector.replicate 64 2⟩],
        [⟨3, List.Vector.replicate 32 4⟩]⟩
    ∃ bytes, (KeySource.output transaction 0).preimage = some bytes ∧
      KeySource.output transaction 0 = KeySource.output transaction 0 ∧
      ∀ x : KeySource, x.preimage = some bytes → x = KeySource.output transaction 0 := by
  intro transaction
  have hsome : (KeySource.output transaction 0).preimage.isSome = true := by decide +kernel
  obtain ⟨bytes, hbytes⟩ := Option.isSome_iff_exists.mp hsome
  exact ⟨bytes, hbytes, KeySource.eq_of_preimage_eq hbytes hbytes,
    fun x hx => KeySource.eq_of_preimage_eq hx hbytes⟩

end PowEvm
