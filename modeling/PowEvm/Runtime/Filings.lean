import PowEvm.Runtime.Steps

/-!
# What a run files and spends

For each step, the outputs it files in the UTXO store with the preimages of their keys, and the
outpoints it removes. The store after a step is the store before it with the second taken out and
the first put in, so a statement about these lists is one about every `insert` and `remove` of the
run.

## Main results

* `utxoStore_eq`: the store after a step;
* `mem_filed_iff`: the preimages of a transaction's outputs are those of `output_index` counting
  from zero.
-/

namespace PowEvm

open Utxo

variable {cfg : Config} {s : Storage} {st st' : ChainState} {tx : Transaction}

/-- Whether `spend` returns `Ok`. -/
def spendOk (cfg : Config) (s : Storage) (tx : Transaction) : Bool :=
  match (spend cfg tx).run s with
  | .ok _ _ => true
  | .error _ _ => false

/-- The reward that finalizing the block files, with the preimage of its key. -/
def paidOutput (cfg : Config) (s : Storage) : List (Bytes × TransactionOutput) :=
  match s.author, payout cfg s with
  | some author, some reward =>
    [(rewardPreimage ⟨reward, author⟩ (s.number.setWidth 64), ⟨reward, author⟩)]
  | _, _ => []

/-- The outputs a step files, each with the preimage of its key. -/
def filedBy (cfg : Config) (t : Transition ChainState Action) : List (Bytes × TransactionOutput) :=
  match t.label with
  | .call _ (.spend tx) => if spendOk cfg t.pre.storage tx then filed tx else []
  | .onFinalize => paidOutput cfg t.pre.storage
  | _ => []

/-- The outpoints a step removes. -/
def spentBy (cfg : Config) (t : Transition ChainState Action) : List H256 :=
  match t.label with
  | .call _ (.spend tx) => if spendOk cfg t.pre.storage tx then tx.outpoints else []
  | _ => []

/-- The issuance of the block a step finalizes with an author, `0` for every other step. -/
def issuedAt (cfg : Config) (t : Transition ChainState Action) : ℕ :=
  match t.label with
  | .onFinalize =>
    if t.pre.storage.author.isSome then
      (cfg.issuance t.pre.storage.number).elim 0 BitVec.toNat
    else 0
  | _ => 0

/-- The keys a step inserts into the store, in order. -/
def insertedKeys (cfg : Config) (t : Transition ChainState Action) : List H256 :=
  (hashed cfg (filedBy cfg t)).map Prod.fst

/-- The keys of the genesis outputs. -/
def genesisKeys (cfg : Config) (utxos : List TransactionOutput) : List H256 :=
  utxos.map fun u => cfg.blakeTwo256 u.encode

/-- The preimages of every key that genesis and the steps of a run insert. -/
def runPreimages (cfg : Config) (utxos : List TransactionOutput)
    (trace : List (Transition ChainState Action)) : List Bytes :=
  utxos.map TransactionOutput.encode ++ trace.flatMap fun t => (filedBy cfg t).map Prod.fst

/-- The transition dispatched `spend tx` and the call returned `Ok`. -/
def SpendSucceeds (cfg : Config) (tx : Transaction) (t : Transition ChainState Action) : Prop :=
  (∃ origin, t.label = .call origin (.spend tx)) ∧ spendOk cfg t.pre.storage tx = true

theorem filedBy_spend {origin : BlockAuthor.Origin} (hok : spendOk cfg st.storage tx = true) :
    filedBy cfg ⟨st, .call origin (.spend tx), st'⟩ = filed tx :=
  if_pos hok

theorem spentBy_spend {origin : BlockAuthor.Origin} (hok : spendOk cfg st.storage tx = true) :
    spentBy cfg ⟨st, .call origin (.spend tx), st'⟩ = tx.outpoints :=
  if_pos hok

theorem issuedAt_finalize {author : Public} (hauthor : st.storage.author = some author) :
    issuedAt cfg ⟨st, .onFinalize, st'⟩ = (cfg.issuance st.storage.number).elim 0 BitVec.toNat :=
  if_pos (by simp [hauthor])

theorem issuedAt_finalize_of_none (hunset : st.storage.author = none) :
    issuedAt cfg ⟨st, .onFinalize, st'⟩ = 0 :=
  if_neg (by simp [hunset])

/-- Different digests of a list of preimages rule out collisions among them. -/
theorem injOn_of_nodup_map {f : Bytes → H256} {preimages : List Bytes}
    (h : (preimages.map f).Nodup) : Set.InjOn f {p | p ∈ preimages} :=
  fun _ hp _ hq heq => List.inj_on_of_nodup_map h hp hq heq

/-- Outputs with different preimages get different keys, unless two of the preimages collide. -/
theorem nodup_keys_hashed {outputs : List (Bytes × TransactionOutput)}
    (hnodup : (outputs.map Prod.fst).Nodup)
    (hinj : Set.InjOn cfg.blakeTwo256 {p | p ∈ outputs.map Prod.fst}) :
    ((hashed cfg outputs).map Prod.fst).Nodup := by
  have hmap : (hashed cfg outputs).map Prod.fst = (outputs.map Prod.fst).map cfg.blakeTwo256 := by
    simp [hashed]
  rw [hmap]
  apply hnodup.map_on
  intro p hp q hq heq
  exact hinj hp hq heq

/-! ## The store after a step -/

theorem spendOk_iff :
    spendOk cfg s tx = true ↔ ∃ message stem, Spendable cfg s tx message stem := by
  unfold spendOk
  constructor
  · intro h
    cases hrun : (spend cfg tx).run s with
    | ok u s' => exact (run_spend_eq_ok_iff.mp hrun).1
    | error e s' => simp [hrun] at h
  · intro h
    have hrun : (spend cfg tx).run s = .ok () (spentStorage cfg s tx) :=
      run_spend_eq_ok_iff.mpr ⟨h, rfl⟩
    rw [hrun]

/-- A `spend` that returns `Ok` ends in `spentStorage`. -/
theorem run_spend_of_spendOk (h : spendOk cfg s tx = true) :
    (spend cfg tx).run s = .ok () (spentStorage cfg s tx) :=
  run_spend_eq_ok_iff.mpr ⟨spendOk_iff.mp h, rfl⟩

theorem spendOk_eq_false {e : Failure} {s' : Storage} (h : (spend cfg tx).run s = .error e s') :
    spendOk cfg s tx = false := by
  rw [spendOk, h]

/-- A step that dispatches a `spend` that returns `Ok` ends in the storage it leaves. -/
theorem Effect.run_spend {origin : BlockAuthor.Origin}
    (h : Effect cfg st (.call origin (.spend tx)) st') (hok : spendOk cfg st.storage tx = true) :
    (spend cfg tx).run st.storage = .ok () st'.storage := by
  cases h with
  | spent busy spendable => exact run_spend_eq_ok_iff.mpr ⟨⟨_, _, spendable⟩, rfl⟩
  | failed busy error => exact absurd hok (by simp [spendOk_eq_false error])

/-- The three things a step can do to the store: execute a transaction, pay a reward, or
nothing. -/
theorem Effect.files {action : Action} (h : Effect cfg st action st') :
    (∃ tx message stem, Spendable cfg st.storage tx message stem ∧
      filedBy cfg ⟨st, action, st'⟩ = filed tx ∧
        spentBy cfg ⟨st, action, st'⟩ = tx.outpoints ∧
        st'.storage.utxoStore = (spentStorage cfg st.storage tx).utxoStore) ∨
      (∃ author reward, st.inBlock = true ∧ action = .onFinalize ∧
        filedBy cfg ⟨st, action, st'⟩ =
          [(rewardPreimage ⟨reward, author⟩ (st.storage.number.setWidth 64), ⟨reward, author⟩)] ∧
        spentBy cfg ⟨st, action, st'⟩ = [] ∧
        st' = ⟨paidStorage cfg st.storage author reward, false⟩) ∨
      (filedBy cfg ⟨st, action, st'⟩ = [] ∧ spentBy cfg ⟨st, action, st'⟩ = [] ∧
        st'.storage.utxoStore = st.storage.utxoStore) := by
  cases h with
  | initialized => exact Or.inr (Or.inr ⟨rfl, rfl, rfl⟩)
  | @spent origin tx message stem busy spendable =>
    -- a spendable transaction returns `Ok`, so it files and spends what the lists say
    have hok := spendOk_iff.mpr ⟨_, _, spendable⟩
    exact Or.inl ⟨tx, message, stem, spendable, if_pos hok, if_pos hok, rfl⟩
  | authorSet => exact Or.inr (Or.inr ⟨rfl, rfl, rfl⟩)
  | @failed origin call e busy error =>
    -- a call that returned an error filed and spent nothing
    cases call with
    | spend tx =>
      have hok : ¬ spendOk cfg st.storage tx = true := by simp [spendOk_eq_false error]
      exact Or.inr (Or.inr ⟨if_neg hok, if_neg hok, rfl⟩)
    | setAuthor author => exact Or.inr (Or.inr ⟨rfl, rfl, rfl⟩)
  | wasted busy unset =>
    have hpaid : paidOutput cfg st.storage = [] := by rw [paidOutput, unset]
    exact Or.inr (Or.inr ⟨hpaid, rfl, rfl⟩)
  | @paid author reward busy set payout_eq =>
    have hpaid : paidOutput cfg st.storage =
        [(rewardPreimage ⟨reward, author⟩ (st.storage.number.setWidth 64), ⟨reward, author⟩)] := by
      rw [paidOutput, set, payout_eq]
    exact Or.inr (Or.inl ⟨author, reward, busy, rfl, hpaid, rfl, rfl⟩)

/-- The store after a step is the store before it without what the step spends and with what it
files. -/
theorem Effect.utxoStore_eq {action : Action} (h : Effect cfg st action st') :
    st'.storage.utxoStore = Finmap.insertAll (hashed cfg (filedBy cfg ⟨st, action, st'⟩))
      (Finmap.eraseAll (spentBy cfg ⟨st, action, st'⟩) st.storage.utxoStore) := by
  obtain ⟨tx, _, _, -, hfiled, hspent, hstore⟩ | ⟨author, reward, -, -, hfiled, hspent, rfl⟩ |
    ⟨hfiled, hspent, hstore⟩ := h.files
  · rw [hfiled, hspent, hstore]
    rfl
  · rw [hfiled, hspent]
    rfl
  · rw [hfiled, hspent, hstore]
    rfl

/-! ## The preimages of a transaction's outputs -/

theorem getElem?_filedFrom {stem : Bytes} {outputs : List TransactionOutput} {index i : ℕ} :
    (filedFrom stem outputs index)[i]? = outputs[i]?.map fun output =>
      (stem ++ (u64Layout (BitVec.ofNat 64 (index + i))).toList, output) := by
  induction outputs generalizing index i with
  | nil => simp [filedFrom]
  | cons head outputs ih =>
    rw [filedFrom]
    -- the head is at offset `0`, an element of the tail one further than in the tail
    cases i with
    | zero => simp
    | succ i => rw [List.getElem?_cons_succ, List.getElem?_cons_succ, ih, Nat.add_right_comm,
        Nat.add_assoc]

theorem mem_filedFrom_iff {stem bytes : Bytes} {outputs : List TransactionOutput} {index : ℕ}
    {output : TransactionOutput} :
    (bytes, output) ∈ filedFrom stem outputs index ↔
      ∃ i, outputs[i]? = some output ∧
        bytes = stem ++ (u64Layout (BitVec.ofNat 64 (index + i))).toList := by
  rw [List.mem_iff_getElem?]
  apply exists_congr
  intro i
  rw [getElem?_filedFrom, Option.map_eq_some_iff]
  refine ⟨?_, ?_⟩
  · rintro ⟨output', hi, heq⟩
    obtain ⟨rfl, rfl⟩ := Prod.ext_iff.mp heq
    exact ⟨hi, rfl⟩
  · rintro ⟨hi, rfl⟩
    exact ⟨output, hi, rfl⟩

/-- The outputs of a transaction are filed under the hashes of their indices. -/
theorem mem_filed_iff {bytes : Bytes} {output : TransactionOutput} :
    (bytes, output) ∈ filed tx ↔
      ∃ i, tx.outputs[i]? = some output ∧ outputPreimage tx (BitVec.ofNat 64 i) = some bytes := by
  unfold filed
  cases hstem : outputStem tx with
  | none => simp [outputPreimage_eq, hstem]
  | some stem =>
    simp only [Option.elim_some, mem_filedFrom_iff, Nat.zero_add, outputPreimage_eq, hstem,
      Option.map_some, Option.some.injEq, eq_comm]

/-- The preimages of the outputs of one transaction are different. -/
theorem nodup_filed (tx : Transaction) : ((filed tx).map Prod.fst).Nodup := by
  have key {stem : Bytes} {outputs : List TransactionOutput} {index : ℕ}
      (hlt : index + outputs.length ≤ 2 ^ 64) :
      ((filedFrom stem outputs index).map Prod.fst).Nodup := by
    induction outputs generalizing index with
    | nil => exact List.nodup_nil
    | cons output outputs ih =>
      rw [List.length_cons] at hlt
      rw [filedFrom, List.map_cons, List.nodup_cons]
      refine ⟨?_, ih (by omega)⟩
      intro hmem
      obtain ⟨⟨bytes, output'⟩, hfiled, heq⟩ := List.mem_map.mp hmem
      obtain ⟨i, hi, rfl⟩ := mem_filedFrom_iff.mp hfiled
      -- two indices below `2 ^ 64` with the same bytes are the same
      have hbytes := List.append_cancel_left heq
      have hindex := congrArg BitVec.toNat (u64Layout.injective (List.Vector.eq _ _ hbytes))
      have hlength := (List.getElem?_eq_some_iff.mp hi).1
      rw [Integers.toNat_ofNat_of_lt (by omega), Integers.toNat_ofNat_of_lt (by omega)] at hindex
      omega
  unfold filed
  cases hstem : outputStem tx with
  | none => exact List.nodup_nil
  | some stem =>
    have hlength := length_outputs_lt hstem
    exact key (by omega)

/-! ## A run of two blocks

Two coins, a block with an author in which the first is spent with a fee of `10`, and one without
an author in which the second is spent with a fee of `5`. The hash is given by the digests of the
preimages that occur. A signature counts as valid when it starts with the key, so that a key has
many.
-/

namespace Sample

def alice : H256 := List.Vector.replicate 32 0xa1

def bob : H256 := List.Vector.replicate 32 0xb0

def miner : H256 := List.Vector.replicate 32 0x4d

/-- A signature that starts with the key and goes on with `b`. -/
def signature (key : H256) (b : Byte) : H512 :=
  FixedBytes.appendEquiv 32 32 (key, List.Vector.replicate 32 b)

def coins : List TransactionOutput := [⟨100, alice⟩, ⟨50, bob⟩]

def aliceCoin : H256 := h256 0x985bd770d1ae302b06d0dc9be6cc1cf53adc13a6e5615edbfd811506d206caa4

def bobCoin : H256 := h256 0x02d81fcbbb4e1811bf984a65c7ac539ec2d65387e56a5e98f93a96c519efc598

def aliceSpends : Transaction where
  inputs := [⟨aliceCoin, signature alice 1⟩]
  outputs := [⟨60, bob⟩, ⟨30, alice⟩]

def bobSpends : Transaction where
  inputs := [⟨bobCoin, signature bob 1⟩]
  outputs := [⟨45, alice⟩]

/-- The digests of the preimages of the run. -/
def digests : List (Option Bytes × H256) :=
  [(some (TransactionOutput.encode ⟨100, alice⟩), aliceCoin),
    (some (TransactionOutput.encode ⟨50, bob⟩), bobCoin),
    (outputPreimage aliceSpends 0,
      h256 0xa78960980e18d536987b40446818cd9c67055de912ab530fac4a433003d1338e),
    (outputPreimage aliceSpends 1,
      h256 0x703b94a81522012e8ca0830fbabf3119c1751a9bfc10a017b70df9a44fb92d05),
    (some (rewardPreimage ⟨60, miner⟩ 1),
      h256 0xd3a3d6906aa40260f47e475f1cdb3e1ac3c92cd25ed1eba7c37d28a12ee4deb6),
    (outputPreimage bobSpends 0,
      h256 0x1d9abdac3ff5ee4fe20a01ff6c6e0218082238bdcbd6d754f95227f324ce7260)]

def config : Config :=
  Issuance.runtimeConfig (fun bytes => (digests.lookup (some bytes)).getD (h256 0))
    (fun signature _ key => signature.toList.take 32 = key.toList) false

/-- The steps of the two blocks. -/
def labels : List Action :=
  [.onInitialize 1, .call .none (.setAuthor miner), .call .root (.spend aliceSpends), .onFinalize,
    .onInitialize 2, .call .root (.spend bobSpends), .onFinalize]

/-- The transitions of the first `n` steps, and the state they end in. -/
def after (n : ℕ) : List (Transition ChainState Action) × ChainState :=
  replay (chainStep config) [] ⟨genesis config coins, false⟩ (labels.take n)

/-- The transitions of the run, and the state it ends in. -/
def run : List (Transition ChainState Action) × ChainState := after labels.length

theorem chainRun_after (n : ℕ) :
    ChainRun config (genesis config coins) (after n).1 (after n).2 :=
  Run.nil.of_replay _

theorem chainRun : ChainRun config (genesis config coins) run.1 run.2 := chainRun_after _

theorem spendOk_aliceSpends : spendOk config (genesis config coins) aliceSpends = true := by
  decide +kernel

end Sample

end PowEvm
