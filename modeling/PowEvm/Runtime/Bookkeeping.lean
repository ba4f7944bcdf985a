import PowEvm.Runtime.Supply
import PowEvm.Runtime.Unspent

/-!
# Bookkeeping

What the UTXO store holds over a run, measured in any way: each step takes the weight of what it
spends off the total and adds the weight of what it files. Weighing the outputs of one owner gives
the owner's balance, weighing all of them by their value gives the supply.

## Main results

* `total_run`: the books of every measure balance over every run;
* `balanceOf_run`: the balance of an owner is what it received less what was withdrawn, and only
  transactions signed for the owner withdraw;
* `supply_run`: what a run destroys of the supply and what it conjures up, exactly.
-/

namespace PowEvm

open Utxo

variable {cfg : Config} {utxos : List TransactionOutput} {st st' : ChainState}
  {trace : List (Transition ChainState Action)} {action : Action}

/-- The step files its outputs under different keys that are new to the store. -/
def FilesFresh (cfg : Config) (t : Transition ChainState Action) : Prop :=
  (insertedKeys cfg t).Nodup ∧ ∀ k ∈ insertedKeys cfg t, k ∉ t.pre.storage.utxoStore

/-- Without a collision among the preimages of a run, all its steps file under new keys. -/
theorem filesFresh_of_injOn (hrun : ChainRun cfg (genesis cfg utxos) trace st)
    (hinj : Set.InjOn cfg.blakeTwo256 {p | p ∈ runPreimages cfg utxos trace}) :
    ∀ t ∈ trace, FilesFresh cfg t := by
  intro t ht
  obtain ⟨-, hunreplayed⟩ := consistent_of_injOn hrun hinj
  exact ⟨(List.nodup_flatMap.mp hunreplayed.keys_nodup).1 t ht, hunreplayed.keys_notMem_store t ht⟩

/-! ## Any measure -/

section Measure

variable (w : TransactionOutput → ℕ)

/-- The weight of what a step files. -/
def incoming (cfg : Config) (t : Transition ChainState Action) : ℕ :=
  ((filedBy cfg t).map fun p => w p.2).sum

/-- The weight of the entries a step spends, each counted once. -/
def outgoing (cfg : Config) (t : Transition ChainState Action) : ℕ :=
  ((spentBy cfg t).dedup.map (t.pre.storage.utxoStore.weightAt w)).sum

/-- A step takes off the total what it spends, and adds what it files. -/
theorem total_step (h : Effect cfg st action st') (hfresh : FilesFresh cfg ⟨st, action, st'⟩) :
    st'.storage.utxoStore.total w + outgoing w cfg ⟨st, action, st'⟩ =
      st.storage.utxoStore.total w + incoming w cfg ⟨st, action, st'⟩ := by
  have hincoming : incoming w cfg ⟨st, action, st'⟩ =
      ((hashed cfg (filedBy cfg ⟨st, action, st'⟩)).map fun e => w e.2).sum := by
    rw [incoming, hashed, List.map_map]
    rfl
  rw [h.utxoStore_eq, hincoming]
  exact Finmap.total_replace (fun k hk => mem_utxoStore_of_mem_spentBy hk) hfresh.1 hfresh.2

/-- Over a run without a hash collision, the total and what was spent are the total of genesis and
what was filed. -/
theorem total_run (hrun : ChainRun cfg (genesis cfg utxos) trace st)
    (hinj : Set.InjOn cfg.blakeTwo256 {p | p ∈ runPreimages cfg utxos trace}) :
    st.storage.utxoStore.total w + (trace.map (outgoing w cfg)).sum =
      (genesis cfg utxos).utxoStore.total w + (trace.map (incoming w cfg)).sum :=
  hrun.measure_add_losses (fun st => st.storage.utxoStore.total w) (incoming w cfg)
    (outgoing w cfg) (filesFresh_of_injOn hrun hinj)
    fun hstep hfresh => total_step w (chainStep_eq_some_iff.mp hstep) hfresh

end Measure

/-! ## Owners -/

/-- What an output is worth to an owner. -/
def ownedValue (owner : H256) (utxo : TransactionOutput) : ℕ :=
  if utxo.pubkey = owner then utxo.value.toNat else 0

/-- The value of all entries of an owner. -/
def balanceOf (owner : H256) (s : Storage) : ℕ := s.utxoStore.total (ownedValue owner)

/-- An input of the transaction carries a sigscript that is accepted for the owner. -/
def SignedFor (cfg : Config) (owner : H256) (tx : Transaction) : Prop :=
  ∃ message, getSimpleTransaction tx = some message ∧
    ∃ input ∈ tx.inputs, cfg.sr25519Verify input.sigscript message owner = true

/-- A step withdraws from an owner only by a transaction that is signed for it. -/
theorem signedFor_of_outgoing_pos {t : Transition ChainState Action} {owner : H256}
    (h : 0 < outgoing (ownedValue owner) cfg t) :
    ∃ tx, SpendSucceeds cfg tx t ∧ SignedFor cfg owner tx := by
  -- some entry that was spent is worth something to the owner
  have hne : outgoing (ownedValue owner) cfg t ≠ 0 := Nat.ne_of_gt h
  rw [outgoing, Ne, List.sum_eq_zero_iff_forall_eq_nat] at hne
  push Not at hne
  obtain ⟨amount, hamount, hpos⟩ := hne
  obtain ⟨k, hk, rfl⟩ := List.mem_map.mp hamount
  obtain ⟨tx, hsucceeds, hspent⟩ := mem_spentBy_iff.mp (List.mem_dedup.mp hk)
  obtain ⟨message, stem, hspendable⟩ := spendOk_iff.mp hsucceeds.2
  obtain ⟨utxo, hutxo⟩ := Finmap.mem_iff.mp (hspendable.present k hspent)
  rw [Finmap.weightAt_of_lookup hutxo] at hpos
  have howner : utxo.pubkey = owner := by
    by_contra hother
    exact hpos (if_neg hother)
  obtain ⟨input, hinput, rfl⟩ := List.mem_map.mp hspent
  refine ⟨tx, hsucceeds, message, hspendable.accepted.simple, input, hinput, ?_⟩
  rw [← howner]
  exact hspendable.accepted.signed input hinput utxo hutxo

/-- Over a run without a hash collision, the balance of an owner and what was withdrawn from it are
its balance at genesis and what it received, and its balance falls only by successful spends that
are signed for it. -/
theorem balanceOf_run (hrun : ChainRun cfg (genesis cfg utxos) trace st)
    (hinj : Set.InjOn cfg.blakeTwo256 {p | p ∈ runPreimages cfg utxos trace}) (owner : H256) :
    balanceOf owner st.storage + (trace.map (outgoing (ownedValue owner) cfg)).sum =
        balanceOf owner (genesis cfg utxos) + (trace.map (incoming (ownedValue owner) cfg)).sum ∧
      ∀ t ∈ trace, balanceOf owner t.post.storage < balanceOf owner t.pre.storage →
        ∃ tx, SpendSucceeds cfg tx t ∧ SignedFor cfg owner tx := by
  refine ⟨total_run _ hrun hinj, ?_⟩
  rintro ⟨pre, label, post⟩ ht hlt
  have hstep := total_step (ownedValue owner)
    (chainStep_eq_some_iff.mp (hrun.exists_of_mem ht).1) (filesFresh_of_injOn hrun hinj _ ht)
  dsimp only at hstep hlt
  have hpos : 0 < outgoing (ownedValue owner) cfg ⟨pre, label, post⟩ := by
    unfold balanceOf at hlt
    omega
  exact signedFor_of_outgoing_pos hpos

/-- Alice receives a change of `30` and Bob's `45`, and spends her coin of `100`. -/
theorem balanceOf_run_sample :
    (Sample.run.1.map (outgoing (ownedValue Sample.alice) Sample.config)).sum = 100 ∧
      balanceOf Sample.alice Sample.run.2.storage + 100 =
        balanceOf Sample.alice (genesis Sample.config Sample.coins) + 75 := by
  have hout : (Sample.run.1.map (outgoing (ownedValue Sample.alice) Sample.config)).sum = 100 := by
    decide +kernel
  have hin : (Sample.run.1.map (incoming (ownedValue Sample.alice) Sample.config)).sum = 75 := by
    decide +kernel
  have hbooks := (balanceOf_run Sample.chainRun (injOn_of_nodup_map (by decide +kernel))
    Sample.alice).1
  rw [hout, hin] at hbooks
  exact ⟨hout, hbooks⟩

/-! ## The supply -/

/-- The value of an output. -/
def valueWeight (utxo : TransactionOutput) : ℕ := utxo.value.toNat

/-- What a successful `spend` adds up for its inputs above what it removes for them: the value of
every further claim of an outpoint that was claimed before. -/
def conjured (cfg : Config) (t : Transition ChainState Action) : ℕ :=
  match t.label with
  | .call _ (.spend tx) =>
    if spendOk cfg t.pre.storage tx then
      inputTotal t.pre.storage.utxoStore tx - outgoing valueWeight cfg t
    else 0
  | _ => 0

/-- What leaves the supply: the part of a fee that does not fit into a `u64`, and the part of a
reward that does not fit into a `u128`. -/
def destroyed (cfg : Config) (t : Transition ChainState Action) : ℕ :=
  match t.label with
  | .call _ (.spend tx) =>
    if spendOk cfg t.pre.storage tx then
      let fee := inputTotal t.pre.storage.utxoStore tx - tx.outputTotal
      fee - fee % 2 ^ 64
    else 0
  | .onFinalize =>
    if t.pre.storage.author.isSome then
      let due := t.pre.storage.rewardTotal.toNat +
        (cfg.issuance t.pre.storage.number).elim 0 BitVec.toNat
      due - due % 2 ^ 128
    else 0
  | _ => 0

theorem supply_eq (s : Storage) :
    supply s = s.utxoStore.total valueWeight + s.rewardTotal.toNat := rfl

section Spend

variable {origin : BlockAuthor.Origin} {tx : Transaction}

theorem conjured_spend (hok : spendOk cfg st.storage tx = true) :
    conjured cfg ⟨st, .call origin (.spend tx), st'⟩ =
      inputTotal st.storage.utxoStore tx -
        outgoing valueWeight cfg ⟨st, .call origin (.spend tx), st'⟩ :=
  if_pos hok

/-- A `spend` destroys the part of its fee that is not credited. -/
theorem destroyed_spend (hok : spendOk cfg st.storage tx = true) :
    destroyed cfg ⟨st, .call origin (.spend tx), st'⟩ =
      inputTotal st.storage.utxoStore tx - tx.outputTotal - creditedFee st.storage.utxoStore tx :=
  if_pos hok

/-- A `spend` that fails conjures up and destroys nothing. -/
theorem conjured_destroyed_of_failed (hfailed : ¬ spendOk cfg st.storage tx = true) :
    conjured cfg ⟨st, .call origin (.spend tx), st'⟩ = 0 ∧
      destroyed cfg ⟨st, .call origin (.spend tx), st'⟩ = 0 :=
  ⟨if_neg hfailed, if_neg hfailed⟩

/-- A `spend` files its outputs. -/
theorem incoming_spend (hok : spendOk cfg st.storage tx = true) :
    incoming valueWeight cfg ⟨st, .call origin (.spend tx), st'⟩ = tx.outputTotal := by
  obtain ⟨message, stem, hspendable⟩ := spendOk_iff.mp hok
  rw [incoming, filedBy_spend hok, Transaction.outputTotal,
    ← filed_map_snd hspendable.accepted.stem_eq, List.map_map]
  rfl

/-- The entries a `spend` removes are worth at most what it adds up for its inputs. -/
theorem outgoing_le_inputTotal (hok : spendOk cfg st.storage tx = true) :
    outgoing valueWeight cfg ⟨st, .call origin (.spend tx), st'⟩ ≤
      inputTotal st.storage.utxoStore tx := by
  rw [outgoing, spentBy_spend hok]
  have hsub : (tx.outpoints.dedup.map (st.storage.utxoStore.weightAt valueWeight)).Sublist
      (tx.outpoints.map (st.storage.utxoStore.weightAt valueWeight)) :=
    (List.dedup_sublist _).map _
  exact hsub.sum_le_sum fun _ _ => Nat.zero_le _

/-- A `spend` without a double claim adds up for its inputs what it removes for them. -/
theorem inputTotal_eq_outgoing (hok : spendOk cfg st.storage tx = true)
    (hclaim : ¬ DoubleClaim cfg st.storage tx) :
    inputTotal st.storage.utxoStore tx =
      outgoing valueWeight cfg ⟨st, .call origin (.spend tx), st'⟩ := by
  obtain ⟨message, stem, hspendable⟩ := spendOk_iff.mp hok
  rw [outgoing, spentBy_spend hok, (nodup_outpoints hspendable hclaim).dedup]
  rfl

end Spend

section Finalize

variable {author : Public} {reward : Value} (hauthor : st.storage.author = some author)

include hauthor

/-- A finalization destroys the part of what is due that does not fit into a `u128`. -/
theorem destroyed_finalize : destroyed cfg ⟨st, .onFinalize, st'⟩ =
    st.storage.rewardTotal.toNat + (cfg.issuance st.storage.number).elim 0 BitVec.toNat -
      (st.storage.rewardTotal.toNat + (cfg.issuance st.storage.number).elim 0 BitVec.toNat) %
        2 ^ 128 :=
  if_pos (by simp [hauthor])

/-- A finalization that pays files the reward. -/
theorem incoming_finalize (hpayout : payout cfg st.storage = some reward) :
    incoming valueWeight cfg ⟨st, .onFinalize, st'⟩ = reward.toNat := by
  rw [incoming, filedBy]
  simp [paidOutput, hauthor, hpayout, valueWeight]

end Finalize

/-- A finalization without an author destroys nothing. -/
theorem destroyed_finalize_of_none (hunset : st.storage.author = none) :
    destroyed cfg ⟨st, .onFinalize, st'⟩ = 0 :=
  if_neg (by simp [hunset])

/-- What a step destroys and conjures up of the supply. -/
theorem supply_step (h : Effect cfg st action st') (hfresh : FilesFresh cfg ⟨st, action, st'⟩) :
    supply st'.storage + destroyed cfg ⟨st, action, st'⟩ =
      supply st.storage +
        (issuedAt cfg ⟨st, action, st'⟩ + conjured cfg ⟨st, action, st'⟩) := by
  have htotal := total_step valueWeight h hfresh
  cases h with
  | initialized => rfl
  | @spent origin tx message stem busy spendable =>
    have hok : spendOk cfg st.storage tx = true := spendOk_iff.mpr ⟨_, _, spendable⟩
    have hle : outgoing valueWeight cfg
        ⟨st, .call origin (.spend tx), ⟨spentStorage cfg st.storage tx, true⟩⟩ ≤
          inputTotal st.storage.utxoStore tx := outgoing_le_inputTotal hok
    have hbalanced := spendable.accepted.balanced (missingOf_eq_nil_iff.mpr spendable.present)
    have hcredited : creditedFee st.storage.utxoStore tx ≤
        inputTotal st.storage.utxoStore tx - tx.outputTotal := Nat.mod_le _ _
    have hreward : (spentStorage cfg st.storage tx).rewardTotal.toNat =
        st.storage.rewardTotal.toNat + creditedFee st.storage.utxoStore tx :=
      Integers.toNat_ofNat_of_lt spendable.reward_lt
    rw [incoming_spend hok] at htotal
    rw [destroyed_spend hok, conjured_spend hok, supply_eq, supply_eq]
    dsimp only [issuedAt] at htotal ⊢
    omega
  | authorSet => rfl
  | @failed origin call e busy error =>
    -- a failed call moves nothing
    cases call with
    | setAuthor author => rfl
    | spend tx =>
      have hfailed : ¬ spendOk cfg st.storage tx = true := by simp [spendOk_eq_false error]
      obtain ⟨hconjured, hdestroyed⟩ := conjured_destroyed_of_failed hfailed
      rw [hdestroyed, hconjured]
      rfl
  | wasted busy unset =>
    rw [destroyed_finalize_of_none unset, issuedAt_finalize_of_none unset]
    rfl
  | @paid author reward busy set payout_eq =>
    obtain ⟨issued, hissued, hadd⟩ := Option.bind_eq_some_iff.mp payout_eq
    have hreward := Integers.toNat_of_add hadd
    have hle : (st.storage.rewardTotal.toNat + issued.toNat) % 2 ^ 128 ≤
        st.storage.rewardTotal.toNat + issued.toNat := Nat.mod_le _ _
    have houtgoing : outgoing valueWeight cfg
        ⟨st, .onFinalize, ⟨paidStorage cfg st.storage author reward, false⟩⟩ = 0 := rfl
    have hconjured : conjured cfg
        ⟨st, .onFinalize, ⟨paidStorage cfg st.storage author reward, false⟩⟩ = 0 := rfl
    -- the whole `RewardTotal` is paid out
    have hcarry : (paidStorage cfg st.storage author reward).rewardTotal.toNat = 0 := rfl
    rw [incoming_finalize set payout_eq, houtgoing] at htotal
    rw [destroyed_finalize set, issuedAt_finalize set, hissued, Option.elim_some, hconjured,
      supply_eq, supply_eq]
    dsimp only at htotal ⊢
    omega

/-- Over a run whose steps file under new keys, the books of the supply balance. -/
theorem supply_books {s : Storage} (hrun : ChainRun cfg s trace st)
    (hfresh : ∀ t ∈ trace, FilesFresh cfg t) :
    supply st.storage + (trace.map (destroyed cfg)).sum =
      supply s + ((trace.map (issuedAt cfg)).sum + (trace.map (conjured cfg)).sum) := by
  rw [← List.sum_map_add]
  exact hrun.measure_add_losses (fun st => supply st.storage)
    (fun t => issuedAt cfg t + conjured cfg t) (destroyed cfg) hfresh
    fun hstep hfresh => supply_step (chainStep_eq_some_iff.mp hstep) hfresh

/-- Over a run without a hash collision, the supply and what was destroyed are the supply of
genesis, the issuance and what was conjured up. -/
theorem supply_run (hrun : ChainRun cfg (genesis cfg utxos) trace st)
    (hinj : Set.InjOn cfg.blakeTwo256 {p | p ∈ runPreimages cfg utxos trace}) :
    supply st.storage + (trace.map (destroyed cfg)).sum =
      supply (genesis cfg utxos) +
        ((trace.map (issuedAt cfg)).sum + (trace.map (conjured cfg)).sum) :=
  supply_books hrun (filesFresh_of_injOn hrun hinj)

/-! ## Nothing lost and nothing gained -/

/-- The entries a step spends are worth at most the whole store. -/
theorem outgoing_le_total (w : TransactionOutput → ℕ) (t : Transition ChainState Action) :
    outgoing w cfg t ≤ t.pre.storage.utxoStore.total w := by
  have htotal := Finmap.total_eraseAll (w := w) (spentBy cfg t).nodup_dedup fun k hk =>
    mem_utxoStore_of_mem_spentBy (List.mem_dedup.mp hk)
  rw [outgoing]
  omega

theorem conjured_eq_zero {t : Transition ChainState Action} (hclaim : ¬ ClaimsTwice cfg t) :
    conjured cfg t = 0 := by
  obtain ⟨st, label, st'⟩ := t
  cases label with
  | onInitialize number => rfl
  | onFinalize => rfl
  | call origin call =>
    cases call with
    | setAuthor author => rfl
    | spend tx =>
      by_cases hok : spendOk cfg st.storage tx = true
      · rw [conjured_spend hok, inputTotal_eq_outgoing hok hclaim, Nat.sub_self]
      · exact (conjured_destroyed_of_failed hok).1

/-- While the supply fits into a `u64`, fees and rewards fit where they are kept. -/
theorem destroyed_eq_zero {t : Transition ChainState Action} (hclaim : ¬ ClaimsTwice cfg t)
    (hsupply : supply t.pre.storage < 2 ^ 64) (hissued : issuedAt cfg t < 2 ^ 64) :
    destroyed cfg t = 0 := by
  obtain ⟨st, label, st'⟩ := t
  rw [supply_eq] at hsupply
  dsimp only at hsupply
  cases label with
  | onInitialize number => rfl
  | onFinalize =>
    cases hauthor : st.storage.author with
    | none => exact destroyed_finalize_of_none hauthor
    | some author =>
      rw [issuedAt_finalize hauthor] at hissued
      rw [destroyed_finalize hauthor, Nat.mod_eq_of_lt (by omega), Nat.sub_self]
  | call origin call =>
    cases call with
    | setAuthor author => rfl
    | spend tx =>
      by_cases hok : spendOk cfg st.storage tx = true
      · have hle : outgoing valueWeight cfg ⟨st, .call origin (.spend tx), st'⟩ ≤
            st.storage.utxoStore.total valueWeight := outgoing_le_total _ _
        rw [← inputTotal_eq_outgoing hok hclaim] at hle
        have hcredited : creditedFee st.storage.utxoStore tx =
            inputTotal st.storage.utxoStore tx - tx.outputTotal := Nat.mod_eq_of_lt (by omega)
        rw [destroyed_spend hok, hcredited, Nat.sub_self]
      · exact (conjured_destroyed_of_failed hok).2

/-- The double claim conjures up the value of the coin, and nothing is destroyed. -/
theorem supply_run_attack :
    (Attack.run.1.map (conjured Attack.config)).sum = 100 ∧
      supply Attack.run.2.storage = supply (genesis Attack.config Sample.coins) + 100 := by
  have hconjured : (Attack.run.1.map (conjured Attack.config)).sum = 100 := by decide +kernel
  have hissued : (Attack.run.1.map (issuedAt Attack.config)).sum = 0 := by decide +kernel
  have hdestroyed : (Attack.run.1.map (destroyed Attack.config)).sum = 0 := by decide +kernel
  have hsupply := supply_run Attack.chainRun (injOn_of_nodup_map (by decide +kernel))
  rw [hconjured, hissued, hdestroyed] at hsupply
  exact ⟨hconjured, by omega⟩

end PowEvm
