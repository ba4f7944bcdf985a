import PowEvm.Runtime.Filings

/-!
# What the event log tells

The events of the UTXO pallet are what the outside of the chain sees of it. An observer that starts
from the values of the genesis entries and reads nothing but the events keeps up with the UTXO store
and `RewardTotal` over every run: the events say enough, the calls that fail and the hooks that
log nothing change neither. What they do not say is who owns a reward.

The system pallet empties the event record at each block. The log is the records of all blocks, one
after the other.

## Main results

* `shows_step`: the observer takes the events of one step as the chain takes the step;
* `shows_run`: replaying the log of a run on what the start shows gives what the end shows.
-/

namespace PowEvm

open Utxo

/-- What an observer of the events knows: the value of each entry of the UTXO store, and
`RewardTotal`. -/
structure View where
  values : Finmap fun _ : H256 => Value
  rewardTotal : Value
  deriving DecidableEq

namespace View

variable {cfg : Config} {s : Storage} {st st' : ChainState} {action : Action}
  {trace : List (Transition ChainState Action)} {view : View} {tx : Transaction}

/-- The view is the one of the storage. -/
structure Shows (view : View) (s : Storage) : Prop where
  values : Finmap.Projects TransactionOutput.value s.utxoStore view.values
  rewardTotal : view.rewardTotal = s.rewardTotal

/-- The fee of a transaction, from the values the observer knows. -/
def fee (view : View) (tx : Transaction) : ℕ :=
  ((tx.outpoints.map (view.values.weightAt BitVec.toNat)).sum - tx.outputTotal) % 2 ^ 64

/-- What the observer does with an event. -/
def observe (cfg : Config) (view : View) : Event → View
  | .transactionSuccess tx =>
    { values := Finmap.insertAll ((createdEntries cfg tx).map (Prod.map id TransactionOutput.value))
        (Finmap.eraseAll tx.outpoints view.values)
      rewardTotal := BitVec.ofNat 128 (view.rewardTotal.toNat + view.fee tx) }
  | .rewardsIssued amount hash => { values := view.values.insert hash amount, rewardTotal := 0 }
  | .rewardsWasted => view

/-- The view after a list of events. -/
def observeAll (cfg : Config) (view : View) (log : List Event) : View :=
  log.foldl (observe cfg) view

theorem observeAll_append (log log' : List Event) :
    observeAll cfg view (log ++ log') = observeAll cfg (observeAll cfg view log) log' :=
  List.foldl_append

/-! ## Genesis -/

/-- The view of the configured outputs. -/
def ofGenesis (cfg : Config) (utxos : List TransactionOutput) : View where
  values := Finmap.insertAll (utxos.map fun u => (cfg.blakeTwo256 u.encode, u.value)) ∅
  rewardTotal := 0

theorem shows_genesis (cfg : Config) (utxos : List TransactionOutput) :
    (ofGenesis cfg utxos).Shows (genesis cfg utxos) where
  values := by
    have hempty : Finmap.Projects TransactionOutput.value (∅ : UtxoStore) ∅ := fun _ => rfl
    have hinserted := hempty.insertAll (utxos.map fun u => (cfg.blakeTwo256 u.encode, u))
    rwa [List.map_map] at hinserted
  rewardTotal := rfl

/-! ## Steps -/

/-- The observer computes the fee that the chain credits. -/
theorem Shows.fee_eq (h : view.Shows s) (tx : Transaction) :
    view.fee tx = creditedFee s.utxoStore tx := by
  have hinputs : tx.outpoints.map (view.values.weightAt BitVec.toNat) =
      tx.outpoints.map (valueOf s.utxoStore) :=
    List.map_congr_left fun k _ => h.values.weightAt_eq BitVec.toNat k
  rw [fee, hinputs]
  rfl

theorem Shows.spent (h : view.Shows s) (tx : Transaction) :
    (observe cfg view (.transactionSuccess tx)).Shows (spentStorage cfg s tx) where
  values := (h.values.eraseAll tx.outpoints).insertAll (createdEntries cfg tx)
  rewardTotal := by
    change BitVec.ofNat 128 (view.rewardTotal.toNat + view.fee tx) = BitVec.ofNat 128 _
    rw [h.fee_eq, h.rewardTotal]

theorem Shows.paid (h : view.Shows s) (author : Public) (reward : Value) :
    (observe cfg view (.rewardsIssued reward (rewardHash cfg ⟨reward, author⟩ s.number))).Shows
      (paidStorage cfg s author reward) where
  values := h.values.insert _ _
  rewardTotal := rfl

/-- Each step logs what the observer needs to follow it. -/
theorem shows_step (h : Effect cfg st action st') (hview : view.Shows st.storage) :
    ∃ log, st'.storage.events = st.storage.events ++ log ∧
      (observeAll cfg view log).Shows st'.storage := by
  cases h with
  | initialized => exact ⟨[], (List.append_nil _).symm, hview.values, hview.rewardTotal⟩
  | spent busy spendable => exact ⟨[_], rfl, hview.spent _⟩
  | authorSet => exact ⟨[], (List.append_nil _).symm, hview.values, hview.rewardTotal⟩
  | failed => exact ⟨[], (List.append_nil _).symm, hview⟩
  | wasted => exact ⟨[_], rfl, hview.values, hview.rewardTotal⟩
  | paid => exact ⟨[_], rfl, hview.paid _ _⟩

/-! ## Runs -/

/-- Replaying the log of a run on what the start shows gives what the end shows, with no assumption
about the hash. -/
theorem shows_run (hrun : ChainRun cfg s trace st) (hview : view.Shows s) :
    ∃ log, st.storage.events = s.events ++ log ∧ (observeAll cfg view log).Shows st.storage := by
  refine hrun.history_induct
    (motive := fun _ st => ∃ log, st.storage.events = s.events ++ log ∧
      (observeAll cfg view log).Shows st.storage) ?_ ?_
  · exact ⟨[], (List.append_nil _).symm, hview⟩
  · rintro trace st action st' - ⟨log, hevents, hshows⟩ hstep
    obtain ⟨log', hevents', hshows'⟩ := shows_step (chainStep_eq_some_iff.mp hstep) hshows
    refine ⟨log ++ log', ?_, ?_⟩
    · rw [hevents', hevents, List.append_assoc]
    · rwa [observeAll_append]

/-- The observer follows the sample run, at the end of which a fee of `5` is carried. -/
theorem shows_run_sample :
    (observeAll Sample.config (ofGenesis Sample.config Sample.coins)
        Sample.run.2.storage.events).Shows Sample.run.2.storage ∧
      (observeAll Sample.config (ofGenesis Sample.config Sample.coins)
        Sample.run.2.storage.events).rewardTotal = 5 := by
  obtain ⟨log, hevents, hshows⟩ := shows_run Sample.chainRun (shows_genesis _ _)
  rw [show Sample.run.2.storage.events = log from hevents]
  refine ⟨hshows, ?_⟩
  rw [hshows.rewardTotal]
  decide +kernel

end View

end PowEvm
