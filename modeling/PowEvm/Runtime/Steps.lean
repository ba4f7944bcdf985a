import PowEvm.Runtime.Chain
import PowEvm.Runtime.Spending

/-!
# What a step of the chain does

The steps of block execution as a relation with one constructor for each thing that can happen.
Every invariant of the chain is proved by cases on it, and none looks into a hook or a call again.

## Main results

* `run_onFinalize_of_none`, `run_onFinalize_of_some`, `run_disperseReward`: what finalizing does;
* `chainStep_eq_some_iff`: `Effect` is exactly the step function.
-/

namespace PowEvm

open Utxo

variable {cfg : Config} {s s' : Storage} {st st' : ChainState}

/-! ## Finalization -/

/-- The reward of the block being finalized, `none` where computing it stops the program. -/
def payout (cfg : Config) (s : Storage) : Option Value := do
  let issued ← cfg.issuance s.number
  Integers.add cfg.overflowChecks s.rewardTotal issued

/-- The storage after an author was paid. -/
def paidStorage (cfg : Config) (s : Storage) (author : Public) (reward : Value) : Storage :=
  { s with
    utxoStore := s.utxoStore.insert (rewardHash cfg ⟨reward, author⟩ s.number) ⟨reward, author⟩
    rewardTotal := 0
    events := s.events ++ [.rewardsIssued reward (rewardHash cfg ⟨reward, author⟩ s.number)] }

/-- The storage after a block without an author was finalized. -/
def wastedStorage (s : Storage) : Storage := { s with events := s.events ++ [.rewardsWasted] }

/-- A block without an author writes an event only: `RewardTotal` is carried over. -/
theorem run_onFinalize_of_none (h : s.author = none) :
    (onFinalize cfg).run s = .ok () (wastedStorage s) := by
  unfold onFinalize
  rw [EStateM.run_get_bind, h]
  rfl

/-- Dispersing pays out `RewardTotal` and the issuance, unless computing their sum stops the
program. -/
theorem run_disperseReward (cfg : Config) (s : Storage) (author : Public) :
    (disperseReward cfg author).run s =
      match payout cfg s with
      | some reward => .ok () (paidStorage cfg s author reward)
      | none => .error .panic { s with rewardTotal := 0 } := by
  unfold disperseReward payout
  -- `take` has emptied `RewardTotal` before the issuance is computed
  rw [EStateM.run_get_bind, EStateM.run_modify_bind, EStateM.run_get_bind]
  dsimp only
  cases cfg.issuance s.number with
  | none =>
    simp only [orPanic, Option.elim_none, EStateM.run_ofExcept_error_bind]
    rfl
  | some issued =>
    simp only [orPanic, Option.elim_some, EStateM.run_ofExcept_ok_bind, Option.bind_eq_bind,
      Option.bind_some]
    cases Integers.add cfg.overflowChecks s.rewardTotal issued with
    | none =>
      simp only [Option.elim_none, EStateM.run_ofExcept_error_bind]
    | some reward =>
      simp only [Option.elim_some, EStateM.run_ofExcept_ok_bind]
      rfl

/-- A block with an author disperses the reward to it. -/
theorem run_onFinalize_of_some {author : Public} (h : s.author = some author) :
    (onFinalize cfg).run s = (disperseReward cfg author).run s := by
  unfold onFinalize
  rw [EStateM.run_get_bind, h]

/-! ## The steps -/

/-- What one step of block execution can do. -/
inductive Effect (cfg : Config) (st : ChainState) : Action → ChainState → Prop
  | initialized {number : BlockNumber} (idle : st.inBlock = false)
      (later : st.storage.number < number) :
      Effect cfg st (.onInitialize number)
        ⟨{ st.storage with number := number, author := none }, true⟩
  | spent {origin : BlockAuthor.Origin} {tx : Transaction} {message stem : Bytes}
      (busy : st.inBlock = true) (spendable : Spendable cfg st.storage tx message stem) :
      Effect cfg st (.call origin (.spend tx)) ⟨spentStorage cfg st.storage tx, true⟩
  | authorSet {author : Public} (busy : st.inBlock = true) (unset : st.storage.author = none) :
      Effect cfg st (.call .none (.setAuthor author))
        ⟨{ st.storage with author := some author }, true⟩
  | failed {origin : BlockAuthor.Origin} {call : Call} {e : DispatchError}
      (busy : st.inBlock = true)
      (error : (dispatch cfg origin call).run st.storage = .error (.error e) st.storage) :
      Effect cfg st (.call origin call) st
  | wasted (busy : st.inBlock = true) (unset : st.storage.author = none) :
      Effect cfg st .onFinalize ⟨wastedStorage st.storage, false⟩
  | paid {author : Public} {reward : Value} (busy : st.inBlock = true)
      (set : st.storage.author = some author) (payout_eq : payout cfg st.storage = some reward) :
      Effect cfg st .onFinalize ⟨paidStorage cfg st.storage author reward, false⟩

/-- Setting the author either does so or refuses before it writes. -/
theorem run_setAuthor (origin : BlockAuthor.Origin) (author : Public) (s : Storage) :
    (BlockAuthor.setAuthor origin author).run s =
      if origin = .none then
        if s.author = none then .ok () { s with author := some author }
        else .error (.error .authorAlreadySet) s
      else .error (.error .badOrigin) s := by
  unfold BlockAuthor.setAuthor
  -- the origin is checked before the author is read
  cases origin with
  | root => rfl
  | signed who => rfl
  | none =>
    change (BlockAuthor.setAuthor .none author).run s = _
    obtain ⟨utxoStore, rewardTotal, author', number, events⟩ := s
    cases author' with
    | none => rfl
    | some author' => rfl

/-- A call that does not return normally leaves the storage as it was. -/
theorem run_dispatch_eq_error {origin : BlockAuthor.Origin} {call : Call} {e : Failure}
    (h : (dispatch cfg origin call).run s = .error e s') : s' = s := by
  cases call with
  | spend tx => exact run_spend_eq_error h
  | setAuthor author =>
    change (BlockAuthor.setAuthor origin author).run s = _ at h
    rw [run_setAuthor] at h
    split_ifs at h
    · exact (EStateM.Result.error.inj h).2.symm
    · exact (EStateM.Result.error.inj h).2.symm

theorem settle_eq_some_iff {r : EStateM.Result Failure Storage Unit} :
    settle r = some s ↔ r = .ok () s ∨ ∃ e, r = .error (.error e) s := by
  rcases r with ⟨⟨⟩, t⟩ | ⟨_ | _, t⟩
  · simp [settle]
  · simp [settle]
  · simp [settle]

/-- A successful call is a `spend` or an unset author being set. -/
theorem effect_of_run_dispatch {origin : BlockAuthor.Origin} {call : Call}
    (busy : st.inBlock = true) (h : (dispatch cfg origin call).run st.storage = .ok () s') :
    Effect cfg st (.call origin call) ⟨s', true⟩ := by
  cases call with
  | spend tx =>
    obtain ⟨⟨message, stem, hspendable⟩, rfl⟩ := run_spend_eq_ok_iff.mp h
    exact .spent busy hspendable
  | setAuthor author =>
    change (BlockAuthor.setAuthor origin author).run st.storage = _ at h
    rw [run_setAuthor] at h
    split_ifs at h with horigin hunset
    obtain ⟨-, rfl⟩ := EStateM.Result.ok.inj h
    subst horigin
    exact .authorSet busy hunset

/-- Every step has an effect. -/
theorem effect_of_chainStep {action : Action} (h : chainStep cfg st action = some st') :
    Effect cfg st action st' := by
  unfold chainStep at h
  cases action with
  | onInitialize number =>
    dsimp only at h
    split_ifs at h with hguard
    obtain rfl := Option.some.inj h
    exact .initialized hguard.1 hguard.2
  | call origin call =>
    dsimp only at h
    split_ifs at h with hbusy
    obtain ⟨s', hsettle, rfl⟩ := Option.map_eq_some_iff.mp h
    rcases settle_eq_some_iff.mp hsettle with hok | ⟨e, herror⟩
    · exact effect_of_run_dispatch hbusy hok
    · -- an error settles in the storage the call left, which is the one it found
      obtain rfl := run_dispatch_eq_error herror
      have hst : (⟨st.storage, true⟩ : ChainState) = st := congrArg (ChainState.mk _) hbusy.symm
      rw [hst]
      exact .failed hbusy herror
  | onFinalize =>
    dsimp only at h
    split_ifs at h with hbusy
    obtain ⟨s', hsettle, rfl⟩ := Option.map_eq_some_iff.mp h
    cases hauthor : st.storage.author with
    | none =>
      rw [run_onFinalize_of_none hauthor] at hsettle
      obtain rfl := Option.some.inj hsettle
      exact .wasted hbusy hauthor
    | some author =>
      rw [run_onFinalize_of_some hauthor, run_disperseReward] at hsettle
      cases hpayout : payout cfg st.storage with
      | none =>
        -- a panic is no step
        rw [hpayout] at hsettle
        cases hsettle
      | some reward =>
        rw [hpayout] at hsettle
        obtain rfl := Option.some.inj hsettle
        exact .paid hbusy hauthor hpayout

/-- Every effect is a step. -/
theorem chainStep_of_effect {action : Action} (h : Effect cfg st action st') :
    chainStep cfg st action = some st' := by
  unfold chainStep
  cases h with
  | initialized idle later => exact if_pos ⟨idle, later⟩
  | @spent origin tx message stem busy spendable =>
    have hrun : (dispatch cfg origin (.spend tx)).run st.storage =
        .ok () (spentStorage cfg st.storage tx) :=
      run_spend_eq_ok_iff.mpr ⟨⟨message, stem, spendable⟩, rfl⟩
    dsimp only
    rw [if_pos busy, hrun]
    rfl
  | @authorSet author busy unset =>
    have hrun := run_setAuthor .none author st.storage
    rw [if_pos rfl, if_pos unset] at hrun
    dsimp only [dispatch]
    rw [if_pos busy, hrun]
    rfl
  | failed busy error =>
    -- the call ends in the storage it found, and the block stays open
    have hst : (⟨st.storage, true⟩ : ChainState) = st := congrArg (ChainState.mk _) busy.symm
    dsimp only
    rw [if_pos busy, error]
    exact congrArg some hst
  | wasted busy unset =>
    dsimp only
    rw [if_pos busy, run_onFinalize_of_none unset]
    rfl
  | paid busy set payout_eq =>
    dsimp only
    rw [if_pos busy, run_onFinalize_of_some set, run_disperseReward, payout_eq]
    rfl

/-- The effects are exactly the steps. -/
theorem chainStep_eq_some_iff {action : Action} :
    chainStep cfg st action = some st' ↔ Effect cfg st action st' :=
  ⟨effect_of_chainStep, chainStep_of_effect⟩

/-- The block number moves on between blocks only. -/
theorem Effect.number {action : Action} (h : Effect cfg st action st') :
    (st.inBlock = false ∧ st.storage.number < st'.storage.number) ∨
      (st.inBlock = true ∧ st'.storage.number = st.storage.number) := by
  cases h with
  | initialized idle later => exact Or.inl ⟨idle, later⟩
  | spent busy => exact Or.inr ⟨busy, rfl⟩
  | authorSet busy => exact Or.inr ⟨busy, rfl⟩
  | failed busy => exact Or.inr ⟨busy, rfl⟩
  | wasted busy => exact Or.inr ⟨busy, rfl⟩
  | paid busy => exact Or.inr ⟨busy, rfl⟩

end PowEvm
