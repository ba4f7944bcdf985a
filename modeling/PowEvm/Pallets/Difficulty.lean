import PowEvm.Pallets.Rewards

/-!
# The difficulty pallet

`pallets/difficulty`: the root call that sets the difficulty of the blocks to come, the genesis
builder, and the runtime API the node reads the difficulty with. The API unwraps the storage item,
which never stops the program on a chain that was started by the genesis builder.

## Main results

* `run_setDifficulty`: only the root sets the difficulty, and announces it;
* `executeAll_eq`: a list of calls leaves the last difficulty the root set, or the one there was.
-/

namespace PowEvm.Difficulty

open BlockAuthor (Origin)
open Rewards (ensureRoot update? updates)

/-- `pallet::Event`. -/
inductive Event where
  /-- Difficulty has been updated. -/
  | difficultyUpdated (difficulty : U256)
  deriving DecidableEq

/-- The difficulty, and the events the pallet has deposited. -/
structure Storage where
  difficulty : Option U256
  events : List Event
  deriving DecidableEq

/-- `GenesisBuild::build`. -/
def genesis (difficulty : U256) : Storage := ⟨some difficulty, []⟩

/-- `Self::deposit_event`. -/
def Storage.depositEvent (s : Storage) (event : Event) : Storage :=
  { s with events := s.events ++ [event] }

/-- `set_difficulty`. -/
def setDifficulty (origin : Origin) (difficulty : U256) : EStateM DispatchError Storage Unit := do
  ofExcept (ensureRoot origin)
  modify fun s => { s with difficulty := some difficulty }
  modify fun s => s.depositEvent (.difficultyUpdated difficulty)

/-- `DifficultyApi::difficulty` of the runtime, `none` where `unwrap` stops the program. -/
def difficulty (s : Storage) : Option U256 := s.difficulty

/-! ## Calls -/

/-- A call of `set_difficulty`, with its origin. -/
abbrev SetCall := Origin × U256

/-- The storage after a call, also after one that returned an error. -/
def execute (s : Storage) (call : SetCall) : Storage :=
  match (setDifficulty call.1 call.2).run s with
  | .ok _ s' => s'
  | .error _ s' => s'

/-- The storage after a list of calls. -/
def executeAll (s : Storage) (calls : List SetCall) : Storage := calls.foldl execute s

variable {s : Storage}

/-- Setting the difficulty either does so or refuses before it writes. -/
theorem run_setDifficulty (origin : Origin) (difficulty : U256) (s : Storage) :
    (setDifficulty origin difficulty).run s =
      if origin = .root then
        .ok () ({ s with difficulty := some difficulty }.depositEvent
          (.difficultyUpdated difficulty))
      else .error .badOrigin s := by
  cases origin with
  | root => rfl
  | signed who => rfl
  | none => rfl

theorem execute_of_some {call : SetCall} {d : U256} (h : update? call = some d) :
    execute s call = ⟨some d, s.events ++ [.difficultyUpdated d]⟩ := by
  obtain ⟨origin, d'⟩ := call
  obtain ⟨rfl, hd⟩ := Option.ite_none_right_eq_some.mp h
  obtain rfl := Option.some.inj hd
  rw [execute, run_setDifficulty, if_pos rfl]
  rfl

theorem execute_of_none {call : SetCall} (h : update? call = none) : execute s call = s := by
  have horigin : call.1 ≠ .root := by simpa [update?] using h
  rw [execute, run_setDifficulty, if_neg horigin]

theorem executeAll_append (calls calls' : List SetCall) :
    executeAll s (calls ++ calls') = executeAll (executeAll s calls) calls' :=
  List.foldl_append

/-- A list of calls leaves the last difficulty the root set, or the one there was, and one event for
each difficulty the root set. -/
theorem executeAll_eq (s : Storage) (calls : List SetCall) :
    executeAll s calls =
      ⟨(updates calls).getLast?.or s.difficulty,
        s.events ++ (updates calls).map .difficultyUpdated⟩ := by
  induction calls using List.reverseRecOn with
  | nil => simp [executeAll, updates]
  | append_singleton calls call ih =>
    rw [executeAll_append, ih]
    change execute _ call = _
    cases hcall : update? call with
    | none => simp [execute_of_none hcall, updates, hcall]
    | some d => simp [execute_of_some hcall, updates, hcall]

/-- On a chain that was started by the genesis builder the API always answers, with the last
difficulty the root set or the configured one. -/
theorem difficulty_executeAll_genesis (d : U256) (calls : List SetCall) :
    difficulty (executeAll (genesis d) calls) = some ((updates calls).getLastD d) := by
  rw [executeAll_eq, difficulty, genesis, List.getLastD_eq_getLast?]
  cases (updates calls).getLast? <;> rfl

end PowEvm.Difficulty
