import PowEvm.Library.Transition
import PowEvm.Runtime.BlockAuthor
import PowEvm.Runtime.Issuance
import PowEvm.Runtime.Utxo

/-!
# Block execution

The chain as a transition system: each block initializes, dispatches calls and finalizes, with
strictly increasing block numbers. A call that returns an error leaves what it wrote, without the
rollback of the framework. A panic stops the execution of the block, so there is no step for it.
-/

namespace PowEvm

open BlockAuthor (Origin)

/-- The calls of the two pallets. -/
inductive Call where
  | spend (transaction : Transaction)
  | setAuthor (author : Public)
  deriving DecidableEq

/-- Dispatch a call with an origin. -/
def dispatch (cfg : Config) (origin : Origin) : Call → Dispatch Unit
  | .spend transaction => Utxo.spend cfg transaction
  | .setAuthor author => BlockAuthor.setAuthor origin author

/-- The steps of block execution. -/
inductive Action where
  | onInitialize (number : BlockNumber)
  | call (origin : Origin) (call : Call)
  | onFinalize
  deriving DecidableEq

/-- The storage, and whether a block is being executed. -/
structure ChainState where
  storage : Storage
  inBlock : Bool
  deriving DecidableEq

/-- The storage after a call or hook has returned, in whichever way. -/
def settle : EStateM.Result Failure Storage Unit → Option Storage
  | .ok () s => some s
  | .error (.error _) s => some s
  | .error .panic _ => none

/-- One step of block execution. -/
def chainStep (cfg : Config) (st : ChainState) : Action → Option ChainState
  | .onInitialize number =>
    if st.inBlock = false ∧ st.storage.number < number then
      some ⟨BlockAuthor.onInitialize { st.storage with number := number }, true⟩
    else none
  | .call origin call =>
    if st.inBlock then
      (settle ((dispatch cfg origin call).run st.storage)).map (ChainState.mk · true)
    else none
  | .onFinalize =>
    if st.inBlock then
      (settle ((Utxo.onFinalize cfg).run st.storage)).map (ChainState.mk · false)
    else none

/-- The runs of the chain from a given storage, between two blocks. -/
abbrev ChainRun (cfg : Config) (s : Storage) :
    List (Transition ChainState Action) → ChainState → Prop :=
  Run (chainStep cfg) ⟨s, false⟩

end PowEvm
