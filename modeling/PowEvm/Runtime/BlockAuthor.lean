import PowEvm.Runtime.Types

/-!
# The block author pallet

`block_author.rs`: the inherent call that sets the author of a block, and the hook that forgets the
author of the block before.
-/

namespace PowEvm.BlockAuthor

/-- `frame_system::RawOrigin`. -/
inductive Origin where
  | root
  | signed (who : AccountId)
  | none
  deriving DecidableEq

/-- `ensure_none`. -/
def ensureNone : Origin → Except Failure Unit
  | .none => .ok ()
  | _ => .error (.error .badOrigin)

/-- `set_author`. -/
def setAuthor (origin : Origin) (author : Public) : Dispatch Unit := do
  ofExcept (ensureNone origin)
  if (← get).author.isSome then throw (.error .authorAlreadySet)
  modify fun s => { s with author := some author }

/-- `on_initialize`. -/
def onInitialize (s : Storage) : Storage := { s with author := none }

end PowEvm.BlockAuthor
