import PowEvm.Runtime.Filings

/-!
# The signed message

An owner signs the encoding of the transaction with every sigscript zeroed. What is left of a
transaction then is its outpoints and its outputs, in order, and the encoding determines them: the
signature covers everything but the signatures.

## Main results

* `stripped_eq_iff`: what zeroing the sigscripts forgets;
* `getSimpleTransaction_eq_iff`: the transactions with the same signed message.
-/

namespace PowEvm.Utxo

variable {tx a b : Transaction}

/-- A transaction with every sigscript zeroed. -/
def stripped (tx : Transaction) : Transaction :=
  { tx with
    inputs := tx.inputs.map fun input => { input with sigscript := List.Vector.replicate 64 0 } }

theorem outpoints_stripped (tx : Transaction) : (stripped tx).outpoints = tx.outpoints := by
  unfold stripped Transaction.outpoints
  rw [List.map_map]
  rfl

/-- The stripped inputs are made of the outpoints. -/
theorem inputs_stripped (tx : Transaction) :
    (stripped tx).inputs = tx.outpoints.map fun k => ⟨k, List.Vector.replicate 64 0⟩ := by
  unfold stripped Transaction.outpoints
  rw [List.map_map]
  rfl

/-- Zeroing the sigscripts forgets nothing else. -/
theorem stripped_eq_iff :
    stripped a = stripped b ↔ a.outputs = b.outputs ∧ a.outpoints = b.outpoints := by
  refine ⟨?_, ?_⟩
  · intro h
    have houtpoints := congrArg Transaction.outpoints h
    rw [outpoints_stripped, outpoints_stripped] at houtpoints
    have houtputs : (stripped a).outputs = (stripped b).outputs := congrArg Transaction.outputs h
    exact ⟨houtputs, houtpoints⟩
  · rintro ⟨houtputs, houtpoints⟩
    have hinputs : (stripped a).inputs = (stripped b).inputs := by
      rw [inputs_stripped, inputs_stripped, houtpoints]
    exact (Transaction.mk.injEq ..).mpr ⟨hinputs, houtputs⟩

/-- A transaction whose vectors have `u32` lengths has a signed message. -/
theorem exists_getSimpleTransaction (hinputs : tx.inputs.length < 2 ^ 32)
    (houtputs : tx.outputs.length < 2 ^ 32) :
    ∃ message, getSimpleTransaction tx = some message := by
  apply Transaction.exists_encode_iff.mpr
  rw [List.length_map]
  exact ⟨hinputs, houtputs⟩

/-- Two transactions have the same signed message exactly when they have the same outputs and the
same outpoints, in order. -/
theorem getSimpleTransaction_eq_iff (hinputs : a.inputs.length < 2 ^ 32)
    (houtputs : a.outputs.length < 2 ^ 32) :
    getSimpleTransaction a = getSimpleTransaction b ↔
      a.outputs = b.outputs ∧ a.outpoints = b.outpoints := by
  obtain ⟨message, hmessage⟩ := exists_getSimpleTransaction hinputs houtputs
  rw [← stripped_eq_iff]
  refine ⟨?_, ?_⟩
  · -- the message is an encoding, and decodes to one transaction only
    intro h
    have hmessage' : getSimpleTransaction b = some message := h ▸ hmessage
    exact Transaction.encode_inj hmessage hmessage'
  · intro h
    exact congrArg Transaction.encode h

/-- Another signature leaves the message as it is. -/
theorem getSimpleTransaction_eq_sample :
    getSimpleTransaction Sample.aliceSpends =
      getSimpleTransaction { Sample.aliceSpends with
        inputs := [⟨Sample.aliceCoin, Sample.signature Sample.alice 2⟩] } :=
  (getSimpleTransaction_eq_iff (by decide) (by decide)).mpr ⟨rfl, rfl⟩

end PowEvm.Utxo
