import Mathlib.Data.Set.Function

/-!
# Content-addressed ledgers

A ledger whose entries are filed under the hash of their own description. An item (the preimage of
a key) names the keys its creation spends, its parents; a step spends keys that are live and creates
the items of a batch, each of which spends only keys of that step. An item without parents is
created only if it was never created before.

The ledger does not remember the keys it has spent. It nevertheless never files two items under one
key as long as the hash has no collision among the items of its history: an item with a parent
cannot come back because the parent cannot.

## Main results

* `ContentLedger.Extends.fresh`: a step only creates items that are not in the history;
* `ContentLedger.Extends.key_notMem`: hence it files them under keys that were never used;
* `ContentLedger.Sound.of_extends`: soundness, which both rest on, is preserved by every step.
-/

/-- The keys that are live, and the items created so far, oldest first. -/
structure ContentLedger (K P : Type) where
  live : Set K
  history : List P

namespace ContentLedger

variable {K P : Type} {key : P → K} {parents : P → Set K} {L L' : ContentLedger K P}
  {spent : Set K} {batch : List P}

/-- Every live key belongs to an item of the history, and a key that an item of the history has
spent belongs to one too but is no longer live. -/
structure Sound (key : P → K) (parents : P → Set K) (L : ContentLedger K P) : Prop where
  live_known : ∀ k ∈ L.live, ∃ p ∈ L.history, key p = k
  parents_known : ∀ p ∈ L.history, ∀ k ∈ parents p, ∃ q ∈ L.history, key q = k
  parents_spent : ∀ p ∈ L.history, ∀ k ∈ parents p, k ∉ L.live

/-- A step from `L` to `L'` that spends the keys `spent` and creates the items of `batch`. -/
structure Extends (key : P → K) (parents : P → Set K) (spent : Set K) (batch : List P)
    (L L' : ContentLedger K P) : Prop where
  spent_live : spent ⊆ L.live
  parents_eq : ∀ p ∈ batch, parents p = spent
  orphans_fresh : spent = ∅ → ∀ p ∈ batch, p ∉ L.history
  live_eq : L'.live = L.live \ spent ∪ {k | ∃ p ∈ batch, key p = k}
  history_eq : L'.history = L.history ++ batch

/-- A ledger that starts with items that have no parents is sound. -/
theorem sound_of_orphans (hkeys : L.live = {k | ∃ p ∈ L.history, key p = k})
    (horphans : ∀ p ∈ L.history, parents p = ∅) : Sound key parents L where
  live_known k hk := by
    rw [hkeys] at hk
    exact hk
  parents_known p hp k hk := by
    rw [horphans p hp] at hk
    exact absurd hk (Set.notMem_empty k)
  parents_spent p hp k hk := by
    rw [horphans p hp] at hk
    exact absurd hk (Set.notMem_empty k)

/-- An item of the history is not created again. -/
theorem Extends.fresh (h : Extends key parents spent batch L L') (hsound : Sound key parents L)
    {p : P} (hp : p ∈ batch) : p ∉ L.history := by
  rcases Set.eq_empty_or_nonempty spent with hspent | ⟨k, hk⟩
  · exact h.orphans_fresh hspent p hp
  · -- a parent of `p` is live before the step, but no parent of an item of the history is
    intro hhistory
    have hparent : k ∈ parents p := by
      rw [h.parents_eq p hp]
      exact hk
    exact hsound.parents_spent p hhistory k hparent (h.spent_live hk)

variable (hinj : Set.InjOn key {p | p ∈ L'.history})

include hinj

/-- A key filed by a step was never filed before it. -/
theorem Extends.key_notMem (h : Extends key parents spent batch L L')
    (hsound : Sound key parents L) {p : P} (hp : p ∈ batch) :
    ∀ q ∈ L.history, key q ≠ key p := by
  intro q hq heq
  have hq' : q ∈ L'.history := by
    rw [h.history_eq]
    exact List.mem_append_left _ hq
  have hp' : p ∈ L'.history := by
    rw [h.history_eq]
    exact List.mem_append_right _ hp
  obtain rfl := hinj hq' hp' heq
  exact h.fresh hsound hp hq

/-- A key filed by a step is neither live before it nor spent by it. -/
theorem Extends.key_notMem_live (h : Extends key parents spent batch L L')
    (hsound : Sound key parents L) {p : P} (hp : p ∈ batch) : key p ∉ L.live := by
  intro hlive
  obtain ⟨q, hq, heq⟩ := hsound.live_known _ hlive
  exact h.key_notMem hinj hsound hp q hq heq

/-- Every step preserves soundness. -/
theorem Sound.of_extends (hsound : Sound key parents L)
    (h : Extends key parents spent batch L L') : Sound key parents L' where
  live_known k hk := by
    rw [h.live_eq] at hk
    rw [h.history_eq]
    rcases hk with ⟨hk, -⟩ | ⟨p, hp, rfl⟩
    · obtain ⟨q, hq, rfl⟩ := hsound.live_known k hk
      exact ⟨q, List.mem_append_left _ hq, rfl⟩
    · exact ⟨p, List.mem_append_right _ hp, rfl⟩
  parents_known p hp k hk := by
    rw [h.history_eq] at hp ⊢
    rcases List.mem_append.mp hp with hp | hp
    · obtain ⟨q, hq, rfl⟩ := hsound.parents_known p hp k hk
      exact ⟨q, List.mem_append_left _ hq, rfl⟩
    · -- a new item spends live keys, and those are known
      rw [h.parents_eq p hp] at hk
      obtain ⟨q, hq, rfl⟩ := hsound.live_known k (h.spent_live hk)
      exact ⟨q, List.mem_append_left _ hq, rfl⟩
  parents_spent p hp k hk hlive := by
    rw [h.history_eq] at hp
    rw [h.live_eq] at hlive
    rcases List.mem_append.mp hp with hp | hp
    · rcases hlive with ⟨hlive, -⟩ | ⟨r, hr, rfl⟩
      · exact hsound.parents_spent p hp k hk hlive
      · -- the parent of an old item is filed under an old key
        obtain ⟨q, hq, heq⟩ := hsound.parents_known p hp _ hk
        exact h.key_notMem hinj hsound hr q hq heq
    · rw [h.parents_eq p hp] at hk
      -- the step has just spent `k`, and files no key that was live
      rcases hlive with ⟨-, hspent⟩ | ⟨r, hr, rfl⟩
      · exact hspent hk
      · exact h.key_notMem_live hinj hsound hr (h.spent_live hk)

end ContentLedger
