import Mathlib.Data.List.Perm.Basic
import Mathlib.Order.Basic
import Mathlib.Data.Set.Function

/-!
# Keeping the best of a stream

A stream of candidates is read once, the best one so far being replaced by the next one when that
one is better. Where better means a strictly smaller rank, the survivor has the least rank of all,
so it does not depend on the order of the stream when different candidates have different ranks. The
same holds of a set of candidates that is read in any order and more than once.

## Main results

* `survivor_eq_of_perm`: two streams of the same candidates keep the same one;
* `Least.insert`, `Least.unique`: keeping the best of a growing set, and that there is one best.
-/

namespace Selection

variable {α β : Type}

/-- Read the candidates in order, replacing `best` by the next one when `replaces best next`. -/
def survivor (replaces : α → α → Bool) (best : α) (candidates : List α) : α :=
  candidates.foldl (fun best next => if replaces best next then next else best) best

section Rank

variable [LinearOrder β] {rank : α → β} {replaces : α → α → Bool}
  (hreplaces : ∀ best next, replaces best next = true ↔ rank next < rank best)

include hreplaces

/-- The survivor is one of the candidates, and none has a smaller rank. -/
theorem survivor_mem_and_le (best : α) (candidates : List α) :
    survivor replaces best candidates ∈ best :: candidates ∧
      ∀ a ∈ best :: candidates, rank (survivor replaces best candidates) ≤ rank a := by
  induction candidates generalizing best with
  | nil => simp [survivor]
  | cons next candidates ih =>
    change survivor replaces (if replaces best next then next else best) candidates ∈ _ ∧
      ∀ a ∈ _, rank (survivor replaces (if replaces best next then next else best) candidates) ≤ _
    by_cases h : replaces best next = true
    · -- `next` takes over, and is below `best`
      obtain ⟨hmem, hle⟩ := ih next
      rw [if_pos h]
      refine ⟨List.mem_cons_of_mem _ hmem, fun a ha => ?_⟩
      rcases List.mem_cons.mp ha with rfl | ha
      · exact (hle next List.mem_cons_self).trans ((hreplaces _ _).mp h).le
      · exact hle a ha
    · -- `best` stays, and is not above `next`
      obtain ⟨hmem, hle⟩ := ih best
      have hnext : rank best ≤ rank next := not_lt.mp fun hlt => h ((hreplaces _ _).mpr hlt)
      rw [if_neg h]
      refine ⟨?_, fun a ha => ?_⟩
      · rcases List.mem_cons.mp hmem with heq | hmem
        · rw [heq]
          exact List.mem_cons_self
        · exact List.mem_cons_of_mem _ (List.mem_cons_of_mem _ hmem)
      · rcases List.mem_cons.mp ha with rfl | ha
        · exact hle a List.mem_cons_self
        · rcases List.mem_cons.mp ha with rfl | ha
          · exact (hle best List.mem_cons_self).trans hnext
          · exact hle a (List.mem_cons_of_mem _ ha)

/-- Two streams of the same candidates keep the same one. -/
theorem survivor_eq_of_perm {first first' : α} {rest rest' : List α}
    (hperm : (first :: rest).Perm (first' :: rest'))
    (hinj : Set.InjOn rank {a | a ∈ first :: rest}) :
    survivor replaces first rest = survivor replaces first' rest' := by
  obtain ⟨hmem, hle⟩ := survivor_mem_and_le hreplaces first rest
  obtain ⟨hmem', hle'⟩ := survivor_mem_and_le hreplaces first' rest'
  -- each survivor is a candidate of the other stream, so both have the least rank
  have hmemLeft := hperm.mem_iff.mpr hmem'
  exact hinj hmem hmemLeft (le_antisymm (hle _ hmemLeft) (hle' _ (hperm.mem_iff.mp hmem)))

end Rank

/-! ## Growing sets -/

section Least

variable [LinearOrder β] {rank : α → β} {s : Set α} {best best' : α}

/-- The candidate is in the set, and nothing in the set has a smaller rank. -/
structure Least (rank : α → β) (s : Set α) (best : α) : Prop where
  mem : best ∈ s
  rank_le : ∀ a ∈ s, rank best ≤ rank a

theorem Least.singleton (a : α) : Least rank {a} a where
  mem := rfl
  rank_le := fun _ hb => le_of_eq (congrArg rank hb.symm)

/-- Replacing the best one by a new one of a smaller rank keeps the best of all. -/
theorem Least.insert (h : Least rank s best) {next : α} {replaces : Bool}
    (hreplaces : replaces = true ↔ rank next < rank best) :
    Least rank (insert next s) (if replaces then next else best) := by
  split_ifs with hr
  · have hlt := hreplaces.mp hr
    refine ⟨Set.mem_insert _ _, ?_⟩
    rintro a (rfl | ha)
    · exact le_rfl
    · exact hlt.le.trans (h.rank_le a ha)
  · have hle : rank best ≤ rank next := not_lt.mp fun hlt => hr (hreplaces.mpr hlt)
    refine ⟨Set.mem_insert_of_mem _ h.mem, ?_⟩
    rintro a (rfl | ha)
    · exact hle
    · exact h.rank_le a ha

/-- Where different candidates have different ranks there is one best. -/
theorem Least.unique (hinj : Set.InjOn rank s) (h : Least rank s best) (h' : Least rank s best') :
    best = best' :=
  hinj h.mem h'.mem (le_antisymm (h.rank_le _ h'.mem) (h'.rank_le _ h.mem))

end Least

end Selection
