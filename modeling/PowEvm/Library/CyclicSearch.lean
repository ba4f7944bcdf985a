import Mathlib.Algebra.GroupWithZero.Nat
import Mathlib.Algebra.Order.Group.Nat
import Mathlib.Data.Nat.Find
import Mathlib.Data.Nat.ModEq
import Mathlib.Logic.Function.Iterate

/-!
# Searching a cycle

A loop that tries the residues modulo `m`, one an iteration, and goes on to the next residue after
each miss. What it does after a hit is left open.

## Main results

* `CyclicSearch.Advances.position_iterate`: where the loop is after a number of misses;
* `CyclicSearch.Advances.position_ne`: within one turn no residue is tried twice;
* `CyclicSearch.Advances.exists_first_hit`: if there is a residue to be found, one turn finds the
  first one in cyclic order.
-/

namespace CyclicSearch

variable {m start : ℕ}

/-- Within one turn, different distances from the start lead to different residues. -/
theorem eq_of_mod_eq {i j : ℕ} (hi : i < m) (hj : j < m)
    (h : (start + i) % m = (start + j) % m) : i = j :=
  (Nat.ModEq.add_left_cancel' start h).eq_of_lt_of_lt hi hj

/-- Within one turn every residue is passed. -/
theorem exists_distance (hstart : start < m) {n : ℕ} (hn : n < m) :
    ∃ k < m, (start + k) % m = n := by
  by_cases hle : start ≤ n
  · refine ⟨n - start, by omega, ?_⟩
    rw [Nat.add_sub_cancel' hle, Nat.mod_eq_of_lt hn]
  · -- the residue comes after the wrap
    refine ⟨m - start + n, by omega, ?_⟩
    rw [show start + (m - start + n) = m + n by omega, Nat.add_mod_left, Nat.mod_eq_of_lt hn]

/-- The first residue of a kind in cyclic order. -/
theorem exists_first {Hit : ℕ → Prop} (hstart : start < m) (h : ∃ n < m, Hit n) :
    ∃ k < m, Hit ((start + k) % m) ∧ ∀ j < k, ¬ Hit ((start + j) % m) := by
  classical
  obtain ⟨n, hn, hhit⟩ := h
  obtain ⟨k, hk, hmod⟩ := exists_distance hstart hn
  have hex : ∃ k, Hit ((start + k) % m) := ⟨k, hmod.symm ▸ hhit⟩
  have hle : Nat.find hex ≤ k := Nat.find_min' hex (hmod.symm ▸ hhit)
  exact ⟨Nat.find hex, hle.trans_lt hk, Nat.find_spec hex, fun j hj => Nat.find_min hex hj⟩

section Loop

variable {σ τ : Type} {next : σ → σ} {position : σ → ℕ} {Hit : ℕ → Prop} {s : σ}

/-- After a miss the loop goes on to the next residue. -/
def Advances (m : ℕ) (next : σ → σ) (position : σ → ℕ) (Hit : ℕ → Prop) : Prop :=
  ∀ s, position s < m → ¬ Hit (position s) → position (next s) = (position s + 1) % m

/-- The loop misses in its first `k` iterations from `s`. -/
def Misses (next : σ → σ) (position : σ → ℕ) (Hit : ℕ → Prop) (s : σ) (k : ℕ) : Prop :=
  ∀ j < k, ¬ Hit (position (next^[j] s))

theorem Misses.mono {k k' : ℕ} (hk : k ≤ k') (hmiss : Misses next position Hit s k') :
    Misses next position Hit s k :=
  fun j hj => hmiss j (hj.trans_le hk)

/-- What no miss changes is unchanged after a number of them. -/
theorem Misses.frame {f : σ → τ} (hf : ∀ s, ¬ Hit (position s) → f (next s) = f s) {k : ℕ}
    (hmiss : Misses next position Hit s k) : f (next^[k] s) = f s := by
  induction k with
  | zero => rfl
  | succ k ih =>
    rw [Function.iterate_succ_apply', hf _ (hmiss k k.lt_succ_self)]
    exact ih (hmiss.mono k.le_succ)

/-- Each miss moves the loop one residue further. -/
theorem Advances.position_iterate (h : Advances m next position Hit) (hs : position s < m) {k : ℕ}
    (hmiss : Misses next position Hit s k) : position (next^[k] s) = (position s + k) % m := by
  induction k with
  | zero => exact (Nat.mod_eq_of_lt hs).symm
  | succ k ih =>
    have hprevious := ih (hmiss.mono k.le_succ)
    have hlt : position (next^[k] s) < m := hprevious ▸ Nat.mod_lt _ (by omega)
    rw [Function.iterate_succ_apply', h _ hlt (hmiss k k.lt_succ_self), hprevious,
      Nat.mod_add_mod, Nat.add_assoc]

/-- Within one turn of misses no residue is tried twice. -/
theorem Advances.position_ne (h : Advances m next position Hit) (hs : position s < m) {i j : ℕ}
    (hij : i < j) (hj : j < m) (hmiss : Misses next position Hit s j) :
    position (next^[i] s) ≠ position (next^[j] s) := by
  intro heq
  rw [h.position_iterate hs (hmiss.mono hij.le), h.position_iterate hs hmiss] at heq
  exact absurd (eq_of_mod_eq (hij.trans hj) hj heq) hij.ne

/-- The residues tried in a number of misses are the ones that follow the start. -/
theorem Advances.misses_iff (h : Advances m next position Hit) (hs : position s < m) {k : ℕ} :
    Misses next position Hit s k ↔ ∀ j < k, ¬ Hit ((position s + j) % m) := by
  refine ⟨?_, ?_⟩
  · intro hmiss j hj
    rw [← h.position_iterate hs (hmiss.mono hj.le)]
    exact hmiss j hj
  · intro hfollowing
    induction k with
    | zero => exact fun j hj => absurd hj (Nat.not_lt_zero j)
    | succ k ih =>
      have hbefore := ih fun j hj => hfollowing j (Nat.lt_succ_of_lt hj)
      intro j hj
      rw [h.position_iterate hs (hbefore.mono (Nat.le_of_lt_succ hj))]
      exact hfollowing j hj

/-- If there is a residue to be found, one turn finds the first one in cyclic order. -/
theorem Advances.exists_first_hit (h : Advances m next position Hit) (hs : position s < m)
    (hex : ∃ n < m, Hit n) :
    ∃ k < m, Misses next position Hit s k ∧ Hit (position (next^[k] s)) := by
  obtain ⟨k, hk, hhit, hfirst⟩ := exists_first hs hex
  have hmiss := (h.misses_iff hs).mpr hfirst
  have hposition := h.position_iterate hs hmiss
  exact ⟨k, hk, hmiss, hposition.symm ▸ hhit⟩

end Loop

end CyclicSearch
