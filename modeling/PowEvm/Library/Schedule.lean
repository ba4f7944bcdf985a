import Mathlib.Algebra.BigOperators.Intervals
import Mathlib.Algebra.Order.BigOperators.Group.Finset
import PowEvm.Library.Transition

/-!
# Schedules

A schedule pays a rate at every tick of a clock, where the rate depends on the period the tick lies
in. A system whose clock only moves forward, and which gains at most the rates of the ticks it
passes, gains at most what the schedule pays in total.

## Main results

* `sum_range_mul_div`: what a schedule pays over whole periods;
* `sum_range_div_le`: what a schedule with finitely many paying periods pays at most;
* `Run.sum_gain_le_of_clock`: what a run gains at most.
-/

open Finset

variable {σ ι : Type}

/-- Over whole periods of length `b` every rate is paid `b` times. -/
theorem sum_range_mul_div (rate : ℕ → ℕ) {b : ℕ} (hb : 0 < b) (periods : ℕ) :
    ∑ n ∈ range (periods * b), rate (n / b) = b * ∑ period ∈ range periods, rate period := by
  induction periods with
  | zero => simp
  | succ periods ih =>
    -- the ticks of the last period all pay its rate
    have hlast : ∑ n ∈ range b, rate ((periods * b + n) / b) = b * rate periods := by
      have hconst : ∀ n ∈ range b, rate ((periods * b + n) / b) = rate periods := by
        intro n hn
        rw [Nat.mul_comm, Nat.mul_add_div hb, Nat.div_eq_of_lt (mem_range.mp hn), Nat.add_zero]
      rw [sum_const_nat hconst, card_range]
    rw [Nat.succ_mul, sum_range_add, ih, hlast, sum_range_succ, Nat.mul_add]

/-- If nothing is paid from some period on, the periods before it bound what is paid at all. -/
theorem sum_range_div_le {rate : ℕ → ℕ} {b periods : ℕ} (hb : 0 < b)
    (hend : ∀ period, periods ≤ period → rate period = 0) (ticks : ℕ) :
    ∑ n ∈ range ticks, rate (n / b) ≤ b * ∑ period ∈ range periods, rate period := by
  have hticks : ticks ≤ (periods + ticks) * b :=
    (Nat.le_add_left ticks periods).trans (Nat.le_mul_of_pos_right _ hb)
  have htail : ∑ n ∈ range ticks, rate (periods + n) = 0 :=
    sum_eq_zero fun n _ => hend _ (Nat.le_add_right _ _)
  calc ∑ n ∈ range ticks, rate (n / b)
      ≤ ∑ n ∈ range ((periods + ticks) * b), rate (n / b) :=
        sum_le_sum_of_subset (range_subset_range.mpr hticks)
    _ = b * ∑ period ∈ range (periods + ticks), rate period := sum_range_mul_div rate hb _
    _ = b * ∑ period ∈ range periods, rate period := by rw [sum_range_add, htail, Nat.add_zero]

namespace Run

variable {step : σ → ι → Option σ} {init s : σ} {trace : List (Transition σ ι)}

/-- A run gains at most what the schedule pays between the ticks it starts and ends at. -/
theorem sum_gain_le_of_clock (clock : σ → ℕ) (rate : ℕ → ℕ) (gain : Transition σ ι → ℕ)
    (hrun : Run step init trace s)
    (hstep : ∀ {s label s'}, step s label = some s' → clock s ≤ clock s' ∧
      gain ⟨s, label, s'⟩ ≤ ∑ n ∈ Ico (clock s) (clock s'), rate n) :
    clock init ≤ clock s ∧
      (trace.map gain).sum ≤ ∑ n ∈ Ico (clock init) (clock s), rate n := by
  refine hrun.history_induct
    (motive := fun trace s => clock init ≤ clock s ∧
      (trace.map gain).sum ≤ ∑ n ∈ Ico (clock init) (clock s), rate n) ?_ ?_
  · exact ⟨Nat.le_refl _, by simp⟩
  · intro trace s label s' _ ih hs
    obtain ⟨hle, hgain⟩ := hstep hs
    refine ⟨ih.1.trans hle, ?_⟩
    rw [List.map_append, List.sum_append, List.map_singleton, List.sum_singleton,
      ← sum_Ico_consecutive rate ih.1 hle]
    exact Nat.add_le_add ih.2 hgain

end Run
