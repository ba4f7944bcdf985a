import Mathlib.Algebra.BigOperators.Group.List.Basic
import Mathlib.Algebra.GroupWithZero.Nat
import Mathlib.Algebra.Order.Group.Nat
import Mathlib.Data.List.Induction

/-!
# Runs of a transition system

A system is a partial step function on states, driven by labels. A run keeps the transitions it
took, oldest first, so that a property may speak about the whole history and not only about the
state reached.

## Main results

* `Run.induct_on`: what holds before the first step and is preserved by every step that meets a
  condition holds after every run whose steps all meet it;
* `Run.measure_le`, `Run.measure_eq`: a quantity that each step raises by at most, or exactly, a
  gain of its own is bounded by, or equal to, its initial value and the gains of the run;
* `Run.measure_add_losses`: the same for a quantity that steps raise and lower;
* `Run.append_iff`: a run is cut anywhere into two runs;
* `Run.of_replay`: executing a list of labels gives a run;
* `replay_of_foldlM`: where no label is refused, all of them are executed.
-/

variable {σ ι : Type}

/-- One step taken: the state before it, its label, the state after it. -/
structure Transition (σ ι : Type) where
  pre : σ
  label : ι
  post : σ
  deriving DecidableEq

/-- `Run step init trace s`: the transitions of `trace`, in order, lead from `init` to `s`. -/
inductive Run (step : σ → ι → Option σ) (init : σ) : List (Transition σ ι) → σ → Prop
  | nil : Run step init [] init
  | snoc {trace : List (Transition σ ι)} {s s' : σ} {label : ι} :
      Run step init trace s → step s label = some s' →
      Run step init (trace ++ [⟨s, label, s'⟩]) s'

namespace Run

variable {step : σ → ι → Option σ} {init s : σ} {trace : List (Transition σ ι)}

/-- The induction over runs: `motive` may speak about the history, and each step may be assumed to
meet `cond` when every transition of the run does. -/
theorem induct_on {cond : Transition σ ι → Prop} {motive : List (Transition σ ι) → σ → Prop}
    (hrun : Run step init trace s) (hcond : ∀ t ∈ trace, cond t) (hinit : motive [] init)
    (hstep : ∀ {trace s label s'}, Run step init trace s → motive trace s →
      step s label = some s' → cond ⟨s, label, s'⟩ → motive (trace ++ [⟨s, label, s'⟩]) s') :
    motive trace s := by
  induction hrun with
  | nil => exact hinit
  | snoc hrun hs ih =>
    have hinitial := ih fun t ht => hcond t (List.mem_append_left _ ht)
    exact hstep hrun hinitial hs (hcond _ (List.mem_append_right _ List.mem_cons_self))

/-- The induction over runs with no condition on the steps. -/
theorem history_induct {motive : List (Transition σ ι) → σ → Prop} (hrun : Run step init trace s)
    (hinit : motive [] init)
    (hstep : ∀ {trace s label s'}, Run step init trace s → motive trace s →
      step s label = some s' → motive (trace ++ [⟨s, label, s'⟩]) s') :
    motive trace s := by
  have hcond : ∀ t ∈ trace, True := fun _ _ => trivial
  exact hrun.induct_on hcond hinit fun hrun ih hs _ => hstep hrun ih hs

theorem nil_iff : Run step init [] s ↔ s = init := by
  refine ⟨?_, ?_⟩
  · intro hrun
    generalize htrace : ([] : List (Transition σ ι)) = whole at hrun
    cases hrun with
    | nil => rfl
    | snoc => exact absurd htrace (by simp)
  · rintro rfl
    exact .nil

/-- The last transition of a run is a step from where the rest of it leads. -/
theorem concat_iff {t : Transition σ ι} :
    Run step init (trace ++ [t]) s ↔
      Run step init trace t.pre ∧ step t.pre t.label = some t.post ∧ t.post = s := by
  refine ⟨?_, ?_⟩
  · intro hrun
    generalize htrace : trace ++ [t] = whole at hrun
    cases hrun with
    | nil => exact absurd htrace (by simp)
    | snoc hrun hs =>
      obtain ⟨rfl, hlast⟩ := List.append_inj' htrace rfl
      obtain rfl := List.singleton_inj.mp hlast
      exact ⟨hrun, hs, rfl⟩
  · rintro ⟨hrun, hs, rfl⟩
    exact hrun.snoc hs

/-- A run is cut anywhere into two runs. -/
theorem append_iff {trace' : List (Transition σ ι)} :
    Run step init (trace ++ trace') s ↔ ∃ m, Run step init trace m ∧ Run step m trace' s := by
  induction trace' using List.reverseRecOn generalizing s with
  | nil =>
    simp only [List.append_nil, nil_iff, exists_eq_right']
  | append_singleton trace' t ih =>
    rw [← List.append_assoc, concat_iff, ih]
    refine ⟨?_, ?_⟩
    · rintro ⟨⟨m, hrun, hrun'⟩, hlast⟩
      exact ⟨m, hrun, concat_iff.mpr ⟨hrun', hlast⟩⟩
    · rintro ⟨m, hrun, hrun'⟩
      obtain ⟨hrun', hlast⟩ := concat_iff.mp hrun'
      exact ⟨⟨m, hrun, hrun'⟩, hlast⟩

/-- The first transition of a run is a step from where it starts. -/
theorem cons_iff {t : Transition σ ι} :
    Run step init (t :: trace) s ↔
      t.pre = init ∧ step t.pre t.label = some t.post ∧ Run step t.post trace s := by
  have hsingle {m : σ} : Run step init [t] m ↔
      t.pre = init ∧ step t.pre t.label = some t.post ∧ t.post = m := by
    rw [← List.nil_append [t], concat_iff, nil_iff]
  rw [← List.singleton_append, append_iff]
  simp only [hsingle, and_assoc, exists_and_left, exists_eq_left']

/-- Every transition of a run is a step of the system, taken in a state an earlier part of the run
reaches. -/
theorem exists_of_mem (hrun : Run step init trace s) {t : Transition σ ι} (ht : t ∈ trace) :
    step t.pre t.label = some t.post ∧
      ∃ before after, trace = before ++ t :: after ∧ Run step init before t.pre := by
  obtain ⟨before, after, rfl⟩ := List.mem_iff_append.mp ht
  obtain ⟨m, hbefore, hrun⟩ := append_iff.mp hrun
  obtain ⟨rfl, hs, -⟩ := cons_iff.mp hrun
  exact ⟨hs, before, after, rfl, hbefore⟩

/-- The state a run reaches is the one it starts in or the one its last transition leads to. -/
theorem eq_or_exists_post (hrun : Run step init trace s) :
    s = init ∨ ∃ t ∈ trace, t.post = s := by
  cases hrun with
  | nil => exact Or.inl rfl
  | snoc hrun hs => exact Or.inr ⟨_, List.mem_append_right _ List.mem_cons_self, rfl⟩

section Measure

variable {cond : Transition σ ι → Prop} (measure : σ → ℕ) (gain : Transition σ ι → ℕ)

/-- A quantity that no step raises by more than its gain. -/
theorem measure_le (hrun : Run step init trace s) (hcond : ∀ t ∈ trace, cond t)
    (hstep : ∀ {s label s'}, step s label = some s' → cond ⟨s, label, s'⟩ →
      measure s' ≤ measure s + gain ⟨s, label, s'⟩) :
    measure s ≤ measure init + (trace.map gain).sum := by
  refine hrun.induct_on (motive := fun trace s => measure s ≤ measure init + (trace.map gain).sum)
    hcond (Nat.le_refl _) ?_
  intro trace s label s' _ ih hs ht
  have hle := hstep hs ht
  rw [List.map_append, List.sum_append, List.map_singleton, List.sum_singleton]
  omega

/-- A quantity that each step raises by its gain and lowers by its loss. -/
theorem measure_add_losses (loss : Transition σ ι → ℕ) (hrun : Run step init trace s)
    (hcond : ∀ t ∈ trace, cond t)
    (hstep : ∀ {s label s'}, step s label = some s' → cond ⟨s, label, s'⟩ →
      measure s' + loss ⟨s, label, s'⟩ = measure s + gain ⟨s, label, s'⟩) :
    measure s + (trace.map loss).sum = measure init + (trace.map gain).sum := by
  refine hrun.induct_on
    (motive := fun trace s =>
      measure s + (trace.map loss).sum = measure init + (trace.map gain).sum)
    hcond rfl ?_
  intro trace s label s' _ ih hs ht
  have heq := hstep hs ht
  rw [List.map_append, List.sum_append, List.map_singleton, List.sum_singleton, List.map_append,
    List.sum_append, List.map_singleton, List.sum_singleton]
  omega

/-- A quantity that each step raises by exactly its gain. -/
theorem measure_eq (hrun : Run step init trace s) (hcond : ∀ t ∈ trace, cond t)
    (hstep : ∀ {s label s'}, step s label = some s' → cond ⟨s, label, s'⟩ →
      measure s' = measure s + gain ⟨s, label, s'⟩) :
    measure s = measure init + (trace.map gain).sum := by
  have hsum := hrun.measure_add_losses measure gain (fun _ => 0) hcond fun hs ht => hstep hs ht
  have hzero : (trace.map fun _ => 0).sum = 0 := List.sum_eq_zero (by simp)
  rwa [hzero, Nat.add_zero] at hsum

end Measure

end Run

/-- Execute labels in order from `s`, adding the transitions taken to `trace`, until one is
refused. -/
def replay (step : σ → ι → Option σ) (trace : List (Transition σ ι)) (s : σ) :
    List ι → List (Transition σ ι) × σ
  | [] => (trace, s)
  | label :: labels =>
    match step s label with
    | some s' => replay step (trace ++ [⟨s, label, s'⟩]) s' labels
    | none => (trace, s)

theorem Run.of_replay {step : σ → ι → Option σ} {init s : σ} {trace : List (Transition σ ι)}
    (hrun : Run step init trace s) (labels : List ι) :
    Run step init (replay step trace s labels).1 (replay step trace s labels).2 := by
  induction labels generalizing trace s with
  | nil => exact hrun
  | cons label labels ih =>
    unfold replay
    cases hstep : step s label with
    | some s' => exact ih (hrun.snoc hstep)
    | none => exact hrun

/-- Where no label is refused, all of them are executed. -/
theorem replay_of_foldlM {step : σ → ι → Option σ} {s s' : σ} {labels : List ι}
    (h : labels.foldlM step s = some s') (trace : List (Transition σ ι)) :
    (replay step trace s labels).2 = s' ∧
      (replay step trace s labels).1.map Transition.label =
        trace.map Transition.label ++ labels := by
  induction labels generalizing trace s with
  | nil => exact ⟨Option.some.inj h, (List.append_nil _).symm⟩
  | cons label labels ih =>
    rw [List.foldlM_cons] at h
    obtain ⟨m, hstep, hrest⟩ := Option.bind_eq_some_iff.mp h
    obtain ⟨hend, hlabels⟩ := ih hrest (trace ++ [⟨s, label, m⟩])
    unfold replay
    rw [hstep]
    dsimp only
    refine ⟨hend, ?_⟩
    rw [hlabels, List.map_append, List.append_assoc]
    rfl
