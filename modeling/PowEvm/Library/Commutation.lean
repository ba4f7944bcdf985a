import Mathlib.Data.List.Perm.Basic

/-!
# Commuting steps

Partial steps that commute up to a relation of states, when they are independent. If every step of
a list goes through in one order, it does in every other, and the states reached are related. Where
only some of the steps are independent, it does in every other order that turns none of the others
around.

The relation is one that the steps respect: what they do, and whether they go through, depends on
the related parts of the state only.
-/

namespace Commutation

variable {σ ι : Type}

/-- Steps that respect `same`, and commute up to it when they are independent. -/
structure Commutes (step : σ → ι → Option σ) (same : σ → σ → Prop) (independent : ι → ι → Prop) :
    Prop where
  same_refl : ∀ s, same s s
  same_trans : ∀ {s t u}, same s t → same t u → same s u
  independent_symm : ∀ {a b}, independent a b → independent b a
  congr : ∀ {s t s' a}, same s t → step s a = some s' → ∃ t', step t a = some t' ∧ same s' t'
  swap : ∀ {s s₁ s₂ a b}, independent a b → step s a = some s₁ → step s₁ b = some s₂ →
    ∃ t₁ t₂, step s b = some t₁ ∧ step t₁ a = some t₂ ∧ same s₂ t₂

namespace Commutes

variable {step : σ → ι → Option σ} {same : σ → σ → Prop} {independent : ι → ι → Prop}
  (h : Commutes step same independent)

include h

/-- Related states run the same steps to related states. -/
theorem foldlM_congr {labels : List ι} {s t s' : σ} (hsame : same s t)
    (hrun : labels.foldlM step s = some s') :
    ∃ t', labels.foldlM step t = some t' ∧ same s' t' := by
  induction labels generalizing s t with
  | nil =>
    obtain rfl := Option.some.inj hrun
    exact ⟨t, rfl, hsame⟩
  | cons a labels ih =>
    rw [List.foldlM_cons] at hrun
    obtain ⟨s₁, hs₁, hrest⟩ := Option.bind_eq_some_iff.mp hrun
    obtain ⟨t₁, ht₁, hsame₁⟩ := h.congr hsame hs₁
    obtain ⟨t', ht', hsame'⟩ := ih hsame₁ hrest
    refine ⟨t', ?_, hsame'⟩
    rw [List.foldlM_cons, ht₁]
    exact ht'

/-- Pairwise independent steps go through in every order, to related states. -/
theorem foldlM_perm {labels labels' : List ι} (hperm : labels.Perm labels')
    (hindependent : labels.Pairwise independent) {s s' : σ}
    (hrun : labels.foldlM step s = some s') :
    ∃ t', labels'.foldlM step s = some t' ∧ same s' t' := by
  induction hperm generalizing s s' with
  | nil => exact ⟨s', hrun, h.same_refl s'⟩
  | cons a _ ih =>
    rw [List.foldlM_cons] at hrun
    obtain ⟨s₁, hs₁, hrest⟩ := Option.bind_eq_some_iff.mp hrun
    obtain ⟨t', ht', hsame⟩ := ih (List.pairwise_cons.mp hindependent).2 hrest
    refine ⟨t', ?_, hsame⟩
    rw [List.foldlM_cons, hs₁]
    exact ht'
  | swap b a labels =>
    -- the list starts with `a, b` and is to start with `b, a`
    rw [List.foldlM_cons] at hrun
    obtain ⟨s₁, hs₁, hrun⟩ := Option.bind_eq_some_iff.mp hrun
    rw [List.foldlM_cons] at hrun
    obtain ⟨s₂, hs₂, hrest⟩ := Option.bind_eq_some_iff.mp hrun
    have hab : independent a b := (List.pairwise_cons.mp hindependent).1 b List.mem_cons_self
    obtain ⟨t₁, t₂, ht₁, ht₂, hsame⟩ := h.swap hab hs₁ hs₂
    -- the rest of the list runs from a related state
    obtain ⟨t', ht', hsame'⟩ := h.foldlM_congr hsame hrest
    refine ⟨t', ?_, hsame'⟩
    rw [List.foldlM_cons, ht₁, Option.bind_eq_bind, Option.bind_some, List.foldlM_cons, ht₂]
    exact ht'
  | trans hperm₁ _ ih₁ ih₂ =>
    -- the list in between is pairwise independent too
    obtain ⟨t, ht, hsame⟩ := ih₁ hindependent hrun
    have hindependent' := (hperm₁.pairwise_iff h.independent_symm).mp hindependent
    obtain ⟨t', ht', hsame'⟩ := ih₂ hindependent' ht
    exact ⟨t', ht', h.same_trans hsame hsame'⟩

/-- A step that is independent of all steps before it can be taken first. -/
theorem foldlM_move_front {before after : List ι} {a : ι}
    (hindependent : ∀ b ∈ before, independent b a) {s s' : σ}
    (hrun : (before ++ a :: after).foldlM step s = some s') :
    ∃ t', (a :: (before ++ after)).foldlM step s = some t' ∧ same s' t' := by
  induction before generalizing s with
  | nil => exact ⟨s', hrun, h.same_refl s'⟩
  | cons b before ih =>
    rw [List.forall_mem_cons] at hindependent
    rw [List.cons_append, List.foldlM_cons] at hrun
    obtain ⟨s₁, hs₁, hrest⟩ := Option.bind_eq_some_iff.mp hrun
    obtain ⟨t, ht, hsame⟩ := ih hindependent.2 hrest
    rw [List.foldlM_cons] at ht
    obtain ⟨s₂, hs₂, hrest'⟩ := Option.bind_eq_some_iff.mp ht
    -- `a` is right behind `b` now, and the two change places
    obtain ⟨t₁, t₂, ht₁, ht₂, hsame₂⟩ := h.swap hindependent.1 hs₁ hs₂
    obtain ⟨t', ht', hsame'⟩ := h.foldlM_congr hsame₂ hrest'
    refine ⟨t', ?_, h.same_trans hsame hsame'⟩
    rw [List.foldlM_cons, ht₁, Option.bind_eq_bind, Option.bind_some, List.cons_append,
      List.foldlM_cons, ht₂]
    exact ht'

/-- Steps go through in every order that agrees with theirs on what has to precede what, to related
states, where those that need not precede one another are independent. -/
theorem foldlM_of_linearExtensions {precedes : ι → ι → Prop} {labels labels' : List ι}
    (hperm : labels.Perm labels') (hnodup : labels.Nodup)
    (horder : labels.Pairwise fun a b => ¬ precedes b a)
    (horder' : labels'.Pairwise fun a b => ¬ precedes b a)
    (hindependent : ∀ a ∈ labels, ∀ b ∈ labels, a ≠ b →
      ¬ precedes a b → ¬ precedes b a → independent a b)
    {s s' : σ} (hrun : labels.foldlM step s = some s') :
    ∃ t', labels'.foldlM step s = some t' ∧ same s' t' := by
  induction labels' generalizing labels s s' with
  | nil =>
    obtain rfl := List.perm_nil.mp hperm
    exact ⟨s', hrun, h.same_refl s'⟩
  | cons a labels' ih =>
    obtain ⟨before, after, rfl⟩ := List.append_of_mem (hperm.mem_iff.mpr List.mem_cons_self)
    have hrest : (before ++ after).Perm labels' := (List.perm_middle.symm.trans hperm).cons_inv
    obtain ⟨hfirst', horder'⟩ := List.pairwise_cons.mp horder'
    obtain ⟨hfirst, hnodup'⟩ := List.nodup_cons.mp (List.perm_middle.nodup_iff.mp hnodup)
    have hsub : (before ++ after).Sublist (before ++ a :: after) :=
      (List.sublist_cons_self a after).append_left before
    -- the steps before `a` come after it in the other order, so they are independent of it
    have hbefore : ∀ b ∈ before, independent b a := by
      intro b hb
      have hmem : b ∈ before ++ after := List.mem_append_left _ hb
      refine hindependent b (hsub.mem hmem) a (by simp) ?_ ?_ ?_
      · rintro rfl
        exact hfirst hmem
      · exact hfirst' b (hrest.mem_iff.mp hmem)
      · exact (List.pairwise_append.mp horder).2.2 b hb a List.mem_cons_self
    obtain ⟨t, ht, hsame⟩ := h.foldlM_move_front hbefore hrun
    rw [List.foldlM_cons] at ht
    obtain ⟨s₁, hs₁, hrun'⟩ := Option.bind_eq_some_iff.mp ht
    obtain ⟨t', ht', hsame'⟩ := ih hrest hnodup' (horder.sublist hsub) horder'
      (fun b hb c hc => hindependent b (hsub.mem hb) c (hsub.mem hc)) hrun'
    refine ⟨t', ?_, h.same_trans hsame hsame'⟩
    rw [List.foldlM_cons, hs₁]
    exact ht'

end Commutes

end Commutation
