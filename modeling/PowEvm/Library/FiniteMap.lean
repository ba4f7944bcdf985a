import Mathlib.Algebra.BigOperators.Group.List.Basic
import Mathlib.Algebra.BigOperators.Group.Multiset.Basic
import Mathlib.Algebra.GroupWithZero.Nat
import Mathlib.Data.Finmap

/-!
# Weighted totals and bulk updates of finite maps

Erasing a list of keys and inserting a list of entries, and the total weight of the values of a
map under these updates.

## Main results

* `Finmap.lookup_eraseAll`, `Finmap.lookup_insertAll_of_mem`, `Finmap.lookup_insertAll_of_notMem`:
  what the updates do at each key;
* `Finmap.insertAll_eraseAll_comm`: replacements of different keys commute;
* `Finmap.Unspent.replace`: a map under replacements holds what was created and not spent;
* `Finmap.card_keys_replace`: replacing present keys by new ones changes the number of entries by
  the difference;
* `Finmap.total_eraseAll`: erasing different keys that are present takes exactly their weights off
  the total;
* `Finmap.total_replace`: the total after a replacement, where erased keys may be repeated;
* `Finmap.insertAll_dedup`: a repeated entry is inserted once;
* `Finmap.total_insertAll`: inserting entries at different new keys adds exactly their weights;
* `Finmap.total_insertAll_le`: inserting entries adds at most their weights, overwriting included;
* `Finmap.Projects.insertAll`, `Finmap.Projects.eraseAll`: an image of a map follows its updates.
-/

namespace Finmap

variable {K V : Type} [DecidableEq K] {m : Finmap fun _ : K => V} {k : K} {v : V}

/-- Erase every key of a list. -/
def eraseAll (ks : List K) (m : Finmap fun _ : K => V) : Finmap fun _ : K => V :=
  ks.foldl (fun m k => m.erase k) m

/-- Insert every entry of a list, a later one replacing an earlier one at the same key. -/
def insertAll (es : List (K × V)) (m : Finmap fun _ : K => V) : Finmap fun _ : K => V :=
  es.foldl (fun m e => m.insert e.1 e.2) m

/-- The sum of the weights of the values. -/
def total (w : V → ℕ) (m : Finmap fun _ : K => V) : ℕ :=
  (m.entries.map fun e => w e.2).sum

/-- The weight of the value at a key, `0` where there is none. -/
def weightAt (w : V → ℕ) (m : Finmap fun _ : K => V) (k : K) : ℕ :=
  (m.lookup k).elim 0 w

@[simp]
theorem eraseAll_nil : eraseAll [] m = m := rfl

@[simp]
theorem eraseAll_cons (ks : List K) : eraseAll (k :: ks) m = eraseAll ks (m.erase k) := rfl

@[simp]
theorem insertAll_nil : insertAll [] m = m := rfl

@[simp]
theorem insertAll_cons (e : K × V) (es : List (K × V)) :
    insertAll (e :: es) m = insertAll es (m.insert e.1 e.2) := rfl

/-! ## Lookups -/

theorem lookup_eraseAll (ks : List K) :
    (eraseAll ks m).lookup k = if k ∈ ks then none else m.lookup k := by
  induction ks generalizing m with
  | nil => simp
  | cons k' ks ih =>
    rw [eraseAll_cons, ih]
    by_cases hks : k ∈ ks
    · simp [hks]
    · by_cases hk : k = k'
      · subst hk
        simp [hks, lookup_erase]
      · simp [hks, hk, lookup_erase_ne hk]

theorem mem_eraseAll {ks : List K} : k ∈ eraseAll ks m ↔ k ∈ m ∧ k ∉ ks := by
  rw [← lookup_isSome, ← lookup_isSome, lookup_eraseAll]
  by_cases hks : k ∈ ks <;> simp [hks]

theorem lookup_insertAll_of_notMem {es : List (K × V)} (h : k ∉ es.map Prod.fst) :
    (insertAll es m).lookup k = m.lookup k := by
  induction es generalizing m with
  | nil => rfl
  | cons e es ih =>
    rw [List.map_cons, List.mem_cons, not_or] at h
    rw [insertAll_cons, ih h.2, lookup_insert_of_ne _ h.1]

theorem lookup_insertAll_of_mem {es : List (K × V)} (hnodup : (es.map Prod.fst).Nodup)
    (h : (k, v) ∈ es) : (insertAll es m).lookup k = some v := by
  induction es generalizing m with
  | nil => exact absurd h List.not_mem_nil
  | cons e es ih =>
    rw [List.map_cons, List.nodup_cons] at hnodup
    rw [insertAll_cons]
    rcases List.mem_cons.mp h with rfl | htail
    · -- no later entry has its key
      rw [lookup_insertAll_of_notMem hnodup.1, lookup_insert]
    · exact ih hnodup.2 htail

theorem mem_insertAll {es : List (K × V)} :
    k ∈ insertAll es m ↔ k ∈ m ∨ k ∈ es.map Prod.fst := by
  induction es generalizing m with
  | nil => simp
  | cons e es ih =>
    rw [insertAll_cons, ih, mem_insert, List.map_cons, List.mem_cons, or_assoc, or_left_comm]

/-- Every value after a bulk insertion was there before or is one of the inserted ones. -/
theorem lookup_insertAll_cases {es : List (K × V)} (h : (insertAll es m).lookup k = some v) :
    m.lookup k = some v ∨ (k, v) ∈ es := by
  induction es generalizing m with
  | nil => exact Or.inl h
  | cons e es ih =>
    rw [insertAll_cons] at h
    rcases ih h with hm | htail
    · by_cases hk : k = e.1
      · subst hk
        rw [lookup_insert, Option.some.injEq] at hm
        subst hm
        exact Or.inr List.mem_cons_self
      · rw [lookup_insert_of_ne _ hk] at hm
        exact Or.inl hm
    · exact Or.inr (List.mem_cons_of_mem _ htail)

/-- What a replacement by entries at different keys leaves: the new entries, and the old ones at
the other keys that were not erased. -/
theorem lookup_insertAll_eraseAll_eq_some_iff {ks : List K} {es : List (K × V)}
    (hnodup : (es.map Prod.fst).Nodup) :
    (insertAll es (eraseAll ks m)).lookup k = some v ↔
      (k, v) ∈ es ∨ (k ∉ es.map Prod.fst ∧ k ∉ ks ∧ m.lookup k = some v) := by
  by_cases hk : k ∈ es.map Prod.fst
  · -- the entry at the key is the only one
    obtain ⟨⟨_, v'⟩, hmem, rfl⟩ := List.mem_map.mp hk
    rw [lookup_insertAll_of_mem hnodup hmem]
    refine ⟨?_, ?_⟩
    · intro h
      exact Or.inl (Option.some.inj h ▸ hmem)
    · rintro (hv | ⟨hnot, -⟩)
      · rw [← lookup_insertAll_of_mem (m := m) hnodup hmem, lookup_insertAll_of_mem hnodup hv]
      · exact absurd hk hnot
  · have hnot : (k, v) ∉ es := fun hmem => hk (List.mem_map_of_mem hmem)
    rw [lookup_insertAll_of_notMem hk, lookup_eraseAll]
    by_cases hks : k ∈ ks
    · simp [hks, hnot]
    · simp [hks, hnot, hk]

/-- At an inserted key the rest of the map does not matter. -/
theorem lookup_insertAll_congr {m' : Finmap fun _ : K => V} {es : List (K × V)}
    (h : k ∈ es.map Prod.fst) : (insertAll es m).lookup k = (insertAll es m').lookup k := by
  induction es generalizing m m' with
  | nil => exact absurd h List.not_mem_nil
  | cons e es ih =>
    rw [insertAll_cons, insertAll_cons]
    -- the last entry at the key decides
    by_cases htail : k ∈ es.map Prod.fst
    · exact ih htail
    · have hk : k = e.1 := by simpa [htail] using h
      rw [lookup_insertAll_of_notMem htail, lookup_insertAll_of_notMem htail, hk, lookup_insert,
        lookup_insert]

/-- Entries that agree at each key are all looked up afterwards. -/
theorem lookup_insertAll_of_injOn {es : List (K × V)} (hinj : Set.InjOn Prod.fst {e | e ∈ es})
    (h : (k, v) ∈ es) : (insertAll es m).lookup k = some v := by
  have hk : k ∈ es.map Prod.fst := List.mem_map_of_mem h
  -- whatever the map held at the key is gone
  have hcongr : (insertAll es m).lookup k = (insertAll es ∅).lookup k := lookup_insertAll_congr hk
  rw [hcongr]
  obtain ⟨v', hv'⟩ := mem_iff.mp (mem_insertAll.mpr (Or.inr hk) : k ∈ insertAll es ∅)
  rcases lookup_insertAll_cases hv' with hempty | hmem
  · exact absurd hempty (by simp)
  · have heq : (k, v') = (k, v) := hinj hmem h rfl
    rw [hv', (Prod.mk.inj heq).2]

/-- The map of entries that agree at each key holds just these entries. -/
theorem lookup_insertAll_empty_iff {es : List (K × V)}
    (hinj : Set.InjOn Prod.fst {e | e ∈ es}) :
    (insertAll es ∅).lookup k = some v ↔ (k, v) ∈ es := by
  refine ⟨?_, lookup_insertAll_of_injOn hinj⟩
  intro h
  exact (lookup_insertAll_cases h).resolve_left (by simp)

/-- A repeated entry is inserted once. -/
theorem insertAll_dedup [DecidableEq V] {es : List (K × V)}
    (hinj : Set.InjOn Prod.fst {e | e ∈ es}) : insertAll es.dedup m = insertAll es m := by
  apply ext_lookup
  intro k
  have hdedup : Set.InjOn Prod.fst {e | e ∈ es.dedup} := by simpa using hinj
  by_cases hk : k ∈ es.map Prod.fst
  · obtain ⟨⟨_, v⟩, hmem, rfl⟩ := List.mem_map.mp hk
    rw [lookup_insertAll_of_injOn hdedup (List.mem_dedup.mpr hmem),
      lookup_insertAll_of_injOn hinj hmem]
  · have hk' : k ∉ es.dedup.map Prod.fst := by simpa using hk
    rw [lookup_insertAll_of_notMem hk', lookup_insertAll_of_notMem hk]

/-- Two replacements commute when neither inserts a key that the other inserts or erases. -/
theorem insertAll_eraseAll_comm {ks ks' : List K} {es es' : List (K × V)}
    (hes : ∀ k ∈ es.map Prod.fst, k ∉ es'.map Prod.fst) (hks : ∀ k ∈ ks, k ∉ es'.map Prod.fst)
    (hks' : ∀ k ∈ ks', k ∉ es.map Prod.fst) :
    insertAll es' (eraseAll ks' (insertAll es (eraseAll ks m))) =
      insertAll es (eraseAll ks (insertAll es' (eraseAll ks' m))) := by
  apply ext_lookup
  intro k
  by_cases hk : k ∈ es.map Prod.fst
  · -- inserted by the first one, and left alone by the second
    have hk' : k ∉ ks' := fun hmem => hks' k hmem hk
    rw [lookup_insertAll_of_notMem (hes k hk), lookup_eraseAll, if_neg hk']
    exact lookup_insertAll_congr hk
  by_cases hk' : k ∈ es'.map Prod.fst
  · -- the other way round
    have hnot : k ∉ ks := fun hmem => hks k hmem hk'
    rw [lookup_insertAll_of_notMem hk, lookup_eraseAll, if_neg hnot]
    exact lookup_insertAll_congr hk'
  · -- inserted by neither: erased by one of the two or untouched
    rw [lookup_insertAll_of_notMem hk', lookup_eraseAll, lookup_insertAll_of_notMem hk,
      lookup_eraseAll, lookup_insertAll_of_notMem hk, lookup_eraseAll,
      lookup_insertAll_of_notMem hk', lookup_eraseAll]
    split_ifs <;> rfl

theorem eraseAll_append (ks ks' : List K) : eraseAll (ks ++ ks') m = eraseAll ks' (eraseAll ks m) :=
  List.foldl_append

theorem insertAll_append (es es' : List (K × V)) :
    insertAll (es ++ es') m = insertAll es' (insertAll es m) :=
  List.foldl_append

/-- Two replacements one after the other are one, when the second erases nothing that the first
inserts. -/
theorem insertAll_eraseAll_append {ks ks' : List K} {es es' : List (K × V)}
    (h : ∀ k ∈ ks', k ∉ es.map Prod.fst) :
    insertAll es' (eraseAll ks' (insertAll es (eraseAll ks m))) =
      insertAll (es ++ es') (eraseAll (ks ++ ks') m) := by
  rw [insertAll_append, eraseAll_append]
  congr 1
  apply ext_lookup
  intro k
  by_cases hk : k ∈ es.map Prod.fst
  · have hks : k ∉ ks' := fun hmem => h k hmem hk
    rw [lookup_eraseAll, if_neg hks]
    exact lookup_insertAll_congr hk
  · rw [lookup_eraseAll, lookup_insertAll_of_notMem hk, lookup_insertAll_of_notMem hk,
      ← lookup_eraseAll]

/-! ## Unspent entries -/

/-- The map holds the entries that were created and not spent, and only created entries were
spent. -/
structure Unspent (created : List (K × V)) (spent : List K) (m : Finmap fun _ : K => V) :
    Prop where
  lookup_iff : ∀ k v, m.lookup k = some v ↔ (k, v) ∈ created ∧ k ∉ spent
  created_of_spent : ∀ k ∈ spent, k ∈ created.map Prod.fst

/-- What was created and what was spent determine the map, in whatever order that happened. -/
theorem Unspent.eq_of_mem_iff {created created' : List (K × V)} {spent spent' : List K}
    {m' : Finmap fun _ : K => V} (h : Unspent created spent m) (h' : Unspent created' spent' m')
    (hcreated : ∀ e, e ∈ created ↔ e ∈ created') (hspent : ∀ k, k ∈ spent ↔ k ∈ spent') :
    m = m' := by
  apply ext_lookup
  intro k
  ext v
  rw [h.lookup_iff, h'.lookup_iff, hcreated, hspent]

theorem Unspent.created_of_mem {created : List (K × V)} {spent : List K}
    (h : Unspent created spent m) (hk : k ∈ m) : k ∈ created.map Prod.fst := by
  obtain ⟨v, hv⟩ := mem_iff.mp hk
  exact List.mem_map_of_mem ((h.lookup_iff k v).mp hv).1

/-- Replacing entries of the map by entries at keys that were never created spends the first and
creates the second. -/
theorem Unspent.replace {created es : List (K × V)} {spent ks : List K}
    (h : Unspent created spent m) (hks : ∀ k ∈ ks, k ∈ m) (hnodup : (es.map Prod.fst).Nodup)
    (hnew : ∀ k ∈ es.map Prod.fst, k ∉ created.map Prod.fst) :
    Unspent (created ++ es) (spent ++ ks) (insertAll es (eraseAll ks m)) where
  lookup_iff k v := by
    rw [lookup_insertAll_eraseAll_eq_some_iff hnodup, List.mem_append, List.mem_append, not_or,
      h.lookup_iff]
    by_cases hk : k ∈ es.map Prod.fst
    · -- a new key was neither created nor spent before
      have hcreated : (k, v) ∉ created := fun hmem => hnew k hk (List.mem_map_of_mem hmem)
      have hspent : k ∉ spent := fun hmem => hnew k hk (h.created_of_spent k hmem)
      have herased : k ∉ ks := fun hmem => hnew k hk (h.created_of_mem (hks k hmem))
      tauto
    · have hes : (k, v) ∉ es := fun hmem => hk (List.mem_map_of_mem hmem)
      tauto
  created_of_spent k hk := by
    rw [List.map_append, List.mem_append]
    rcases List.mem_append.mp hk with hk | hk
    · exact Or.inl (h.created_of_spent k hk)
    · exact Or.inl (h.created_of_mem (hks k hk))

/-! ## Key sets -/

theorem keys_eraseAll (ks : List K) : (eraseAll ks m).keys = m.keys \ ks.toFinset := by
  ext k
  rw [mem_keys, mem_eraseAll, Finset.mem_sdiff, mem_keys, List.mem_toFinset]

theorem keys_insertAll (es : List (K × V)) :
    (insertAll es m).keys = m.keys ∪ (es.map Prod.fst).toFinset := by
  ext k
  rw [mem_keys, mem_insertAll, Finset.mem_union, mem_keys, List.mem_toFinset]

/-- Replacing present keys by different new ones. -/
theorem card_keys_replace {ks : List K} {es : List (K × V)} (hks : ∀ k ∈ ks, k ∈ m)
    (hnodup : (es.map Prod.fst).Nodup) (hes : ∀ k ∈ es.map Prod.fst, k ∉ m) :
    (insertAll es (eraseAll ks m)).keys.card + ks.toFinset.card = m.keys.card + es.length := by
  have hsub : ks.toFinset ⊆ m.keys := by
    intro k hk
    exact mem_keys.mpr (hks k (List.mem_toFinset.mp hk))
  have hnew : ∀ ⦃k⦄, k ∈ m.keys \ ks.toFinset → k ∉ (es.map Prod.fst).toFinset := by
    intro k hk hmem
    exact hes k (List.mem_toFinset.mp hmem) (mem_keys.mp (Finset.mem_sdiff.mp hk).1)
  have herased := Finset.card_sdiff_add_card_eq_card hsub
  rw [keys_insertAll, keys_eraseAll, Finset.card_union_of_disjoint (Finset.disjoint_left.mpr hnew),
    List.toFinset_card_of_nodup hnodup, List.length_map]
  omega

/-! ## Totals -/

section Total

variable {w : V → ℕ}

theorem weightAt_of_lookup (h : m.lookup k = some v) : weightAt w m k = w v := by
  simp [weightAt, h]

omit [DecidableEq K] in
theorem total_empty : total w (∅ : Finmap fun _ : K => V) = 0 := rfl

theorem total_insert_of_notMem (h : k ∉ m) :
    total w (m.insert k v) = w v + total w m := by
  rw [total, entries_insert_of_notMem h, Multiset.map_cons, Multiset.sum_cons, total]

/-- Inserting forgets what the key held. -/
theorem insert_eq_insert_erase : m.insert k v = (m.erase k).insert k v := by
  apply ext_lookup
  intro k'
  by_cases hk : k' = k
  · subst hk
    rw [lookup_insert, lookup_insert]
  · rw [lookup_insert_of_ne _ hk, lookup_insert_of_ne _ hk, lookup_erase_ne hk]

theorem total_erase_add (h : k ∈ m) :
    total w (m.erase k) + weightAt w m k = total w m := by
  obtain ⟨v, hv⟩ := mem_iff.mp h
  -- putting the value back gives the map back
  have hback : (m.erase k).insert k v = m := by
    apply ext_lookup
    intro k'
    by_cases hk : k' = k
    · subst hk
      rw [lookup_insert, hv]
    · rw [lookup_insert_of_ne _ hk, lookup_erase_ne hk]
  have htotal := total_insert_of_notMem (w := w) (v := v) (notMem_erase_self (a := k) (s := m))
  rw [hback] at htotal
  rw [htotal, weightAt_of_lookup hv, Nat.add_comm]

theorem total_erase_le : total w (m.erase k) ≤ total w m := by
  by_cases h : k ∈ m
  · exact (total_erase_add (w := w) h) ▸ Nat.le_add_right _ _
  · -- erasing a key that is not there changes nothing
    have herase : m.erase k = m := by
      apply ext_lookup
      intro k'
      by_cases hk : k' = k
      · subst hk
        rw [lookup_erase, lookup_eq_none.mpr h]
      · rw [lookup_erase_ne hk]
    rw [herase]

theorem total_insert_le : total w (m.insert k v) ≤ w v + total w m := by
  rw [insert_eq_insert_erase, total_insert_of_notMem notMem_erase_self]
  exact Nat.add_le_add_left total_erase_le _

theorem weightAt_erase_of_ne {k' : K} (h : k ≠ k') :
    weightAt w (m.erase k') k = weightAt w m k := by
  rw [weightAt, weightAt, lookup_erase_ne h]

/-- Erasing different keys that are present takes exactly their weights off the total. -/
theorem total_eraseAll {ks : List K} (hnodup : ks.Nodup) (hmem : ∀ k ∈ ks, k ∈ m) :
    total w (eraseAll ks m) + (ks.map (weightAt w m)).sum = total w m := by
  induction ks generalizing m with
  | nil => simp
  | cons k ks ih =>
    rw [List.nodup_cons] at hnodup
    -- the other keys are still there, with the same weights
    have hne : ∀ k' ∈ ks, k' ≠ k := fun k' hk' heq => hnodup.1 (heq ▸ hk')
    have htail := ih (m := m.erase k) hnodup.2 fun k' hk' =>
      mem_erase.mpr ⟨hne k' hk', hmem k' (List.mem_cons_of_mem _ hk')⟩
    have hweights : ks.map (weightAt w (m.erase k)) = ks.map (weightAt w m) :=
      List.map_congr_left fun k' hk' => weightAt_erase_of_ne (hne k' hk')
    have hhead := total_erase_add (w := w) (hmem k List.mem_cons_self)
    rw [hweights] at htail
    rw [eraseAll_cons, List.map_cons, List.sum_cons]
    omega

/-- Inserting entries at different new keys adds exactly their weights to the total. -/
theorem total_insertAll {es : List (K × V)} (hnodup : (es.map Prod.fst).Nodup)
    (hnew : ∀ k ∈ es.map Prod.fst, k ∉ m) :
    total w (insertAll es m) = total w m + (es.map fun e => w e.2).sum := by
  induction es generalizing m with
  | nil => simp
  | cons e es ih =>
    rw [List.map_cons, List.nodup_cons] at hnodup
    have hhead := total_insert_of_notMem (w := w) (v := e.2) (hnew e.1 List.mem_cons_self)
    -- the other keys are still new
    have htail := ih (m := m.insert e.1 e.2) hnodup.2 fun k hk hmem => by
      rcases mem_insert.mp hmem with rfl | hmem
      · exact hnodup.1 hk
      · exact hnew k (List.mem_cons_of_mem _ hk) hmem
    rw [insertAll_cons, htail, hhead, List.map_cons, List.sum_cons]
    omega

/-- Replacing present keys by different new ones, listed with or without repetitions. -/
theorem total_replace {ks : List K} {es : List (K × V)} (hks : ∀ k ∈ ks, k ∈ m)
    (hnodup : (es.map Prod.fst).Nodup) (hnew : ∀ k ∈ es.map Prod.fst, k ∉ m) :
    total w (insertAll es (eraseAll ks m)) + (ks.dedup.map (weightAt w m)).sum =
      total w m + (es.map fun e => w e.2).sum := by
  -- erasing a key again changes nothing
  have hdedup : eraseAll ks m = eraseAll ks.dedup m := by
    apply ext_lookup
    intro k
    simp only [lookup_eraseAll, List.mem_dedup]
  have herased : total w (eraseAll ks.dedup m) + (ks.dedup.map (weightAt w m)).sum = total w m :=
    total_eraseAll ks.nodup_dedup fun k hk => hks k (List.mem_dedup.mp hk)
  have hinserted := total_insertAll (w := w) (m := eraseAll ks.dedup m) hnodup fun k hk hmem =>
    hnew k hk (mem_eraseAll.mp hmem).1
  rw [hdedup, hinserted]
  omega

theorem total_insertAll_le (es : List (K × V)) :
    total w (insertAll es m) ≤ total w m + (es.map fun e => w e.2).sum := by
  induction es generalizing m with
  | nil => simp
  | cons e es ih =>
    have htail := ih (m := m.insert e.1 e.2)
    have hhead := total_insert_le (w := w) (m := m) (k := e.1) (v := e.2)
    rw [insertAll_cons, List.map_cons, List.sum_cons]
    omega

end Total

/-! ## Images -/

section Projects

variable {W : Type} {f : V → W} {image : Finmap fun _ : K => W}

/-- The map holds at each key the image of what the other holds there. -/
def Projects (f : V → W) (m : Finmap fun _ : K => V) (image : Finmap fun _ : K => W) : Prop :=
  ∀ k, image.lookup k = (m.lookup k).map f

theorem Projects.insert (h : Projects f m image) (k : K) (v : V) :
    Projects f (m.insert k v) (image.insert k (f v)) := by
  intro k'
  by_cases hk : k' = k
  · subst hk
    rw [lookup_insert, lookup_insert, Option.map_some]
  · rw [lookup_insert_of_ne _ hk, lookup_insert_of_ne _ hk, h]

theorem Projects.insertAll (h : Projects f m image) (es : List (K × V)) :
    Projects f (insertAll es m) (insertAll (es.map (Prod.map id f)) image) := by
  induction es generalizing m image with
  | nil => exact h
  | cons e es ih => exact ih (h.insert e.1 e.2)

theorem Projects.eraseAll (h : Projects f m image) (ks : List K) :
    Projects f (eraseAll ks m) (eraseAll ks image) := by
  intro k
  rw [lookup_eraseAll, lookup_eraseAll, h]
  split_ifs <;> rfl

theorem Projects.weightAt_eq (h : Projects f m image) (w : W → ℕ) (k : K) :
    weightAt w image k = weightAt (w ∘ f) m k := by
  rw [weightAt, weightAt, h, Option.elim_map]

end Projects

end Finmap
