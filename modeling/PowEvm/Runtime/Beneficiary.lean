import PowEvm.Runtime.Filings

/-!
# The beneficiary of a block

A block is its initialization, its calls and its finalization, and the runs of the chain between
two blocks are the sequences of blocks. Initialization forgets the author, and the first inherent
call sets it for the rest of the block, so the reward of a block goes to the author it names first.

## Main results

* `exists_blocks`: a run that does not end inside a block is a sequence of blocks;
* `author_eq_head?`: inside a block the author is the first one the block has named so far;
* `paysOwnAuthor`: every block of a run issues a reward to the author it names first, and to nobody
  if it names none.
-/

namespace PowEvm

open Utxo

variable {cfg : Config} {s : Storage} {st st' : ChainState} {action : Action}
  {steps calls : List (Transition ChainState Action)}

/-! ## Blocks -/

/-- The execution of one block. -/
structure Block where
  number : BlockNumber
  start : Transition ChainState Action
  calls : List (Transition ChainState Action)
  final : Transition ChainState Action
  start_label : start.label = .onInitialize number
  calls_label : ∀ t ∈ calls, ∃ origin call, t.label = .call origin call
  final_label : final.label = .onFinalize

/-- The steps of a block, in order. -/
def Block.trace (block : Block) : List (Transition ChainState Action) :=
  block.start :: (block.calls ++ [block.final])

/-- The steps are a sequence of blocks, followed by what has been executed of a block that is not
finalized. -/
def Divided (steps : List (Transition ChainState Action)) (st : ChainState) : Prop :=
  ∃ blocks : List Block,
    if st.inBlock then
      ∃ number start calls, start.label = .onInitialize number ∧
        (∀ t ∈ calls, ∃ origin call, t.label = .call origin call) ∧
        steps = blocks.flatMap Block.trace ++ start :: calls
    else steps = blocks.flatMap Block.trace

/-- The author that a step names with the inherent call, whether the call succeeds or not. -/
def authorOf (t : Transition ChainState Action) : Option Public :=
  match t.label with
  | .call origin (.setAuthor author) => if origin = .none then some author else none
  | _ => none

/-- The authors that a list of steps names, in order. -/
def authors (calls : List (Transition ChainState Action)) : List Public :=
  calls.filterMap authorOf

/-- The step paid a reward to the key: a new entry owned by it, and the event. -/
def IssuesReward (t : Transition ChainState Action) (author : Public) : Prop :=
  ∃ reward hash,
    t.post.storage.utxoStore = t.pre.storage.utxoStore.insert hash ⟨reward, author⟩ ∧
      t.post.storage.events = t.pre.storage.events ++ [.rewardsIssued reward hash]

/-- The reward of a block goes to the author that the first inherent call of the block names. -/
structure PaysOwnAuthor (block : Block) : Prop where
  issues_iff : (∃ author, IssuesReward block.final author) ↔
    ∃ t ∈ block.calls, ∃ author, t.label = .call .none (.setAuthor author)
  beneficiary : ∀ author,
    IssuesReward block.final author ↔ (authors block.calls).head? = some author
  wastes : authors block.calls = [] →
    block.final.post.storage = wastedStorage block.final.pre.storage
  later_fails : ∀ before t after author, block.calls = before ++ t :: after →
    t.label = .call .none (.setAuthor author) → authors before ≠ [] →
      (BlockAuthor.setAuthor .none author).run t.pre.storage =
          .error (.error .authorAlreadySet) t.pre.storage ∧
        t.post = t.pre
  foreign_fails : ∀ t ∈ block.calls, ∀ origin author,
    t.label = .call origin (.setAuthor author) → origin ≠ .none →
      (BlockAuthor.setAuthor origin author).run t.pre.storage =
          .error (.error .badOrigin) t.pre.storage ∧
        t.post = t.pre

/-! ## Runs as sequences of blocks -/

/-- Initializing opens a block, the calls leave it open, and finalizing closes it. -/
theorem Effect.phase (h : Effect cfg st action st') :
    match action with
    | .onInitialize _ => st.inBlock = false ∧ st'.inBlock = true
    | .call _ _ => st.inBlock = true ∧ st'.inBlock = true
    | .onFinalize => st.inBlock = true ∧ st'.inBlock = false := by
  cases h with
  | initialized idle => exact ⟨idle, rfl⟩
  | spent busy => exact ⟨busy, rfl⟩
  | authorSet busy => exact ⟨busy, rfl⟩
  | failed busy => exact ⟨busy, busy⟩
  | wasted busy => exact ⟨busy, rfl⟩
  | paid busy => exact ⟨busy, rfl⟩

/-- One more step is a new block, a call of the open one, or its end. -/
theorem Divided.step (hsteps : Divided steps st) (h : Effect cfg st action st') :
    Divided (steps ++ [⟨st, action, st'⟩]) st' := by
  obtain ⟨blocks, hblocks⟩ := hsteps
  have hphase := h.phase
  cases action with
  | onInitialize number =>
    rw [if_neg (by simp [hphase.1])] at hblocks
    refine ⟨blocks, ?_⟩
    rw [if_pos hphase.2, hblocks]
    exact ⟨number, ⟨st, .onInitialize number, st'⟩, [], rfl, by simp, rfl⟩
  | call origin call =>
    rw [if_pos hphase.1] at hblocks
    obtain ⟨number, start, calls, hstart, hcalls, rfl⟩ := hblocks
    refine ⟨blocks, ?_⟩
    rw [if_pos hphase.2]
    refine ⟨number, start, calls ++ [⟨st, .call origin call, st'⟩], hstart, ?_, by simp⟩
    intro t ht
    rcases List.mem_append.mp ht with ht | ht
    · exact hcalls t ht
    · obtain rfl := List.mem_singleton.mp ht
      exact ⟨origin, call, rfl⟩
  | onFinalize =>
    rw [if_pos hphase.1] at hblocks
    obtain ⟨number, start, calls, hstart, hcalls, rfl⟩ := hblocks
    refine ⟨blocks ++ [⟨number, start, calls, ⟨st, .onFinalize, st'⟩, hstart, hcalls, rfl⟩], ?_⟩
    rw [if_neg (by simp [hphase.2])]
    simp [Block.trace]

theorem chainRun_divided (hrun : ChainRun cfg s steps st) : Divided steps st := by
  refine hrun.history_induct (motive := Divided) ⟨[], rfl⟩ ?_
  intro steps st action st' _ ih hstep
  exact ih.step (chainStep_eq_some_iff.mp hstep)

/-- A run that does not end inside a block is a sequence of blocks. -/
theorem exists_blocks (hrun : ChainRun cfg s steps st) (hidle : st.inBlock = false) :
    ∃ blocks : List Block, steps = blocks.flatMap Block.trace := by
  obtain ⟨blocks, hblocks⟩ := chainRun_divided hrun
  rw [if_neg (by simp [hidle])] at hblocks
  exact ⟨blocks, hblocks⟩

/-! ## The author inside a block -/

/-- A call sets the author it names unless there is one. -/
theorem Effect.author_call {origin : BlockAuthor.Origin} {call : Call}
    (h : Effect cfg st (.call origin call) st') :
    st'.storage.author = st.storage.author.or (authorOf ⟨st, .call origin call, st'⟩) := by
  cases h with
  | spent => exact Option.or_none.symm
  | authorSet busy unset =>
    rw [unset, Option.none_or]
    rfl
  | failed busy error =>
    cases hauthor : st.storage.author with
    | some author => rw [Option.some_or]
    | none =>
      rw [Option.none_or]
      cases call with
      | spend tx => rfl
      | setAuthor author =>
        -- without an author an inherent call does not fail
        have horigin : origin ≠ .none := by
          rintro rfl
          rw [dispatch, run_setAuthor, if_pos rfl, if_pos hauthor] at error
          cases error
        exact (if_neg horigin).symm

/-- Inside a block the author is the first one the block has named so far. -/
theorem author_eq_head? {start : ChainState} (hstart : start.storage.author = none)
    (hcalls : ∀ t ∈ calls, ∃ origin call, t.label = .call origin call)
    (hrun : Run (chainStep cfg) start calls st) :
    st.storage.author = (authors calls).head? := by
  refine hrun.induct_on (motive := fun calls st => st.storage.author = (authors calls).head?)
    hcalls hstart ?_
  rintro calls st action st' _ ih hstep ⟨origin, call, rfl⟩
  rw [(chainStep_eq_some_iff.mp hstep).author_call, ih, authors, authors, List.filterMap_append,
    List.head?_append]
  cases h : authorOf ⟨st, .call origin call, st'⟩ <;> simp [h]

/-! ## The reward -/

/-- Finalizing issues a reward to the author of the block and to no other key. -/
theorem issuesReward_iff {t : Transition ChainState Action} {author : Public}
    (h : Effect cfg t.pre .onFinalize t.post) :
    IssuesReward t author ↔ t.pre.storage.author = some author := by
  obtain ⟨st, label, st'⟩ := t
  change Effect cfg st .onFinalize st' at h
  unfold IssuesReward
  cases h with
  | wasted busy unset =>
    rw [unset]
    refine ⟨?_, by simp⟩
    rintro ⟨reward, hash, -, hevents⟩
    -- the event is that the rewards were wasted
    exact absurd (List.append_cancel_left hevents) (by simp)
  | @paid paidAuthor reward busy set =>
    rw [set, Option.some.injEq]
    refine ⟨?_, ?_⟩
    · rintro ⟨reward', hash, hstore, hevents⟩
      obtain ⟨rfl, rfl⟩ := Event.rewardsIssued.inj
        (List.singleton_inj.mp (List.append_cancel_left hevents))
      -- the two stores hold the same output under the key of the event
      change st.storage.utxoStore.insert _ _ = st.storage.utxoStore.insert _ _ at hstore
      have hlookup := congrArg (Finmap.lookup (rewardHash cfg ⟨reward, paidAuthor⟩
        st.storage.number)) hstore
      rw [Finmap.lookup_insert, Finmap.lookup_insert] at hlookup
      exact (TransactionOutput.mk.inj (Option.some.inj hlookup)).2
    · rintro rfl
      exact ⟨reward, _, rfl, rfl⟩

/-- Finalizing without an author writes the event only. -/
theorem Effect.eq_wastedStorage (h : Effect cfg st .onFinalize st')
    (hunset : st.storage.author = none) : st'.storage = wastedStorage st.storage := by
  cases h with
  | wasted => rfl
  | paid busy set => exact absurd (hunset.symm.trans set) (by simp)

/-- A step whose call returns an error changes nothing. -/
theorem Effect.eq_of_error {origin : BlockAuthor.Origin} {call : Call} {e : DispatchError}
    (h : Effect cfg st (.call origin call) st')
    (error : (dispatch cfg origin call).run st.storage = .error (.error e) st.storage) :
    st' = st := by
  have hstay : chainStep cfg st (.call origin call) = some st :=
    chainStep_of_effect (.failed h.phase.1 error)
  rw [chainStep_of_effect h] at hstay
  exact Option.some.inj hstay

theorem authorOf_eq_some_iff {t : Transition ChainState Action} {author : Public} :
    authorOf t = some author ↔ t.label = .call .none (.setAuthor author) := by
  unfold authorOf
  split
  · rename_i origin author' hlabel
    simp [hlabel]
  · rename_i hlabel
    simp only [reduceCtorEq, false_iff]
    exact fun h => hlabel .none author h

theorem mem_authors_iff {author : Public} :
    author ∈ authors calls ↔ ∃ t ∈ calls, t.label = .call .none (.setAuthor author) := by
  simp only [authors, List.mem_filterMap, authorOf_eq_some_iff]

/-- There is a first author exactly when an inherent call names one. -/
theorem exists_first_author_iff :
    (∃ author, (authors calls).head? = some author) ↔
      ∃ t ∈ calls, ∃ author, t.label = .call .none (.setAuthor author) := by
  rw [← Option.isSome_iff_exists, List.isSome_head?]
  refine ⟨?_, ?_⟩
  · intro hne
    obtain ⟨author, hauthor⟩ := List.exists_mem_of_ne_nil _ hne
    obtain ⟨t, ht, hlabel⟩ := mem_authors_iff.mp hauthor
    exact ⟨t, ht, author, hlabel⟩
  · rintro ⟨t, ht, author, hlabel⟩
    exact List.ne_nil_of_mem (mem_authors_iff.mpr ⟨t, ht, hlabel⟩)

/-- What the steps of one block do, whatever the storage the block finds. -/
theorem paysOwnAuthor_of_run {block : Block} (hrun : Run (chainStep cfg) st block.trace st') :
    PaysOwnAuthor block := by
  obtain ⟨-, hstart, hrun⟩ := Run.cons_iff.mp hrun
  obtain ⟨hcalls, hfinal, -⟩ := Run.concat_iff.mp hrun
  rw [block.start_label, chainStep_eq_some_iff] at hstart
  rw [block.final_label, chainStep_eq_some_iff] at hfinal
  have hreset : block.start.post.storage.author = none := by
    generalize block.start.post = post at hstart
    cases hstart with
    | initialized => rfl
  have hfirst := author_eq_head? hreset block.calls_label hcalls
  have hbeneficiary : ∀ author,
      IssuesReward block.final author ↔ (authors block.calls).head? = some author := by
    intro author
    rw [← hfirst, issuesReward_iff hfinal]
  refine ⟨?_, hbeneficiary, ?_, ?_, ?_⟩
  · simp only [hbeneficiary, exists_first_author_iff]
  · intro hnone
    apply hfinal.eq_wastedStorage
    rw [hfirst, hnone, List.head?_nil]
  · intro before t after author hsplit hlabel hne
    obtain ⟨m, hbefore, hrest⟩ := Run.append_iff.mp (hsplit ▸ hcalls)
    obtain ⟨rfl, hstep, -⟩ := Run.cons_iff.mp hrest
    rw [hlabel, chainStep_eq_some_iff] at hstep
    have hbeforeCalls : ∀ t ∈ before, ∃ origin call, t.label = .call origin call :=
      fun t ht => block.calls_label t (hsplit ▸ List.mem_append_left _ ht)
    have hset : t.pre.storage.author ≠ none := by
      rw [author_eq_head? hreset hbeforeCalls hbefore, ne_eq, List.head?_eq_none_iff]
      exact hne
    have herror : (BlockAuthor.setAuthor .none author).run t.pre.storage =
        .error (.error .authorAlreadySet) t.pre.storage := by
      rw [run_setAuthor, if_pos rfl, if_neg hset]
    exact ⟨herror, hstep.eq_of_error herror⟩
  · intro t ht origin author hlabel horigin
    have hstep := (hcalls.exists_of_mem ht).1
    rw [hlabel, chainStep_eq_some_iff] at hstep
    have herror : (BlockAuthor.setAuthor origin author).run t.pre.storage =
        .error (.error .badOrigin) t.pre.storage := by
      rw [run_setAuthor, if_neg horigin]
    exact ⟨herror, hstep.eq_of_error herror⟩

/-- Every block of a run issues a reward exactly if an inherent call names an author in it, to the
author that the first of them names, and the other attempts to set the author fail. -/
theorem paysOwnAuthor {blocks : List Block}
    (hrun : ChainRun cfg s (blocks.flatMap Block.trace) st) {block : Block}
    (hblock : block ∈ blocks) : PaysOwnAuthor block := by
  obtain ⟨before, after, rfl⟩ := List.mem_iff_append.mp hblock
  rw [List.flatMap_append, List.flatMap_cons] at hrun
  obtain ⟨_, -, hrest⟩ := Run.append_iff.mp hrun
  obtain ⟨_, hblockRun, -⟩ := Run.append_iff.mp hrest
  exact paysOwnAuthor_of_run hblockRun

/-- The two blocks of the sample run. -/
theorem paysOwnAuthor_sample :
    ∃ blocks : List Block, Sample.run.1 = blocks.flatMap Block.trace ∧ blocks ≠ [] ∧
      ∀ block ∈ blocks, PaysOwnAuthor block := by
  have hidle : Sample.run.2.inBlock = false := by decide +kernel
  have hsteps : Sample.run.1 ≠ [] := by decide +kernel
  obtain ⟨blocks, hblocks⟩ := exists_blocks Sample.chainRun hidle
  refine ⟨blocks, hblocks, ?_, fun block hblock => paysOwnAuthor (hblocks ▸ Sample.chainRun) hblock⟩
  rintro rfl
  exact hsteps hblocks

end PowEvm
