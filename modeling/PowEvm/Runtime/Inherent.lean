import PowEvm.Runtime.Beneficiary

/-!
# The author inherent

The `ProvideInherent` implementation of the block author pallet. The call is created from the
inherent data of the block and sets the author that finalization pays, but it is never recognized as
an inherent: `is_inherent` is `todo!()`, which stops the program on every call, so no block that
carries the call can be checked.

## Main results

* `createInherent_eq_iff`: which calls are created from which data;
* `rewarded_of_setAuthor`: a block whose first author is set by the call pays its key;
* `authorInherent_unrecognized`: the call works everywhere but in the check.
-/

namespace PowEvm.BlockAuthor

open Utxo

/-- `sp_inherents::InherentIdentifier`. -/
abbrev InherentIdentifier := FixedBytes 8

/-- `INHERENT_IDENTIFIER`, the bytes of `author__`. -/
def inherentIdentifier : InherentIdentifier :=
  ⟨[0x61, 0x75, 0x74, 0x68, 0x6f, 0x72, 0x5f, 0x5f], rfl⟩

/-- `sp_inherents::InherentData`, as far as `get_data::<InherentType>` reads it: `none` where that
returns an error. -/
structure InherentData where
  getData : InherentIdentifier → Option (Option Bytes)

/-- `block_author::Call`. -/
inductive Call where
  | setAuthor (author : Public)
  deriving DecidableEq

/-- The call among those of the runtime. -/
def Call.toRuntime : Call → PowEvm.Call
  | .setAuthor author => .setAuthor author

/-- `create_inherent`. -/
def createInherent (data : InherentData) : Except Failure (Option Call) := do
  match ← orPanic (data.getData inherentIdentifier) with
  | none => return none
  | some authorRaw =>
    -- decoding leaves the bytes after the key in the slice
    let decoded := (Codec.fixed (Equiv.refl Public)).decode authorRaw
    let author ← orPanic (decoded.map Prod.fst)
    return some (.setAuthor author)

/-- `is_inherent`, which is `todo!()`. -/
def isInherent (_call : Call) : Except Failure Bool := .error .panic

/-- What the runtime does with the unsigned calls of the pallet when it checks a block. -/
def recognize (calls : List Call) : Except Failure (List Bool) := calls.mapM isInherent

/-- The inherent works for a key and a storage in which no author is set: it is created from the
data, recognized, dispatched, and whatever calls come after it, the block pays the key. -/
structure AuthorInherentWorks (cfg : Config) (data : InherentData) (key : Public) (s : Storage) :
    Prop where
  created : createInherent data = .ok (some (.setAuthor key))
  recognized : ∀ (data' : InherentData) (call : Call),
    createInherent data' = .ok (some call) → isInherent call = .ok true
  dispatched : (dispatch cfg .none (Call.setAuthor key).toRuntime).run s =
    .ok () { s with author := some key }
  rewarded : ∀ (calls : List (Transition ChainState Action)) (st st' : ChainState),
    (∀ t ∈ calls, ∃ origin call, t.label = .call origin call) →
      Run (chainStep cfg) ⟨{ s with author := some key }, true⟩ calls st →
        chainStep cfg st .onFinalize = some st' → IssuesReward ⟨st, .onFinalize, st'⟩ key

variable {cfg : Config} {s : Storage} {data : InherentData} {call : Call} {key : Public}

/-! ## Creation -/

/-- A call is created from every byte string that starts with the key it names. -/
theorem createInherent_eq_iff : createInherent data = .ok (some call) ↔
    ∃ authorRaw key, data.getData inherentIdentifier = some (some authorRaw) ∧
      key.toList <+: authorRaw ∧ call = .setAuthor key := by
  rw [createInherent, Except.bind_eq_ok_iff]
  refine ⟨?_, ?_⟩
  · rintro ⟨authorRaw?, hdata, h⟩
    rw [orPanic_eq_ok_iff] at hdata
    cases authorRaw? with
    | none => exact absurd (Except.ok.inj h) (by simp)
    | some authorRaw =>
      obtain ⟨key, hkey, hcall⟩ := Except.bind_eq_ok_iff.mp h
      rw [orPanic_eq_ok_iff, Codec.map_fst_decode_fixed_iff] at hkey
      exact ⟨authorRaw, key, hdata, hkey, (Option.some.inj (Except.ok.inj hcall)).symm⟩
  · rintro ⟨authorRaw, key, hdata, hkey, rfl⟩
    refine ⟨some authorRaw, orPanic_eq_ok_iff.mpr hdata, Except.bind_eq_ok_iff.mpr ?_⟩
    exact ⟨key, orPanic_eq_ok_iff.mpr (Codec.map_fst_decode_fixed_iff.mpr hkey), rfl⟩

/-- The bytes of a key create the call that sets it. -/
theorem createInherent_of_getData
    (hdata : data.getData inherentIdentifier = some (some key.toList)) :
    createInherent data = .ok (some (.setAuthor key)) :=
  createInherent_eq_iff.mpr ⟨_, key, hdata, List.prefix_refl _, rfl⟩

/-! ## Recognition -/

/-- Checking a block stops the program if there is a call of the pallet in it. -/
theorem recognize_eq_panic {calls : List Call} (h : call ∈ calls) :
    recognize calls = .error .panic := by
  obtain ⟨first, rest, rfl⟩ := List.exists_cons_of_ne_nil (List.ne_nil_of_mem h)
  rw [recognize, List.mapM_cons]
  rfl

/-- No call is recognized. -/
theorem AuthorInherentWorks.elim (h : AuthorInherentWorks cfg data key s) : False := by
  have hpanic : isInherent (.setAuthor key) = .error .panic := rfl
  rw [h.recognized data _ h.created] at hpanic
  cases hpanic

/-! ## Execution -/

/-- The call succeeds where no author is set. -/
theorem run_dispatch_setAuthor (hunset : s.author = none) :
    (dispatch cfg .none (Call.setAuthor key).toRuntime).run s =
      .ok () { s with author := some key } := by
  change (BlockAuthor.setAuthor .none key).run s = _
  rw [run_setAuthor, if_pos rfl, if_pos hunset]

/-- Once it is set, the key stays the author to the end of the block, and is paid there. -/
theorem rewarded_of_setAuthor (hunset : s.author = none)
    {calls : List (Transition ChainState Action)} {st st' : ChainState}
    (hcalls : ∀ t ∈ calls, ∃ origin call, t.label = .call origin call)
    (hrun : Run (chainStep cfg) ⟨{ s with author := some key }, true⟩ calls st)
    (hfinal : chainStep cfg st .onFinalize = some st') :
    IssuesReward ⟨st, .onFinalize, st'⟩ key := by
  -- the inherent is the first call of the block to name an author
  let first : Transition ChainState Action :=
    ⟨⟨s, true⟩, .call .none (.setAuthor key), ⟨{ s with author := some key }, true⟩⟩
  have hstep : chainStep cfg first.pre first.label = some first.post :=
    chainStep_of_effect (.authorSet rfl hunset)
  have hwhole : Run (chainStep cfg) ⟨s, true⟩ (first :: calls) st :=
    Run.cons_iff.mpr ⟨rfl, hstep, hrun⟩
  have hlabels : ∀ t ∈ first :: calls, ∃ origin call, t.label = .call origin call :=
    List.forall_mem_cons.mpr ⟨⟨_, _, rfl⟩, hcalls⟩
  have hauthor : st.storage.author = some key := author_eq_head? hunset hlabels hwhole
  exact (issuesReward_iff (chainStep_eq_some_iff.mp hfinal)).mpr hauthor

/-- For every key and every block in which no author is set yet: the call is created, setting the
author succeeds and the block pays the key, but checking a block with the call stops the program, so
the inherent works for no key. -/
theorem authorInherent_unrecognized
    (hdata : data.getData inherentIdentifier = some (some key.toList)) (hunset : s.author = none) :
    createInherent data = .ok (some (.setAuthor key)) ∧
      (∀ calls : List Call, .setAuthor key ∈ calls → recognize calls = .error .panic) ∧
      (dispatch cfg .none (Call.setAuthor key).toRuntime).run s =
        .ok () { s with author := some key } ∧
      (∀ (calls : List (Transition ChainState Action)) (st st' : ChainState),
        (∀ t ∈ calls, ∃ origin call, t.label = .call origin call) →
          Run (chainStep cfg) ⟨{ s with author := some key }, true⟩ calls st →
            chainStep cfg st .onFinalize = some st' → IssuesReward ⟨st, .onFinalize, st'⟩ key) ∧
      ¬ AuthorInherentWorks cfg data key s :=
  ⟨createInherent_of_getData hdata, fun _ h => recognize_eq_panic h, run_dispatch_setAuthor hunset,
    fun _ _ _ hcalls hrun hfinal => rewarded_of_setAuthor hunset hcalls hrun hfinal,
    AuthorInherentWorks.elim⟩

/-- The inherent data of a key. -/
def sampleData (key : Public) : InherentData where
  getData identifier :=
    if identifier = inherentIdentifier then some (some key.toList) else some none

theorem getData_sampleData (key : Public) :
    (sampleData key).getData inherentIdentifier = some (some key.toList) := by
  simp [sampleData]

theorem authorInherent_unrecognized_sample :
    createInherent (sampleData Sample.miner) = .ok (some (.setAuthor Sample.miner)) ∧
      recognize [.setAuthor Sample.miner] = .error .panic ∧
      ¬ AuthorInherentWorks Sample.config (sampleData Sample.miner) Sample.miner
        (genesis Sample.config Sample.coins) := by
  have hunset : (genesis Sample.config Sample.coins).author = none := rfl
  obtain ⟨hcreated, hpanic, -, -, hnot⟩ :=
    authorInherent_unrecognized (getData_sampleData Sample.miner) hunset
  exact ⟨hcreated, hpanic _ List.mem_cons_self, hnot⟩

/-- The call that is created for the miner is not recognized, whereas dispatching it succeeds. -/
theorem created_not_recognized :
    createInherent (sampleData Sample.miner) = .ok (some (.setAuthor Sample.miner)) ∧
      isInherent (.setAuthor Sample.miner) = .error .panic ∧
      ¬ AuthorInherentWorks Sample.config (sampleData Sample.miner) Sample.miner
        (genesis Sample.config Sample.coins) :=
  ⟨createInherent_of_getData (getData_sampleData Sample.miner), rfl, AuthorInherentWorks.elim⟩

end PowEvm.BlockAuthor
