import PowEvm.Pallets.Rewards

/-!
# The author in the digests of a header

`FindAuthorFromDigests`: the first pre-runtime digest that decodes to an account is taken for the
author, whatever engine it belongs to. Decoding reads the first 32 bytes, so only an item of less
than 32 bytes is passed over.

## Main results

* `findAuthor_eq_find?`: the author is read from the first item of at least 32 bytes;
* `findAuthor_minerDigest_iff`: when the miner is found behind the digests of other engines.
-/

namespace PowEvm.Rewards

/-- `ConsensusEngineId`. -/
abbrev ConsensusEngineId := FixedBytes 4

/-- `POW_ENGINE_ID`, the bytes of `pow_`. -/
def powEngineId : ConsensusEngineId := ⟨[0x70, 0x6f, 0x77, 0x5f], rfl⟩

/-- A pre-runtime digest: the engine it belongs to, and its bytes. -/
abbrev PreRuntime := ConsensusEngineId × Bytes

/-- `AccountId::decode`, which leaves the bytes after the first 32 alone. -/
def decodeAccountId (author : Bytes) : Option AccountId :=
  ((Codec.fixed (Equiv.refl AccountId)).decode author).map Prod.fst

/-- `find_author`. -/
def findAuthor (digests : List PreRuntime) : Option AccountId :=
  digests.findSome? fun item =>
    match item with
    | (_, author) => decodeAccountId author

/-- The item that the node has put into the headers it mines, `author.encode()` under the engine id
of the proof of work. -/
def minerDigest (author : Public) : PreRuntime := (powEngineId, author.toList)

/-- What `pallet_authorship` does with a header, configured as in the runtime. -/
def noteAuthorOf {β : Type} (currency : Currency β) (digests : List PreRuntime) (s : Storage β) :
    Storage β :=
  match findAuthor digests with
  | some author => noteAuthor currency author s
  | none => s

variable {digests before after : List PreRuntime} {author : Bytes} {who : AccountId}

/-- An account is decoded from every byte string that starts with it. -/
theorem decodeAccountId_eq_some_iff : decodeAccountId author = some who ↔ who.toList <+: author :=
  Codec.map_fst_decode_fixed_iff

/-- Only a byte string of less than 32 bytes decodes to no account. -/
theorem decodeAccountId_isSome : (decodeAccountId author).isSome = decide (32 ≤ author.length) := by
  rw [Bool.eq_iff_iff, Option.isSome_iff_exists, decide_eq_true_iff]
  simp only [decodeAccountId_eq_some_iff]
  refine ⟨?_, ?_⟩
  · rintro ⟨who, hprefix⟩
    exact who.toList_length ▸ hprefix.length_le
  · intro hlength
    exact ⟨⟨author.take 32, by simpa using hlength⟩, List.take_prefix 32 author⟩

theorem findAuthor_cons (item : PreRuntime) (digests : List PreRuntime) :
    findAuthor (item :: digests) = (decodeAccountId item.2).or (findAuthor digests) := by
  obtain ⟨engine, author⟩ := item
  rw [findAuthor, List.findSome?_cons]
  cases h : decodeAccountId author with
  | some who => simp [h]
  | none => simp [h, findAuthor]

theorem findAuthor_append (digests digests' : List PreRuntime) :
    findAuthor (digests ++ digests') = (findAuthor digests).or (findAuthor digests') :=
  List.findSome?_append

theorem findAuthor_minerDigest_cons (author : Public) (after : List PreRuntime) :
    findAuthor (minerDigest author :: after) = some author := by
  have hdecode : decodeAccountId (minerDigest author).2 = some author :=
    decodeAccountId_eq_some_iff.mpr (List.prefix_refl _)
  rw [findAuthor_cons, hdecode, Option.some_or]

/-- The author is read from the first item of at least 32 bytes. -/
theorem findAuthor_eq_find? (digests : List PreRuntime) :
    findAuthor digests =
      (digests.find? fun item => 32 ≤ item.2.length).bind fun item => decodeAccountId item.2 := by
  induction digests with
  | nil => rfl
  | cons item digests ih =>
    rw [findAuthor_cons, List.find?_cons, ← decodeAccountId_isSome]
    cases h : decodeAccountId item.2 with
    | some who => simp [h]
    | none => rw [Option.none_or, ih, Option.isSome_none]

/-- An item of at least 32 bytes decodes to an account. -/
theorem exists_decodeAccountId {item : PreRuntime}
    (hitem : before.find? (fun item => 32 ≤ item.2.length) = some item) :
    ∃ who, decodeAccountId item.2 = some who := by
  have hlength : decide (32 ≤ item.2.length) = true :=
    List.find?_some (p := fun item : PreRuntime => decide (32 ≤ item.2.length)) hitem
  rw [← decodeAccountId_isSome] at hlength
  exact Option.isSome_iff_exists.mp hlength

/-- The miner is found exactly when the first item of at least 32 bytes before its own, if there is
one, starts with its key. -/
theorem findAuthor_eq_some_iff (before after : List PreRuntime) (author : Public) :
    findAuthor (before ++ minerDigest author :: after) = some author ↔
      ∀ item, before.find? (fun item => 32 ≤ item.2.length) = some item →
        author.toList <+: item.2 := by
  rw [findAuthor_append, findAuthor_minerDigest_cons, findAuthor_eq_find? before]
  refine ⟨?_, ?_⟩
  · intro hfound item hitem
    -- the item decodes to some account, so it is the one found
    obtain ⟨who, hwho⟩ := exists_decodeAccountId hitem
    rw [hitem, Option.bind_some, hwho, Option.some_or] at hfound
    rw [← decodeAccountId_eq_some_iff, hwho, hfound]
  · intro hcond
    cases hfind : before.find? (fun item => 32 ≤ item.2.length) with
    | none => rw [Option.bind_none, Option.none_or]
    | some item =>
      have hdecode := decodeAccountId_eq_some_iff.mpr (hcond item hfind)
      rw [Option.bind_some, hdecode, Option.some_or]

/-- Whatever the digests of other engines hold, the miner is found and noted exactly when the first
item of at least 32 bytes before its own, if there is one, starts with its key. -/
theorem findAuthor_minerDigest_iff (before after : List PreRuntime) (author : Public) :
    (findAuthor (before ++ minerDigest author :: after) = some author ∧
        ∀ (β : Type) (currency : Currency β) (s : Storage β),
          noteAuthorOf currency (before ++ minerDigest author :: after) s =
            noteAuthor currency author s) ↔
      ∀ item, before.find? (fun item => 32 ≤ item.2.length) = some item →
        author.toList <+: item.2 := by
  rw [← findAuthor_eq_some_iff before after]
  refine ⟨And.left, ?_⟩
  intro hfound
  refine ⟨hfound, ?_⟩
  intro β currency s
  rw [noteAuthorOf, hfound]

/-- A digest of another engine, `BABE`, of 40 bytes. -/
def foreignDigest : PreRuntime := (⟨[0x42, 0x41, 0x42, 0x45], rfl⟩, List.replicate 40 0xb0)

/-- Before the item of the miner, the other one is taken for the author. -/
theorem foreign_digest_found :
    findAuthor [foreignDigest, minerDigest Sample.author] =
        some (List.Vector.replicate 32 0xb0) ∧
      ¬ ∀ (digests : List PreRuntime) (author : Public),
        digests.filter (fun item => item.1 = powEngineId) = [minerDigest author] →
          findAuthor digests = some author := by
  have hfound : findAuthor [foreignDigest, minerDigest Sample.author] =
      some (List.Vector.replicate 32 0xb0) := by decide +kernel
  refine ⟨hfound, ?_⟩
  intro h
  have hminer := h [foreignDigest, minerDigest Sample.author] Sample.author (by decide +kernel)
  rw [hfound] at hminer
  exact absurd hminer (by decide +kernel)

end PowEvm.Rewards
