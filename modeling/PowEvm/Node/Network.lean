import PowEvm.Node.Consensus
import PowEvm.Node.Mining
import PowEvm.Runtime.Authorless
import PowEvm.Runtime.Bookkeeping
import PowEvm.Runtime.Forks
import PowEvm.Runtime.Inherent

/-!
# Chains as runs of the runtime

A client executes a block before it imports it, so every chain that it knows is a run of the runtime
from genesis, and what holds of the runs holds of every fork of every client. What the mining loop
submits makes such chains longer.

Executing a block checks its inherents first, which stops the program where the author inherent is
among them. A miner that puts it into its own blocks is left alone with them.

## Main results

* `chainRun_of_execute`: the state after a chain is reached by the run of its blocks;
* `ledgersAgree_of_imports`: no chain of any client executes a transaction twice, and no two clients
  hold different outputs under one key, on whichever chains;
* `unrewarded_of_imports`: no chain of any client ever pays a miner, and its supply is that of
  genesis but for the defects of `spend`;
* `followed_of_submitted`: a seal that is submitted for the next block makes a verified chain that
  the import of every client on its parent switches to.
-/

namespace PowEvm.Network

open BlockAuthor (Origin)
open Consensus Sha3Pow

/-- The calls of a block to the modelled pallets. -/
inductive BlockCall where
  | runtime (call : Call)
  | setDifficulty (difficulty : U256)
  deriving DecidableEq

/-- The number of a block, and its calls with their origins. -/
structure Body where
  number : BlockNumber
  calls : List (Origin × BlockCall)
  deriving DecidableEq

/-- The calls to the difficulty pallet. -/
def Body.setCalls (body : Body) : List Difficulty.SetCall :=
  body.calls.filterMap fun
    | (origin, .setDifficulty difficulty) => some (origin, difficulty)
    | _ => none

/-- The calls of the author inherent: the unsigned ones to the block author pallet. -/
def Body.inherents (body : Body) : List BlockAuthor.Call :=
  body.calls.filterMap fun
    | (.none, .runtime (.setAuthor author)) => some (.setAuthor author)
    | _ => none

/-- The steps of the block, where the calls to the difficulty pallet leave the storage of the other
pallets alone. -/
def Body.actions (body : Body) : List Action :=
  .onInitialize body.number :: body.calls.filterMap (fun
    | (origin, .runtime call) => some (.call origin call)
    | _ => none) ++ [.onFinalize]

/-- The steps of a chain, the oldest first. -/
def actions (chain : Chain Body) : List Action :=
  chain.reverse.flatMap fun block => block.body.actions

variable {cfg : Config} {utxos : List TransactionOutput} {env : Env Body}
  {chain parent : Chain Body} {block : Consensus.Block Body} {st : ChainState}

/-! ## Execution -/

/-- `Core::execute_block` as far as the modelled pallets decide it, `none` where a step is refused
or the program stops. The other checks of `frame_executive` refuse further blocks. -/
def executeBlock (cfg : Config) (st : ChainState) (body : Body) : Option ChainState :=
  (BlockAuthor.recognize body.inherents).toOption.bind fun _ =>
    body.actions.foldlM (chainStep cfg) st

/-- The state after a chain. -/
def execute (cfg : Config) (utxos : List TransactionOutput) : Chain Body → Option ChainState
  | [] => some ⟨Utxo.genesis cfg utxos, false⟩
  | block :: parent => (execute cfg utxos parent).bind (executeBlock cfg · block.body)

/-- The transitions of the chain. -/
def traceOf (cfg : Config) (utxos : List TransactionOutput) (chain : Chain Body) :
    List (Transition ChainState Action) :=
  (replay (chainStep cfg) [] ⟨Utxo.genesis cfg utxos, false⟩ (actions chain)).1

/-- The calls among the steps of a block. -/
theorem call_mem_actions_iff {body : Body} {origin : Origin} {call : Call} :
    .call origin call ∈ body.actions ↔ (origin, .runtime call) ∈ body.calls := by
  rw [Body.actions, List.mem_append, List.mem_cons, List.mem_filterMap]
  refine ⟨?_, ?_⟩
  · rintro ((h | ⟨⟨origin', call'⟩, hmem, h⟩) | h)
    · simp at h
    · cases call' with
      | setDifficulty difficulty => simp at h
      | runtime call' =>
        obtain ⟨rfl, rfl⟩ : origin' = origin ∧ call' = call := by simpa using h
        exact hmem
    · simp at h
  · intro hmem
    exact Or.inl (Or.inr ⟨_, hmem, rfl⟩)

/-- A block that is executed carries no author inherent. -/
theorem inherents_eq_nil {body : Body} {st' : ChainState}
    (h : executeBlock cfg st body = some st') : body.inherents = [] := by
  obtain ⟨_, hrecognized, -⟩ := Option.bind_eq_some_iff.mp h
  by_contra hne
  obtain ⟨call, hcall⟩ := List.exists_mem_of_ne_nil _ hne
  rw [BlockAuthor.recognize_eq_panic hcall] at hrecognized
  simp [Except.toOption] at hrecognized

/-- Where the blocks of a chain are executed, all its steps are. -/
theorem foldlM_of_execute (h : execute cfg utxos chain = some st) :
    (actions chain).foldlM (chainStep cfg) ⟨Utxo.genesis cfg utxos, false⟩ = some st := by
  induction chain generalizing st with
  | nil => exact h
  | cons block parent ih =>
    obtain ⟨before, hparent, hblock⟩ := Option.bind_eq_some_iff.mp h
    obtain ⟨_, -, hsteps⟩ := Option.bind_eq_some_iff.mp hblock
    rw [actions, List.reverse_cons, List.flatMap_append, List.foldlM_append,
      List.flatMap_singleton]
    exact Option.bind_eq_some_iff.mpr ⟨before, ih hparent, hsteps⟩

/-- No step of an executed chain names an author. -/
theorem ne_setAuthor_of_execute (h : execute cfg utxos chain = some st) (author : Public) :
    .call .none (.setAuthor author) ∉ actions chain := by
  induction chain generalizing st with
  | nil => exact List.not_mem_nil
  | cons block parent ih =>
    obtain ⟨before, hparent, hblock⟩ := Option.bind_eq_some_iff.mp h
    have hinherents := inherents_eq_nil hblock
    rw [actions, List.reverse_cons, List.flatMap_append, List.flatMap_singleton, List.mem_append]
    rintro (hmem | hmem)
    · exact ih hparent hmem
    · -- the call would be among the inherents of the block
      have hinherent : BlockAuthor.Call.setAuthor author ∈ block.body.inherents :=
        List.mem_filterMap.mpr ⟨_, call_mem_actions_iff.mp hmem, rfl⟩
      rw [hinherents] at hinherent
      exact absurd hinherent List.not_mem_nil

/-- The state after a chain is reached by the run of its blocks, every step of them taken. -/
theorem chainRun_of_execute (h : execute cfg utxos chain = some st) :
    ChainRun cfg (Utxo.genesis cfg utxos) (traceOf cfg utxos chain) st ∧
      (traceOf cfg utxos chain).map Transition.label = actions chain := by
  obtain ⟨hend, hlabels⟩ := replay_of_foldlM (foldlM_of_execute h) []
  refine ⟨?_, hlabels⟩
  rw [← hend]
  exact Run.nil.of_replay _

/-- The run of an executed chain has no author. -/
theorem authorless_of_execute (h : execute cfg utxos chain = some st) :
    Authorless (traceOf cfg utxos chain) := by
  intro t ht author hlabel
  have hmem : t.label ∈ (traceOf cfg utxos chain).map Transition.label := List.mem_map_of_mem ht
  rw [(chainRun_of_execute h).2, hlabel] at hmem
  exact ne_setAuthor_of_execute h author hmem

/-! ## Clients -/

section Clients

variable {importBlock : Client Body → Chain Body → Option (Client Body)}
  {trace trace' : List (Transition (Client Body) (Chain Body))} {client client' : Client Body}

/-- The documented behaviour of the client on blocks that it has not built itself: a block is
imported only if its execution goes through. -/
def Executes (cfg : Config) (utxos : List TransactionOutput)
    (importBlock : Client Body → Chain Body → Option (Client Body)) : Prop :=
  ∀ client chain client', importBlock client chain = some client' →
    ∃ st, execute cfg utxos chain = some st

/-- The execution of every known chain goes through. -/
theorem exists_execute_of_known (hx : Documented env importBlock)
    (hexecutes : Executes cfg utxos importBlock) (hrun : ImportRun importBlock trace client) :
    ∀ chain ∈ client.known, ∃ st, execute cfg utxos chain = some st := by
  refine hrun.history_induct
    (motive := fun _ client => ∀ chain ∈ client.known, ∃ st, execute cfg utxos chain = some st)
    ?_ ?_
  · intro chain hchain
    obtain rfl : chain = [] := List.mem_singleton.mp hchain
    exact ⟨⟨Utxo.genesis cfg utxos, false⟩, rfl⟩
  · intro _ client imported client' _ ih hstep chain hchain
    have hexecuted := hexecutes _ _ _ hstep
    obtain ⟨block, parent, replaces, -, -, -, -, rfl⟩ := hx _ _ _ hstep
    rcases List.mem_cons.mp hchain with rfl | hchain
    · exact hexecuted
    · exact ih _ hchain

/-- No chain of the clients executes a transaction twice or consumes an outpoint twice, and no two
chains hold different outputs under one key. -/
structure LedgersAgree (cfg : Config) (utxos : List TransactionOutput)
    (client client' : Client Body) : Prop where
  unreplayed : ∀ chain ∈ client.known, Unreplayed cfg utxos (traceOf cfg utxos chain)
  outputs_eq : ∀ chain ∈ client.known, ∀ chain' ∈ client'.known, ∃ st st',
    execute cfg utxos chain = some st ∧ execute cfg utxos chain' = some st' ∧
      ∀ k u u', st.storage.utxoStore.lookup k = some u →
        st'.storage.utxoStore.lookup k = some u' → u = u'

/-- What a chain without an author does to the money in it. -/
structure Unmined (cfg : Config) (utxos : List TransactionOutput) (chain : Chain Body)
    (st : ChainState) : Prop where
  executed : execute cfg utxos chain = some st
  unrewarded : Unrewarded cfg (Utxo.genesis cfg utxos) (traceOf cfg utxos chain) st
  supply_eq : Set.InjOn cfg.blakeTwo256 {p | p ∈ runPreimages cfg utxos (traceOf cfg utxos chain)} →
    supply st.storage + ((traceOf cfg utxos chain).map (destroyed cfg)).sum =
      supply (Utxo.genesis cfg utxos) + ((traceOf cfg utxos chain).map (conjured cfg)).sum

/-- No chain that any client has imported, from whomever, pays a miner: no reward is issued on it,
every fee stays in `RewardTotal`, and unless two of its preimages collide its supply is that of
genesis, less what is lost of large fees and more what claiming an input twice conjures up. -/
theorem unrewarded_of_imports (hx : Documented env importBlock)
    (hexecutes : Executes cfg utxos importBlock) (hrun : ImportRun importBlock trace client) :
    ∀ chain ∈ client.known, ∃ st, Unmined cfg utxos chain st := by
  intro chain hchain
  obtain ⟨st, hst⟩ := exists_execute_of_known hx hexecutes hrun chain hchain
  have hsteps := (chainRun_of_execute hst).1
  have hauthorless := authorless_of_execute hst
  refine ⟨st, hst, unrewarded_of_authorless hsteps hauthorless, ?_⟩
  intro hinj
  have hissued : ((traceOf cfg utxos chain).map (issuedAt cfg)).sum = 0 := by
    rw [List.sum_eq_zero_iff_forall_eq_nat, List.forall_mem_map]
    exact fun t ht => issuedAt_eq_zero (author_eq_none_of_onFinalize hsteps hauthorless t ht)
  have hbooks := supply_books hsteps (filesFresh_of_injOn hsteps hinj)
  rw [hissued] at hbooks
  omega

/-- Whatever two clients import, their ledgers agree, unless the hash has a collision among the
preimages of the chains they know. -/
theorem ledgersAgree_of_imports (hx : Documented env importBlock)
    (hexecutes : Executes cfg utxos importBlock) (hrun : ImportRun importBlock trace client)
    (hrun' : ImportRun importBlock trace' client')
    (hinj : Set.InjOn cfg.blakeTwo256 {p | ∃ chain, (chain ∈ client.known ∨ chain ∈ client'.known) ∧
      p ∈ runPreimages cfg utxos (traceOf cfg utxos chain)}) :
    LedgersAgree cfg utxos client client' where
  unreplayed := by
    intro chain hchain
    obtain ⟨st, hst⟩ := exists_execute_of_known hx hexecutes hrun chain hchain
    have hfree : Set.InjOn cfg.blakeTwo256
        {p | p ∈ runPreimages cfg utxos (traceOf cfg utxos chain)} :=
      hinj.mono fun _ hp => Exists.intro chain ⟨Or.inl hchain, hp⟩
    exact (consistent_of_injOn (chainRun_of_execute hst).1 hfree).2
  outputs_eq := by
    intro chain hchain chain' hchain'
    obtain ⟨st, hst⟩ := exists_execute_of_known hx hexecutes hrun chain hchain
    obtain ⟨st', hst'⟩ := exists_execute_of_known hx hexecutes hrun' chain' hchain'
    refine ⟨st, st', hst, hst', ?_⟩
    intro k u u' hk hk'
    have hforks : Set.InjOn cfg.blakeTwo256
        {p | p ∈ runPreimages cfg utxos (traceOf cfg utxos chain) ∨
          p ∈ runPreimages cfg utxos (traceOf cfg utxos chain')} := by
      refine hinj.mono ?_
      rintro p (hp | hp)
      · exact Exists.intro chain ⟨Or.inl hchain, hp⟩
      · exact Exists.intro chain' ⟨Or.inr hchain', hp⟩
    exact lookup_eq_of_forks (chainRun_of_execute hst).1 (chainRun_of_execute hst').1 hforks hk hk'

end Clients

/-! ## Mining -/

section Mining

variable {sha3 : Bytes → H256}

/-- The metadata is the one of the next block with the body. -/
structure DescribesNext (env : Env Body) (parent : Chain Body) (body : Body)
    (metadata : Mining.MiningMetadata) : Prop where
  preHash_eq : metadata.preHash = env.preHash parent body
  difficulty_eq : difficulty env parent = some metadata.difficulty

/-- Extending a chain by a block of difficulty `d` adds `d` to the total, while it fits. -/
theorem toNat_totalDifficulty_cons
    (hfits : (totalDifficulty env parent).toNat + (difficultyInForce env parent).toNat < 2 ^ 256) :
    (totalDifficulty env (block :: parent)).toNat =
      (totalDifficulty env parent).toNat + (difficultyInForce env parent).toNat := by
  rw [totalDifficulty, Consensus.difficulty_eq, Option.getD_some, Integers.saturatingAdd,
    if_pos hfits, BitVec.toNat_add_of_lt hfits]

/-- A client whose best chain is replaced follows the new one. -/
theorem best_eq_of_import {importBlock : Client Body → Chain Body → Option (Client Body)}
    {client client' : Client Body} (hx : Documented env importBlock)
    (himport : importBlock client chain = some client')
    (hchoice : forkChoice env client.best chain = some true) : client'.best = chain := by
  obtain ⟨_, _, replaces, -, -, -, hreplaces, rfl⟩ := hx _ _ _ himport
  obtain rfl : true = replaces := Option.some.inj (hchoice.symm.trans hreplaces)
  rfl

/-- Over every run of the mining loop: a seal that is submitted for the metadata of the next block
of a verified chain makes a verified chain. As long as the difficulty is not zero and the total has
not saturated, it replaces its parent, so that every client that follows the parent and imports the
block switches to it. -/
theorem followed_of_submitted {nonce : U256}
    {iterations : List (Transition Mining.Miner (Option Mining.MiningMetadata))}
    {miner : Mining.Miner} (hrun : Mining.MiningRun env.sha3 nonce iterations miner)
    {metadata : Mining.MiningMetadata} {raw : RawSeal}
    (hsubmitted : (metadata, raw) ∈ miner.submitted) {body : Body}
    (hdescribes : DescribesNext env parent body metadata) (hverified : Verified env parent) :
    Verified env (⟨body, raw⟩ :: parent) ∧
      (metadata.difficulty ≠ 0 →
        (totalDifficulty env parent).toNat + metadata.difficulty.toNat < 2 ^ 256 →
          forkChoice env parent (⟨body, raw⟩ :: parent) = some true ∧
            ∀ importBlock client client', Documented env importBlock → client.best = parent →
              importBlock client (⟨body, raw⟩ :: parent) = some client' →
                client'.best = ⟨body, raw⟩ :: parent) := by
  have hverify := Mining.verify_of_mem_submitted hrun _ hsubmitted
  rw [hdescribes.preHash_eq] at hverify
  refine ⟨.block hverified ?_, ?_⟩
  · rw [verifies, hdescribes.difficulty_eq, Option.any_some]
    exact hverify
  · intro hpositive hfits
    -- the block adds the difficulty of the metadata, which is the one in force
    have hforce : difficultyInForce env parent = metadata.difficulty :=
      Option.some.inj ((Consensus.difficulty_eq parent).symm.trans hdescribes.difficulty_eq)
    rw [← hforce] at hpositive hfits
    have hpos : 0 < (difficultyInForce env parent).toNat := by
      rw [Nat.pos_iff_ne_zero]
      exact fun hzero => hpositive (BitVec.eq_of_toNat_eq hzero)
    have hlt : totalDifficulty env parent < totalDifficulty env (⟨body, raw⟩ :: parent) := by
      rw [BitVec.lt_def, toNat_totalDifficulty_cons hfits]
      omega
    have hchoice : forkChoice env parent (⟨body, raw⟩ :: parent) = some true := if_pos hlt
    refine ⟨hchoice, ?_⟩
    rintro importBlock client client' hx rfl himport
    exact best_eq_of_import hx himport hchoice

end Mining

/-! ## Two forks of one block

Alice's transaction is executed in a block by one client, and along with Bob's by another client.
That block doubles the difficulty, and an empty one is mined on top of it.
-/

namespace Sample

def aliceOnly : Body where
  number := 1
  calls := [(.signed PowEvm.Sample.alice, .runtime (.spend PowEvm.Sample.aliceSpends))]

def both : Body where
  number := 1
  calls := [(.signed PowEvm.Sample.alice, .runtime (.spend PowEvm.Sample.aliceSpends)),
    (.root, .setDifficulty 2),
    (.signed PowEvm.Sample.bob, .runtime (.spend PowEvm.Sample.bobSpends))]

def empty : Body where
  number := 2
  calls := []

def emptyHeader : H256 := List.Vector.replicate 32 0x33

def sha3 (bytes : Bytes) : H256 :=
  if bytes = Compute.encode ⟨1, Consensus.Sample.childHeader, 0⟩ then
    h256 0xd5bce09624ad0477fa0017772e9af5284099b22e07bbc0799d9cfd7084f8906a
  else if bytes = Compute.encode ⟨2, emptyHeader, 0⟩ then
    h256 0xc9d705f04c8d29d3c5901f741c2ecf5387c291d9a01896bd062aa5bffb4dfbd6
  else if bytes = Compute.encode ⟨2, emptyHeader, 1⟩ then
    h256 0x5b040039489f600d35d8ebf085816b427d65fe11cc991d68e22cfc62a53a82b1
  else sampleSha3 bytes

def configured : Env Body where
  sha3 := sha3
  blake2256 := sampleBlake
  preHash _ body :=
    if body = aliceOnly then sampleHeader
    else if body = both then Consensus.Sample.childHeader
    else emptyHeader
  setCalls := Body.setCalls
  genesisDifficulty := 1

def aliceBlock : Consensus.Block Body := ⟨aliceOnly, mined⟩

def bothBlock : Consensus.Block Body :=
  ⟨both, (Compute.compute sha3 ⟨1, Consensus.Sample.childHeader, 0⟩).encode⟩

def emptyBlock : Consensus.Block Body :=
  ⟨empty, (Compute.compute sha3 ⟨2, emptyHeader, 1⟩).encode⟩

/-- The loop mines for genesis until the first block arrives. Of the nonces for the next one the
first misses, and before the second the worker has nothing to mine for. -/
def mining : List (Transition Mining.Miner (Option Mining.MiningMetadata)) × Mining.Miner :=
  replay (fun miner metadata => some (Mining.mine sha3 miner metadata)) [] ⟨0, []⟩
    [some ⟨sampleHeader, 1⟩, some ⟨emptyHeader, 2⟩, none, some ⟨emptyHeader, 2⟩]

/-- The import of a client that executes the blocks. -/
def importExecuted (client : Client Body) (chain : Chain Body) : Option (Client Body) :=
  if (execute PowEvm.Sample.config PowEvm.Sample.coins chain).isSome then
    Consensus.Sample.importChain configured client chain
  else none

theorem documented : Documented configured importExecuted := by
  intro client chain client' h
  have himported := (Option.ite_none_right_eq_some.mp h).2
  exact Consensus.Sample.documented configured client chain client' himported

theorem executes : Executes PowEvm.Sample.config PowEvm.Sample.coins importExecuted := by
  intro client chain client' h
  exact Option.isSome_iff_exists.mp (Option.ite_none_right_eq_some.mp h).1

/-- The client that imports the chains in this order. -/
def clientOf (chains : List (Chain Body)) :
    List (Transition (Client Body) (Chain Body)) × Client Body :=
  replay importExecuted [] Client.genesis chains

theorem importRun (chains : List (Chain Body)) :
    ImportRun importExecuted (clientOf chains).1 (clientOf chains).2 :=
  Run.nil.of_replay _

/-- The preimages of the chains are among those of the sample run. -/
theorem runPreimages_subset : ∀ chain ∈ [[aliceBlock], []] ++ [[bothBlock], []],
    runPreimages PowEvm.Sample.config PowEvm.Sample.coins
      (traceOf PowEvm.Sample.config PowEvm.Sample.coins chain) ⊆
    runPreimages PowEvm.Sample.config PowEvm.Sample.coins PowEvm.Sample.run.1 := by
  decide +kernel

theorem injOn_runPreimages : Set.InjOn PowEvm.Sample.config.blakeTwo256
    {p | p ∈ runPreimages PowEvm.Sample.config PowEvm.Sample.coins PowEvm.Sample.run.1} :=
  injOn_of_nodup_map (by decide +kernel)

theorem known_bothBlock : (clientOf [[bothBlock]]).2.known = [[bothBlock], []] := by
  decide +kernel

end Sample

/-- The fees of both transactions stay in `RewardTotal`. -/
theorem unrewarded_of_imports_sample : ∃ st,
    Unmined PowEvm.Sample.config PowEvm.Sample.coins [Sample.bothBlock] st ∧
      supply st.storage = 150 ∧ st.storage.rewardTotal.toNat = 15 := by
  have hmem : [Sample.bothBlock] ∈ (Sample.clientOf [[Sample.bothBlock]]).2.known := by
    rw [Sample.known_bothBlock]
    exact List.mem_cons_self
  obtain ⟨st, hst⟩ := unrewarded_of_imports Sample.documented Sample.executes
    (Sample.importRun _) _ hmem
  have hinj := Sample.injOn_runPreimages.mono fun p hp =>
    Sample.runPreimages_subset [Sample.bothBlock] (by simp) hp
  have hdestroyed : ((traceOf PowEvm.Sample.config PowEvm.Sample.coins [Sample.bothBlock]).map
      (destroyed PowEvm.Sample.config)).sum = 0 := by
    decide +kernel
  have hconjured : ((traceOf PowEvm.Sample.config PowEvm.Sample.coins [Sample.bothBlock]).map
      (conjured PowEvm.Sample.config)).sum = 0 := by
    decide +kernel
  have hgenesis : supply (Utxo.genesis PowEvm.Sample.config PowEvm.Sample.coins) = 150 := by
    decide +kernel
  have hsupply := hst.supply_eq hinj
  refine ⟨st, hst, by omega, ?_⟩
  rw [hst.unrewarded.rewardTotal_eq]
  decide +kernel

theorem ledgersAgree_of_imports_sample :
    LedgersAgree PowEvm.Sample.config PowEvm.Sample.coins
      (Sample.clientOf [[Sample.aliceBlock]]).2 (Sample.clientOf [[Sample.bothBlock]]).2 := by
  have hknown : (Sample.clientOf [[Sample.aliceBlock]]).2.known = [[Sample.aliceBlock], []] := by
    decide +kernel
  refine ledgersAgree_of_imports Sample.documented Sample.executes (Sample.importRun _)
    (Sample.importRun _) (Sample.injOn_runPreimages.mono ?_)
  rintro p ⟨chain, hchain, hp⟩
  rw [hknown, Sample.known_bothBlock] at hchain
  exact Sample.runPreimages_subset chain (List.mem_append.mpr hchain) hp

/-- The client on the first block switches to the empty block that is mined on top of it. -/
theorem followed_of_submitted_sample :
    Sample.mining.2.submitted =
        [(⟨sampleHeader, 1⟩, mined), (⟨Sample.emptyHeader, 2⟩, Sample.emptyBlock.raw)] ∧
      Verified Sample.configured [Sample.emptyBlock, Sample.bothBlock] ∧
      ∃ client', Sample.importExecuted (Sample.clientOf [[Sample.bothBlock]]).2
          [Sample.emptyBlock, Sample.bothBlock] = some client' ∧
        client'.best = [Sample.emptyBlock, Sample.bothBlock] := by
  have hrun : Mining.MiningRun Sample.configured.sha3 0 Sample.mining.1 Sample.mining.2 :=
    Run.nil.of_replay _
  have hall : Sample.mining.2.submitted =
      [(⟨sampleHeader, 1⟩, mined), (⟨Sample.emptyHeader, 2⟩, Sample.emptyBlock.raw)] := by
    decide +kernel
  have hsubmitted : (⟨Sample.emptyHeader, 2⟩, Sample.emptyBlock.raw) ∈
      Sample.mining.2.submitted := by
    rw [hall]
    exact List.mem_cons_of_mem _ List.mem_cons_self
  have hnext : DescribesNext Sample.configured [Sample.bothBlock] Sample.empty
      ⟨Sample.emptyHeader, 2⟩ :=
    ⟨by decide +kernel, by decide +kernel⟩
  have hknown : [Sample.bothBlock] ∈ (Sample.clientOf [[Sample.bothBlock]]).2.known := by
    rw [Sample.known_bothBlock]
    exact List.mem_cons_self
  have hparent : Verified Sample.configured [Sample.bothBlock] :=
    verified_of_known Sample.documented (Sample.importRun _) _ hknown
  have hpositive : (2 : U256) ≠ 0 := by decide
  have hfits : (totalDifficulty Sample.configured [Sample.bothBlock]).toNat + (2 : U256).toNat <
      2 ^ 256 := by
    decide +kernel
  have himported : (Sample.importExecuted (Sample.clientOf [[Sample.bothBlock]]).2
      [Sample.emptyBlock, Sample.bothBlock]).isSome := by
    decide +kernel
  obtain ⟨client', hclient'⟩ := Option.isSome_iff_exists.mp himported
  obtain ⟨hverified, hfollowed⟩ := followed_of_submitted hrun hsubmitted hnext hparent
  have hswitches := (hfollowed hpositive hfits).2
  exact ⟨hall, hverified, client', hclient',
    hswitches _ _ client' Sample.documented (by decide +kernel) hclient'⟩

end PowEvm.Network
