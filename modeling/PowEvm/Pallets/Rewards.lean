import PowEvm.Library.Transition
import PowEvm.Runtime.BlockAuthor

/-!
# The rewards pallet

`pallets/rewards`: the root call that sets the reward of a block, and the handler that pays it to
the author of a block. The handler announces the reward whatever has become of the deposit, and the
deposit is dropped when the account does not exist and the reward is below the existential deposit.

`pallet_balances` is not part of the repository. It is a parameter with the balances it keeps and
`deposit_creating`.

## Main results

* `freeBalance_run`: over a run an account gets what was announced to it less what was
  dropped;
* `paid_iff_not_drops`: every announced reward is paid exactly when no step drops one.
-/

namespace PowEvm.Rewards

open BlockAuthor (Origin)

/-- `pub type Balance = u128`. -/
abbrev Balance := BitVec 128

/-- `EXISTENTIAL_DEPOSIT`. -/
def existentialDeposit : Balance := 500

/-- `T::Currency`, on balances of type `β`. -/
structure Currency (β : Type) where
  freeBalance : β → AccountId → Balance
  accountExists : β → AccountId → Bool
  depositCreating : AccountId → Balance → β → β

/-- The documented behaviour of `deposit_creating` with the existential deposit of the runtime. -/
structure Currency.Documented {β : Type} (currency : Currency β) : Prop where
  deposits : ∀ balances who value,
    currency.accountExists balances who = true ∨ existentialDeposit ≤ value →
    (currency.freeBalance balances who).toNat + value.toNat < 2 ^ 128 →
      (currency.freeBalance (currency.depositCreating who value balances) who).toNat =
        (currency.freeBalance balances who).toNat + value.toNat
  drops : ∀ balances who value,
    currency.accountExists balances who = false → value < existentialDeposit →
      currency.depositCreating who value balances = balances
  others : ∀ balances who value other, other ≠ who →
    currency.freeBalance (currency.depositCreating who value balances) other =
      currency.freeBalance balances other

/-- `pallet::Event`. -/
inductive Event where
  /-- A block author has just been rewarded. -/
  | authorRewarded (account : AccountId)
  /-- Block reward has just been updated. -/
  | rewardUpdated (reward : Balance)
  deriving DecidableEq

/-- The reward, the balances, and the events the pallet has deposited. -/
structure Storage (β : Type) where
  balances : β
  reward : Option Balance
  events : List Event

variable {β : Type}

/-! ## The pallet -/

/-- `GenesisBuild::build`. -/
def genesis (balances : β) (reward : Balance) : Storage β := ⟨balances, some reward, []⟩

/-- `GenesisConfig::default`, which is also what the chain specification sets. -/
def defaultReward : Balance := 100

/-- `Self::deposit_event`. -/
def Storage.depositEvent (s : Storage β) (event : Event) : Storage β :=
  { s with events := s.events ++ [event] }

/-- `note_author`. -/
def noteAuthor (currency : Currency β) (author : AccountId) (s : Storage β) : Storage β :=
  match s.reward with
  | some reward =>
    { s with balances := currency.depositCreating author reward s.balances }.depositEvent
      (.authorRewarded author)
  | none => s

/-- `ensure_root`. -/
def ensureRoot : Origin → Except DispatchError Unit
  | .root => .ok ()
  | _ => .error .badOrigin

/-- The value that a call only the root may make sets. -/
def update? {V : Type} (call : Origin × V) : Option V :=
  if call.1 = .root then some call.2 else none

/-- The values that a list of such calls sets, in order. -/
def updates {V : Type} (calls : List (Origin × V)) : List V := calls.filterMap update?

/-- `set_reward`. -/
def setReward (origin : Origin) (reward : Balance) : EStateM DispatchError (Storage β) Unit := do
  ofExcept (ensureRoot origin)
  modify fun s => { s with reward := some reward }
  modify fun s => s.depositEvent (.rewardUpdated reward)

/-! ## Runs -/

/-- The entry points of the pallet. -/
inductive Action where
  | setReward (origin : Origin) (reward : Balance)
  | noteAuthor (author : AccountId)
  deriving DecidableEq

/-- The storage after a call, also after one that returned an error. -/
def step (currency : Currency β) (s : Storage β) : Action → Option (Storage β)
  | .setReward origin reward =>
    match (setReward origin reward).run s with
    | .ok _ s' => some s'
    | .error _ s' => some s'
  | .noteAuthor author => some (noteAuthor currency author s)

/-- The free balance of an account. -/
def freeBalance (currency : Currency β) (s : Storage β) (who : AccountId) : ℕ :=
  (currency.freeBalance s.balances who).toNat

/-- The reward in force, `0` before one is set. -/
def rewardInForce (s : Storage β) : ℕ := s.reward.elim 0 BitVec.toNat

/-- The events a step deposits. -/
def emitted (t : Transition (Storage β) Action) : List Event :=
  t.post.events.drop t.pre.events.length

/-- What a step announces to an account: the reward in force at each event for it. -/
def announced (who : AccountId) (t : Transition (Storage β) Action) : ℕ :=
  (((emitted t).filter (· = .authorRewarded who)).map fun _ => rewardInForce t.pre).sum

/-- The step rewards an account that does not exist with less than the existential deposit. -/
def Drops (currency : Currency β) (t : Transition (Storage β) Action) : Prop :=
  match t.label with
  | .noteAuthor author =>
    currency.accountExists t.pre.balances author = false ∧
      0 < rewardInForce t.pre ∧ rewardInForce t.pre < existentialDeposit.toNat
  | .setReward _ _ => False

instance (currency : Currency β) (t : Transition (Storage β) Action) :
    Decidable (Drops currency t) :=
  match t with
  | ⟨_, .noteAuthor _, _⟩ => inferInstanceAs (Decidable (_ ∧ _ ∧ _))
  | ⟨_, .setReward _ _, _⟩ => inferInstanceAs (Decidable False)

/-- What a step announces to an account without paying it. -/
def dropped (currency : Currency β) (who : AccountId) (t : Transition (Storage β) Action) : ℕ :=
  if t.label = .noteAuthor who ∧ Drops currency t then rewardInForce t.pre else 0

/-- The balance of the author has room for the reward. -/
def Fits (currency : Currency β) (t : Transition (Storage β) Action) : Prop :=
  match t.label with
  | .noteAuthor author => freeBalance currency t.pre author + rewardInForce t.pre < 2 ^ 128
  | .setReward _ _ => True

instance (currency : Currency β) (t : Transition (Storage β) Action) :
    Decidable (Fits currency t) :=
  match t with
  | ⟨_, .noteAuthor _, _⟩ => inferInstanceAs (Decidable (_ < _))
  | ⟨_, .setReward _ _, _⟩ => inferInstanceAs (Decidable True)

variable {currency : Currency β} {s s' init : Storage β} {action : Action} {who : AccountId}
  {trace : List (Transition (Storage β) Action)}

/-- Setting the reward either does so or refuses before it writes. -/
theorem run_setReward (origin : Origin) (reward : Balance) (s : Storage β) :
    (setReward origin reward).run s =
      if origin = .root then
        .ok () ({ s with reward := some reward }.depositEvent (.rewardUpdated reward))
      else .error .badOrigin s := by
  cases origin with
  | root => rfl
  | signed who => rfl
  | none => rfl

/-- A step sets the reward, fails to, or notes an author. -/
theorem step_cases (h : step currency s action = some s') :
    (∃ reward, action = .setReward .root reward ∧
      s' = { s with reward := some reward }.depositEvent (.rewardUpdated reward)) ∨
      (∃ origin reward, action = .setReward origin reward ∧ origin ≠ .root ∧ s' = s) ∨
      ∃ author, action = .noteAuthor author ∧ s' = noteAuthor currency author s := by
  unfold step at h
  cases action with
  | setReward origin reward =>
    dsimp only at h
    rw [run_setReward] at h
    by_cases horigin : origin = .root
    · rw [if_pos horigin] at h
      obtain rfl := Option.some.inj h
      exact Or.inl ⟨reward, by rw [horigin], rfl⟩
    · rw [if_neg horigin] at h
      obtain rfl := Option.some.inj h
      exact Or.inr (Or.inl ⟨origin, reward, rfl, horigin, rfl⟩)
  | noteAuthor author =>
    obtain rfl := Option.some.inj h
    exact Or.inr (Or.inr ⟨author, rfl, rfl⟩)

/-- Noting an author announces the reward in force to it, and nothing to anybody else. -/
theorem announced_noteAuthor (author : AccountId) :
    announced who ⟨s, .noteAuthor author, noteAuthor currency author s⟩ =
      if author = who then rewardInForce s else 0 := by
  unfold announced emitted noteAuthor
  cases hreward : s.reward with
  | none => simp [rewardInForce, hreward]
  | some reward =>
    by_cases hwho : author = who
    · simp [Storage.depositEvent, hwho]
    · simp [Storage.depositEvent, hwho]

theorem rewardInForce_of_some {reward : Balance} (h : s.reward = some reward) :
    rewardInForce s = reward.toNat := by
  rw [rewardInForce, h, Option.elim_some]

theorem noteAuthor_of_none (author : AccountId) (h : s.reward = none) :
    noteAuthor currency author s = s := by
  rw [noteAuthor, h]

theorem freeBalance_noteAuthor_of_some {author : AccountId} {reward : Balance}
    (h : s.reward = some reward) :
    freeBalance currency (noteAuthor currency author s) who =
      (currency.freeBalance (currency.depositCreating author reward s.balances) who).toNat := by
  rw [noteAuthor, h]
  rfl

/-- Noting an author leaves the other balances alone. -/
theorem freeBalance_noteAuthor_of_ne (hc : currency.Documented) {author : AccountId}
    (hne : who ≠ author) :
    freeBalance currency (noteAuthor currency author s) who = freeBalance currency s who := by
  cases hreward : s.reward with
  | none => rw [noteAuthor_of_none author hreward]
  | some reward =>
    rw [freeBalance_noteAuthor_of_some hreward, hc.others _ _ _ _ hne]
    rfl

/-- An author gets the reward in force, unless it is dropped. -/
theorem freeBalance_noteAuthor_self (hc : currency.Documented) (s' : Storage β)
    (hfits : freeBalance currency s who + rewardInForce s < 2 ^ 128) :
    freeBalance currency (noteAuthor currency who s) who +
        dropped currency who ⟨s, .noteAuthor who, s'⟩ =
      freeBalance currency s who + rewardInForce s := by
  unfold dropped
  cases hreward : s.reward with
  | none =>
    have hzero : rewardInForce s = 0 := by rw [rewardInForce, hreward, Option.elim_none]
    rw [noteAuthor_of_none who hreward, hzero, ite_self]
  | some reward =>
    have hforce := rewardInForce_of_some hreward
    rw [freeBalance_noteAuthor_of_some hreward]
    by_cases hexists : currency.accountExists s.balances who = true ∨ existentialDeposit ≤ reward
    · -- the deposit goes through
      have hnot : ¬ Drops currency ⟨s, .noteAuthor who, s'⟩ := by
        rintro ⟨hmissing, -, hlt⟩
        rcases hexists with hexists | hle
        · simp [hexists] at hmissing
        · rw [hforce] at hlt
          exact absurd (BitVec.le_def.mp hle) (Nat.not_le.mpr hlt)
      rw [hforce] at hfits
      rw [if_neg (fun h => hnot h.2), hforce, hc.deposits _ _ _ hexists hfits]
      rfl
    · -- the deposit does nothing, which goes unnoticed when the reward is zero
      rw [not_or, Bool.not_eq_true, BitVec.not_le] at hexists
      rw [hc.drops _ _ _ hexists.1 hexists.2, hforce]
      by_cases hpos : 0 < reward.toNat
      · have hdrops : Drops currency ⟨s, .noteAuthor who, s'⟩ :=
          ⟨hexists.1, hforce ▸ hpos, hforce ▸ BitVec.lt_def.mp hexists.2⟩
        rw [if_pos ⟨rfl, hdrops⟩]
        rfl
      · have hzero : reward.toNat = 0 := Nat.eq_zero_of_not_pos hpos
        rw [hzero, ite_self]
        rfl

/-- A step raises a balance by what it announces, less what it drops. -/
theorem freeBalance_step (hc : currency.Documented) (h : step currency s action = some s')
    (hfits : Fits currency ⟨s, action, s'⟩) :
    freeBalance currency s' who + dropped currency who ⟨s, action, s'⟩ =
      freeBalance currency s who + announced who ⟨s, action, s'⟩ := by
  obtain ⟨reward, rfl, rfl⟩ | ⟨origin, reward, rfl, -, rfl⟩ | ⟨author, rfl, rfl⟩ := step_cases h
  · simp [dropped, Drops, announced, emitted, Storage.depositEvent, freeBalance]
  · simp [dropped, Drops, announced, emitted]
  · rw [announced_noteAuthor]
    by_cases hwho : author = who
    · subst hwho
      rw [if_pos rfl]
      exact freeBalance_noteAuthor_self hc _ hfits
    · have hnot : ¬ (Action.noteAuthor author = .noteAuthor who ∧
          Drops currency ⟨s, .noteAuthor author, noteAuthor currency author s⟩) :=
        fun h => hwho (Action.noteAuthor.inj h.1)
      rw [freeBalance_noteAuthor_of_ne hc (Ne.symm hwho), dropped, if_neg hnot, if_neg hwho]

/-- What is dropped was announced to somebody. -/
theorem Drops.exists_label {t : Transition (Storage β) Action} (h : Drops currency t) :
    ∃ who, t.label = .noteAuthor who ∧ 0 < rewardInForce t.pre := by
  obtain ⟨pre, label, post⟩ := t
  cases label with
  | noteAuthor author => exact ⟨author, rfl, h.2.1⟩
  | setReward => exact absurd h id

/-- Over a run a balance grows by what was announced, less what was dropped. -/
theorem freeBalance_run (hc : currency.Documented) (hrun : Run (step currency) init trace s)
    (hfits : ∀ t ∈ trace, Fits currency t) (who : AccountId) :
    freeBalance currency s who + (trace.map (dropped currency who)).sum =
      freeBalance currency init who + (trace.map (announced who)).sum :=
  hrun.measure_add_losses (fun s => freeBalance currency s who) (announced who)
    (dropped currency who) hfits (freeBalance_step hc)

/-- Every account gets what was announced to it exactly when no reward below the existential deposit
was announced to an account that does not exist. -/
theorem paid_iff_not_drops (hc : currency.Documented) (hrun : Run (step currency) init trace s)
    (hfits : ∀ t ∈ trace, Fits currency t) :
    (∀ who, freeBalance currency s who =
        freeBalance currency init who + (trace.map (announced who)).sum) ↔
      ∀ t ∈ trace, ¬ Drops currency t := by
  refine ⟨?_, ?_⟩
  · intro hpaid t ht hdrops
    obtain ⟨who, hlabel, hpos⟩ := hdrops.exists_label
    have hsum : (trace.map (dropped currency who)).sum = 0 := by
      have hbalance := freeBalance_run hc hrun hfits who
      have := hpaid who
      omega
    have hzero : dropped currency who t = 0 :=
      List.sum_eq_zero_iff_forall_eq_nat.mp hsum _ (List.mem_map_of_mem ht)
    rw [dropped, if_pos ⟨hlabel, hdrops⟩] at hzero
    exact absurd hpos (Nat.not_lt.mpr (Nat.le_of_eq hzero))
  · intro hnot who
    have hsum : (trace.map (dropped currency who)).sum = 0 := by
      apply List.sum_eq_zero
      intro amount hamount
      obtain ⟨t, ht, rfl⟩ := List.mem_map.mp hamount
      exact if_neg fun h => hnot t ht h.2
    have hbalance := freeBalance_run hc hrun hfits who
    rwa [hsum, Nat.add_zero] at hbalance

/-! ## Balances as a map -/

namespace Sample

/-- The entry of an account after a deposit. -/
def credited (value : Balance) : Option Balance → Option Balance
  | some free => some ((Integers.checkedAdd free value).getD free)
  | none => if existentialDeposit ≤ value then some value else none

/-- An account exists if it has an entry, which is its free balance. -/
def balancesMap : Currency (AccountId → Option Balance) where
  freeBalance balances who := (balances who).getD 0
  accountExists balances who := (balances who).isSome
  depositCreating who value balances :=
    Function.update balances who (credited value (balances who))

theorem balancesMap_documented : balancesMap.Documented where
  deposits balances who value hcond hfits := by
    change ((balances who).isSome = true ∨ _) at hcond
    change ((balances who).getD 0).toNat + value.toNat < _ at hfits
    change ((Function.update balances who (credited value (balances who)) who).getD 0).toNat =
      ((balances who).getD 0).toNat + value.toNat
    rw [Function.update_self]
    cases hwho : balances who with
    | some free =>
      rw [hwho, Option.getD_some] at hfits
      rw [credited, Integers.checkedAdd, if_pos hfits, Option.getD_some, Option.getD_some,
        Option.getD_some, BitVec.toNat_add_of_lt hfits]
    | none =>
      rw [hwho] at hcond
      have hle : existentialDeposit ≤ value := by simpa using hcond
      rw [credited, if_pos hle, Option.getD_some, Option.getD_none]
      simp
  drops balances who value hmissing hlt := by
    have hwho : balances who = none :=
      Option.isNone_iff_eq_none.mp (Option.isSome_eq_false_iff.mp hmissing)
    change Function.update balances who (credited value (balances who)) = balances
    rw [hwho, credited, if_neg (BitVec.not_le.mpr hlt), ← hwho, Function.update_eq_self]
  others balances who value other hne := by
    change (Function.update balances who _ other).getD 0 = _
    rw [Function.update_of_ne hne]
    rfl

def author : AccountId := List.Vector.replicate 32 0xa1

/-- The reward is raised above the existential deposit before the author is noted, and a signed
origin does not lower it again. -/
def run : List (Transition (Storage (AccountId → Option Balance)) Action) ×
    Storage (AccountId → Option Balance) :=
  replay (step balancesMap) [] (genesis (fun _ => none) defaultReward)
    [.setReward .root 600, .noteAuthor author, .setReward (.signed author) 1, .noteAuthor author]

end Sample

theorem paid_iff_not_drops_sample :
    freeBalance Sample.balancesMap Sample.run.2 Sample.author = 0 + (600 + 600) := by
  have hrun : Run (step Sample.balancesMap) (genesis (fun _ => none) defaultReward) Sample.run.1
      Sample.run.2 := Run.nil.of_replay _
  have hpaid := (paid_iff_not_drops Sample.balancesMap_documented hrun (by decide +kernel)).mpr
    (by decide +kernel)
  exact (hpaid Sample.author).trans (by decide +kernel)

/-- With the reward that genesis sets, a new author is announced a reward and does not get it. -/
theorem default_reward_dropped : Sample.balancesMap.Documented ∧
    ∃ trace s, Run (step Sample.balancesMap) (genesis (fun _ => none) defaultReward) trace s ∧
      (∀ t ∈ trace, Fits Sample.balancesMap t) ∧
      (trace.map (announced Sample.author)).sum = 100 ∧
      freeBalance Sample.balancesMap (genesis (fun _ => none) defaultReward) Sample.author = 0 ∧
      freeBalance Sample.balancesMap s Sample.author = 0 := by
  let noted := replay (step Sample.balancesMap) [] (genesis (fun _ => none) defaultReward)
    [.noteAuthor Sample.author]
  exact ⟨Sample.balancesMap_documented, noted.1, noted.2, Run.nil.of_replay _, by decide +kernel,
    by decide +kernel, by decide +kernel, by decide +kernel⟩

end PowEvm.Rewards
