/-
Activation of the second forger stake contract (`ForgerStakeV2MsgProcessor.doActivateCmd`).

Activation disables the first contract, reads all its stakes, and enters them in the second one: grouped by forger, within
a forger grouped by owner; the first owner of a forger registers it, the others delegate. Then the balance of the first
contract moves to the second. The groups are hash maps, so they are walked in some order.

- `doDisableAndMigrate`, `doActivateCmd`: the code.
- `Holds`: what has been entered so far; `addForger_holds`, `addStake_holds` for one entry, `migrateForgers_holds` for the
  loops. `sum_deposits`: summed by forger and owner, the entries are the stakes of the first contract.
- `activation_preserves_stakes`: every stake and every forger total is preserved, the balance moves, and the stakes that
  take part in the lottery are the same before and after, as long as no forger has more than the maximum money.
- `lottery_breaks_above_max_money`: with more than that the second contract cannot be read any more.

The encoding of the list of stakes between the contracts is a parameter. Gas is left out: activation gives back all it used.
-/
import Mathlib.Tactic
import SidechainsSdk.Core.Fallible
import SidechainsSdk.Core.Grouping
import SidechainsSdk.Account.Stakes.ForgerStakeV2
import SidechainsSdk.Account.Stakes.ForgingStakes

namespace SidechainsSdk.Account.Migration

open Fallible StakeStorage ForgerStakeStorage ForgerStakeV2 ForgingStakes
open SidechainsSdk.Account.StateTransition (StateDb Invocation)

/-! ## Activation -/

/-- what the database holds besides the second contract: the storage of the first one, and code hashes -/
structure LegacyDb where
  v1 : ForgerStakeDb
  codeHash : Address → BitVec 256

structure Env where
  forks : Forks
  encodeStakes : List AccountForgingStakeInfo → Except Exc Octets
  decodeStakes : Octets → Except Exc (List AccountForgingStakeInfo)
  -- `ForgerStakeV2MsgProcessor.contractCodeHash`
  contractCodeHash : BitVec 256
  -- the orders of the maps: stakes by forger, amounts by delegator, and the tail of the latter
  forgerOrder : HashOrder (ForgerPublicKeys × List AccountForgingStakeInfo)
  delegatorOrder : HashOrder (Address × ℤ)
  tailOrder : HashOrder (Address × ℤ)

/-- `FORGER_STAKE_SMART_CONTRACT_ADDRESS` -/
def forgerStakeAddress : Address := 0x0000000000000000000022222222222222222222

/-- `ForgerStakeMsgProcessor.DisableAndMigrateCmd` -/
def DisableAndMigrateCmd : Octets := [0xca, 0x6a, 0xaf, 0x28]

def checkInputDoesntContainParams (invocation : Invocation) : Command LegacyDb Unit := do
  let args ← orThrow (getArgumentsFromData invocation.input)
  throwIf (args.length > 0)
    (.executionReverted s!"invalid msg data length: {invocation.input.length}, expected {METHOD_ID_LENGTH}" [])

def setDisabled : Command LegacyDb Unit :=
  modify fun db => { db with rest := { db.rest with others :=
    { db.rest.others with v1 := { db.rest.others.v1 with disabled := true } } } }

/-- `ForgerStakeMsgProcessor.doDisableAndMigrate` -/
def doDisableAndMigrate (env : Env) (invocation : Invocation) : Command LegacyDb Octets := do
  requireIsNotPayable invocation
  checkInputDoesntContainParams invocation
  let db ← get
  throwIf (contractAddress ≠ invocation.caller ∨ db.rest.others.codeHash invocation.caller ≠ env.contractCodeHash)
    (.executionReverted "Authorization failed" [])
  setDisabled
  addLog .disableStakeV1
  let db ← get
  let stakes ← orThrow (getListOfForgersStakes db.rest.others.v1 true)
  orThrow (env.encodeStakes stakes)

/-- `ForgerStakeMsgProcessor.process` on a call of `disableAndMigrate` -/
def processV1 (env : Env) (epochNumber : ℕ) (invocation : Invocation) : Command LegacyDb Octets := do
  let db ← get
  throwIf (env.forks.v1_4 epochNumber ∧ db.rest.others.v1.disabled)
    (.executionReverted "Method is disabled - Please use the new ForgeStakeV2" [])
  throwIf (¬ env.forks.v1_4 epochNumber) (.executionReverted "op code not supported" [])
  doDisableAndMigrate env invocation

/-- the stakes of one forger, by delegator -/
def stakesByDelegator (env : Env) (stakes : List AccountForgingStakeInfo) : List (Address × ℤ) :=
  env.delegatorOrder.iterate ((Grouping.groupBy (fun s => s.forgerStakeData.ownerPublicKey) stakes).map fun group =>
    (group.1, group.2.foldl (fun sum s => sum + s.forgerStakeData.stakedAmount) 0))

/-- the delegators after the first one; returns the total so far -/
def migrateDelegators (forgerKeys : ForgerPublicKeys) (epochNumber : ℕ) :
    List (Address × ℤ) → ℤ → Command LegacyDb ℤ
  | [], total => pure total
  | (delegator, amount) :: rest, total => do
    onStakes (addStake forgerKeys epochNumber delegator amount)
    migrateDelegators forgerKeys epochNumber rest (total + amount)

def migrateForgers (env : Env) (epochNumber : ℕ) :
    List (ForgerPublicKeys × List AccountForgingStakeInfo) → ℤ → Command LegacyDb ℤ
  | [], total => pure total
  | (forgerKeys, stakes) :: groups, total => do
    match stakesByDelegator env stakes with
    | [] => throw (.other "head of empty map")
    | (firstDelegator, firstAmount) :: rest =>
      -- no minimum stake is required here
      onStakes (addForger forgerKeys 0 0 epochNumber firstDelegator firstAmount)
      let total ← migrateDelegators forgerKeys epochNumber (env.tailOrder.iterate rest) (total + firstAmount)
      migrateForgers env epochNumber groups total

def doActivateCmd (env : Env) (invocation : Invocation) (epochNumber : ℕ) : Command LegacyDb Octets := do
  requireIsNotPayable invocation
  checkInputDoesntContainParams invocation
  let db ← get
  throwIf db.rest.stakes.active (.executionReverted "Forger stake V2 already activated" [])
  match invocation.callee with
  | none => throw (.other "None.get")
  | some callee =>
    let result ← processV1 env epochNumber
      { invocation with caller := callee, callee := some forgerStakeAddress, value := 0, input := DisableAndMigrateCmd }
    let listOfExistingStakes ← orThrow (env.decodeStakes result)
    let stakesByForger :=
      env.forgerOrder.iterate (Grouping.groupBy (fun s => s.forgerStakeData.forgerPublicKeys) listOfExistingStakes)
    let totalMigratedStakeAmount ← migrateForgers env epochNumber stakesByForger 0
    subBalance forgerStakeAddress totalMigratedStakeAmount
    addBalance contractAddress totalMigratedStakeAmount
    onStakes setActive
    addLog .activateStakeV2
    return []

/-! ## Entries -/

/-- an amount entered for a forger and a delegator -/
abbrev Deposit := ForgerPublicKeys × Address × ℤ

/-- the sum of the deposits for the forgers and delegators with `p` -/
def sumWhere (p : ForgerPublicKeys → Address → Prop) [∀ f d, Decidable (p f d)] (deposits : List Deposit) : ℤ :=
  (deposits.map fun x => if p x.1 x.2.1 then x.2.2 else 0).sum

theorem sumWhere_concat (p : ForgerPublicKeys → Address → Prop) [∀ f d, Decidable (p f d)] (l : List Deposit)
    (f : ForgerPublicKeys) (d : Address) (a : ℤ) :
    sumWhere p (l ++ [(f, d, a)]) = sumWhere p l + if p f d then a else 0 := by
  simp [sumWhere]

/-- the contract holds exactly the deposits, for forgers without a reward share -/
structure Holds (s : Stakes) (deposits : List Deposit) : Prop where
  consistent : s.Consistent
  stake : ∀ f d, (latestAmount (s.history (.stake f d)) : ℤ) = sumWhere (fun f' d' => f' = f ∧ d' = d) deposits
  forger : ∀ f, (latestAmount (s.history (.forger f)) : ℤ) = sumWhere (fun f' _ => f' = f) deposits
  listed : ∀ f, f ∈ s.forgers ↔ ∃ x ∈ deposits, x.1 = f
  info : ∀ f ∈ s.forgers, s.forgerInfo f = some ⟨f, 0, 0⟩

theorem latestAmount_nil : latestAmount [] = 0 := rfl

/-- adding to both histories, when the forger is listed already -/
theorem changeStake_holds {s : Stakes} {deposits : List Deposit} (hs : Holds s deposits) {f : ForgerPublicKeys}
    {d : Address} {epoch total own : ℕ} {amount : ℤ} (hforger : s.history (.forger f) ≠ [])
    (hbefore : s.NotBefore f d epoch)
    (htotal : (total : ℤ) = latestAmount (s.history (.forger f)) + amount)
    (hown : (own : ℤ) = latestAmount (s.history (.stake f d)) + amount) :
    Holds (s.changeStake f d epoch total own) (deposits ++ [(f, d, amount)]) := by
  have hlisted : f ∈ s.forgers := (hs.consistent.registry.forger_history f).1 hforger
  refine ⟨changeStake_consistent hs.consistent hforger hbefore (by omega), ?_, ?_, ?_, ?_⟩
  · intro f' d'
    rw [sumWhere_concat, ← hs.stake, changeStake_history, rewritten_stake]
    by_cases h : f' = f ∧ d' = d
    · obtain ⟨rfl, rfl⟩ := h
      rw [if_pos ⟨rfl, rfl⟩, if_pos ⟨rfl, rfl⟩, latestAmount_recordAmount, hown]
    · rw [if_neg h, if_neg (fun h' => h ⟨h'.1.symm, h'.2.symm⟩), add_zero]
  · intro f'
    rw [sumWhere_concat, ← hs.forger, changeStake_history, rewritten_forger]
    by_cases h : f' = f
    · subst h
      rw [if_pos rfl, if_pos rfl, latestAmount_recordAmount, htotal]
    · rw [if_neg h, if_neg (Ne.symm h), add_zero]
  · intro f'
    rw [changeStake_forgers, hs.listed]
    constructor
    · rintro ⟨x, hx, rfl⟩
      exact ⟨x, List.mem_append_left _ hx, rfl⟩
    · rintro ⟨x, hx, rfl⟩
      rcases List.mem_append.1 hx with hx | hx
      · exact ⟨x, hx, rfl⟩
      · rw [List.mem_singleton.1 hx]
        exact (hs.listed f).1 hlisted
  · intro f' hf'
    have hinfo : (s.changeStake f d epoch total own).forgerInfo = s.forgerInfo := by
      unfold Stakes.changeStake
      split_ifs <;> rfl
    rw [changeStake_forgers] at hf'
    rw [hinfo]
    exact hs.info f' hf'

/-- the first deposit for a forger -/
theorem register_holds {s : Stakes} {deposits : List Deposit} (hs : Holds s deposits) {f : ForgerPublicKeys} {d : Address}
    {epoch : ℕ} {amount : ℤ} (hnew : s.forgerInfo f = none) (hamount : 0 ≤ amount) :
    Holds (s.register f ⟨f, 0, 0⟩ d epoch amount.toNat) (deposits ++ [(f, d, amount)]) := by
  have hforger := not_listed_history hs.consistent.registry hnew
  have hstake := not_listed_stake hs.consistent hnew
  have hcast : (amount.toNat : ℤ) = amount := Int.toNat_of_nonneg hamount
  refine ⟨register_consistent hs.consistent hnew rfl, ?_, ?_, ?_, ?_⟩
  · intro f' d'
    rw [sumWhere_concat, ← hs.stake, register_eq_changeStake hforger (hstake d)]
    simp only [changeStake_history, rewritten_stake]
    by_cases h : f' = f ∧ d' = d
    · obtain ⟨rfl, rfl⟩ := h
      rw [if_pos ⟨rfl, rfl⟩, if_pos ⟨rfl, rfl⟩, latestAmount_recordAmount, hstake, latestAmount_nil, hcast]
      simp
    · rw [if_neg h, if_neg (fun h' => h ⟨h'.1.symm, h'.2.symm⟩), add_zero]
  · intro f'
    rw [sumWhere_concat, ← hs.forger, register_eq_changeStake hforger (hstake d)]
    simp only [changeStake_history, rewritten_forger]
    by_cases h : f' = f
    · subst h
      rw [if_pos rfl, if_pos rfl, latestAmount_recordAmount, hforger, latestAmount_nil, hcast]
      simp
    · rw [if_neg h, if_neg (Ne.symm h), add_zero]
  · intro f'
    rw [register_eq_changeStake hforger (hstake d)]
    show f' ∈ s.forgers ++ [f] ↔ _
    rw [List.mem_append, hs.listed, List.mem_singleton]
    constructor
    · rintro (⟨x, hx, rfl⟩ | rfl)
      · exact ⟨x, List.mem_append_left _ hx, rfl⟩
      · exact ⟨_, List.mem_append_right _ (List.mem_singleton_self _), rfl⟩
    · rintro ⟨x, hx, rfl⟩
      rcases List.mem_append.1 hx with hx | hx
      · exact .inl ⟨x, hx, rfl⟩
      · rw [List.mem_singleton.1 hx]
        exact .inr rfl
  · intro f' hf'
    rw [register_eq_changeStake hforger (hstake d)] at hf' ⊢
    show Function.update s.forgerInfo f _ f' = _
    by_cases h : f' = f
    · subst h
      rw [Function.update_self]
    · rw [Function.update_of_ne h]
      rcases List.mem_append.1 hf' with hf' | hf'
      · exact hs.info f' hf'
      · exact absurd (List.mem_singleton.1 hf') h

/-! ## The loops -/

/-- only the storage of the second contract has changed -/
def Same (db db' : Db LegacyDb) : Prop := db'.balance = db.balance ∧ db'.rest.others = db.rest.others

theorem onStakes_holds {α : Type} {call : StakeStorage.Call α} {a : α} {db db' : Db LegacyDb}
    (h : exec (onStakes call) db = (.ok a, db')) :
    exec call db.rest.stakes = (.ok a, db'.rest.stakes) ∧ Same db db' := by
  obtain ⟨stakes, hcall, rfl⟩ := exec_onPart_ok.1 h
  exact ⟨hcall, rfl, rfl⟩

theorem Same.trans {a b c : Db LegacyDb} (h : Same a b) (h' : Same b c) : Same a c :=
  ⟨h'.1.trans h.1, h'.2.trans h.2⟩

theorem addStake_holds {db db' : Db LegacyDb} {deposits : List Deposit} (hdb : Holds (content db.rest.stakes) deposits)
    {f : ForgerPublicKeys} {d : Address} {epoch : ℕ} {amount : ℤ}
    (hrun : exec (onStakes (addStake f epoch d amount)) db = (.ok (), db')) :
    Holds (content db'.rest.stakes) (deposits ++ [(f, d, amount)]) ∧ Same db db' := by
  obtain ⟨hcall, hsame⟩ := onStakes_holds hrun
  obtain ⟨hforger, hbefore, -, total, own, htotal, hown, hcontent⟩ := addStake_content hcall
  rw [hcontent]
  exact ⟨changeStake_holds hdb hforger hbefore htotal hown, hsame⟩

theorem addForger_holds {db db' : Db LegacyDb} {deposits : List Deposit} (hdb : Holds (content db.rest.stakes) deposits)
    {f : ForgerPublicKeys} {d : Address} {epoch : ℕ} {amount : ℤ}
    (hrun : exec (onStakes (addForger f 0 0 epoch d amount)) db = (.ok (), db')) :
    Holds (content db'.rest.stakes) (deposits ++ [(f, d, amount)]) ∧ Same db db' := by
  obtain ⟨hcall, hsame⟩ := onStakes_holds hrun
  obtain ⟨hnew, -, hamount, -, hcontent⟩ := addForger_content hcall
  rw [hcontent]
  exact ⟨register_holds hdb hnew hamount, hsame⟩

theorem migrateDelegators_holds {f : ForgerPublicKeys} {epoch : ℕ} (l : List (Address × ℤ)) {total t : ℤ}
    {db db' : Db LegacyDb} {deposits : List Deposit} (hdb : Holds (content db.rest.stakes) deposits)
    (hrun : exec (migrateDelegators f epoch l total) db = (.ok t, db')) :
    Holds (content db'.rest.stakes) (deposits ++ l.map fun x => (f, x.1, x.2)) ∧
      t = total + (l.map Prod.snd).sum ∧ Same db db' := by
  induction l generalizing total db deposits with
  | nil =>
    obtain ⟨ht, rfl⟩ := Prod.mk.inj hrun
    exact ⟨by simpa using hdb, by simpa using (Except.ok.inj ht).symm, rfl, rfl⟩
  | cons x l ih =>
    obtain ⟨d, amount⟩ := x
    simp only [migrateDelegators, exec_bind_ok] at hrun
    obtain ⟨⟨⟩, db1, hadd, hrest⟩ := hrun
    obtain ⟨hdb1, hsame1⟩ := addStake_holds hdb hadd
    obtain ⟨hdb', ht, hsame⟩ := ih hdb1 hrest
    refine ⟨?_, ?_, hsame1.trans hsame⟩
    · rw [List.append_assoc] at hdb'
      exact hdb'
    · rw [ht, List.map_cons, List.sum_cons]
      ring

/-- the deposits made for one forger: the first delegator, then the others -/
def depositsOf (env : Env) (group : ForgerPublicKeys × List AccountForgingStakeInfo) : List Deposit :=
  match stakesByDelegator env group.2 with
  | [] => []
  | first :: rest => (first :: env.tailOrder.iterate rest).map fun x => (group.1, x.1, x.2)

theorem migrateForgers_holds {env : Env} {epoch : ℕ} (groups : List (ForgerPublicKeys × List AccountForgingStakeInfo))
    {total t : ℤ} {db db' : Db LegacyDb} {deposits : List Deposit} (hdb : Holds (content db.rest.stakes) deposits)
    (hrun : exec (migrateForgers env epoch groups total) db = (.ok t, db')) :
    Holds (content db'.rest.stakes) (deposits ++ groups.flatMap (depositsOf env)) ∧
      t = total + sumWhere (fun _ _ => True) (groups.flatMap (depositsOf env)) ∧ Same db db' := by
  induction groups generalizing total db deposits with
  | nil =>
    obtain ⟨ht, rfl⟩ := Prod.mk.inj hrun
    exact ⟨by simpa using hdb, by simpa [sumWhere] using (Except.ok.inj ht).symm, rfl, rfl⟩
  | cons group groups ih =>
    obtain ⟨f, stakes⟩ := group
    simp only [migrateForgers] at hrun
    cases hlist : stakesByDelegator env stakes with
    | nil => simp [hlist] at hrun
    | cons first rest =>
      obtain ⟨d, amount⟩ := first
      simp only [hlist, exec_bind_ok] at hrun
      obtain ⟨⟨⟩, db1, hadd, total2, db2, hrest, hgroups⟩ := hrun
      obtain ⟨hdb1, hsame1⟩ := addForger_holds hdb hadd
      obtain ⟨hdb2, htotal2, hsame2⟩ := migrateDelegators_holds _ hdb1 hrest
      obtain ⟨hdb', ht, hsame⟩ := ih hdb2 hgroups
      have hdeposits : depositsOf env (f, stakes) =
          (f, d, amount) :: (env.tailOrder.iterate rest).map fun x => (f, x.1, x.2) := by
        simp only [depositsOf, hlist, List.map_cons]
      refine ⟨?_, ?_, hsame1.trans (hsame2.trans hsame)⟩
      · rw [List.flatMap_cons, hdeposits]
        simpa using hdb'
      · rw [ht, htotal2, List.flatMap_cons, hdeposits]
        simp only [sumWhere, if_true, List.cons_append, List.map_cons, List.map_append, List.map_map,
          List.sum_cons, List.sum_append]
        have hsnd : (List.map ((fun x : Deposit => x.2.2) ∘ fun x : Address × ℤ => (f, x.1, x.2))
            (env.tailOrder.iterate rest)) = (env.tailOrder.iterate rest).map Prod.snd := rfl
        rw [hsnd]
        ring

/-! ## The entries are the stakes -/

theorem depositsOf_perm (env : Env) (group : ForgerPublicKeys × List AccountForgingStakeInfo) :
    (depositsOf env group).Perm ((Grouping.groupBy (fun s => s.forgerStakeData.ownerPublicKey) group.2).map fun g =>
      (group.1, g.1, (g.2.map fun s => s.forgerStakeData.stakedAmount).sum)) := by
  have hperm := (env.delegatorOrder.perm
    ((Grouping.groupBy (fun s => s.forgerStakeData.ownerPublicKey) group.2).map fun g =>
      (g.1, g.2.foldl (fun sum s => sum + s.forgerStakeData.stakedAmount) 0))).map fun x => (group.1, x.1, x.2)
  simp only [List.map_map, Function.comp_def, Grouping.foldl_add_sum, zero_add] at hperm
  refine List.Perm.trans ?_ hperm
  unfold depositsOf stakesByDelegator
  simp only [Grouping.foldl_add_sum, zero_add]
  split
  · rename_i hnil
    rw [hnil]
    rfl
  · rename_i first rest hcons
    rw [hcons]
    exact ((env.tailOrder.perm rest).cons first).map _

theorem sumWhere_perm (p : ForgerPublicKeys → Address → Prop) [∀ f d, Decidable (p f d)] {l l' : List Deposit}
    (h : l.Perm l') : sumWhere p l = sumWhere p l' := (h.map _).sum_eq

theorem sumWhere_flatMap {α : Type} (p : ForgerPublicKeys → Address → Prop) [∀ f d, Decidable (p f d)] (l : List α)
    (g : α → List Deposit) : sumWhere p (l.flatMap g) = (l.map fun x => sumWhere p (g x)).sum := by
  induction l with
  | nil => rfl
  | cons x l ih =>
    rw [List.flatMap_cons, List.map_cons, List.sum_cons, ← ih]
    simp [sumWhere]

theorem ite_sum {α : Type} (c : Prop) [Decidable c] (l : List α) (f : α → ℤ) :
    (if c then (l.map f).sum else 0) = (l.map fun x => if c then f x else 0).sum := by
  by_cases h : c <;> simp [h]

/-- summed by forger and owner, what has been entered is what the first contract held -/
theorem sum_deposits (env : Env) (stakes : List AccountForgingStakeInfo) (p : ForgerPublicKeys → Address → Prop)
    [∀ f d, Decidable (p f d)] :
    sumWhere p ((env.forgerOrder.iterate
        (Grouping.groupBy (fun s => s.forgerStakeData.forgerPublicKeys) stakes)).flatMap (depositsOf env)) =
      (stakes.map fun s => if p s.forgerStakeData.forgerPublicKeys s.forgerStakeData.ownerPublicKey then
        s.forgerStakeData.stakedAmount else 0).sum := by
  have hgroup : ∀ group : ForgerPublicKeys × List AccountForgingStakeInfo, sumWhere p (depositsOf env group) =
      (group.2.map fun s =>
        if p group.1 s.forgerStakeData.ownerPublicKey then s.forgerStakeData.stakedAmount else 0).sum := by
    intro group
    rw [sumWhere_perm p (depositsOf_perm env group), sumWhere, List.map_map]
    simp only [Function.comp_def, ite_sum]
    exact Grouping.groupBy_sum_key _ (fun d s => if p group.1 d then s.forgerStakeData.stakedAmount else 0) group.2
  rw [sumWhere_flatMap, ((env.forgerOrder.perm _).map _).sum_eq]
  simp only [hgroup]
  exact Grouping.groupBy_sum_key _
    (fun f s => if p f s.forgerStakeData.ownerPublicKey then s.forgerStakeData.stakedAmount else 0) stakes

/-- a forger has been entered exactly if it had a stake -/
theorem mem_deposits (env : Env) (stakes : List AccountForgingStakeInfo) (f : ForgerPublicKeys) :
    (∃ x ∈ (env.forgerOrder.iterate
        (Grouping.groupBy (fun s => s.forgerStakeData.forgerPublicKeys) stakes)).flatMap (depositsOf env), x.1 = f) ↔
      ∃ s ∈ stakes, s.forgerStakeData.forgerPublicKeys = f := by
  constructor
  · rintro ⟨x, hx, rfl⟩
    obtain ⟨group, hgroup, hx⟩ := List.mem_flatMap.1 hx
    obtain ⟨g, -, rfl⟩ := List.mem_map.1 ((depositsOf_perm env group).mem_iff.1 hx)
    obtain ⟨-, hkey⟩ := Grouping.mem_groupBy _ _ _ ((env.forgerOrder.perm _).mem_iff.1 hgroup)
    exact List.mem_map.1 hkey
  · rintro ⟨s, hs, rfl⟩
    have hkey := (Grouping.mem_groupBy_keys (fun s : AccountForgingStakeInfo => s.forgerStakeData.forgerPublicKeys)
      stakes _).2 (List.mem_map_of_mem hs)
    obtain ⟨group, hgroup, hkeys⟩ := List.mem_map.1 hkey
    obtain ⟨hstakes, -⟩ := Grouping.mem_groupBy _ _ _ hgroup
    have hmem : s ∈ group.2 := by
      rw [hstakes]
      exact List.mem_filter.2 ⟨hs, by simpa using hkeys.symm⟩
    have howner := (Grouping.mem_groupBy_keys (fun s : AccountForgingStakeInfo => s.forgerStakeData.ownerPublicKey)
      group.2 _).2 (List.mem_map_of_mem hmem)
    obtain ⟨g, hg, -⟩ := List.mem_map.1 howner
    refine ⟨_, List.mem_flatMap.2 ⟨group, (env.forgerOrder.perm _).mem_iff.2 hgroup,
      (depositsOf_perm env group).mem_iff.2 (List.mem_map_of_mem hg)⟩, hkeys⟩

/-! ## Activation preserves stakes -/

theorem Chain.setDisabled {db : ForgerStakeDb} {tip : Option StakeId} {stakes : List AccountForgingStakeInfo}
    (h : Chain db tip stakes) : Chain { db with disabled := true } tip stakes := by
  induction h with
  | nil => exact .nil
  | cons stake node stakes hnode hdata hrest ih => exact .cons stake node stakes hnode hdata ih

theorem Represents.setDisabled {db : ForgerStakeDb} {stakes : List AccountForgingStakeInfo} (h : Represents db stakes) :
    Represents { db with disabled := true } stakes :=
  ⟨h.ids_nodup, fun hversion => Chain.setDisabled (h.linked hversion), h.array⟩

theorem processV1_ok {env : Env} {epoch : ℕ} {inv : Invocation} {db db' : Db LegacyDb} {result : Octets}
    (hrun : exec (processV1 env epoch inv) db = (.ok result, db')) :
    (∃ stakes, getListOfForgersStakes { db.rest.others.v1 with disabled := true } true = .ok stakes ∧
      env.encodeStakes stakes = .ok result) ∧ db'.rest.stakes = db.rest.stakes ∧ db'.balance = db.balance := by
  simp only [processV1, doDisableAndMigrate, requireIsNotPayable, checkInputDoesntContainParams, setDisabled, addLog,
    bind_assoc, exec_get_bind, exec_throwIf_bind_ok, exec_orThrow_bind_ok, exec_modify_bind, exec_orThrow,
    Prod.mk.injEq] at hrun
  obtain ⟨-, -, -, -, -, -, -, stakes, hstakes, hencode, rfl⟩ := hrun
  exact ⟨⟨stakes, hstakes, hencode⟩, rfl, rfl⟩

theorem doActivateCmd_ok {env : Env} {epoch : ℕ} {inv : Invocation} {db db' : Db LegacyDb} {out : Octets}
    (hrun : exec (doActivateCmd env inv epoch) db = (.ok out, db')) :
    ∃ stakes result listed db1 total db2,
      getListOfForgersStakes { db.rest.others.v1 with disabled := true } true = .ok stakes ∧
      env.encodeStakes stakes = .ok result ∧ env.decodeStakes result = .ok listed ∧
      db1.rest.stakes = db.rest.stakes ∧ db1.balance = db.balance ∧
      exec (migrateForgers env epoch (env.forgerOrder.iterate
        (Grouping.groupBy (fun s => s.forgerStakeData.forgerPublicKeys) listed)) 0) db1 = (.ok total, db2) ∧
      content db'.rest.stakes = content db2.rest.stakes ∧ db'.rest.stakes.active = true ∧
      db'.balance = ((db2.moveBalance forgerStakeAddress (-total)).moveBalance contractAddress total).balance := by
  simp only [doActivateCmd, requireIsNotPayable, checkInputDoesntContainParams, bind_assoc, exec_get_bind,
    exec_throwIf_bind_ok, exec_orThrow_bind_ok] at hrun
  obtain ⟨-, -, -, -, -, hrun⟩ := hrun
  cases hcallee : inv.callee with
  | none => simp [hcallee] at hrun
  | some callee =>
    simp only [hcallee, exec_bind_ok, addLog] at hrun
    obtain ⟨result, db1, hv1, listed, db1', hdecoded, total, db2, hmigrate, ⟨⟩, db3, hsub, ⟨⟩, db4, hadd, ⟨⟩, db5,
      hactive, ⟨⟩, db6, hlog, hret⟩ := hrun
    obtain ⟨hdecode, rfl⟩ := Prod.mk.inj hdecoded
    obtain ⟨⟨stakes, hstakes, hencode⟩, hsame, hbalance⟩ := processV1_ok hv1
    obtain rfl := subBalance_ok hsub
    obtain rfl := addBalance_ok hadd
    obtain ⟨stakes5, hset, rfl⟩ := exec_onPart_ok.1 hactive
    obtain ⟨-, rfl⟩ := Prod.mk.inj hset
    obtain ⟨-, rfl⟩ := Prod.mk.inj hlog
    obtain ⟨-, rfl⟩ := Prod.mk.inj hret
    exact ⟨stakes, result, listed, db1, total, db2, hstakes, hencode, hdecode, hsame, hbalance, hmigrate, rfl, rfl, rfl⟩

/-- the stakes of one owner with one forger -/
def stakedBy (stakes : List AccountForgingStakeInfo) (f : ForgerPublicKeys) (owner : Address) : ℤ :=
  ((stakes.filter fun s => s.forgerStakeData.forgerPublicKeys = f ∧ s.forgerStakeData.ownerPublicKey = owner).map
    fun s => s.forgerStakeData.stakedAmount).sum

def totalStaked (stakes : List AccountForgingStakeInfo) : ℤ :=
  (stakes.map fun s => s.forgerStakeData.stakedAmount).sum

theorem sum_filter_eq_ite {α : Type} (p : α → Prop) [DecidablePred p] (f : α → ℤ) (l : List α) :
    (l.map fun x => if p x then f x else 0).sum = ((l.filter fun x => p x).map f).sum := by
  induction l with
  | nil => rfl
  | cons x l ih =>
    by_cases h : p x
    · simp [h, ih]
    · simp [h, ih]

theorem empty_holds : Holds (content StakeDb.empty) [] := by
  refine ⟨empty_consistent, ?_, ?_, ?_, ?_⟩
  all_goals simp [content, StakeDb.empty, sumWhere, latestAmount, Checkpoints.latest]

/-- what activation does, in terms of the stakes it has read -/
theorem activated_holds {env : Env} {epoch : ℕ} {inv : Invocation} {db db' : Db LegacyDb} {out : Octets}
    {stakes : List AccountForgingStakeInfo} (hrep : Represents db.rest.others.v1 stakes)
    (hempty : db.rest.stakes = StakeDb.empty)
    (habi : ∀ bytes, env.encodeStakes stakes = .ok bytes → env.decodeStakes bytes = .ok stakes)
    (hrun : exec (doActivateCmd env inv epoch) db = (.ok out, db')) :
    Holds (content db'.rest.stakes) ((env.forgerOrder.iterate
        (Grouping.groupBy (fun s => s.forgerStakeData.forgerPublicKeys) stakes)).flatMap (depositsOf env)) ∧
      db'.rest.stakes.active = true ∧
      db'.balance = ((db.moveBalance forgerStakeAddress (-totalStaked stakes)).moveBalance contractAddress
        (totalStaked stakes)).balance := by
  obtain ⟨stakes', result, listed, db1, total, db2, hstakes, hencode, hdecode, hsame, hbalance, hmigrate, hcontent,
    hactive, hmoved⟩ := doActivateCmd_ok hrun
  rw [getListOfForgersStakes_eq (Represents.setDisabled hrep) (fun _ => rfl)] at hstakes
  obtain rfl := Except.ok.inj hstakes
  rw [habi result hencode] at hdecode
  obtain rfl := Except.ok.inj hdecode
  have hstart : Holds (content db1.rest.stakes) [] := by
    rw [hsame, hempty]
    exact empty_holds
  obtain ⟨hholds, htotal, hsame2⟩ := migrateForgers_holds _ hstart hmigrate
  rw [sum_deposits, zero_add] at htotal
  have htotal' : total = totalStaked stakes := by
    rw [htotal]
    simp [totalStaked]
  refine ⟨?_, hactive, ?_⟩
  · rw [hcontent]
    exact hholds
  · rw [hmoved, htotal']
    simp only [StateDb.moveBalance, hsame2.1, hbalance]

/-- the totals of all forgers together are all deposits -/
theorem Holds.total {s : Stakes} {deposits : List Deposit} (h : Holds s deposits) :
    (s.total : ℤ) = sumWhere (fun _ _ => True) deposits := by
  have hkeys := Grouping.sum_by_key s.forgers h.consistent.registry.forgers_nodup (fun x : Deposit => x.1)
    (fun x => x.2.2) deposits fun x hx => (h.listed x.1).2 ⟨x, hx, rfl⟩
  have hforgers : (s.total : ℤ) = (s.forgers.map fun f => ((deposits.filter fun x => x.1 = f).map fun x => x.2.2).sum).sum := by
    rw [Stakes.total, Nat.cast_list_sum, List.map_map]
    refine congrArg List.sum (List.map_congr_left ?_)
    intro f _
    rw [Function.comp_apply, h.forger, sumWhere]
    exact sum_filter_eq_ite (fun x : Deposit => x.1 = f) _ deposits
  rw [hforgers, hkeys]
  simp [sumWhere]

theorem contractAddress_ne : contractAddress ≠ forgerStakeAddress := by decide

/-- **Activation.** The storage of the first contract represents `stakes` (in either version), the second contract has
never been written, all amounts are whole zennies, and activation succeeds. Then for every forger and owner the stake is
the sum of the old ones; every forger is registered without reward share, with the sum of its stakes; the sum of all stakes
has moved from the one contract to the other; and, if no forger has more than the maximum money, the sequence of stakes
that take part in the lottery is the same before and after, at every epoch with fork 1.4. -/
theorem activation_preserves_stakes (env : Env) (epoch : ℕ) (inv : Invocation) (db db' : Db LegacyDb) (out : Octets)
    (stakes : List AccountForgingStakeInfo) (hrep : Represents db.rest.others.v1 stakes)
    (hempty : db.rest.stakes = StakeDb.empty)
    (hamounts : ∀ s ∈ stakes, isValidZenAmount s.forgerStakeData.stakedAmount)
    (habi : ∀ bytes, env.encodeStakes stakes = .ok bytes → env.decodeStakes bytes = .ok stakes)
    (hrun : exec (doActivateCmd env inv epoch) db = (.ok out, db')) :
    (∀ f owner, (getLatestAmount db'.rest.stakes (.stake f owner) : ℤ) = stakedBy stakes f owner) ∧
      (∀ s ∈ stakes, db'.rest.stakes.forgerInfo s.forgerStakeData.forgerPublicKeys =
          some ⟨s.forgerStakeData.forgerPublicKeys, 0, 0⟩ ∧
        (getLatestAmount db'.rest.stakes (.forger s.forgerStakeData.forgerPublicKeys) : ℤ) =
          stakedWith stakes s.forgerStakeData.forgerPublicKeys) ∧
      db'.balance forgerStakeAddress = db.balance forgerStakeAddress - totalStaked stakes ∧
      db'.balance contractAddress = db.balance contractAddress + totalStaked stakes ∧
      ((∀ f, stakedWith stakes f ≤ MAX_MONEY_IN_WEI) →
        ∀ order stateEpochNumber, env.forks.v1_4 stateEpochNumber = true →
          (db.rest.others.v1.version = .VERSION_2 → env.forks.v1_3 stateEpochNumber = true) →
          ∃ seq, getOrderedForgingStakesInfoSeq env.forks order db.rest.others.v1 db.rest.stakes stateEpochNumber = .ok seq ∧
            getOrderedForgingStakesInfoSeq env.forks order db'.rest.others.v1 db'.rest.stakes stateEpochNumber =
              .ok seq) := by
  obtain ⟨hholds, hactive, hbalance⟩ := activated_holds hrep hempty habi hrun
  have hforger : ∀ f, (latestAmount ((content db'.rest.stakes).history (.forger f)) : ℤ) = stakedWith stakes f := by
    intro f
    rw [hholds.forger, sum_deposits]
    exact sum_filter_eq_ite (fun s => s.forgerStakeData.forgerPublicKeys = f) _ stakes
  refine ⟨?_, ?_, ?_, ?_, ?_⟩
  · intro f owner
    rw [getLatestAmount_eq, hholds.stake, sum_deposits]
    exact sum_filter_eq_ite
      (fun s => s.forgerStakeData.forgerPublicKeys = f ∧ s.forgerStakeData.ownerPublicKey = owner) _ stakes
  · intro s hs
    have hlisted := (hholds.listed s.forgerStakeData.forgerPublicKeys).2 ((mem_deposits env stakes _).2 ⟨s, hs, rfl⟩)
    refine ⟨hholds.info _ hlisted, ?_⟩
    rw [getLatestAmount_eq, hforger]
  · rw [hbalance]
    simp [StateDb.moveBalance, contractAddress_ne.symm, sub_eq_add_neg]
  · rw [hbalance]
    simp [StateDb.moveBalance, contractAddress_ne]
  · intro hmax order stateEpochNumber hfork14 hfork13
    obtain ⟨fs, hnodup, hmem, hv1⟩ := forgingStakesV1_eq hamounts order hmax
    have hinactive : db.rest.stakes.active = false := by
      rw [hempty]
      rfl
    -- the same forgers with the same totals, in some other order
    have hperm : fs.Perm (content db'.rest.stakes).forgers := by
      refine (List.perm_ext_iff_of_nodup hnodup hholds.consistent.registry.forgers_nodup).2 ?_
      intro f
      rw [hmem, hholds.listed, mem_deposits]
    have hvalid : ∀ f ∈ (content db'.rest.stakes).forgers,
        isValidZenAmount (latestAmount ((content db'.rest.stakes).history (.forger f))) = true := by
      intro f _
      rw [hforger]
      exact stakedWith_valid hamounts (hmax f)
    have hv2 := getForgingStakes_eq hholds.consistent.registry hvalid
    have htotals : (forgingStake fun f => latestAmount ((content db'.rest.stakes).history (.forger f))) =
        forgingStake (stakedWith stakes) := by
      funext f
      simp only [forgingStake, hforger]
    rw [htotals] at hv2
    refine ⟨sortedReverse ((fs.map (forgingStake (stakedWith stakes))).filter fun fsi =>
      !(env.forks.v1_4 stateEpochNumber) || minForgerStake ≤ fsi.stakeAmount), ?_, ?_⟩
    · simp only [getOrderedForgingStakesInfoSeq, hinactive, Bool.and_false, Bool.false_eq_true, if_false,
        getListOfForgersStakes_eq hrep hfork13]
      show (forgingStakesV1 order stakes >>= _) = _
      rw [hv1]
      rfl
    · simp only [getOrderedForgingStakesInfoSeq, hactive, hfork14, Bool.and_self, if_true, hv2]
      show Except.ok _ = _
      rw [sortedReverse_perm ((hperm.map _).filter _).symm]

/-- activation leaves the second contract as its commands need it: consistent, and with a balance that covers all stakes -/
theorem activation_activated {env : Env} {epoch : ℕ} {inv : Invocation} {db db' : Db LegacyDb} {out : Octets}
    {stakes : List AccountForgingStakeInfo} (hrep : Represents db.rest.others.v1 stakes)
    (hempty : db.rest.stakes = StakeDb.empty) (hbalance : 0 ≤ db.balance contractAddress)
    (habi : ∀ bytes, env.encodeStakes stakes = .ok bytes → env.decodeStakes bytes = .ok stakes)
    (hrun : exec (doActivateCmd env inv epoch) db = (.ok out, db')) : Activated db' := by
  obtain ⟨hholds, hactive, hmoved⟩ := activated_holds hrep hempty habi hrun
  refine ⟨hactive, hholds.consistent, ?_⟩
  have hnew : db'.balance contractAddress = db.balance contractAddress + totalStaked stakes := by
    rw [hmoved]
    simp [StateDb.moveBalance, contractAddress_ne]
  have htotal : ((content db'.rest.stakes).total : ℤ) = totalStaked stakes := by
    rw [hholds.total, sum_deposits]
    simp [totalStaked]
  rw [surplus_eq, hnew, htotal]
  omega

/-! Four stakes in the linked list of version 1, with two forgers and two owners. -/

section Sample

def sampleStakes : List AccountForgingStakeInfo :=
  [⟨1, ⟨7, 8, 9⟩, 100, 10 * zen⟩, ⟨2, ⟨7, 8, 9⟩, 200, 5 * zen⟩, ⟨3, ⟨4, 5, 6⟩, 100, 20 * zen⟩,
    ⟨4, ⟨7, 8, 9⟩, 100, zen⟩]

/-- the ABI encoding of an array of structs of six words -/
def encodeWords (stakes : List AccountForgingStakeInfo) : Octets :=
  bytesOf 32 ++ bytesOf stakes.length ++ stakes.flatMap fun s =>
    bytesOf s.stakeId.toNat ++ bytesOf s.forgerStakeData.stakedAmount.toNat ++
      bytesOf s.forgerStakeData.ownerPublicKey.toNat ++ bytesOf s.forgerStakeData.forgerPublicKeys.blockSignPublicKey.toNat ++
      bytesOf s.forgerStakeData.forgerPublicKeys.vrfPublicKey.vrf1.toNat ++
      bytesOf (s.forgerStakeData.forgerPublicKeys.vrfPublicKey.vrf2.toNat * 256 ^ 31)

def decodeWords (data : Octets) : List AccountForgingStakeInfo :=
  (List.range (wordOf data 1)).map fun i =>
    let word := fun j => wordOf data (2 + 6 * i + j)
    ⟨BitVec.ofNat 256 (word 0), ⟨BitVec.ofNat 256 (word 3), BitVec.ofNat 256 (word 4), BitVec.ofNat 8 (word 5 / 256 ^ 31)⟩,
      BitVec.ofNat 160 (word 2), word 1⟩

def sampleEnv : Env where
  forks := ⟨fun _ => true, fun _ => true⟩
  encodeStakes stakes := .ok (encodeWords stakes)
  decodeStakes data := .ok (decodeWords data)
  contractCodeHash := 77
  forgerOrder := HashOrder.insertion _
  delegatorOrder := HashOrder.insertion _
  tailOrder := HashOrder.insertion _

def emptyV1 : ForgerStakeDb := ⟨.VERSION_1, false, fun _ => none, none, ∅, StateDbArray.empty⟩

def dataOf (stakes : List AccountForgingStakeInfo) (id : StakeId) : Option ForgerStakeData :=
  (stakes.find? fun s => s.stakeId = id).map AccountForgingStakeInfo.forgerStakeData

def sampleV1 : ForgerStakeDb :=
  { emptyV1 with
    stakeData := dataOf sampleStakes
    linkedListTip := some 4
    linkedListNodes := (((AList.insert 4 ⟨some 3, none⟩ ∅).insert 3 ⟨some 2, some 4⟩).insert 2
      ⟨some 1, some 3⟩).insert 1
      ⟨none, some 2⟩ }

/-- a database before activation, with the balance of the first contract -/
def dbBefore (v1 : ForgerStakeDb) (balance : ℤ) : Db LegacyDb where
  balance a := if a = forgerStakeAddress then balance else 0
  nonce _ := 0
  isEoaAccount _ := true
  refund := 0
  rest := ⟨StakeDb.empty, [], v1, fun a => if a = contractAddress then 77 else 0⟩

/-- `activate()` -/
def activateCall : Invocation := ⟨⟨100, some contractAddress, 0, [0x0f, 0x15, 0xf4, 0xc0], false⟩, GasPool.new 100000⟩

def afterActivation (db : Db LegacyDb) : Db LegacyDb := (exec (doActivateCmd sampleEnv activateCall 5) db).2

theorem sampleV1_represents : Represents sampleV1 sampleStakes where
  ids_nodup := by decide
  linked _ := by
    refine .cons ⟨4, ⟨7, 8, 9⟩, 100, zen⟩ ⟨some 3, none⟩ _ (by decide +kernel) (by decide +kernel) ?_
    refine .cons ⟨3, ⟨4, 5, 6⟩, 100, 20 * zen⟩ ⟨some 2, some 4⟩ _ (by decide +kernel) (by decide +kernel) ?_
    refine .cons ⟨2, ⟨7, 8, 9⟩, 200, 5 * zen⟩ ⟨some 1, some 3⟩ _ (by decide +kernel) (by decide +kernel) ?_
    exact .cons ⟨1, ⟨7, 8, 9⟩, 100, 10 * zen⟩ ⟨none, some 2⟩ _ (by decide +kernel) (by decide +kernel) .nil
  array h := by cases h

theorem activates_of_ok {db : Db LegacyDb} (h : (exec (doActivateCmd sampleEnv activateCall 5) db).1 = .ok []) :
    exec (doActivateCmd sampleEnv activateCall 5) db = (.ok [], afterActivation db) := by
  unfold afterActivation
  rw [← h]

theorem activation_preserves_four_stakes :
    (getLatestAmount (afterActivation (dbBefore sampleV1 (36 * zen))).rest.stakes (.stake ⟨7, 8, 9⟩ 100) : ℤ) =
      stakedBy sampleStakes ⟨7, 8, 9⟩ 100 ∧ stakedBy sampleStakes ⟨7, 8, 9⟩ 100 = 11 * zen := by
  refine ⟨?_, by decide +kernel⟩
  refine (activation_preserves_stakes sampleEnv 5 activateCall (dbBefore sampleV1 (36 * zen)) _ [] sampleStakes
    sampleV1_represents rfl (by decide +kernel) ?_ (activates_of_ok (by decide +kernel))).1 _ _
  intro bytes hbytes
  obtain rfl := Except.ok.inj hbytes
  decide +kernel

/-! Two stakes of the maximum money each with one forger, in the array of version 2. -/

def largeStakes : List AccountForgingStakeInfo :=
  [⟨1, ⟨7, 8, 9⟩, 100, MAX_MONEY_IN_WEI⟩, ⟨2, ⟨7, 8, 9⟩, 200, MAX_MONEY_IN_WEI⟩]

def largeV1 : ForgerStakeDb :=
  { emptyV1 with
    version := .VERSION_2
    stakeData := dataOf largeStakes
    forgerStakeArray := (StateDbArray.empty.append () 1).append () 2 }

/-- each amount is a legal one and activation succeeds, but the total of the forger is refused by the conversion to zennies:
before activation the forger takes part with the sum of its stakes, after it the sequence cannot be computed -/
theorem lottery_breaks_above_max_money :
    Represents largeV1 largeStakes ∧ (∀ s ∈ largeStakes, isValidZenAmount s.forgerStakeData.stakedAmount) ∧
      exec (doActivateCmd sampleEnv activateCall 5) (dbBefore largeV1 (2 * MAX_MONEY_IN_WEI)) =
        (.ok [], afterActivation (dbBefore largeV1 (2 * MAX_MONEY_IN_WEI))) ∧
      getOrderedForgingStakesInfoSeq sampleEnv.forks (HashOrder.insertion _) largeV1 StakeDb.empty 5 =
        .ok [⟨7, ⟨8, 9⟩, 2 * MAX_MONEY⟩] ∧
      (getOrderedForgingStakesInfoSeq sampleEnv.forks (HashOrder.insertion _) largeV1
        (afterActivation (dbBefore largeV1 (2 * MAX_MONEY_IN_WEI))).rest.stakes 5).isOk = false := by
  exact ⟨⟨by decide, by nofun, fun _ => ⟨by decide +kernel, by decide +kernel⟩⟩, by decide +kernel,
    activates_of_ok (by decide +kernel), by decide +kernel, by decide +kernel⟩

end Sample

end SidechainsSdk.Account.Migration
