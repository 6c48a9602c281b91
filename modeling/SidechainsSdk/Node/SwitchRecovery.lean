/-
A UTXO node that stops while it switches to another chain. Wallet and state go back to the branch point, storage after storage,
and the first block of the other chain is written. The history keeps its best block until that block is written completely.

- `switching`: the storages after some of these steps.
- `recovery_of_switch`: from the first step on, no start leads back to the best block of the history. Either the start fails, or
  state and wallet are those of the branch point.
-/
import Mathlib.Tactic
import SidechainsSdk.Node.CrashRecovery

namespace SidechainsSdk.Node.CrashRecovery

open Chain History ParentTree StoreFamily
open Chain.ActiveChain (sampleParams)
open Snapshots (After ReturnsTo after_zero_iff returnsTo_self returnsTo_rollback)

variable {C : Type} (p : Layout)

/-- the steps back: `updateStateAndWallet` takes the wallet back before the state -/
def rollbacks : List Store := p.walletRollback ++ p.stateRollback

/-- the storages after the first `k` steps of a chain switch: back to the branch point, then the first block after it -/
def switching (s : Storages C) (branchPoint : ModifierId) (switch : Option (ModifierId × C)) (id : ModifierId)
    (contents : Store → C)
    (k : ℕ) : Option (Storages C) := do
  let rolledBack ← rollbackAll branchPoint ((rollbacks p).take k) s
  pure (stopped p rolledBack switch id contents (k - (rollbacks p).length))

variable {p} {s : Storages C} {id tip : ModifierId} {ahead : ℕ}

/-- the branch point is still in the storages, and the best block came after it -/
structure CanGoBack (p : Layout) (s : Storages C) (tip branchPoint : ModifierId) : Prop where
  mem : ∀ store ∈ p.stateStores ++ p.walletStores, branchPoint ∈ (s store).versions
  older : ∀ store ∈ p.stateStores ++ p.walletStores, tip ∉ ((s store).rollback branchPoint).versions

def rolledBack (p : Layout) (s : Storages C) (branchPoint : ModifierId) (k : ℕ) : Storages C := fun store =>
  if store ∈ (rollbacks p).take k then (s store).rollback branchPoint else s store

theorem mem_of_mem_take {k : ℕ} {store : Store} (h : store ∈ (rollbacks p).take k) :
    store ∈ p.stateStores ++ p.walletStores :=
  (stores_perm p).mem_iff.1 (List.mem_of_mem_take h)

theorem nodup_rollbacks (p : Layout) : (rollbacks p).Nodup := (stores_perm p).nodup_iff.2 (nodup_stores p)

theorem rollbackAll_take (hback : CanGoBack p s tip id) (k : ℕ) :
    rollbackAll id ((rollbacks p).take k) s = some (rolledBack p s id k) :=
  rollbackAll_eq ((nodup_rollbacks p).sublist (List.take_sublist _ _)) fun store hstore => hback.mem store
    (mem_of_mem_take hstore)

theorem returnsTo_rolledBack (hback : CanGoBack p s tip id) {k : ℕ} {store : Store} (hstore : store ∈ (rollbacks p).take k) :
    ReturnsTo id (s store) (rolledBack p s id k store) := by
  rw [rolledBack, if_pos hstore]
  exact returnsTo_rollback (hback.mem store (mem_of_mem_take hstore))

theorem mem_rolledBack (hback : CanGoBack p s tip id) (k : ℕ) :
    ∀ store ∈ p.stateStores ++ p.walletStores, id ∈ (rolledBack p s id k store).versions := by
  intro store hstore
  by_cases hmem : store ∈ (rollbacks p).take k
  · exact (after_zero_iff.2 (returnsTo_rolledBack hback hmem).lastVersion).mem
  · rw [rolledBack, if_neg hmem]
    exact hback.mem store hstore

/-- what goes back once more is where it was -/
theorem returnsTo_rolledBack_rollback (hback : CanGoBack p s tip id) (k : ℕ) :
    ∀ store ∈ p.stateStores ++ p.walletStores, ReturnsTo id (s store) ((rolledBack p s id k store).rollback id) := by
  intro store hstore
  by_cases hmem : store ∈ (rollbacks p).take k
  · have hreturns := returnsTo_rolledBack hback hmem
    rwa [Snapshots.rollback_lastVersion hreturns.lastVersion]
  · rw [rolledBack, if_neg hmem]
    exact returnsTo_rollback (hback.mem store hstore)

theorem rolledBack_of_not_mem {k : ℕ} {store : Store} (hstore : store ∉ (rollbacks p).take k) :
    rolledBack p s id k store = s store :=
  if_neg hstore

section Wallet

variable {params : NetworkParams} {fuel : ℕ} {history : HistoryStorage}

/-- **The wallet is on its way back.** The state has the best block still, and the wallet lacks it. -/
theorem recovery_wallet_back (hs : Settled p s tip ahead) (hback : CanGoBack p s tip id)
    (hbest : bestBlockId params history = tip)
    {k : ℕ} (hpos : 0 < k) (hk : k ≤ p.walletRollback.length) :
    checkAndRecoverStorages p params fuel history (rolledBack p s id k) = none := by
  have htake : (rollbacks p).take k = p.walletRollback.take k := List.take_append_of_le_length hk
  have hdisjoint := List.disjoint_of_nodup_append (nodup_stores p)
  have hstate : ensureStateConsistency p (rolledBack p s id k) = some (rolledBack p s id k, tip) := by
    refine ensureStateConsistency_eq fun store hstore => ?_
    have hnot : store ∉ (rollbacks p).take k := by
      rw [htake]
      exact fun hmem => hdisjoint hstore ((walletRollback_perm p).mem_iff.1 (List.mem_of_mem_take hmem))
    rw [rolledBack_of_not_mem hnot]
    exact hs.state store hstore
  obtain ⟨first, hfirst⟩ : ∃ first, first ∈ p.walletRollback.take k := by
    refine List.exists_mem_of_length_pos ?_
    rw [List.length_take]
    omega
  have hwallet : first ∈ p.walletStores := (walletRollback_perm p).mem_iff.1 (List.mem_of_mem_take hfirst)
  have hgone : tip ∉ (rolledBack p s id k first).versions := by
    rw [rolledBack, if_pos (htake ▸ hfirst)]
    exact hback.older first (List.mem_append_right _ hwallet)
  simp only [checkAndRecoverStorages, hstate, Option.bind_eq_bind, Option.bind_some, hbest, if_true]
  cases hensure : ensureWalletConsistency p (rolledBack p s id k) with
  | none => rfl
  | some found =>
    have hne : ¬ tip = found.2 := by
      rintro rfl
      exact hgone (mem_of_ensureWalletConsistency hensure first hwallet)
    exact if_neg hne

/-- **The state is on its way back**, or has come back: the application has to tell, as long as it has not. -/
theorem recovery_state_back (hs : Settled p s tip ahead) (hback : CanGoBack p s tip id) (hne : id ≠ tip)
    (hbest : bestBlockId params history = tip) (hchain : chainBack history history.isInActiveChain fuel id [] = some [id])
    {k : ℕ}
    (hk : p.walletRollback.length < k) :
    ((checkAndRecoverStorages p params fuel history (rolledBack p s id k)).isSome ↔
        0 < p.applicationStateStorages ∨ (rollbacks p).length ≤ k) ∧
      ∀ s' ∈ checkAndRecoverStorages p params fuel history (rolledBack p s id k),
        ∀ store ∈ p.stateStores ++ p.walletStores, ReturnsTo id (s store) (s' store) := by
  have hforger : Store.forgerBoxStorage ∈ (rollbacks p).take k := by
    obtain ⟨j, rfl⟩ : ∃ j, k = p.walletRollback.length + (j + 1) := ⟨k - p.walletRollback.length - 1, by omega⟩
    rw [rollbacks, List.take_length_add_append]
    exact List.mem_append_right _ (by simp [Layout.stateRollback])
  have hlast := (returnsTo_rolledBack hback hforger).lastVersion
  have hahead : ∀ store ∈ p.stateStores, store ∉ (rollbacks p).take k →
      (rolledBack p s id k store).lastVersion ≠ some id := by
    intro store hstore hnot heq
    rw [rolledBack_of_not_mem hnot, hs.state store hstore] at heq
    exact hne (Option.some.inj heq).symm
  have hall := mem_rolledBack hback k
  have hreturns := returnsTo_rolledBack_rollback hback k
  by_cases hdone : (rollbacks p).length ≤ k
  · have hstate : ensureStateConsistency p (rolledBack p s id k) = some (rolledBack p s id k, id) := by
      refine ensureStateConsistency_eq fun store hstore => (returnsTo_rolledBack hback ?_).lastVersion
      rw [List.take_of_length_le hdone]
      exact (stores_perm p).mem_iff.2 (List.mem_append_left _ hstore)
    obtain ⟨s', hrecover, hs'⟩ := recover_back hstate (by rw [hbest]; exact hne.symm) hchain hall
    rw [hrecover]
    refine ⟨by simp [hdone], fun s'' hs'' store hstore => ?_⟩
    obtain rfl := Option.mem_some_iff.1 hs''
    rw [hs' store hstore]
    exact hreturns store hstore
  by_cases happlication : 0 < p.applicationStateStorages
  · obtain ⟨n, hn⟩ : ∃ n, p.applicationStateStorages = n + 1 := ⟨p.applicationStateStorages - 1, by omega⟩
    have hmem : Store.applicationState n ∈ p.applicationState := by simp [Layout.applicationState, hn]
    have hlate : Store.applicationState n ∉ (rollbacks p).take k := by
      refine last_not_mem_take (nodup_rollbacks p)
        (List.getLast?_eq_some_iff.2 ⟨p.walletRollback ++ ([.forgerBoxStorage, .stateStorage] ++
        p.ifCSWEnabled .utxoMerkleTree ++ (List.range n).map .applicationState), ?_⟩) (by omega)
      simp [rollbacks, Layout.stateRollback, Layout.applicationState, hn, List.range_succ]
    have hstate := ensureStateConsistency_behind hlast hmem (hahead _ (applicationState_subset p _ hmem) hlate)
    rw [rollbackAll_stateStores fun store hstore => hall store (List.mem_append_left _ hstore), Option.map_some] at hstate
    obtain ⟨s', hrecover, hs'⟩ := recover_back hstate (by rw [hbest]; exact hne.symm) hchain fun store hstore => by
      by_cases hmem : store ∈ p.stateStores
      · rw [if_pos hmem]
        exact (after_zero_iff.2 (hreturns store hstore).lastVersion).mem
      · rw [if_neg hmem]
        exact hall store hstore
    rw [hrecover]
    refine ⟨by simp [happlication], fun s'' hs'' store hstore => ?_⟩
    obtain rfl := Option.mem_some_iff.1 hs''
    rw [hs' store hstore]
    by_cases hmem : store ∈ p.stateStores
    · rw [if_pos hmem, Snapshots.rollback_lastVersion (hreturns store hstore).lastVersion]
      exact hreturns store hstore
    · rw [if_neg hmem]
      exact hreturns store hstore
  · have hnil : p.applicationState = [] := by simp [Layout.applicationState, Nat.eq_zero_of_not_pos happlication]
    have hnone : ensureStateConsistency p (rolledBack p s id k) = none := by
      refine ensureStateConsistency_none hlast hnil ?_
      cases hcsw : p.isCSWEnabled
      · refine .inl (hahead _ (stateStorage_mem p) (last_not_mem_take (nodup_rollbacks p) ?_ (by omega)))
        simp [rollbacks, Layout.stateRollback, Layout.ifCSWEnabled, hnil, hcsw]
      · refine .inr ⟨rfl, hahead _ (utxoMerkleTree_mem hcsw) (last_not_mem_take (nodup_rollbacks p) ?_ (by omega))⟩
        simp [rollbacks, Layout.stateRollback, Layout.ifCSWEnabled, hnil, hcsw]
    have hrecover : checkAndRecoverStorages p params fuel history (rolledBack p s id k) = none := by
      rw [checkAndRecoverStorages, hnone]
      rfl
    rw [hrecover]
    exact ⟨⟨fun h => absurd h Bool.false_ne_true, fun h => absurd h (not_or.2 ⟨happlication, hdone⟩)⟩,
      fun s' hs' => absurd hs' (Option.not_mem_none s')⟩

end Wallet

section FirstBlock

variable {params : NetworkParams} {fuel : ℕ} {history : HistoryStorage} {switch : Option (ModifierId × C)} {block : ModifierId}

/-- **The first block after the branch point is written.** The history has neither of the two as its best block. -/
theorem recovery_first_block (hs : Settled p s id ahead) (hkeep : KeepsVersions p ahead) (hnew : NewVersions p s switch block)
    (hne : bestBlockId params history ≠ id) (hne' : bestBlockId params history ≠ block)
    (hchain : chainBack history history.isInActiveChain fuel id [] = some [id])
    (hchain' : chainBack history history.isInActiveChain fuel block [] = some [id, block]) (contents : Store → C) (k : ℕ) :
    ((checkAndRecoverStorages p params fuel history (stopped p s switch block contents k)).isSome ↔
        switch.toList.length + p.stateStores.length ≤ k ∨ k ≤ switch.toList.length ∨ 0 < p.applicationStateStorages) ∧
      ∀ s' ∈ checkAndRecoverStorages p params fuel history (stopped p s switch block contents k),
        ∀ store ∈ p.stateStores ++ p.walletStores, ReturnsTo id (s store) (s' store) := by
  have hmem : ∀ store ∈ p.stateStores ++ p.walletStores, id ∈ (stopped p s switch block contents k store).versions :=
    fun store hstore => mem_stopped hs hkeep hnew hstore
  rcases ensureStateConsistency_stopped hs hkeep hnew contents k with
    ⟨hk, htells, -, s₁, hstate, hback, hkept⟩ | ⟨hk, hsilent, hstate⟩ | ⟨hk, hstate⟩
  · obtain ⟨s', hrecover, hs'⟩ := recover_back hstate hne hchain fun store hstore => by
      by_cases hmemState : store ∈ p.stateStores
      · exact (after_zero_iff.2 (hback store hmemState).lastVersion).mem
      · rw [hkept store hmemState]
        exact hmem store hstore
    rw [hrecover]
    refine ⟨by simp [htells], fun s'' hs'' store hstore => ?_⟩
    obtain rfl := Option.mem_some_iff.1 hs''
    rw [hs' store hstore]
    by_cases hmemState : store ∈ p.stateStores
    · rw [Snapshots.rollback_lastVersion (hback store hmemState).lastVersion]
      exact returnsTo_stopped hs hnew (hback store hmemState)
    · rw [hkept store hmemState]
      exact returnsTo_stopped hs hnew (returnsTo_rollback (hmem store hstore))
  · have hrecover : checkAndRecoverStorages p params fuel history (stopped p s switch block contents k) = none := by
      rw [checkAndRecoverStorages, hstate]
      rfl
    rw [hrecover]
    exact ⟨⟨fun h => absurd h Bool.false_ne_true, fun h => absurd (h.resolve_left (by omega)) hsilent⟩,
      fun s' hs' => absurd hs' (Option.not_mem_none s')⟩
  · obtain ⟨s', hrecover, hs'⟩ := recover_back hstate hne' hchain' hmem
    rw [hrecover]
    refine ⟨by simp [hk], fun s'' hs'' store hstore => ?_⟩
    obtain rfl := Option.mem_some_iff.1 hs''
    rw [hs' store hstore]
    exact returnsTo_stopped hs hnew (returnsTo_rollback (hmem store hstore))

end FirstBlock

section Switch

variable {params : NetworkParams} {history : HistoryStorage} {bs : List SidechainBlock} {tip branchPoint block : SidechainBlock}
  {undone : List SidechainBlock} {switch : Option (ModifierId × C)} {contents : Store → C}

/-- all storages have gone back -/
theorem settled_rolledBack (hback : CanGoBack p s tip.id id) {k : ℕ} (hk : (rollbacks p).length ≤ k) :
    Settled p (rolledBack p s id k) id 0 := by
  have hreturns : ∀ store ∈ p.stateStores ++ p.walletStores, (rolledBack p s id k store).lastVersion = some id := by
    intro store hstore
    refine (returnsTo_rolledBack hback ?_).lastVersion
    rw [List.take_of_length_le hk]
    exact (stores_perm p).mem_iff.2 hstore
  exact ⟨⟨fun store hstore _ => hreturns store (List.mem_append_right _ hstore),
    after_zero_iff.2 (hreturns _ (forgingBoxesInfoStorage_mem p))⟩, fun store hstore => hreturns store
      (List.mem_append_left _ hstore)⟩

/-- versions that are new before the way back are new after it -/
theorem newVersions_rolledBack (hback : CanGoBack p s tip.id id) {k : ℕ} (hnew : NewVersions p s switch block.id) :
    NewVersions p (rolledBack p s id k) switch block.id := by
  have hsubset : ∀ store ∈ p.stateStores ++ p.walletStores, ∀ v ∈ (rolledBack p s id k store).versions,
      v ∈ (s store).versions := by
    intro store hstore
    by_cases hmem : store ∈ (rollbacks p).take k
    · exact (returnsTo_rolledBack hback hmem).versions_subset
    · rw [rolledBack_of_not_mem hmem]
      exact fun _ hv => hv
  exact ⟨fun store hstore hmem => hnew.block store hstore (hsubset store hstore _ hmem),
    fun w hw => ⟨fun hmem => (hnew.switch w hw).1 (hsubset _ (forgingBoxesInfoStorage_mem p) _ hmem), (hnew.switch w hw).2⟩⟩

/-- **A stop in a chain switch.** For every node in step with its history, every block on a fork of it whose parent is the branch
point, and every number `k` of steps that the chain switch has made when the node stops, back in the storages and then into the
first block, at least one: the history still has the old best block. The next start fails while the wallet goes back. After that
it succeeds exactly if the application keeps storages for its state, or the state is not caught halfway back or halfway
written. State and wallet are then those of the branch point, and not of the best block. -/
theorem recovery_of_switch (hc : Consistent params history bs tip) (hblock : block ∈ bs)
    (hfork : Consistent.Fork bs tip block branchPoint undone [block]) (hundone : undone ≠ []) (hs : Settled p s tip.id ahead)
    (hkeep : KeepsVersions p 0) (hback : CanGoBack p s tip.id branchPoint.id) (hnew : NewVersions p s switch block.id)
    {fuel : ℕ}
    (hfuel : 1 < fuel) {k : ℕ} (hk : 0 < k) :
    bestBlockId params history ≠ branchPoint.id ∧
      ∃ stop, switching p s branchPoint.id switch block.id contents k = some stop ∧
        ((checkAndRecoverStorages p params fuel history stop).isSome ↔ p.walletRollback.length < k ∧
          (0 < p.applicationStateStorages ∨
            ((rollbacks p).length ≤ k ∧ k ≤ (rollbacks p).length + switch.toList.length) ∨
              (rollbacks p).length + switch.toList.length + p.stateStores.length ≤ k)) ∧
        ∀ s' ∈ checkAndRecoverStorages p params fuel history stop,
          ∀ store ∈ p.stateStores ++ p.walletStores, ReturnsTo branchPoint.id (s store) (s' store) := by
  have hbest := hc.bestBlockId_eq
  have hg := hc.tree.grown
  have hcmem := hc.mem_of_mem_best hfork.common
  have hne : branchPoint.id ≠ tip.id := by
    intro heq
    have hsame := hfork.current
    rw [heq] at hsame
    exact hundone (List.self_eq_append_right.1 hsame)
  have hne' : tip.id ≠ block.id := by
    intro heq
    refine hfork.disjoint block (by simp) ?_
    rw [show block = tip from hg.id_inj hblock hc.active.mem heq.symm]
    exact List.mem_of_getLast? (hg.path_last hc.active.mem)
  have hchain := hc.chainBack_eq hcmem hfork.common (List.append_nil _).symm (by simp) (Nat.zero_lt_of_lt hfuel) []
  have hchain' := hc.chainBack_eq hblock hfork.common hfork.new hfork.disjoint hfuel []
  have hlength : p.walletRollback.length < (rollbacks p).length := by simp [rollbacks, Layout.stateRollback]
  have hswitching : switching p s branchPoint.id switch block.id contents k =
      some (stopped p (rolledBack p s branchPoint.id k) switch block.id contents (k - (rollbacks p).length)) := by
    rw [switching, rollbackAll_take hback]
    rfl
  refine ⟨by rw [hbest]; exact hne.symm, _, hswitching, ?_⟩
  by_cases hdone : (rollbacks p).length < k
  · -- all storages are back, and the first block is on its way
    have hsettled := settled_rolledBack hback hdone.le
    obtain ⟨hiff, hreturns⟩ := recovery_first_block hsettled hkeep (newVersions_rolledBack hback hnew)
      (by rw [hbest]; exact hne.symm) (by rw [hbest]; exact hne') hchain hchain' contents (k - (rollbacks p).length)
    refine ⟨hiff.trans ⟨fun h => ⟨by omega, by omega⟩, fun h => by omega⟩, fun s' hs' store hstore => ?_⟩
    have hrolledBack : ReturnsTo branchPoint.id (s store) (rolledBack p s branchPoint.id k store) := by
      refine returnsTo_rolledBack hback ?_
      rw [List.take_of_length_le hdone.le]
      exact (stores_perm p).mem_iff.2 hstore
    exact hrolledBack.trans (hreturns s' hs' store hstore)
  · have hstop : stopped p (rolledBack p s branchPoint.id k) switch block.id contents (k - (rollbacks p).length) =
        rolledBack p s branchPoint.id k := by
      rw [Nat.sub_eq_zero_of_le (by omega)]
      rfl
    rw [hstop]
    by_cases hwallet : k ≤ p.walletRollback.length
    · rw [recovery_wallet_back hs hback hbest hk hwallet]
      exact ⟨⟨fun h => absurd h Bool.false_ne_true, fun h => absurd h.1 (by omega)⟩,
        fun s' hs' => absurd hs' (Option.not_mem_none s')⟩
    · obtain ⟨hiff, hreturns⟩ := recovery_state_back hs hback hne hbest hchain (by omega : p.walletRollback.length < k)
      exact ⟨hiff.trans ⟨fun h => ⟨by omega, by omega⟩, fun h => by omega⟩, hreturns⟩

/-- a block beside the best one: the forger boxes have gone back, and the application is on the way -/
theorem recovery_of_switch_sample : ∃ stop s', switching sampleLayout sampleStorages 1 none 3 (fun _ => 30) 9 = some stop ∧
    checkAndRecoverStorages sampleLayout sampleParams 10 (storing (onTop 3 1)) stop = some s' ∧
      (s' .walletBoxStorage).lastVersion = some 1 := by
  have hconsistent : Consistent sampleParams (storing (onTop 3 1)) (ownBlocks ++ [onTop 3 1]) (onTop 2 1) :=
    consistent_storing ⟨sampleGenesisBlock, by simp [ownBlocks], rfl⟩ (by simp [ownBlocks, sampleGenesisBlock, onTop])
      ⟨by simp [SidechainBlock.mainchainParent, onTop], List.nodup_singleton 10, List.prefix_refl [10]⟩
  have hblock : onTop 3 1 ∈ ownBlocks ++ [onTop 3 1] := by simp
  have hfork : Consistent.Fork (ownBlocks ++ [onTop 3 1]) (onTop 2 1) (onTop 3 1) sampleGenesisBlock [onTop 2 1] [onTop 3 1] := by
    have htip : paths (ownBlocks ++ [onTop 3 1]) (onTop 2 1).id = [sampleGenesisBlock, onTop 2 1] := rfl
    refine ⟨by rw [htip]; simp, rfl, rfl, ?_⟩
    rw [htip]
    simp [sampleGenesisBlock, onTop]
  have hback : CanGoBack sampleLayout sampleStorages (onTop 2 1).id sampleGenesisBlock.id :=
    ⟨fun _ _ => by simp [sampleStorages, Snapshots.versions, sampleGenesisBlock],
      fun _ _ => by simp [sampleStorages, Snapshots.versions, Snapshots.rollback, sampleGenesisBlock, onTop]⟩
  have hnew : NewVersions sampleLayout sampleStorages none (onTop 3 1).id :=
    ⟨fun _ _ => by simp [sampleStorages, Snapshots.versions, onTop], fun w hw => absurd hw (Option.some_ne_none w).symm⟩
  have hfuel : 1 < 10 := by decide
  have hk : 0 < 9 := by decide
  obtain ⟨-, stop, hstop, hiff, hreturns⟩ :=
    recovery_of_switch hconsistent hblock hfork (by simp) settled_sample keepsVersions_sample hback
    hnew hfuel hk
  obtain ⟨s', hs'⟩ := Option.isSome_iff_exists.1 (hiff.2 ⟨by decide, .inl (by decide)⟩)
  exact ⟨stop, s', hstop, hs', (hreturns s' hs' .walletBoxStorage (by decide)).lastVersion⟩

end Switch

end SidechainsSdk.Node.CrashRecovery
