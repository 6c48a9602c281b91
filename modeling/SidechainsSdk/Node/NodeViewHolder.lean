/-
The node view holder (`AbstractSidechainNodeViewHolder.scala`). `pmodModify` appends a block to the history and, when there is
something to apply, takes state and wallet back to the branch point and applies block after block to both. A block that the
state refuses is reported to the history, which answers with the way back, and the update starts again with it.

Of the state and the wallet only the versions are kept here. What the parts of an application answer may differ from call to
call and is a parameter, `Outcomes`. So is `chainSwitchingNeeded`, which belongs to sparkz.
-/
import Mathlib.Tactic
import SidechainsSdk.History.History

namespace SidechainsSdk.Node

open Fallible Chain History

/-- the versions of a state or a wallet, newest first -/
abbrev Versions := List ModifierId

namespace Versions

def version (v : Versions) : Option ModifierId := v.head?

/-- fails for a version that is not there -/
def rollback (v : Versions) (target : ModifierId) : Option Versions :=
  if target ∈ v then some (v.dropWhile fun id => id ≠ target) else none

end Versions

/-- what the parts of an application answer in one call -/
structure Outcomes where
  /-- the consensus epoch is not switched, or switching it throws nothing -/
  epochSwitch : SidechainBlock → Bool
  tooManyBlocksWithoutMcHeaders : SidechainBlock → Bool
  applyModifier : SidechainBlock → Bool

/-- the state takes a block on top of its parent -/
def Outcomes.applyToState (o : Outcomes) (state : Versions) (mod : SidechainBlock) : Option Versions :=
  if state.version = some mod.parentId ∧ o.applyModifier mod = true then some (mod.id :: state) else none

structure NodeView where
  history : HistoryStorage
  minimalState : Versions
  vault : Versions

/-- `SidechainNodeUpdateInformation` -/
structure UpdateInformation where
  history : HistoryStorage
  state : Versions
  wallet : Versions
  failedMod : Option SidechainBlock
  alternativeProgressInfo : Option ProgressInfo
  suffix : List SidechainBlock

/-- what ends a call without a result -/
inductive NodeViewException where
  | noBranchPoint
  | noAlternativeProgressInfo
  | notImplemented
  | endless
  deriving DecidableEq, Repr

/-- a failed report leaves the history with what was stored before -/
abbrev Reported (α : Type) := Except (HistoryException × HistoryStorage) α

section Apply

variable (o : Outcomes) (progressInfo : ProgressInfo)

/-- the block is reported as invalid; the blocks after it are not tried -/
def refuse (updateInfo : UpdateInformation) (mod : SidechainBlock) : Reported UpdateInformation :=
  match exec (reportModifierIsInvalid mod progressInfo) updateInfo.history with
  | (.ok newProgressInfo, history) =>
    .ok { updateInfo with history, failedMod := some mod, alternativeProgressInfo := some newProgressInfo }
  | (.error e, history) => .error (e, history)

/-- one block: the consensus epoch, the mainchain headers, the state, the wallet, and last the history -/
def applyToNode (updateInfo : UpdateInformation) (modToApply : SidechainBlock) : Reported UpdateInformation :=
  if updateInfo.failedMod.isSome then .ok updateInfo
  else if o.epochSwitch modToApply = false then refuse progressInfo updateInfo modToApply
  else if o.tooManyBlocksWithoutMcHeaders modToApply = true then refuse progressInfo updateInfo modToApply
  else
    match o.applyToState updateInfo.state modToApply with
    | none => refuse progressInfo updateInfo modToApply
    | some stateAfterApply =>
      match exec (reportModifierIsValid modToApply) updateInfo.history with
      | (.ok (), history) =>
        .ok ⟨history, stateAfterApply, modToApply.id :: updateInfo.wallet, none, none, updateInfo.suffix ++ [modToApply]⟩
      | (.error e, history) => .error (e, history)

def applyStateAndWallet (history : HistoryStorage) (stateToApply walletToApply : Versions) (suffixTrimmed : List SidechainBlock) :
    Reported UpdateInformation :=
  progressInfo.toApply.foldlM (applyToNode o progressInfo) ⟨history, stateToApply, walletToApply, none, none, suffixTrimmed⟩

end Apply

def trimChainSuffix (suffix : List SidechainBlock) (rollbackPoint : ModifierId) : List SidechainBlock :=
  match suffix.findIdx? fun b => b.id = rollbackPoint with
  | none => []
  | some idx => suffix.drop idx

section Update

variable (chainSwitchingNeeded : ProgressInfo → Bool) (o : Outcomes)

/-- wallet and state to apply to, and what stays of the blocks applied before -/
def rollbackToBranchPoint (state wallet : Versions) (progressInfo : ProgressInfo) (suffixApplied : List SidechainBlock) :
    Except NodeViewException (Option Versions × Option Versions × List SidechainBlock) :=
  if chainSwitchingNeeded progressInfo then
    match progressInfo.branchPoint with
    | none => .error .noBranchPoint
    | some branchingPoint =>
      if state.version ≠ some branchingPoint then
        .ok (wallet.rollback branchingPoint, state.rollback branchingPoint, trimChainSuffix suffixApplied branchingPoint)
      else .ok (some wallet, some state, [])
  else .ok (some wallet, some state, suffixApplied)

/-- history, state (unless it failed), wallet, and the blocks applied -/
def updateStateAndWallet : ℕ → HistoryStorage → Versions → Versions → ProgressInfo → List SidechainBlock →
    Except NodeViewException (HistoryStorage × Option Versions × Versions × List SidechainBlock)
  | 0, _, _, _, _, _ => .error .endless
  | fuel + 1, history, state, wallet, progressInfo, suffixApplied =>
    match rollbackToBranchPoint chainSwitchingNeeded state wallet progressInfo suffixApplied with
    | .error e => .error e
    | .ok (some walletToApply, some stateToApply, suffixTrimmed) =>
      match applyStateAndWallet o progressInfo history stateToApply walletToApply suffixTrimmed with
      | .ok nodeUpdateInfo =>
        match nodeUpdateInfo.failedMod with
        | some _ =>
          match nodeUpdateInfo.alternativeProgressInfo with
          | none => .error .noAlternativeProgressInfo
          | some alternativeProgressInfo =>
            updateStateAndWallet fuel nodeUpdateInfo.history nodeUpdateInfo.state nodeUpdateInfo.wallet alternativeProgressInfo
              nodeUpdateInfo.suffix
        | none => .ok (nodeUpdateInfo.history, some nodeUpdateInfo.state, nodeUpdateInfo.wallet, nodeUpdateInfo.suffix)
      | .error (_, history) => .ok (history, none, wallet, suffixTrimmed)
    -- a failed rollback ends in `???`
    | .ok _ => .error .notImplemented

/-- the blocks handed to `updateMemPool`, removed and applied, if it is called -/
abbrev MempoolUpdate := Option (List SidechainBlock × List SidechainBlock)

def pmodModify (params : NetworkParams) (validators : HistoryStorage → SidechainBlock → Bool) (fuel : ℕ)
    (pmod : SidechainBlock)
    (view : NodeView) : Except NodeViewException (NodeView × MempoolUpdate) :=
  if view.history.contains pmod.id then .ok (view, none)
  else
    match exec (append params validators fuel pmod) view.history with
    | (.error _, history) => .ok ({ view with history }, none)
    | (.ok progressInfo, historyBeforeStUpdate) =>
      if progressInfo.toApply = [] then .ok ({ view with history := historyBeforeStUpdate }, none)
      else
        match updateStateAndWallet chainSwitchingNeeded o fuel historyBeforeStUpdate view.minimalState view.vault progressInfo
          [] with
        | .error e => .error e
        | .ok (newHistory, some newState, newWallet, blocksApplied) =>
          .ok (⟨newHistory, newState, newWallet⟩, some (progressInfo.toRemove, blocksApplied))
        | .ok (newHistory, none, _, _) => .ok ({ view with history := newHistory }, none)

end Update

end SidechainsSdk.Node
