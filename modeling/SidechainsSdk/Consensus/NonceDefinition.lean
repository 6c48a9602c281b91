/-
What the nonce of a consensus epoch is a hash of (`ConsensusDataProvider.calculateNonceForEpoch`): the VRF outputs of the blocks
of the epoch in its middle slots, newest first, the nonce of the epoch before, and the number of the epoch.

Epochs and slots are those that the code computes from the timestamps of the blocks; within an epoch the slots of a branch
increase, and epochs may be skipped.

- `branch`: a block and its ancestors, newest first; `Blocks.branch_split`: its epochs.
- `digestFrom_eq`: the loop hashes the outputs of the middle slots of the block's own epoch, and no other.
- `Node`: the blocks and the stored nonces of a node; `Reachable.inv`: these are the nonces computed without any.
- `nonce_of_ommers`: nonce data of ommers stand for blocks.
- `nonce_definition`: all of it for the last block of an epoch.
-/
import Mathlib.Tactic
import SidechainsSdk.Consensus.ConsensusDataProvider
import SidechainsSdk.Consensus.SlotTimes

namespace SidechainsSdk.Consensus

open Fallible
open Chain (ModifierId)

namespace NonceDefinition

section Chains

variable (cfg : Config)

/-- the epoch and the slot of a block, as the code computes them -/
def epochOf (e : Entry) : ℤ := (cfg.epochNumber e.info.timestamp).toOption.getD 0

def slotOf (e : Entry) : ℤ := (cfg.slotNumber e.info.timestamp).toOption.getD 0

structure Clocked (e : Entry) : Prop where
  epoch : cfg.epochNumber e.info.timestamp = .ok (epochOf cfg e)
  slot : cfg.slotNumber e.info.timestamp = .ok (slotOf cfg e)

/-- a block on its parent -/
structure Follows (q e : Entry) : Prop where
  clocked : Clocked cfg e
  parent : e.info.parentId = q.id
  epoch_le : epochOf cfg q ≤ epochOf cfg e
  slot_lt : epochOf cfg q = epochOf cfg e → slotOf cfg q < slotOf cfg e
  last : e.info.lastBlockInPreviousConsensusEpoch =
    if epochOf cfg q < epochOf cfg e then q.id else q.info.lastBlockInPreviousConsensusEpoch

/-- blocks listed after their parents, back to the genesis block -/
inductive Blocks : List Entry → Prop
  | genesis {e : Entry} (hclocked : Clocked cfg e) (hid : e.id = cfg.sidechainGenesisBlockId)
      (hlast : e.info.lastBlockInPreviousConsensusEpoch = cfg.sidechainGenesisBlockId) : Blocks [e]
  | append {e q : Entry} {rest : List Entry} (hrest : Blocks rest) (hnew : e.id ∉ rest.map Entry.id) (hq : q ∈ rest)
      (hfollows : Follows cfg q e) : Blocks (e :: rest)

/-- a block and its ancestors, newest first -/
def branch : List Entry → ModifierId → List Entry
  | [], _ => []
  | e :: rest, id => if e.id ≠ id then branch rest id else e :: branch rest e.info.parentId

/-- the blocks of an epoch, without the genesis block -/
def epochBlocks (epoch : ℤ) (blocks : List Entry) : List Entry :=
  blocks.filter fun e => epochOf cfg e = epoch ∧ e.id ≠ cfg.sidechainGenesisBlockId

/-- those with slots in a range -/
def inSlots (eligibleSlotsRangeStart eligibleSlotsRangeEnd : ℤ) (blocks : List Entry) : List Entry :=
  blocks.filter fun e => eligibleSlotsRangeStart ≤ slotOf cfg e ∧ slotOf cfg e ≤ eligibleSlotsRangeEnd

end Chains

def outputOf (e : Entry) : Except String Bytes :=
  match e.info.vrfOutputOpt with
  | some vrfOutput => .ok vrfOutput
  | none => .error "Try to calculate nonce by using block with incorrect Vrf proof"

/-- the VRF outputs of blocks, one behind the other -/
def outputs : List Entry → Except String Bytes
  | [] => .ok []
  | e :: rest => do
    let output ← outputOf e
    let others ← outputs rest
    return output ++ others

variable {cfg : Config} {entries rest exts : List Entry} {e b q : Entry} {id last : ModifierId} {lo hi : ℤ}

theorem branch_cons (hne : e.id ≠ id) : branch (e :: rest) id = branch rest id := if_pos hne

theorem branch_head (e : Entry) (rest : List Entry) : branch (e :: rest) e.id = e :: branch rest e.info.parentId :=
  if_neg (not_not.2 rfl)

theorem Blocks.genesis_mem (h : Blocks cfg entries) : cfg.sidechainGenesisBlockId ∈ entries.map Entry.id := by
  induction h with
  | genesis _ hid => simp [hid]
  | append _ _ _ _ ih => exact List.mem_cons_of_mem _ ih

theorem Blocks.nodup (h : Blocks cfg entries) : (entries.map Entry.id).Nodup := by
  induction h with
  | genesis => simp
  | append _ hnew _ _ ih => exact List.nodup_cons.2 ⟨hnew, ih⟩

theorem Blocks.eq_of_id (h : Blocks cfg entries) {e' : Entry} (he : e ∈ entries) (he' : e' ∈ entries) (hid : e.id = e'.id) :
    e = e' :=
  List.inj_on_of_nodup_map h.nodup he he' hid

/-- the last block of the epoch before is in the history -/
theorem Blocks.last_mem (h : Blocks cfg entries) (he : e ∈ entries) :
    e.info.lastBlockInPreviousConsensusEpoch ∈ entries.map Entry.id := by
  induction h generalizing e with
  | genesis _ hid hlast => rw [List.mem_singleton.1 he, hlast, ← hid]; exact List.mem_cons_self
  | @append e' q rest hrest hnew hq hfollows ih =>
    refine List.mem_cons_of_mem _ ?_
    rcases List.mem_cons.1 he with rfl | hmem
    · rw [hfollows.last]
      split_ifs
      · exact List.mem_map_of_mem hq
      · exact ih hq
    · exact ih hmem

theorem Blocks.grounded (h : Blocks cfg entries) : Grounded cfg entries := by
  induction h with
  | genesis _ hid _ => exact ⟨trivial, List.not_mem_nil, fun hne => absurd hid hne⟩
  | append hrest hnew hq hfollows ih =>
    refine ⟨ih, hnew, fun _ => ?_⟩
    rw [hfollows.last]
    split_ifs
    · exact List.mem_map_of_mem hq
    · exact hrest.last_mem hq

theorem Blocks.clocked (h : Blocks cfg entries) (he : e ∈ entries) : Clocked cfg e := by
  induction h with
  | genesis hclocked => rwa [List.mem_singleton.1 he]
  | append _ _ _ hfollows ih =>
    rcases List.mem_cons.1 he with rfl | hmem
    · exact hfollows.clocked
    · exact ih hmem

/-- along a branch neither epochs nor the slots of an epoch grow -/
theorem Blocks.branch_le (h : Blocks cfg entries) (hb : b ∈ entries) :
    ∀ c ∈ branch entries b.id, epochOf cfg c ≤ epochOf cfg b ∧
      (epochOf cfg c = epochOf cfg b → slotOf cfg c ≤ slotOf cfg b) := by
  induction h generalizing b with
  | @genesis g =>
    obtain rfl := List.mem_singleton.1 hb
    intro c hc
    rw [branch_head] at hc
    obtain rfl := List.mem_singleton.1 hc
    exact ⟨le_rfl, fun _ => le_rfl⟩
  | @append e q rest hrest hnew hq hfollows ih =>
    intro c hc
    rcases List.mem_cons.1 hb with rfl | hmem
    · rw [branch_head, hfollows.parent] at hc
      rcases List.mem_cons.1 hc with rfl | hc
      · exact ⟨le_rfl, fun _ => le_rfl⟩
      · obtain ⟨hepoch, hslot⟩ := ih hq c hc
        have hle := hfollows.epoch_le
        refine ⟨hepoch.trans hle, fun hsame => ?_⟩
        have hq_same : epochOf cfg q = epochOf cfg b := by omega
        have hlt := hfollows.slot_lt hq_same
        have hc_le := hslot (by omega)
        omega
    · have hne : e.id ≠ b.id := by
        intro heq
        exact hnew (heq ▸ List.mem_map_of_mem hmem)
      rw [branch_cons hne] at hc
      exact ih hmem c hc

/-! ## The loop -/

/-- the walk ends at the last block of the epoch before -/
theorem digestFrom_last (h : Clocked cfg q) (hnodup : (entries.map Entry.id).Nodup) (hq : q ∈ entries) :
    digestFrom cfg q.id lo hi entries q.id = .ok [] := by
  induction entries with
  | nil => cases hq
  | cons e rest ih =>
    rw [List.map_cons, List.nodup_cons] at hnodup
    rcases List.mem_cons.1 hq with rfl | hmem
    · rw [digestFrom, if_neg (not_not.2 rfl), h.slot]
      exact if_neg fun hboth => hboth.1 rfl
    · have hne : e.id ≠ q.id := by
        intro heq
        exact hnodup.1 (heq ▸ List.mem_map_of_mem hmem)
      rw [digestFrom_cons hne]
      exact ih hnodup.2 hmem

/-- no block of the branch is in a later epoch -/
theorem Blocks.epochBlocks_later (h : Blocks cfg entries) (hq : q ∈ entries) {epoch : ℤ} (hlt : epochOf cfg q < epoch) :
    epochBlocks cfg epoch (branch entries q.id) = [] := by
  refine List.filter_eq_nil_iff.2 ?_
  intro c hc hown
  have hle := (h.branch_le hq c hc).1
  have heq := (of_decide_eq_true hown).1
  omega

/-- the branch of the genesis block -/
theorem Blocks.branch_genesis (h : Blocks cfg entries) :
    ∀ c ∈ branch entries cfg.sidechainGenesisBlockId, c.id = cfg.sidechainGenesisBlockId := by
  induction h with
  | @genesis g _ hid =>
    rw [← hid, branch_head]
    intro c hc
    rw [List.mem_singleton.1 hc]
  | append hrest hnew _ _ ih => rwa [branch_cons fun hid => hnew (hid ▸ hrest.genesis_mem)]

theorem Blocks.epochBlocks_genesis (h : Blocks cfg entries) (epoch : ℤ) :
    epochBlocks cfg epoch (branch entries cfg.sidechainGenesisBlockId) = [] := by
  refine List.filter_eq_nil_iff.2 ?_
  intro c hc hown
  exact (of_decide_eq_true hown).2 (h.branch_genesis c hc)

theorem Blocks.genesis_last (h : Blocks cfg entries) (he : e ∈ entries) (hid : e.id = cfg.sidechainGenesisBlockId) :
    e.info.lastBlockInPreviousConsensusEpoch = cfg.sidechainGenesisBlockId := by
  induction h with
  | genesis _ _ hlast => rwa [List.mem_singleton.1 he]
  | append hrest hnew _ _ ih =>
    rcases List.mem_cons.1 he with rfl | hmem
    · exact absurd hrest.genesis_mem (hid ▸ hnew)
    · exact ih hmem

/-- **The blocks of an epoch.** The branch of a block is first the blocks of its epoch and then the branch of the last block of
the epoch before, whose blocks are older, or the genesis block. -/
theorem Blocks.branch_split (h : Blocks cfg entries) (hb : b ∈ entries) (hid : b.id ≠ cfg.sidechainGenesisBlockId) :
    branch entries b.id =
        epochBlocks cfg (epochOf cfg b) (branch entries b.id) ++ branch entries b.info.lastBlockInPreviousConsensusEpoch ∧
      ∀ c ∈ branch entries b.info.lastBlockInPreviousConsensusEpoch,
        epochOf cfg c < epochOf cfg b ∨ c.id = cfg.sidechainGenesisBlockId := by
  induction h generalizing b with
  | genesis _ hgenesis => exact absurd (List.mem_singleton.1 hb ▸ hgenesis) hid
  | @append e q rest hrest hnew hq hfollows ih =>
    have hall : Blocks cfg (e :: rest) := .append hrest hnew hq hfollows
    rcases List.mem_cons.1 hb with rfl | hmem
    · have hlast : b.id ≠ b.info.lastBlockInPreviousConsensusEpoch := hall.grounded.head_ne (hall.grounded.2.2 hid)
      have hown : epochBlocks cfg (epochOf cfg b) (b :: branch rest q.id) = b :: epochBlocks cfg (epochOf cfg b)
          (branch rest q.id) :=
        List.filter_cons_of_pos (decide_eq_true ⟨rfl, hid⟩)
      rw [branch_head, branch_cons hlast, hfollows.parent, hown, List.cons_append, List.cons.injEq, hfollows.last]
      by_cases hlt : epochOf cfg q < epochOf cfg b
      · rw [if_pos hlt, hrest.epochBlocks_later hq hlt]
        exact ⟨⟨rfl, rfl⟩, fun c hc => .inl ((hrest.branch_le hq c hc).1.trans_lt hlt)⟩
      · have hsame : epochOf cfg q = epochOf cfg b := le_antisymm hfollows.epoch_le (not_lt.1 hlt)
        rw [if_neg hlt]
        by_cases hgenesis : q.id = cfg.sidechainGenesisBlockId
        · rw [hrest.genesis_last hq hgenesis, hgenesis, hrest.epochBlocks_genesis]
          exact ⟨⟨rfl, rfl⟩, fun c hc => .inr (hrest.branch_genesis c hc)⟩
        · obtain ⟨hsplit, hold⟩ := ih hq hgenesis
          rw [← hsame]
          exact ⟨⟨rfl, hsplit⟩, hold⟩
    · have hne := hall.grounded.head_ne (List.mem_map_of_mem hmem)
      rw [branch_cons hne, branch_cons (hall.grounded.head_ne (hrest.last_mem hmem))]
      exact ih hmem hid

/-- no block of an epoch is in the middle slots when its newest one is not yet -/
theorem Blocks.inSlots_early (h : Blocks cfg entries) (hb : b ∈ entries) (hlow : slotOf cfg b < lo) :
    inSlots cfg lo hi (epochBlocks cfg (epochOf cfg b) (branch entries b.id)) = [] := by
  refine List.filter_eq_nil_iff.2 ?_
  intro c hc hmiddle
  obtain ⟨hlo, -⟩ := of_decide_eq_true hmiddle
  obtain ⟨hbranch, hown⟩ := List.mem_filter.1 hc
  have hle := (h.branch_le hb c hbranch).2 (of_decide_eq_true hown).1
  omega

/-- what a block adds to the outputs of the blocks before it -/
theorem outputs_inSlots_cons (others : List Entry) (hlow : lo ≤ slotOf cfg b) :
    outputs (inSlots cfg lo hi (b :: others)) = do
      let output ← if slotOf cfg b ≤ hi then outputOf b else .ok []
      let rest ← outputs (inSlots cfg lo hi others)
      return output ++ rest := by
  unfold inSlots
  by_cases hhigh : slotOf cfg b ≤ hi
  · rw [List.filter_cons_of_pos (by simpa using And.intro hlow hhigh), outputs, if_pos hhigh]
  · rw [List.filter_cons_of_neg (by simpa using fun _ => not_le.1 hhigh), if_neg hhigh]
    cases outputs (others.filter fun e => lo ≤ slotOf cfg e ∧ slotOf cfg e ≤ hi) <;> rfl

/-- **The loop.** The outputs of the blocks of the epoch in the middle slots are hashed, newest first; by induction on the blocks
of the history. -/
theorem digestFrom_eq (h : Blocks cfg entries) (hb : b ∈ entries) (hid : b.id ≠ cfg.sidechainGenesisBlockId) :
    digestFrom cfg b.info.lastBlockInPreviousConsensusEpoch lo hi entries b.id =
      outputs (inSlots cfg lo hi (epochBlocks cfg (epochOf cfg b) (branch entries b.id))) := by
  induction h generalizing b with
  | genesis _ hgenesis => exact absurd (List.mem_singleton.1 hb ▸ hgenesis) hid
  | @append e q rest hrest hnew hq hfollows ih =>
    have hall : Blocks cfg (e :: rest) := .append hrest hnew hq hfollows
    rcases List.mem_cons.1 hb with rfl | hmem
    · have hlast : b.id ≠ b.info.lastBlockInPreviousConsensusEpoch := hall.grounded.head_ne (hall.grounded.2.2 hid)
      -- what the walk finds from the parent on
      have hothers : digestFrom cfg b.info.lastBlockInPreviousConsensusEpoch lo hi rest q.id =
          outputs (inSlots cfg lo hi (epochBlocks cfg (epochOf cfg b) (branch rest q.id))) := by
        rw [hfollows.last]
        by_cases hlt : epochOf cfg q < epochOf cfg b
        · rw [if_pos hlt, digestFrom_last (hrest.clocked hq) hrest.nodup hq, hrest.epochBlocks_later hq hlt]
          rfl
        · have hsame : epochOf cfg q = epochOf cfg b := le_antisymm hfollows.epoch_le (not_lt.1 hlt)
          rw [if_neg hlt, ← hsame]
          by_cases hgenesis : q.id = cfg.sidechainGenesisBlockId
          · rw [hrest.genesis_last hq hgenesis, ← hgenesis, digestFrom_last (hrest.clocked hq) hrest.nodup hq, hgenesis,
              hrest.epochBlocks_genesis]
            rfl
          · exact ih hq hgenesis
      rw [digestFrom, if_neg (not_not.2 rfl), hfollows.clocked.slot]
      by_cases hlow : lo ≤ slotOf cfg b
      · have hown : epochBlocks cfg (epochOf cfg b) (b :: branch rest q.id) = b :: epochBlocks cfg (epochOf cfg b)
            (branch rest q.id) :=
          List.filter_cons_of_pos (decide_eq_true ⟨rfl, hid⟩)
        rw [branch_head, hfollows.parent, hown, outputs_inSlots_cons _ hlow, ← hothers]
        refine Eq.trans (if_pos (And.intro hlast hlow)) ?_
        unfold outputOf
        by_cases hhigh : slotOf cfg b ≤ hi
        · rw [if_pos hhigh, if_pos hhigh]
          cases b.info.vrfOutputOpt <;> rfl
        · rw [if_neg hhigh, if_neg hhigh]
      · rw [hall.inSlots_early hb (not_le.1 hlow)]
        exact if_neg fun hboth => hlow hboth.2
    · have hne := hall.grounded.head_ne (List.mem_map_of_mem hmem)
      rw [digestFrom_cons hne, branch_cons hne]
      exact ih hmem hid

/-! ## The nonce -/

variable {env : Externals} {nonces : ModifierId → Option Bytes} {acc : List (Bytes × ℤ)}

def eligibleSlotsRangeStart (cfg : Config) (epoch : ℤ) : ℤ := (cfg.params.get epoch).consensusSlotsInEpoch.tdiv 3 + 1

def eligibleSlotsRangeEnd (cfg : Config) (epoch : ℤ) : ℤ :=
  (cfg.params.get epoch).consensusSlotsInEpoch - (cfg.params.get epoch).consensusSlotsInEpoch.tdiv 3 - 1

/-- the hash of the outputs, the nonce of the epoch before and the number of the epoch -/
def hashedNonce (cfg : Config) (env : Externals) (epoch : ℤ) (vrfOutputs previousNonce : Bytes) : Bytes :=
  (env.sha256 (vrfOutputs ++ previousNonce ++ toByteArray 4 epoch)).take (nonceLength cfg env epoch)

/-- the blocks whose outputs are in the nonce of the epoch of a block -/
def hashedBlocks (cfg : Config) (entries : List Entry) (b : Entry) : List Entry :=
  inSlots cfg (eligibleSlotsRangeStart cfg (epochOf cfg b)) (eligibleSlotsRangeEnd cfg (epochOf cfg b))
    (epochBlocks cfg (epochOf cfg b) (branch entries b.id))

theorem calculateNonce_eq (h : Blocks cfg entries) (hb : b ∈ entries) (hid : b.id ≠ cfg.sidechainGenesisBlockId)
    (previousNonceOf : ModifierId → Except String Bytes) (acc : List (Bytes × ℤ)) :
    calculateNonceForNonGenesisEpoch cfg env entries previousNonceOf b.id b.info acc = do
      let vrfOutputs ← outputs (hashedBlocks cfg entries b)
      let previousNonce ← previousNonceOf b.info.lastBlockInPreviousConsensusEpoch
      return hashedNonce cfg env (epochOf cfg b)
        (digestOf (eligibleSlotsRangeStart cfg (epochOf cfg b)) (eligibleSlotsRangeEnd cfg (epochOf cfg b)) acc ++ vrfOutputs)
        previousNonce := by
  unfold calculateNonceForNonGenesisEpoch
  rw [(h.clocked hb).epoch]
  simp only [bind, Except.bind, failIf, if_neg hid]
  rw [digestFrom_eq h hb hid]
  rfl

theorem outputs_append (l l' : List Entry) : outputs (l ++ l') = do
    let own ← outputs l
    let others ← outputs l'
    return own ++ others := by
  induction l with
  | nil => rw [List.nil_append, outputs]; cases outputs l' <;> rfl
  | cons e l ih =>
    rw [List.cons_append, outputs, outputs, ih]
    cases outputOf e with
    | error _ => rfl
    | ok output =>
      cases outputs l with
      | error _ => rfl
      | ok own =>
        cases outputs l' with
        | error _ => rfl
        | ok others => exact congrArg Except.ok (List.append_assoc output own others).symm

/-- with outputs in all blocks but that of the genesis there is a nonce -/
theorem outputs_ok {l : List Entry} (h : ∀ e ∈ l, e.info.vrfOutputOpt.isSome) :
    ∃ vrfOutputs, outputs l = .ok vrfOutputs := by
  induction l with
  | nil => exact ⟨[], rfl⟩
  | cons e l ih =>
    obtain ⟨he, hl⟩ := List.forall_mem_cons.1 h
    obtain ⟨vrfOutput, hoe⟩ := Option.isSome_iff_exists.1 he
    obtain ⟨others, ho⟩ := ih hl
    refine ⟨vrfOutput ++ others, ?_⟩
    rw [outputs, outputOf, hoe, ho]
    rfl

theorem mem_branch {c : Entry} (hc : c ∈ branch entries id) : c ∈ entries := by
  induction entries generalizing id with
  | nil => cases hc
  | cons e rest ih =>
    by_cases hne : e.id ≠ id
    · rw [branch_cons hne] at hc
      exact List.mem_cons_of_mem _ (ih hc)
    · rw [branch, if_neg hne] at hc
      rcases List.mem_cons.1 hc with rfl | hc
      · exact List.mem_cons_self
      · exact List.mem_cons_of_mem _ (ih hc)

theorem mem_hashedBlocks {c : Entry} (hc : c ∈ hashedBlocks cfg entries b) :
    c ∈ entries ∧ c.id ≠ cfg.sidechainGenesisBlockId := by
  obtain ⟨hc, -⟩ := List.mem_filter.1 hc
  obtain ⟨hc, hown⟩ := List.mem_filter.1 hc
  exact ⟨mem_branch hc, (of_decide_eq_true hown).2⟩

/-- the recursion over the epochs ends at the genesis block -/
theorem Blocks.trueNonce_ok (h : Blocks cfg entries)
    (houtputs : ∀ e ∈ entries, e.id ≠ cfg.sidechainGenesisBlockId → e.info.vrfOutputOpt.isSome)
    (hid : id ∈ entries.map Entry.id) :
    ∃ nonce, trueNonce cfg env entries id = .ok nonce := by
  induction h generalizing id with
  | @genesis g _ hgenesis =>
    obtain rfl := List.mem_singleton.1 hid
    refine ⟨calculateNonceForGenesisBlock cfg, ?_⟩
    rw [trueNonce, calculateNonceForEpoch, if_neg (not_not.2 rfl), if_pos hgenesis]
  | @append e q rest hrest hnew hq hfollows ih =>
    have hall : Blocks cfg (e :: rest) := .append hrest hnew hq hfollows
    have hgenesis : e.id ≠ cfg.sidechainGenesisBlockId := fun hid => hnew (hid ▸ hrest.genesis_mem)
    have hrest_ok : ∀ id ∈ rest.map Entry.id, ∃ nonce, trueNonce cfg env (e :: rest) id = .ok nonce := by
      intro id hid
      rw [trueNonce_cons (hall.grounded.head_ne hid)]
      exact ih (fun c hc => houtputs c (List.mem_cons_of_mem _ hc)) hid
    rcases List.mem_cons.1 hid with rfl | hmem
    · obtain ⟨previous, hprevious⟩ := hrest_ok _ (hall.grounded.2.2 hgenesis)
      have hblocks : ∀ c ∈ hashedBlocks cfg (e :: rest) e, c.info.vrfOutputOpt.isSome := fun c hc =>
        houtputs c (mem_hashedBlocks hc).1 (mem_hashedBlocks hc).2
      obtain ⟨vrfOutputs, hvrf⟩ := outputs_ok hblocks
      rw [trueNonce, hall.grounded.calculateNonceForEpoch_mem List.mem_cons_self hgenesis,
        calculateNonce_eq hall List.mem_cons_self hgenesis, hvrf]
      have hstored : storedOr (fun _ => none) (calculateNonceForEpoch cfg env (fun _ => none) (e :: rest))
          e.info.lastBlockInPreviousConsensusEpoch = .ok previous := hprevious
      rw [hstored]
      exact ⟨_, rfl⟩
    · exact hrest_ok id hmem

/-! ## Nodes -/

/-- the blocks of a node and its stored nonces -/
structure Node where
  entries : List Entry
  nonces : ModifierId → Option Bytes

inductive Step (cfg : Config) (env : Externals) : Node → Node → Prop
  | append {n : Node} {e : Entry} (h : Blocks cfg (e :: n.entries)) : Step cfg env n ⟨e :: n.entries, n.nonces⟩
  /-- `addNonceConsensusEpochInfo` of a nonce that has been calculated -/
  | store {n : Node} {id : ModifierId} {nonce : Bytes} (h : calculateNonceForEpoch cfg env n.nonces n.entries id = .ok nonce) :
    Step cfg env n ⟨n.entries, Function.update n.nonces id (some nonce)⟩

inductive Reachable (cfg : Config) (env : Externals) : Node → Prop
  | genesis {g : Entry} (h : Blocks cfg [g]) : Reachable cfg env ⟨[g], fun _ => none⟩
  | step {n n' : Node} (h : Reachable cfg env n) (hstep : Step cfg env n n') : Reachable cfg env n'

variable {n : Node}

/-- the stored nonces are those computed from the blocks alone -/
structure Node.Inv (cfg : Config) (env : Externals) (n : Node) : Prop where
  blocks : Blocks cfg n.entries
  nonces_true : ∀ id nonce, n.nonces id = some nonce → trueNonce cfg env n.entries id = .ok nonce

theorem Node.Inv.calculate (h : n.Inv cfg env) (id : ModifierId) :
    calculateNonceForEpoch cfg env n.nonces n.entries id = trueNonce cfg env n.entries id :=
  h.blocks.grounded.calculateNonceForEpoch_eq (fun id _ nonce hnonce => h.nonces_true id nonce hnonce) id

theorem step_inv {n' : Node} (h : n.Inv cfg env) (hstep : Step cfg env n n') : n'.Inv cfg env := by
  cases hstep with
  | append hblocks =>
    refine ⟨hblocks, fun id nonce hnonce => ?_⟩
    have htrue := h.nonces_true id nonce hnonce
    rw [trueNonce_cons (hblocks.grounded.head_ne (trueNonce_mem htrue))]
    exact htrue
  | @store id nonce hcalculated =>
    refine ⟨h.blocks, fun id' nonce' hnonce => ?_⟩
    dsimp only at hnonce ⊢
    by_cases heq : id' = id
    · subst heq
      rw [Function.update_self] at hnonce
      rw [← h.calculate, hcalculated, Option.some.inj hnonce]
    · rw [Function.update_of_ne heq] at hnonce
      exact h.nonces_true id' nonce' hnonce

theorem Reachable.inv (h : Reachable cfg env n) : n.Inv cfg env := by
  induction h with
  | genesis hblocks => exact ⟨hblocks, fun _ _ hnonce => by cases hnonce⟩
  | step _ hstep ih => exact step_inv ih hstep

/-- every history is that of a node without stored nonces -/
theorem Blocks.reachable (h : Blocks cfg entries) : Reachable cfg env ⟨entries, fun _ => none⟩ := by
  induction h with
  | genesis hclocked hid hlast => exact .genesis (.genesis hclocked hid hlast)
  | append hrest hnew hq hfollows ih => exact .step ih (.append (n := ⟨_, _⟩) (.append hrest hnew hq hfollows))

theorem Node.Inv.storedOr_eq (h : n.Inv cfg env) (id : ModifierId) :
    storedOr n.nonces (calculateNonceForEpoch cfg env n.nonces n.entries) id = trueNonce cfg env n.entries id := by
  unfold storedOr
  split
  · next nonce hnonce => exact (h.nonces_true id nonce hnonce).symm
  · exact h.calculate id

/-! ## Ommers -/

/-- blocks on a block, newest first, in its epoch -/
def Continues (cfg : Config) (b : Entry) : List Entry → Prop
  | [] => True
  | e :: rest => Continues cfg b rest ∧ Follows cfg (rest.headD b) e ∧ epochOf cfg e = epochOf cfg b

/-- the history with these blocks -/
theorem Continues.blocks (h : Continues cfg b exts) (hblocks : Blocks cfg entries) (hb : b ∈ entries)
    (hnew : ((exts ++ entries).map Entry.id).Nodup) : Blocks cfg (exts ++ entries) := by
  induction exts with
  | nil => exact hblocks
  | cons e exts ih =>
    rw [List.cons_append, List.map_cons, List.nodup_cons] at hnew
    refine .append (ih h.1 hnew.2) hnew.1 ?_ h.2.1
    cases exts with
    | nil => exact hb
    | cons e' exts => exact List.mem_cons_self

/-- what the newest of them has in common with the block -/
theorem Continues.top (h : Continues cfg b exts) (hb : b ∈ entries) (hnew : ((exts ++ entries).map Entry.id).Nodup) :
    exts.headD b ∈ exts ++ entries ∧ epochOf cfg (exts.headD b) = epochOf cfg b ∧
      (exts.headD b).info.lastBlockInPreviousConsensusEpoch = b.info.lastBlockInPreviousConsensusEpoch ∧
      branch (exts ++ entries) (exts.headD b).id = exts ++ branch entries b.id := by
  induction exts with
  | nil => exact ⟨hb, rfl, rfl, rfl⟩
  | cons e exts ih =>
    rw [List.cons_append, List.map_cons, List.nodup_cons] at hnew
    obtain ⟨-, hepoch, hlast, hbranch⟩ := ih h.1 hnew.2
    obtain ⟨-, hfollows, hsame⟩ := h
    refine ⟨List.mem_cons_self, hsame, ?_, ?_⟩
    · rw [← hlast, List.headD_cons, hfollows.last, if_neg (by omega)]
    · rw [List.headD_cons, List.cons_append, branch_head, hfollows.parent, hbranch, List.cons_append]

theorem Continues.epoch (h : Continues cfg b exts) : ∀ e ∈ exts, epochOf cfg e = epochOf cfg b := by
  induction exts with
  | nil => intro e he; cases he
  | cons e exts ih => exact List.forall_mem_cons.2 ⟨h.2.2, ih h.1⟩

/-- the nonce data of blocks: their outputs and slots -/
def NonceData (cfg : Config) (exts : List Entry) (acc : List (Bytes × ℤ)) : Prop :=
  List.Forall₂ (fun e d => e.info.vrfOutputOpt = some d.1 ∧ slotOf cfg e = d.2) exts acc

theorem NonceData.outputs_eq (h : NonceData cfg exts acc) : outputs (inSlots cfg lo hi exts) = .ok (digestOf lo hi acc) := by
  induction h with
  | nil => rfl
  | @cons e d exts acc hd _ ih =>
    unfold inSlots digestOf at ih ⊢
    by_cases hmiddle : lo ≤ d.2 ∧ d.2 ≤ hi
    · rw [List.filter_cons_of_pos (by simpa [hd.2] using hmiddle), List.filter_cons_of_pos (by simpa using hmiddle), outputs, ih,
        outputOf, hd.1]
      rfl
    · rw [List.filter_cons_of_neg (by simpa [hd.2] using hmiddle), List.filter_cons_of_neg (by simpa using hmiddle), ih]

theorem storedOr_append (hnew : ((exts ++ entries).map Entry.id).Nodup) (hid : id ∈ entries.map Entry.id) :
    storedOr nonces (calculateNonceForEpoch cfg env nonces (exts ++ entries)) id =
      storedOr nonces (calculateNonceForEpoch cfg env nonces entries) id := by
  induction exts with
  | nil => rfl
  | cons e exts ih =>
    rw [List.cons_append, List.map_cons, List.nodup_cons] at hnew
    rw [List.cons_append, storedOr_cons, ih hnew.2]
    rintro rfl
    rw [List.map_append, List.mem_append, not_or] at hnew
    exact hnew.1.2 hid

/-- **Ommers.** Passing the outputs and slots of blocks on the last block gives the nonce of the history with these blocks. -/
theorem nonce_of_ommers (hblocks : Blocks cfg entries) (hb : b ∈ entries) (hid : b.id ≠ cfg.sidechainGenesisBlockId)
    (hcontinues : Continues cfg b exts) (hnew : ((exts ++ entries).map Entry.id).Nodup) (hacc : NonceData cfg exts acc) :
    calculateNonceForNonGenesisEpoch cfg env entries (storedOr nonces (calculateNonceForEpoch cfg env nonces entries)) b.id b.info
      acc =
      calculateNonceForEpoch cfg env nonces (exts ++ entries) (exts.headD b).id := by
  have hall := hcontinues.blocks hblocks hb hnew
  obtain ⟨htop, hepoch, hlast, hbranch⟩ := hcontinues.top hb hnew
  have hgenesis : ∀ e ∈ exts, e.id ≠ cfg.sidechainGenesisBlockId := by
    intro e he heq
    rw [List.map_append, List.nodup_append] at hnew
    exact hnew.2.2 _ (List.mem_map_of_mem he) _ hblocks.genesis_mem heq
  have htop_ne : (exts.headD b).id ≠ cfg.sidechainGenesisBlockId := by
    cases exts with
    | nil => exact hid
    | cons e exts => exact hgenesis e List.mem_cons_self
  have hexts : epochBlocks cfg (epochOf cfg b) exts = exts := by
    refine List.filter_eq_self.2 ?_
    intro e he
    exact decide_eq_true ⟨hcontinues.epoch e he, hgenesis e he⟩
  have hhashed : hashedBlocks cfg (exts ++ entries) (exts.headD b) =
      inSlots cfg (eligibleSlotsRangeStart cfg (epochOf cfg b)) (eligibleSlotsRangeEnd cfg (epochOf cfg b)) exts ++
        hashedBlocks cfg entries b := by
    unfold hashedBlocks
    rw [hbranch, hepoch]
    unfold epochBlocks inSlots at *
    rw [List.filter_append, hexts, List.filter_append]
  rw [hall.grounded.calculateNonceForEpoch_mem htop htop_ne, calculateNonce_eq hall htop htop_ne,
    calculateNonce_eq hblocks hb hid,
    hhashed, outputs_append, hacc.outputs_eq, hlast, storedOr_append hnew (hblocks.last_mem hb), hepoch]
  cases outputs (hashedBlocks cfg entries b) with
  | error _ => rfl
  | ok vrfOutputs => rfl

/-- **Consensus nonces.** For every node, whatever blocks it has and whatever nonces it has calculated and stored, and for the
last block of every epoch after that of the genesis block: the branch of the block is first the blocks of the epoch, newest first,
and then the branch of the last block of the epoch before; the nonce is the hash of the outputs of those blocks of the epoch that
are in the middle slots, of the nonce of the epoch before and of the number of the epoch, and it is found when the blocks have
outputs; with the data of ommers on the block it is the nonce of the history with these ommers as blocks; and it is the same
without any stored nonces. -/
theorem nonce_definition (hn : Reachable cfg env n) (hb : b ∈ n.entries) (hid : b.id ≠ cfg.sidechainGenesisBlockId) :
    let epoch := epochOf cfg b
    let own := epochBlocks cfg epoch (branch n.entries b.id)
    let last := b.info.lastBlockInPreviousConsensusEpoch
    (branch n.entries b.id = own ++ branch n.entries last ∧
        ∀ c ∈ branch n.entries last, epochOf cfg c < epoch ∨ c.id = cfg.sidechainGenesisBlockId) ∧
      (calculateNonceForEpoch cfg env n.nonces n.entries b.id = do
        let vrfOutputs ← outputs (inSlots cfg (eligibleSlotsRangeStart cfg epoch) (eligibleSlotsRangeEnd cfg epoch) own)
        let previousNonce ← calculateNonceForEpoch cfg env n.nonces n.entries last
        return hashedNonce cfg env epoch vrfOutputs previousNonce) ∧
      ((∀ e ∈ n.entries, e.id ≠ cfg.sidechainGenesisBlockId → e.info.vrfOutputOpt.isSome) →
        ∃ nonce, calculateNonceForEpoch cfg env n.nonces n.entries b.id = .ok nonce) ∧
      (∀ ommers acc, Continues cfg b ommers → ((ommers ++ n.entries).map Entry.id).Nodup → NonceData cfg ommers acc →
        calculateNonceForNonGenesisEpoch cfg env n.entries (storedOr n.nonces (calculateNonceForEpoch cfg env n.nonces n.entries))
            b.id b.info acc =
          calculateNonceForEpoch cfg env n.nonces (ommers ++ n.entries) (ommers.headD b).id) ∧
      calculateNonceForEpoch cfg env n.nonces n.entries b.id = calculateNonceForEpoch cfg env (fun _ => none) n.entries b.id := by
  intro epoch own last
  have hinv := hn.inv
  refine ⟨hinv.blocks.branch_split hb hid, ?_, ?_, ?_, hinv.calculate b.id⟩
  · rw [hinv.blocks.grounded.calculateNonceForEpoch_mem hb hid, calculateNonce_eq hinv.blocks hb hid, hinv.storedOr_eq,
      hinv.calculate last]
    rfl
  · intro houtputs
    rw [hinv.calculate]
    exact hinv.blocks.trueNonce_ok houtputs (List.mem_map_of_mem hb)
  · intro ommers acc hcontinues hnew hacc
    exact nonce_of_ommers hinv.blocks hb hid hcontinues hnew hacc

def oneForkConfig : Config where
  params := SlotTimes.defaultParams
  sidechainGenesisBlockTimestamp := 1000000
  sidechainGenesisBlockId := 1
  sidechainGenesisBlockParentId := 0
  forkActivation := 0
  activeSlotCoefficientForks := []

def plainExternals : Externals where
  proofToVrfOutput proof _ _ := some proof
  poseidonHash _ := []
  sha256 bytes := bytes
  stakeInfoHash _ := []
  applyMerklePath _ _ := []
  oneMinusPow _ _ := 0
  FIELD_ELEMENT_LENGTH := 32

def entryAt (id parentId : ModifierId) (timestamp : ℤ) (vrfOutputOpt : Option Bytes) : Entry :=
  ⟨⟨⟨id, parentId, timestamp, ⟨[], [], 0⟩, [], [], none⟩, []⟩, ⟨parentId, timestamp, vrfOutputOpt, 1⟩⟩

/-- the genesis block and two blocks of epoch 2, in slots 1 and 300 -/
def twoBlocks : List Entry := [entryAt 3 2 1003600 (some [5, 6]), entryAt 2 1 1000012 (some [7, 8]), entryAt 1 0 1000000 none]

theorem twoBlocks_blocks : Blocks oneForkConfig twoBlocks := by
  refine .append (q := entryAt 2 1 1000012 (some [7, 8]))
    (.append (q := entryAt 1 0 1000000 none) (.genesis ⟨rfl, rfl⟩ rfl rfl)
    (by decide) List.mem_cons_self ?_) (by decide) List.mem_cons_self ?_
  · exact ⟨⟨rfl, rfl⟩, rfl, by decide, by decide, rfl⟩
  · exact ⟨⟨rfl, rfl⟩, rfl, by decide, by decide, rfl⟩

/-- the output of the block in slot 1 is left out -/
theorem nonce_of_twoBlocks :
    calculateNonceForEpoch oneForkConfig plainExternals (fun _ => none) twoBlocks 3 =
      .ok (hashedNonce oneForkConfig plainExternals 2 [5, 6] (calculateNonceForGenesisBlock oneForkConfig)) := by
  have hreachable : Reachable oneForkConfig plainExternals ⟨twoBlocks, fun _ => none⟩ := twoBlocks_blocks.reachable
  exact (nonce_definition hreachable List.mem_cons_self (by decide)).2.1.trans (by rfl)

end NonceDefinition

end SidechainsSdk.Consensus
