/-
The common point of the sidechain and a mainchain node (`MainchainSynchronizer.getMainchainCommonBlockHashAndHeight`, with
`AbstractHistory.getMainchainHashesLocator` and `getMainchainHashes`).

The sidechain knows the mainchain headers from the creation block on. It asks the node with a locator, ten headers from the
tip and then ever wider gaps down to the creation block. If the node does not know the tip, a second locator lists all the
headers between the first one that the node knows and the one before it in the first locator.

- `getMainchainHashesLocator`, `getMainchainHashes`, `getMainchainCommonBlockHashAndHeight`: the code.
- `exists_boundary`: both are chains of headers, so the headers that the node has in its active chain are an initial part of
  those of the sidechain.
- `find_locator`: the first sample that the node knows, and the sample before it, enclose the end of that part.
- `common_block_highest`: the result is the last header of that part, with its height in the mainchain.

Hashes are not converted to hex and back. Heights are natural numbers, where an index below zero is zero; the creation block
is not the genesis block of the mainchain.
-/
import Mathlib.Tactic
import SidechainsSdk.Core.Locator
import SidechainsSdk.History.ReferenceData

namespace SidechainsSdk.MainchainSynchronizer

open Chain ElementsChain ActiveChain History

inductive SyncException where
  | noSuchElement
  | indexOutOfBounds
  | illegalArgument (message : String)
  | connection
deriving DecidableEq, Repr

/-! ## The code -/

def getMainchainHashesLocator (s : HistoryStorage) : Except SyncException (List MainchainHeaderHash) := do
  let firstMainchainHeaderHeight := s.activeChain.mainchainCreationBlockHeight
  let best ← s.getBestMainchainHeaderInfo.join.elim (.error .noSuchElement) .ok
  let indexes := Locator.indexes firstMainchainHeaderHeight best.height best.height 1 []
  return s.getMainchainHashesForIndexes (indexes ++ [firstMainchainHeaderHeight])

/-- the hashes from `last` to `best`, the oldest first -/
def getMainchainHashes (s : HistoryStorage) (last best : MainchainHeaderHash) :
    Except SyncException (List MainchainHeaderHash) := do
  let bestInfo ← (s.getMainchainHeaderInfoByHash best).elim (.error (.illegalArgument "MainchainHeader hash not found.")) .ok
  let lastInfo ← (s.getMainchainHeaderInfoByHash last).elim (.error (.illegalArgument "MainchainHeader hash not found.")) .ok
  Fallible.failIf (bestInfo.height < lastInfo.height) (.illegalArgument
    "requirement failed: Best hash must lead to the higher MainchainHeader than the last one.")
  return s.getMainchainHashesForIndexes (List.range' lastInfo.height (bestInfo.height + 1 - lastInfo.height))

/-- `getBestCommonPoint` is the answer of the mainchain node to a locator -/
def getMainchainCommonBlockHashAndHeight (s : HistoryStorage)
    (getBestCommonPoint : List MainchainHeaderHash → Except SyncException (ℕ × MainchainHeaderHash)) :
    Except SyncException (ℕ × MainchainHeaderHash) := do
  let locatorHashes ← getMainchainHashesLocator s
  let (commonHeight, commonHash) ← getBestCommonPoint locatorHashes
  let head ← locatorHashes.head?.elim (.error .noSuchElement) .ok
  if commonHash = head then return (commonHeight, commonHash)
  else
    -- there are orphaned headers: look between the samples
    let firstOrphanedMainchainHeaderHash ← match locatorHashes.idxOf? commonHash with
      | some (index + 1) => locatorHashes[index]?.elim (.error .indexOutOfBounds) .ok
      | _ => .error .indexOutOfBounds
    let locator ← getMainchainHashes s commonHash firstOrphanedMainchainHeaderHash
    getBestCommonPoint locator.reverse

/-! ## Two chains of headers -/

section Boundary

variable {parentOf : MainchainHeaderHash → Option MainchainHeaderHash} {known mainchain : List MainchainHeaderHash}

/-- a chain of headers, the oldest first: each header commits to the one before -/
def HeaderChain (parentOf : MainchainHeaderHash → Option MainchainHeaderHash) (hashes : List MainchainHeaderHash) : Prop :=
  hashes.IsChain fun parent hash => parentOf hash = some parent

theorem HeaderChain.parent {hashes : List MainchainHeaderHash} (h : HeaderChain parentOf hashes) {n : ℕ}
    {hash : MainchainHeaderHash} (hn : hashes[n + 1]? = some hash) :
    ∃ parent, hashes[n]? = some parent ∧ parentOf hash = some parent := by
  obtain ⟨hlt, rfl⟩ := List.getElem?_eq_some_iff.1 hn
  exact ⟨hashes[n], List.getElem?_eq_getElem (by omega), List.isChain_iff_getElem.1 h n hlt⟩

/-- the parent of a mainchain header is in the mainchain, unless it has none -/
theorem mem_of_parent (hmainchain : HeaderChain parentOf mainchain) (hgenesis : ∀ g ∈ mainchain.head?, parentOf g = none)
    {hash parent : MainchainHeaderHash} (hhash : hash ∈ mainchain) (hparent : parentOf hash = some parent) :
    parent ∈ mainchain := by
  obtain ⟨n, hn⟩ := List.mem_iff_getElem?.1 hhash
  cases n with
  | zero =>
    rw [← List.head?_eq_getElem?] at hn
    rw [hgenesis hash hn] at hparent
    cases hparent
  | succ n =>
    obtain ⟨parent', hat, hparent'⟩ := hmainchain.parent hn
    rw [hparent'] at hparent
    injection hparent with heq
    exact heq ▸ List.mem_of_getElem? hat

/-- the headers in the mainchain are an initial part of those that are known -/
theorem exists_boundary (hknown : HeaderChain parentOf known) (hmainchain : HeaderChain parentOf mainchain)
    (hgenesis : ∀ g ∈ mainchain.head?, parentOf g = none) {creation : MainchainHeaderHash}
    (hhead : known.head? = some creation) (hcreation : creation ∈ mainchain) :
    ∃ k, k < known.length ∧ ∀ (n : ℕ) hash, known[n]? = some hash → (hash ∈ mainchain ↔ n ≤ k) := by
  classical
  have hlength : 0 < known.length := List.length_pos_of_mem (List.mem_of_mem_head? hhead)
  have hdown : ∀ (n : ℕ) hash, known[n]? = some hash → hash ∈ mainchain → ∀ m ≤ n, ∀ x, known[m]? = some x →
      x ∈ mainchain := by
    intro n
    induction n with
    | zero =>
      intro hash hn hmem m hm x hx
      obtain rfl := Nat.le_zero.1 hm
      rw [hn] at hx
      injection hx with heq
      exact heq ▸ hmem
    | succ n ih =>
      intro hash hn hmem m hm x hx
      obtain ⟨parent, hat, hparent⟩ := hknown.parent hn
      rcases Nat.le_succ_iff.1 hm with hm | rfl
      · exact ih parent hat (mem_of_parent hmainchain hgenesis hmem hparent) m hm x hx
      · rw [hn] at hx
        injection hx with heq
        exact heq ▸ hmem
  let common : ℕ → Prop := fun n => ∃ hash, known[n]? = some hash ∧ hash ∈ mainchain
  have hzero : common 0 := ⟨creation, by rw [← List.head?_eq_getElem?, hhead], hcreation⟩
  have hgreatest : common (Nat.findGreatest common (known.length - 1)) := Nat.findGreatest_spec (Nat.zero_le _) hzero
  refine ⟨Nat.findGreatest common (known.length - 1), ?_, ?_⟩
  · have := Nat.findGreatest_le (P := common) (known.length - 1)
    omega
  · intro n hash hn
    constructor
    · intro hmem
      have hlt := (List.getElem?_eq_some_iff.1 hn).1
      exact Nat.le_findGreatest (by omega) ⟨hash, hn, hmem⟩
    · intro hle
      obtain ⟨top, htop, hmem⟩ := hgreatest
      exact hdown _ top htop hmem n hle hash hn

end Boundary

/-! ## The first locator and the second -/

section Search

variable {known mainchain : List MainchainHeaderHash} {d k : ℕ}
  (hboundary : ∀ (n : ℕ) hash, known[n]? = some hash → (hash ∈ mainchain ↔ n ≤ k))
include hboundary

/-- heights of known headers, read as hashes and searched for one in the mainchain -/
theorem find_hashes {heights : List ℕ} (hrange : ∀ i ∈ heights, d ≤ i ∧ i < d + known.length) :
    (heights.filterMap fun i => known[i - d]?).find? (fun hash => decide (hash ∈ mainchain)) =
      (heights.find? fun i => decide (i ≤ d + k)).bind fun i => known[i - d]? := by
  induction heights with
  | nil => rfl
  | cons i heights ih =>
    have hi := hrange i List.mem_cons_self
    have hat : known[i - d]? = some known[i - d] := List.getElem?_eq_getElem (by omega)
    have hrest := ih fun j hj => hrange j (List.mem_cons_of_mem _ hj)
    have hmem : known[i - d] ∈ mainchain ↔ i ≤ d + k := by
      rw [hboundary _ _ hat]
      omega
    rw [List.filterMap_cons, hat]
    by_cases hle : i ≤ d + k
    · simp [hmem, hle, hat]
    · simp [hmem, hle, hrest]

omit hboundary in
/-- between the samples the last common height is found exactly -/
theorem find_between {j i c : ℕ} (hj : j ≤ c) (hi : c < i) :
    (List.range' j (i + 1 - j)).reverse.find? (fun n => decide (n ≤ c)) = some c := by
  have hsplit : List.range' j (i + 1 - j) = List.range' j (c - j) ++ c :: List.range' (c + 1) (i - c) := by
    have hlength : i + 1 - j = (c - j) + (1 + (i - c)) := by omega
    have hone : c :: List.range' (c + 1) (i - c) = List.range' c (1 + (i - c)) := by
      rw [Nat.add_comm 1, List.range'_succ]
    rw [hone, hlength, ← List.range'_append_1]
    congr 2
    omega
  have habove : ((List.range' (c + 1) (i - c)).reverse.find? fun n => decide (n ≤ c)) = none := by
    rw [List.find?_eq_none]
    intro n hn
    rw [List.mem_reverse, List.mem_range'_1] at hn
    simp only [decide_eq_true_eq]
    omega
  rw [hsplit, List.reverse_append, List.reverse_cons, List.append_assoc, List.find?_append, habove]
  simp

end Search

/-! ## The common point -/

section CommonPoint

variable {p : MainchainHeaderHash} {d : ℕ} {bs : Blocks} {s : HistoryStorage}
  (hwf : WellFormed p bs) (hchain : s.activeChain = ofBlocks p d bs) (hd : 0 < d)
include hwf hchain hd

theorem getMainchainHashesForIndexes_eq {heights : List ℕ} (hheights : ∀ i ∈ heights, d ≤ i) :
    s.getMainchainHashesForIndexes heights = heights.filterMap fun i => (headerHashes bs)[i - d]? := by
  refine List.filterMap_congr ?_
  intro i hi
  have hindex : i = i - d + 1 + (d - 1) := by
    have := hheights i hi
    omega
  rw [hchain]
  conv_lhs => rw [hindex]
  exact mcHashByMcHeight_ofBlocks hwf (i - d)

theorem getMainchainHashesLocator_eq (hne : headerHashes bs ≠ []) :
    ∃ heights : List ℕ, getMainchainHashesLocator s = .ok (heights.filterMap fun i => (headerHashes bs)[i - d]?) ∧
      (∀ i ∈ heights, d ≤ i ∧ i < d + (headerHashes bs).length) ∧ d ∈ heights ∧
      heights.head? = some (d + (headerHashes bs).length - 1) := by
  have hlength : 0 < (headerHashes bs).length := List.length_pos_iff.2 hne
  obtain ⟨hd', hlast⟩ : ∃ hash, (headerHashes bs).getLast? = some hash := ⟨_, List.getLast?_eq_getLast_of_ne_nil hne⟩
  obtain ⟨best, hbest, hheight⟩ := getBestMainchainHeaderInfo_height hwf hchain hlast
  obtain ⟨tail, htail, hrange, hhead⟩ := @Locator.indexes_spec d best.height best.height 1 [] le_rfl Nat.one_pos
  have hall : ∀ i ∈ tail ++ [d], d ≤ i ∧ i < d + (headerHashes bs).length := by
    intro i hi
    rcases List.mem_append.1 hi with hi | hi
    · have := hrange i hi
      omega
    · rw [List.mem_singleton.1 hi]
      omega
  have hfirst : s.activeChain.mainchainCreationBlockHeight = d := by rw [hchain, ofBlocks]
  refine ⟨tail ++ [d], ?_, hall, by simp, ?_⟩
  · rw [← getMainchainHashesForIndexes_eq hwf hchain hd fun i hi => (hall i hi).1]
    rw [getMainchainHashesLocator, hbest, hfirst]
    show Except.ok (s.getMainchainHashesForIndexes (Locator.indexes d best.height best.height 1 [] ++ [d])) = _
    rw [htail, List.nil_append]
  · by_cases hmany : d < best.height
    · rw [List.head?_append_of_ne_nil, hhead hmany]
      · congr 1
        omega
      · intro hnil
        rw [hnil] at hhead
        cases hhead hmany
    · have hnil : tail = [] := by
        refine List.eq_nil_iff_forall_not_mem.2 ?_
        intro i hi
        have := hrange i hi
        omega
      rw [hnil, List.nil_append, List.head?_cons]
      congr 1
      omega

theorem getMainchainHashes_eq {i j : ℕ} {hi hj : MainchainHeaderHash} (hji : j ≤ i) (hdj : d ≤ j)
    (hati : (headerHashes bs)[i - d]? = some hi) (hatj : (headerHashes bs)[j - d]? = some hj) :
    getMainchainHashes s hj hi = .ok ((List.range' j (i + 1 - j)).filterMap fun n => (headerHashes bs)[n - d]?) := by
  obtain ⟨infoi, hinfoi, hheighti⟩ := getMainchainHeaderInfoByHash_height hwf hchain hati
  obtain ⟨infoj, hinfoj, hheightj⟩ := getMainchainHeaderInfoByHash_height hwf hchain hatj
  have hi' : infoi.height = i := by omega
  have hj' : infoj.height = j := by omega
  have hheights : ∀ n ∈ List.range' j (i + 1 - j), d ≤ n := by
    intro n hn
    rw [List.mem_range'_1] at hn
    omega
  rw [getMainchainHashes, hinfoi, hinfoj]
  show (Fallible.failIf (infoi.height < infoj.height) _ >>= fun _ =>
    Except.ok (s.getMainchainHashesForIndexes (List.range' infoj.height (infoi.height + 1 - infoj.height)))) = _
  rw [hi', hj', getMainchainHashesForIndexes_eq hwf hchain hd hheights, Fallible.failIf, if_neg (by omega)]
  rfl

/-- the node answers a locator with the first hash of it that is in its active chain, and the height of that hash -/
def Answers (mainchain : List MainchainHeaderHash)
    (getBestCommonPoint : List MainchainHeaderHash → Except SyncException (ℕ × MainchainHeaderHash)) : Prop :=
  ∀ locator hash, locator.find? (fun x => decide (x ∈ mainchain)) = some hash →
    getBestCommonPoint locator = .ok (mainchain.idxOf hash, hash)

omit hwf hchain hd in
theorem idxOf?_mid {α : Type} [DecidableEq α] {l₁ l₂ : List α} {x : α} (h : x ∉ l₁) :
    (l₁ ++ x :: l₂).idxOf? x = some l₁.length := by
  rw [List.idxOf?_eq_some_iff]
  refine ⟨by simp, by simp, ?_⟩
  intro m hm heq
  rw [List.getElem_append_left hm] at heq
  exact h (heq ▸ List.getElem_mem hm)

omit hwf hchain hd in
theorem common_of_tip {getBestCommonPoint : List MainchainHeaderHash → Except SyncException (ℕ × MainchainHeaderHash)}
    {locator : List MainchainHeaderHash} {height : ℕ} {common : MainchainHeaderHash}
    (hlocator : getMainchainHashesLocator s = .ok locator) (hanswer : getBestCommonPoint locator = .ok (height, common))
    (hhead : locator.head? = some common) :
    getMainchainCommonBlockHashAndHeight s getBestCommonPoint = .ok (height, common) := by
  rw [getMainchainCommonBlockHashAndHeight, hlocator]
  simp [bind, Except.bind, hanswer, hhead, pure, Except.pure]

omit hwf hchain hd in
theorem common_of_orphans {getBestCommonPoint : List MainchainHeaderHash → Except SyncException (ℕ × MainchainHeaderHash)}
    {l₁ l₂ : List MainchainHeaderHash} {height : ℕ} {common orphan : MainchainHeaderHash}
    {hashes : List MainchainHeaderHash} (hlocator : getMainchainHashesLocator s = .ok ((l₁ ++ [orphan]) ++ common :: l₂))
    (hanswer : getBestCommonPoint ((l₁ ++ [orphan]) ++ common :: l₂) = .ok (height, common))
    (hfresh : common ∉ l₁ ++ [orphan]) (hhashes : getMainchainHashes s common orphan = .ok hashes) :
    getMainchainCommonBlockHashAndHeight s getBestCommonPoint = getBestCommonPoint hashes.reverse := by
  obtain ⟨x, hx, hne⟩ : ∃ x, ((l₁ ++ [orphan]) ++ common :: l₂).head? = some x ∧ common ≠ x := by
    refine ⟨(l₁ ++ [orphan]).head (by simp), ?_, ?_⟩
    · rw [List.head?_append_of_ne_nil _ (by simp), List.head?_eq_some_head]
    · intro heq
      exact hfresh (heq ▸ List.head_mem _)
  have hindex : ((l₁ ++ [orphan]) ++ common :: l₂).idxOf? common = some (l₁.length + 1) := by
    rw [idxOf?_mid hfresh, List.length_append, List.length_singleton]
  have hat : ((l₁ ++ [orphan]) ++ common :: l₂)[l₁.length]? = some orphan := by simp
  rw [getMainchainCommonBlockHashAndHeight, hlocator]
  simp only [bind, Except.bind, hanswer, hx, Option.elim, hne, if_false, hindex, hat, hhashes]

/-- **The common point is the highest one.** The headers that the sidechain knows and the active chain of the mainchain node
are chains of headers that share the creation block, and the node answers locators. Then the hash that is returned is in the
mainchain, with its height there, and no later header of the sidechain is. -/
theorem common_block_highest (hne : bs ≠ []) (parentOf : MainchainHeaderHash → Option MainchainHeaderHash)
    (hknown : HeaderChain parentOf (headerHashes bs)) (mainchain : List MainchainHeaderHash)
    (hmainchain : HeaderChain parentOf mainchain) (hgenesis : ∀ g ∈ mainchain.head?, parentOf g = none)
    (hcreation : ∀ c ∈ (headerHashes bs).head?, c ∈ mainchain)
    (getBestCommonPoint : List MainchainHeaderHash → Except SyncException (ℕ × MainchainHeaderHash))
    (hanswers : Answers mainchain getBestCommonPoint) :
    ∃ (n : ℕ) (hash : MainchainHeaderHash), (headerHashes bs)[n]? = some hash ∧ hash ∈ mainchain ∧
      (∀ m > n, ∀ later, (headerHashes bs)[m]? = some later → later ∉ mainchain) ∧
      getMainchainCommonBlockHashAndHeight s getBestCommonPoint = .ok (mainchain.idxOf hash, hash) := by
  have hheaders : headerHashes bs ≠ [] := by
    obtain ⟨hd', rd, hlast, -⟩ := hwf.exists_last hne
    rintro hnil
    rw [hnil] at hlast
    cases hlast
  obtain ⟨creation, hhead⟩ : ∃ creation, (headerHashes bs).head? = some creation :=
    ⟨_, List.head?_eq_some_head hheaders⟩
  obtain ⟨k, hk, hboundary⟩ := exists_boundary hknown hmainchain hgenesis hhead (hcreation creation hhead)
  obtain ⟨top, htop⟩ : ∃ top, (headerHashes bs)[k]? = some top := ⟨_, List.getElem?_eq_getElem hk⟩
  refine ⟨k, top, htop, (hboundary k top htop).2 le_rfl, ?_, ?_⟩
  · intro m hm later hlater hmem
    have := (hboundary m later hlater).1 hmem
    omega
  -- the first answer: the first sample at most as high as the boundary
  obtain ⟨heights, hlocator, hrange, hfirst, hbest⟩ := getMainchainHashesLocator_eq hwf hchain hd hheaders
  have hfind := find_hashes hboundary hrange
  obtain ⟨j, hj⟩ : ∃ j, heights.find? (fun i => decide (i ≤ d + k)) = some j :=
    Option.isSome_iff_exists.1 (List.find?_isSome.2 ⟨d, hfirst, by simp⟩)
  obtain ⟨hjle, before, after, hheights, hbefore⟩ := List.find?_eq_some_iff_append.1 hj
  have hjrange := hrange j (by rw [hheights]; simp)
  obtain ⟨common, hcommon⟩ : ∃ common, (headerHashes bs)[j - d]? = some common :=
    ⟨_, List.getElem?_eq_getElem (by omega)⟩
  rw [hj, Option.bind_some, hcommon] at hfind
  have hanswer := hanswers _ _ hfind
  rcases List.eq_nil_or_concat before with rfl | ⟨before', i, hconcat⟩
  · -- the tip is common
    rw [hheights] at hbest hlocator hanswer
    have hjtop : j = d + (headerHashes bs).length - 1 := by simpa using hbest
    have hjk : j - d = k := by
      have : j ≤ d + k := by simpa using hjle
      omega
    have heq : common = top := by
      rw [hjk, htop] at hcommon
      injection hcommon with hcommon
      exact hcommon.symm
    subst heq
    refine common_of_tip hlocator hanswer ?_
    simp [hcommon]
  · -- the boundary lies between the first common sample and the sample before it
    rw [List.concat_eq_append] at hconcat
    subst hconcat
    have hirange := hrange i (by rw [hheights]; simp)
    have hik : d + k < i := by
      have := hbefore i (by simp)
      simpa using this
    have hjk : j ≤ d + k := by simpa using hjle
    obtain ⟨orphan, horphan⟩ : ∃ orphan, (headerHashes bs)[i - d]? = some orphan :=
      ⟨_, List.getElem?_eq_getElem (by omega)⟩
    have hsplit : heights.filterMap (fun n => (headerHashes bs)[n - d]?) =
        ((before'.filterMap fun n => (headerHashes bs)[n - d]?) ++ [orphan]) ++
          common :: after.filterMap fun n => (headerHashes bs)[n - d]? := by
      rw [hheights]
      simp [hcommon, horphan]
    have hfresh : common ∉ (before'.filterMap fun n => (headerHashes bs)[n - d]?) ++ [orphan] := by
      have hmem : common ∈ mainchain := by simpa using List.find?_some hfind
      intro hin
      have hin' : common ∈ (before' ++ [i]).filterMap fun n => (headerHashes bs)[n - d]? := by
        rw [List.filterMap_append]
        simpa [horphan] using hin
      obtain ⟨n, hn, hat⟩ := List.mem_filterMap.1 hin'
      have hle := (hboundary _ _ hat).1 hmem
      have hnot : ¬ n ≤ d + k := by
        have := hbefore n hn
        simpa using this
      omega
    have hsecond : (((List.range' j (i + 1 - j)).filterMap fun n => (headerHashes bs)[n - d]?).reverse).find?
        (fun x => decide (x ∈ mainchain)) = some top := by
      have hrange' : ∀ n ∈ (List.range' j (i + 1 - j)).reverse, d ≤ n ∧ n < d + (headerHashes bs).length := by
        intro n hn
        rw [List.mem_reverse, List.mem_range'_1] at hn
        omega
      rw [← List.filterMap_reverse, find_hashes hboundary hrange', find_between hjk hik, Option.bind_some,
        Nat.add_sub_cancel_left, htop]
    rw [hsplit] at hlocator hanswer
    rw [common_of_orphans hlocator hanswer hfresh
      (getMainchainHashes_eq hwf hchain hd (by omega) hjrange.1 horphan hcommon)]
    exact hanswers _ _ hsecond

end CommonPoint

/-- the sidechain knows the headers 10, 11, 12 and 13 -/
def sampleBlocks : Blocks :=
  [(1, ⟨1, 1, 0, default, [⟨10, 0⟩], [10]⟩), (2, ⟨2, 2, 1, default, [⟨11, 0⟩, ⟨12, 0⟩, ⟨13, 0⟩], []⟩)]

def sampleStorage : HistoryStorage where
  blocks := fun _ => none
  infos := fun _ => none
  best := none
  activeChain := ofBlocks 5 1 sampleBlocks

/-- the mainchain has left the branch of 12 -/
def sampleMainchain : List MainchainHeaderHash := [5, 10, 11, 22, 23]

def sampleParent (hash : MainchainHeaderHash) : Option MainchainHeaderHash :=
  match hash with
  | 10 => some 5
  | 11 => some 10
  | 12 => some 11
  | 13 => some 12
  | 22 => some 11
  | 23 => some 22
  | _ => none

def sampleNode (locator : List MainchainHeaderHash) : Except SyncException (ℕ × MainchainHeaderHash) :=
  match locator.find? fun x => decide (x ∈ sampleMainchain) with
  | some hash => .ok (sampleMainchain.idxOf hash, hash)
  | none => .error .connection

theorem wellFormed_sampleBlocks : WellFormed 5 sampleBlocks where
  linked := ⟨by decide, by decide, by decide⟩
  nodup := by decide
  parent := by decide
  follows := by
    intro bs hbs
    have hall : ∀ bs ∈ sampleBlocks.inits, DataFollows bs := by decide
    exact hall bs ((List.mem_inits _ _).2 hbs)
  genesis := by decide

theorem common_block_of_fork :
    (∃ (n : ℕ) (hash : MainchainHeaderHash), (headerHashes sampleBlocks)[n]? = some hash ∧ hash ∈ sampleMainchain ∧
      (∀ m > n, ∀ later, (headerHashes sampleBlocks)[m]? = some later → later ∉ sampleMainchain) ∧
      getMainchainCommonBlockHashAndHeight sampleStorage sampleNode = .ok (sampleMainchain.idxOf hash, hash)) ∧
    getMainchainCommonBlockHashAndHeight sampleStorage sampleNode = .ok (2, 11) := by
  refine ⟨common_block_highest wellFormed_sampleBlocks rfl Nat.one_pos (by decide) sampleParent ?_ sampleMainchain ?_
    (by decide) (by decide) sampleNode ?_, by decide +kernel⟩
  · unfold HeaderChain
    decide
  · unfold HeaderChain
    decide
  · intro locator hash hfind
    rw [sampleNode, hfind]

end SidechainsSdk.MainchainSynchronizer
