/-
The difficulty of the mainchain headers in a block (`ProofOfWorkVerifier`).

The target of a header is worked out from the headers before it: the average over a window of targets, scaled by the time that
the window has taken, which is measured between the median times at its two ends. The source collects the window from the
stored blocks, last header first, and takes it along through the headers of the block with a running sum of targets, and
again from the beginning through its ommers, and theirs.

- `checkNextWorkRequired`: the code, with its failing list accesses.
- `requiredBits`, `WorkIn`: the definition: the bits of every header follow from the headers before it on its own chain.
- `Window`: what is taken along is the window of the chain so far and its sum; a header keeps it (`Window.next`).
- `Reaches`, `collect_eq`: what is collected are the last headers of the chain, with the data of the headers before the first
  one that the sidechain has seen.
- `next_work_required`: the check is the definition. No list access fails, and no `Int` overflows.

The difference of the medians less the timespan of a window is an `Int`. It does not overflow when all times are between 0 and
`2 ^ 31` less the timespan.
-/
import Mathlib.Tactic
import SidechainsSdk.Blocks.OmmerForm
import SidechainsSdk.Core.SlidingWindow
import SidechainsSdk.Utils.CompactBits

namespace SidechainsSdk.Blocks.ProofOfWork

open MachineInt SlidingWindow Utils

/-! ## Parameters -/

def nMedianTimeSpan : ℕ := 11

/-- the fields of `NetworkParams` that are read. The products with percentages are `Int`s. -/
structure PowParams where
  powLimit : ℕ
  nPowAveragingWindow : ℕ
  nPowMaxAdjustDown : ℕ
  nPowMaxAdjustUp : ℕ
  nPowTargetSpacing : ℕ
  genesisMainchainBlockHash : Bytes
  /-- times and bits of the mainchain blocks before the genesis one, the oldest first -/
  genesisPoWData : List (ℤ × ℤ)
  powLimit_pos : 0 < powLimit
  powLimit_lt : powLimit < 2 ^ 256
  window_pos : 0 < nPowAveragingWindow
  spacing_pos : 0 < nPowTargetSpacing
  adjustUp_le : nPowMaxAdjustUp ≤ 100
  fits : nPowAveragingWindow * nPowTargetSpacing * (100 + nPowMaxAdjustDown) < 2 ^ 31

namespace PowParams

variable (params : PowParams)

def averagingWindowTimespan : ℤ := params.nPowAveragingWindow * params.nPowTargetSpacing

def MinActualTimespan : ℤ := (params.averagingWindowTimespan * (100 - params.nPowMaxAdjustUp)).tdiv 100

def MaxActualTimespan : ℤ := (params.averagingWindowTimespan * (100 + params.nPowMaxAdjustDown)).tdiv 100

/-- how many headers are needed before one -/
def dataSize : ℕ := params.nPowAveragingWindow + nMedianTimeSpan

theorem timespan_pos : 0 < params.averagingWindowTimespan := by
  have hwindow := params.window_pos
  have hspacing := params.spacing_pos
  unfold averagingWindowTimespan
  positivity

theorem timespan_mul_lt : params.averagingWindowTimespan * (100 + params.nPowMaxAdjustDown) < 2 ^ 31 := by
  have hfits := params.fits
  unfold averagingWindowTimespan
  exact_mod_cast hfits

theorem max_nonneg : 0 ≤ params.MaxActualTimespan :=
  Int.tdiv_nonneg (mul_nonneg params.timespan_pos.le (by omega)) (by norm_num)

theorem min_nonneg : 0 ≤ params.MinActualTimespan := by
  have hup : (params.nPowMaxAdjustUp : ℤ) ≤ 100 := by exact_mod_cast params.adjustUp_le
  exact Int.tdiv_nonneg (mul_nonneg params.timespan_pos.le (by omega)) (by norm_num)

end PowParams

/-! ## The code -/

variable {H : Type} (doubleSHA256 : Bytes → Bytes) (params : PowParams)

/-- `Utils.decodeCompactBits(UnsignedInts.toLong(bits))` -/
def target (bits : ℤ) : ℤ := decodeCompactBits (bits % 2 ^ 32).toNat

def checkProofOfWork (header : MainchainHeader) : Bool :=
  let hashTarget := BigEndian.value (header.hash doubleSHA256)
  0 < target header.bits ∧ target header.bits ≤ params.powLimit ∧ hashTarget ≤ target header.bits

/-- times and bits -/
abbrev TimeBits := ℤ × ℤ

/-- the bounds of `slice` may lie outside; there may be too few times for the access -/
def geMedianTimePast (times : List ℤ) (index : ℕ) : Option ℤ :=
  (((times.take index).drop (index - nMedianTimeSpan)).insertionSort (· ≤ ·))[nMedianTimeSpan / 2]?

def calculateNextWorkRequired (bitsAvg firstBlockTime lastBlockTime : ℤ) : ℤ :=
  let actualTimespan := intOf (lastBlockTime - firstBlockTime)
  -- Limit the adjustment step.
  let actualTimespan := intOf (params.averagingWindowTimespan + (intOf (actualTimespan - params.averagingWindowTimespan)).tdiv 4)
  let actualTimespan := if actualTimespan < params.MinActualTimespan then params.MinActualTimespan else actualTimespan
  let actualTimespan := if actualTimespan > params.MaxActualTimespan then params.MaxActualTimespan else actualTimespan
  let bitsNew := (bitsAvg * actualTimespan).tdiv params.averagingWindowTimespan
  let bitsNew := if bitsNew > params.powLimit then (params.powLimit : ℤ) else bitsNew
  intOf (encodeCompactBits bitsNew).toNat

/-- `OmmersContainerNextWorkRequiredResult` -/
structure NextWorkRequiredResult where
  isValid : Bool
  actualTimeBitsData : List TimeBits
  actualBitsTotal : ℤ

/-- `Math.abs(res - bits) > 1`; the absolute value of the least `Int` is this `Int` -/
def differs (res bits : ℤ) : Bool := 1 < intOf |intOf (res - bits)|

/-- the loop over the headers; `none` where a list access fails -/
def checkHeaders : List MainchainHeader → List TimeBits → ℤ → Option NextWorkRequiredResult
  | [], timeBitsData, bitsTotal => some ⟨true, timeBitsData, bitsTotal⟩
  | header :: headers, timeBitsData, bitsTotal => do
    let timeData := timeBitsData.map Prod.fst
    let bitsAvg := bitsTotal.tdiv params.nPowAveragingWindow
    let first ← geMedianTimePast timeData (timeData.length - params.nPowAveragingWindow)
    let last ← geMedianTimePast timeData timeData.length
    if differs (calculateNextWorkRequired params bitsAvg first last) header.bits then return ⟨false, timeBitsData, bitsTotal⟩
    else
      -- subtract oldest MC block target data and add current one
      let oldest ← timeBitsData[timeBitsData.length - params.nPowAveragingWindow]?
      checkHeaders headers (timeBitsData.tail ++ [(header.time, header.bits)])
        (bitsTotal - target oldest.2 + target header.bits)

mutual

def checkOmmersContainerNextWorkRequired : Ommer H → List TimeBits → ℤ → Option NextWorkRequiredResult
  | ⟨_, _, mainchainHeaders, ommers⟩, initialTimeBitsData, initialBitsTotal => do
    let res ← checkHeaders params mainchainHeaders initialTimeBitsData initialBitsTotal
    if res.isValid then
      let invalid ← checkOmmers ommers initialTimeBitsData initialBitsTotal
      return invalid.getD res
    else return res

/-- check Ommers NextWorkRequired one by one: the result of the first that is not valid -/
def checkOmmers : List (Ommer H) → List TimeBits → ℤ → Option (Option NextWorkRequiredResult)
  | [], _, _ => some none
  | ommer :: ommers, ommersTimeBitsData, ommersBitsTotal => do
    let res ← checkOmmersContainerNextWorkRequired ommer ommersTimeBitsData ommersBitsTotal
    if res.isValid then checkOmmers ommers res.actualTimeBitsData res.actualBitsTotal
    else return some res

end

/-- the stored blocks, with the ids of their parents -/
structure HistoryStorage (H : Type) where
  blockById : Bytes → Option (SidechainBlockBase H)
  parentId : SidechainBlockBase H → Bytes

/-- how the collection of times and bits ends -/
inductive Collected where
  | rejected
  | data (timeBitsData : List TimeBits)

/-- the loop over the genesis data, the newest first -/
def addGenesisData : List TimeBits → List TimeBits → List TimeBits
  | [], timeBitsData => timeBitsData
  | timeBitsTuple :: rest, timeBitsData =>
    if (timeBitsTuple :: timeBitsData).length = params.dataSize then timeBitsTuple :: timeBitsData
    else addGenesisData rest (timeBitsTuple :: timeBitsData)

/-- the loop over the headers of a block, the last one first: enough data, or the first header of the block with what there is -/
def addHeaders : List MainchainHeader → MainchainHeader → List TimeBits → Collected ⊕ (MainchainHeader × List TimeBits)
  | [], currentHeader, timeBitsData => .inr (currentHeader, timeBitsData)
  | header :: rest, currentHeader, timeBitsData =>
    if header.hash doubleSHA256 ≠ currentHeader.hashPrevBlock then .inl .rejected
    else if ((header.time, header.bits) :: timeBitsData).length = params.dataSize then
      .inl (.data ((header.time, header.bits) :: timeBitsData))
    else addHeaders rest header ((header.time, header.bits) :: timeBitsData)

/-- the loop over the blocks; `none` when it has not ended after so many -/
def collect (history : HistoryStorage H) : ℕ → MainchainHeader → Bytes → List TimeBits → Option Collected
  | 0, _, _, _ => none
  | fuel + 1, currentHeader, parentId, timeBitsData =>
    if currentHeader.hash doubleSHA256 = params.genesisMainchainBlockHash then
      some (.data (addGenesisData params params.genesisPoWData.reverse timeBitsData))
    else
      match history.blockById parentId with
      | none => some .rejected
      | some block =>
        match addHeaders doubleSHA256 params block.mainchainHeaders.reverse currentHeader timeBitsData with
        | .inl collected => some collected
        | .inr (header, timeBitsData) => collect history fuel header (history.parentId block) timeBitsData

/-- the block as the container of its headers and ommers -/
def container (block : SidechainBlockBase H) : Ommer H := ⟨block.header, none, block.mainchainHeaders, block.ommers⟩

def checkNextWorkRequired (history : HistoryStorage H) (fuel : ℕ) (block : SidechainBlockBase H) : Option Bool :=
  match block.mainchainHeaders with
  | [] => some true
  | first :: _ => do
    match ← collect doubleSHA256 params history fuel first (history.parentId block) [] with
    | .rejected => return false
    | .data timeBitsData =>
      -- check that we have enough data for next pow verification
      if timeBitsData.length ≠ params.dataSize then return false
      else
        let bitsTotal := ((timeBitsData.drop (timeBitsData.length - params.nPowAveragingWindow)).map fun data =>
            target data.2).sum
        let res ← checkOmmersContainerNextWorkRequired params (container block) timeBitsData bitsTotal
        return res.isValid

/-! ## The definition -/

/-- the time in the middle of these -/
def medianTime (data : List TimeBits) : ℤ := ((data.map Prod.fst).insertionSort (· ≤ ·)).getD (nMedianTimeSpan / 2) 0

/-- the median times before the window and at its end -/
def firstMedian (chain : List TimeBits) : ℤ := medianTime ((chain.rtake params.dataSize).take nMedianTimeSpan)

def lastMedian (chain : List TimeBits) : ℤ := medianTime (chain.rtake nMedianTimeSpan)

/-- the average target of the window -/
def averageTarget (chain : List TimeBits) : ℤ :=
  ((chain.rtake params.nPowAveragingWindow).map fun data => target data.2).sum.tdiv params.nPowAveragingWindow

/-- a quarter of the deviation from the timespan of a window, within the limits -/
def adjustedTimespan (first last : ℤ) : ℤ :=
  min params.MaxActualTimespan
    (max params.MinActualTimespan
      (params.averagingWindowTimespan + (last - first - params.averagingWindowTimespan).tdiv 4))

/-- the target of the header after this chain -/
def requiredTarget (chain : List TimeBits) : ℤ :=
  min params.powLimit ((averageTarget params chain * adjustedTimespan params (firstMedian params chain) (lastMedian chain)).tdiv
    params.averagingWindowTimespan)

def requiredBits (chain : List TimeBits) : ℤ := (encodeCompactBits (requiredTarget params chain)).toNat

def timeBits (header : MainchainHeader) : TimeBits := (header.time, header.bits)

/-- the bits of these headers on this chain differ by at most one from what is required -/
def WorkOfHeaders : List TimeBits → List MainchainHeader → Prop
  | _, [] => True
  | chain, header :: headers => |requiredBits params chain - header.bits| ≤ 1 ∧
      WorkOfHeaders (chain ++ [timeBits header]) headers

mutual

/-- the headers of a container follow the chain; those of its ommers follow it instead, one ommer after the other -/
def WorkIn : List TimeBits → Ommer H → Prop
  | chain, ⟨_, _, mainchainHeaders, ommers⟩ => WorkOfHeaders params chain mainchainHeaders ∧ WorkOfOmmers chain ommers

def WorkOfOmmers : List TimeBits → List (Ommer H) → Prop
  | _, [] => True
  | chain, ommer :: ommers => WorkIn chain ommer ∧ WorkOfOmmers (chain ++ ommer.mainchainHeaders.map timeBits) ommers

end

/-! ## Numbers -/

/-- a time that is not negative and leaves room for the timespan of a window, and bits of a target within the limit -/
structure ValidTimeBits (data : TimeBits) : Prop where
  time_nonneg : 0 ≤ data.1
  time_le : data.1 ≤ 2 ^ 31 - params.averagingWindowTimespan
  isInt : IsInt data.2
  target_pos : 0 < target data.2
  target_le : target data.2 ≤ params.powLimit

variable {params}

/-- bits with the highest bit set are those of a number of more than 127 bytes -/
theorem ValidTimeBits.bits_nonneg {data : TimeBits} (h : ValidTimeBits params data) : 0 ≤ data.2 := by
  by_contra hneg
  obtain ⟨hlow, -⟩ := h.isInt
  have hcompact : (data.2 % 2 ^ 32).toNat < 2 ^ 32 := by omega
  have hlarge : 2 ^ 31 ≤ (data.2 % 2 ^ 32).toNat := by omega
  have hpos := h.target_pos
  have hle := h.target_le
  have hlimit := params.powLimit_lt
  unfold target at hpos hle
  rw [decodeCompactBits_eq hcompact] at hpos hle
  generalize (data.2 % 2 ^ 32).toNat = compact at hcompact hlarge hpos hle
  by_cases hsign : compact % 2 ^ 24 < 2 ^ 23
  · rw [if_pos hsign, one_mul] at hpos hle
    have hmantissa : 0 < compact % 2 ^ 23 := by
      by_contra hzero
      have hzero : compact % 2 ^ 23 = 0 := by omega
      rw [hzero] at hpos
      simp at hpos
    have hsize : 256 ^ 128 ≤ 256 ^ (compact / 2 ^ 24) := Nat.pow_le_pow_right (by norm_num) (by omega)
    have hvalue : 256 ^ 128 / 2 ^ 24 ≤ compact % 2 ^ 23 * 256 ^ (compact / 2 ^ 24) / 2 ^ 24 :=
      Nat.div_le_div_right (hsize.trans (Nat.le_mul_of_pos_left _ hmantissa))
    have hvalue' : compact % 2 ^ 23 * 256 ^ (compact / 2 ^ 24) / 2 ^ 24 ≤ params.powLimit := by exact_mod_cast hle
    have hnumbers : 2 ^ 256 ≤ 256 ^ 128 / 2 ^ 24 := by norm_num
    omega
  · rw [if_neg hsign] at hpos
    have := Int.natCast_nonneg (compact % 2 ^ 23 * 256 ^ (compact / 2 ^ 24) / 2 ^ 24)
    omega

theorem byteLength_of_le {n : ℕ} (h : n ≤ params.powLimit) : byteLength n ≤ 127 := by
  have hsize : Nat.size n ≤ 256 := Nat.size_le.2 (h.trans_lt params.powLimit_lt)
  rw [byteLength_natCast]
  omega

theorem medianTime_mem {data : List TimeBits} (h : nMedianTimeSpan / 2 < data.length) :
    ∃ x ∈ data, x.1 = medianTime data := by
  have hlength : nMedianTimeSpan / 2 < ((data.map Prod.fst).insertionSort (· ≤ ·)).length := by
    rwa [List.length_insertionSort, List.length_map]
  have hmem : medianTime data ∈ (data.map Prod.fst).insertionSort (· ≤ ·) := by
    rw [medianTime, List.getD_eq_getElem?_getD, List.getElem?_eq_getElem hlength]
    exact List.getElem_mem hlength
  rw [List.mem_insertionSort] at hmem
  exact List.mem_map.1 hmem

theorem floor_eq (low x : ℤ) : (if x < low then low else x) = max low x := by
  rw [max_def]
  split_ifs <;> omega

theorem cap_eq (high x : ℤ) : (if x > high then high else x) = min high x := by
  rw [min_def]
  split_ifs <;> omega

theorem encode_lt {t : ℤ} (h : 0 ≤ t) (hle : t ≤ params.powLimit) : (encodeCompactBits t).toNat < 2 ^ 31 := by
  lift t to ℕ using h
  exact encodeCompactBits_lt (byteLength_of_le (by exact_mod_cast hle))

theorem intOf_encode {t : ℤ} (h : 0 ≤ t) (hle : t ≤ params.powLimit) :
    intOf (encodeCompactBits t).toNat = (encodeCompactBits t).toNat := by
  have hlt := encode_lt h hle
  exact intOf_eq ⟨by omega, by omega⟩

/-- the clamped timespan, without overflow -/
theorem calculateNextWorkRequired_eq {bitsAvg first last : ℤ} (havg : 0 ≤ bitsAvg) (hfirst : 0 ≤ first) (hlast : 0 ≤ last)
    (hfirst' : first ≤ 2 ^ 31 - params.averagingWindowTimespan) (hlast' : last ≤ 2 ^ 31 - params.averagingWindowTimespan) :
    calculateNextWorkRequired params bitsAvg first last =
      (encodeCompactBits (min params.powLimit ((bitsAvg * adjustedTimespan params first last).tdiv
        params.averagingWindowTimespan))).toNat := by
  have hT := params.timespan_pos
  have hT' : params.averagingWindowTimespan * 100 ≤ params.averagingWindowTimespan * (100 + params.nPowMaxAdjustDown) :=
    mul_le_mul_of_nonneg_left (by omega) hT.le
  have hfits := params.timespan_mul_lt
  have hspan : intOf (last - first) = last - first := intOf_eq ⟨by omega, by omega⟩
  have hdeviation : intOf (last - first - params.averagingWindowTimespan) = last - first - params.averagingWindowTimespan :=
    intOf_eq ⟨by omega, by omega⟩
  have hquotient := Int.mul_tdiv_add_tmod (last - first - params.averagingWindowTimespan) 4
  have hrest := Int.tmod_lt_of_pos (last - first - params.averagingWindowTimespan) (b := 4) (by norm_num)
  have hrest' := Int.lt_tmod_of_pos (last - first - params.averagingWindowTimespan) (b := 4) (by norm_num)
  have hadjusted : intOf (params.averagingWindowTimespan + (last - first - params.averagingWindowTimespan).tdiv 4) =
      params.averagingWindowTimespan + (last - first - params.averagingWindowTimespan).tdiv 4 :=
    intOf_eq ⟨by omega, by omega⟩
  have hlimits : 0 ≤ params.MinActualTimespan ∧ 0 ≤ params.MaxActualTimespan := ⟨params.min_nonneg, params.max_nonneg⟩
  have htimespan : 0 ≤ adjustedTimespan params first last := by
    unfold adjustedTimespan
    exact le_min hlimits.2 (le_max_of_le_left hlimits.1)
  have htarget : 0 ≤ min (params.powLimit : ℤ)
      ((bitsAvg * adjustedTimespan params first last).tdiv params.averagingWindowTimespan) :=
    le_min (Int.natCast_nonneg _) (Int.tdiv_nonneg (mul_nonneg havg htimespan) hT.le)
  rw [← intOf_encode htarget (min_le_left _ _)]
  unfold calculateNextWorkRequired adjustedTimespan
  simp only [hspan, hdeviation, hadjusted, floor_eq, cap_eq]

/-- an `Int` that is not negative, less another one -/
theorem differs_iff {res bits : ℤ} (hres : 0 ≤ res) (hres' : res < 2 ^ 31) (hbits : 0 ≤ bits) (hbits' : bits < 2 ^ 31) :
    differs res bits = true ↔ ¬ |res - bits| ≤ 1 := by
  have hdifference : intOf (res - bits) = res - bits := intOf_eq ⟨by omega, by omega⟩
  have habs : |res - bits| < 2 ^ 31 := abs_lt.2 ⟨by omega, by omega⟩
  have hnonneg := abs_nonneg (res - bits)
  unfold differs
  rw [hdifference, intOf_eq ⟨by omega, habs⟩, decide_eq_true_eq, not_le]

/-! ## The window -/

/-- what is taken along after the headers of `chain` -/
structure Window (params : PowParams) (chain timeBitsData : List TimeBits) (bitsTotal : ℤ) : Prop where
  length : params.dataSize ≤ chain.length
  data_eq : timeBitsData = chain.rtake params.dataSize
  total_eq : bitsTotal = ((chain.rtake params.nPowAveragingWindow).map fun data => target data.2).sum

section Windows

variable {chain timeBitsData : List TimeBits} {bitsTotal : ℤ}

theorem geMedianTimePast_some {data : List TimeBits} {index : ℕ} (h : index ≤ data.length)
    (hindex : nMedianTimeSpan ≤ index) :
    geMedianTimePast (data.map Prod.fst) index = some (medianTime ((data.take index).drop (index - nMedianTimeSpan))) := by
  have hlength : nMedianTimeSpan / 2 < ((((data.map Prod.fst).take index).drop (index - nMedianTimeSpan)).insertionSort
      (· ≤ ·)).length := by
    rw [List.length_insertionSort, List.length_drop, List.length_take, List.length_map]
    unfold nMedianTimeSpan at hindex ⊢
    omega
  rw [geMedianTimePast, medianTime, List.getD_eq_getElem?_getD, List.map_drop, List.map_take, List.getElem?_eq_getElem hlength]
  rfl

theorem Window.first (h : Window params chain timeBitsData bitsTotal) :
    geMedianTimePast (timeBitsData.map Prod.fst) ((timeBitsData.map Prod.fst).length - params.nPowAveragingWindow) =
      some (firstMedian params chain) := by
  have hlength : timeBitsData.length = params.dataSize := by
    rw [h.data_eq, length_rtake h.length]
  have hindex : (timeBitsData.map Prod.fst).length - params.nPowAveragingWindow = nMedianTimeSpan := by
    rw [List.length_map, hlength, PowParams.dataSize]
    omega
  rw [hindex, geMedianTimePast_some (by rw [hlength, PowParams.dataSize]; omega) le_rfl, Nat.sub_self, List.drop_zero, h.data_eq]
  rfl

theorem Window.last (h : Window params chain timeBitsData bitsTotal) :
    geMedianTimePast (timeBitsData.map Prod.fst) (timeBitsData.map Prod.fst).length = some (lastMedian chain) := by
  have hlength : timeBitsData.length = params.dataSize := by
    rw [h.data_eq, length_rtake h.length]
  have hsize : nMedianTimeSpan ≤ params.dataSize := Nat.le_add_left _ _
  rw [List.length_map, geMedianTimePast_some le_rfl (by rwa [hlength]), List.take_length]
  have hwindow : timeBitsData.drop (timeBitsData.length - nMedianTimeSpan) = chain.rtake nMedianTimeSpan := by
    rw [h.data_eq]
    exact rtake_rtake hsize h.length
  rw [hwindow]
  rfl

theorem Window.oldest (h : Window params chain timeBitsData bitsTotal) :
    ∃ oldest, timeBitsData[timeBitsData.length - params.nPowAveragingWindow]? = some oldest ∧
      (chain.rtake params.nPowAveragingWindow).head? = some oldest := by
  have hsize : params.nPowAveragingWindow ≤ params.dataSize := Nat.le_add_right _ _
  have hlength : timeBitsData.length = params.dataSize := by
    rw [h.data_eq, length_rtake h.length]
  have hget := getElem?_rtake hsize h.length
  rw [← h.data_eq, ← hlength] at hget
  have hne : chain.rtake params.nPowAveragingWindow ≠ [] := by
    intro hnil
    have hzero := length_rtake (hsize.trans h.length)
    rw [hnil] at hzero
    exact params.window_pos.ne hzero
  exact ⟨_, hget.trans (List.head?_eq_some_head hne), List.head?_eq_some_head hne⟩

/-- the window moves on by a header -/
theorem Window.next (h : Window params chain timeBitsData bitsTotal) {oldest : TimeBits}
    (holdest : (chain.rtake params.nPowAveragingWindow).head? = some oldest) (x : TimeBits) :
    Window params (chain ++ [x]) (timeBitsData.tail ++ [x]) (bitsTotal - target oldest.2 + target x.2) := by
  have hsize : params.nPowAveragingWindow ≤ params.dataSize := Nat.le_add_right _ _
  refine ⟨?_, ?_, ?_⟩
  · rw [List.length_append]
    exact h.length.trans (Nat.le_add_right _ _)
  · rw [rtake_concat (params.window_pos.trans_le hsize) h.length, h.data_eq]
  · rw [sum_rtake_concat _ (hsize.trans h.length) holdest, h.total_eq]

theorem averageTarget_nonneg (hvalid : ∀ x ∈ chain, ValidTimeBits params x) : 0 ≤ averageTarget params chain := by
  refine Int.tdiv_nonneg (List.sum_nonneg ?_) (Int.natCast_nonneg _)
  intro y hy
  obtain ⟨x, hx, rfl⟩ := List.mem_map.1 hy
  exact (hvalid x (List.mem_of_mem_drop hx)).target_pos.le

/-- a median of times of the chain -/
theorem medianTime_bounds (hvalid : ∀ x ∈ chain, ValidTimeBits params x) (data : List TimeBits)
    (hdata : ∀ x ∈ data, x ∈ chain) (h : nMedianTimeSpan ≤ data.length) :
    0 ≤ medianTime data ∧ medianTime data ≤ 2 ^ 31 - params.averagingWindowTimespan := by
  have hmiddle : nMedianTimeSpan / 2 < data.length := by
    unfold nMedianTimeSpan at h ⊢
    omega
  obtain ⟨x, hx, heq⟩ := medianTime_mem hmiddle
  rw [← heq]
  exact ⟨(hvalid x (hdata x hx)).time_nonneg, (hvalid x (hdata x hx)).time_le⟩

/-- what the source works out from the window is what the definition asks for -/
theorem Window.calculated (h : Window params chain timeBitsData bitsTotal) (hvalid : ∀ x ∈ chain, ValidTimeBits params x) :
    calculateNextWorkRequired params (bitsTotal.tdiv params.nPowAveragingWindow) (firstMedian params chain) (lastMedian chain) =
      requiredBits params chain := by
  have hsize : nMedianTimeSpan ≤ params.dataSize := Nat.le_add_left _ _
  have hfirst := medianTime_bounds hvalid ((chain.rtake params.dataSize).take nMedianTimeSpan)
    (fun x hx => List.mem_of_mem_drop (List.mem_of_mem_take hx)) (by rw [List.length_take, length_rtake h.length]; omega)
  have hlast := medianTime_bounds hvalid (chain.rtake nMedianTimeSpan) (fun x hx => List.mem_of_mem_drop hx)
    (length_rtake (hsize.trans h.length)).ge
  rw [h.total_eq]
  exact calculateNextWorkRequired_eq (averageTarget_nonneg hvalid) hfirst.1 hlast.1 hfirst.2 hlast.2

theorem requiredBits_bounds (hvalid : ∀ x ∈ chain, ValidTimeBits params x) :
    0 ≤ requiredBits params chain ∧ requiredBits params chain < 2 ^ 31 := by
  have htimespan : 0 ≤ adjustedTimespan params (firstMedian params chain) (lastMedian chain) := by
    unfold adjustedTimespan
    exact le_min params.max_nonneg (le_max_of_le_left params.min_nonneg)
  have htarget : 0 ≤ requiredTarget params chain :=
    le_min (Int.natCast_nonneg _) (Int.tdiv_nonneg (mul_nonneg (averageTarget_nonneg hvalid) htimespan) params.timespan_pos.le)
  have hlt := encode_lt htarget (min_le_left _ _)
  unfold requiredBits
  omega

/-- a header on a window -/
theorem checkHeaders_cons (h : Window params chain timeBitsData bitsTotal) (hvalid : ∀ x ∈ chain, ValidTimeBits params x)
    {oldest : TimeBits} (hget : timeBitsData[timeBitsData.length - params.nPowAveragingWindow]? = some oldest)
    (header : MainchainHeader) (headers : List MainchainHeader) :
    checkHeaders params (header :: headers) timeBitsData bitsTotal =
      if differs (requiredBits params chain) header.bits then some ⟨false, timeBitsData, bitsTotal⟩
      else checkHeaders params headers (timeBitsData.tail ++ [timeBits header])
        (bitsTotal - target oldest.2 + target header.bits) := by
  simp only [checkHeaders, h.first, Option.bind_eq_bind]
  rw [Option.bind_some, h.last, Option.bind_some, h.calculated hvalid, hget, Option.bind_some]
  rfl

theorem valid_concat {header : MainchainHeader} (hvalid : ∀ x ∈ chain, ValidTimeBits params x)
    (hheader : ValidTimeBits params (timeBits header)) : ∀ x ∈ chain ++ [timeBits header], ValidTimeBits params x := by
  intro x hx
  rcases List.mem_append.1 hx with hx | hx
  · exact hvalid x hx
  · rwa [List.mem_singleton.1 hx]

/-- the loop over the headers -/
theorem checkHeaders_eq {headers : List MainchainHeader} (h : Window params chain timeBitsData bitsTotal)
    (hvalid : ∀ x ∈ chain, ValidTimeBits params x)
    (hheaders : ∀ header ∈ headers, ValidTimeBits params (timeBits header)) :
    ∃ res, checkHeaders params headers timeBitsData bitsTotal = some res ∧
      (res.isValid = true ↔ WorkOfHeaders params chain headers) ∧
      (res.isValid = true → Window params (chain ++ headers.map timeBits) res.actualTimeBitsData res.actualBitsTotal) := by
  induction headers generalizing chain timeBitsData bitsTotal with
  | nil =>
    refine ⟨_, rfl, by simp [WorkOfHeaders], ?_⟩
    intro _
    simpa using h
  | cons header headers ih =>
    obtain ⟨hheader, hheaders⟩ := List.forall_mem_cons.1 hheaders
    obtain ⟨oldest, hget, holdest⟩ := h.oldest
    have hdiffers : differs (requiredBits params chain) header.bits = true ↔
        ¬ |requiredBits params chain - header.bits| ≤ 1 :=
      differs_iff (requiredBits_bounds hvalid).1 (requiredBits_bounds hvalid).2 hheader.bits_nonneg hheader.isInt.2
    rw [checkHeaders_cons h hvalid hget]
    by_cases hwork : differs (requiredBits params chain) header.bits
    · rw [if_pos hwork]
      refine ⟨_, rfl, ?_, ?_⟩
      · simp only [WorkOfHeaders, hdiffers.1 hwork, false_and, Bool.false_eq_true]
      · rintro ⟨⟩
    · rw [if_neg hwork]
      have hwithin : |requiredBits params chain - header.bits| ≤ 1 := by
        by_contra hnot
        exact hwork (hdiffers.2 hnot)
      obtain ⟨res, hres, hiff, hwindow⟩ := ih (h.next holdest (timeBits header)) (valid_concat hvalid hheader) hheaders
      refine ⟨res, hres, ?_, ?_⟩
      · rw [hiff, WorkOfHeaders]
        exact ⟨fun hrest => ⟨hwithin, hrest⟩, And.right⟩
      · intro hresValid
        simpa using hwindow hresValid

end Windows

/-! ## Containers -/

mutual

/-- the headers of a container and of all ommers in it -/
def allHeaders : Ommer H → List MainchainHeader
  | ⟨_, _, mainchainHeaders, ommers⟩ => mainchainHeaders ++ allHeadersOf ommers

def allHeadersOf : List (Ommer H) → List MainchainHeader
  | [] => []
  | ommer :: ommers => allHeaders ommer ++ allHeadersOf ommers

end

theorem mainchainHeaders_subset (ommer : Ommer H) : ∀ header ∈ ommer.mainchainHeaders, header ∈ allHeaders ommer := by
  obtain ⟨_, _, mainchainHeaders, ommers⟩ := ommer
  intro header hheader
  rw [allHeaders]
  exact List.mem_append_left _ hheader

theorem valid_append {chain : List TimeBits} {headers : List MainchainHeader} (hvalid : ∀ x ∈ chain, ValidTimeBits params x)
    (hheaders : ∀ header ∈ headers, ValidTimeBits params (timeBits header)) :
    ∀ x ∈ chain ++ headers.map timeBits, ValidTimeBits params x := by
  intro x hx
  rcases List.mem_append.1 hx with hx | hx
  · exact hvalid x hx
  · obtain ⟨header, hheader, rfl⟩ := List.mem_map.1 hx
    exact hheaders header hheader

mutual

/-- a container: its own headers move the window on, its ommers begin with the window that it began with -/
theorem checkContainer_eq : ∀ (ommer : Ommer H) {chain timeBitsData : List TimeBits} {bitsTotal : ℤ},
    Window params chain timeBitsData bitsTotal → (∀ x ∈ chain, ValidTimeBits params x) →
    (∀ header ∈ allHeaders ommer, ValidTimeBits params (timeBits header)) →
    ∃ res, checkOmmersContainerNextWorkRequired params ommer timeBitsData bitsTotal = some res ∧
      (res.isValid = true ↔ WorkIn params chain ommer) ∧
      (res.isValid = true →
        Window params (chain ++ ommer.mainchainHeaders.map timeBits) res.actualTimeBitsData res.actualBitsTotal)
  | ⟨header, root, mainchainHeaders, ommers⟩, chain, timeBitsData, bitsTotal => by
    intro h hvalid hheaders
    rw [allHeaders] at hheaders
    obtain ⟨hown, hothers⟩ := List.forall_mem_append.1 hheaders
    obtain ⟨res, hres, hiff, hwindow⟩ := checkHeaders_eq h hvalid hown
    obtain ⟨invalid, hinvalid, hiff', hinvalid'⟩ := checkOmmers_eq ommers h hvalid hothers
    rw [checkOmmersContainerNextWorkRequired, hres, Option.bind_eq_bind, Option.bind_some]
    by_cases hresValid : res.isValid = true
    · rw [if_pos hresValid, hinvalid, Option.bind_eq_bind, Option.bind_some]
      refine ⟨invalid.getD res, rfl, ?_, ?_⟩
      · rw [WorkIn, ← hiff, ← hiff']
        cases invalid with
        | none => simp [hresValid]
        | some r => simp [hinvalid' r rfl]
      · intro hvalidRes
        cases invalid with
        | none => exact hwindow hresValid
        | some r =>
          rw [Option.getD_some, hinvalid' r rfl] at hvalidRes
          cases hvalidRes
    · rw [if_neg hresValid]
      refine ⟨res, rfl, ?_, fun hvalidRes => absurd hvalidRes hresValid⟩
      rw [WorkIn, ← hiff]
      exact ⟨fun hvalidRes => absurd hvalidRes hresValid, fun hboth => absurd hboth.1 hresValid⟩

theorem checkOmmers_eq : ∀ (ommers : List (Ommer H)) {chain timeBitsData : List TimeBits} {bitsTotal : ℤ},
    Window params chain timeBitsData bitsTotal → (∀ x ∈ chain, ValidTimeBits params x) →
    (∀ header ∈ allHeadersOf ommers, ValidTimeBits params (timeBits header)) →
    ∃ invalid, checkOmmers params ommers timeBitsData bitsTotal = some invalid ∧
      (invalid = none ↔ WorkOfOmmers params chain ommers) ∧ ∀ res, invalid = some res → res.isValid = false
  | [], chain, timeBitsData, bitsTotal => by
    intro _ _ _
    exact ⟨none, by rw [checkOmmers], by simp [WorkOfOmmers], by simp⟩
  | ommer :: ommers, chain, timeBitsData, bitsTotal => by
    intro h hvalid hheaders
    rw [allHeadersOf] at hheaders
    obtain ⟨hown, hothers⟩ := List.forall_mem_append.1 hheaders
    obtain ⟨res, hres, hiff, hwindow⟩ := checkContainer_eq ommer h hvalid hown
    rw [checkOmmers, hres, Option.bind_eq_bind, Option.bind_some]
    by_cases hresValid : res.isValid = true
    · have hvalid' := valid_append hvalid fun header hheader => hown header (mainchainHeaders_subset ommer header hheader)
      obtain ⟨invalid, hinvalid, hiff', hinvalid'⟩ := checkOmmers_eq ommers (hwindow hresValid) hvalid' hothers
      rw [if_pos hresValid, WorkOfOmmers, ← hiff, ← hiff']
      exact ⟨invalid, hinvalid, ⟨fun hnone => ⟨hresValid, hnone⟩, And.right⟩, hinvalid'⟩
    · rw [if_neg hresValid, WorkOfOmmers, ← hiff]
      refine ⟨some res, rfl, ?_, ?_⟩
      · simp [hresValid]
      · rintro _ ⟨⟩
        simpa using hresValid

end

/-! ## The stored headers -/

section Collection

variable {doubleSHA256}

/-- from the last header back: each has the hash that the next one has for its parent -/
def LinkedBack (doubleSHA256 : Bytes → Bytes) : List MainchainHeader → MainchainHeader → Prop
  | [], _ => True
  | header :: rest, next => header.hash doubleSHA256 = next.hashPrevBlock ∧ LinkedBack doubleSHA256 rest header

/-- the first header of a block, where it has headers -/
def oldestOf : List MainchainHeader → MainchainHeader → MainchainHeader
  | [], next => next
  | header :: rest, _ => oldestOf rest header

/-- the blocks from the one with this id back to the one that begins with the genesis mainchain block, the last one first. Their
headers are linked, and the last one is the parent of `next`. -/
inductive Reaches (doubleSHA256 : Bytes → Bytes) (params : PowParams) (history : HistoryStorage H) :
    MainchainHeader → Bytes → List (SidechainBlockBase H) → Prop where
  | genesis (next : MainchainHeader) (id : Bytes) (h : next.hash doubleSHA256 = params.genesisMainchainBlockHash) :
    Reaches doubleSHA256 params history next id []
  | block (next : MainchainHeader) (id : Bytes) (b : SidechainBlockBase H) (blocks : List (SidechainBlockBase H))
    (hnext : next.hash doubleSHA256 ≠ params.genesisMainchainBlockHash) (hstored : history.blockById id = some b)
    (hlinked : LinkedBack doubleSHA256 b.mainchainHeaders.reverse next)
    (hrest : Reaches doubleSHA256 params history (oldestOf b.mainchainHeaders.reverse next) (history.parentId b) blocks) :
    Reaches doubleSHA256 params history next id (b :: blocks)

/-- the headers of these blocks, in their order -/
def historyHeaders : List (SidechainBlockBase H) → List MainchainHeader
  | [] => []
  | b :: blocks => historyHeaders blocks ++ b.mainchainHeaders

/-- times and bits up to the last header of these blocks -/
def powChain (params : PowParams) (blocks : List (SidechainBlockBase H)) : List TimeBits :=
  params.genesisPoWData ++ (historyHeaders blocks).map timeBits

/-- the genesis data, the newest first, until there is enough -/
theorem addGenesisData_eq {newest acc : List TimeBits} (h : acc.length < params.dataSize) :
    addGenesisData params newest acc = (newest.reverse ++ acc).rtake params.dataSize := by
  induction newest generalizing acc with
  | nil => exact (rtake_of_le h.le).symm
  | cons x rest ih =>
    rw [addGenesisData, List.reverse_cons, List.append_assoc, List.singleton_append]
    by_cases hfull : (x :: acc).length = params.dataSize
    · rw [if_pos hfull, rtake_append_of_length hfull]
    · rw [if_neg hfull]
      apply ih
      rw [List.length_cons] at hfull ⊢
      omega

/-- the headers of a block, the last one first, until there is enough -/
theorem addHeaders_eq {newest : List MainchainHeader} {next : MainchainHeader} {acc : List TimeBits}
    (hlinked : LinkedBack doubleSHA256 newest next) (h : acc.length < params.dataSize) :
    addHeaders doubleSHA256 params newest next acc =
      if newest.length + acc.length < params.dataSize then .inr (oldestOf newest next, newest.reverse.map timeBits ++ acc)
      else .inl (.data ((newest.reverse.map timeBits ++ acc).rtake params.dataSize)) := by
  induction newest generalizing next acc with
  | nil =>
    rw [if_pos (by simpa using h)]
    rfl
  | cons header rest ih =>
    obtain ⟨hhash, hrest⟩ := hlinked
    rw [addHeaders, if_neg (not_not.2 hhash), List.reverse_cons, List.map_append, List.append_assoc]
    by_cases hfull : ((header.time, header.bits) :: acc).length = params.dataSize
    · rw [if_pos hfull, if_neg (by simp only [List.length_cons] at hfull ⊢; omega)]
      exact congrArg (fun l => Sum.inl (Collected.data l)) (rtake_append_of_length hfull).symm
    · have hlength : ((header.time, header.bits) :: acc).length < params.dataSize := by
        rw [List.length_cons] at hfull ⊢
        omega
      rw [if_neg hfull, ih hrest hlength]
      refine if_congr ?_ rfl rfl
      simp only [List.length_cons]
      omega

/-- the loop over the blocks collects the last headers -/
theorem collect_eq {history : HistoryStorage H} {next : MainchainHeader} {id : Bytes} {blocks : List (SidechainBlockBase H)}
    (h : Reaches doubleSHA256 params history next id blocks) {acc : List TimeBits} (hacc : acc.length < params.dataSize)
    {fuel : ℕ}
    (hfuel : blocks.length < fuel) :
    collect doubleSHA256 params history fuel next id
      acc = some (.data ((powChain params blocks ++ acc).rtake params.dataSize)) := by
  induction h generalizing acc fuel with
  | genesis next id hgenesis =>
    obtain ⟨fuel, rfl⟩ := Nat.exists_eq_succ_of_ne_zero (Nat.ne_of_gt (Nat.zero_lt_of_lt hfuel))
    rw [collect, if_pos hgenesis, addGenesisData_eq hacc, List.reverse_reverse]
    simp [powChain, historyHeaders]
  | block next id b blocks hnext hstored hlinked hrest ih =>
    obtain ⟨fuel, rfl⟩ := Nat.exists_eq_succ_of_ne_zero (Nat.ne_of_gt (Nat.zero_lt_of_lt hfuel))
    have hchain : powChain params (b :: blocks) ++ acc =
        powChain params blocks ++ (b.mainchainHeaders.reverse.reverse.map timeBits ++ acc) := by
      simp [powChain, historyHeaders]
    rw [collect, if_neg hnext, hstored, hchain]
    simp only [addHeaders_eq hlinked hacc]
    by_cases hmore : b.mainchainHeaders.reverse.length + acc.length < params.dataSize
    · simp only [if_pos hmore]
      apply ih
      · rw [List.length_append, List.length_map, List.length_reverse]
        exact hmore
      · rw [List.length_cons] at hfuel
        omega
    · simp only [if_neg hmore]
      have hlength : params.dataSize ≤ (b.mainchainHeaders.reverse.reverse.map timeBits ++ acc).length := by
        rw [List.length_append, List.length_map, List.length_reverse]
        omega
      -- what comes before is beyond the window
      rw [rtake_append_of_le _ hlength]

/-! ## The check -/

/-- a header with a valid time that has passed `checkProofOfWork` -/
structure ValidHeader (doubleSHA256 : Bytes → Bytes) (params : PowParams) (header : MainchainHeader) : Prop where
  proofOfWork : checkProofOfWork doubleSHA256 params header = true
  time_nonneg : 0 ≤ header.time
  time_le : header.time ≤ 2 ^ 31 - params.averagingWindowTimespan

/-- the bits of a header are an `Int` -/
theorem isInt_bits (header : MainchainHeader) : IsInt header.bits := by
  obtain ⟨version, time, bits, size, -, -, hbits, -, hfields⟩ := create_ok header.created
  have hheader : header.bits = bits := congrArg HeaderFields.bits hfields
  rw [hheader]
  unfold getReversedInt at hbits
  cases hvalue : getReversed 4 header.mainchainHeaderBytes (0 + 104) with
  | error e =>
    rw [hvalue] at hbits
    cases hbits
  | ok value =>
    rw [hvalue] at hbits
    obtain rfl := Except.ok.inj hbits
    exact isInt_intOf _

theorem ValidHeader.timeBits {header : MainchainHeader} (h : ValidHeader doubleSHA256 params header) :
    ValidTimeBits params (timeBits header) := by
  have hwork := h.proofOfWork
  simp only [checkProofOfWork, decide_eq_true_eq] at hwork
  exact ⟨h.time_nonneg, h.time_le, isInt_bits header, hwork.1, hwork.2.1⟩

theorem powChain_valid {blocks : List (SidechainBlockBase H)} (hgenesis : ∀ x ∈ params.genesisPoWData, ValidTimeBits params x)
    (hblocks : ∀ header ∈ historyHeaders blocks, ValidHeader doubleSHA256 params header) :
    ∀ x ∈ powChain params blocks, ValidTimeBits params x :=
  valid_append hgenesis fun header hheader => (hblocks header hheader).timeBits

/-- **Difficulty.** For every history whose stored blocks lead from the parent of a block back to the genesis mainchain block,
with linked headers, and every block with headers, the first of which follows them, and any tree of ommers; with all
headers valid: the check ends without a failing access. It succeeds exactly if there are enough headers before the block and
the bits of every header, in the block and in the ommers, differ by at most one from what the headers before it on its own
chain require. -/
theorem next_work_required {history : HistoryStorage H} {block : SidechainBlockBase H} {first : MainchainHeader}
    {blocks : List (SidechainBlockBase H)} (hfirst : block.mainchainHeaders.head? = some first)
    (hreaches : Reaches doubleSHA256 params history first (history.parentId block) blocks)
    (hgenesis : ∀ x ∈ params.genesisPoWData, ValidTimeBits params x)
    (hblocks : ∀ header ∈ historyHeaders blocks, ValidHeader doubleSHA256 params header)
    (hheaders : ∀ header ∈ allHeaders (container block), ValidHeader doubleSHA256 params header) {fuel : ℕ}
    (hfuel : blocks.length < fuel) :
    ∃ valid, checkNextWorkRequired doubleSHA256 params history fuel block = some valid ∧
      (valid = true ↔ params.dataSize ≤ (powChain params blocks).length ∧ WorkIn params (powChain params blocks)
        (container block)) := by
  have hsize : ([] : List TimeBits).length < params.dataSize := Nat.add_pos_left params.window_pos _
  obtain ⟨rest, hmainchainHeaders⟩ := List.head?_eq_some_iff.1 hfirst
  have hcollect : collect doubleSHA256 params history fuel first (history.parentId block) [] =
      some (.data ((powChain params blocks ++ []).rtake params.dataSize)) := collect_eq hreaches hsize hfuel
  rw [List.append_nil] at hcollect
  unfold checkNextWorkRequired
  simp only [hmainchainHeaders, hcollect, Option.bind_eq_bind]
  rw [Option.bind_some]
  dsimp only
  by_cases henough : params.dataSize ≤ (powChain params blocks).length
  · have hlength := length_rtake henough
    have hwindow : Window params (powChain params blocks) ((powChain params blocks).rtake params.dataSize)
        (((((powChain params blocks).rtake params.dataSize).drop
          (((powChain params blocks).rtake params.dataSize).length - params.nPowAveragingWindow)).map fun data =>
            target data.2).sum) := by
      refine ⟨henough, rfl, ?_⟩
      congr 2
      exact rtake_rtake (Nat.le_add_right _ _) henough
    obtain ⟨res, hres, hiff, -⟩ := checkContainer_eq (container block) hwindow (powChain_valid hgenesis hblocks)
      fun header hheader => (hheaders header hheader).timeBits
    refine ⟨res.isValid, ?_, ?_⟩
    · rw [if_neg (not_not.2 hlength), hres]
      rfl
    · rw [hiff]
      exact ⟨fun hwork => ⟨henough, hwork⟩, And.right⟩
  · have hshort : ((powChain params blocks).rtake params.dataSize).length ≠ params.dataSize := by
      rw [rtake_of_le (by omega)]
      omega
    refine ⟨false, ?_, ?_⟩
    · rw [if_pos hshort]
      rfl
    · simp [henough]

end Collection

/-! ### Two blocks of the regression test network -/

section RegTest

def nextHash : Bytes :=
  [0x98, 0x10, 0xe0, 0x46, 0x8a, 0xbe, 0xb0, 0x64, 0xa9, 0x6e, 0x6b, 0x98, 0x89, 0x85, 0x42, 0xbf, 0xd1, 0x8b, 0x04, 0xad,
   0xe2, 0xb5, 0x8a, 0x81, 0x9d, 0x65, 0x9e, 0x2d, 0xdc, 0x26, 0xc4, 0x07]

def nextBytes : Bytes :=
  [1, 0, 0, 0] ++ genesisHash ++ List.replicate 64 0 ++ [0xfe, 0x10, 0, 0] ++ regTestBits ++ [4] ++ List.replicate 32 0

def nextHeader : MainchainHeader where
  mainchainHeaderBytes := nextBytes
  version := 1
  hashPrevBlock := reverseBytes genesisHash
  hashMerkleRoot := List.replicate 32 0
  hashScTxsCommitment := List.replicate 32 0
  time := 29 * 150
  bits := 0x200f0f0f
  nonce := List.replicate 31 0 ++ [4]
  solution := []
  created := by decide +kernel

/-- no other double SHA-256 is computed -/
def regTestSHA256 (bytes : Bytes) : Bytes :=
  if bytes = genesisBytes then genesisHash else if bytes = nextBytes then nextHash else []

/-- the 28 mainchain blocks before had the spacing that they should have -/
def regTestParams : PowParams where
  powLimit := 0x0f0f0f0f0f0f0f0f0f0f0f0f0f0f0f0f0f0f0f0f0f0f0f0f0f0f0f0f0f0f0f0f
  nPowAveragingWindow := 17
  nPowMaxAdjustDown := 0
  nPowMaxAdjustUp := 0
  nPowTargetSpacing := 150
  genesisMainchainBlockHash := reverseBytes genesisHash
  genesisPoWData := (List.range 28).map fun i => ((i * 150 : ℕ), 0x200f0f0f)
  powLimit_pos := by decide
  powLimit_lt := by decide
  window_pos := by decide
  spacing_pos := by decide
  adjustUp_le := by decide
  fits := by decide

def regTestBlock (mainchainHeaders : List MainchainHeader) : SidechainBlockBase (SidechainBlockHeader sampleLib) where
  simpleName := "SidechainBlock"
  header := sampleHeader 2 (zeros _) (zeros _)
  headerHashes := []
  mainchainHeaders := mainchainHeaders
  ommers := []
  verifyTransactionsDataConsistency := .ok ()

def regTestHistory : HistoryStorage (SidechainBlockHeader sampleLib) where
  blockById := fun id => if id = [1] then some (regTestBlock [genesisHeader]) else none
  parentId := fun block => if block.mainchainHeaders.length = 1 then [1] else [0]

theorem valid_regTest {data : TimeBits} (hlow : 0 ≤ data.1) (hhigh : data.1 ≤ 2 ^ 31 - 2550) (hbits : data.2 = 0x200f0f0f) :
    ValidTimeBits regTestParams data := by
  refine ⟨hlow, hhigh, ?_, ?_, ?_⟩ <;> rw [hbits]
  · exact ⟨by decide, by decide⟩
  · decide +kernel
  · decide +kernel

theorem hash_genesisHeader : genesisHeader.hash regTestSHA256 = reverseBytes genesisHash := by decide +kernel

theorem valid_genesisHeader : ValidHeader regTestSHA256 regTestParams genesisHeader :=
  ⟨by decide +kernel, by decide, by decide⟩

theorem valid_nextHeader : ValidHeader regTestSHA256 regTestParams nextHeader := ⟨by decide +kernel, by decide, by decide⟩

theorem reaches_regTest : Reaches regTestSHA256 regTestParams regTestHistory nextHeader
    (regTestHistory.parentId (regTestBlock [nextHeader])) [regTestBlock [genesisHeader]] :=
  .block _ _ _ _ (by decide +kernel) rfl ⟨hash_genesisHeader, trivial⟩ (.genesis _ _ hash_genesisHeader)

/-- the second block, with the average target of the 17 headers before it -/
theorem next_work_required_regTest :
    checkNextWorkRequired regTestSHA256 regTestParams regTestHistory 2 (regTestBlock [nextHeader]) = some true := by
  have hgenesis : ∀ data ∈ regTestParams.genesisPoWData, ValidTimeBits regTestParams data := by
    intro data hdata
    obtain ⟨i, hi, rfl⟩ := List.mem_map.1 hdata
    rw [List.mem_range] at hi
    apply valid_regTest <;> dsimp only <;> omega
  have hcheck : ∃ valid, checkNextWorkRequired regTestSHA256 regTestParams regTestHistory 2
      (regTestBlock [nextHeader]) = some valid ∧
      (valid = true ↔ regTestParams.dataSize ≤ (powChain regTestParams [regTestBlock [genesisHeader]]).length ∧
        WorkIn regTestParams (powChain regTestParams [regTestBlock [genesisHeader]]) (container (regTestBlock [nextHeader]))) :=
    next_work_required rfl reaches_regTest hgenesis (List.forall_mem_singleton.2 valid_genesisHeader)
      (List.forall_mem_singleton.2 valid_nextHeader) (by decide)
  obtain ⟨valid, hcheck, hvalid⟩ := hcheck
  have hwork : |requiredBits regTestParams (powChain regTestParams [regTestBlock [genesisHeader]]) - nextHeader.bits| ≤ 1 := by
    decide +kernel
  rw [hcheck, hvalid.2 ⟨by decide, ⟨hwork, trivial⟩, trivial⟩]

end RegTest

end SidechainsSdk.Blocks.ProofOfWork
