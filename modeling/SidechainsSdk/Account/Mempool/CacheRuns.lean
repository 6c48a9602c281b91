/-
Sequences of calls to the cache of the account mempool (`TxCache`).

- `Cached`: the cached transactions with their statuses, in the order of their insertion. `Cached.step` is what a call does
  to them; an id is added only while it is not cached (`Along Fresh`).
- `InOrder`: what the links, the pointers and the counters of a cache say of its entries.
- `run_repr`: after any calls the list is the one of `Cached`. `promoteTransaction` and `demoteTransaction` count the size
  of a transaction whatever its status was, so the counter of non-executable slots has a `drift`: it is zero when only
  non-executable transactions are promoted and only executable ones demoted (`Along Switches`), as the pool does.
- `drain_repr`: the iterator over the non-executable transactions, whose user removes returned ones as it likes.
-/
import Mathlib.Tactic
import SidechainsSdk.Account.Mempool.TxCache

namespace SidechainsSdk.Account.Mempool.CacheRuns

open LinkedList TxCache AccountTransaction

variable {Tx : Type} [AccountTransaction Tx]

/-! ## Calls -/

inductive CacheOp (Tx : Type) where
  | add (tx : Tx) (execStatus : TxExecutableStatus)
  | remove (txId : ModifierId)
  | promoteTransaction (txId : ModifierId)
  | demoteTransaction (txId : ModifierId)

/-- a call; a promotion that throws has not changed the cache -/
def apply (time : Time) (c : TxCache Tx) : CacheOp Tx → Except MempoolException (TxCache Tx)
  | .add tx execStatus => c.add time tx execStatus
  | .remove txId => .ok (c.remove txId).2
  | .promoteTransaction txId => match c.promoteTransaction txId with
    | .ok (_, c') => .ok c'
    | .error _ => .ok c
  | .demoteTransaction txId => .ok (c.demoteTransaction txId)

def run (time : Time) : TxCache Tx → List (CacheOp Tx) → Except MempoolException (TxCache Tx)
  | c, [] => .ok c
  | c, op :: ops => match apply time c op with
    | .ok c' => run time c' ops
    | .error e => .error e

/-! ## What the calls are for -/

/-- the cached transactions and their statuses, by insertion -/
abbrev Cached (Tx : Type) := List (Tx × TxExecutableStatus)

namespace Cached

def setStatus (txId : ModifierId) (status : TxExecutableStatus) (l : Cached Tx) : Cached Tx :=
  l.map fun x => if idOf x.1 = txId then (x.1, status) else x

def step (l : Cached Tx) : CacheOp Tx → Cached Tx
  | .add tx execStatus => l ++ [(tx, execStatus)]
  | .remove txId => l.filter fun x => idOf x.1 ≠ txId
  | .promoteTransaction txId => l.setStatus txId .EXEC
  | .demoteTransaction txId => l.setStatus txId .NON_EXEC

/-- what holds of every call and the transactions cached before it -/
def Along (P : Cached Tx → CacheOp Tx → Prop) : Cached Tx → List (CacheOp Tx) → Prop
  | _, [] => True
  | l, op :: ops => P l op ∧ Along P (l.step op) ops

/-- an id is not added while it is cached -/
def Fresh (l : Cached Tx) : CacheOp Tx → Prop
  | .add tx _ => ∀ x ∈ l, idOf x.1 ≠ idOf tx
  | _ => True

/-- a promotion is of a non-executable transaction, a demotion of an executable one -/
def Switches (l : Cached Tx) : CacheOp Tx → Prop
  | .promoteTransaction txId => ∀ x ∈ l, idOf x.1 = txId → x.2 = .NON_EXEC
  | .demoteTransaction txId => ∀ x ∈ l, idOf x.1 = txId → x.2 = .EXEC
  | _ => True

/-- the slots of the transactions with an id and a status -/
def slotsOf (txId : ModifierId) (status : TxExecutableStatus) (l : Cached Tx) : ℤ :=
  ((l.filter fun x => idOf x.1 = txId ∧ x.2 = status).map fun x => txSizeInSlot x.1).sum

/-- what a call adds to the counter of non-executable slots beyond what it adds to the non-executable transactions -/
def drift (l : Cached Tx) : CacheOp Tx → ℤ
  | .promoteTransaction txId => - l.slotsOf txId .EXEC
  | .demoteTransaction txId => l.slotsOf txId .NON_EXEC
  | _ => 0

def runDrift : Cached Tx → List (CacheOp Tx) → ℤ
  | _, [] => 0
  | l, op :: ops => l.drift op + runDrift (l.step op) ops

theorem drift_eq_zero {l : Cached Tx} {op : CacheOp Tx} (h : Switches l op) : l.drift op = 0 := by
  have hnone : ∀ txId status, (∀ x ∈ l, idOf x.1 = txId → x.2 ≠ status) → l.slotsOf txId status = 0 := by
    intro txId status hl
    have hfilter : l.filter (fun x => idOf x.1 = txId ∧ x.2 = status) = [] := by
      refine List.filter_eq_nil_iff.2 ?_
      intro x hx
      simpa using hl x hx
    rw [slotsOf, hfilter]
    rfl
  cases op with
  | add tx execStatus => rfl
  | remove txId => rfl
  | promoteTransaction txId =>
    rw [drift, hnone txId .EXEC fun x hx hid => by simp [h x hx hid], neg_zero]
  | demoteTransaction txId =>
    rw [drift, hnone txId .NON_EXEC fun x hx hid => by simp [h x hx hid]]

theorem runDrift_eq_zero {l : Cached Tx} {ops : List (CacheOp Tx)} (h : Along Switches l ops) : runDrift l ops = 0 := by
  induction ops generalizing l with
  | nil => rfl
  | cons op ops ih => rw [runDrift, drift_eq_zero h.1, ih h.2, add_zero]

end Cached

/-! ## One call -/

/-- an entry without its deadline -/
def view (e : TxInfo Tx) : Tx × TxExecutableStatus := (e.tx, e.executableStatus)

/-- a cache with another counter of non-executable slots -/
def offset (d : ℤ) (c : TxCache Tx) : TxCache Tx := { c with nonExecSizeInSlots := c.nonExecSizeInSlots - d }

/-- the cache holds the entries `es`, with a counter of non-executable slots that is too large by `d` -/
def ReprOff (d : ℤ) (c : TxCache Tx) (es : List (TxInfo Tx)) : Prop := Repr (offset d c) es

theorem view_withoutId (txId : ModifierId) (es : List (TxInfo Tx)) :
    (withoutId txId es).map view = (es.map view).filter fun x => idOf x.1 ≠ txId := by
  rw [List.filter_map]
  rfl

theorem view_setStatus (txId : ModifierId) (status : TxExecutableStatus) (es : List (TxInfo Tx)) :
    (TxCache.setStatus txId status es).map view = Cached.setStatus txId status (es.map view) := by
  rw [TxCache.setStatus, Cached.setStatus, List.map_map, List.map_map]
  refine List.map_congr_left ?_
  intro e _
  by_cases he : idOf e.tx = txId
  · simp [view, he]
  · simp [view, he]

/-- of the entries with an id there is only the one -/
theorem slotsOf_split {l₁ l₂ : List (TxInfo Tx)} {e : TxInfo Tx} (h₁ : ∀ x ∈ l₁, idOf x.tx ≠ idOf e.tx)
    (h₂ : ∀ x ∈ l₂, idOf x.tx ≠ idOf e.tx) (status : TxExecutableStatus) :
    Cached.slotsOf (idOf e.tx) status ((l₁ ++ e :: l₂).map view) =
      if e.executableStatus = status then txSizeInSlot e.tx else 0 := by
  have hnone : ∀ l : List (TxInfo Tx), (∀ x ∈ l, idOf x.tx ≠ idOf e.tx) →
      (l.map view).filter (fun x => idOf x.1 = idOf e.tx ∧ x.2 = status) = [] := by
    intro l hl
    refine List.filter_eq_nil_iff.2 ?_
    intro x hx
    obtain ⟨y, hy, rfl⟩ := List.mem_map.1 hx
    simp [view, hl y hy]
  rw [Cached.slotsOf, List.map_append, List.filter_append, List.map_cons, hnone l₁ h₁, List.nil_append, List.filter_cons,
    hnone l₂ h₂]
  by_cases he : e.executableStatus = status
  · simp [view, he]
  · simp [view, he]

theorem slotsOf_absent {txId : ModifierId} {es : List (TxInfo Tx)} (h : ∀ e ∈ es, idOf e.tx ≠ txId)
    (status : TxExecutableStatus) : Cached.slotsOf txId status (es.map view) = 0 := by
  have hfilter : (es.map view).filter (fun x => idOf x.1 = txId ∧ x.2 = status) = [] := by
    refine List.filter_eq_nil_iff.2 ?_
    intro x hx
    obtain ⟨e, he, rfl⟩ := List.mem_map.1 hx
    simp [view, h e he]
  rw [Cached.slotsOf, hfilter]
  rfl

theorem setStatus_absent {txId : ModifierId} {es : List (TxInfo Tx)} (h : ∀ e ∈ es, idOf e.tx ≠ txId)
    (status : TxExecutableStatus) : TxCache.setStatus txId status es = es := by
  rw [TxCache.setStatus]
  conv_rhs => rw [← List.map_id es]
  refine List.map_congr_left ?_
  intro e he
  exact if_neg (h e he)

theorem add_offset (d : ℤ) (c : TxCache Tx) (time : Time) (tx : Tx) (status : TxExecutableStatus) :
    (offset d c).add time tx status = (c.add time tx status).map (offset d) := by
  unfold TxCache.add
  by_cases hs : status = .NON_EXEC <;> by_cases hold : c.oldestTx = none <;> cases hyoung : c.youngestTx <;>
    simp [offset, hs, hold, hyoung, Except.map, sub_add_eq_add_sub]

theorem remove_offset (d : ℤ) (c : TxCache Tx) (txId : ModifierId) :
    ((offset d c).remove txId).2 = offset d (c.remove txId).2 := by
  unfold TxCache.remove
  cases hinfo : c.all.lookup txId with
  | none =>
    have hinfo' : (offset d c).all.lookup txId = none := hinfo
    simp only [hinfo']
  | some info =>
    have hinfo' : (offset d c).all.lookup txId = some info := hinfo
    simp only [hinfo']
    cases info.older <;> cases info.younger <;> by_cases hs : info.value.executableStatus = .NON_EXEC <;>
      simp [offset, hs, sub_right_comm]

section Step

variable {d : ℤ} {c : TxCache Tx} {es : List (TxInfo Tx)} (h : ReprOff d c es)

include h

theorem ReprOff.add (time : Time) (tx : Tx) (status : TxExecutableStatus) (hfresh : ∀ e ∈ es, idOf e.tx ≠ idOf tx) :
    ∃ c' deadline, c.add time tx status = .ok c' ∧ ReprOff d c' (es ++ [⟨tx, status, deadline⟩]) := by
  obtain ⟨c₁, deadline, hadd, hrepr⟩ := Repr.add h time tx status hfresh
  rw [add_offset] at hadd
  cases hc : c.add time tx status with
  | error e =>
    rw [hc] at hadd
    cases hadd
  | ok c' =>
    rw [hc] at hadd
    injection hadd with hadd
    exact ⟨c', deadline, rfl, show Repr (offset d c') _ from hadd ▸ hrepr⟩

theorem ReprOff.remove {e : TxInfo Tx} (he : e ∈ es) :
    ReprOff d (c.remove (idOf e.tx)).2 (withoutId (idOf e.tx) es) := by
  obtain ⟨c₁, hremove, hrepr⟩ := Repr.remove h he
  have hsnd : offset d (c.remove (idOf e.tx)).2 = c₁ := by rw [← remove_offset, hremove]
  exact show Repr (offset d _) _ from hsnd ▸ hrepr

theorem ReprOff.promoteTransaction {e : TxInfo Tx} (he : e ∈ es) :
    ∃ c', c.promoteTransaction (idOf e.tx) = .ok (e.tx, c') ∧
      ReprOff (d + Cached.drift (es.map view) (.promoteTransaction (idOf e.tx))) c'
        (TxCache.setStatus (idOf e.tx) .EXEC es) := by
  obtain ⟨info, hinfo, rfl⟩ := Repr.lookup_of_mem h he
  have hinfo' : c.all.lookup (idOf info.value.tx) = some info := hinfo
  simp only [TxCache.promoteTransaction, hinfo']
  refine ⟨_, rfl, Repr.setStatus h .EXEC ?_⟩
  have hsize : c.nonExecSizeInSlots - d = nonExecSlots es := h.nonExecSize
  obtain ⟨l₁, l₂, rfl, h₁, h₂⟩ := split_of_mem h.nodup he
  rw [setStatus_split h₁ h₂, Cached.drift, slotsOf_split h₁ h₂]
  rw [nonExecSlots_append, nonExecSlots_cons] at hsize ⊢
  cases hstatus : info.value.executableStatus with
  | EXEC =>
    simp only [hstatus, reduceCtorEq, if_false, if_true] at hsize ⊢
    linarith
  | NON_EXEC =>
    simp only [hstatus, reduceCtorEq, if_false, if_true] at hsize ⊢
    linarith

theorem ReprOff.demoteTransaction {e : TxInfo Tx} (he : e ∈ es) :
    ReprOff (d + Cached.drift (es.map view) (.demoteTransaction (idOf e.tx))) (c.demoteTransaction (idOf e.tx))
      (TxCache.setStatus (idOf e.tx) .NON_EXEC es) := by
  obtain ⟨info, hinfo, rfl⟩ := Repr.lookup_of_mem h he
  have hinfo' : c.all.lookup (idOf info.value.tx) = some info := hinfo
  simp only [TxCache.demoteTransaction, hinfo']
  refine Repr.setStatus h .NON_EXEC ?_
  have hsize : c.nonExecSizeInSlots - d = nonExecSlots es := h.nonExecSize
  obtain ⟨l₁, l₂, rfl, h₁, h₂⟩ := split_of_mem h.nodup he
  rw [setStatus_split h₁ h₂, Cached.drift, slotsOf_split h₁ h₂]
  rw [nonExecSlots_append, nonExecSlots_cons] at hsize ⊢
  cases hstatus : info.value.executableStatus with
  | EXEC =>
    simp only [hstatus, reduceCtorEq, if_false, if_true] at hsize ⊢
    linarith
  | NON_EXEC =>
    simp only [hstatus, if_true] at hsize ⊢
    linarith

/-- **One call** does to the entries what `Cached.step` says. -/
theorem ReprOff.apply (time : Time) (op : CacheOp Tx) (hfresh : Cached.Fresh (es.map view) op) :
    ∃ c' es', apply time c op = .ok c' ∧ ReprOff (d + Cached.drift (es.map view) op) c' es' ∧
      es'.map view = Cached.step (es.map view) op := by
  -- a call with an id that is not cached changes nothing
  have habsent : ∀ txId, (∀ e ∈ es, idOf e.tx ≠ txId) → c.all.lookup txId = none := fun txId => Repr.lookup_none h
  cases op with
  | add tx execStatus =>
    obtain ⟨c', deadline, hadd, hrepr⟩ := h.add time tx execStatus fun e he => hfresh (view e) (List.mem_map_of_mem he)
    refine ⟨c', es ++ [⟨tx, execStatus, deadline⟩], hadd, ?_, ?_⟩
    · show ReprOff (d + 0) _ _
      rw [add_zero]
      exact hrepr
    · rw [List.map_append]
      rfl
  | remove txId =>
    refine ⟨_, withoutId txId es, rfl, ?_, view_withoutId txId es⟩
    show ReprOff (d + 0) _ _
    rw [add_zero]
    by_cases hid : ∃ e ∈ es, idOf e.tx = txId
    · obtain ⟨e, he, rfl⟩ := hid
      exact h.remove he
    · push Not at hid
      have hself : withoutId txId es = es := List.filter_eq_self.2 (by simpa using hid)
      rw [hself, TxCache.remove, habsent txId hid]
      exact h
  | promoteTransaction txId =>
    by_cases hid : ∃ e ∈ es, idOf e.tx = txId
    · obtain ⟨e, he, rfl⟩ := hid
      obtain ⟨c', hpromote, hrepr⟩ := h.promoteTransaction he
      refine ⟨c', _, ?_, hrepr, view_setStatus _ _ es⟩
      simp only [CacheRuns.apply, hpromote]
    · push Not at hid
      refine ⟨c, _, ?_, ?_, view_setStatus _ _ es⟩
      · simp only [CacheRuns.apply, TxCache.promoteTransaction, habsent txId hid]
      · rw [Cached.drift, slotsOf_absent hid, neg_zero, add_zero, setStatus_absent hid]
        exact h
  | demoteTransaction txId =>
    refine ⟨_, _, rfl, ?_, view_setStatus _ _ es⟩
    by_cases hid : ∃ e ∈ es, idOf e.tx = txId
    · obtain ⟨e, he, rfl⟩ := hid
      exact h.demoteTransaction he
    · push Not at hid
      rw [Cached.drift, slotsOf_absent hid, add_zero, setStatus_absent hid, TxCache.demoteTransaction, habsent txId hid]
      exact h

end Step

/-- **Any calls.** -/
theorem run_repr (time : Time) (ops : List (CacheOp Tx)) {d : ℤ} {c : TxCache Tx} {es : List (TxInfo Tx)}
    (h : ReprOff d c es) (hfresh : Cached.Along Cached.Fresh (es.map view) ops) :
    ∃ c' es', run time c ops = .ok c' ∧ ReprOff (d + Cached.runDrift (es.map view) ops) c' es' ∧
      es'.map view = ops.foldl Cached.step (es.map view) := by
  induction ops generalizing d c es with
  | nil =>
    refine ⟨c, es, rfl, ?_, rfl⟩
    rw [Cached.runDrift, add_zero]
    exact h
  | cons op ops ih =>
    obtain ⟨c₁, es₁, happly, hrepr₁, hview₁⟩ := h.apply time op hfresh.1
    obtain ⟨c', es', hrun, hrepr, hview⟩ := ih hrepr₁ (hview₁ ▸ hfresh.2)
    refine ⟨c', es', ?_, ?_, ?_⟩
    · rw [run, happly]
      exact hrun
    · rw [hview₁, add_assoc] at hrepr
      exact hrepr
    · rw [hview, hview₁]
      rfl

/-! ## What the links and the pointers say -/

/-- the list runs through exactly the cached entries, in this order in both directions -/
structure InOrder (c : TxCache Tx) (es : List (TxInfo Tx)) : Prop where
  ids : (es.map fun e => idOf e.tx).Nodup
  entries : c.infos.Perm es
  oldest : c.oldestTx = es.head?.map fun e => idOf e.tx
  youngest : c.youngestTx = es.getLast?.map fun e => idOf e.tx
  links : ∀ l₁ e l₂, es = l₁ ++ e :: l₂ → c.all.lookup (idOf e.tx) =
    some ⟨e, l₂.head?.map fun e => idOf e.tx, l₁.getLast?.map fun e => idOf e.tx⟩
  agree : ∀ x y infoX infoY, c.all.lookup x = some infoX → c.all.lookup y = some infoY →
    (infoX.younger = some y ↔ infoY.older = some x)
  size : c.sizeInSlots = slots es

theorem headKey_listed (es : List (TxInfo Tx)) : headKey (listed es) none = es.head?.map fun e => idOf e.tx := by
  cases es <;> rfl

theorem lastKey_listed (es : List (TxInfo Tx)) : lastKey none (listed es) = es.getLast?.map fun e => idOf e.tx := by
  induction es using List.reverseRecOn with
  | nil => rfl
  | append_singleton es e _ =>
    rw [listed_append, lastKey_append, List.getLast?_concat]
    rfl

/-- in a list of entries the successor of `x` is `y` just if the predecessor of `y` is `x` -/
theorem next_iff_previous {es l₁ l₂ r₁ r₂ : List (TxInfo Tx)} {x y : TxInfo Tx}
    (hnodup : (es.map fun e => idOf e.tx).Nodup) (hx : es = l₁ ++ x :: l₂) (hy : es = r₁ ++ y :: r₂) :
    (l₂.head?.map fun e => idOf e.tx) = some (idOf y.tx) ↔ (r₁.getLast?.map fun e => idOf e.tx) = some (idOf x.tx) := by
  have hes : es.Nodup := List.Nodup.of_map _ hnodup
  have hmemX : x ∈ es := by simp [hx]
  have hmemY : y ∈ es := by simp [hy]
  -- an entry stands at one place only
  have hplace : ∀ {a b a' b' : List (TxInfo Tx)} {z : TxInfo Tx}, es = a ++ z :: b → es = a' ++ z :: b' →
      a = a' ∧ b = b' := by
    intro a b a' b' z h h'
    have hnot := List.nodup_middle.1 (h ▸ hes)
    rw [List.nodup_cons, List.mem_append, not_or] at hnot
    obtain ⟨ha, -, hb⟩ := (List.append_cons_inj_of_notMem hnot.1.1 hnot.1.2).1 (h.symm.trans h')
    exact ⟨ha, hb⟩
  constructor
  · intro hnext
    obtain ⟨z, hz, hid⟩ := Option.map_eq_some_iff.1 hnext
    obtain ⟨l, rfl⟩ : ∃ l, l₂ = z :: l := by
      cases l₂ with
      | nil => cases hz
      | cons w l => exact ⟨l, by simpa using hz⟩
    obtain rfl : z = y := eq_of_id hnodup (by simp [hx]) hmemY hid
    have hsplit : es = (l₁ ++ [x]) ++ z :: l := by simpa using hx
    rw [← (hplace hsplit hy).1, List.getLast?_concat]
    rfl
  · intro hprevious
    obtain ⟨z, hz, hid⟩ := Option.map_eq_some_iff.1 hprevious
    obtain ⟨l, rfl⟩ := List.getLast?_eq_some_iff.1 hz
    obtain rfl : z = x := eq_of_id hnodup (by simp [hy]) hmemX hid
    have hsplit : es = l ++ z :: (y :: r₂) := by simpa using hy
    rw [(hplace hx hsplit).2]
    rfl

theorem ReprOff.inOrder {d : ℤ} {c : TxCache Tx} {es : List (TxInfo Tx)} (h : ReprOff d c es) : InOrder c es := by
  have hlinks : ∀ l₁ e l₂, es = l₁ ++ e :: l₂ → c.all.lookup (idOf e.tx) =
      some ⟨e, l₂.head?.map fun e => idOf e.tx, l₁.getLast?.map fun e => idOf e.tx⟩ := by
    intro l₁ e l₂ hes
    rw [← headKey_listed, ← lastKey_listed]
    exact Repr.lookup_split h hes
  have hrepr : Repr (offset d c) es := h
  refine ⟨h.nodup, hrepr.infos_perm, ?_, ?_, hlinks, ?_, h.size⟩
  · rw [← headKey_listed]
    exact h.oldest
  · rw [← lastKey_listed]
    exact h.youngest
  · intro x y infoX infoY hx hy
    obtain ⟨hmemX, rfl⟩ := Repr.mem_of_lookup h hx
    obtain ⟨hmemY, rfl⟩ := Repr.mem_of_lookup h hy
    obtain ⟨l₁, l₂, hsplitX⟩ := List.append_of_mem hmemX
    obtain ⟨r₁, r₂, hsplitY⟩ := List.append_of_mem hmemY
    have hinfoX := Option.some.inj (hx.symm.trans (hlinks _ _ _ hsplitX))
    have hinfoY := Option.some.inj (hy.symm.trans (hlinks _ _ _ hsplitY))
    have hyounger : infoX.younger = l₂.head?.map fun e => idOf e.tx := by rw [hinfoX]
    have holder : infoY.older = r₁.getLast?.map fun e => idOf e.tx := by rw [hinfoY]
    rw [hyounger, holder]
    exact next_iff_previous h.nodup hsplitX hsplitY

/-! ## The iterator -/

/-- `hasNext` of an iterator that stands at `nextElem` -/
def hasNext (c : TxCache Tx) (nextElem : Option ModifierId) : Except MempoolException Bool :=
  (findNext c c.cacheSize nextElem).map Option.isSome

/-- a loop over the iterator that removes the returned transactions which `removeIt` selects; the fuel is spent on them -/
def drain (removeIt : Tx → Bool) : ℕ → TxCache Tx → Option ModifierId → Except MempoolException (List Tx × TxCache Tx)
  | fuel, c, nextElem => match hasNext c nextElem with
    | .error e => .error e
    | .ok false => .ok ([], c)
    | .ok true => match fuel with
      | 0 => .error .endlessLoop
      | fuel + 1 => match next c nextElem with
        | .error e => .error e
        | .ok (tx, nextElem') =>
          (drain removeIt fuel (if removeIt tx then (c.remove (idOf tx)).2 else c) nextElem').map fun r => (tx :: r.1, r.2)

def nonExec (es : List (TxInfo Tx)) : List (TxInfo Tx) := es.filter fun e => e.executableStatus = .NON_EXEC

/-- the entries that the loop leaves -/
def left (removeIt : Tx → Bool) (es : List (TxInfo Tx)) : List (TxInfo Tx) :=
  es.filter fun e => ¬(e.executableStatus = .NON_EXEC ∧ removeIt e.tx)

omit [AccountTransaction Tx] in
theorem findNext_offset (d : ℤ) (c : TxCache Tx) (fuel : ℕ) (nextElem : Option ModifierId) :
    findNext (offset d c) fuel nextElem = findNext c fuel nextElem := by
  induction fuel generalizing nextElem with
  | zero => cases nextElem <;> rfl
  | succ fuel ih =>
    cases nextElem with
    | none => rfl
    | some txId =>
      rw [findNext, findNext]
      simp only [ih]
      rfl

omit [AccountTransaction Tx] in
theorem next_offset (d : ℤ) (c : TxCache Tx) (nextElem : Option ModifierId) :
    TxCache.next (offset d c) nextElem = TxCache.next c nextElem := by
  rw [TxCache.next, TxCache.next, findNext_offset]
  rfl

section Iterator

variable {d : ℤ} {c : TxCache Tx} {es : List (TxInfo Tx)} (h : ReprOff d c es)

include h

theorem ReprOff.hasNext_false {l₁ l : List (TxInfo Tx)} (hes : es = l₁ ++ l)
    (hl : ∀ x ∈ l, x.executableStatus ≠ .NON_EXEC) : hasNext c (headKey (listed l) none) = .ok false := by
  have hrepr : Repr (offset d c) es := h
  have hfuel : l.length ≤ c.cacheSize := by
    have hsize : c.cacheSize = es.length := hrepr.cacheSize_eq
    rw [hsize, hes, List.length_append]
    omega
  have hfind := hrepr.findNext_none hes hl hfuel
  rw [findNext_offset] at hfind
  rw [hasNext, hfind]
  rfl

theorem ReprOff.hasNext_true {l₁ l r : List (TxInfo Tx)} {e : TxInfo Tx} (hes : es = l₁ ++ (l ++ e :: r))
    (hl : ∀ x ∈ l, x.executableStatus ≠ .NON_EXEC) (he : e.executableStatus = .NON_EXEC) :
    hasNext c (headKey (listed (l ++ e :: r)) none) = .ok true ∧
      c.next (headKey (listed (l ++ e :: r)) none) = .ok (e.tx, headKey (listed r) none) := by
  have hrepr : Repr (offset d c) es := h
  have hnext := hrepr.next_of_split hes hl he
  rw [next_offset] at hnext
  refine ⟨?_, hnext⟩
  -- `next` returns just what `findNext` has found
  unfold TxCache.next at hnext
  rw [hasNext]
  cases hfind : findNext c c.cacheSize (headKey (listed (l ++ e :: r)) none) with
  | error e =>
    rw [hfind] at hnext
    cases hnext
  | ok info =>
    cases info with
    | none =>
      rw [hfind] at hnext
      cases hnext
    | some info => rfl

/-- with only executable entries left, the loop ends -/
theorem ReprOff.drain_done (removeIt : Tx → Bool) {fuel : ℕ} {l₁ l : List (TxInfo Tx)} (hes : es = l₁ ++ l)
    (hl : ∀ x ∈ l, x.executableStatus ≠ .NON_EXEC) :
    ∃ c', CacheRuns.drain removeIt fuel c (headKey (listed l) none) = .ok ((nonExec l).map TxInfo.tx, c') ∧
      ReprOff d c' (l₁ ++ left removeIt l) := by
  have hnonExec : nonExec l = [] := List.filter_eq_nil_iff.2 (by simpa using hl)
  have hleft : left removeIt l = l := by
    refine List.filter_eq_self.2 ?_
    intro x hx
    simp [hl x hx]
  refine ⟨c, ?_, ?_⟩
  · rw [CacheRuns.drain.eq_def]
    simp only [h.hasNext_false hes hl, hnonExec, List.map_nil]
  · rw [hleft, ← hes]
    exact h

/-- the entry that the loop has just seen, removed or not -/
theorem ReprOff.visited (removeIt : Tx → Bool) {l₁ l r : List (TxInfo Tx)} {e : TxInfo Tx}
    (hes : es = l₁ ++ (l ++ e :: r)) (he : e.executableStatus = .NON_EXEC) :
    ReprOff d (if removeIt e.tx then (c.remove (idOf e.tx)).2 else c) ((l₁ ++ l ++ left removeIt [e]) ++ r) := by
  cases hremove : removeIt e.tx with
  | false =>
    have hleft : left removeIt [e] = [e] := by simp [left, hremove]
    rw [hleft]
    have hsplit : es = (l₁ ++ l ++ [e]) ++ r := by simpa using hes
    exact hsplit ▸ h
  | true =>
    have hleft : left removeIt [e] = [] := by simp [left, hremove, he]
    have hmem : e ∈ es := by simp [hes]
    have hsplit : es = (l₁ ++ l) ++ e :: r := by simpa using hes
    have hnodup : (((l₁ ++ l) ++ e :: r).map fun e => idOf e.tx).Nodup := hsplit ▸ h.nodup
    rw [List.map_append, List.map_cons, List.nodup_middle, List.nodup_cons, List.mem_append, not_or] at hnodup
    obtain ⟨⟨h₁, h₂⟩, -⟩ := hnodup
    have hwithout : withoutId (idOf e.tx) ((l₁ ++ l) ++ e :: r) = (l₁ ++ l) ++ r :=
      withoutId_split (fun x hx heq => h₁ (heq ▸ List.mem_map_of_mem hx)) fun x hx heq => h₂
        (heq ▸ List.mem_map_of_mem hx)
    have hremoved := h.remove hmem
    rw [hsplit, hwithout] at hremoved
    rw [hleft, List.append_nil, if_pos rfl]
    exact hremoved

/-- **The iterator** at the start of `l₂` returns the non-executable transactions of `l₂`, whichever of them are removed
when they have been returned. -/
theorem ReprOff.drain (removeIt : Tx → Bool) {fuel : ℕ} {l₁ l₂ : List (TxInfo Tx)} (hes : es = l₁ ++ l₂)
    (hfuel : (nonExec l₂).length ≤ fuel) :
    ∃ c', CacheRuns.drain removeIt fuel c (headKey (listed l₂) none) = .ok ((nonExec l₂).map TxInfo.tx, c') ∧
      ReprOff d c' (l₁ ++ left removeIt l₂) := by
  induction fuel generalizing c es l₁ l₂ with
  | zero =>
    have hnone : ∀ x ∈ l₂, x.executableStatus ≠ .NON_EXEC := by
      simpa [nonExec, List.filter_eq_nil_iff] using hfuel
    exact h.drain_done removeIt hes hnone
  | succ fuel ih =>
    obtain hnone | ⟨l, e, r, rfl, hl, he⟩ := split_nonExec l₂
    · exact h.drain_done removeIt hes hnone
    · obtain ⟨hhas, hnext⟩ := h.hasNext_true hes hl he
      have hnonExecl : nonExec l = [] := List.filter_eq_nil_iff.2 (by simpa using hl)
      have hleftl : left removeIt l = l := by
        refine List.filter_eq_self.2 ?_
        intro x hx
        simp [hl x hx]
      have hnonExec : nonExec (l ++ e :: r) = e :: nonExec r := by
        rw [nonExec, List.filter_append, ← nonExec, hnonExecl, List.nil_append, List.filter_cons_of_pos (by simpa using he)]
        rfl
      have hleft : left removeIt (l ++ e :: r) = l ++ left removeIt [e] ++ left removeIt r := by
        have happend : l ++ e :: r = l ++ [e] ++ r := by simp
        rw [happend, left, List.filter_append, List.filter_append, ← left, ← left, ← left, hleftl]
      have hfuel' : (nonExec r).length ≤ fuel := by
        rw [hnonExec, List.length_cons] at hfuel
        omega
      obtain ⟨c', hdrain, hrepr⟩ := ih (h.visited removeIt hes he) rfl hfuel'
      refine ⟨c', ?_, ?_⟩
      · rw [CacheRuns.drain, hhas]
        simp only [hnext, hdrain, hnonExec]
        rfl
      · rw [hleft]
        simpa using hrepr

end Iterator

/-! ## Main results -/

theorem repr_empty : ReprOff 0 (TxCache.empty : TxCache Tx) [] := TxCache.repr_empty

/-- **The list, the counters and the iterator of the cache.** After any calls, ids added only while they are not cached,
the list runs through exactly the cached transactions by insertion, and the counters are the sums over it, that of the
non-executable slots up to the drift of calls that do not switch a status. A loop over the iterator returns the
non-executable transactions from the oldest on, whichever of them it removes, and leaves the others as they were. -/
theorem cache_in_order (time : Time) (ops : List (CacheOp Tx)) (hfresh : Cached.Along Cached.Fresh [] ops) :
    ∃ c es, run time TxCache.empty ops = .ok c ∧ es.map view = ops.foldl Cached.step [] ∧ InOrder c es ∧
      c.nonExecSizeInSlots = nonExecSlots es + Cached.runDrift [] ops ∧
      (Cached.Along Cached.Switches [] ops → c.nonExecSizeInSlots = nonExecSlots es) ∧
      ∀ removeIt : Tx → Bool, ∃ c', drain removeIt es.length c c.oldestTx = .ok ((nonExec es).map TxInfo.tx, c') ∧
        InOrder c' (left removeIt es) := by
  obtain ⟨c, es, hrun, hrepr, hview⟩ := run_repr time ops repr_empty hfresh
  have hnonExec : c.nonExecSizeInSlots = nonExecSlots es + Cached.runDrift [] ops := by
    have hsize : c.nonExecSizeInSlots - (0 + Cached.runDrift [] ops) = nonExecSlots es := hrepr.nonExecSize
    linarith
  refine ⟨c, es, hrun, hview, hrepr.inOrder, hnonExec, ?_, ?_⟩
  · intro hswitches
    rw [hnonExec, Cached.runDrift_eq_zero hswitches, add_zero]
  · intro removeIt
    have holdest : c.oldestTx = headKey (listed es) none := hrepr.oldest
    rw [holdest]
    obtain ⟨c', hdrain, hrepr'⟩ := hrepr.drain removeIt (List.nil_append es).symm (List.length_filter_le _ es)
    exact ⟨c', hdrain, hrepr'.inOrder⟩

/-- two transactions cached, the second one promoted, the first one removed -/
theorem cache_in_order_sample : ∃ c es, run ⟨5, id⟩ TxCache.empty
      [.add (⟨110⟩ : DigitsTx) .EXEC, .add ⟨120⟩ .NON_EXEC, .promoteTransaction 120, .remove 110] = .ok c ∧
    es.map view = [(⟨120⟩, .EXEC)] ∧ InOrder c es := by
  obtain ⟨c, es, hrun, hview, horder, -⟩ := cache_in_order ⟨5, id⟩
    [.add (⟨110⟩ : DigitsTx) .EXEC, .add ⟨120⟩ .NON_EXEC, .promoteTransaction 120, .remove 110]
    ⟨by simp [Cached.Fresh], by simp [Cached.Fresh, Cached.step, idOf], trivial, trivial, trivial⟩
  exact ⟨c, es, hrun, hview, horder⟩

/-- an executable transaction promoted once more: the counter is below zero, and no transaction is non-executable -/
theorem promoted_twice : Cached.Along Cached.Fresh [] [.add (⟨110⟩ : DigitsTx) .EXEC, .promoteTransaction 110] ∧
    (run ⟨5, id⟩ TxCache.empty [.add (⟨110⟩ : DigitsTx) .EXEC, .promoteTransaction 110]).map
      (fun c => (c.nonExecSizeInSlots, nonExecSlots c.infos)) = .ok (-1, 0) :=
  ⟨⟨by simp [Cached.Fresh], trivial, trivial⟩, rfl⟩

end SidechainsSdk.Account.Mempool.CacheRuns
