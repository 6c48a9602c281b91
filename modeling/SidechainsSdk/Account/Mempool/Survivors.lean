/-
What is left of the transactions of an account after a change of the chain, and what the cache holds of an account.

- `survivors`: one filter for all cases. A transaction is left if its nonce is near enough, the balance covers it and, after
  a reversal, its slots fit beside those of the ones before it.
- `placed`: the survivors with their status. Those with consecutive nonces from the state nonce on are executable.
- `CacheHolds`: the entries of one account in the cache, in any order, and those of the others, which stay as they are. The
  operations of the cache have rules for it.
-/
import Mathlib.Tactic
import SidechainsSdk.Core.ConsecutiveRun
import SidechainsSdk.Account.Mempool.Invariant

namespace SidechainsSdk.Account.Mempool

open AccountTransaction Fallible MempoolMap TxCache ConsecutiveRun

variable {Tx : Type} [AccountTransaction Tx]

/-! ## The filter -/

def slotsOf (txs : List Tx) : ℤ := (txs.map txSizeInSlot).sum

section Filter

variable (settings : AccountMempoolSettings) (balance n : ℤ) (reverted : Bool)

/-- with state nonce `n`, a transaction after the survivors `kept` -/
def Survives (kept : List Tx) (tx : Tx) : Prop :=
  getNonce tx ≤ getMaxAcceptableNonce settings n ∧ maxCost tx ≤ balance ∧
    (reverted = true → txSizeInSlot tx ≤ MaxNumOfSlotsForTx ∧ slotsOf kept + txSizeInSlot tx ≤ settings.maxAccountSlots)

instance (kept : List Tx) (tx : Tx) : Decidable (Survives settings balance n reverted kept tx) := by
  unfold Survives
  infer_instance

def addSurvivor (kept : List Tx) (tx : Tx) : List Tx :=
  if Survives settings balance n reverted kept tx then kept ++ [tx] else kept

def survivors (txs : List Tx) : List Tx := txs.foldl (addSurvivor settings balance n reverted) []

end Filter

/-- the part of the transactions of an account that has a status -/
def partOf (n : ℤ) (txs : List Tx) : TxExecutableStatus → List Tx
  | .EXEC => run getNonce n txs
  | .NON_EXEC => rest getNonce n txs

def withStatus (st : TxExecutableStatus) (txs : List Tx) : List (Tx × TxExecutableStatus) := txs.map fun tx => (tx, st)

def placed (n : ℤ) (txs : List Tx) : List (Tx × TxExecutableStatus) :=
  withStatus .EXEC (partOf n txs .EXEC) ++ withStatus .NON_EXEC (partOf n txs .NON_EXEC)

/-- the map of transactions by nonce -/
def byNonce (txs : List Tx) : TxIdByNonceMap := txs.foldl (fun m tx => m.insert (getNonce tx) (idOf tx)) ∅

section Placed

variable {n : ℤ} {txs : List Tx} {tx : Tx} {st : TxExecutableStatus}

theorem slotsOf_concat (txs : List Tx) (tx : Tx) : slotsOf (txs ++ [tx]) = slotsOf txs + txSizeInSlot tx := by
  simp [slotsOf]

omit [AccountTransaction Tx] in
@[simp] theorem mem_withStatus {p : Tx × TxExecutableStatus} : p ∈ withStatus st txs ↔ p.1 ∈ txs ∧ p.2 = st := by
  obtain ⟨tx, st'⟩ := p
  simp only [withStatus, List.mem_map, Prod.mk.injEq]
  constructor
  · rintro ⟨x, hx, rfl, rfl⟩
    exact ⟨hx, rfl⟩
  · rintro ⟨hx, rfl⟩
    exact ⟨tx, hx, rfl, rfl⟩

omit [AccountTransaction Tx] in
theorem withStatus_cons : withStatus st (tx :: txs) = (tx, st) :: withStatus st txs := rfl

omit [AccountTransaction Tx] in
theorem withStatus_concat : withStatus st (txs ++ [tx]) = withStatus st txs ++ [(tx, st)] := List.map_append

omit [AccountTransaction Tx] in
theorem map_fst_withStatus : (withStatus st txs).map Prod.fst = txs := by simp [withStatus, Function.comp_def]

theorem map_fst_placed : (placed n txs).map Prod.fst = txs := by
  rw [placed, List.map_append, map_fst_withStatus, map_fst_withStatus]
  exact run_append_rest n txs

theorem mem_placed : (tx, st) ∈ placed n txs ↔ tx ∈ partOf n txs st := by
  rw [placed, List.mem_append, mem_withStatus, mem_withStatus]
  cases st <;> simp

/-- a transaction with a higher nonce goes to the end of its part -/
theorem placed_concat (h : Ascending getNonce n txs) (htx : ∀ x ∈ txs, getNonce x < getNonce tx) :
    placed n (txs ++ [tx]) =
      placed n txs ++ [(tx, if getNonce tx = runEnd getNonce n txs then .EXEC else .NON_EXEC)] := by
  unfold placed partOf
  by_cases heq : getNonce tx = runEnd getNonce n txs
  · obtain ⟨hrun, hrest⟩ := run_concat_of_eq h htx heq
    rw [if_pos heq, hrun, hrest, h.rest_eq_nil htx heq, withStatus_concat]
    simp [withStatus]
  · obtain ⟨hrun, hrest⟩ := run_concat_of_ne heq
    rw [if_neg heq, hrun, hrest, withStatus_concat, List.append_assoc]

theorem byNonce_concat (txs : List Tx) (tx : Tx) :
    byNonce (txs ++ [tx]) = (byNonce txs).insert (getNonce tx) (idOf tx) := by
  rw [byNonce, List.foldl_append]
  rfl

theorem isEmpty_byNonce (txs : List Tx) : (byNonce txs).isEmpty = txs.isEmpty := by
  rcases List.eq_nil_or_concat txs with rfl | ⟨init, last, rfl⟩
  · rfl
  · rw [List.concat_eq_append, byNonce_concat, Std.TreeMap.isEmpty_insert]
    simp

theorem getElem?_byNonce (h : txs.Pairwise fun x y => getNonce x < getNonce y) (k : ℤ) (i : ModifierId) :
    (byNonce txs)[k]? = some i ↔ ∃ tx ∈ txs, getNonce tx = k ∧ idOf tx = i := by
  induction txs using List.reverseRecOn with
  | nil => simp [byNonce]
  | append_singleton txs tx ih =>
    obtain ⟨hsorted, -, hlast⟩ := List.pairwise_append.1 h
    rw [byNonce_concat, Std.TreeMap.getElem?_insert]
    by_cases hk : getNonce tx = k
    · rw [if_pos (by simpa using hk)]
      constructor
      · intro hi
        exact ⟨tx, by simp, hk, Option.some.inj hi⟩
      · rintro ⟨x, hx, hxk, rfl⟩
        rcases List.mem_append.1 hx with hx | hx
        · have hlt := hlast x hx tx (List.mem_singleton.2 rfl)
          omega
        · rw [List.mem_singleton.1 hx]
    · rw [if_neg (by simpa using hk), ih hsorted]
      constructor
      · rintro ⟨x, hx, hrest⟩
        exact ⟨x, List.mem_append_left _ hx, hrest⟩
      · rintro ⟨x, hx, hxk, hi⟩
        rcases List.mem_append.1 hx with hx | hx
        · exact ⟨x, hx, hxk, hi⟩
        · rw [List.mem_singleton.1 hx] at hxk
          exact absurd hxk hk

theorem partOf_sorted (h : Ascending getNonce n txs) (st : TxExecutableStatus) :
    (partOf n txs st).Pairwise fun x y => getNonce x < getNonce y := by
  have hsorted := h.sorted
  rw [← run_append_rest n txs, List.pairwise_append] at hsorted
  cases st with
  | EXEC => exact hsorted.1
  | NON_EXEC => exact hsorted.2.1

theorem mem_of_mem_partOf (h : tx ∈ partOf n txs st) : tx ∈ txs := by
  cases st with
  | EXEC => exact mem_run_or_rest.1 (.inl h)
  | NON_EXEC => exact mem_run_or_rest.1 (.inr h)

/-- the state nonce if there are no executable transactions, and else the nonce after the last one -/
theorem nextExecNonce_eq (h : Ascending getNonce n txs) :
    nextExecNonce (byNonce (partOf n txs .EXEC)) n = runEnd getNonce n txs := by
  have hkeys : ∀ k, k ∈ byNonce (partOf n txs .EXEC) ↔ n ≤ k ∧ k < runEnd getNonce n txs := by
    intro k
    rw [← exists_mem_run_iff, ← Std.TreeMap.isSome_getElem?_iff_mem, Option.isSome_iff_exists]
    simp only [getElem?_byNonce (partOf_sorted h .EXEC)]
    constructor
    · rintro ⟨i, x, hx, hxk, -⟩
      exact ⟨x, hx, hxk⟩
    · rintro ⟨x, hx, hxk⟩
      exact ⟨idOf x, x, hx, hxk, rfl⟩
  have hle : n ≤ runEnd getNonce n txs := le_runEnd n txs
  unfold nextExecNonce
  cases hlast : (byNonce (partOf n txs .EXEC)).maxKey? with
  | none =>
    have hempty := Std.TreeMap.maxKey?_eq_none_iff.1 hlast
    have hnone : ¬ n ∈ byNonce (partOf n txs .EXEC) := Std.TreeMap.not_mem_of_isEmpty hempty
    rw [hkeys] at hnone
    simp only
    omega
  | some lastKey =>
    obtain ⟨hmem, hmax⟩ := Std.TreeMap.maxKey?_eq_some_iff_mem_and_forall.1 hlast
    have hbounds := (hkeys lastKey).1 hmem
    have htop := hmax (runEnd getNonce n txs - 1) ((hkeys _).2 ⟨by omega, by omega⟩)
    rw [Std.isLE_compare] at htop
    simp only
    omega

end Placed

/-! ## What survives -/

section Survive

variable {settings : AccountMempoolSettings} {balance n : ℤ} {reverted : Bool} {kept txs txs' : List Tx} {tx : Tx}

theorem addSurvivor_of_survives (h : Survives settings balance n reverted kept tx) :
    addSurvivor settings balance n reverted kept tx = kept ++ [tx] := if_pos h

theorem addSurvivor_of_not (h : ¬ Survives settings balance n reverted kept tx) :
    addSurvivor settings balance n reverted kept tx = kept := if_neg h

theorem survivors_append : survivors settings balance n reverted (txs ++ txs') =
    txs'.foldl (addSurvivor settings balance n reverted) (survivors settings balance n reverted txs) := List.foldl_append

theorem survivors_concat : survivors settings balance n reverted (txs ++ [tx]) =
    addSurvivor settings balance n reverted (survivors settings balance n reverted txs) tx := survivors_append

theorem survivors_sublist (txs : List Tx) : (survivors settings balance n reverted txs).Sublist txs := by
  induction txs using List.reverseRecOn with
  | nil => exact .slnil
  | append_singleton txs tx ih =>
    rw [survivors_concat]
    by_cases htx : Survives settings balance n reverted (survivors settings balance n reverted txs) tx
    · rw [addSurvivor_of_survives htx]
      exact ih.append_right [tx]
    · rw [addSurvivor_of_not htx]
      exact ih.trans (List.sublist_append_left txs [tx])

theorem ascending_survivors (h : Ascending getNonce n txs) :
    Ascending getNonce n (survivors settings balance n reverted txs) :=
  ⟨h.sorted.sublist (survivors_sublist txs), fun tx htx => h.le tx ((survivors_sublist txs).subset htx)⟩

/-- transactions of an account that are within its bounds -/
structure Fits (settings : AccountMempoolSettings) (n : ℤ) (txs : List Tx) : Prop where
  slots : slotsOf txs ≤ settings.maxAccountSlots
  gap : ∀ tx ∈ txs, getNonce tx ≤ getMaxAcceptableNonce settings n
  small : ∀ tx ∈ txs, txSizeInSlot tx ≤ MaxNumOfSlotsForTx

/-- after a reversal, the survivors are within the bounds whatever the transactions are -/
theorem fits_survivors_reverted (txs : List Tx) : Fits settings n (survivors settings balance n true txs) := by
  induction txs using List.reverseRecOn with
  | nil => exact ⟨Int.natCast_nonneg _, by simp [survivors], by simp [survivors]⟩
  | append_singleton txs tx ih =>
    rw [survivors_concat]
    by_cases htx : Survives settings balance n true (survivors settings balance n true txs) tx
    · obtain ⟨hnear, -, hfits⟩ := id htx
      obtain ⟨hsmall, hslots⟩ := hfits rfl
      rw [addSurvivor_of_survives htx]
      refine ⟨by rw [slotsOf_concat]; exact hslots, ?_, ?_⟩
      · intro x hx
        rcases List.mem_append.1 hx with hx | hx
        · exact ih.gap x hx
        · rwa [List.mem_singleton.1 hx]
      · intro x hx
        rcases List.mem_append.1 hx with hx | hx
        · exact ih.small x hx
        · rwa [List.mem_singleton.1 hx]
    · rw [addSurvivor_of_not htx]
      exact ih

theorem slotsOf_sublist (h : txs'.Sublist txs) : slotsOf txs' ≤ slotsOf txs :=
  (h.map txSizeInSlot).sum_le_sum fun x hx => by
    obtain ⟨tx, -, rfl⟩ := List.mem_map.1 hx
    exact txSizeInSlot_nonneg tx

theorem Fits.sublist (h : Fits settings n txs) (hsub : txs'.Sublist txs) : Fits settings n txs' where
  slots := (slotsOf_sublist hsub).trans h.slots
  gap := fun tx htx => h.gap tx (hsub.subset htx)
  small := fun tx htx => h.small tx (hsub.subset htx)

/-! The filter in the order of a description: balance, nonce gap, slots. -/

/-- a transaction whose slots fit beside those of the ones before it -/
def addFitting (settings : AccountMempoolSettings) (kept : List Tx) (tx : Tx) : List Tx :=
  if txSizeInSlot tx ≤ MaxNumOfSlotsForTx ∧ slotsOf kept + txSizeInSlot tx ≤ settings.maxAccountSlots then kept ++ [tx]
  else kept

/-- those that the balance covers, up to the first one beyond the nonce gap -/
def affordable (settings : AccountMempoolSettings) (balance n : ℤ) (txs : List Tx) : List Tx :=
  (txs.filter fun tx => maxCost tx ≤ balance).takeWhile fun tx => getNonce tx ≤ getMaxAcceptableNonce settings n

theorem affordable_eq (h : Ascending getNonce n txs) : affordable settings balance n txs =
    txs.filter fun tx => getNonce tx ≤ getMaxAcceptableNonce settings n ∧ maxCost tx ≤ balance := by
  have hfilter : Ascending getNonce n (txs.filter fun tx => maxCost tx ≤ balance) :=
    ⟨h.sorted.sublist List.filter_sublist, fun tx htx => h.le tx (List.mem_filter.1 htx).1⟩
  rw [affordable, hfilter.takeWhile_le_eq, List.filter_filter]
  refine List.filter_congr fun tx _ => ?_
  simp

theorem survivors_eq (h : Ascending getNonce n txs) : survivors settings balance n reverted txs =
    if reverted then (affordable settings balance n txs).foldl (addFitting settings) []
    else affordable settings balance n txs := by
  rw [affordable_eq h, survivors]
  cases reverted with
  | true =>
    rw [if_pos rfl, List.foldl_filter]
    congr 1
    funext kept tx
    by_cases hnear : getNonce tx ≤ getMaxAcceptableNonce settings n
    · by_cases hcost : maxCost tx ≤ balance
      · simp [addSurvivor, Survives, addFitting, hnear, hcost]
      · simp [addSurvivor, Survives, hcost]
    · simp [addSurvivor, Survives, hnear]
  | false =>
    rw [if_neg (by simp)]
    clear h
    induction txs using List.reverseRecOn with
    | nil => rfl
    | append_singleton txs tx ih =>
      rw [List.foldl_append, ih, List.filter_append]
      by_cases htx : getNonce tx ≤ getMaxAcceptableNonce settings n ∧ maxCost tx ≤ balance
      · simp [addSurvivor, Survives, htx]
      · simp [addSurvivor, Survives, htx]

end Survive

/-! ## The cache -/

/-- the transactions of an account with their status -/
def own (a : Address) (es : List (TxInfo Tx)) : List (Tx × TxExecutableStatus) :=
  (es.filter fun e => getFrom e.tx = a).map fun e => (e.tx, e.executableStatus)

/-- the entries of the other accounts -/
def others (a : Address) (es : List (TxInfo Tx)) : List (TxInfo Tx) := es.filter fun e => getFrom e.tx ≠ a

/-- the cache holds these transactions of an account and these entries of the others -/
def CacheHolds (a : Address) (rest : List (TxInfo Tx)) (txs : List (Tx × TxExecutableStatus)) (c : TxCache Tx) : Prop :=
  ∃ es, c.Repr es ∧ (own a es).Perm txs ∧ others a es = rest

section Cache

variable {a : Address} {es rest : List (TxInfo Tx)} {tx : Tx} {st : TxExecutableStatus}
  {txs txs' : List (Tx × TxExecutableStatus)} {c : TxCache Tx}

theorem mem_own : (tx, st) ∈ own a es ↔ ∃ e ∈ es, e.tx = tx ∧ e.executableStatus = st ∧ getFrom tx = a := by
  simp only [own, List.mem_map, List.mem_filter, decide_eq_true_eq, Prod.mk.injEq]
  constructor
  · rintro ⟨e, ⟨he, hfrom⟩, rfl, rfl⟩
    exact ⟨e, he, rfl, rfl, hfrom⟩
  · rintro ⟨e, he, rfl, rfl, hfrom⟩
    exact ⟨e, ⟨he, hfrom⟩, rfl, rfl⟩

theorem mem_others {e : TxInfo Tx} : e ∈ others a es ↔ e ∈ es ∧ getFrom e.tx ≠ a := by simp [others]

theorem own_concat {e : TxInfo Tx} (h : getFrom e.tx = a) : own a (es ++ [e]) = own a es ++ [(e.tx, e.executableStatus)] := by
  simp [own, h]

theorem others_concat {e : TxInfo Tx} (h : getFrom e.tx = a) : others a (es ++ [e]) = others a es := by
  simp [others, h]

theorem own_withoutId (txId : ModifierId) : own a (withoutId txId es) = (own a es).filter fun p => idOf p.1 ≠ txId := by
  rw [own, own, withoutId, List.filter_map, List.filter_filter, List.filter_filter]
  refine congrArg _ (List.filter_congr fun e _ => ?_)
  exact Bool.and_comm _ _

theorem others_withoutId (h : getFrom tx = a) : others a (withoutId (idOf tx) es) = others a es := by
  rw [others, others, withoutId, List.filter_filter]
  refine List.filter_congr fun e _ => ?_
  by_cases hfrom : getFrom e.tx = a
  · simp [hfrom]
  · have hne : idOf e.tx ≠ idOf tx := fun heq => hfrom (id_injective heq ▸ h)
    simp [hfrom, hne]

theorem own_setStatus (txId : ModifierId) :
    own a (setStatus txId st es) = (own a es).map fun p => if idOf p.1 = txId then (p.1, st) else p := by
  induction es with
  | nil => rfl
  | cons e es ih =>
    have hcons : setStatus txId st (e :: es) =
        (if idOf e.tx = txId then { e with executableStatus := st } else e) :: setStatus txId st es := rfl
    have htx : (if idOf e.tx = txId then { e with executableStatus := st } else e).tx = e.tx := by split_ifs <;> rfl
    rw [hcons]
    unfold own at ih ⊢
    by_cases hfrom : getFrom e.tx = a
    · rw [List.filter_cons_of_pos (by rw [htx]; simpa using hfrom), List.filter_cons_of_pos (by simpa using hfrom),
        List.map_cons, List.map_cons, List.map_cons, ih, htx]
      split_ifs <;> rfl
    · rw [List.filter_cons_of_neg (by rw [htx]; simpa using hfrom), List.filter_cons_of_neg (by simpa using hfrom), ih]

theorem others_setStatus (h : getFrom tx = a) : others a (setStatus (idOf tx) st es) = others a es := by
  induction es with
  | nil => rfl
  | cons e es ih =>
    have hcons : setStatus (idOf tx) st (e :: es) =
        (if idOf e.tx = idOf tx then { e with executableStatus := st } else e) :: setStatus (idOf tx) st es := rfl
    rw [hcons]
    unfold others at ih ⊢
    by_cases hid : idOf e.tx = idOf tx
    · have hfrom : getFrom e.tx = a := id_injective hid ▸ h
      rw [if_pos hid, List.filter_cons_of_neg (by simpa using hfrom), List.filter_cons_of_neg (by simpa using hfrom), ih]
    · rw [if_neg hid, List.filter_cons, List.filter_cons, ih]

theorem fst_own_sublist : ((own a es).map Prod.fst).Sublist (es.map TxInfo.tx) := by
  rw [own, List.map_map]
  exact List.filter_sublist.map _

theorem nodup_own (h : (es.map fun e => idOf e.tx).Nodup) : ((own a es).map Prod.fst).Nodup := by
  have htxs : (es.map TxInfo.tx).Nodup := by
    refine List.Nodup.of_map idOf ?_
    rw [List.map_map]
    exact h
  exact htxs.sublist fst_own_sublist

namespace CacheHolds

theorem perm (h : CacheHolds a rest txs c) (hperm : txs.Perm txs') : CacheHolds a rest txs' c := by
  obtain ⟨es, hrepr, hown, hothers⟩ := h
  exact ⟨es, hrepr, hown.trans hperm, hothers⟩

theorem nodup (h : CacheHolds a rest txs c) : (txs.map Prod.fst).Nodup := by
  obtain ⟨es, hrepr, hown, -⟩ := h
  exact (hown.map _).nodup_iff.1 (nodup_own hrepr.nodup)

theorem from_eq (h : CacheHolds a rest txs c) {p : Tx × TxExecutableStatus} (hp : p ∈ txs) : getFrom p.1 = a := by
  obtain ⟨es, -, hown, -⟩ := h
  obtain ⟨e, -, -, -, hfrom⟩ := mem_own.1 (hown.mem_iff.2 hp)
  exact hfrom

theorem entry (h : CacheHolds a rest ((tx, st) :: txs) c) : ∃ es, c.Repr es ∧ (own a es).Perm ((tx, st) :: txs) ∧
    others a es = rest ∧ ∃ e ∈ es, e.tx = tx ∧ e.executableStatus = st := by
  obtain ⟨es, hrepr, hown, hothers⟩ := h
  obtain ⟨e, he, htx, hst, -⟩ := mem_own.1 (hown.mem_iff.2 List.mem_cons_self)
  exact ⟨es, hrepr, hown, hothers, e, he, htx, hst⟩

end CacheHolds

/-- the other transactions of a list without repetition have other ids -/
theorem idOf_ne_of_nodup (h : (((tx, st) :: txs).map Prod.fst).Nodup) {p : Tx × TxExecutableStatus} (hp : p ∈ txs) :
    idOf p.1 ≠ idOf tx := by
  intro heq
  have hmem : p.1 ∈ txs.map Prod.fst := List.mem_map_of_mem hp
  rw [id_injective heq] at hmem
  exact (List.nodup_cons.1 h).1 hmem

/-! Rules for the operations of the cache on a transaction of the account. -/

variable {settings : AccountMempoolSettings} {m : MempoolMap Tx} {E : MempoolException → MempoolMap Tx → Prop}

theorem wp_addOwn {Q : Unit → MempoolMap Tx → Prop} (h : CacheHolds a rest txs m.txCache) (hfrom : getFrom tx = a)
    (hfresh : tx ∉ txs.map Prod.fst) (hQ : ∀ c, CacheHolds a rest (txs ++ [(tx, st)]) c → Q () (m.withCache c)) :
    wp (cacheAdd settings tx st) Q E m := by
  obtain ⟨es, hrepr, hown, hothers⟩ := h
  refine wp_cacheAdd hrepr ?_ ?_
  · intro e he heq
    have htx : e.tx = tx := id_injective heq
    refine hfresh ((hown.map Prod.fst).mem_iff.1 ?_)
    exact List.mem_map.2 ⟨(e.tx, e.executableStatus), mem_own.2 ⟨e, he, rfl, rfl, by rw [htx, hfrom]⟩, htx⟩
  · intro c deadline hrepr'
    refine hQ c ⟨_, hrepr', ?_, ?_⟩
    · rw [own_concat hfrom]
      exact hown.append_right _
    · rw [others_concat hfrom, hothers]

theorem wp_removeOwn {Q : Option Tx → MempoolMap Tx → Prop} (h : CacheHolds a rest ((tx, st) :: txs) m.txCache)
    (hQ : ∀ c, CacheHolds a rest txs c → Q (some tx) (m.withCache c)) : wp (cacheRemove (idOf tx)) Q E m := by
  have hnodup := h.nodup
  have hfrom : getFrom tx = a := h.from_eq List.mem_cons_self
  obtain ⟨es, hrepr, hown, hothers, e, he, rfl, -⟩ := h.entry
  refine wp_cacheRemove hrepr he ?_
  intro c hrepr'
  refine hQ c ⟨_, hrepr', ?_, ?_⟩
  · rw [own_withoutId]
    refine (hown.filter _).trans ?_
    rw [List.filter_cons_of_neg (by simp)]
    refine List.Perm.of_eq (List.filter_eq_self.2 fun p hp => ?_)
    simpa using idOf_ne_of_nodup hnodup hp
  · rw [others_withoutId hfrom, hothers]

/-- the status of an entry is set -/
theorem own_setStatus_perm {st' : TxExecutableStatus} (hnodup : (((tx, st) :: txs).map Prod.fst).Nodup)
    (hown : (own a es).Perm ((tx, st) :: txs)) : (own a (setStatus (idOf tx) st' es)).Perm ((tx, st') :: txs) := by
  rw [own_setStatus]
  refine (hown.map _).trans ?_
  rw [List.map_cons, if_pos rfl]
  refine List.Perm.cons _ (List.Perm.of_eq ?_)
  conv_rhs => rw [← List.map_id txs]
  refine List.map_congr_left fun p hp => ?_
  exact if_neg (idOf_ne_of_nodup hnodup hp)

theorem wp_demoteOwn {Q : Unit → MempoolMap Tx → Prop} (h : CacheHolds a rest ((tx, .EXEC) :: txs) m.txCache)
    (hQ : ∀ c, CacheHolds a rest ((tx, .NON_EXEC) :: txs) c → Q () (m.withCache c)) :
    wp (cacheDemote (idOf tx)) Q E m := by
  have hnodup := h.nodup
  have hfrom : getFrom tx = a := h.from_eq List.mem_cons_self
  obtain ⟨es, hrepr, hown, hothers, e, he, rfl, hst⟩ := h.entry
  refine wp_cacheDemote hrepr he hst ?_
  intro c hrepr'
  exact hQ c ⟨_, hrepr', own_setStatus_perm hnodup hown, by rw [others_setStatus hfrom, hothers]⟩

theorem wp_promoteOwn {Q : Tx → MempoolMap Tx → Prop} (h : CacheHolds a rest ((tx, .NON_EXEC) :: txs) m.txCache)
    (hQ : ∀ c, CacheHolds a rest ((tx, .EXEC) :: txs) c → Q tx (m.withCache c)) : wp (cachePromote (idOf tx)) Q E m := by
  have hnodup := h.nodup
  have hfrom : getFrom tx = a := h.from_eq List.mem_cons_self
  obtain ⟨es, hrepr, hown, hothers, e, he, rfl, hst⟩ := h.entry
  refine wp_cachePromote hrepr he hst ?_
  intro c hrepr'
  exact hQ c ⟨_, hrepr', own_setStatus_perm hnodup hown, by rw [others_setStatus hfrom, hothers]⟩

theorem wp_applyOwn {Q : Tx → MempoolMap Tx → Prop} (h : CacheHolds a rest ((tx, st) :: txs) m.txCache) (hQ : Q tx m) :
    wp (cacheApply (idOf tx)) Q E m := by
  obtain ⟨es, hrepr, -, -, e, he, rfl, -⟩ := h.entry
  exact wp_cacheApply hrepr he hQ

end Cache

end SidechainsSdk.Account.Mempool
