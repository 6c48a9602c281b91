/-
What holds in the UTXO mempool after any calls.

- `Consistent`: map, sorted keys and byte counter describe the same transactions, which spend different boxes.
- `takeLowest_eq`: the entries in the order of the sorted keys are all the pooled entries.
- `makeRoom_spec`: the loop of `addWithSizeCheck` stops at the first number of entries whose removal makes room.
- `exec_addWithSizeCheck`: an entry is refused without effect, or takes the place of entries of lowest fee rate.
- `mempool_invariant`: the invariant in every reachable mempool, and what `put` does there.
-/
import Mathlib.Tactic
import SidechainsSdk.Utxo.Mempool.SidechainMemoryPool

namespace SidechainsSdk.Utxo.Mempool

open Fallible BoxTransaction

variable {τ ι : Type} [LinearOrder ι] [BoxTransaction τ ι]

namespace SidechainMemoryPoolEntry

/-- the key of an entry in the sorted set -/
def key (e : SidechainMemoryPoolEntry τ) : MempoolMapKey ι := ⟨e.txid, e.getFeeRate⟩

section

omit [LinearOrder ι]

theorem getSize_of_txid {e e' : SidechainMemoryPoolEntry τ} (h : e.txid = e'.txid) : e.getSize = e'.getSize :=
  congrArg Nat.cast (same_content _ _ h).2.1

theorem getFeeRate_of_txid {e e' : SidechainMemoryPoolEntry τ} (h : e.txid = e'.txid) : e.getFeeRate = e'.getFeeRate := by
  obtain ⟨hfee, hsize, -⟩ := same_content _ _ h
  rw [getFeeRate, getFeeRate, feeRate, feeRate, hfee, hsize]

end

end SidechainMemoryPoolEntry

open SidechainMemoryPoolEntry

/-- the bytes of some entries -/
def sizes (es : List (SidechainMemoryPoolEntry τ)) : ℤ := (es.map getSize).sum

/-- no box is spent by both -/
def DisjointInputs (t t' : τ) : Prop := ∀ boxId ∈ closedBoxIds t, boxId ∉ closedBoxIds t'

omit [LinearOrder ι] in
theorem DisjointInputs.symm {t t' : τ} (h : DisjointInputs t t') : DisjointInputs t' t :=
  fun boxId hmem hmem' => h boxId hmem' hmem

omit [LinearOrder ι] in
theorem disjointInputs_of_compatible {t : τ} {txs : List τ} (h : isTransactionCompatible t txs = true) {t' : τ}
    (ht' : t' ∈ txs) : DisjointInputs t t' := by
  intro boxId hmem hmem'
  have hdefault : isDefaultCompatible t txs = true := (Bool.and_eq_true_iff.1 h).1
  have hall := List.all_eq_true.1 (List.all_eq_true.1 hdefault boxId hmem) t' ht'
  simp [hmem'] at hall

namespace MempoolMap

structure Consistent (m : MempoolMap τ ι) : Prop where
  keyed : ∀ i e, m.map.lookup i = some e → e.txid = i
  index : ∀ k, k ∈ m.idsSortedByFeeRate ↔ ∃ e, m.map.lookup k.txid = some e ∧ e.getFeeRate = k.feeRate
  used : m.usedPoolSizeBytes = AssocMap.sum (fun _ e => e.getSize) m.map
  disjoint : ∀ e ∈ m.values, ∀ e' ∈ m.values, e.txid ≠ e'.txid → DisjointInputs e.unconfirmedTx e'.unconfirmedTx

omit [BoxTransaction τ ι] in
theorem mem_values {m : MempoolMap τ ι} {e : SidechainMemoryPoolEntry τ} :
    e ∈ m.values ↔ ∃ i, m.map.lookup i = some e := by
  rw [values, List.mem_map]
  constructor
  · rintro ⟨x, hx, rfl⟩
    exact ⟨x.1, AList.mem_lookup_iff.2 hx⟩
  · rintro ⟨i, hi⟩
    exact ⟨⟨i, e⟩, AList.mem_lookup_iff.1 hi, rfl⟩

theorem Consistent.lookup_txid {m : MempoolMap τ ι} (h : Consistent m) {e : SidechainMemoryPoolEntry τ}
    (he : e ∈ m.values) : m.map.lookup e.txid = some e := by
  obtain ⟨i, hi⟩ := mem_values.1 he
  rw [h.keyed i e hi, hi]

theorem Consistent.eq_of_txid {m : MempoolMap τ ι} (h : Consistent m) {e e' : SidechainMemoryPoolEntry τ} (he : e ∈ m.values)
    (he' : e' ∈ m.values) (heq : e.txid = e'.txid) : e = e' := by
  have hlookup := h.lookup_txid he
  rw [heq, h.lookup_txid he'] at hlookup
  exact (Option.some.inj hlookup).symm

theorem consistent_empty : Consistent (SidechainMemoryPool.createEmptyMempool : MempoolMap τ ι) where
  keyed := by simp [SidechainMemoryPool.createEmptyMempool, ofValues]
  index := by simp [SidechainMemoryPool.createEmptyMempool, ofValues]
  used := rfl
  disjoint := by simp [SidechainMemoryPool.createEmptyMempool, ofValues, values]

/-! ## Changes of the map -/

theorem lookup_remove (i : ι) (m : MempoolMap τ ι) (j : ι) :
    (m.remove i).map.lookup j = if j = i then none else m.map.lookup j := by
  unfold remove
  cases hi : m.map.lookup i with
  | none =>
    split_ifs with hj
    · rw [hj]
      exact hi
    · rfl
  | some e =>
    split_ifs with hj
    · rw [hj]
      exact AList.lookup_erase _ _
    · exact AList.lookup_erase_ne hj

theorem lookup_add (e : SidechainMemoryPoolEntry τ) (m : MempoolMap τ ι) (j : ι) :
    (m.add e).map.lookup j = if j = e.txid then some e else m.map.lookup j := by
  have hinsert : (m.add e).map = m.map.insert e.txid e := by
    unfold add
    cases m.map.lookup e.txid <;> rfl
  rw [hinsert]
  split_ifs with hj
  · rw [hj]
    exact AList.lookup_insert _
  · exact AList.lookup_insert_ne hj

theorem used_remove {i : ι} {m : MempoolMap τ ι} {e : SidechainMemoryPoolEntry τ} (h : m.map.lookup i = some e) :
    (m.remove i).usedPoolSizeBytes = m.usedPoolSizeBytes - e.getSize := by
  unfold remove
  rw [h]

/-- a pool with fewer transactions -/
theorem Consistent.values_subset {m m' : MempoolMap τ ι} (h : Consistent m)
    (hsub : ∀ i e, m'.map.lookup i = some e → m.map.lookup i = some e) :
    ∀ e ∈ m'.values, ∀ e' ∈ m'.values, e.txid ≠ e'.txid → DisjointInputs e.unconfirmedTx e'.unconfirmedTx := by
  intro e he e' he'
  obtain ⟨i, hi⟩ := mem_values.1 he
  obtain ⟨i', hi'⟩ := mem_values.1 he'
  exact h.disjoint e (mem_values.2 ⟨i, hsub i e hi⟩) e' (mem_values.2 ⟨i', hsub i' e' hi'⟩)

theorem Consistent.remove {m : MempoolMap τ ι} (h : Consistent m) (i : ι) : Consistent (m.remove i) := by
  have hsub : ∀ j e, (m.remove i).map.lookup j = some e → m.map.lookup j = some e := by
    intro j e hj
    rw [lookup_remove] at hj
    split_ifs at hj with hji
    exact hj
  refine ⟨fun j e hj => h.keyed j e (hsub j e hj), ?_, ?_, h.values_subset hsub⟩
  · intro k
    rw [lookup_remove]
    cases hi : m.map.lookup i with
    | none =>
      have hsame : m.remove i = m := by rw [MempoolMap.remove, hi]
      rw [hsame, h.index k]
      split_ifs with hk
      · rw [hk, hi]
        simp
      · rfl
    | some e =>
      have hindex : (m.remove i).idsSortedByFeeRate = m.idsSortedByFeeRate.filter fun k => k.txid ≠ i := by
        rw [MempoolMap.remove, hi]
      rw [hindex, SortedSet.mem_filter, h.index k]
      split_ifs with hk
      · simp [hk]
      · simp [hk]
  · cases hi : m.map.lookup i with
    | none =>
      have hsame : m.remove i = m := by rw [MempoolMap.remove, hi]
      rw [hsame]
      exact h.used
    | some e =>
      have hmap : (m.remove i).map = m.map.erase i := by rw [MempoolMap.remove, hi]
      have hsum := AssocMap.sum_erase_of_lookup (fun _ e => getSize e) hi
      rw [used_remove hi, hmap, h.used, hsum]
      ring

theorem Consistent.add {m : MempoolMap τ ι} (h : Consistent m) (e : SidechainMemoryPoolEntry τ)
    (hdisjoint : ∀ e' ∈ m.values, e.txid ≠ e'.txid → DisjointInputs e.unconfirmedTx e'.unconfirmedTx) :
    Consistent (m.add e) := by
  have hfrom : ∀ e' ∈ (m.add e).values, e' = e ∨ e' ∈ m.values := by
    intro e' he'
    obtain ⟨i, hi⟩ := mem_values.1 he'
    rw [lookup_add] at hi
    split_ifs at hi with hie
    · exact .inl (Option.some.inj hi).symm
    · exact .inr (mem_values.2 ⟨i, hi⟩)
  refine ⟨?_, ?_, ?_, ?_⟩
  · intro i e' hi
    rw [lookup_add] at hi
    split_ifs at hi with hie
    · rw [← Option.some.inj hi, hie]
    · exact h.keyed i e' hi
  · intro k
    rw [lookup_add]
    cases he : m.map.lookup e.txid with
    | some e' =>
      -- the entry that is replaced has the same id, so it has the same key
      have hsame : e'.getFeeRate = e.getFeeRate := getFeeRate_of_txid (h.keyed _ _ he)
      have hindex : (m.add e).idsSortedByFeeRate = m.idsSortedByFeeRate := by rw [MempoolMap.add, he]
      rw [hindex, h.index k]
      split_ifs with hk
      · rw [hk, he]
        simp [hsame]
      · rfl
    | none =>
      have hindex : (m.add e).idsSortedByFeeRate = m.idsSortedByFeeRate.insert ⟨e.txid, e.getFeeRate⟩ := by
        rw [MempoolMap.add, he]
      rw [hindex, SortedSet.mem_insert, h.index k]
      obtain ⟨i, r⟩ := k
      split_ifs with hk
      · have hi : i = e.txid := hk
        subst hi
        simp [he, eq_comm]
      · have hi : i ≠ e.txid := hk
        simp [hi]
  · cases he : m.map.lookup e.txid with
    | some e' =>
      have hsame : e'.getSize = e.getSize := getSize_of_txid (h.keyed _ _ he)
      have hused : (m.add e).usedPoolSizeBytes = m.usedPoolSizeBytes := by rw [MempoolMap.add, he]
      have hmap : (m.add e).map = m.map.insert e.txid e := by rw [MempoolMap.add, he]
      rw [hused, hmap, AssocMap.sum_insert, h.used, AssocMap.sum_erase_of_lookup _ he, hsame]
    | none =>
      have hused : (m.add e).usedPoolSizeBytes = m.usedPoolSizeBytes + e.getSize := by rw [MempoolMap.add, he]
      have hmap : (m.add e).map = m.map.insert e.txid e := by rw [MempoolMap.add, he]
      rw [hused, hmap, AssocMap.sum_insert, AssocMap.sum_erase_of_none _ he, h.used]
      ring
  · intro e₁ he₁ e₂ he₂ hne
    rcases hfrom e₁ he₁ with rfl | hin₁
    · rcases hfrom e₂ he₂ with rfl | hin₂
      · exact absurd rfl hne
      · exact hdisjoint e₂ hin₂ hne
    · rcases hfrom e₂ he₂ with rfl | hin₂
      · exact (hdisjoint e₁ hin₁ hne.symm).symm
      · exact h.disjoint e₁ hin₁ e₂ hin₂ hne

/-- an entry that is there already is not counted again -/
theorem used_add_le (e : SidechainMemoryPoolEntry τ) (m : MempoolMap τ ι) :
    (m.add e).usedPoolSizeBytes ≤ m.usedPoolSizeBytes + e.getSize := by
  have hsize : 0 ≤ e.getSize := Int.natCast_nonneg (BoxTransaction.size e.unconfirmedTx)
  unfold add
  cases m.map.lookup e.txid with
  | some _ =>
    simp only
    omega
  | none => rfl

/-! ## Entries in the order of the sorted set -/

/-- the entries from the lowest key to the highest -/
def lowest (m : MempoolMap τ ι) : List (SidechainMemoryPoolEntry τ) :=
  m.idsSortedByFeeRate.toList.filterMap fun k => m.map.lookup k.txid

theorem Consistent.entryOf_eq {m : MempoolMap τ ι} (h : Consistent m) {k : MempoolMapKey ι}
    (hk : k ∈ m.idsSortedByFeeRate) : ∃ e, m.map.lookup k.txid = some e ∧ m.entryOf k = .ok e ∧ e.key = k := by
  obtain ⟨e, he, hrate⟩ := (h.index k).1 hk
  refine ⟨e, he, ?_, ?_⟩
  · rw [entryOf, he]
  · rw [key, h.keyed _ _ he, hrate]

theorem Consistent.key_lowest {m : MempoolMap τ ι} (h : Consistent m) :
    (lowest m).map key = m.idsSortedByFeeRate.toList ∧
      m.idsSortedByFeeRate.toList.mapM (entryOf m) = .ok (lowest m) := by
  have hall : ∀ l : List (MempoolMapKey ι), (∀ k ∈ l, k ∈ m.idsSortedByFeeRate) →
      (l.filterMap fun k => m.map.lookup k.txid).map key = l ∧
        l.mapM (entryOf m) = .ok (l.filterMap fun k => m.map.lookup k.txid) := by
    intro l hl
    induction l with
    | nil => exact ⟨rfl, rfl⟩
    | cons k l ih =>
      obtain ⟨e, he, hentry, hkey⟩ := h.entryOf_eq (hl k List.mem_cons_self)
      obtain ⟨hmap, hrun⟩ := ih fun k' hk' => hl k' (List.mem_cons_of_mem _ hk')
      have hcons : ((k :: l).filterMap fun k => m.map.lookup k.txid) = e :: l.filterMap fun k => m.map.lookup k.txid :=
        List.filterMap_cons_some he
      rw [hcons, List.map_cons, hkey, hmap, List.mapM_cons, hentry, hrun]
      exact ⟨rfl, rfl⟩
  exact hall _ fun k hk => hk

theorem Consistent.mem_lowest {m : MempoolMap τ ι} (h : Consistent m) {e : SidechainMemoryPoolEntry τ} :
    e ∈ lowest m ↔ e ∈ m.values := by
  rw [lowest, List.mem_filterMap, mem_values]
  constructor
  · rintro ⟨k, -, hk⟩
    exact ⟨k.txid, hk⟩
  · rintro ⟨i, hi⟩
    exact ⟨⟨i, e.getFeeRate⟩, (h.index _).2 ⟨e, hi, rfl⟩, hi⟩

theorem Consistent.used_eq {m : MempoolMap τ ι} (h : Consistent m) : m.usedPoolSizeBytes = sizes m.values := by
  rw [h.used, AssocMap.sum, sizes, values, List.map_map]
  rfl

theorem Consistent.nodup_values {m : MempoolMap τ ι} (h : Consistent m) : m.values.Nodup := by
  have hkeys : m.values.map txid = m.map.keys := by
    rw [values, List.map_map]
    refine List.map_congr_left ?_
    intro x hx
    exact h.keyed x.1 x.2 (AList.mem_lookup_iff.2 hx)
  have hnodup : (m.values.map (txid : SidechainMemoryPoolEntry τ → ι)).Nodup := hkeys ▸ m.map.keys_nodup
  exact hnodup.of_map _

theorem Consistent.nodup_lowest {m : MempoolMap τ ι} (h : Consistent m) : (lowest m).Nodup := by
  have hnodup := m.idsSortedByFeeRate.nodup_toList
  rw [← h.key_lowest.1] at hnodup
  exact hnodup.of_map _

/-- the sorted set leads to all entries -/
theorem Consistent.lowest_perm {m : MempoolMap τ ι} (h : Consistent m) : (lowest m).Perm m.values :=
  (List.perm_ext_iff_of_nodup h.nodup_lowest h.nodup_values).2 fun _ => h.mem_lowest

theorem Consistent.length_lowest {m : MempoolMap τ ι} (h : Consistent m) : (lowest m).length = m.size := by
  rw [h.lowest_perm.length_eq, values, List.length_map, size]

theorem Consistent.takeLowest_eq {m : MempoolMap τ ι} (h : Consistent m) : m.takeLowest m.size = .ok (lowest m) := by
  obtain ⟨hkeys, hrun⟩ := h.key_lowest
  have hlength : m.idsSortedByFeeRate.toList.length = m.size := by
    rw [← hkeys, List.length_map, h.length_lowest]
  rw [takeLowest, ← hlength, List.take_length, hrun]

theorem Consistent.pairwise_key_lowest {m : MempoolMap τ ι} (h : Consistent m) :
    (lowest m).Pairwise fun e e' => e.key < e'.key := by
  have hsorted := m.idsSortedByFeeRate.sorted
  rwa [← h.key_lowest.1, List.pairwise_map] at hsorted

/-- the fee rates go up -/
theorem Consistent.sorted_lowest {m : MempoolMap τ ι} (h : Consistent m) :
    (lowest m).Pairwise fun e e' => e.getFeeRate ≤ e'.getFeeRate := by
  refine h.pairwise_key_lowest.imp ?_
  intro e e' hlt
  rcases MempoolMapKey.lt_def.1 hlt with hrate | ⟨hrate, -⟩
  · exact le_of_lt hrate
  · exact le_of_eq hrate

/-! ## Removing several entries -/

def removeAll (es : List (SidechainMemoryPoolEntry τ)) (m : MempoolMap τ ι) : MempoolMap τ ι :=
  es.foldl (fun m e => m.remove e.txid) m

theorem lookup_removeAll (es : List (SidechainMemoryPoolEntry τ)) (m : MempoolMap τ ι) (j : ι) :
    (removeAll es m).map.lookup j = if j ∈ es.map txid then none else m.map.lookup j := by
  induction es generalizing m with
  | nil => simp [removeAll]
  | cons e es ih =>
    have hcons : removeAll (e :: es) m = removeAll es (m.remove e.txid) := rfl
    rw [hcons, ih, lookup_remove, List.map_cons]
    by_cases hj : j = e.txid
    · simp [hj]
    · simp [hj]

theorem Consistent.removeAll {m : MempoolMap τ ι} (h : Consistent m) (es : List (SidechainMemoryPoolEntry τ)) :
    Consistent (removeAll es m) := by
  induction es generalizing m with
  | nil => exact h
  | cons e es ih => exact ih (h.remove e.txid)

theorem Consistent.used_removeAll {m : MempoolMap τ ι} (h : Consistent m) {es : List (SidechainMemoryPoolEntry τ)}
    (hin : ∀ e ∈ es, e ∈ m.values) (hnodup : es.Nodup) :
    (MempoolMap.removeAll es m).usedPoolSizeBytes = m.usedPoolSizeBytes - sizes es := by
  induction es generalizing m with
  | nil => simp [MempoolMap.removeAll, sizes]
  | cons e es ih =>
    obtain ⟨hnot, hnodup⟩ := List.nodup_cons.1 hnodup
    have he := h.lookup_txid (hin e List.mem_cons_self)
    have hrest : ∀ e' ∈ es, e' ∈ (m.remove e.txid).values := by
      intro e' he'
      have hne : e'.txid ≠ e.txid := by
        intro heq
        exact hnot (h.eq_of_txid (hin e' (List.mem_cons_of_mem _ he')) (hin e List.mem_cons_self) heq ▸ he')
      refine mem_values.2 ⟨e'.txid, ?_⟩
      rw [lookup_remove, if_neg hne]
      exact h.lookup_txid (hin e' (List.mem_cons_of_mem _ he'))
    calc (MempoolMap.removeAll (e :: es) m).usedPoolSizeBytes
        = (MempoolMap.removeAll es (m.remove e.txid)).usedPoolSizeBytes := rfl
      _ = (m.remove e.txid).usedPoolSizeBytes - sizes es := ih (h.remove e.txid) hrest hnodup
      _ = m.usedPoolSizeBytes - e.getSize - sizes es := by rw [used_remove he]
      _ = m.usedPoolSizeBytes - sizes (e :: es) := by
        rw [sizes, sizes, List.map_cons, List.sum_cons]
        ring

end MempoolMap

namespace SidechainMemoryPool

open MempoolMap

/-! ## Making room -/

/-- without the entries `evicted` the new one fits -/
def HasRoom (maxPoolSizeBytes usedSizeBytes : ℤ) (entry : SidechainMemoryPoolEntry τ)
    (evicted : List (SidechainMemoryPoolEntry τ)) : Prop :=
  usedSizeBytes - sizes evicted + entry.getSize ≤ maxPoolSizeBytes

omit [LinearOrder ι] in
theorem makeRoom_spec {maxPoolSizeBytes usedSizeBytes : ℤ} {entries : List (SidechainMemoryPoolEntry τ)}
    {entry : SidechainMemoryPoolEntry τ} {left num : ℕ} {removed : ℤ} (hlength : num + left = entries.length)
    (hremoved : removed = sizes (entries.take num))
    (hfirst : ∀ i < num, ¬ HasRoom maxPoolSizeBytes usedSizeBytes entry (entries.take i))
    (hlow : ∀ e ∈ entries.take num, e.getFeeRate ≤ entry.getFeeRate) :
    (makeRoom maxPoolSizeBytes usedSizeBytes entries entry left num removed = .ok none ∧
      ∀ n ≤ entries.length, HasRoom maxPoolSizeBytes usedSizeBytes entry (entries.take n) →
        ∃ e ∈ entries.take n, entry.getFeeRate < e.getFeeRate) ∨
      ∃ n ≤ entries.length, makeRoom maxPoolSizeBytes usedSizeBytes entries entry left num removed = .ok (some n) ∧
        HasRoom maxPoolSizeBytes usedSizeBytes entry (entries.take n) ∧
        (∀ i < n, ¬ HasRoom maxPoolSizeBytes usedSizeBytes entry (entries.take i)) ∧
        ∀ e ∈ entries.take n, e.getFeeRate ≤ entry.getFeeRate := by
  induction left generalizing num removed with
  | zero =>
    unfold makeRoom
    split_ifs with hfull
    · refine .inl ⟨rfl, ?_⟩
      intro n hn hroom
      -- all entries together do not make room
      rcases Nat.lt_or_ge n num with hlt | hge
      · exact absurd hroom (hfirst n hlt)
      · have hall : n = num := by omega
        rw [HasRoom, hall, ← hremoved] at hroom
        omega
    · refine .inr ⟨num, by omega, rfl, ?_, hfirst, hlow⟩
      rw [HasRoom, ← hremoved]
      omega
  | succ left ih =>
    unfold makeRoom
    split_ifs with hfull
    · have hnum : num < entries.length := by omega
      rw [List.getElem?_eq_getElem hnum]
      simp only
      split_ifs with hrate
      · refine .inl ⟨rfl, ?_⟩
        intro n hn hroom
        rcases Nat.lt_trichotomy n num with hlt | rfl | hgt
        · exact absurd hroom (hfirst n hlt)
        · rw [HasRoom, ← hremoved] at hroom
          omega
        · exact ⟨entries[num], List.mem_take_iff_getElem.2 ⟨num, by omega, rfl⟩, hrate⟩
      -- one more entry goes
      have htake : entries.take (num + 1) = entries.take num ++ [entries[num]] := (List.take_append_getElem hnum).symm
      refine ih (by omega) ?_ ?_ ?_
      · rw [htake, sizes, List.map_append, List.sum_append, hremoved]
        simp [sizes, getSize, feeRate]
      · intro i hi
        rcases Nat.lt_succ_iff_lt_or_eq.1 hi with hlt | rfl
        · exact hfirst i hlt
        · rw [HasRoom, ← hremoved]
          omega
      · intro e he
        rw [htake, List.mem_append, List.mem_singleton] at he
        rcases he with he | rfl
        · exact hlow e he
        · omega
    · refine .inr ⟨num, by omega, rfl, ?_, hfirst, hlow⟩
      rw [HasRoom, ← hremoved]
      omega

/-- `m'` is `m` with the entry, in the place of the first pooled entries in the order of the fee rates: no more than
needed, and none of a higher fee rate -/
def TakesPlace (maxPoolSizeBytes : ℤ) (entry : SidechainMemoryPoolEntry τ) (m m' : MempoolMap τ ι) : Prop :=
  ∃ evicted kept, (evicted ++ kept).Perm m.values ∧
    ((evicted ++ kept).Pairwise fun e e' => e.getFeeRate ≤ e'.getFeeRate) ∧
    (∀ e ∈ evicted, e.getFeeRate ≤ entry.getFeeRate) ∧
    HasRoom maxPoolSizeBytes m.usedPoolSizeBytes entry evicted ∧
    (∀ i < evicted.length, ¬ HasRoom maxPoolSizeBytes m.usedPoolSizeBytes entry (evicted.take i)) ∧
    ∀ i, m'.map.lookup i =
      if i = entry.txid then some entry else if i ∈ evicted.map txid then none else m.map.lookup i

/-- the invariant with the limit -/
structure Pool (settings : MempoolSettings) (m : MempoolMap τ ι) : Prop where
  consistent : Consistent m
  used_le : m.usedPoolSizeBytes ≤ settings.maxPoolSizeBytes

/-- the entry spends no box of another pooled transaction -/
def Fresh (tx : τ) (m : MempoolMap τ ι) : Prop :=
  ∀ e ∈ m.values, BoxTransaction.id tx ≠ BoxTransaction.id e.unconfirmedTx → DisjointInputs tx e.unconfirmedTx

variable {settings : MempoolSettings}

/-- an entry is refused, or the first pooled entries go that make room -/
theorem addWithSizeCheck_cases {m : MempoolMap τ ι} (h : Pool settings m) (entry : SidechainMemoryPoolEntry τ) :
    (exec (addWithSizeCheck settings entry) m = (.ok false, m) ∧
      ∀ n ≤ (lowest m).length, HasRoom settings.maxPoolSizeBytes m.usedPoolSizeBytes entry ((lowest m).take n) →
        ∃ e ∈ (lowest m).take n, entry.getFeeRate < e.getFeeRate) ∨
      ∃ n ≤ (lowest m).length,
        exec (addWithSizeCheck settings entry) m = (.ok true, (removeAll ((lowest m).take n) m).add entry) ∧
        HasRoom settings.maxPoolSizeBytes m.usedPoolSizeBytes entry ((lowest m).take n) ∧
        (∀ i < n, ¬ HasRoom settings.maxPoolSizeBytes m.usedPoolSizeBytes entry ((lowest m).take i)) ∧
        ∀ e ∈ (lowest m).take n, e.getFeeRate ≤ entry.getFeeRate := by
  have hrun : ∀ r, makeRoom settings.maxPoolSizeBytes m.usedPoolSizeBytes (lowest m) entry m.size 0 0 = .ok r →
      exec (addWithSizeCheck settings entry) m =
        r.elim (.ok false, m) fun n => (.ok true, (removeAll ((lowest m).take n) m).add entry) := by
    intro r hr
    rw [addWithSizeCheck, exec_get_bind, h.consistent.takeLowest_eq, exec_orThrow_value_bind, hr,
      exec_orThrow_value_bind]
    cases r <;> rfl
  have hlength : 0 + m.size = (lowest m).length := by rw [h.consistent.length_lowest, Nat.zero_add]
  have hremoved : 0 = sizes ((lowest m).take 0) := rfl
  have hstart : ∀ i < 0, ¬ HasRoom settings.maxPoolSizeBytes m.usedPoolSizeBytes entry ((lowest m).take i) :=
    fun i hi => absurd hi (Nat.not_lt_zero i)
  have hlowStart : ∀ e ∈ (lowest m).take 0, e.getFeeRate ≤ entry.getFeeRate := fun e he => absurd he (by simp)
  rcases makeRoom_spec hlength hremoved hstart hlowStart with ⟨hnone, hall⟩ | ⟨n, hn, hsome, hspec⟩
  · exact .inl ⟨hrun none hnone, hall⟩
  · exact .inr ⟨n, hn, hrun (some n) hsome, hspec⟩

theorem exec_addWithSizeCheck {m : MempoolMap τ ι} (h : Pool settings m) {entry : SidechainMemoryPoolEntry τ}
    (hfresh : Fresh entry.unconfirmedTx m) :
    exec (addWithSizeCheck settings entry) m = (.ok false, m) ∨
      ∃ m', exec (addWithSizeCheck settings entry) m = (.ok true, m') ∧ Pool settings m' ∧
        TakesPlace settings.maxPoolSizeBytes entry m m' := by
  rcases addWithSizeCheck_cases h entry with ⟨hnone, -⟩ | ⟨n, hn, hsome, hroom, hfirst, hlow⟩
  · exact .inl hnone
  · have hin : ∀ e ∈ (lowest m).take n, e ∈ m.values := fun e he => h.consistent.mem_lowest.1 (List.mem_of_mem_take he)
    have hnodup : ((lowest m).take n).Nodup := h.consistent.nodup_lowest.sublist (List.take_sublist _ _)
    have hused := h.consistent.used_removeAll hin hnodup
    have hkept := h.consistent.removeAll ((lowest m).take n)
    refine .inr ⟨_, hsome, ⟨hkept.add entry ?_, ?_⟩, ?_⟩
    · intro e he hne
      obtain ⟨i, hi⟩ := mem_values.1 he
      rw [lookup_removeAll] at hi
      split_ifs at hi with hgone
      exact hfresh e (mem_values.2 ⟨i, hi⟩) hne
    · have hadd := used_add_le entry (MempoolMap.removeAll ((lowest m).take n) m)
      unfold HasRoom at hroom
      omega
    · refine ⟨(lowest m).take n, (lowest m).drop n, ?_, ?_, hlow, hroom, ?_, ?_⟩
      · rw [List.take_append_drop]
        exact h.consistent.lowest_perm
      · rw [List.take_append_drop]
        exact h.consistent.sorted_lowest
      · intro i hi
        rw [List.length_take] at hi
        rw [List.take_take, min_eq_left (by omega)]
        exact hfirst i (by omega)
      · intro i
        rw [lookup_add, lookup_removeAll]

/-- a list of transactions put one after the other: each is left out or takes its place -/
inductive PutInTurn (settings : MempoolSettings) : List τ → MempoolMap τ ι → MempoolMap τ ι → Prop where
  | nil (m : MempoolMap τ ι) : PutInTurn settings [] m m
  | leftOut {t : τ} {txs : List τ} {m m' : MempoolMap τ ι} :
      PutInTurn settings txs m m' → PutInTurn settings (t :: txs) m m'
  | put {t : τ} {txs : List τ} {m m₁ m' : MempoolMap τ ι} :
      TakesPlace settings.maxPoolSizeBytes ⟨t⟩ m m₁ → PutInTurn settings txs m₁ m' →
        PutInTurn settings (t :: txs) m m'

theorem Fresh.after {tx t : τ} {m m' : MempoolMap τ ι} (h : Fresh tx m)
    (hplace : TakesPlace settings.maxPoolSizeBytes ⟨t⟩ m m') (hdisjoint : DisjointInputs tx t) : Fresh tx m' := by
  obtain ⟨evicted, kept, -, -, -, -, -, hlookup⟩ := hplace
  intro e he hne
  obtain ⟨i, hi⟩ := mem_values.1 he
  rw [hlookup i] at hi
  split_ifs at hi with hnew hgone
  · rw [← Option.some.inj hi]
    exact hdisjoint
  · exact h e (mem_values.2 ⟨i, hi⟩) hne

theorem exec_addEach {txs : List τ} {m : MempoolMap τ ι} (h : Pool settings m) (hfresh : ∀ t ∈ txs, Fresh t m)
    (hdisjoint : txs.Pairwise DisjointInputs) :
    ∃ m', exec (addEach settings txs) m = (.ok (), m') ∧ Pool settings m' ∧ PutInTurn settings txs m m' := by
  induction txs generalizing m with
  | nil => exact ⟨m, rfl, h, .nil m⟩
  | cons t txs ih =>
    obtain ⟨hapart, hrest⟩ := List.pairwise_cons.1 hdisjoint
    have hskip := ih h (fun t' ht' => hfresh t' (List.mem_cons_of_mem _ ht')) hrest
    rw [addEach]
    split_ifs with hrate
    · have hfirst : Fresh (SidechainMemoryPoolEntry.mk t).unconfirmedTx m := hfresh t List.mem_cons_self
      rcases exec_addWithSizeCheck h hfirst with hrun | ⟨m₁, hrun, hpool, hplace⟩
      · obtain ⟨m', hexec, hpool, hturn⟩ := hskip
        exact ⟨m', by rw [exec_bind_of_ok hrun, hexec], hpool, .leftOut hturn⟩
      · obtain ⟨m', hexec, hpool', hturn⟩ := ih hpool
          (fun t' ht' => (hfresh t' (List.mem_cons_of_mem _ ht')).after hplace (hapart t' ht').symm) hrest
        exact ⟨m', by rw [exec_bind_of_ok hrun, hexec], hpool', .put hplace hturn⟩
    · obtain ⟨m', hexec, hpool, hturn⟩ := hskip
      exact ⟨m', hexec, hpool, .leftOut hturn⟩

theorem fresh_of_compatible {t : τ} {m : MempoolMap τ ι} (h : isTransactionCompatible t (unconfirmedTxs m) = true) :
    Fresh t m := fun _ he _ => disjointInputs_of_compatible h (List.mem_map_of_mem he)

/-! ## The calls -/

theorem put_cases {m : MempoolMap τ ι} (h : Pool settings m) (tx : τ) :
    (∃ e, exec (put settings tx) m = (.error e, m)) ∨
      ∃ m', exec (put settings tx) m = (.ok (), m') ∧ Pool settings m' ∧
        TakesPlace settings.maxPoolSizeBytes ⟨tx⟩ m m' := by
  rw [put, exec_get_bind]
  by_cases hrate : (⟨tx⟩ : SidechainMemoryPoolEntry τ).getFeeRate < settings.minFeeRate
  · exact .inl ⟨_, exec_throwIf_pos_bind hrate⟩
  rw [exec_throwIf_neg_bind hrate]
  by_cases hcompatible : (isMemoryPoolCompatible tx && isTransactionCompatible tx (unconfirmedTxs m)) = true
  · rw [exec_throwIf_neg_bind (not_not.2 hcompatible)]
    have hfresh : Fresh (SidechainMemoryPoolEntry.mk tx).unconfirmedTx m :=
      fresh_of_compatible (Bool.and_eq_true_iff.1 hcompatible).2
    rcases exec_addWithSizeCheck h hfresh with hrun | ⟨m', hrun, hpool, hplace⟩
    · rw [exec_bind_of_ok hrun]
      exact .inl ⟨.mempoolFull, rfl⟩
    · rw [exec_bind_of_ok hrun]
      exact .inr ⟨m', rfl, hpool, hplace⟩
  · exact .inl ⟨_, exec_throwIf_pos_bind hcompatible⟩

omit [LinearOrder ι] in
theorem pairwise_of_compatibleTails {txs : List τ} (h : compatibleTails txs = true) : txs.Pairwise DisjointInputs := by
  induction txs with
  | nil => exact .nil
  | cons t txs ih =>
    obtain ⟨hfirst, hrest⟩ := Bool.and_eq_true_iff.1 h
    exact .cons (fun t' ht' => disjointInputs_of_compatible (Bool.and_eq_true_iff.1 hfirst).2 ht') (ih hrest)

theorem putAll_cases {m : MempoolMap τ ι} (h : Pool settings m) (txs : List τ) :
    (∃ e, exec (putAll settings txs) m = (.error e, m)) ∨
      ∃ m', exec (putAll settings txs) m = (.ok (), m') ∧ Pool settings m' ∧ PutInTurn settings txs m m' := by
  rw [putAll]
  by_cases htails : compatibleTails txs = false
  · exact .inl ⟨_, exec_throwIf_pos_bind htails⟩
  rw [exec_throwIf_neg_bind htails, exec_get_bind]
  by_cases hpooled : (txs.all fun t => isTransactionCompatible t (unconfirmedTxs m)) = true
  · rw [exec_throwIf_neg_bind (not_not.2 hpooled)]
    have hfresh : ∀ t ∈ txs, Fresh t m := fun t ht => fresh_of_compatible (List.all_eq_true.1 hpooled t ht)
    exact .inr (exec_addEach h hfresh (pairwise_of_compatibleTails (by simpa using htails)))
  · exact .inl ⟨_, exec_throwIf_pos_bind hpooled⟩

/-- what is left after the incompatible transactions are removed is compatible -/
theorem pairwise_without {txs removed : List τ} (h : ∀ t ∈ txToRemove txs, t ∈ removed) :
    (without removed txs).Pairwise DisjointInputs := by
  induction txs with
  | nil => exact .nil
  | cons t txs ih =>
    have hrest : ∀ t' ∈ txToRemove txs, t' ∈ removed := by
      intro t' ht'
      refine h t' ?_
      rw [txToRemove]
      split_ifs
      · exact ht'
      · exact List.mem_cons_of_mem _ ht'
    unfold without at ih ⊢
    rw [List.filter_cons]
    split_ifs with hkept
    · refine .cons ?_ (ih hrest)
      intro t' ht'
      by_cases hcompatible : isTransactionCompatible t txs = true
      · exact disjointInputs_of_compatible hcompatible (List.mem_filter.1 ht').1
      · have hmem : t ∈ removed := h t (by rw [txToRemove, if_neg hcompatible]; exact List.mem_cons_self)
        have hnot : BoxTransaction.id t ∉ removed.map BoxTransaction.id := of_decide_eq_true hkept
        exact absurd (List.mem_map_of_mem hmem) hnot
    · exact ih hrest

theorem putWithoutCheck_ok {m : MempoolMap τ ι} (h : Pool settings m) (txs : List τ) :
    ∃ m', exec (putWithoutCheck settings txs) m = (.ok (), m') ∧ Pool settings m' := by
  rw [putWithoutCheck, exec_get_bind]
  have hfresh : ∀ t ∈ without ((without (txToRemove txs) txs).filter fun t =>
      !isTransactionCompatible t (unconfirmedTxs m)) (without (txToRemove txs) txs), Fresh t m := by
    intro t ht
    obtain ⟨hin, hkept⟩ := List.mem_filter.1 ht
    refine fresh_of_compatible ?_
    by_contra hnot
    have hremoved : t ∈ (without (txToRemove txs) txs).filter fun t => !isTransactionCompatible t (unconfirmedTxs m) :=
      List.mem_filter.2 ⟨hin, by simpa using hnot⟩
    exact (of_decide_eq_true hkept) (List.mem_map_of_mem hremoved)
  have hpairwise := (pairwise_without (fun t ht => ht) : (without (txToRemove txs) txs).Pairwise DisjointInputs)
  obtain ⟨m', hexec, hpool, -⟩ := exec_addEach h hfresh (hpairwise.sublist List.filter_sublist)
  exact ⟨m', hexec, hpool⟩

/-- the constructor, over entries that are not there yet -/
theorem foldl_addInitial {es : List (SidechainMemoryPoolEntry τ)} {m : MempoolMap τ ι} (h : Consistent m)
    (hnew : ∀ e ∈ es, m.map.lookup e.txid = none) (hnodup : (es.map txid).Nodup)
    (hfresh : ∀ e ∈ es, Fresh e.unconfirmedTx m)
    (hdisjoint : es.Pairwise fun e e' => DisjointInputs e.unconfirmedTx e'.unconfirmedTx) :
    Consistent (es.foldl addInitial m) ∧
      (es.foldl addInitial m).usedPoolSizeBytes = m.usedPoolSizeBytes + sizes es := by
  induction es generalizing m with
  | nil => exact ⟨h, by simp [sizes]⟩
  | cons e es ih =>
    obtain ⟨hnot, hnodup⟩ := List.nodup_cons.1 hnodup
    obtain ⟨hfirst, hrest⟩ := List.pairwise_cons.1 hdisjoint
    have hadd : m.addInitial e = m.add e := by rw [addInitial, add, hnew e List.mem_cons_self]
    have hused : (m.add e).usedPoolSizeBytes = m.usedPoolSizeBytes + e.getSize := by
      rw [add, hnew e List.mem_cons_self]
    have hnew' : ∀ e' ∈ es, (m.add e).map.lookup e'.txid = none := by
      intro e' he'
      have hne : e'.txid ≠ e.txid := fun heq => hnot (heq ▸ List.mem_map_of_mem he')
      rw [lookup_add, if_neg hne]
      exact hnew e' (List.mem_cons_of_mem _ he')
    have hfresh' : ∀ e' ∈ es, Fresh e'.unconfirmedTx (m.add e) := by
      intro e' he' e₀ he₀ hne
      obtain ⟨i, hi⟩ := mem_values.1 he₀
      rw [lookup_add] at hi
      split_ifs at hi with hie
      · rw [← Option.some.inj hi]
        exact (hfirst e' he').symm
      · exact hfresh e' (List.mem_cons_of_mem _ he') e₀ (mem_values.2 ⟨i, hi⟩) hne
    obtain ⟨hconsistent, hsum⟩ := ih (h.add e (hfresh e List.mem_cons_self)) hnew' hnodup hfresh' hrest
    rw [List.foldl_cons, hadd]
    refine ⟨hconsistent, ?_⟩
    rw [hsum, hused, sizes, sizes, List.map_cons, List.sum_cons, add_assoc]

omit [LinearOrder ι] in
theorem sizes_filter_le (p : SidechainMemoryPoolEntry τ → Bool) (es : List (SidechainMemoryPoolEntry τ)) :
    sizes (es.filter p) ≤ sizes es := by
  refine List.Sublist.sum_le_sum (List.filter_sublist.map _) ?_
  intro x hx
  obtain ⟨e, -, rfl⟩ := List.mem_map.1 hx
  exact Int.natCast_nonneg _

theorem pool_filter {m : MempoolMap τ ι} (h : Pool settings m) (p : SidechainMemoryPoolEntry τ → Bool) :
    Pool settings (.ofValues (m.values.filter p)) := by
  have hnodup : (m.values.filter p).Nodup := h.consistent.nodup_values.filter p
  have hdisjoint : (m.values.filter p).Pairwise fun e e' => DisjointInputs e.unconfirmedTx e'.unconfirmedTx := by
    refine hnodup.pairwise_of_forall_ne ?_
    intro e he e' he' hne
    refine h.consistent.disjoint e (List.mem_filter.1 he).1 e' (List.mem_filter.1 he').1 fun heq => hne ?_
    exact h.consistent.eq_of_txid (List.mem_filter.1 he).1 (List.mem_filter.1 he').1 heq
  have hids : ((m.values.filter p).map txid).Nodup :=
    hnodup.map_on fun e he e' he' => h.consistent.eq_of_txid (List.mem_filter.1 he).1 (List.mem_filter.1 he').1
  have hempty : Consistent (createEmptyMempool : MempoolMap τ ι) := consistent_empty
  obtain ⟨hconsistent, hused⟩ := foldl_addInitial hempty (fun _ _ => rfl) hids (fun _ _ e he => by
    obtain ⟨i, hi⟩ := mem_values.1 he
    cases hi) hdisjoint
  refine ⟨hconsistent, ?_⟩
  have hle := sizes_filter_le p m.values
  have hall := h.consistent.used_eq
  have hlimit := h.used_le
  change (List.foldl addInitial createEmptyMempool (m.values.filter p)).usedPoolSizeBytes ≤ _
  rw [hused]
  change 0 + sizes (m.values.filter p) ≤ _
  omega

theorem pool_step {m : MempoolMap τ ι} (h : Pool settings m) (call : Call τ) :
    Pool settings (exec (call.exec settings) m).2 := by
  cases call with
  | put tx =>
    rcases put_cases h tx with ⟨e, hexec⟩ | ⟨m', hexec, hpool, -⟩
    · rw [Call.exec, hexec]
      exact h
    · rw [Call.exec, hexec]
      exact hpool
  | putAll txs =>
    rcases putAll_cases h txs with ⟨e, hexec⟩ | ⟨m', hexec, hpool, -⟩
    · rw [Call.exec, hexec]
      exact h
    · rw [Call.exec, hexec]
      exact hpool
  | putWithoutCheck txs =>
    obtain ⟨m', hexec, hpool⟩ := putWithoutCheck_ok h txs
    rw [Call.exec, hexec]
    exact hpool
  | remove tx =>
    refine ⟨h.consistent.remove _, ?_⟩
    change (m.remove (BoxTransaction.id tx)).usedPoolSizeBytes ≤ _
    have hlimit := h.used_le
    cases hlookup : m.map.lookup (BoxTransaction.id tx) with
    | none =>
      rw [MempoolMap.remove, hlookup]
      exact hlimit
    | some e =>
      have hsize : 0 ≤ e.getSize := Int.natCast_nonneg (BoxTransaction.size e.unconfirmedTx)
      rw [used_remove hlookup]
      omega
  | filter condition => exact pool_filter h _
  | filterOut txs => exact pool_filter h _

theorem maxPoolSizeBytes_eq (hlow : 1 ≤ settings.maxSize) (hhigh : settings.maxSize ≤ 300) :
    settings.maxPoolSizeBytes = settings.maxSize * 1024 * 1024 := by
  unfold MempoolSettings.maxPoolSizeBytes
  rw [MachineInt.intOf_mul_intOf, MachineInt.intOf_eq]
  constructor <;> omega

theorem pool_of_reachable_nonneg (hmax : 0 ≤ settings.maxPoolSizeBytes) {m : MempoolMap τ ι}
    (h : Reachable settings m) : Pool settings m := by
  induction h with
  | empty => exact ⟨consistent_empty, hmax⟩
  | step call _ ih => exact pool_step ih call

theorem pool_of_reachable (hlow : 1 ≤ settings.maxSize) (hhigh : settings.maxSize ≤ 300) {m : MempoolMap τ ι}
    (h : Reachable settings m) : Pool settings m := by
  refine pool_of_reachable_nonneg ?_ h
  rw [maxPoolSizeBytes_eq hlow hhigh]
  omega

/-- what a call of `put` does in `m` -/
def PutKeeps (settings : MempoolSettings) (m : MempoolMap τ ι) : Prop :=
  (∀ tx, (∃ e, exec (put settings tx) m = (.error e, m)) ∨
    ∃ m', exec (put settings tx) m = (.ok (), m') ∧ TakesPlace (settings.maxSize * 1024 * 1024) ⟨tx⟩ m m') ∧
  ∀ txs, (∃ e, exec (putAll settings txs) m = (.error e, m)) ∨
    ∃ m', exec (putAll settings txs) m = (.ok (), m') ∧ PutInTurn settings txs m m'

/-- **The pool.** After any calls: the counter is the sum of the sizes and within the limit, the sorted set has exactly the
keys of the pooled entries, and different entries spend different boxes. A `put` that fails changes nothing; one that
succeeds lets entries of lowest fee rate go until the new one fits. -/
theorem mempool_invariant (hlow : 1 ≤ settings.maxSize) (hhigh : settings.maxSize ≤ 300) {m : MempoolMap τ ι}
    (h : Reachable settings m) :
    m.usedPoolSizeBytes = sizes m.values ∧ m.usedPoolSizeBytes ≤ settings.maxSize * 1024 * 1024 ∧
    (∀ k, k ∈ m.idsSortedByFeeRate.toList ↔ ∃ e ∈ m.values, e.key = k) ∧
    (m.idsSortedByFeeRate.toList.Pairwise fun k k' => MempoolMapKey.compare k k' = .lt) ∧
    (∀ e ∈ m.values, ∀ e' ∈ m.values, e.txid ≠ e'.txid → DisjointInputs e.unconfirmedTx e'.unconfirmedTx) ∧
    PutKeeps settings m := by
  have hpool := pool_of_reachable hlow hhigh h
  have hmax := maxPoolSizeBytes_eq hlow hhigh
  refine ⟨hpool.consistent.used_eq, hmax ▸ hpool.used_le, ?_, ?_, hpool.consistent.disjoint, ?_, ?_⟩
  · intro k
    rw [← hpool.consistent.key_lowest.1, List.mem_map]
    simp only [hpool.consistent.mem_lowest]
  · exact m.idsSortedByFeeRate.sorted.imp MempoolMapKey.compare_eq_lt.2
  · intro tx
    rcases put_cases hpool tx with hfail | ⟨m', hexec, -, hplace⟩
    · exact .inl hfail
    · exact .inr ⟨m', hexec, hmax ▸ hplace⟩
  · intro txs
    rcases putAll_cases hpool txs with hfail | ⟨m', hexec, -, hturn⟩
    · exact .inl hfail
    · exact .inr ⟨m', hexec, hturn⟩

/-- a pooled transaction with inputs is not put a second time -/
theorem put_pooled_fails {m : MempoolMap τ ι} {tx : τ} (htx : tx ∈ unconfirmedTxs m) (hinputs : closedBoxIds tx ≠ []) :
    ∃ e, exec (put settings tx) m = (.error e, m) := by
  have hnot : ¬ (isMemoryPoolCompatible tx && isTransactionCompatible tx (unconfirmedTxs m)) = true := by
    intro hcompatible
    obtain ⟨boxId, hbox⟩ := List.exists_mem_of_ne_nil _ hinputs
    exact disjointInputs_of_compatible (Bool.and_eq_true_iff.1 hcompatible).2 htx boxId hbox hbox
  rw [put, exec_get_bind]
  by_cases hrate : (⟨tx⟩ : SidechainMemoryPoolEntry τ).getFeeRate < settings.minFeeRate
  · exact ⟨_, exec_throwIf_pos_bind hrate⟩
  · rw [exec_throwIf_neg_bind hrate]
    exact ⟨_, exec_throwIf_pos_bind hnot⟩

/-! A fixed run. Transactions are numbers, which are their ids, their fees and the boxes they spend. -/

structure NumberedTx where
  number : ℕ

instance : BoxTransaction NumberedTx ℕ where
  id := NumberedTx.number
  fee := fun tx => tx.number
  size := fun _ => 400000
  closedBoxIds := fun tx => [[UInt8.ofNat tx.number]]
  isMemoryPoolCompatible := fun _ => true
  extraCompatible := fun _ _ => true
  same_content := by
    rintro ⟨a⟩ ⟨b⟩ rfl
    exact ⟨rfl, rfl, rfl⟩

/-- one megabyte holds two of three transactions, and those with the higher fees stay -/
theorem mempool_invariant_two_puts :
    ∃ m : MempoolMap NumberedTx ℕ, unconfirmedTxs m = [⟨7⟩, ⟨6⟩] ∧ m.usedPoolSizeBytes = 800000 ∧
      m.usedPoolSizeBytes = sizes m.values ∧ PutKeeps ⟨1, 0⟩ m := by
  have hreachable : Reachable ⟨1, 0⟩ _ :=
    .step (.put (⟨7⟩ : NumberedTx)) (.step (.put ⟨6⟩) (.step (.put ⟨5⟩) .empty))
  have hinvariant := mempool_invariant (by decide) (by decide) hreachable
  exact ⟨_, rfl, rfl, hinvariant.1, hinvariant.2.2.2.2.2⟩

end SidechainMemoryPool

end SidechainsSdk.Utxo.Mempool
