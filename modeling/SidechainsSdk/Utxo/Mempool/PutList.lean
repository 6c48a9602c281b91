/-
A list of transactions put into the UTXO mempool (`put` of `utxo/mempool/SidechainMemoryPool.scala` with several
transactions). The comments there ask for all transactions or none. The compatibility is asked before the first one is
added; the fee rate and the room are asked one by one, and the result is not looked at.

- `RoomFor`: the pooled entries that go for a list, read off from the sizes: each of them may go and comes before all
  transactions of the list that are in already.
- `roomFor_cons`: the first transaction of the list and what is left for the others.
- `addWithSizeCheck_keeps`, `addWithSizeCheck_loses`: one turn of the loop keeps the list in the pool if only such entries
  go, and loses one of its transactions for good otherwise.
- `putAll_allOrNothing`: when a list is put as a whole.
-/
import Mathlib.Tactic
import SidechainsSdk.Utxo.Mempool.PoolInvariant

namespace SidechainsSdk.Utxo.Mempool

open Fallible BoxTransaction SidechainMemoryPoolEntry

variable {τ ι : Type} [LinearOrder ι] [BoxTransaction τ ι]

section Sizes

omit [LinearOrder ι]

@[simp] theorem sizes_nil : sizes ([] : List (SidechainMemoryPoolEntry τ)) = 0 := rfl

@[simp] theorem sizes_cons (e : SidechainMemoryPoolEntry τ) (es : List (SidechainMemoryPoolEntry τ)) :
    sizes (e :: es) = e.getSize + sizes es := by
  rw [sizes, sizes, List.map_cons, List.sum_cons]

@[simp] theorem sizes_append (es es' : List (SidechainMemoryPoolEntry τ)) : sizes (es ++ es') = sizes es + sizes es' := by
  rw [sizes, sizes, sizes, List.map_append, List.sum_append]

theorem getSize_nonneg (e : SidechainMemoryPoolEntry τ) : 0 ≤ e.getSize :=
  Int.natCast_nonneg (BoxTransaction.size e.unconfirmedTx)

theorem sizes_nonneg (es : List (SidechainMemoryPoolEntry τ)) : 0 ≤ sizes es := by
  induction es with
  | nil => exact le_refl 0
  | cons e es ih =>
    have hsize := getSize_nonneg e
    rw [sizes_cons]
    omega

theorem sizes_perm {es es' : List (SidechainMemoryPoolEntry τ)} (h : es.Perm es') : sizes es = sizes es' :=
  (h.map getSize).sum_eq

theorem sizes_take_add_drop (n : ℕ) (es : List (SidechainMemoryPoolEntry τ)) :
    sizes (es.take n) + sizes (es.drop n) = sizes es := by
  rw [← sizes_append, List.take_append_drop]

end Sizes

namespace SidechainMemoryPool

open MempoolMap

/-! ## Room for a list -/

/-- `n` entries go for the entry, the first `n` of `pooled` and none of the `added` ones -/
structure GoFor (maxPoolSizeBytes : ℤ) (pooled added : List (SidechainMemoryPoolEntry τ))
    (entry : SidechainMemoryPoolEntry τ) (n : ℕ) : Prop where
  le : n ≤ pooled.length
  room : HasRoom maxPoolSizeBytes (sizes (pooled ++ added)) entry (pooled.take n)
  first : ∀ i < n, ¬ HasRoom maxPoolSizeBytes (sizes (pooled ++ added)) entry (pooled.take i)
  allowed : ∀ a ∈ pooled.take n, a.getFeeRate ≤ entry.getFeeRate ∧ ∀ b ∈ added, a.key < b.key

/-- room for the `new` entries after the `added` ones: they are not too large together, and a pooled entry that has to go
for one of them has no higher fee rate and comes before the entries added until then -/
def RoomFor (maxPoolSizeBytes : ℤ) (pooled added new : List (SidechainMemoryPoolEntry τ)) : Prop :=
  sizes (added ++ new) ≤ maxPoolSizeBytes ∧
  ∀ gone a kept before entry after, pooled = gone ++ a :: kept → new = before ++ entry :: after →
    sizes (a :: kept) + sizes (added ++ before) ≤ maxPoolSizeBytes →
    maxPoolSizeBytes < sizes (a :: kept) + sizes (added ++ before) + entry.getSize →
    a.getFeeRate ≤ entry.getFeeRate ∧ ∀ b ∈ added ++ before, a.key < b.key

omit [LinearOrder ι] in
theorem hasRoom_take_iff {maxPoolSizeBytes : ℤ} {pooled added : List (SidechainMemoryPoolEntry τ)}
    {entry : SidechainMemoryPoolEntry τ} {n : ℕ} :
    HasRoom maxPoolSizeBytes (sizes (pooled ++ added)) entry (pooled.take n) ↔
      sizes (pooled.drop n) + sizes added + entry.getSize ≤ maxPoolSizeBytes := by
  have hsplit := sizes_take_add_drop n pooled
  rw [HasRoom, sizes_append]
  omega

omit [LinearOrder ι] in
theorem exists_split {a : SidechainMemoryPoolEntry τ} {pooled : List (SidechainMemoryPoolEntry τ)} {n : ℕ}
    (h : a ∈ pooled.take n) : ∃ gone kept, pooled = gone ++ a :: kept ∧ gone.length < n := by
  obtain ⟨i, hi, rfl⟩ := List.mem_take_iff_getElem.1 h
  refine ⟨pooled.take i, pooled.drop (i + 1), ?_, ?_⟩
  · rw [List.getElem_cons_drop, List.take_append_drop]
  · rw [List.length_take]
    omega

theorem roomFor_cons {maxPoolSizeBytes : ℤ} {pooled added new : List (SidechainMemoryPoolEntry τ)}
    {entry : SidechainMemoryPoolEntry τ} (hused : sizes (pooled ++ added) ≤ maxPoolSizeBytes) :
    RoomFor maxPoolSizeBytes pooled added (entry :: new) ↔
      ∃ n, GoFor maxPoolSizeBytes pooled added entry n ∧
        RoomFor maxPoolSizeBytes (pooled.drop n) (added ++ [entry]) new := by
  have happend : added ++ entry :: new = added ++ [entry] ++ new := by simp
  constructor
  · rintro ⟨htotal, hgo⟩
    have hall : HasRoom maxPoolSizeBytes (sizes (pooled ++ added)) entry (pooled.take pooled.length) := by
      have hnew := sizes_nonneg new
      rw [hasRoom_take_iff, List.drop_length, sizes_nil]
      rw [sizes_append, sizes_cons] at htotal
      omega
    classical
    have hex : ∃ n, HasRoom maxPoolSizeBytes (sizes (pooled ++ added)) entry (pooled.take n) := ⟨_, hall⟩
    refine ⟨Nat.find hex, ⟨Nat.find_min' hex hall, Nat.find_spec hex, fun i hi => Nat.find_min hex hi, ?_⟩, ?_, ?_⟩
    · intro a ha
      obtain ⟨gone, kept, hsplit, hlt⟩ := exists_split ha
      have hfull := Nat.find_min hex hlt
      rw [hasRoom_take_iff, hsplit, List.drop_left] at hfull
      have hgone := sizes_nonneg gone
      rw [hsplit, sizes_append, sizes_append] at hused
      refine (List.append_nil added) ▸ hgo gone a kept [] entry new hsplit rfl ?_ ?_
      · rw [List.append_nil]
        omega
      · rw [List.append_nil]
        omega
    · rwa [← happend]
    · intro gone a kept before entry' after hsplit hnew hle hlt
      have hpooled : pooled = (pooled.take (Nat.find hex) ++ gone) ++ a :: kept := by
        rw [List.append_assoc, ← hsplit, List.take_append_drop]
      have hbefore : added ++ [entry] ++ before = added ++ entry :: before := by simp
      rw [hbefore] at hle hlt ⊢
      exact hgo _ a kept (entry :: before) entry' after hpooled (by rw [hnew]; rfl) hle hlt
  · rintro ⟨n, ⟨hn, hroom, hfirst, hallowed⟩, htotal, hgo⟩
    rw [hasRoom_take_iff] at hroom
    refine ⟨by rwa [happend], ?_⟩
    intro gone a kept before entry' after hsplit hnew hle hlt
    cases before with
    | nil =>
      obtain ⟨rfl, rfl⟩ := List.cons.inj hnew
      rw [List.append_nil] at hlt ⊢
      refine hallowed a ?_
      -- with `a` there is no room yet
      have hlast : gone.length < n := by
        by_contra hge
        have hdrop : pooled.drop n = gone.drop n ++ a :: kept := by
          rw [hsplit, List.drop_append_of_le_length (by omega)]
        have hnonneg := sizes_nonneg (gone.drop n)
        rw [hdrop, sizes_append] at hroom
        omega
      refine List.mem_take_iff_getElem.2 ⟨gone.length, ?_, ?_⟩
      · rw [hsplit, List.length_append, List.length_cons]
        omega
      · simp [hsplit]
    | cons first before =>
      obtain ⟨rfl, rfl⟩ := List.cons.inj hnew
      have hbefore : added ++ entry :: before = added ++ [entry] ++ before := by simp
      rw [hbefore] at hle hlt ⊢
      -- there is room for the first one already without the entries before `a`
      have hlast : n ≤ gone.length := by
        by_contra hlt'
        refine hfirst gone.length (by omega) ?_
        have hnonneg := sizes_nonneg before
        rw [hasRoom_take_iff, hsplit, List.drop_left]
        rw [sizes_append (added ++ [entry]), sizes_append added, sizes_cons entry, sizes_nil] at hle
        omega
      refine hgo (gone.drop n) a kept before entry' after ?_ rfl hle hlt
      rw [hsplit, List.drop_append_of_le_length hlast]

/-! ## One turn of the loop -/

variable {settings : MempoolSettings}

/-- the pool holds what is left of the entries it had, and the ones added since -/
structure Holds (settings : MempoolSettings) (pooled added : List (SidechainMemoryPoolEntry τ)) (m : MempoolMap τ ι) :
    Prop where
  pool : Pool settings m
  perm : m.values.Perm (pooled ++ added)
  sorted : pooled.Pairwise fun a b => a.key < b.key

instance : Std.Irrefl fun a b : SidechainMemoryPoolEntry τ => a.key < b.key := ⟨fun a => lt_irrefl a.key⟩

instance : Std.Asymm fun a b : SidechainMemoryPoolEntry τ => a.key < b.key := ⟨fun _ _ h => lt_asymm h⟩

variable {pooled added : List (SidechainMemoryPoolEntry τ)} {m : MempoolMap τ ι} {entry : SidechainMemoryPoolEntry τ}

theorem Holds.used_eq (h : Holds settings pooled added m) : m.usedPoolSizeBytes = sizes (pooled ++ added) := by
  rw [h.pool.consistent.used_eq, sizes_perm h.perm]

theorem Holds.used_le (h : Holds settings pooled added m) : sizes (pooled ++ added) ≤ settings.maxPoolSizeBytes :=
  h.used_eq ▸ h.pool.used_le

theorem Holds.lowest_perm (h : Holds settings pooled added m) : (lowest m).Perm (pooled ++ added) :=
  h.pool.consistent.lowest_perm.trans h.perm

theorem Holds.nodup (h : Holds settings pooled added m) : (pooled ++ added).Nodup :=
  h.perm.nodup_iff.1 h.pool.consistent.nodup_values

/-- the entries that may go come first in the order of the sorted keys -/
theorem Holds.take_lowest (h : Holds settings pooled added m) {n : ℕ} (hn : n ≤ pooled.length)
    (hbefore : ∀ a ∈ pooled.take n, ∀ b ∈ added, a.key < b.key) : (lowest m).take n = pooled.take n := by
  have hlength : (pooled.take n).length = n := by
    rw [List.length_take]
    omega
  have htake := take_eq_of_lower h.pool.consistent.pairwise_key_lowest (h.sorted.sublist (List.take_sublist n pooled))
    (fun a ha => h.lowest_perm.mem_iff.2 (List.mem_append_left _ (List.mem_of_mem_take ha))) (by
      intro a ha b hb hnot
      rcases List.mem_append.1 (h.lowest_perm.mem_iff.1 hb) with hpooled | hadded
      · have hsorted := h.sorted
        rw [← List.take_append_drop n pooled, List.mem_append] at hpooled
        rw [← List.take_append_drop n pooled, List.pairwise_append] at hsorted
        exact hsorted.2.2 a ha b (hpooled.resolve_left hnot)
      · exact hbefore a ha b hadded)
  rwa [hlength] at htake

/-- if none of the added entries goes, the first pooled ones do -/
theorem Holds.take_pooled (h : Holds settings pooled added m) {n : ℕ} (hn : n ≤ (lowest m).length)
    (hkept : ∀ b ∈ added, b ∉ (lowest m).take n) :
    n ≤ pooled.length ∧ pooled.take n = (lowest m).take n ∧ ∀ a ∈ pooled.take n, ∀ b ∈ added, a.key < b.key := by
  have hlength : ((lowest m).take n).length = n := by
    rw [List.length_take]
    omega
  have hsorted := h.pool.consistent.pairwise_key_lowest
  have hcross := hsorted
  rw [← List.take_append_drop n (lowest m), List.pairwise_append] at hcross
  have hrest : ∀ a ∈ (lowest m).take n, ∀ b ∈ pooled ++ added, b ∉ (lowest m).take n → a.key < b.key := by
    intro a ha b hb hnot
    have hmem := h.lowest_perm.mem_iff.2 hb
    rw [← List.take_append_drop n (lowest m), List.mem_append] at hmem
    exact hcross.2.2 a ha b (hmem.resolve_left hnot)
  have htake := take_eq_of_lower h.sorted (hsorted.sublist (List.take_sublist n _)) (by
    intro a ha
    rcases List.mem_append.1 (h.lowest_perm.mem_iff.1 (List.mem_of_mem_take ha)) with hpooled | hadded
    · exact hpooled
    · exact absurd ha (hkept a hadded)) (fun a ha b hb => hrest a ha b (List.mem_append_left _ hb))
  rw [hlength] at htake
  refine ⟨?_, htake, ?_⟩
  · rw [← htake, List.length_take] at hlength
    omega
  rw [htake]
  exact fun a ha b hb => hrest a ha b (List.mem_append_right _ hb) (hkept b hb)

/-- an entry with an id of its own in the place of pooled ones -/
theorem mem_values_add_removeAll (h : Consistent m) {evicted : List (SidechainMemoryPoolEntry τ)}
    (hin : ∀ e ∈ evicted, e ∈ m.values) (hnew : ∀ e ∈ m.values, e.txid ≠ entry.txid)
    {e : SidechainMemoryPoolEntry τ} :
    e ∈ ((removeAll evicted m).add entry).values ↔ e = entry ∨ e ∈ m.values ∧ e ∉ evicted := by
  rw [mem_values]
  constructor
  · rintro ⟨i, hi⟩
    rw [lookup_add, lookup_removeAll] at hi
    split_ifs at hi with hnew hgone
    · exact .inl (Option.some.inj hi).symm
    · refine .inr ⟨mem_values.2 ⟨i, hi⟩, ?_⟩
      intro hmem
      exact hgone (h.keyed i e hi ▸ List.mem_map_of_mem hmem)
  · rintro (rfl | ⟨hmem, hkept⟩)
    · exact ⟨e.txid, by rw [lookup_add, if_pos rfl]⟩
    · refine ⟨e.txid, ?_⟩
      rw [lookup_add, lookup_removeAll]
      split_ifs with hsame hgone
      · exact absurd hsame (hnew e hmem)
      · obtain ⟨e', he', heq⟩ := List.mem_map.1 hgone
        exact absurd (h.eq_of_txid (hin e' he') hmem heq ▸ he') hkept
      · exact h.lookup_txid hmem

theorem addWithSizeCheck_after (h : Pool settings m) (hfresh : Fresh entry.unconfirmedTx m) {b : Bool}
    {m' : MempoolMap τ ι} (hrun : exec (addWithSizeCheck settings entry) m = (.ok b, m')) :
    Pool settings m' ∧ ∀ e ∈ m'.values, e ∈ m.values ∨ e = entry := by
  rcases exec_addWithSizeCheck h hfresh with hfalse | ⟨m₁, htrue, hpool, evicted, kept, -, -, -, -, -, hlookup⟩
  · obtain rfl := (Prod.mk.inj (hfalse.symm.trans hrun)).2
    exact ⟨h, fun e he => .inl he⟩
  · obtain rfl := (Prod.mk.inj (htrue.symm.trans hrun)).2
    refine ⟨hpool, ?_⟩
    intro e he
    obtain ⟨i, hi⟩ := mem_values.1 he
    rw [hlookup i] at hi
    split_ifs at hi with hnew hgone
    · exact .inr (Option.some.inj hi).symm
    · exact .inl (mem_values.2 ⟨i, hi⟩)

theorem addWithSizeCheck_keeps (h : Holds settings pooled added m) (hnew : ∀ e ∈ m.values, e.txid ≠ entry.txid)
    (hfresh : Fresh entry.unconfirmedTx m) {n : ℕ} (hgo : GoFor settings.maxPoolSizeBytes pooled added entry n) :
    ∃ m', exec (addWithSizeCheck settings entry) m = (.ok true, m') ∧
      Holds settings (pooled.drop n) (added ++ [entry]) m' := by
  obtain ⟨hn, hroom, hfirst, hallowed⟩ := hgo
  have htake : ∀ i ≤ n, (lowest m).take i = pooled.take i := by
    intro i hi
    refine h.take_lowest (by omega) ?_
    intro a ha
    exact (hallowed a ((List.take_subset_take_left pooled hi) ha)).2
  have hlength : pooled.length ≤ (lowest m).length := by
    rw [h.lowest_perm.length_eq, List.length_append]
    omega
  rw [← h.used_eq] at hroom hfirst
  rcases addWithSizeCheck_cases h.pool entry with ⟨-, hnone⟩ | ⟨n', hn', hrun, hroom', hfirst', -⟩
  · obtain ⟨e, he, hlt⟩ := hnone n (by omega) (by rwa [htake n le_rfl])
    rw [htake n le_rfl] at he
    have hle := (hallowed e he).1
    omega
  · -- both are the first number of entries that makes room
    have heq : n' = n := by
      rcases Nat.lt_trichotomy n' n with hlt | heq | hgt
      · exact absurd (htake n' hlt.le ▸ hroom') (hfirst n' hlt)
      · exact heq
      · exact absurd ((htake n le_rfl).symm ▸ hroom) (hfirst' n hgt)
    subst heq
    rw [htake n' le_rfl] at hrun
    have hpool := (addWithSizeCheck_after h.pool hfresh hrun).1
    refine ⟨_, hrun, hpool, ?_, h.sorted.sublist (List.drop_sublist _ _)⟩
    have hnodup := h.nodup
    rw [← List.take_append_drop n' pooled, List.append_assoc] at hnodup
    obtain ⟨-, hrest, hapart⟩ := List.nodup_append'.1 hnodup
    have hnot : entry ∉ pooled.drop n' ++ added := by
      intro hmem
      refine hnew entry (h.perm.mem_iff.2 ?_) rfl
      rw [← List.take_append_drop n' pooled, List.append_assoc]
      exact List.mem_append_right _ hmem
    rw [← List.append_assoc]
    refine (List.perm_ext_iff_of_nodup hpool.consistent.nodup_values ?_).2 ?_
    · rw [List.nodup_append']
      exact ⟨hrest, List.nodup_singleton entry, by simpa using hnot⟩
    · intro e
      have hsplit : e ∈ m.values ↔ e ∈ pooled.take n' ∨ e ∈ pooled.drop n' ++ added := by
        rw [h.perm.mem_iff, ← List.mem_append, ← List.append_assoc, List.take_append_drop]
      have hout : e ∈ pooled.drop n' ++ added ++ [entry] ↔ e ∈ pooled.drop n' ++ added ∨ e = entry := by
        rw [List.mem_append, List.mem_singleton]
      have hgone : ∀ e ∈ pooled.take n', e ∈ m.values := fun e he =>
        h.perm.mem_iff.2 (List.mem_append_left _ (List.mem_of_mem_take he))
      rw [mem_values_add_removeAll h.pool.consistent hgone hnew, hsplit, hout]
      constructor
      · rintro (rfl | ⟨hgone | hkept, hne⟩)
        · exact .inr rfl
        · exact absurd hgone hne
        · exact .inl hkept
      · rintro (hkept | rfl)
        · exact .inr ⟨.inr hkept, fun hgone => hapart hgone hkept⟩
        · exact .inl rfl

theorem addWithSizeCheck_loses (h : Holds settings pooled added m) (hnew : ∀ e ∈ m.values, e.txid ≠ entry.txid)
    (hgo : ¬ ∃ n, GoFor settings.maxPoolSizeBytes pooled added entry n) :
    ∃ b m', exec (addWithSizeCheck settings entry) m = (.ok b, m') ∧ ∃ e ∈ added ++ [entry], e ∉ m'.values := by
  rcases addWithSizeCheck_cases h.pool entry with ⟨hnone, -⟩ | ⟨n, hn, hrun, hroom, hfirst, hallowed⟩
  · exact ⟨_, m, hnone, entry, by simp, fun hmem => hnew entry hmem rfl⟩
  · refine ⟨_, _, hrun, ?_⟩
    have hlowest : ∀ e ∈ (lowest m).take n, e ∈ m.values := fun e he =>
      h.pool.consistent.lowest_perm.mem_iff.1 (List.mem_of_mem_take he)
    have hiff := fun e => mem_values_add_removeAll h.pool.consistent hlowest hnew (e := e)
    by_contra hall
    have hin : ∀ e ∈ added ++ [entry], e ∈ ((removeAll ((lowest m).take n) m).add entry).values := by
      intro e he
      by_contra hout
      exact hall ⟨e, he, hout⟩
    have hkept : ∀ b ∈ added, b ∉ (lowest m).take n := by
      intro b hb
      have hmem : b ∈ m.values := h.perm.mem_iff.2 (List.mem_append_right _ hb)
      rcases (hiff b).1 (hin b (List.mem_append_left _ hb)) with rfl | ⟨-, hnot⟩
      · exact absurd rfl (hnew b hmem)
      · exact hnot
    obtain ⟨hle, htake, hbefore⟩ := h.take_pooled hn hkept
    refine hgo ⟨n, hle, ?_, ?_, ?_⟩
    · rwa [htake, ← h.used_eq]
    · intro i hi
      have htakei : pooled.take i = (lowest m).take i := by
        have hcut := congrArg (List.take i) htake
        rwa [List.take_take, List.take_take, min_eq_left hi.le] at hcut
      rw [htakei, ← h.used_eq]
      exact hfirst i hi
    · intro a ha
      exact ⟨hallowed a (htake ▸ ha), hbefore a ha⟩

/-! ## The whole list -/

variable {txs : List τ} {m' : MempoolMap τ ι}

theorem GoFor.unique {maxPoolSizeBytes : ℤ} {n n' : ℕ} (h : GoFor maxPoolSizeBytes pooled added entry n)
    (h' : GoFor maxPoolSizeBytes pooled added entry n') : n = n' := by
  rcases Nat.lt_trichotomy n n' with hlt | heq | hgt
  · exact absurd h.room (h'.first n hlt)
  · exact heq
  · exact absurd h'.room (h.first n' hgt)

theorem PutInTurn.of_values (h : PutInTurn settings txs m m') {e : SidechainMemoryPoolEntry τ} (he : e ∈ m'.values) :
    e ∈ m.values ∨ e.unconfirmedTx ∈ txs := by
  induction h with
  | nil m => exact .inl he
  | leftOut _ ih =>
    rcases ih he with hold | hlater
    · exact .inl hold
    · exact .inr (List.mem_cons_of_mem _ hlater)
  | put hplace _ ih =>
    obtain ⟨evicted, kept, -, -, -, -, -, hlookup⟩ := hplace
    rcases ih he with hfirst | hlater
    · obtain ⟨i, hi⟩ := mem_values.1 hfirst
      rw [hlookup i] at hi
      split_ifs at hi with hnew hgone
      · rw [← Option.some.inj hi]
        exact .inr List.mem_cons_self
      · exact .inl (mem_values.2 ⟨i, hi⟩)
    · exact .inr (List.mem_cons_of_mem _ hlater)

/-- the transactions can follow each other: no id is there already, none spends a box of another one -/
structure Apart (txs : List τ) (m : MempoolMap τ ι) : Prop where
  nodup : (txs.map BoxTransaction.id).Nodup
  new : ∀ t ∈ txs, ∀ e ∈ m.values, e.txid ≠ BoxTransaction.id t
  fresh : ∀ t ∈ txs, Fresh t m
  disjoint : txs.Pairwise DisjointInputs

theorem Apart.of_values_subset {t : τ} (h : Apart (t :: txs) m) (hvalues : ∀ e ∈ m'.values, e ∈ m.values ∨ e = ⟨t⟩) :
    Apart txs m' := by
  obtain ⟨hnot, hnodup⟩ := List.nodup_cons.1 h.nodup
  obtain ⟨hapart, hdisjoint⟩ := List.pairwise_cons.1 h.disjoint
  refine ⟨hnodup, ?_, ?_, hdisjoint⟩
  · intro t' ht' e he hsame
    rcases hvalues e he with hold | rfl
    · exact h.new t' (List.mem_cons_of_mem _ ht') e hold hsame
    · exact hnot (List.mem_map.2 ⟨t', ht', hsame.symm⟩)
  · intro t' ht' e he hne
    rcases hvalues e he with hold | rfl
    · exact h.fresh t' (List.mem_cons_of_mem _ ht') e hold hne
    · exact (hapart t' ht').symm

/-- what is not in the pool and not in the list does not come into the pool -/
theorem Apart.not_mem_addEach (h : Apart txs m) (hpool : Pool settings m)
    (hrun : exec (addEach settings txs) m = (.ok (), m')) {e : SidechainMemoryPoolEntry τ} (he : e ∉ m.values)
    (hlist : e.unconfirmedTx ∉ txs) : e ∉ m'.values := by
  obtain ⟨m₁, hexec, -, hturn⟩ := exec_addEach hpool h.fresh h.disjoint
  obtain rfl := (Prod.mk.inj (hexec.symm.trans hrun)).2
  intro hmem
  rcases hturn.of_values hmem with hold | hnew
  · exact he hold
  · exact hlist hnew

theorem addEach_keeps_iff (h : Holds settings pooled added m) (hapart : Apart txs m)
    (hrun : exec (addEach settings txs) m = (.ok (), m')) :
    (∀ e ∈ added ++ txs.map SidechainMemoryPoolEntry.mk, e ∈ m'.values) ↔
      (∀ t ∈ txs, settings.minFeeRate ≤ (⟨t⟩ : SidechainMemoryPoolEntry τ).getFeeRate) ∧
        RoomFor settings.maxPoolSizeBytes pooled added (txs.map SidechainMemoryPoolEntry.mk) := by
  induction txs generalizing m pooled added with
  | nil =>
    obtain rfl := (Prod.mk.inj hrun).2
    constructor
    · intro _
      refine ⟨fun t ht => absurd ht List.not_mem_nil, ?_, ?_⟩
      · have hused := h.used_le
        have hpooled := sizes_nonneg pooled
        rw [List.map_nil, List.append_nil]
        rw [sizes_append] at hused
        omega
      · intro _ _ _ before entry after _ hsplit
        exact absurd hsplit.symm (by simp)
    · intro _ e he
      rw [List.map_nil, List.append_nil] at he
      exact h.perm.mem_iff.2 (List.mem_append_right _ he)
  | cons t txs ih =>
    have hfirst : ∀ e ∈ m.values, e.txid ≠ (⟨t⟩ : SidechainMemoryPoolEntry τ).txid := hapart.new t List.mem_cons_self
    have hfresh : Fresh (SidechainMemoryPoolEntry.mk t).unconfirmedTx m := hapart.fresh t List.mem_cons_self
    have hnot : t ∉ txs := fun hmem => (List.nodup_cons.1 hapart.nodup).1 (List.mem_map_of_mem hmem)
    rw [addEach] at hrun
    by_cases hrate : (⟨t⟩ : SidechainMemoryPoolEntry τ).getFeeRate ≥ settings.minFeeRate
    · rw [if_pos hrate] at hrun
      by_cases hgo : ∃ n, GoFor settings.maxPoolSizeBytes pooled added ⟨t⟩ n
      · obtain ⟨n, hn⟩ := hgo
        obtain ⟨m₁, hadd, hholds⟩ := addWithSizeCheck_keeps h hfirst hfresh hn
        rw [exec_bind_of_ok hadd] at hrun
        have hrest := ih hholds (hapart.of_values_subset (addWithSizeCheck_after h.pool hfresh hadd).2) hrun
        have happend : added ++ [⟨t⟩] ++ txs.map SidechainMemoryPoolEntry.mk =
            added ++ (t :: txs).map SidechainMemoryPoolEntry.mk := by simp
        rw [happend] at hrest
        rw [hrest, List.map_cons, roomFor_cons h.used_le, List.forall_mem_cons]
        constructor
        · rintro ⟨hrates, hroom⟩
          exact ⟨⟨hrate, hrates⟩, n, hn, hroom⟩
        · rintro ⟨⟨-, hrates⟩, n', hn', hroom⟩
          exact ⟨hrates, hn.unique hn' ▸ hroom⟩
      · -- a transaction of the list is lost, and does not come back
        obtain ⟨b, m₁, hadd, e, hin, hout⟩ := addWithSizeCheck_loses h hfirst hgo
        rw [exec_bind_of_ok hadd] at hrun
        obtain ⟨hpool, hvalues⟩ := addWithSizeCheck_after h.pool hfresh hadd
        have hlist : e.unconfirmedTx ∉ txs := by
          intro hmem
          rcases List.mem_append.1 hin with hadded | hlast
          · exact hapart.new _ (List.mem_cons_of_mem _ hmem) e (h.perm.mem_iff.2 (List.mem_append_right _ hadded)) rfl
          · rw [List.mem_singleton.1 hlast] at hmem
            exact hnot hmem
        have hlost := (hapart.of_values_subset hvalues).not_mem_addEach hpool hrun hout hlist
        constructor
        · intro hall
          refine absurd (hall e ?_) hlost
          rcases List.mem_append.1 hin with hadded | hlast
          · exact List.mem_append_left _ hadded
          · rw [List.mem_singleton.1 hlast]
            simp
        · rintro ⟨-, hroom⟩
          rw [List.map_cons, roomFor_cons h.used_le] at hroom
          obtain ⟨n, hn, -⟩ := hroom
          exact absurd ⟨n, hn⟩ hgo
    · rw [if_neg hrate] at hrun
      have hout : (⟨t⟩ : SidechainMemoryPoolEntry τ) ∉ m.values := fun hmem => hfirst _ hmem rfl
      have hlost := (hapart.of_values_subset fun e he => .inl he).not_mem_addEach h.pool hrun hout hnot
      constructor
      · intro hall
        exact absurd (hall ⟨t⟩ (by simp)) hlost
      · rintro ⟨hrates, -⟩
        exact absurd (hrates t List.mem_cons_self) hrate

/-! ## A pool without room

The limit is an `Int` product and can be below zero. Nothing comes into such a pool. -/

theorem addWithSizeCheck_createEmptyMempool (hneg : settings.maxPoolSizeBytes < 0) (entry : SidechainMemoryPoolEntry τ) :
    exec (addWithSizeCheck settings entry) (createEmptyMempool : MempoolMap τ ι) = (.ok false, createEmptyMempool) := by
  have hfull : (createEmptyMempool : MempoolMap τ ι).usedPoolSizeBytes - 0 + entry.getSize > settings.maxPoolSizeBytes := by
    have hsize := getSize_nonneg entry
    change 0 - 0 + entry.getSize > settings.maxPoolSizeBytes
    omega
  have hrun : makeRoom settings.maxPoolSizeBytes (createEmptyMempool : MempoolMap τ ι).usedPoolSizeBytes [] entry
      (createEmptyMempool : MempoolMap τ ι).size 0 0 = .ok none := by
    unfold makeRoom
    rw [if_pos hfull]
    rfl
  have htake : (createEmptyMempool : MempoolMap τ ι).takeLowest (createEmptyMempool : MempoolMap τ ι).size = .ok [] := rfl
  rw [addWithSizeCheck, exec_get_bind, htake, exec_orThrow_value_bind, hrun, exec_orThrow_value_bind]
  rfl

theorem addEach_createEmptyMempool (hneg : settings.maxPoolSizeBytes < 0) (txs : List τ) :
    exec (addEach settings txs) (createEmptyMempool : MempoolMap τ ι) = (.ok (), createEmptyMempool) := by
  induction txs with
  | nil => rfl
  | cons t txs ih =>
    rw [addEach]
    split_ifs with hrate
    · rw [exec_bind_of_ok (addWithSizeCheck_createEmptyMempool hneg _), ih]
    · exact ih

theorem reachable_eq_createEmptyMempool (hneg : settings.maxPoolSizeBytes < 0) (h : Reachable settings m) :
    m = createEmptyMempool := by
  induction h with
  | empty => rfl
  | step call _ ih =>
    subst ih
    cases call with
    | put tx =>
      change (exec (put settings tx) _).2 = _
      rw [put, exec_get_bind]
      by_cases hrate : (⟨tx⟩ : SidechainMemoryPoolEntry τ).getFeeRate < settings.minFeeRate
      · rw [exec_throwIf_pos_bind hrate]
      rw [exec_throwIf_neg_bind hrate]
      by_cases hcompatible : (isMemoryPoolCompatible tx &&
          isTransactionCompatible tx (unconfirmedTxs (createEmptyMempool : MempoolMap τ ι))) = true
      · rw [exec_throwIf_neg_bind (not_not.2 hcompatible),
          exec_bind_of_ok (addWithSizeCheck_createEmptyMempool hneg _)]
        rfl
      · rw [exec_throwIf_pos_bind hcompatible]
    | putAll txs =>
      change (exec (putAll settings txs) _).2 = _
      rw [putAll]
      by_cases htails : compatibleTails txs = false
      · rw [exec_throwIf_pos_bind htails]
      rw [exec_throwIf_neg_bind htails, exec_get_bind]
      by_cases hpooled : (txs.all fun t =>
          isTransactionCompatible t (unconfirmedTxs (createEmptyMempool : MempoolMap τ ι))) = true
      · rw [exec_throwIf_neg_bind (not_not.2 hpooled), addEach_createEmptyMempool hneg]
      · rw [exec_throwIf_pos_bind hpooled]
    | putWithoutCheck txs =>
      change (exec (putWithoutCheck settings txs) _).2 = _
      rw [putWithoutCheck, exec_get_bind, addEach_createEmptyMempool hneg]
    | remove tx => rfl
    | filter condition => rfl
    | filterOut txs => rfl

/-! ## All or nothing -/

/-- the checks before the first transaction is added -/
def Refused (txs : List τ) (m : MempoolMap τ ι) : Prop :=
  compatibleTails txs = false ∨ (txs.all fun t => isTransactionCompatible t (unconfirmedTxs m)) = false

/-- transactions of different ids, all of them new, of sufficient fee rates and with room for them -/
structure AllFit (settings : MempoolSettings) (txs : List τ) (m : MempoolMap τ ι) : Prop where
  nodup : (txs.map BoxTransaction.id).Nodup
  new : ∀ t ∈ txs, BoxTransaction.id t ∉ (unconfirmedTxs m).map BoxTransaction.id
  rates : ∀ t ∈ txs, settings.minFeeRate ≤ (⟨t⟩ : SidechainMemoryPoolEntry τ).getFeeRate
  room : txs ≠ [] → RoomFor settings.maxPoolSizeBytes (lowest m) [] (txs.map SidechainMemoryPoolEntry.mk)

/-- a `Failure` and the pool as before, or a `Success` and all transactions in the pool -/
def AllOrNothing (settings : MempoolSettings) (txs : List τ) (m : MempoolMap τ ι) : Prop :=
  (∃ e, exec (putAll settings txs) m = (.error e, m)) ∨
    ∃ m', exec (putAll settings txs) m = (.ok (), m') ∧ ∀ t ∈ txs, t ∈ unconfirmedTxs m'

omit [BoxTransaction τ ι] in
theorem mem_unconfirmedTxs {t : τ} : t ∈ unconfirmedTxs m ↔ (⟨t⟩ : SidechainMemoryPoolEntry τ) ∈ m.values := by
  rw [unconfirmedTxs, List.mem_map]
  constructor
  · rintro ⟨e, he, rfl⟩
    exact he
  · intro he
    exact ⟨_, he, rfl⟩

theorem putAll_refused (h : Refused txs m) : ∃ e, exec (putAll settings txs) m = (.error e, m) := by
  rw [putAll]
  by_cases htails : compatibleTails txs = false
  · exact ⟨_, exec_throwIf_pos_bind htails⟩
  · rw [exec_throwIf_neg_bind htails, exec_get_bind]
    refine ⟨_, exec_throwIf_pos_bind ?_⟩
    rw [h.resolve_left htails]
    exact Bool.false_ne_true

theorem putAll_not_refused (h : ¬ Refused txs m) : exec (putAll settings txs) m = exec (addEach settings txs) m := by
  obtain ⟨htails, hpooled⟩ := not_or.1 h
  rw [putAll, exec_throwIf_neg_bind htails, exec_get_bind,
    exec_throwIf_neg_bind (not_not.2 (Bool.not_eq_false _ ▸ hpooled))]

theorem apart_of_not_refused (h : ¬ Refused txs m) (hnodup : (txs.map BoxTransaction.id).Nodup)
    (hnew : ∀ t ∈ txs, BoxTransaction.id t ∉ (unconfirmedTxs m).map BoxTransaction.id) : Apart txs m := by
  obtain ⟨htails, hpooled⟩ := not_or.1 h
  rw [Bool.not_eq_false] at htails hpooled
  refine ⟨hnodup, ?_, ?_, pairwise_of_compatibleTails htails⟩
  · intro t ht e he hsame
    exact hnew t ht (List.mem_map.2 ⟨e.unconfirmedTx, mem_unconfirmedTxs.2 he, hsame⟩)
  exact fun t ht => fresh_of_compatible (List.all_eq_true.1 hpooled t ht)

/-- a transaction with inputs is compatible neither with itself nor with a pool that has it -/
theorem new_of_not_refused (h : ¬ Refused txs m) (hinputs : ∀ t ∈ txs, closedBoxIds t ≠ []) :
    (txs.map BoxTransaction.id).Nodup ∧ ∀ t ∈ txs, BoxTransaction.id t ∉ (unconfirmedTxs m).map BoxTransaction.id := by
  obtain ⟨htails, hpooled⟩ := not_or.1 h
  rw [Bool.not_eq_false] at htails hpooled
  have hself : ∀ t ∈ txs, ∀ t' : τ, BoxTransaction.id t = BoxTransaction.id t' → ¬ DisjointInputs t t' := by
    intro t ht t' hsame hdisjoint
    obtain ⟨boxId, hbox⟩ := List.exists_mem_of_ne_nil _ (hinputs t ht)
    exact hdisjoint boxId hbox ((same_content t t' hsame).2.2 ▸ hbox)
  constructor
  · refine List.pairwise_map.2 ((pairwise_of_compatibleTails htails).imp_of_mem ?_)
    intro t t' ht _ hdisjoint hsame
    exact hself t ht t' hsame hdisjoint
  · intro t ht hmem
    obtain ⟨t', ht', hsame⟩ := List.mem_map.1 hmem
    exact hself t ht t' hsame.symm (disjointInputs_of_compatible (List.all_eq_true.1 hpooled t ht) ht')

/-- a list of new transactions that is not refused -/
theorem allOrNothing_of_new (h : Reachable settings m) (hrefused : ¬ Refused txs m) (hnodup : (txs.map BoxTransaction.id).Nodup)
    (hnew : ∀ t ∈ txs, BoxTransaction.id t ∉ (unconfirmedTxs m).map BoxTransaction.id) :
    AllOrNothing settings txs m ↔ AllFit settings txs m := by
  have hapart := apart_of_not_refused hrefused hnodup hnew
  have hsuccess : ∀ m', exec (addEach settings txs) m = (.ok (), m') →
      (AllOrNothing settings txs m ↔ ∀ t ∈ txs, t ∈ unconfirmedTxs m') := by
    intro m' hrun
    rw [← putAll_not_refused hrefused] at hrun
    constructor
    · rintro (⟨e, hfail⟩ | ⟨m₁, hok, hall⟩)
      · rw [hrun] at hfail
        cases hfail
      · obtain rfl := (Prod.mk.inj (hok.symm.trans hrun)).2
        exact hall
    · intro hall
      exact .inr ⟨m', hrun, hall⟩
  rcases lt_or_ge settings.maxPoolSizeBytes 0 with hneg | hmax
  · obtain rfl := reachable_eq_createEmptyMempool hneg h
    rw [hsuccess _ (addEach_createEmptyMempool hneg txs)]
    constructor
    · intro hall
      cases txs with
      | nil => exact ⟨hnodup, hnew, fun t ht => absurd ht List.not_mem_nil, fun hne => absurd rfl hne⟩
      | cons t txs => exact absurd (hall t List.mem_cons_self) List.not_mem_nil
    · intro hfit t ht
      have htotal := (hfit.room (List.ne_nil_of_mem ht)).1
      have hnonneg := sizes_nonneg ([] ++ txs.map SidechainMemoryPoolEntry.mk)
      omega
  · have hpool := pool_of_reachable_nonneg hmax h
    have hholds : Holds settings (lowest m) [] m :=
      ⟨hpool, by simpa using hpool.consistent.lowest_perm.symm, hpool.consistent.pairwise_key_lowest⟩
    obtain ⟨m', hrun, -, -⟩ := exec_addEach hpool hapart.fresh hapart.disjoint
    have hkeeps := addEach_keeps_iff hholds hapart hrun
    rw [List.nil_append, List.forall_mem_map] at hkeeps
    rw [hsuccess m' hrun]
    simp only [mem_unconfirmedTxs]
    rw [hkeeps]
    constructor
    · rintro ⟨hrates, hroom⟩
      exact ⟨hnodup, hnew, hrates, fun _ => hroom⟩
    · intro hfit
      refine ⟨hfit.rates, ?_⟩
      by_cases hempty : txs = []
      · subst hempty
        refine ⟨hmax, ?_⟩
        intro _ _ _ before entry after _ hsplit
        exact absurd hsplit.symm (by simp)
      · exact hfit.room hempty

/-- **Lists.** A list is put as a whole, or not at all, if it is refused before the first transaction is added or if
its transactions are different and new, their fee rates suffice, and the entries that go for them have no higher fee rate
and come before the transactions of the list that are in already. For transactions with inputs it is so only then. -/
theorem putAll_allOrNothing (h : Reachable settings m) (txs : List τ) :
    (Refused txs m ∨ AllFit settings txs m → AllOrNothing settings txs m) ∧
      ((∀ t ∈ txs, closedBoxIds t ≠ []) → AllOrNothing settings txs m → Refused txs m ∨ AllFit settings txs m) := by
  by_cases hrefused : Refused txs m
  · exact ⟨fun _ => .inl (putAll_refused hrefused), fun _ _ => .inl hrefused⟩
  constructor
  · intro hcondition
    have hfit := hcondition.resolve_left hrefused
    exact (allOrNothing_of_new h hrefused hfit.nodup hfit.new).2 hfit
  · intro hinputs hall
    obtain ⟨hnodup, hnew⟩ := new_of_not_refused hrefused hinputs
    exact .inr ((allOrNothing_of_new h hrefused hnodup hnew).1 hall)

/-- one megabyte holds two of three transactions; the last one of the list takes the place of the first -/
theorem putAll_loses_five :
    (∃ m', exec (putAll ⟨1, 0⟩ [⟨5⟩, ⟨6⟩, ⟨7⟩]) (createEmptyMempool : MempoolMap NumberedTx ℕ) = (.ok (),
      m') ∧
      unconfirmedTxs m' = [⟨7⟩, ⟨6⟩]) ∧
    ¬ ∀ m : MempoolMap NumberedTx ℕ, Reachable ⟨1, 0⟩ m → ∀ txs, AllOrNothing ⟨1, 0⟩ txs m := by
  have hrun : ∃ m', exec (putAll ⟨1, 0⟩ [⟨5⟩, ⟨6⟩, ⟨7⟩]) (createEmptyMempool : MempoolMap NumberedTx ℕ) =
      (.ok (), m') ∧
      unconfirmedTxs m' = [⟨7⟩, ⟨6⟩] := ⟨_, rfl, rfl⟩
  refine ⟨hrun, ?_⟩
  intro hclaim
  obtain ⟨m', hok, htxs⟩ := hrun
  rcases hclaim _ .empty [⟨5⟩, ⟨6⟩, ⟨7⟩] with ⟨e, hfail⟩ | ⟨m₁, hok', hall⟩
  · rw [hok] at hfail
    cases hfail
  · obtain rfl := (Prod.mk.inj (hok'.symm.trans hok)).2
    have hfive := hall ⟨5⟩ List.mem_cons_self
    rw [htxs] at hfive
    simp at hfive

def fiveAndSix : MempoolMap NumberedTx ℕ := (exec (Call.exec ⟨1, 0⟩ (.putAll [⟨5⟩, ⟨6⟩])) createEmptyMempool).2

/-- the transaction with the lowest fee goes for a list of one -/
theorem putAll_allOrNothing_seven :
    AllOrNothing ⟨1, 0⟩ [⟨7⟩] fiveAndSix ∧
    (Refused [⟨7⟩] fiveAndSix ∨ AllFit ⟨1, 0⟩ [⟨7⟩] fiveAndSix) := by
  have hreachable : Reachable ⟨1, 0⟩ fiveAndSix := by
    unfold fiveAndSix
    exact .step _ .empty
  have hpooled : lowest fiveAndSix = [⟨⟨5⟩⟩, ⟨⟨6⟩⟩] := rfl
  have hfit : AllFit ⟨1, 0⟩ [⟨7⟩] fiveAndSix := by
    refine ⟨List.nodup_singleton _, ?_, ?_, fun _ => ⟨?_, ?_⟩⟩
    · have htxs : unconfirmedTxs fiveAndSix = [⟨6⟩, ⟨5⟩] := rfl
      intro t ht
      rw [List.mem_singleton.1 ht, htxs]
      decide
    · intro t ht
      rw [List.mem_singleton.1 ht]
      decide
    · exact (by decide : (400000 : ℤ) ≤ 1048576)
    · intro gone a kept before entry after hsplit hnew _ _
      rw [hpooled] at hsplit
      have ha : a ∈ [(⟨⟨5⟩⟩ : SidechainMemoryPoolEntry NumberedTx), ⟨⟨6⟩⟩] := by simp [hsplit]
      have hentry : entry ∈ [(⟨⟨7⟩⟩ : SidechainMemoryPoolEntry NumberedTx)] := by
        have hlist : [(⟨⟨7⟩⟩ : SidechainMemoryPoolEntry NumberedTx)] = before ++ entry :: after := hnew
        simp [hlist]
      have hbefore : before = [] := by
        have hlength := congrArg List.length hnew
        simp at hlength
        exact List.eq_nil_of_length_eq_zero (by omega)
      rw [List.mem_singleton.1 hentry, hbefore]
      refine ⟨?_, fun b hb => absurd hb List.not_mem_nil⟩
      rcases List.mem_cons.1 ha with rfl | hsix
      · decide
      · rw [List.mem_singleton.1 hsix]
        decide
  have htheorem := putAll_allOrNothing hreachable [⟨7⟩]
  have hall := htheorem.1 (.inr hfit)
  refine ⟨hall, htheorem.2 ?_ hall⟩
  intro t ht
  rw [List.mem_singleton.1 ht]
  decide

end SidechainMemoryPool

end SidechainsSdk.Utxo.Mempool
