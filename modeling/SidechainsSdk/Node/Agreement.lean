/-
State, wallet and history after every call of `pmodModify`. Any blocks come, on any forks, and any of them may be refused when
it is tried; a block that was applied before is taken again. It is a condition on the calls that the mainchain data of a block
that enters continues that of its parent's chain.

- `InSync.call`: one call. The new block is refused, stored, applied, or its fork is tried and abandoned.
- `components_agree`: after every call the three have the same best block, and the blocks handed to the memory pool are what
  changed on the active chain. There is one exception: with `resetModifiersStatus`, a block whose parent stands above the best
  block (it was refused before) is tried together with the blocks between. When some of these are applied and a later one is
  refused there is nothing to apply again, and the history keeps a best block that the state was taken back from.
- `replayed_header_components_differ`: the validators do not see to it that mainchain headers continue the chain when the first of
  them is the header of the genesis block. State and wallet take such a block and the history records it as the best one, but the
  active chain refuses it, and the call fails.
-/
import Mathlib.Tactic
import SidechainsSdk.History.ForkChoice
import SidechainsSdk.Node.NodeViewHolder

namespace SidechainsSdk.Node

open Fallible Chain ActiveChain ElementsChain ParentTree History

/-- the block passes all parts of an application -/
def Outcomes.accepts (o : Outcomes) (b : SidechainBlock) : Bool :=
  o.epochSwitch b && !o.tooManyBlocksWithoutMcHeaders b && o.applyModifier b

/-- the versions after the blocks of a path -/
def versionsOf (l : List SidechainBlock) : Versions := (l.map SidechainBlock.id).reverse

@[simp] theorem versionsOf_concat (l : List SidechainBlock) (b : SidechainBlock) :
    versionsOf (l ++ [b]) = b.id :: versionsOf l := by
  simp [versionsOf]

section Path

variable {bs : List SidechainBlock} {c y : SidechainBlock} {l : List SidechainBlock}

theorem version_versionsOf (hg : Grown bs) (hc : c ∈ bs) : (versionsOf (paths bs c.id)).version = some c.id := by
  have hlast : (paths bs c.id).getLast? = some c := hg.path_last hc
  rw [versionsOf, Versions.version, List.head?_reverse, List.getLast?_map, hlast]
  rfl

/-- the ids after a block of a path are other ones -/
theorem ids_ne (hg : Grown bs) (hy : y ∈ bs) (hl : paths bs y.id = paths bs c.id ++ l) :
    ∀ x ∈ l, ∀ z ∈ paths bs c.id, x.id ≠ z.id := by
  intro x hx z hz heq
  have hnodup : ((paths bs y.id).map SidechainBlock.id).Nodup := hg.path_nodup hy
  rw [hl, List.map_append] at hnodup
  exact (List.nodup_append.1 hnodup).2.2 z.id (List.mem_map_of_mem hz) x.id (List.mem_map_of_mem hx) heq.symm

theorem mem_own_path (hg : Grown bs) (hc : c ∈ bs) : c ∈ paths bs c.id := List.mem_of_getLast? (hg.path_last hc)

theorem rollback_versionsOf (hg : Grown bs) (hy : y ∈ bs) (hc : c ∈ bs) (hl : paths bs y.id = paths bs c.id ++ l) :
    (versionsOf (paths bs y.id)).rollback c.id = some (versionsOf (paths bs c.id)) := by
  have hself := mem_own_path hg hc
  have hversion := version_versionsOf hg hc
  have hne : ∀ id ∈ versionsOf l, id ≠ c.id := by
    intro id hid
    obtain ⟨x, hx, rfl⟩ := List.mem_map.1 (List.mem_reverse.1 hid)
    exact ids_ne hg hy hl x hx c hself
  have hsplit : versionsOf (paths bs y.id) = versionsOf l ++ versionsOf (paths bs c.id) := by
    rw [hl, versionsOf, List.map_append, List.reverse_append]
    rfl
  have hmem : c.id ∈ versionsOf (paths bs y.id) := by
    rw [hsplit]
    exact List.mem_append_right _ (List.mem_of_mem_head? hversion)
  obtain ⟨rest, hrest⟩ := List.head?_eq_some_iff.1 hversion
  rw [Versions.rollback, if_pos hmem, hsplit, List.dropWhile_append_of_pos (by simpa using hne), hrest]
  simp

end Path

section Fold

variable {params : NetworkParams} {o : Outcomes} {p : ProgressInfo} {s s' : HistoryStorage} {bs : List SidechainBlock}

/-- blocks that are accepted are applied to all three -/
theorem foldlM_accepted (hg : Grown bs) {c y : SidechainBlock} {l : List SidechainBlock} (hy : y ∈ bs) (hc : c ∈ bs)
    (hl : paths bs y.id = paths bs c.id ++ l) (haccepts : ∀ x ∈ l, o.accepts x = true)
    (hexec : exec (l.forM reportModifierIsValid) s = (.ok (), s')) (suffix : List SidechainBlock) :
    l.foldlM (applyToNode o p) ⟨s, versionsOf (paths bs c.id), versionsOf (paths bs c.id), none, none, suffix⟩ =
      .ok ⟨s', versionsOf (paths bs y.id), versionsOf (paths bs y.id), none, none, suffix ++ l⟩ := by
  induction l generalizing s c suffix with
  | nil =>
    obtain ⟨-, rfl⟩ := Prod.mk.inj hexec
    rw [hl, List.append_nil, List.append_nil]
    rfl
  | cons x l ih =>
    obtain ⟨hx, hroot, hparent, hpathx⟩ := hg.path_next hy hc hl
    have hpath : paths bs x.id = paths bs c.id ++ [x] := hpathx
    have hrest : paths bs y.id = paths bs x.id ++ l := by
      rw [hl, hpath, List.append_assoc]
      rfl
    obtain ⟨⟨⟩, s₁, hreport, hexec⟩ := exec_bind_ok.1 hexec
    have hx' := haccepts x List.mem_cons_self
    simp only [Outcomes.accepts, Bool.and_eq_true, Bool.not_eq_true'] at hx'
    obtain ⟨⟨hepoch, hheaders⟩, happly⟩ := hx'
    have hstate : o.applyToState (versionsOf (paths bs c.id)) x = some (versionsOf (paths bs x.id)) := by
      have hversion : (versionsOf (paths bs c.id)).version = some x.parentId := by
        rw [version_versionsOf hg hc]
        exact congrArg some hparent
      rw [Outcomes.applyToState, if_pos ⟨hversion, happly⟩, hpath, versionsOf_concat]
    have hstep : applyToNode o p ⟨s, versionsOf (paths bs c.id), versionsOf (paths bs c.id), none, none, suffix⟩ x =
        .ok ⟨s₁, versionsOf (paths bs x.id), versionsOf (paths bs x.id), none, none, suffix ++ [x]⟩ := by
      simp only [applyToNode, Option.isSome_none, hepoch, hheaders, hstate, hreport, hpath, versionsOf_concat]
      rfl
    have htail := ih hx hrest (fun z hz => haccepts z (List.mem_cons_of_mem _ hz)) hexec (suffix ++ [x])
    rw [List.append_assoc] at htail
    rw [List.foldlM_cons, hstep]
    exact htail

/-- a block that is not accepted is reported as invalid -/
theorem applyToNode_refused {best x : SidechainBlock} (info : UpdateInformation) (h : Consistent params info.history bs best)
    (hx : x ∈ bs) (hnone : info.failedMod = none) (hrefused : o.accepts x = false) :
    applyToNode o p info x = .ok { info with
      history := withValidity info.history x .Invalid
      failedMod := some x
      alternativeProgressInfo := some (alternativeProgressInfo x p) } := by
  have hrefuse : refuse p info x = .ok { info with
      history := withValidity info.history x .Invalid
      failedMod := some x
      alternativeProgressInfo := some (alternativeProgressInfo x p) } := by
    have hreport : exec (reportModifierIsInvalid x p) info.history =
        (.ok (alternativeProgressInfo x p), withValidity info.history x .Invalid) := by
      have hattempt : exec (attempt (updateSemanticValidity x .Invalid)) info.history =
          (.ok (), withValidity info.history x .Invalid) := by
        have hupdate := h.exec_updateSemanticValidity hx .Invalid
        exact congrArg (fun r => (Except.ok (), r.2)) hupdate
      exact exec_bind_of_ok hattempt
    rw [refuse, hreport]
  simp only [applyToNode, hnone, Option.isSome_none, hrefuse, Bool.false_eq_true, if_false]
  split_ifs with hepoch hheaders
  · rfl
  · rfl
  · have happly : o.applyModifier x = false := by
      simp only [Outcomes.accepts] at hrefused
      simp_all
    have hstate : o.applyToState info.state x = none := by
      rw [Outcomes.applyToState, if_neg]
      simp [happly]
    rw [hstate]

/-- after a refused block the others are passed over -/
theorem foldlM_failed {info : UpdateInformation} (hfailed : info.failedMod.isSome = true) (l : List SidechainBlock) :
    l.foldlM (applyToNode o p) info = .ok info := by
  induction l with
  | nil => rfl
  | cons x l ih =>
    have hstep : applyToNode o p info x = .ok info := by rw [applyToNode, if_pos hfailed]
    rw [List.foldlM_cons, hstep]
    exact ih

/-- the first block that is not accepted -/
theorem accepts_cases (o : Outcomes) (l : List SidechainBlock) :
    (∀ x ∈ l, o.accepts x = true) ∨
      ∃ l' x l'', l = l' ++ x :: l'' ∧ (∀ y ∈ l', o.accepts y = true) ∧ o.accepts x = false := by
  cases hfind : l.find? fun x => !o.accepts x with
  | none => exact .inl fun x hx => by simpa using List.find?_eq_none.1 hfind x hx
  | some x =>
    obtain ⟨hx, l', l'', rfl, hl'⟩ := List.find?_eq_some_iff_append.1 hfind
    exact .inr ⟨l', x, l'', rfl, fun y hy => by simpa using hl' y hy, by simpa using hx⟩

/-- **A loop over the blocks to apply.** All of them are applied, or those before the first that is refused. -/
theorem applyStateAndWallet_cases {best c y : SidechainBlock} (h : Consistent params s bs best) (hc : c ∈ paths bs best.id)
    (hy : y ∈ bs) (hl : paths bs y.id = paths bs c.id ++ p.toApply) (hnew : ∀ x ∈ p.toApply, o.accepts x = false →
      x ∉ paths bs best.id)
    (suffix : List SidechainBlock) :
    (∃ s' tip, (∀ x ∈ p.toApply, o.accepts x = true) ∧
      applyStateAndWallet o p s (versionsOf (paths bs c.id)) (versionsOf (paths bs c.id)) suffix =
        .ok ⟨s', versionsOf (paths bs y.id), versionsOf (paths bs y.id), none, none, suffix ++ p.toApply⟩ ∧
      Consistent params s' bs tip ∧ (p.toApply = [] → tip = best) ∧ (p.toApply ≠ [] → tip = y) ∧
      ∀ w ∈ bs, w ∉ p.toApply → infoAt s' w.id = infoAt s w.id) ∨
    ∃ s' tip l' x l'' z, p.toApply = l' ++ x :: l'' ∧ (∀ w ∈ l', o.accepts w = true) ∧ o.accepts x = false ∧
      z ∈ bs ∧
      paths bs z.id = paths bs c.id ++ l' ∧
      applyStateAndWallet o p s (versionsOf (paths bs c.id)) (versionsOf (paths bs c.id)) suffix =
        .ok ⟨s', versionsOf (paths bs z.id), versionsOf (paths bs z.id), some x, some ⟨p.branchPoint, l', p.toRemove⟩,
          suffix ++ l'⟩ ∧
      Consistent params s' bs tip ∧ (l' = [] → tip = best) ∧ (l' ≠ [] → tip = z) ∧
      (infoAt s' x.id).semanticValidity = .Invalid ∧ ∀ w ∈ bs, w ∉ l' → w ≠ x → infoAt s' w.id = infoAt s w.id := by
  have hg := h.tree.grown
  have hcmem := h.mem_of_mem_best hc
  rcases accepts_cases o p.toApply with hall | ⟨l', x, l'', hsplit, haccepts, hrefused⟩
  · left
    obtain ⟨s', tip, hexec, h', hnil, hcons, hinfos⟩ := h.exec_forM_reportModifierIsValid hy hc hl
    refine ⟨s', tip, hall, foldlM_accepted hg hy hcmem hl hall hexec suffix, h', fun hempty => (hnil hempty).2, hcons, ?_⟩
    intro w hw hnot
    rcases hinfos w hw with ⟨hmem, -⟩ | ⟨-, hsame⟩
    · exact absurd hmem hnot
    · exact hsame
  · right
    rw [hsplit] at hl
    obtain ⟨z, hz, hzpath⟩ := hg.path_between hy hcmem hl
    have hzpath' : paths bs z.id = paths bs c.id ++ l' := hzpath
    obtain ⟨s₁, tip, hexec, h₁, hnil, hcons, hinfos⟩ := h.exec_forM_reportModifierIsValid hz hc hzpath
    have hlz : paths bs y.id = paths bs z.id ++ x :: l'' := by rw [hzpath', List.append_assoc, hl]
    obtain ⟨hx, -, -, -⟩ := hg.path_next hy hz hlz
    have hdiffer : ∀ w ∈ paths bs z.id, x.id ≠ w.id := ids_ne hg hy hlz x List.mem_cons_self
    have htip : x ∉ paths bs tip.id := by
      rcases List.eq_nil_or_concat l' with rfl | ⟨init, last, hlast⟩
      · rw [(hnil rfl).2]
        exact hnew x (by rw [hsplit]; simp) hrefused
      · rw [hcons (by rw [hlast]; simp)]
        exact fun hmem => hdiffer x hmem rfl
    have halternative : alternativeProgressInfo x p = ⟨p.branchPoint, l', p.toRemove⟩ := by
      have hbefore : ∀ w ∈ l', w.id ≠ x.id := by
        intro w hw
        exact (hdiffer w (hzpath' ▸ List.mem_append_right _ hw)).symm
      rw [alternativeProgressInfo, hsplit, List.takeWhile_append_of_pos (by simpa using hbefore)]
      simp
    have hfirst := foldlM_accepted (p := p) hg hz hcmem hzpath haccepts hexec suffix
    have hstep := applyToNode_refused (o := o) (p := p)
      ⟨s₁, versionsOf (paths bs z.id), versionsOf (paths bs z.id), none, none, suffix ++ l'⟩ h₁ hx rfl hrefused
    refine ⟨withValidity s₁ x .Invalid, tip, l', x, l'', z, hsplit, haccepts, hrefused, hz, hzpath', ?_,
      h₁.withValidity hx (fun hmem => absurd hmem htip), fun hempty => (hnil hempty).2, hcons, ?_, ?_⟩
    · have htail : (x :: l'').foldlM (applyToNode o p)
          ⟨s₁, versionsOf (paths bs z.id), versionsOf (paths bs z.id), none, none, suffix ++ l'⟩ =
            .ok ⟨withValidity s₁ x .Invalid, versionsOf (paths bs z.id), versionsOf (paths bs z.id), some x,
              some ⟨p.branchPoint, l', p.toRemove⟩, suffix ++ l'⟩ := by
        rw [List.foldlM_cons, hstep, halternative]
        exact foldlM_failed rfl l''
      rw [applyStateAndWallet, hsplit, List.foldlM_append, hfirst]
      exact htail
    · rw [infoAt_withValidity_self]
    · intro w hw hnot hne
      have hid : w.id ≠ x.id := fun heq => hne (hg.id_inj hw hx heq)
      rw [infoAt_withValidity_of_ne hid]
      rcases hinfos w hw with ⟨hmem, -⟩ | ⟨-, hsame⟩
      · exact absurd hmem hnot
      · exact hsame

end Fold

/-- what is known of `chainSwitchingNeeded`: blocks to remove need it; without them it needs a branch point -/
structure Switching (chainSwitchingNeeded : ProgressInfo → Bool) : Prop where
  removes : ∀ p, p.toRemove ≠ [] → chainSwitchingNeeded p = true
  stays : ∀ p, p.branchPoint = none → p.toRemove = [] → chainSwitchingNeeded p = false

section Update

variable {chainSwitchingNeeded : ProgressInfo → Bool} {params : NetworkParams} {o : Outcomes} {s : HistoryStorage}
  {bs : List SidechainBlock}

/-- state and wallet go back to the branch point, and nothing stays of the blocks applied after it -/
theorem rollbackToBranchPoint_eq (hg : Grown bs) (hswitch : Switching chainSwitchingNeeded) {c y : SidechainBlock}
    {m : List SidechainBlock} (hy : y ∈ bs) (hc : c ∈ bs) (hl : paths bs y.id = paths bs c.id ++ m)
    (toApply suffix : List SidechainBlock) (hsuffix : ∀ x ∈ suffix, x ∈ m) :
    rollbackToBranchPoint chainSwitchingNeeded (versionsOf (paths bs y.id)) (versionsOf (paths bs y.id))
      ⟨some c.id, m, toApply⟩ suffix =
      .ok (some (versionsOf (paths bs c.id)), some (versionsOf (paths bs c.id)), []) := by
  by_cases hm : m = []
  · have hnil : suffix = [] := List.eq_nil_iff_forall_not_mem.2 fun x hx => by simpa [hm] using hsuffix x hx
    rw [hm, List.append_nil] at hl
    rw [rollbackToBranchPoint, hl, hnil]
    have hversion := version_versionsOf hg hc
    simp [hversion]
  · have hyc : y.id ≠ c.id := by
      have hlast : (paths bs y.id).getLast? = some y := hg.path_last hy
      have hmem : y ∈ m := by
        rw [hl, List.getLast?_append_of_ne_nil _ hm] at hlast
        exact List.mem_of_getLast? hlast
      exact ids_ne hg hy hl y hmem c (mem_own_path hg hc)
    have hversion : (versionsOf (paths bs y.id)).version ≠ some c.id := by
      rw [version_versionsOf hg hy]
      simpa using hyc
    have htrim : trimChainSuffix suffix c.id = [] := by
      have hnone : (suffix.findIdx? fun b => b.id = c.id) = none := by
        rw [List.findIdx?_eq_none_iff]
        intro x hx
        simpa using ids_ne hg hy hl x (hsuffix x hx) c (mem_own_path hg hc)
      rw [trimChainSuffix, hnone]
    rw [rollbackToBranchPoint, hswitch.removes _ hm, if_pos rfl]
    simp only
    rw [if_pos hversion, rollback_versionsOf hg hy hc hl, htrim]

/-- what an update to the fork `l` leaves: `tip` is the best block of the history, `reached` that of state and wallet -/
inductive Updated (o : Outcomes) (s : HistoryStorage) (bs : List SidechainBlock) (best b c : SidechainBlock)
    (l₁ l : List SidechainBlock) (s' : HistoryStorage) : SidechainBlock → SidechainBlock → List SidechainBlock → Prop
  /-- the fork is applied -/
  | applied (hall : ∀ x ∈ l, o.accepts x = true) : Updated o s bs best b c l₁ l s' b b l
  /-- a block of the fork is refused, and the old blocks are applied again -/
  | abandoned (l' : List SidechainBlock) {x : SidechainBlock} (l'' : List SidechainBlock) (hsplit : l = l' ++ x :: l'')
      (hrefused : o.accepts x = false) (hback : l₁ ≠ [] ∨ l' = []) (hinvalid : (infoAt s' x.id).semanticValidity = .Invalid)
      (hsame : ∀ w ∈ bs, w ∉ l → w ∉ l₁ → infoAt s' w.id = infoAt s w.id) :
        Updated o s bs best b c l₁ l s' best best l₁
  /-- the same without old blocks -/
  | stuck (l' : List SidechainBlock) {x z : SidechainBlock} (l'' : List SidechainBlock) (hsplit : l = l' ++ x :: l'')
      (hne : l' ≠ [])
      (haccepts : ∀ w ∈ l', o.accepts w = true) (hrefused : o.accepts x = false) (hnone : l₁ = [])
      (hz : paths bs z.id = paths bs c.id ++ l') : Updated o s bs best b c l₁ l s' z best []

/-- **A switch to a fork.** -/
theorem updateStateAndWallet_fork (hswitch : Switching chainSwitchingNeeded) {best b c : SidechainBlock}
    {l₁ l : List SidechainBlock}
    (h : Consistent params s bs best) (hb : b ∈ bs) (hc : c ∈ paths bs best.id)
    (hold : paths bs best.id = paths bs c.id ++ l₁)
    (hnew : paths bs b.id = paths bs c.id ++ l) (hne : l ≠ []) (hdisjoint : ∀ x ∈ l, x ∉ paths bs best.id)
    (hagain : ∀ x ∈ l₁, o.accepts x = true) (fuel : ℕ) :
    ∃ s' tip reached applied,
      updateStateAndWallet chainSwitchingNeeded o (fuel + 2) s (versionsOf (paths bs best.id)) (versionsOf (paths bs best.id))
          ⟨some c.id, l₁, l⟩ [] = .ok (s', some (versionsOf (paths bs reached.id)), versionsOf (paths bs reached.id),
            applied) ∧
        Consistent params s' bs tip ∧ Updated o s bs best b c l₁ l s' tip reached applied := by
  have hg := h.tree.grown
  have hcmem := h.mem_of_mem_best hc
  have hback := rollbackToBranchPoint_eq hg hswitch h.active.mem hcmem hold l [] (by simp)
  rcases applyStateAndWallet_cases (p := ⟨some c.id, l₁, l⟩) (o := o) h hc hb hnew (fun x hx _ => hdisjoint x hx) [] with
    ⟨s', tip, hall, happly, h', -, htip, -⟩ |
    ⟨s₁, tip, l', x, l'', z, hsplit, haccepts, hrefused, hz, hzpath, happly, h₁, hnil, hcons, hinvalid, hsame⟩
  · refine ⟨s', tip, b, l, ?_, h', ?_⟩
    · rw [updateStateAndWallet, hback]
      simp only [happly, List.nil_append]
    · rw [htip hne]
      exact .applied hall
  · -- the way back: `l'` is removed again, `l₁` applied
    have hl : l = l' ++ x :: l'' := hsplit
    have hctip : c ∈ paths bs tip.id := by
      rcases List.eq_nil_or_concat l' with hempty | ⟨init, last, hlast⟩
      · rw [hnil hempty]
        exact hc
      · rw [hcons (by rw [hlast]; simp), hzpath]
        exact List.mem_append_left _ (mem_own_path hg hcmem)
    have hback₂ := rollbackToBranchPoint_eq hg hswitch hz hcmem hzpath l₁ l' (fun w hw => hw)
    have hnone : ∀ w ∈ l₁, o.accepts w = false → w ∉ paths bs tip.id :=
      fun w hw hfalse => by simp [hagain w hw] at hfalse
    rcases applyStateAndWallet_cases (p := ⟨some c.id, l', l₁⟩) (o := o) h₁ hctip h.active.mem hold hnone [] with
      ⟨s', tip', -, happly₂, h', hnil', hcons', hsame'⟩ | ⟨_, _, m, w, m', _, hsplit', _, hrefused', -⟩
    · have hrun : updateStateAndWallet chainSwitchingNeeded o (fuel + 2) s (versionsOf (paths bs best.id))
          (versionsOf (paths bs best.id)) ⟨some c.id, l₁, l⟩ [] =
            .ok (s', some (versionsOf (paths bs best.id)), versionsOf (paths bs best.id), l₁) := by
        rw [updateStateAndWallet, hback]
        simp only [happly, List.nil_append]
        rw [updateStateAndWallet, hback₂]
        simp only [happly₂, List.nil_append]
      by_cases hback' : l₁ ≠ [] ∨ l' = []
      · have htip : tip' = best := by
          by_cases hl₁ : l₁ = []
          · rw [hnil' hl₁, hnil (hback'.resolve_left fun hne => hne hl₁)]
          · exact hcons' hl₁
        refine ⟨s', tip', best, l₁, hrun, h', ?_⟩
        rw [htip]
        refine .abandoned l' l'' hl hrefused hback' ?_ ?_
        · have hx : x ∈ l := by simp [hl]
          have hxbs : x ∈ bs := hg.mem_of_mem_path hb x (hnew ▸ List.mem_append_right _ hx)
          have hxl₁ : x ∉ l₁ := fun hmem => hdisjoint x hx (hold ▸ List.mem_append_right _ hmem)
          rw [hsame' x hxbs hxl₁]
          exact hinvalid
        · intro w hw hwl hwl₁
          rw [hl] at hwl
          simp only [List.mem_append, List.mem_cons, not_or] at hwl
          rw [hsame' w hw hwl₁, hsame w hw hwl.1 hwl.2.1]
      · obtain ⟨hl₁, hl'⟩ : l₁ = [] ∧ l' ≠ [] := by simpa [not_or] using hback'
        refine ⟨s', tip', best, l₁, hrun, h', ?_⟩
        rw [hnil' hl₁, hcons hl', hl₁]
        exact .stuck l' l'' hl hl' haccepts hrefused rfl hzpath
    · have hsplit'' : l₁ = m ++ w :: m' := hsplit'
      have hw := hagain w (by rw [hsplit'']; simp)
      rw [hrefused'] at hw
      cases hw

/-- a block on top of the best one -/
theorem updateStateAndWallet_onTop (hswitch : Switching chainSwitchingNeeded) {best b : SidechainBlock}
    (h : Consistent params s bs best) (hb : b ∈ bs) (hpath : paths bs b.id = paths bs best.id ++ [b]) (fuel : ℕ) :
    (o.accepts b = true ∧ ∃ s', updateStateAndWallet chainSwitchingNeeded o (fuel + 2) s (versionsOf (paths bs best.id))
      (versionsOf (paths bs best.id)) ⟨none, [], [b]⟩ [] = .ok (s', some (versionsOf (paths bs b.id)),
        versionsOf (paths bs b.id), [b]) ∧
        Consistent params s' bs b) ∨
    ∃ s', updateStateAndWallet chainSwitchingNeeded o (fuel + 2) s (versionsOf (paths bs best.id))
      (versionsOf (paths bs best.id)) ⟨none, [], [b]⟩ [] = .ok (s', some (versionsOf (paths bs best.id)),
        versionsOf (paths bs best.id), []) ∧
        Consistent params s' bs best ∧ (infoAt s' b.id).semanticValidity = .Invalid ∧
        ∀ w ∈ bs, w ≠ b → infoAt s' w.id = infoAt s w.id := by
  have hg := h.tree.grown
  have hstart : ∀ toApply, rollbackToBranchPoint chainSwitchingNeeded (versionsOf (paths bs best.id))
      (versionsOf (paths bs best.id))
      ⟨none, [], toApply⟩ [] = .ok (some (versionsOf (paths bs best.id)), some (versionsOf (paths bs best.id)), []) := by
    intro toApply
    have hno : ¬ chainSwitchingNeeded ⟨none, [], toApply⟩ = true := by simp [hswitch.stays ⟨none, [], toApply⟩ rfl rfl]
    rw [rollbackToBranchPoint, if_neg hno]
  have hnew : ∀ x ∈ [b], o.accepts x = false → x ∉ paths bs best.id := by
    intro x hx _ hmem
    rw [List.mem_singleton.1 hx] at hmem
    exact ids_ne hg hb hpath b (by simp) b hmem rfl
  have hself := mem_own_path hg h.active.mem
  rcases applyStateAndWallet_cases (p := ⟨none, [], [b]⟩) (o := o) h hself hb hpath hnew [] with
    ⟨s', tip, hall, happly, h', -, htip, -⟩ |
    ⟨s', tip, l', x, l'', z, hsplit, haccepts, hrefused, hz, hzpath, happly, h', hnil, -, hinvalid, hsame⟩
  · refine .inl ⟨hall b (by simp), s', ?_, htip (by simp) ▸ h'⟩
    rw [updateStateAndWallet, hstart]
    simp only [happly, List.nil_append]
  · right
    have hl : [b] = l' ++ x :: l'' := hsplit
    obtain ⟨rfl, rfl, rfl⟩ : l' = [] ∧ b = x ∧ l'' = [] := by
      cases l' with
      | nil => simpa [eq_comm] using hl
      | cons w l' => simp at hl
    rw [List.append_nil] at hzpath
    refine ⟨s', ?_, hnil rfl ▸ h', hinvalid, fun w hw hne => hsame w hw (by simp) hne⟩
    rw [updateStateAndWallet, hstart]
    simp only [happly, List.nil_append, hzpath]
    rw [updateStateAndWallet, hstart]
    rfl

end Update

/-! One call. -/

/-- the three have the same best block -/
def Agree (params : NetworkParams) (view : NodeView) : Prop :=
  ∃ id, view.minimalState.version = some id ∧ view.vault.version = some id ∧ bestBlockId params view.history = id

def activeIds (s : HistoryStorage) : List ModifierId := s.activeChain.sidechainCache.ids

/-- the blocks handed to the memory pool are what changed on the active chain -/
def Changes (old new : HistoryStorage) : MempoolUpdate → Prop
  | none => activeIds new = activeIds old
  | some (removed, applied) => ∃ kept, activeIds old = kept ++ removed.map SidechainBlock.id ∧
      activeIds new = kept ++ applied.map SidechainBlock.id

/-- the history has the tree `bs` with best block `best`, and state and wallet have gone through its path. Without
`resetModifiersStatus` every block on top of the best one was refused. -/
structure InSync (params : NetworkParams) (view : NodeView) (bs : List SidechainBlock) (best : SidechainBlock) : Prop where
  consistent : Consistent params view.history bs best
  state : view.minimalState = versionsOf (paths bs best.id)
  wallet : view.vault = versionsOf (paths bs best.id)
  refused : params.resetModifiersStatus = false → ∀ x ∈ bs, bs.head? ≠ some x → x.parentId = best.id →
    (infoAt view.history x.id).semanticValidity = .Invalid

/-- the block is new, its parent is known and the validators let it pass -/
def Enters (validators : HistoryStorage → SidechainBlock → Bool) (s : HistoryStorage) (bs : List SidechainBlock)
    (b : SidechainBlock) : Prop :=
  (∀ x ∈ bs, x.id ≠ b.id) ∧ (∃ a ∈ bs, a.id = b.parentId) ∧ validators s b = true

instance (validators : HistoryStorage → SidechainBlock → Bool) (s : HistoryStorage) (bs : List SidechainBlock)
    (b : SidechainBlock) :
    Decidable (Enters validators s bs b) := inferInstanceAs (Decidable (_ ∧ _))

/-- the blocks known after a call -/
def blocksAfter (validators : HistoryStorage → SidechainBlock → Bool) (s : HistoryStorage) (bs : List SidechainBlock)
    (b : SidechainBlock) : List SidechainBlock := if Enters validators s bs b then bs ++ [b] else bs

/-- any block. If it enters, its mainchain data continues that of its parent's chain; a block that was applied before is applied
again. -/
structure Call (validators : HistoryStorage → SidechainBlock → Bool) (o : Outcomes) (fuel : ℕ) (s : HistoryStorage)
    (bs : List SidechainBlock) (b : SidechainBlock) : Prop where
  continues : Enters validators s bs b → Continues (paths bs b.parentId) b
  again : ∀ x ∈ bs, (infoAt s x.id).semanticValidity = .Valid → o.accepts x = true
  fuel : bs.length < fuel

/-- with `resetModifiersStatus`: the parent of the new block stands above the best block; the first of the blocks between is
applied, and a later one is refused -/
def Stuck (params : NetworkParams) (validators : HistoryStorage → SidechainBlock → Bool) (o : Outcomes) (s : HistoryStorage)
    (bs : List SidechainBlock) (b : SidechainBlock) : Prop :=
  params.resetModifiersStatus = true ∧ Enters validators s bs b ∧
    ∃ best ∈ bs, ∃ a ∈ bs, ∃ x l, bestBlockId params s = best.id ∧ a.id = b.parentId ∧
      paths bs a.id = paths bs best.id ++ x :: l ∧ o.accepts x = true ∧ ∃ y ∈ l ++ [b], o.accepts y = false

section Call

variable {chainSwitchingNeeded : ProgressInfo → Bool} {params : NetworkParams}
  {validators : HistoryStorage → SidechainBlock → Bool} {o : Outcomes} {view : NodeView} {s : HistoryStorage}
  {bs : List SidechainBlock} {best b : SidechainBlock}

theorem activeIds_eq (h : Consistent params s bs best) : activeIds s = (paths bs best.id).map SidechainBlock.id := by
  have hlinked := (h.wellFormed h.active.mem).linked
  rw [activeIds, h.active.chain]
  exact (ids_ofList hlinked).trans map_fst_withInfos

theorem InSync.agree (h : InSync params view bs best) : Agree params view := by
  have hversion := version_versionsOf h.consistent.tree.grown h.consistent.active.mem
  refine ⟨best.id, ?_, ?_, h.consistent.bestBlockId_eq⟩
  · rw [h.state, hversion]
  · rw [h.wallet, hversion]

theorem contains_iff (h : Consistent params s bs best) : s.contains b.id = true ↔ ∃ x ∈ bs, x.id = b.id := by
  constructor
  · intro hcontains
    by_contra hnot
    have hfresh : ∀ x ∈ bs, x.id ≠ b.id := fun x hx heq => hnot ⟨x, hx, heq⟩
    have hactive : s.isInActiveChain b.id = false := by
      have hnone := h.heightById_of_not_mem fun x hx => hfresh x (h.mem_of_mem_best hx)
      have hcontains : s.isInActiveChain b.id = (s.activeChain.heightById b.id).isSome := rfl
      rw [hcontains, hnone]
      rfl
    rw [HistoryStorage.contains, hactive, h.holds.absent b.id hfresh] at hcontains
    cases hcontains
  · rintro ⟨x, hx, hid⟩
    rw [HistoryStorage.contains, ← hid, h.holds.info x hx]
    simp

/-- a block that does not enter changes nothing -/
theorem exec_append_refused (h : Consistent params s bs best) (hfresh : ∀ x ∈ bs, x.id ≠ b.id)
    (hnot : ¬ Enters validators s bs b)
    (fuel : ℕ) : ∃ e, exec (append params validators fuel b) s = (.error e, s) := by
  have hother := h.id_ne_genesis hfresh
  rw [append, exec_get_bind]
  simp only
  by_cases hparent : ∃ a ∈ bs, a.id = b.parentId
  · have hknown : ¬ (b.id ≠ params.sidechainGenesisBlockId ∧ s.blockInfoOptionById b.parentId = none) := by
      obtain ⟨a, ha, hid⟩ := hparent
      rw [← hid, h.blockInfoOptionById_of_mem ha]
      simp
    have hrejected : validators s b = false := by
      by_contra hvalid
      exact hnot ⟨hfresh, hparent, by simpa using hvalid⟩
    rw [exec_throwIf_neg_bind hknown, exec_throwIf_pos_bind hrejected]
    exact ⟨.rejected, rfl⟩
  · have hmissed : b.id ≠ params.sidechainGenesisBlockId ∧ s.blockInfoOptionById b.parentId = none := by
      refine ⟨hother, (h.blockInfoOptionById_eq _).trans (h.holds.absent _ ?_)⟩
      intro x hx hid
      exact hparent ⟨x, hx, hid⟩
    rw [exec_throwIf_pos_bind hmissed]
    exact ⟨.parentMissed, rfl⟩

/-- a parent above the best block makes a fork without blocks to remove -/
theorem fork_of_above (hg : Grown bs) {a c : SidechainBlock} {l₁ l₂ m : List SidechainBlock} (hbest : best ∈ bs)
    (hc : c ∈ bs)
    (hfork : Consistent.Fork bs best a c l₁ l₂) (habove : paths bs a.id = paths bs best.id ++ m) :
      c = best ∧ l₁ = [] ∧ l₂ = m := by
  have hself := mem_own_path hg hbest
  have hmem : best ∈ paths bs c.id ++ l₂ := by
    rw [← hfork.new, habove]
    exact List.mem_append_left _ hself
  have hbefore : best ∈ paths bs c.id := (List.mem_append.1 hmem).resolve_right fun hin => hfork.disjoint best hin hself
  have hlen : (paths bs best.id).length ≤ (paths bs c.id).length := (hg.path_prefix hc hbefore).length_le
  rw [hfork.current, List.length_append] at hlen
  have hnil : l₁ = [] := List.length_eq_zero_iff.1 (by omega)
  have hcurrent := hfork.current
  rw [hnil, List.append_nil] at hcurrent
  have hlast : (paths bs best.id).getLast? = some best := hg.path_last hbest
  have hlastc : (paths bs c.id).getLast? = some c := hg.path_last hc
  rw [hcurrent, hlastc] at hlast
  refine ⟨Option.some.inj hlast, hnil, ?_⟩
  have hnew := hfork.new
  rw [habove, hcurrent] at hnew
  exact (List.append_cancel_left hnew).symm

/-- a block of a path whose parent is `best` has the path of `best` below it -/
theorem path_of_child (hg : Grown bs) {w : SidechainBlock} (hbest : best ∈ bs) (hw : w ∈ bs) (hroot : bs.head? ≠ some w)
    (hparent : w.parentId = best.id) : paths bs w.id = paths bs best.id ++ [w] := by
  rcases hg.path_cases hw with ⟨hhead, -⟩ | ⟨-, a, ha, hid, hpath⟩
  · exact absurd hhead hroot
  · have hab : a = best := hg.id_inj ha hbest (hid.trans hparent)
    rw [hab] at hpath
    exact hpath

/-- without `resetModifiersStatus` a fork leaves the active chain below the best block -/
theorem InSync.removes (h : InSync params view bs best) (hreset : params.resetModifiersStatus = false) {a c : SidechainBlock}
    {l₁ l₂ : List SidechainBlock} (ha : a ∈ bs) (hne : a ≠ best) (hfork : Consistent.Fork bs best a c l₁ l₂)
    (hcan : Consistent.CanSwitch params view.history l₁ l₂) : l₁ ≠ [] := by
  have hg := h.consistent.tree.grown
  have hbest := h.consistent.active.mem
  intro hnil
  have hcurrent := hfork.current
  rw [hnil, List.append_nil] at hcurrent
  have hnew := hfork.new
  rw [← hcurrent] at hnew
  cases hl₂ : l₂ with
  | nil =>
    have hlast : (paths bs a.id).getLast? = some a := hg.path_last ha
    have hlastb : (paths bs best.id).getLast? = some best := hg.path_last hbest
    rw [hnew, hl₂, List.append_nil, hlastb] at hlast
    exact hne (Option.some.inj hlast).symm
  | cons x l =>
    rw [hl₂] at hnew
    obtain ⟨hx, hroot, hparent, -⟩ := hg.path_next ha hbest hnew
    have hinvalid := h.refused hreset x hx hroot hparent.symm
    have hvalid := hcan.2.resolve_left (by simp [hreset]) x (by simp [hl₂])
    exact hvalid hinvalid

/-- nothing stands on a new block -/
theorem no_child (hg : Grown bs) (hfresh : ∀ x ∈ bs, x.id ≠ b.id) (hparent : ∃ a ∈ bs, a.id = b.parentId)
    {x : SidechainBlock}
    (hx : x ∈ bs ++ [b]) (hroot : (bs ++ [b]).head? ≠ some x) : x.parentId ≠ b.id := by
  intro heq
  rcases List.mem_append.1 hx with hx | hx
  · rcases hg.path_cases hx with ⟨hhead, -⟩ | ⟨-, a, ha, hid, -⟩
    · exact hroot ((List.head?_append_of_ne_nil bs hg.ne_nil).trans hhead)
    · exact hfresh a ha (hid.trans heq)
  · obtain ⟨a, ha, hid⟩ := hparent
    rw [List.mem_singleton.1 hx] at heq
    exact hfresh a ha (hid.trans heq)

/-- what is shown of a call: unless it is stuck, the three are in sync and the change is the one handed on; if it is, they
differ -/
structure Result (params : NetworkParams) (validators : HistoryStorage → SidechainBlock → Bool) (o : Outcomes)
    (view : NodeView)
    (bs : List SidechainBlock) (b : SidechainBlock) (view' : NodeView) (update : MempoolUpdate) : Prop where
  inSync : ¬ Stuck params validators o view.history bs b → ∃ best,
    InSync params view' (blocksAfter validators view.history bs b) best
  changes : ¬ Stuck params validators o view.history bs b → Changes view.history view'.history update
  differ : Stuck params validators o view.history bs b → ¬ Agree params view'

/-- a stuck call is one on a fork that starts at the best block -/
theorem Stuck.above (h : Consistent params s bs best) (hstuck : Stuck params validators o s bs b) {a : SidechainBlock}
    (ha : a ∈ bs)
    (hid : a.id = b.parentId) :
    ∃ x l, paths bs a.id = paths bs best.id ++ x :: l ∧ o.accepts x = true ∧ ∃ y ∈ l ++ [b], o.accepts y = false := by
  obtain ⟨-, -, best', hbest', a', ha', x, l, hbestId, hid', hpath, hx, hy⟩ := hstuck
  have hbb : best' = best := h.tree.grown.id_inj hbest' h.active.mem (hbestId.symm.trans h.bestBlockId_eq)
  have haa : a' = a := h.tree.grown.id_inj ha' ha (hid'.trans hid.symm)
  rw [hbb, haa] at hpath
  exact ⟨x, l, hpath, hx, hy⟩

/-- a chain that goes on ranks higher -/
theorem rank_le_append (l m : List SidechainBlock) : rank l ≤ rank (l ++ m) := by
  induction m using List.reverseRecOn with
  | nil => rw [List.append_nil]
  | append_singleton m x ih =>
    rw [← List.append_assoc]
    exact ih.trans (rank_lt_concat _ _).le

/-- the new block becomes the best one -/
theorem inSync_new {s' : HistoryStorage} (hg : Grown bs) (henters : Enters validators view.history bs b)
    (h' : Consistent params s' (bs ++ [b]) b) :
    InSync params ⟨s', versionsOf (paths (bs ++ [b]) b.id), versionsOf (paths (bs ++ [b]) b.id)⟩
      (blocksAfter validators view.history bs b) b := by
  rw [blocksAfter, if_pos henters]
  refine ⟨h', rfl, rfl, ?_⟩
  intro _ x hx hroot hchild
  exact absurd hchild (no_child hg henters.1 henters.2.1 hx hroot)

section Entered

variable {a : SidechainBlock} {s₁ : HistoryStorage} (h : InSync params view bs best)
    (henters : Enters validators view.history bs b)
  (ha : a ∈ bs) (hid : a.id = b.parentId) (h₁ : Consistent params s₁ (bs ++ [b]) best)
  (hsame : ∀ x ∈ bs, infoAt s₁ x.id = infoAt view.history x.id)

include h henters ha hid h₁ hsame

/-- the block is only stored -/
theorem result_stays {c : SidechainBlock} {l₁ l₂ : List SidechainBlock} (hparent : b.parentId ≠ best.id)
    (hfork : Consistent.Fork bs best a c l₁ l₂)
    (hnot : ¬ (rank (paths bs best.id) < rank (paths bs a.id ++ [b]) ∧ Consistent.CanSwitch params view.history l₁ l₂)) :
    Result params validators o view bs b { view with history := s₁ } none := by
  have hg := h.consistent.tree.grown
  have hbest : paths (bs ++ [b]) best.id = paths bs best.id := paths_concat_of_ne (henters.1 best h.consistent.active.mem)
  have hnotStuck : ¬ Stuck params validators o view.history bs b := by
    intro hstuck
    obtain ⟨x, l, hpath, -⟩ := hstuck.above h.consistent ha hid
    obtain ⟨-, hnil, -⟩ := fork_of_above hg h.consistent.active.mem (h.consistent.mem_of_mem_best hfork.common) hfork hpath
    refine hnot ⟨?_, ?_⟩
    · rw [hpath]
      exact (rank_le_append _ _).trans_lt (rank_lt_concat _ _)
    · rw [hnil]
      exact ⟨Nat.zero_le _, .inl hstuck.1⟩
  refine ⟨fun _ => ⟨best, ?_⟩, fun _ => ?_, fun hstuck => absurd hstuck hnotStuck⟩
  · rw [blocksAfter, if_pos henters]
    refine ⟨h₁, by rw [hbest]; exact h.state, by rw [hbest]; exact h.wallet, ?_⟩
    intro hreset x hx hroot hchild
    rcases List.mem_append.1 hx with hx | hx
    · rw [List.head?_append_of_ne_nil bs hg.ne_nil] at hroot
      exact (congrArg _ (hsame x hx)).trans (h.refused hreset x hx hroot hchild)
    · rw [List.mem_singleton.1 hx] at hchild
      exact absurd hchild hparent
  · rw [Changes, activeIds_eq h₁, activeIds_eq h.consistent, hbest]

/-- the block is tried on top of the best one -/
theorem result_onTop (hswitch : Switching chainSwitchingNeeded) (hparent : b.parentId = best.id) (fuel : ℕ) :
    ∃ s' versions applied, updateStateAndWallet chainSwitchingNeeded o (fuel + 2) s₁ view.minimalState view.vault
      ⟨none, [], [b]⟩ [] =
      .ok (s', some versions, versions, applied) ∧
        Result params validators o view bs b ⟨s', versions, versions⟩ (some ([], applied)) := by
  have hg := h.consistent.tree.grown
  have hab : a = best := hg.id_inj ha h.consistent.active.mem (hid.trans hparent)
  have hbest : paths (bs ++ [b]) best.id = paths bs best.id := paths_concat_of_ne (henters.1 best h.consistent.active.mem)
  obtain ⟨hpath, -⟩ := paths_new ha hid henters.1
  rw [hab] at hpath
  have hnotStuck : ¬ Stuck params validators o view.history bs b := by
    intro hstuck
    obtain ⟨x, l, hpath', -⟩ := hstuck.above h.consistent ha hid
    rw [hab] at hpath'
    exact absurd (congrArg List.length hpath') (by simp)
  have hactive := activeIds_eq h.consistent
  rw [← hbest] at hactive
  rw [h.state, h.wallet, ← hbest]
  rcases updateStateAndWallet_onTop (o := o) hswitch h₁ (List.mem_append_right _ (List.mem_singleton_self b)) hpath fuel with
    ⟨-, s', hupdate, h'⟩ | ⟨s', hupdate, h', hinvalid, hkept⟩
  · refine ⟨s', _, [b], hupdate, fun _ => ⟨b, inSync_new hg henters h'⟩, fun _ => ?_,
      fun hstuck => absurd hstuck hnotStuck⟩
    refine ⟨(paths (bs ++ [b]) best.id).map SidechainBlock.id, by simpa using hactive, ?_⟩
    rw [activeIds_eq h', hpath, List.map_append]
  · refine ⟨s', _, [], hupdate, fun _ => ⟨best, ?_⟩, fun _ => ?_, fun hstuck => absurd hstuck hnotStuck⟩
    · rw [blocksAfter, if_pos henters]
      refine ⟨h', rfl, rfl, ?_⟩
      intro hreset x hx hroot hchild
      by_cases hxb : x = b
      · rw [hxb]
        exact hinvalid
      · have hxbs : x ∈ bs := (List.mem_append.1 hx).resolve_right fun hmem => hxb (List.mem_singleton.1 hmem)
        rw [List.head?_append_of_ne_nil bs hg.ne_nil] at hroot
        exact (congrArg _ ((hkept x hx hxb).trans (hsame x hxbs))).trans (h.refused hreset x hxbs hroot hchild)
    · refine ⟨(paths (bs ++ [b]) best.id).map SidechainBlock.id, by simpa using hactive, ?_⟩
      rw [activeIds_eq h']
      simp

section Switched

variable {c : SidechainBlock} {l₁ l₂ : List SidechainBlock} (hfork : Consistent.Fork bs best a c l₁ l₂)
include hfork

omit h₁ hsame in
/-- the fork to the parent goes on to the block -/
theorem fork_concat : Consistent.Fork (bs ++ [b]) best b c l₁ (l₂ ++ [b]) := by
  have hbest : paths (bs ++ [b]) best.id = paths bs best.id := paths_concat_of_ne (henters.1 best h.consistent.active.mem)
  have hc : paths (bs ++ [b]) c.id = paths bs c.id :=
    paths_concat_of_ne (henters.1 c (h.consistent.mem_of_mem_best hfork.common))
  obtain ⟨-, hpath⟩ := paths_new ha hid henters.1
  refine ⟨hbest ▸ hfork.common, ?_, ?_, ?_⟩
  · rw [hbest, hc, hfork.current]
  · rw [hpath, hc, hfork.new, List.append_assoc]
  · intro x hx
    rw [hbest]
    rcases List.mem_append.1 hx with hx | hx
    · exact hfork.disjoint x hx
    · rw [List.mem_singleton.1 hx]
      exact fun hmem => henters.1 b (h.consistent.mem_of_mem_best hmem) rfl

omit henters h₁ hsame in
/-- a stuck call removes nothing, and goes on from the best block -/
theorem stuck_removes_nothing (hstuck : Stuck params validators o view.history bs b) :
    l₁ = [] ∧ ∃ x l, l₂ = x :: l ∧ o.accepts x = true ∧ ∃ y ∈ l ++ [b], o.accepts y = false := by
  obtain ⟨x, l, habove, haccepted, hrefused⟩ := hstuck.above h.consistent ha hid
  obtain ⟨-, hl₁, hl₂⟩ := fork_of_above h.consistent.tree.grown h.consistent.active.mem
    (h.consistent.mem_of_mem_best hfork.common) hfork habove
  exact ⟨hl₁, x, l, hl₂, haccepted, hrefused⟩

omit h₁ hsame in
/-- a block of the fork is refused after others were accepted, with nothing to apply again -/
theorem stuck_of_refused (hreset : params.resetModifiersStatus = true) {l' l'' : List SidechainBlock} {x : SidechainBlock}
    (hnone : l₁ = []) (hsplit : l₂ ++ [b] = l' ++ x :: l'') (hne : l' ≠ []) (haccepts : ∀ w ∈ l', o.accepts w = true)
    (hrefused : o.accepts x = false) : Stuck params validators o view.history bs b := by
  have hcurrent := hfork.current
  rw [hnone, List.append_nil] at hcurrent
  obtain ⟨z, m, hm⟩ := List.exists_cons_of_ne_nil hne
  obtain ⟨y, l, hl⟩ : ∃ y l, l₂ = y :: l := by
    cases l₂ with
    | nil =>
      have hlen := congrArg List.length hsplit
      simp [hm] at hlen
    | cons y l => exact ⟨y, l, rfl⟩
  rw [hl, hm] at hsplit
  obtain ⟨hyz, hrest⟩ := List.cons.inj hsplit
  have hrest' : l ++ [b] = m ++ x :: l'' := hrest
  refine ⟨hreset, henters, best, h.consistent.active.mem, a, ha, y, l, h.consistent.bestBlockId_eq, hid, ?_, ?_, x, ?_,
    hrefused⟩
  · rw [hcurrent, hfork.new, hl]
  · rw [show y = z from hyz]
    exact haccepts z (by simp [hm])
  · rw [hrest']
    simp

omit henters hid h₁ hsame in
/-- a child of the best block is on neither side of a fork that leaves the active chain below it -/
theorem child_apart (hl₁ : l₁ ≠ []) {w : SidechainBlock} (hw : w ∈ bs) (hroot : bs.head? ≠ some w)
    (hchild : w.parentId = best.id) : w ∉ l₁ ∧ w ∉ l₂ := by
  have hg := h.consistent.tree.grown
  have hbestmem := h.consistent.active.mem
  have hwpath := path_of_child hg hbestmem hw hroot hchild
  constructor
  · intro hmem
    have hin : w ∈ paths bs best.id := hfork.current ▸ List.mem_append_right _ hmem
    have hlen : (paths bs w.id).length ≤ (paths bs best.id).length := (hg.path_prefix hbestmem hin).length_le
    rw [hwpath, List.length_append, List.length_singleton] at hlen
    omega
  · intro hmem
    have hin : w ∈ paths bs a.id := hfork.new ▸ List.mem_append_right _ hmem
    obtain ⟨m, hm⟩ : paths bs w.id <+: paths bs a.id := hg.path_prefix ha hin
    rw [hwpath, List.append_assoc] at hm
    exact hl₁ (fork_of_above hg hbestmem (h.consistent.mem_of_mem_best hfork.common) hfork hm.symm).2.1

omit h₁ in
/-- the fork is abandoned; the records of all other blocks are kept -/
theorem inSync_abandoned {s' : HistoryStorage} (hparent : b.parentId ≠ best.id)
    (hcan : Consistent.CanSwitch params view.history l₁ l₂) (h' : Consistent params s' (bs ++ [b]) best)
    (hkept : ∀ w ∈ bs ++ [b], w ∉ l₂ ++ [b] → w ∉ l₁ → infoAt s' w.id = infoAt s₁ w.id) :
    InSync params ⟨s', versionsOf (paths (bs ++ [b]) best.id), versionsOf (paths (bs ++ [b]) best.id)⟩
      (blocksAfter validators view.history bs b) best := by
  rw [blocksAfter, if_pos henters]
  refine ⟨h', rfl, rfl, ?_⟩
  intro hreset w hw hroot hchild
  have hab : a ≠ best := fun heq => hparent (by rw [← hid, heq])
  have hl₁ : l₁ ≠ [] := h.removes hreset ha hab hfork hcan
  have hwb : w ≠ b := fun heq => hparent (heq ▸ hchild)
  have hwbs : w ∈ bs := (List.mem_append.1 hw).resolve_right fun hmem => hwb (List.mem_singleton.1 hmem)
  rw [List.head?_append_of_ne_nil bs h.consistent.tree.grown.ne_nil] at hroot
  obtain ⟨hwl₁, hwl₂⟩ := child_apart h ha hfork hl₁ hwbs hroot hchild
  have hkeptw := hkept w hw (by simp [hwl₂, hwb]) hwl₁
  exact (congrArg _ (hkeptw.trans (hsame w hwbs))).trans (h.refused hreset w hwbs hroot hchild)

end Switched

/-- the fork that ends with the block is tried -/
theorem result_switches (hswitch : Switching chainSwitchingNeeded)
    (hagain : ∀ x ∈ bs, (infoAt view.history x.id).semanticValidity = .Valid → o.accepts x = true) {c : SidechainBlock}
    {l₁ l₂ : List SidechainBlock} (hparent : b.parentId ≠ best.id) (hfork : Consistent.Fork bs best a c l₁ l₂)
    (hcan : Consistent.CanSwitch params view.history l₁ l₂) (fuel : ℕ) :
    ∃ s' versions applied,
      updateStateAndWallet chainSwitchingNeeded o (fuel + 2) s₁ view.minimalState view.vault ⟨some c.id, l₁, l₂ ++ [b]⟩
        [] =
        .ok (s', some versions, versions, applied) ∧
        Result params validators o view bs b ⟨s', versions, versions⟩ (some (l₁, applied)) := by
  have hbestmem := h.consistent.active.mem
  have hbest : paths (bs ++ [b]) best.id = paths bs best.id := paths_concat_of_ne (henters.1 best hbestmem)
  obtain ⟨hcommon, hold, hnew, hdisjoint⟩ := fork_concat h henters ha hid hfork
  have hagain₁ : ∀ x ∈ l₁, o.accepts x = true := by
    intro x hx
    have hmem : x ∈ paths bs best.id := hfork.current ▸ List.mem_append_right _ hx
    exact hagain x (h.consistent.mem_of_mem_best hmem) (h.consistent.active.valid x hmem)
  have hactive := activeIds_eq h.consistent
  rw [← hbest, hold, List.map_append] at hactive
  rw [h.state, h.wallet, ← hbest]
  obtain ⟨s', tip, reached, applied, hupdate, h', hupdated⟩ := updateStateAndWallet_fork hswitch h₁
    (List.mem_append_right _ (List.mem_singleton_self b)) hcommon hold hnew (by simp) hdisjoint hagain₁ fuel
  refine ⟨s', _, applied, hupdate, ?_⟩
  cases hupdated with
  | applied hall =>
    refine ⟨fun _ => ⟨b, inSync_new h.consistent.tree.grown henters h'⟩, fun _ => ⟨_, hactive, ?_⟩, fun hstuck => ?_⟩
    · rw [activeIds_eq h', hnew, List.map_append]
    · obtain ⟨-, x, l, hl₂, -, y, hy, hrefused⟩ := stuck_removes_nothing h ha hid hfork hstuck
      have haccepted := hall y (by rw [hl₂]; exact List.mem_cons_of_mem _ hy)
      rw [hrefused] at haccepted
      cases haccepted
  | @abandoned l' x' l'' hsplit hrefused hback hinvalid hkept =>
    refine ⟨fun _ => ⟨best, inSync_abandoned h henters ha hid hsame hfork hparent hcan h' hkept⟩,
      fun _ => ⟨_, hactive, ?_⟩, fun hstuck => ?_⟩
    · rw [activeIds_eq h', hold, List.map_append]
    · -- the first block of a fork that starts at the best one is the refused one
      obtain ⟨hl₁, x, l, hl₂, haccepted, -⟩ := stuck_removes_nothing h ha hid hfork hstuck
      have hl' : l' = [] := hback.resolve_left fun hne => hne hl₁
      rw [hl', hl₂] at hsplit
      have hxx' : x = x' := (List.cons.inj hsplit).1
      rw [hxx', hrefused] at haccepted
      cases haccepted
  | @stuck l' x' _ l'' hsplit hne haccepts hrefused hnone hz =>
    have hreset : params.resetModifiersStatus = true := by
      by_contra hoff
      have hab : a ≠ best := fun heq => hparent (by rw [← hid, heq])
      exact h.removes (by simpa using hoff) ha hab hfork hcan hnone
    have hstuck := stuck_of_refused h henters ha hid hfork hreset hnone hsplit hne haccepts hrefused
    refine ⟨fun hnot => absurd hstuck hnot, fun hnot => absurd hstuck hnot, fun _ => ?_⟩
    rintro ⟨id, hstate, -, hhistory⟩
    have hstate' := (version_versionsOf h₁.tree.grown (List.mem_append_left [b] hbestmem)).symm.trans hstate
    have hzbest : tip.id = best.id := by
      rw [← h'.bestBlockId_eq]
      exact hhistory.trans (Option.some.inj hstate').symm
    rw [hzbest, hold, hnone] at hz
    exact hne (List.append_cancel_left hz).symm

end Entered

/-- **One call.** -/
theorem InSync.call (h : InSync params view bs best) (hswitch : Switching chainSwitchingNeeded) {fuel : ℕ}
    (hcall : Call validators o fuel view.history bs b) :
    ∃ view' update, pmodModify chainSwitchingNeeded o params validators fuel b view = .ok (view', update) ∧
      Result params validators o view bs b view' update := by
  have hnothing : ¬ Enters validators view.history bs b → Result params validators o view bs b view none := by
    intro hnot
    refine ⟨fun _ => ⟨best, ?_⟩, fun _ => rfl, fun hstuck => absurd hstuck.2.1 hnot⟩
    rw [blocksAfter, if_neg hnot]
    exact h
  by_cases hfresh : ∀ x ∈ bs, x.id ≠ b.id
  swap
  · have hknown : ∃ x ∈ bs, x.id = b.id := by simpa using hfresh
    refine ⟨view, none, ?_, hnothing fun henters => hfresh henters.1⟩
    rw [pmodModify, if_pos ((contains_iff h.consistent).2 hknown)]
  have habsent : ¬ view.history.contains b.id = true := by
    rw [contains_iff h.consistent]
    rintro ⟨x, hx, heq⟩
    exact hfresh x hx heq
  by_cases henters : Enters validators view.history bs b
  swap
  · obtain ⟨e, hexec⟩ := exec_append_refused h.consistent hfresh henters fuel
    refine ⟨view, none, ?_, hnothing henters⟩
    rw [pmodModify, if_neg habsent, hexec]
  obtain ⟨a, ha, hid⟩ := henters.2.1
  obtain ⟨progress, s₁, hexec, houtcome, h₁, hsame, -⟩ :=
    h.consistent.exec_append ha hid hfresh (hcall.continues henters) henters.2.2 hcall.fuel
  obtain ⟨n, hn⟩ : ∃ n, fuel = n + 2 := by
    have hpos : 0 < bs.length := List.length_pos_iff.2 h.consistent.tree.grown.ne_nil
    have hfuel := hcall.fuel
    exact ⟨fuel - 2, by omega⟩
  cases houtcome with
  | onTop hparent =>
    obtain ⟨s', versions, applied, hupdate, hresult⟩ := result_onTop (o := o) h henters ha hid h₁ hsame hswitch hparent n
    rw [← hn] at hupdate
    refine ⟨_, _, ?_, hresult⟩
    rw [pmodModify, if_neg habsent, hexec]
    simp only
    rw [if_neg (by simp), hupdate]
  | @switches c l₁ l₂ hparent hfork hbetter hcan =>
    obtain ⟨s', versions, applied, hupdate, hresult⟩ :=
      result_switches h henters ha hid h₁ hsame hswitch hcall.again hparent hfork hcan n
    rw [← hn] at hupdate
    refine ⟨_, _, ?_, hresult⟩
    rw [pmodModify, if_neg habsent, hexec]
    simp only
    rw [if_neg (by simp), hupdate]
  | stays hparent hfork hnot =>
    refine ⟨_, _, ?_, result_stays h henters ha hid h₁ hsame hparent hfork hnot⟩
    rw [pmodModify, if_neg habsent, hexec]
    rfl

end Call

/-- the node view of the genesis block -/
def genesisView (params : NetworkParams) (validators : HistoryStorage → SidechainBlock → Bool) (fuel : ℕ)
    (g : SidechainBlock) :
    NodeView :=
  ⟨(exec (appendAndApply params validators fuel g) (emptyHistory params)).2, [g.id], [g.id]⟩

/-- `view` is reached from the genesis block by calls for any blocks, none of which is stuck; `bs` are the blocks that entered -/
inductive Run (chainSwitchingNeeded : ProgressInfo → Bool) (params : NetworkParams)
    (validators : HistoryStorage → SidechainBlock → Bool) : NodeView → List SidechainBlock → Prop
  | genesis {g : SidechainBlock} (fuel : ℕ) (hg : Genesis params g) (hvalid : validators (emptyHistory params) g = true) :
      Run chainSwitchingNeeded params validators (genesisView params validators fuel g) [g]
  | call {view view' : NodeView} {bs : List SidechainBlock} {b : SidechainBlock} {o : Outcomes} {fuel : ℕ}
      {update : MempoolUpdate}
      (hrun : Run chainSwitchingNeeded params validators view bs) (hcall : Call validators o fuel view.history bs b)
      (hnot : ¬ Stuck params validators o view.history bs b)
      (hexec : pmodModify chainSwitchingNeeded o params validators fuel b view = .ok (view', update)) :
      Run chainSwitchingNeeded params validators view' (blocksAfter validators view.history bs b)

section Runs

variable {chainSwitchingNeeded : ProgressInfo → Bool} {params : NetworkParams}
  {validators : HistoryStorage → SidechainBlock → Bool} {view : NodeView} {bs : List SidechainBlock}

theorem Run.inSync (hswitch : Switching chainSwitchingNeeded) (hrun : Run chainSwitchingNeeded params validators view bs) :
    ∃ best, InSync params view bs best := by
  induction hrun with
  | @genesis g fuel hg hvalid =>
    obtain ⟨s, hexec, h, -⟩ := exec_genesis hg hvalid fuel
    have hpath : paths [g] g.id = [g] := by
      rcases h.tree.grown.path_cases (List.mem_singleton_self g) with ⟨-, hroot⟩ | ⟨hne, -⟩
      · exact hroot
      · exact absurd rfl hne
    refine ⟨g, ?_, ?_, ?_, ?_⟩
    · rw [genesisView, hexec]
      exact h
    · rw [hpath]
      rfl
    · rw [hpath]
      rfl
    · intro _ x hx hroot
      rw [List.mem_singleton.1 hx] at hroot
      exact absurd rfl hroot
  | call _ hcall hnot hexec ih =>
    obtain ⟨best, h⟩ := ih
    obtain ⟨view', update, hexec', hresult⟩ := h.call hswitch hcall
    rw [hexec'] at hexec
    obtain ⟨rfl, -⟩ := Prod.mk.inj (Except.ok.inj hexec)
    exact hresult.inSync hnot

/-- **State, wallet and history agree** in every run without a stuck call. After one more call, whatever the block and its
outcomes, they agree again and the change is the one handed to the memory pool, exactly if the call is not stuck. -/
theorem components_agree (hswitch : Switching chainSwitchingNeeded) (hrun : Run chainSwitchingNeeded params validators view bs) :
    Agree params view ∧ ∀ b o fuel, Call validators o fuel view.history bs b →
      ∃ view' update, pmodModify chainSwitchingNeeded o params validators fuel b view = .ok (view', update) ∧
        ((Agree params view' ∧ Changes view.history view'.history update) ↔
          ¬ Stuck params validators o view.history bs b) := by
  obtain ⟨best, h⟩ := hrun.inSync hswitch
  refine ⟨h.agree, ?_⟩
  intro b o fuel hcall
  obtain ⟨view', update, hexec, hresult⟩ := h.call hswitch hcall
  refine ⟨view', update, hexec, ?_, ?_⟩
  · rintro ⟨hagree, -⟩ hstuck
    exact hresult.differ hstuck hagree
  · intro hnot
    obtain ⟨best', h'⟩ := hresult.inSync hnot
    exact ⟨h'.agree, hresult.changes hnot⟩

end Runs

/-! A block is applied on top of the genesis block. -/

def removesBlocks (p : ProgressInfo) : Bool := !p.toRemove.isEmpty

theorem switching_removesBlocks : Switching removesBlocks := by
  refine ⟨?_, ?_⟩
  · intro p hp
    simpa [removesBlocks] using hp
  · intro p _ hp
    simp [removesBlocks, hp]

/-- the state takes these blocks -/
def taking (ids : List ModifierId) : Outcomes := ⟨fun _ => true, fun _ => false, fun b => b.id ∈ ids⟩

theorem accepts_taking {ids : List ModifierId} {b : SidechainBlock} (hb : b.id ∈ ids) : (taking ids).accepts b = true := by
  simp [Outcomes.accepts, taking, hb]

/-- a block without mainchain data -/
theorem call_sample {s : HistoryStorage} {ids : List ModifierId} {bs : List SidechainBlock} {b : SidechainBlock}
    (hids : ∀ x ∈ bs, x.id ∈ ids) (hlen : bs.length < 10) (hheaders : b.mainchainHeaders = [])
    (hcarried : headersOf (paths bs b.parentId ++ [b]) = [10] ∧ dataOf (paths bs b.parentId ++ [b]) = [10]) :
    Call (fun _ _ => true) (taking ids) 10 s bs b where
  continues := by
    intro _
    refine ⟨?_, ?_, ?_⟩
    · intro q hq
      rw [SidechainBlock.mainchainParent, hheaders] at hq
      cases hq
    · rw [hcarried.1]
      exact List.nodup_singleton 10
    · rw [hcarried.1, hcarried.2]
  again := fun x hx _ => accepts_taking (hids x hx)
  fuel := hlen

def viewAfter (params : NetworkParams) (calls : List (SidechainBlock × Outcomes)) : NodeView :=
  calls.foldl (fun view c =>
    match pmodModify removesBlocks c.2 params (fun _ _ => true) 10 c.1 view with
    | .ok (view', _) => view'
    | .error _ => view) (genesisView params (fun _ _ => true) 10 sampleGenesisBlock)

def sampleSecond (id parentId : ModifierId) : SidechainBlock := ⟨id, parentId, [], [], []⟩

/-- a block on top of the genesis block, and one beside it that does not rank higher -/
theorem run_fork : Run removesBlocks sampleParams (fun _ _ => true)
    (viewAfter sampleParams [(sampleChild 2 [], taking [1, 2]), (sampleChild 3 [], taking [1, 2])])
    [sampleGenesisBlock, sampleChild 2 [], sampleChild 3 []] := by
  have hgenesis : Run removesBlocks sampleParams (fun _ _ => true) (viewAfter sampleParams []) [sampleGenesisBlock] :=
    .genesis 10 sampleGenesisBlock_genesis rfl
  have happlied : Run removesBlocks sampleParams (fun _ _ => true) (viewAfter sampleParams [(sampleChild 2 [], taking [1, 2])])
      [sampleGenesisBlock, sampleChild 2 []] :=
    hgenesis.call (b := sampleChild 2 []) (o := taking [1, 2]) (call_sample (by decide) (by decide) rfl ⟨rfl, rfl⟩)
      (fun hstuck => absurd hstuck.1 (by decide)) rfl
  exact happlied.call (b := sampleChild 3 []) (o := taking [1, 2]) (call_sample (by decide) (by decide) rfl ⟨rfl, rfl⟩)
    (fun hstuck => absurd hstuck.1 (by decide)) rfl

/-- the best block and what the memory pool is told -/
def outcome (params : NetworkParams) (result : Except NodeViewException (NodeView × MempoolUpdate)) :
    Option (ModifierId × Option (List ModifierId × List ModifierId)) :=
  result.toOption.map fun r => (bestBlockId params r.1.history,
    r.2.map fun update => (update.1.map SidechainBlock.id, update.2.map SidechainBlock.id))

/-- the fork is tried with a second block, which the state refuses, and the old block is applied again -/
theorem components_agree_fork :
    ∃ view' update, pmodModify removesBlocks (taking [1, 2, 3]) sampleParams (fun _ _ => true) 10 (sampleSecond 4 3)
        (viewAfter sampleParams [(sampleChild 2 [], taking [1, 2]), (sampleChild 3 [], taking [1, 2])]) = .ok (view', update) ∧
      Agree sampleParams view' ∧ outcome sampleParams (.ok (view', update)) = some (2, some ([2], [2])) := by
  obtain ⟨view', update, hexec, hiff⟩ :=
    (components_agree switching_removesBlocks run_fork).2 (sampleSecond 4 3) (taking [1, 2, 3])
    10 (call_sample (by decide) (by decide) rfl ⟨rfl, rfl⟩)
  refine ⟨view', update, hexec, (hiff.2 fun hstuck => absurd hstuck.1 (by decide)).1, ?_⟩
  rw [← hexec]
  decide +kernel

/-! A block is refused; with the next one on top of it, it is tried again and applied, and that one is refused. -/

def resettingParams : NetworkParams := { sampleParams with resetModifiersStatus := true }

theorem run_refused :
    Run removesBlocks resettingParams (fun _ _ => true) (viewAfter resettingParams [(sampleChild 2 [], taking [1])])
    [sampleGenesisBlock, sampleChild 2 []] := by
  have hgenesis : Genesis resettingParams sampleGenesisBlock := ⟨rfl, by decide, _, _, rfl, rfl, rfl, by decide⟩
  have hrun : Run removesBlocks resettingParams (fun _ _ => true) (viewAfter resettingParams []) [sampleGenesisBlock] :=
    .genesis 10 hgenesis rfl
  have hnot : ¬ Stuck resettingParams (fun _ _ => true) (taking [1]) (viewAfter resettingParams []).history [sampleGenesisBlock]
      (sampleChild 2 []) := by
    rintro ⟨-, -, best, hbest, a, ha, x, l, -, -, hpath, -⟩
    rw [List.mem_singleton.1 hbest, List.mem_singleton.1 ha] at hpath
    exact absurd (congrArg List.length hpath) (by simp)
  have hexec : pmodModify removesBlocks (taking [1]) resettingParams (fun _ _ => true) 10 (sampleChild 2 [])
      (viewAfter resettingParams []) = .ok (viewAfter resettingParams [(sampleChild 2 [], taking [1])], some ([], [])) := rfl
  exact hrun.call (call_sample (by decide) (by decide) rfl ⟨rfl, rfl⟩) hnot hexec

theorem stuck_components_differ :
    ¬ ∀ (chainSwitchingNeeded : ProgressInfo → Bool) (params : NetworkParams) (validators : HistoryStorage →
      SidechainBlock → Bool)
      (view view' : NodeView) (bs : List SidechainBlock) (b : SidechainBlock) (o : Outcomes) (fuel : ℕ)
        (update : MempoolUpdate),
      Switching chainSwitchingNeeded → Run chainSwitchingNeeded params validators view bs →
      Call validators o fuel view.history bs b →
      pmodModify chainSwitchingNeeded o params validators fuel b view = .ok (view', update) → Agree params view' := by
  intro hall
  have hcall : Call (fun _ _ => true) (taking [1, 2]) 10 (viewAfter resettingParams [(sampleChild 2 [], taking [1])]).history
      [sampleGenesisBlock, sampleChild 2 []] (sampleSecond 3 2) := call_sample (by decide) (by decide) rfl ⟨rfl, rfl⟩
  obtain ⟨id, hstate, -, hhistory⟩ := hall removesBlocks resettingParams (fun _ _ => true) _
    (viewAfter resettingParams [(sampleChild 2 [], taking [1]), (sampleSecond 3 2, taking [1, 2])]) _ _ _ _ (some ([], []))
    switching_removesBlocks run_refused hcall rfl
  have hone : (viewAfter resettingParams
      [(sampleChild 2 [], taking [1]), (sampleSecond 3 2, taking [1, 2])]).minimalState.version =
      some 1 := by decide
  have htwo : bestBlockId resettingParams
      (viewAfter resettingParams [(sampleChild 2 [], taking [1]), (sampleSecond 3 2, taking [1, 2])]).history = 2 := by decide
  rw [hone] at hstate
  rw [htwo, ← Option.some.inj hstate] at hhistory
  cases hhistory

/-- a block on top of the genesis block whose only mainchain header is that of the genesis block -/
theorem replayed_header_components_differ :
    (viewAfter sampleParams [(sampleReplay 2, taking [1, 2])]).minimalState = [1] ∧
      bestBlockId sampleParams (viewAfter sampleParams [(sampleReplay 2, taking [1, 2])]).history = 2 := by
  exact ⟨rfl, rfl⟩

end SidechainsSdk.Node
