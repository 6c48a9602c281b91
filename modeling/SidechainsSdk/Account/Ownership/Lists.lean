/-
The lists of the ownership contract agree with each other and with the associations.

`Inv` relates the storage to three lists: all associations, the owners, and the addresses of each owner. It decouples them,
so that each of the steps that a command is made of changes one of them; after a whole command they fit together
(`Associated`).

- `initStateDb_spec`, `addMcAddrOwnership_spec`, `uncheckedRemoveMcAddrOwnership_spec`: what the operations do to the lists.
- `process_cases`: what an accepted message does to the storage.
- `ownership_lists_agree`: after any messages the lists are exact, as long as the list of an address is only asked for when
  it has an association: the query sets up a list for any other address, which then counts as an owner.
-/
import Mathlib.Tactic
import SidechainsSdk.Account.Ownership.McAddrOwnership

namespace SidechainsSdk.Account.McAddrOwnership

open Fallible
open SidechainsSdk.Account.StateTransition (StateDb Invocation Machine)
open NativeContract (Request decodeInput run accepted Accepted step step_cases run_induction run_append accepted_append)
open NativeLinkedList
open ForgerStakeV2 (METHOD_ID_LENGTH getArgumentsFromData)
open WithdrawalRequests (getFunctionSignature)

/-! ## Parts of the storage -/

/-- the parts of the storage, one for each list -/
inductive Part where
  | all
  | owners
  | owned (sc : Address)
deriving DecidableEq

/-- the part that a key belongs to; a node is where its data is -/
def Key.part : Key → Part
  | .zero => .all
  | .text s => if s = "OwnershipTipKey" then .all else .owners
  | .scText sc s => if s = "" then .owners else .owned sc
  | .keccak _ => .all
  | .hash k => k.part

/-- two storages agree on a key -/
def AgreeAt (s s' : Storage) (k : Key) : Prop := s'.words k = s.words k ∧ s'.records.lookup k = s.records.lookup k

/-- only one part is changed -/
def Only (part : Part) (s s' : Storage) : Prop := ∀ k, k.part ≠ part → AgreeAt s s' k

variable {s s' s'' : Storage} {part : Part} {key : Key}

theorem Only.refl : Only part s s := fun _ _ => ⟨rfl, rfl⟩

theorem Only.trans (h : Only part s s') (h' : Only part s' s'') : Only part s s'' := by
  intro k hk
  obtain ⟨hwords, hrecords⟩ := h k hk
  obtain ⟨hwords', hrecords'⟩ := h' k hk
  exact ⟨hwords'.trans hwords, hrecords'.trans hrecords⟩

theorem only_insert (hkey : key.part = part) (r : Record Key Data) :
    Only part s { s with records := s.records.insert key r } := by
  intro k hk
  have hne : k ≠ key := by
    rintro rfl
    exact hk hkey
  exact ⟨rfl, AList.lookup_insert_ne hne⟩

theorem only_erase (hkey : key.part = part) : Only part s { s with records := s.records.erase key } := by
  intro k hk
  have hne : k ≠ key := by
    rintro rfl
    exact hk hkey
  exact ⟨rfl, AList.lookup_erase_ne hne⟩

theorem only_update (hkey : key.part = part) (value : Key) :
    Only part s { s with words := Function.update s.words key value } := by
  intro k hk
  have hne : k ≠ key := by
    rintro rfl
    exact hk hkey
  exact ⟨Function.update_of_ne hne _ _, rfl⟩

theorem only_frame {tip null : Key} {ids : List Key} (h : Frame (nativeList tip null) (ids.map Key.hash) s s')
    (htip : tip.part = part) (hids : ∀ k ∈ ids, k.part = part) : Only part s s' := by
  intro k hk
  refine ⟨h.words k ?_, h.records k ?_⟩
  · rintro rfl
    exact hk htip
  · intro hmem
    obtain ⟨d, hd, rfl⟩ := List.mem_map.1 hmem
    exact hk (hids d hd)

/-- a list is where its tip and its data are -/
theorem Holds.of_agree {tip null : Key} {ids : List Key} (h : Holds (nativeList tip null) s ids) (htip : tip.part = part)
    (hids : ∀ k ∈ ids, k.part = part) (hagree : ∀ k, k.part = part → AgreeAt s s' k) :
      Holds (nativeList tip null) s' ids := by
  apply h.congr (hagree tip htip).1
  intro k hk
  obtain ⟨d, hd, rfl⟩ := List.mem_map.1 hk
  exact (hagree (.hash d) (hids d hd)).2

/-- the tip of a list that is set up is not the zero word -/
theorem Holds.tip_ne_zero {tip null : Key} {ids : List Key} (h : Holds (nativeList tip null) s ids) (hnull : null ≠ .zero) :
    s.words tip ≠ .zero := by
  have htip := h.tip
  rw [lastKey_entries] at htip
  cases hlast : ids.getLast? with
  | none =>
    rw [hlast] at htip
    exact htip ▸ hnull
  | some d =>
    rw [hlast] at htip
    intro hzero
    have hcontra := hzero.symm.trans htip
    simp [reference, nativeList] at hcontra

/-- it is the null value when the list is empty -/
theorem Holds.tip_eq_null {tip null : Key} {ids : List Key} (h : Holds (nativeList tip null) s ids)
    (hnull : ∀ k, null ≠ .hash k) :
    s.words tip = null ↔ ids = [] := by
  have htip := h.tip
  rw [lastKey_entries] at htip
  change s.words tip = _ at htip
  rw [htip]
  cases hlast : ids.getLast? with
  | none => simpa [reference, nativeList] using List.getLast?_eq_none_iff.1 hlast
  | some d =>
    have hne : ids ≠ [] := by
      rintro rfl
      cases hlast
    simpa [reference, nativeList, hne] using (hnull d).symm

/-! ## The lists -/

def ownershipIds (all : List McAddrOwnershipData) : List Key := all.map fun d => getOwnershipId d.mcTransparentAddress

/-- the list of all associations -/
structure AllStored (s : Storage) (all : List McAddrOwnershipData) : Prop where
  holds : Holds mcAddrOwnershipLinkedList s (ownershipIds all)
  ownership : ∀ mc, s.records.lookup (getOwnershipId mc) =
    (all.find? (·.mcTransparentAddress = mc)).map fun d => .data (.ownership d)

/-- the list of the owners -/
structure OwnersStored (s : Storage) (owners : List Address) : Prop where
  holds : Holds scAddressRefsLinkedList s (owners.map scAddressTipValue)
  owner : ∀ sc, s.records.lookup (scAddressTipValue sc) = if sc ∈ owners then some (.data (.owner sc)) else none

/-- the list of an owner, if it is set up -/
structure OwnedStored (s : Storage) (sc : Address) (listed : Prop) (mcs : List String) : Prop where
  holds : listed → Holds (scAddrOwnershipLinkedList sc) s (mcs.map (getDataId sc))
  not_listed : ¬ listed → s.words (scAddrOwnershipLinkedList sc).listTipKey = .zero ∧ mcs = []
  mcAddress : ∀ mc ∈ mcs, s.records.lookup (getDataId sc mc) = some (.data (.mcAddress mc))
  length : ∀ mc ∈ mcs, mc.length = HORIZEN_MC_TRANSPARENT_ADDRESS_BASE_58_LENGTH

variable {all : List McAddrOwnershipData} {owners : List Address} {listed : Prop} {mcs : List String} {sc : Address} {mc : String}

theorem ownershipIds_part : ∀ k ∈ ownershipIds all, k.part = .all := by
  intro k hk
  obtain ⟨d, -, rfl⟩ := List.mem_map.1 hk
  rfl

theorem tipValues_part : ∀ k ∈ owners.map scAddressTipValue, k.part = .owners := by
  intro k hk
  obtain ⟨sc, -, rfl⟩ := List.mem_map.1 hk
  rfl

/-- an address of the mainchain is no name of a list -/
theorem getDataId_part (hlength : mc.length = HORIZEN_MC_TRANSPARENT_ADDRESS_BASE_58_LENGTH) :
    (getDataId sc mc).part = .owned sc := by
  have hne : mc ≠ "" := by
    rintro rfl
    exact absurd hlength (by decide)
  exact if_neg hne

theorem dataIds_part (hlength : ∀ mc ∈ mcs, mc.length = HORIZEN_MC_TRANSPARENT_ADDRESS_BASE_58_LENGTH) :
    ∀ k ∈ mcs.map (getDataId sc), k.part = .owned sc := by
  intro k hk
  obtain ⟨mc, hmc, rfl⟩ := List.mem_map.1 hk
  exact getDataId_part (hlength mc hmc)

theorem AllStored.of_agree (h : AllStored s all) (hagree : ∀ k, k.part = .all → AgreeAt s s' k) : AllStored s' all where
  holds := Holds.of_agree h.holds rfl ownershipIds_part hagree
  ownership mc := (hagree (getOwnershipId mc) rfl).2.trans (h.ownership mc)

theorem OwnersStored.of_agree (h : OwnersStored s owners) (hagree : ∀ k, k.part = .owners → AgreeAt s s' k) :
    OwnersStored s' owners where
  holds := Holds.of_agree h.holds rfl tipValues_part hagree
  owner sc := (hagree (scAddressTipValue sc) rfl).2.trans (h.owner sc)

theorem OwnedStored.of_agree (h : OwnedStored s sc listed mcs) (hagree : ∀ k, k.part = .owned sc → AgreeAt s s' k) :
    OwnedStored s' sc listed mcs where
  holds hlisted := Holds.of_agree (h.holds hlisted) rfl (dataIds_part h.length) hagree
  not_listed hnot := ⟨(hagree _ rfl).1.trans (h.not_listed hnot).1, (h.not_listed hnot).2⟩
  mcAddress mc hmc := (hagree (getDataId sc mc) (getDataId_part (h.length mc hmc))).2.trans (h.mcAddress mc hmc)
  length := h.length

/-! The keys of different items differ. -/

theorem hash_injective : Function.Injective Key.hash := fun _ _ h => Key.hash.inj h

theorem getOwnershipId_injective : Function.Injective getOwnershipId := fun _ _ h => Key.keccak.inj h

theorem scAddressTipValue_injective : Function.Injective scAddressTipValue := fun _ _ h => (Key.scText.inj h).1

theorem getDataId_injective (sc : Address) : Function.Injective (getDataId sc) := fun _ _ h => (Key.scText.inj h).2

theorem AllStored.unique (h : AllStored s all) : (all.map McAddrOwnershipData.mcTransparentAddress).Nodup := by
  have hnodup := h.holds.nodup
  rw [ownershipIds, List.map_map] at hnodup
  have hcomp : (mcAddrOwnershipLinkedList.hash ∘ fun d : McAddrOwnershipData => getOwnershipId d.mcTransparentAddress) =
      (fun mc => Key.hash (getOwnershipId mc)) ∘ McAddrOwnershipData.mcTransparentAddress := rfl
  rw [hcomp, ← List.map_map] at hnodup
  exact List.Nodup.of_map _ hnodup

theorem OwnersStored.nodup (h : OwnersStored s owners) : owners.Nodup :=
  List.Nodup.of_map _ (List.Nodup.of_map _ h.holds.nodup)

theorem OwnedStored.nodup (h : OwnedStored s sc listed mcs) (hlisted : listed) : mcs.Nodup :=
  List.Nodup.of_map _ (List.Nodup.of_map _ (h.holds hlisted).nodup)

/-! ## Changes to one list -/

/-- a record written or erased next to the nodes of a list -/
theorem Holds.of_nodes {tip null : Key} {ids : List Key} (h : Holds (nativeList tip null) s ids)
    (hwords : s'.words tip = s.words tip) (hnodes : ∀ k, s'.records.lookup (.hash k) = s.records.lookup (.hash k)) :
    Holds (nativeList tip null) s' ids := by
  apply h.congr hwords
  intro k hk
  obtain ⟨d, -, rfl⟩ := List.mem_map.1 hk
  exact hnodes d

/-- changes to a list leave data alone -/
theorem frame_data {tip null : Key} {ids : List Key} (h : Frame (nativeList tip null) (ids.map Key.hash) s s') {key : Key}
    (hkey : ∀ k, key ≠ .hash k) : s'.records.lookup key = s.records.lookup key := by
  apply h.records
  intro hmem
  obtain ⟨d, -, heq⟩ := List.mem_map.1 hmem
  exact hkey d heq.symm

theorem hash_not_mem {α : Type} {key : α → Key} (hkey : Function.Injective key) {a : α} {items : List α}
    (ha : a ∉ items) :
    Key.hash (key a) ∉ (items.map key).map Key.hash := by
  intro hmem
  obtain ⟨k, hk, heq⟩ := List.mem_map.1 hmem
  obtain ⟨b, hb, rfl⟩ := List.mem_map.1 hk
  exact ha (hkey (hash_injective heq) ▸ hb)

theorem addToAll_spec (sc : Address) (h : AllStored s all) (hnew : mc ∉ all.map McAddrOwnershipData.mcTransparentAddress) :
    ∃ s₁, exec (addNewNode mcAddrOwnershipLinkedList (getOwnershipId mc)) s = (.ok (), s₁) ∧
      let s' := { s₁ with records := s₁.records.insert (getOwnershipId mc) (.data (.ownership ⟨sc, mc⟩)) }
      AllStored s' (all ++ [⟨sc, mc⟩]) ∧ Only .all s s' := by
  have hids : ownershipIds all = (all.map McAddrOwnershipData.mcTransparentAddress).map getOwnershipId := by
    rw [List.map_map]
    rfl
  have hkey : mcAddrOwnershipLinkedList.hash (getOwnershipId mc) ∉ (ownershipIds all).map mcAddrOwnershipLinkedList.hash := by
    rw [hids]
    exact hash_not_mem getOwnershipId_injective hnew
  obtain ⟨s₁, hexec, hholds, hframe⟩ := addNewNode_spec h.holds hkey (by exact Key.noConfusion)
  have hids' : ownershipIds all ++ [getOwnershipId mc] = ownershipIds (all ++ [⟨sc, mc⟩]) := by simp [ownershipIds]
  rw [hids'] at hholds hframe
  refine ⟨s₁, hexec, ⟨?_, ?_⟩, ?_⟩
  · exact Holds.of_nodes hholds rfl fun k => AList.lookup_insert_ne (by exact Key.noConfusion)
  · intro mc'
    by_cases heq : mc' = mc
    · subst heq
      have hnone : all.find? (·.mcTransparentAddress = mc') = none := by
        rw [List.find?_eq_none]
        intro d hd
        simpa using fun heq => hnew (List.mem_map.2 ⟨d, hd, heq⟩)
      rw [AList.lookup_insert, List.find?_append, hnone]
      simp
    · have hne : getOwnershipId mc' ≠ getOwnershipId mc := fun h => heq (getOwnershipId_injective h)
      have hlast : ([⟨sc, mc⟩] : List McAddrOwnershipData).find? (·.mcTransparentAddress = mc') = none := by
        simpa using fun h => heq h.symm
      rw [AList.lookup_insert_ne hne, frame_data hframe (by exact fun _ => Key.noConfusion), h.ownership, List.find?_append,
        hlast,
        Option.or_none]
  · have hlist : Only .all s s₁ := only_frame hframe rfl ownershipIds_part
    apply hlist.trans
    apply only_insert
    rfl

theorem removeFromAll_spec {all₁ all₂ : List McAddrOwnershipData} (h : AllStored s (all₁ ++ ⟨sc, mc⟩ :: all₂)) :
    ∃ s₁, exec (removeNode mcAddrOwnershipLinkedList (getOwnershipId mc)) s = (.ok (), s₁) ∧
      let s' := { s₁ with records := s₁.records.erase (getOwnershipId mc) }
      AllStored s' (all₁ ++ all₂) ∧ Only .all s s' := by
  have hids : ownershipIds (all₁ ++ ⟨sc, mc⟩ :: all₂) = ownershipIds all₁ ++ getOwnershipId mc :: ownershipIds
      all₂ := by
    simp [ownershipIds]
  have hholds := h.holds
  rw [hids] at hholds
  obtain ⟨s₁, hexec, hholds', -, hframe⟩ := removeNode_spec hholds
  have hids' : ownershipIds all₁ ++ ownershipIds all₂ = ownershipIds (all₁ ++ all₂) := by simp [ownershipIds]
  rw [hids'] at hholds'
  rw [← hids] at hframe
  have hunique := h.unique
  rw [List.map_append, List.map_cons, List.nodup_middle, List.nodup_cons, ← List.map_append] at hunique
  refine ⟨s₁, hexec, ⟨?_, ?_⟩, ?_⟩
  · exact Holds.of_nodes hholds' rfl fun k => AList.lookup_erase_ne (by exact Key.noConfusion)
  · intro mc'
    by_cases heq : mc' = mc
    · subst heq
      have hnone : (all₁ ++ all₂).find? (·.mcTransparentAddress = mc') = none := by
        rw [List.find?_eq_none]
        intro d hd
        simpa using fun heq => hunique.1 (List.mem_map.2 ⟨d, hd, heq⟩)
      rw [AList.lookup_erase, hnone]
      rfl
    · have hne : getOwnershipId mc' ≠ getOwnershipId mc := fun h => heq (getOwnershipId_injective h)
      have hskip : ¬ (mc = mc') := fun h => heq h.symm
      rw [AList.lookup_erase_ne hne, frame_data hframe (by exact fun _ => Key.noConfusion), h.ownership]
      simp [List.find?_append, hskip]
  · have hlist : Only .all s s₁ := only_frame hframe rfl ownershipIds_part
    apply hlist.trans
    apply only_erase
    rfl

theorem addOwner_spec (h : OwnersStored s owners) (hnew : sc ∉ owners) :
    ∃ s₁, exec (addNewNode scAddressRefsLinkedList (scAddressTipValue sc)) s = (.ok (), s₁) ∧
      let s' := { s₁ with records := s₁.records.insert (scAddressTipValue sc) (.data (.owner sc)) }
      OwnersStored s' (owners ++ [sc]) ∧ Only .owners s s' := by
  obtain ⟨s₁, hexec, hholds, hframe⟩ := addNewNode_spec h.holds (hash_not_mem scAddressTipValue_injective hnew)
    (by exact Key.noConfusion)
  have hids : owners.map scAddressTipValue ++ [scAddressTipValue sc] = (owners ++ [sc]).map scAddressTipValue := by simp
  rw [hids] at hholds hframe
  refine ⟨s₁, hexec, ⟨?_, ?_⟩, ?_⟩
  · exact Holds.of_nodes hholds rfl fun k => AList.lookup_insert_ne (by exact Key.noConfusion)
  · intro sc'
    by_cases heq : sc' = sc
    · subst heq
      simp
    · have hne : scAddressTipValue sc' ≠ scAddressTipValue sc := fun h => heq (scAddressTipValue_injective h)
      rw [AList.lookup_insert_ne hne, frame_data hframe (by exact fun _ => Key.noConfusion), h.owner]
      simp [heq]
  · have hlist : Only .owners s s₁ := only_frame hframe rfl tipValues_part
    apply hlist.trans
    apply only_insert
    rfl

theorem removeOwner_spec {owners₁ owners₂ : List Address} (h : OwnersStored s (owners₁ ++ sc :: owners₂)) :
    ∃ s', exec (removeNode scAddressRefsLinkedList (scAddressTipValue sc))
        { s with records := s.records.erase (scAddressTipValue sc) } = (.ok (), s') ∧
      OwnersStored s' (owners₁ ++ owners₂) ∧ Only .owners s s' := by
  have hholds : Holds scAddressRefsLinkedList { s with records := s.records.erase (scAddressTipValue sc) }
      (owners₁.map scAddressTipValue ++ scAddressTipValue sc :: owners₂.map scAddressTipValue) := by
    rw [← List.map_cons, ← List.map_append]
    exact Holds.of_nodes h.holds rfl fun k => AList.lookup_erase_ne (by exact Key.noConfusion)
  obtain ⟨s', hexec, hholds', -, hframe⟩ := removeNode_spec hholds
  rw [← List.map_append] at hholds'
  rw [← List.map_cons, ← List.map_append] at hframe
  have hnodup := h.nodup
  rw [List.nodup_middle, List.nodup_cons] at hnodup
  refine ⟨s', hexec, ⟨hholds', ?_⟩, ?_⟩
  · intro sc'
    rw [frame_data hframe (by exact fun _ => Key.noConfusion)]
    by_cases heq : sc' = sc
    · subst heq
      rw [AList.lookup_erase, if_neg hnodup.1]
    · have hne : scAddressTipValue sc' ≠ scAddressTipValue sc := fun h => heq (scAddressTipValue_injective h)
      rw [AList.lookup_erase_ne hne, h.owner]
      simp [heq]
  · exact (only_erase rfl).trans (only_frame hframe rfl tipValues_part)

theorem addToOwned_spec (h : OwnedStored s sc True mcs) (hnew : mc ∉ mcs)
    (hlength : mc.length = HORIZEN_MC_TRANSPARENT_ADDRESS_BASE_58_LENGTH) :
    ∃ s₁, exec (addNewNode (scAddrOwnershipLinkedList sc) (getDataId sc mc)) s = (.ok (), s₁) ∧
      let s' := { s₁ with records := s₁.records.insert (getDataId sc mc) (.data (.mcAddress mc)) }
      OwnedStored s' sc True (mcs ++ [mc]) ∧ Only (.owned sc) s s' := by
  obtain ⟨s₁, hexec, hholds, hframe⟩ := addNewNode_spec (h.holds trivial) (hash_not_mem (getDataId_injective sc) hnew)
    (by exact Key.noConfusion)
  have hids : mcs.map (getDataId sc) ++ [getDataId sc mc] = (mcs ++ [mc]).map (getDataId sc) := by simp
  rw [hids] at hholds hframe
  have hlengths : ∀ mc' ∈ mcs ++ [mc], mc'.length = HORIZEN_MC_TRANSPARENT_ADDRESS_BASE_58_LENGTH := by
    intro mc' hmc'
    rcases List.mem_append.1 hmc' with hmem | hmem
    · exact h.length mc' hmem
    · rw [List.mem_singleton.1 hmem]
      exact hlength
  refine ⟨s₁, hexec, ⟨?_, fun hnot => absurd trivial hnot, ?_, hlengths⟩, ?_⟩
  · intro _
    exact Holds.of_nodes hholds rfl fun k => AList.lookup_insert_ne (by exact Key.noConfusion)
  · intro mc' hmc'
    by_cases heq : mc' = mc
    · subst heq
      exact AList.lookup_insert _
    · have hne : getDataId sc mc' ≠ getDataId sc mc := fun h => heq (getDataId_injective sc h)
      have hmem : mc' ∈ mcs := by simpa [heq] using hmc'
      rw [AList.lookup_insert_ne hne, frame_data hframe (by exact fun _ => Key.noConfusion), h.mcAddress mc' hmem]
  · exact (only_frame hframe rfl (dataIds_part hlengths)).trans (only_insert (getDataId_part hlength) _)

theorem removeFromOwned_spec {mcs₁ mcs₂ : List String} (h : OwnedStored s sc True (mcs₁ ++ mc :: mcs₂)) :
    ∃ s', exec (removeNode (scAddrOwnershipLinkedList sc) (getDataId sc mc)) s = (.ok (), s') ∧
      OwnedStored s' sc True (mcs₁ ++ mcs₂) ∧ Only (.owned sc) s s' := by
  have hholds := h.holds trivial
  rw [List.map_append, List.map_cons] at hholds
  obtain ⟨s', hexec, hholds', -, hframe⟩ := removeNode_spec hholds
  rw [← List.map_append] at hholds'
  rw [← List.map_cons, ← List.map_append] at hframe
  have hmem : ∀ mc' ∈ mcs₁ ++ mcs₂, mc' ∈ mcs₁ ++ mc :: mcs₂ := by
    intro mc' hmc'
    rw [List.mem_append, List.mem_cons]
    rw [List.mem_append] at hmc'
    tauto
  refine ⟨s', hexec, ⟨fun _ => hholds', fun hnot => absurd trivial hnot, ?_, ?_⟩, ?_⟩
  · intro mc' hmc'
    rw [frame_data hframe (by exact fun _ => Key.noConfusion), h.mcAddress mc' (hmem mc' hmc')]
  · exact fun mc' hmc' => h.length mc' (hmem mc' hmc')
  · exact only_frame hframe rfl (dataIds_part h.length)

/-! ## The operations of the contract -/

/-- what the lists hold, oldest first -/
structure Lists where
  all : List McAddrOwnershipData
  owners : List Address
  owned : Address → List String

/-- the storage holds all of the lists -/
structure Inv (s : Storage) (l : Lists) : Prop where
  all : AllStored s l.all
  owners : OwnersStored s l.owners
  owned : ∀ sc, OwnedStored s sc (sc ∈ l.owners) (l.owned sc)

variable {l : Lists}

/-- the list of an address that has one is not set up again -/
theorem initStateDb_listed (h : Inv s l) (hsc : sc ∈ l.owners) : exec (initStateDb sc) s = (.ok (), s) := by
  have htip : s.words (scAddrOwnershipLinkedList sc).listTipKey ≠ .zero :=
    Holds.tip_ne_zero ((h.owned sc).holds hsc) (by exact Key.noConfusion)
  have hrecord : (s.records.lookup (scAddressTipValue sc)).isNone = false := by
    rw [h.owners.owner, if_pos hsc]
    rfl
  have hget : exec (getAccountStorage (scAddrOwnershipLinkedList sc).listTipKey) s =
      (.ok (s.words (scAddrOwnershipLinkedList sc).listTipKey), s) := rfl
  rw [initStateDb]
  dsimp only
  rw [exec_bind_of_ok hget, if_neg htip, exec_get_bind, hrecord]
  rfl

/-- any other address becomes an owner, with an empty list -/
theorem initStateDb_not_listed (h : Inv s l) (hsc : sc ∉ l.owners) :
    ∃ s', exec (initStateDb sc) s = (.ok (), s') ∧ Inv s' { l with owners := l.owners ++ [sc] } := by
  obtain ⟨hzero, hempty⟩ := (h.owned sc).not_listed hsc
  set tip := (scAddrOwnershipLinkedList sc).listTipKey
  set null := (scAddrOwnershipLinkedList sc).listTipNullValue
  set s₁ : Storage := { s with words := Function.update s.words tip null } with hs₁
  have honly₁ : Only (.owned sc) s s₁ := by
    apply only_update
    rfl
  have howners : OwnersStored s₁ l.owners := h.owners.of_agree fun k hk => honly₁ k (by simp [hk])
  obtain ⟨s₂, hexec, howners', honly₂⟩ := addOwner_spec howners hsc
  refine ⟨{ s₂ with records := s₂.records.insert (scAddressTipValue sc) (.data (.owner sc)) }, ?_, ?_, howners', ?_⟩
  · have hrecord : (s₁.records.lookup (scAddressTipValue sc)).isNone = true := by
      rw [howners.owner, if_neg hsc]
      rfl
    have hget : exec (getAccountStorage tip) s = (.ok (s.words tip), s) := rfl
    have hupdate : exec (updateAccountStorage tip null : StorageCommand Unit) s = (.ok (), s₁) := rfl
    rw [initStateDb]
    dsimp only
    rw [exec_bind_of_ok hget, if_pos hzero, exec_bind_of_ok hupdate, exec_get_bind, hrecord, if_pos rfl, exec_bind_of_ok hexec]
    rfl
  · apply h.all.of_agree
    intro k hk
    obtain ⟨hwords, hrecords⟩ := honly₁ k (by simp [hk])
    obtain ⟨hwords', hrecords'⟩ := honly₂ k (by simp [hk])
    exact ⟨hwords'.trans hwords, hrecords'.trans hrecords⟩
  · intro sc'
    by_cases heq : sc' = sc
    · subst heq
      have hnew : OwnedStored s₁ sc' (sc' ∈ l.owners ++ [sc']) (l.owned sc') := by
        rw [hempty]
        refine ⟨fun _ => holds_nil ?_, fun hnot => absurd (by simp) hnot, by simp, by simp⟩
        exact Function.update_self _ _ _
      exact hnew.of_agree fun k hk => honly₂ k (by simp [hk])
    · have hold : OwnedStored s₁ sc' (sc' ∈ l.owners) (l.owned sc') :=
        (h.owned sc').of_agree fun k hk => honly₁ k (by simp [hk, heq])
      have hmem : (sc' ∈ l.owners ++ [sc]) = (sc' ∈ l.owners) := by simp [heq]
      show OwnedStored _ sc' (sc' ∈ l.owners ++ [sc]) (l.owned sc')
      rw [hmem]
      exact hold.of_agree fun k hk => honly₂ k (by simp [hk])

/-- the owners after a list was used -/
def withOwner (owners : List Address) (sc : Address) : List Address := if sc ∈ owners then owners else owners ++ [sc]

theorem mem_withOwner {sc' : Address} : sc' ∈ withOwner owners sc ↔ sc' ∈ owners ∨ sc' = sc := by
  unfold withOwner
  split_ifs with hsc
  · constructor
    · exact .inl
    · rintro (hmem | rfl)
      · exact hmem
      · exact hsc
  · simp

theorem initStateDb_spec (h : Inv s l) (sc : Address) :
    ∃ s', exec (initStateDb sc) s = (.ok (), s') ∧ Inv s' { l with owners := withOwner l.owners sc } := by
  unfold withOwner
  split_ifs with hsc
  · exact ⟨s, initStateDb_listed h hsc, h⟩
  · exact initStateDb_not_listed h hsc

/-- a change to the list of one owner -/
theorem Inv.with_owned (h : Inv s l) (hsc : sc ∈ l.owners) (hnew : OwnedStored s' sc True mcs) (honly : Only (.owned sc) s s') :
    Inv s' { l with owned := Function.update l.owned sc mcs } where
  all := h.all.of_agree fun k hk => honly k (by simp [hk])
  owners := h.owners.of_agree fun k hk => honly k (by simp [hk])
  owned sc' := by
    by_cases heq : sc' = sc
    · subst heq
      simpa [hsc] using hnew
    · have hsame : Function.update l.owned sc mcs sc' = l.owned sc' := Function.update_of_ne heq _ _
      show OwnedStored s' sc' (sc' ∈ l.owners) (Function.update l.owned sc mcs sc')
      rw [hsame]
      exact (h.owned sc').of_agree fun k hk => honly k (by simp [hk, heq])

/-- a change to the list of all associations -/
theorem Inv.with_all (h : Inv s l) (hnew : AllStored s' all) (honly : Only .all s s') : Inv s' { l with all := all } where
  all := hnew
  owners := h.owners.of_agree fun k hk => honly k (by simp [hk])
  owned sc := (h.owned sc).of_agree fun k hk => honly k (by simp [hk])

theorem addMcAddrOwnership_spec (h : Inv s l) (hnew : mc ∉ l.all.map McAddrOwnershipData.mcTransparentAddress)
    (hown : mc ∉ l.owned sc) (hlength : mc.length = HORIZEN_MC_TRANSPARENT_ADDRESS_BASE_58_LENGTH) :
    ∃ s', exec (addMcAddrOwnership (getOwnershipId mc) sc mc) s = (.ok (), s') ∧
      Inv s' ⟨l.all ++ [⟨sc, mc⟩], withOwner l.owners sc, Function.update l.owned sc (l.owned sc ++ [mc])⟩ := by
  obtain ⟨s₁, hexec₁, hall, honly⟩ := addToAll_spec sc h.all hnew
  obtain ⟨s₂, hexec₂, h₂⟩ := initStateDb_spec (h.with_all hall honly) sc
  have hsc : sc ∈ withOwner l.owners sc := mem_withOwner.2 (.inr rfl)
  have howned : OwnedStored s₂ sc True (l.owned sc) := by
    have howned := h₂.owned sc
    simpa [hsc] using howned
  obtain ⟨s₃, hexec₃, howned', honly'⟩ := addToOwned_spec howned hown hlength
  refine ⟨{ s₃ with records := s₃.records.insert (getDataId sc mc) (.data (.mcAddress mc)) }, ?_,
    h₂.with_owned hsc howned' honly'⟩
  rw [addMcAddrOwnership, exec_bind_of_ok hexec₁, updateAccountStorageBytes, exec_modify_bind, exec_bind_of_ok hexec₂]
  dsimp only
  rw [exec_bind_of_ok hexec₃]
  rfl

/-- an owner without addresses is taken out, with its list -/
theorem takeDown_spec (h : Inv s l) (hsc : sc ∈ l.owners) (hempty : l.owned sc = []) :
    ∃ s', exec (do
        updateAccountStorage (scAddrOwnershipLinkedList sc).listTipKey .zero
        removeAccountStorageBytes (scAddressTipValue sc)
        removeNode scAddressRefsLinkedList (scAddressTipValue sc)) s = (.ok (), s') ∧
      Inv s' { l with owners := l.owners.erase sc } := by
  set s₁ : Storage := { s with words := Function.update s.words (scAddrOwnershipLinkedList sc).listTipKey .zero } with hs₁
  have honly₁ : Only (.owned sc) s s₁ := by
    apply only_update
    rfl
  have howners : OwnersStored s₁ l.owners := h.owners.of_agree fun k hk => honly₁ k (by simp [hk])
  obtain ⟨owners₁, owners₂, hsplit⟩ := List.append_of_mem hsc
  have hnodup := h.owners.nodup
  rw [hsplit] at howners hnodup
  obtain ⟨s', hexec, howners', honly₂⟩ := removeOwner_spec howners
  have herase : l.owners.erase sc = owners₁ ++ owners₂ := by
    rw [List.nodup_append] at hnodup
    have hnot : sc ∉ owners₁ := fun hmem => hnodup.2.2 sc hmem sc (List.mem_cons_self ..) rfl
    rw [hsplit, List.erase_append_right _ hnot, List.erase_cons_head]
  rw [herase]
  refine ⟨s', ?_, ?_, howners', ?_⟩
  · simp only [updateAccountStorage, removeAccountStorageBytes, exec_modify_bind]
    exact hexec
  · have hall : AllStored s₁ l.all := h.all.of_agree fun k hk => honly₁ k (by simp [hk])
    exact hall.of_agree fun k hk => honly₂ k (by simp [hk])
  · intro sc'
    show OwnedStored s' sc' (sc' ∈ owners₁ ++ owners₂) (l.owned sc')
    rw [List.nodup_middle, List.nodup_cons] at hnodup
    by_cases heq : sc' = sc
    · subst heq
      have hnew : OwnedStored s₁ sc' (sc' ∈ owners₁ ++ owners₂) (l.owned sc') := by
        rw [hempty]
        exact ⟨fun hmem => absurd hmem hnodup.1, fun _ => ⟨Function.update_self _ _ _, rfl⟩, by simp, by simp⟩
      exact hnew.of_agree fun k hk => honly₂ k (by simp [hk])
    · have hold : OwnedStored s₁ sc' (sc' ∈ l.owners) (l.owned sc') :=
        (h.owned sc').of_agree fun k hk => honly₁ k (by simp [hk, heq])
      have hmem : (sc' ∈ owners₁ ++ owners₂) = (sc' ∈ l.owners) := by simp [hsplit, heq]
      rw [hmem]
      exact hold.of_agree fun k hk => honly₂ k (by simp [hk])

/-- the owners after an address was taken from the list of one of them -/
def withoutOwner (owners : List Address) (sc : Address) (mcs : List String) : List Address :=
  if mcs = [] then owners.erase sc else owners

theorem removeScNode_spec {mcs₁ mcs₂ : List String} (h : Inv s l) (hsc : sc ∈ l.owners)
    (howned : l.owned sc = mcs₁ ++ mc :: mcs₂) :
    ∃ s', exec (removeScNode sc (getDataId sc mc)) s = (.ok (), s') ∧
      Inv s' ⟨l.all, withoutOwner l.owners sc (mcs₁ ++ mcs₂), Function.update l.owned sc (mcs₁ ++ mcs₂)⟩ := by
  have hlist : OwnedStored s sc True (mcs₁ ++ mc :: mcs₂) := by
    have hlist := h.owned sc
    rw [howned] at hlist
    simpa [hsc] using hlist
  obtain ⟨s₁, hexec, hlist', honly⟩ := removeFromOwned_spec hlist
  have h₁ := h.with_owned hsc hlist' honly
  have htip : s₁.words (scAddrOwnershipLinkedList sc).listTipKey = (scAddrOwnershipLinkedList sc).listTipNullValue ↔
      mcs₁ ++ mcs₂ = [] := by
    have htip := Holds.tip_eq_null (hlist'.holds trivial) (by exact fun _ => Key.noConfusion)
    rw [List.map_eq_nil_iff] at htip
    exact htip
  have hget : exec (getAccountStorage (scAddrOwnershipLinkedList sc).listTipKey) s₁ =
      (.ok (s₁.words (scAddrOwnershipLinkedList sc).listTipKey), s₁) := rfl
  have hcode : exec (removeScNode sc (getDataId sc mc)) s =
      exec (if s₁.words (scAddrOwnershipLinkedList sc).listTipKey = (scAddrOwnershipLinkedList sc).listTipNullValue then do
          updateAccountStorage (scAddrOwnershipLinkedList sc).listTipKey .zero
          removeAccountStorageBytes (scAddressTipValue sc)
          removeNode scAddressRefsLinkedList (scAddressTipValue sc)
        else pure ()) s₁ := by
    rw [removeScNode, exec_bind_of_ok hexec, exec_bind_of_ok hget]
  rw [hcode]
  unfold withoutOwner
  split_ifs with hnull hempty hempty
  · exact takeDown_spec h₁ hsc ((Function.update_self ..).trans hempty)
  · exact absurd (htip.1 hnull) hempty
  · exact absurd (htip.2 hempty) hnull
  · exact ⟨s₁, rfl, h₁⟩

/-- data that is in no list may be erased -/
theorem Inv.erase_data (h : Inv s l) (hnot : mc ∉ l.owned sc)
    (hlength : mc.length = HORIZEN_MC_TRANSPARENT_ADDRESS_BASE_58_LENGTH) :
    Inv { s with records := s.records.erase (getDataId sc mc) } l := by
  have honly : Only (.owned sc) s { s with records := s.records.erase (getDataId sc mc) } := only_erase (getDataId_part hlength)
  refine ⟨h.all.of_agree fun k hk => honly k (by simp [hk]), h.owners.of_agree fun k hk => honly k (by simp [hk]), ?_⟩
  intro sc'
  by_cases heq : sc' = sc
  · subst heq
    have hlist := h.owned sc'
    refine ⟨fun hsc => ?_, hlist.not_listed, ?_, hlist.length⟩
    · exact Holds.of_nodes (hlist.holds hsc) rfl fun k => AList.lookup_erase_ne (by exact Key.noConfusion)
    · intro mc' hmc'
      have hne : getDataId sc' mc' ≠ getDataId sc' mc := by
        intro heq
        exact hnot (getDataId_injective sc' heq ▸ hmc')
      rw [AList.lookup_erase_ne hne, hlist.mcAddress mc' hmc']
  · exact (h.owned sc').of_agree fun k hk => honly k (by simp [hk, heq])

theorem uncheckedRemoveMcAddrOwnership_spec {mcs₁ mcs₂ : List String} {all₁ all₂ : List McAddrOwnershipData} (h : Inv s l)
    (hsc : sc ∈ l.owners) (howned : l.owned sc = mcs₁ ++ mc :: mcs₂) (hall : l.all = all₁ ++ ⟨sc, mc⟩ :: all₂) :
    ∃ s', exec (uncheckedRemoveMcAddrOwnership (getOwnershipId mc) sc mc) s = (.ok (), s') ∧
      Inv s' ⟨all₁ ++ all₂, withoutOwner l.owners sc (mcs₁ ++ mcs₂),
        Function.update l.owned sc (mcs₁ ++ mcs₂)⟩ := by
  obtain ⟨s₁, hexec₁, h₁⟩ := removeScNode_spec h hsc howned
  have hnodup := (h.owned sc).nodup hsc
  rw [howned, List.nodup_middle, List.nodup_cons] at hnodup
  have hlength : mc.length = HORIZEN_MC_TRANSPARENT_ADDRESS_BASE_58_LENGTH := (h.owned sc).length mc (by simp [howned])
  have hnot : mc ∉ Function.update l.owned sc (mcs₁ ++ mcs₂) sc := by
    rw [Function.update_self]
    exact hnodup.1
  have h₂ := h₁.erase_data hnot hlength
  have hall₂ := h₂.all
  rw [hall] at hall₂
  obtain ⟨s₃, hexec₃, hall₃, honly⟩ := removeFromAll_spec hall₂
  refine ⟨{ s₃ with records := s₃.records.erase (getOwnershipId mc) }, ?_, h₂.with_all hall₃ honly⟩
  rw [uncheckedRemoveMcAddrOwnership, exec_bind_of_ok (initStateDb_listed h hsc)]
  dsimp only
  rw [exec_bind_of_ok hexec₁, removeAccountStorageBytes, exec_modify_bind, exec_bind_of_ok hexec₃]
  rfl

/-! ## Reading -/

/-- the items of a list are read in its order -/
theorem readList_items {α : Type} [Inhabited α] {tip null : Key} {key : α → Key} {items : List α}
    {getData : Key → Except Exc (Option α)} (h : Holds (nativeList tip null) s (items.map key))
    (hdata : ∀ a ∈ items, getData (key a) = .ok (some a)) :
    readList (nativeList tip null) (getListItem getData s) s.records.keys.length (s.words tip) [] = .ok items := by
  set item : Key → α := fun k => (getData k).toOption.join.getD default
  have hitem : ∀ a ∈ items, item (key a) = a := by
    intro a ha
    simp only [item, hdata a ha, Except.toOption, Option.join_some, Option.getD_some]
  have hmap : (items.map key).map item = items := by
    rw [List.map_map]
    exact (List.map_congr_left hitem).trans (List.map_id' items)
  have hread : readList (nativeList tip null) (getListItem getData s) s.records.keys.length (s.words tip) [] =
      .ok ((items.map key).map item) := by
    apply h.readList_eq
    intro k n hnode hmem
    obtain ⟨a, ha, hkey⟩ := List.mem_map.1 hmem
    have hfound : getLinkedListNode k s = .ok (some n) := by simp only [getLinkedListNode, hnode]
    simp only [getListItem, hfound, ← hkey, hdata a ha, hitem a ha, bind, Except.bind]
  rw [hread, hmap]

theorem getOwnershipData_eq (h : AllStored s all) (mc : String) :
    getOwnershipData s (getOwnershipId mc) = .ok (all.find? (·.mcTransparentAddress = mc)) := by
  rw [getOwnershipData, h.ownership]
  cases all.find? (·.mcTransparentAddress = mc) with
  | none => rfl
  | some d => rfl

theorem find_of_mem (h : AllStored s all) {d : McAddrOwnershipData} (hd : d ∈ all) :
    all.find? (·.mcTransparentAddress = d.mcTransparentAddress) = some d := by
  obtain ⟨all₁, all₂, rfl⟩ := List.append_of_mem hd
  have hunique := h.unique
  rw [List.map_append, List.map_cons, List.nodup_append] at hunique
  have hnone : all₁.find? (·.mcTransparentAddress = d.mcTransparentAddress) = none := by
    rw [List.find?_eq_none]
    intro d' hd'
    simpa using hunique.2.2 _ (List.mem_map_of_mem hd') _ (List.mem_cons_self ..)
  rw [List.find?_append, hnone]
  simp

theorem getExistingAssociation_eq (h : AllStored s all) :
    getExistingAssociation s (getOwnershipId mc) = .ok (some sc) ↔ ⟨sc, mc⟩ ∈ all := by
  rw [getExistingAssociation, getOwnershipData_eq h]
  constructor
  · intro hfound
    cases hfind : all.find? (·.mcTransparentAddress = mc) with
    | none =>
      rw [hfind] at hfound
      cases hfound
    | some d =>
      rw [hfind] at hfound
      have hsc : d.scAddress = sc := Option.some.inj (Except.ok.inj hfound)
      have hmc : d.mcTransparentAddress = mc := by simpa using List.find?_some hfind
      have hmem := List.mem_of_find?_eq_some hfind
      rwa [← hsc, ← hmc]
  · intro hmem
    rw [find_of_mem h hmem]
    rfl

theorem getListOfMcAddrOwnerships_eq (h : AllStored s all) : getListOfMcAddrOwnerships s = .ok all := by
  have hne : s.words OwnershipsLinkedListTipKey ≠ .zero := Holds.tip_ne_zero h.holds (by exact Key.noConfusion)
  rw [getListOfMcAddrOwnerships, if_neg hne]
  apply readList_items h.holds
  intro d hd
  rw [getOwnershipData_eq h, find_of_mem h hd]

theorem getListOfOwnerScAddresses_eq (h : OwnersStored s owners) : getListOfOwnerScAddresses s = .ok owners := by
  have hne : s.words ScAddressRefsLinkedListTipKey ≠ .zero := Holds.tip_ne_zero h.holds (by exact Key.noConfusion)
  rw [getListOfOwnerScAddresses, if_neg hne]
  apply readList_items h.holds
  intro sc hsc
  rw [getScAddressRefData, h.owner, if_pos hsc]

theorem getScAddrListOfMcAddrOwnerships_spec (h : Inv s l) (sc : Address) :
    ∃ s', exec (getScAddrListOfMcAddrOwnerships sc) s = (.ok ((l.owned sc).map fun mc => ⟨sc, mc⟩), s') ∧
      Inv s' { l with owners := withOwner l.owners sc } ∧ (sc ∈ l.owners → s' = s) := by
  obtain ⟨s', hexec, h'⟩ := initStateDb_spec h sc
  refine ⟨s', ?_, h', ?_⟩
  · have hlist := h'.owned sc
    have hread : readList (scAddrOwnershipLinkedList sc) (getListItem (getScAddrData s') s') s'.records.keys.length
        (s'.words (scAddrOwnershipLinkedList sc).listTipKey) [] = .ok (l.owned sc) := by
      apply readList_items (hlist.holds (mem_withOwner.2 (.inr rfl)))
      intro mc hmc
      rw [getScAddrData, hlist.mcAddress mc hmc]
    have hget : exec (getAccountStorage (scAddrOwnershipLinkedList sc).listTipKey) s' =
        (.ok (s'.words (scAddrOwnershipLinkedList sc).listTipKey), s') := rfl
    rw [getScAddrListOfMcAddrOwnerships, exec_bind_of_ok hexec]
    dsimp only
    rw [exec_bind_of_ok hget, exec_get_bind, hread, exec_orThrow_value_bind]
    rfl
  · intro hsc
    rw [initStateDb_listed h hsc] at hexec
    exact (Prod.mk.inj hexec).2.symm

/-! ## Associations -/

/-- the addresses of an owner -/
def ownedBy (assoc : List McAddrOwnershipData) (sc : Address) : List String :=
  (assoc.filter (·.scAddress = sc)).map McAddrOwnershipData.mcTransparentAddress

/-- the lists for some associations -/
def listsOf (assoc : List McAddrOwnershipData) (owners : List Address) : Lists := ⟨assoc, owners, ownedBy assoc⟩

variable {assoc : List McAddrOwnershipData}

theorem mem_ownedBy : mc ∈ ownedBy assoc sc ↔ ⟨sc, mc⟩ ∈ assoc := by
  constructor
  · intro hmem
    obtain ⟨d, hd, rfl⟩ := List.mem_map.1 hmem
    obtain ⟨hd, hsc⟩ := List.mem_filter.1 hd
    have hsc : d.scAddress = sc := by simpa using hsc
    rwa [← hsc]
  · intro hmem
    exact List.mem_map.2 ⟨⟨sc, mc⟩, List.mem_filter.2 ⟨hmem, by simp⟩, rfl⟩

/-- an address with an association has a list -/
theorem Inv.mem_owners (h : Inv s (listsOf assoc owners)) (hmem : ⟨sc, mc⟩ ∈ assoc) : sc ∈ owners := by
  by_contra hnot
  have hnil : ownedBy assoc sc = [] := ((h.owned sc).not_listed hnot).2
  have hmc := mem_ownedBy.2 hmem
  rw [hnil] at hmc
  cases hmc

theorem Inv.add_association (h : Inv s (listsOf assoc owners)) (hnew : mc ∉ assoc.map McAddrOwnershipData.mcTransparentAddress)
    (hlength : mc.length = HORIZEN_MC_TRANSPARENT_ADDRESS_BASE_58_LENGTH) (sc : Address) :
    ∃ s', exec (addMcAddrOwnership (getOwnershipId mc) sc mc) s = (.ok (), s') ∧
      Inv s' (listsOf (assoc ++ [⟨sc, mc⟩]) (withOwner owners sc)) := by
  have hown : mc ∉ ownedBy assoc sc := by
    intro hmem
    exact hnew (List.mem_map.2 ⟨_, mem_ownedBy.1 hmem, rfl⟩)
  obtain ⟨s', hexec, h'⟩ := addMcAddrOwnership_spec h hnew hown hlength
  refine ⟨s', hexec, ?_⟩
  have howned : Function.update (ownedBy assoc) sc (ownedBy assoc sc ++ [mc]) = ownedBy (assoc ++ [⟨sc, mc⟩]) := by
    funext sc'
    by_cases heq : sc' = sc
    · subst heq
      simp [ownedBy]
    · have hne : ¬ (sc = sc') := fun h => heq h.symm
      rw [Function.update_of_ne heq]
      simp [ownedBy, hne]
  rw [listsOf, ← howned]
  exact h'

theorem Inv.remove_association (h : Inv s (listsOf assoc owners)) (hmem : ⟨sc, mc⟩ ∈ assoc) :
    ∃ s', exec (uncheckedRemoveMcAddrOwnership (getOwnershipId mc) sc mc) s = (.ok (), s') ∧
      Inv s' (listsOf (assoc.erase ⟨sc, mc⟩) (withoutOwner owners sc (ownedBy (assoc.erase ⟨sc, mc⟩) sc))) := by
  have hsc := h.mem_owners hmem
  have hnodup : assoc.Nodup := List.Nodup.of_map _ h.all.unique
  obtain ⟨assoc₁, assoc₂, rfl⟩ := List.append_of_mem hmem
  have hsplit : ownedBy (assoc₁ ++ ⟨sc, mc⟩ :: assoc₂) sc = ownedBy assoc₁ sc ++ mc :: ownedBy assoc₂
      sc := by simp [ownedBy]
  obtain ⟨s', hexec, h'⟩ := uncheckedRemoveMcAddrOwnership_spec h hsc hsplit rfl
  refine ⟨s', hexec, ?_⟩
  have herase : (assoc₁ ++ ⟨sc, mc⟩ :: assoc₂).erase ⟨sc, mc⟩ = assoc₁ ++ assoc₂ := by
    rw [List.nodup_append] at hnodup
    have hnot : ⟨sc, mc⟩ ∉ assoc₁ := fun hmem => hnodup.2.2 _ hmem _ (List.mem_cons_self ..) rfl
    rw [List.erase_append_right _ hnot, List.erase_cons_head]
  have howned : Function.update (ownedBy (assoc₁ ++ ⟨sc, mc⟩ :: assoc₂)) sc (ownedBy assoc₁ sc ++ ownedBy assoc₂ sc) =
      ownedBy (assoc₁ ++ assoc₂) := by
    funext sc'
    by_cases heq : sc' = sc
    · subst heq
      simp [ownedBy]
    · have hne : ¬ (sc = sc') := fun h => heq h.symm
      rw [Function.update_of_ne heq]
      simp [ownedBy, hne]
  have hat : ownedBy (assoc₁ ++ assoc₂) sc = ownedBy assoc₁ sc ++ ownedBy assoc₂ sc := by simp [ownedBy]
  rw [herase, hat, listsOf, ← howned]
  exact h'

/-! ## Messages -/

section Messages

variable {ρ : Type} (env : Externals ρ)

/-- what a message asks for -/
inductive Action where
  | add (mc : String)
  | remove (mc : String)
  | getOwnerships (sc : Address)
  | getAll
  | getOwners
deriving DecidableEq

def actionOf (msg : Message) : Except Exc Action := do
  let functionSig ← getFunctionSignature msg.inv.input
  let inputParams ← getArgumentsFromData msg.inv.input
  if functionSig = AddNewMultisigOwnershipCmd then
    let cmdInput ← decodeInput env.decodeAddNewMultisigOwnership inputParams
    return .add cmdInput.mcTransparentAddress
  else if functionSig = AddNewOwnershipCmd then
    let cmdInput ← decodeInput env.decodeAddNewOwnership inputParams
    return .add cmdInput.mcTransparentAddress
  else if functionSig = RemoveOwnershipCmd then
    let mc ← decodeInput env.decodeRemoveOwnership inputParams
    return .remove mc
  else if functionSig = GetListOfAllOwnershipsCmd then return .getAll
  else if functionSig = GetListOfOwnershipsCmd then
    let sc ← decodeInput env.decodeGetOwnerships inputParams
    return .getOwnerships sc
  else return .getOwners

variable {env} {db db' : Db ρ} {msg : Message} {out : Octets}

/-- the storage after a command on it -/
theorem exec_onStorage_ok {α : Type} {x : StorageCommand α} {a : α} (h : exec (onStorage x) db = (.ok a, db')) :
    exec x db.rest.storage = (.ok a, db'.rest.storage) := by
  obtain ⟨t, hexec, rfl⟩ := exec_onPart_ok.1 h
  exact hexec

theorem addOwnership_ok (h : exec (addOwnership env sc mc) db = (.ok out, db')) :
    getExistingAssociation db.rest.storage (getOwnershipId mc) = .ok none ∧
      exec (addMcAddrOwnership (getOwnershipId mc) sc mc) db.rest.storage = (.ok (), db'.rest.storage) := by
  simp only [addOwnership, checkNotAssociated, bind_assoc, exec_get_bind, exec_orThrow_bind_ok, exec_throwIf_bind_ok] at h
  obtain ⟨existing, hexisting, hnone, h⟩ := h
  obtain ⟨⟨⟩, db₁, hadd, h⟩ := exec_bind_ok.1 h
  have hnone : existing = none := by simpa using hnone
  rw [hnone] at hexisting
  refine ⟨hexisting, ?_⟩
  simp only [addLog, exec_modify_bind, exec_pure, Prod.mk.injEq] at h
  rw [exec_onStorage_ok hadd, ← h.2]

/-- what an accepted message does to the storage -/
def Effect (sender : Address) (s s' : Storage) : Action → Prop
  | .add mc => mc.length = HORIZEN_MC_TRANSPARENT_ADDRESS_BASE_58_LENGTH ∧
      getExistingAssociation s (getOwnershipId mc) = .ok none ∧
      exec (addMcAddrOwnership (getOwnershipId mc) sender mc) s = (.ok (), s')
  | .remove mc => getExistingAssociation s (getOwnershipId mc) = .ok (some sender) ∧
      exec (uncheckedRemoveMcAddrOwnership (getOwnershipId mc) sender mc) s = (.ok (), s')
  | .getOwnerships sc => ∃ items, exec (getScAddrListOfMcAddrOwnerships sc) s = (.ok items, s')
  | .getAll => s' = s
  | .getOwners => s' = s

theorem doAddNewOwnershipCmd_ok (h : exec (doAddNewOwnershipCmd env msg) db = (.ok out, db')) :
    ∃ inputParams cmdInput, getArgumentsFromData msg.inv.input = .ok inputParams ∧
      decodeInput env.decodeAddNewOwnership inputParams = .ok cmdInput ∧
      Effect msg.sender db.rest.storage db'.rest.storage (.add cmdInput.mcTransparentAddress) := by
  simp only [doAddNewOwnershipCmd, exec_get_bind, exec_orThrow_bind_ok, exec_throwIf_bind_ok] at h
  obtain ⟨-, -, inputParams, hparams, cmdInput, hinput, signature, -, valid, -, -, hadd⟩ := h
  exact ⟨inputParams, cmdInput, hparams, hinput, cmdInput.address_length, addOwnership_ok hadd⟩

theorem doAddNewMultisigOwnershipCmd_ok (h : exec (doAddNewMultisigOwnershipCmd env msg) db = (.ok out, db')) :
    ∃ inputParams cmdInput, getArgumentsFromData msg.inv.input = .ok inputParams ∧
      decodeInput env.decodeAddNewMultisigOwnership inputParams = .ok cmdInput ∧
      Effect msg.sender db.rest.storage db'.rest.storage (.add cmdInput.mcTransparentAddress) := by
  simp only [doAddNewMultisigOwnershipCmd, exec_get_bind, exec_orThrow_bind_ok, exec_throwIf_bind_ok] at h
  obtain ⟨-, -, inputParams, hparams, cmdInput, hinput, -, -, script, -, -, signatures, -, score, -, -, hadd⟩ := h
  exact ⟨inputParams, cmdInput, hparams, hinput, cmdInput.address_length, addOwnership_ok hadd⟩

theorem doRemoveOwnershipCmd_ok (h : exec (doRemoveOwnershipCmd env msg) db = (.ok out, db')) :
    ∃ inputParams mc, getArgumentsFromData msg.inv.input = .ok inputParams ∧
      decodeInput env.decodeRemoveOwnership inputParams = .ok mc ∧
      Effect msg.sender db.rest.storage db'.rest.storage (.remove mc) := by
  simp only [doRemoveOwnershipCmd, exec_get_bind, exec_orThrow_bind_ok, exec_throwIf_bind_ok] at h
  obtain ⟨-, -, inputParams, hparams, mc, hmc, existing, hexisting, h⟩ := h
  cases existing with
  | none =>
    rw [exec_getOrThrow_none_bind] at h
    cases h
  | some scAddr =>
    rw [exec_getOrThrow_some_bind] at h
    simp only [exec_throwIf_bind_ok, not_not] at h
    obtain ⟨hsender, h⟩ := h
    obtain ⟨⟨⟩, db₁, hremove, h⟩ := exec_bind_ok.1 h
    rw [← hsender] at hexisting
    refine ⟨inputParams, mc, hparams, hmc, hexisting, ?_⟩
    simp only [addLog, exec_modify_bind, exec_pure, Prod.mk.injEq] at h
    rw [exec_onStorage_ok hremove, ← h.2]

theorem doGetListOfOwnershipsCmd_ok (h : exec (doGetListOfOwnershipsCmd env msg) db = (.ok out, db')) :
    ∃ inputParams sc, getArgumentsFromData msg.inv.input = .ok inputParams ∧
      decodeInput env.decodeGetOwnerships inputParams = .ok sc ∧
      Effect msg.sender db.rest.storage db'.rest.storage (.getOwnerships sc) := by
  simp only [doGetListOfOwnershipsCmd, exec_orThrow_bind_ok, exec_throwIf_bind_ok] at h
  obtain ⟨-, inputParams, hparams, sc, hsc, h⟩ := h
  obtain ⟨items, db₁, hlist, h⟩ := exec_bind_ok.1 h
  obtain ⟨-, rfl⟩ := Prod.mk.inj h
  exact ⟨inputParams, sc, hparams, hsc, items, exec_onStorage_ok hlist⟩

theorem checkNoArguments_ok (h : exec (checkNoArguments msg) db = (.ok (), db')) :
    (∃ inputParams, getArgumentsFromData msg.inv.input = .ok inputParams) ∧ db' = db := by
  simp only [checkNoArguments, exec_orThrow_bind_ok, exec_throwIf_bind_ok, exec_throwIf_ok] at h
  obtain ⟨-, inputParams, hparams, -, hdb⟩ := h
  exact ⟨⟨inputParams, hparams⟩, hdb.symm⟩

theorem doGetListOfAllOwnershipsCmd_ok (h : exec (doGetListOfAllOwnershipsCmd env msg) db = (.ok out, db')) :
    (∃ inputParams, getArgumentsFromData msg.inv.input = .ok inputParams) ∧ db' = db := by
  rw [doGetListOfAllOwnershipsCmd, exec_bind_ok] at h
  obtain ⟨⟨⟩, db₁, hcheck, h⟩ := h
  obtain ⟨hparams, rfl⟩ := checkNoArguments_ok hcheck
  simp only [exec_get_bind, exec_orThrow_bind_ok, exec_pure, Prod.mk.injEq] at h
  obtain ⟨-, -, -, hdb⟩ := h
  exact ⟨hparams, hdb.symm⟩

theorem doGetListOfOwnerScAddressesCmd_ok (h : exec (doGetListOfOwnerScAddressesCmd env msg) db = (.ok out, db')) :
    (∃ inputParams, getArgumentsFromData msg.inv.input = .ok inputParams) ∧ db' = db := by
  rw [doGetListOfOwnerScAddressesCmd, exec_bind_ok] at h
  obtain ⟨⟨⟩, db₁, hcheck, h⟩ := h
  obtain ⟨hparams, rfl⟩ := checkNoArguments_ok hcheck
  simp only [exec_get_bind, exec_orThrow_bind_ok, exec_pure, Prod.mk.injEq] at h
  obtain ⟨-, -, -, hdb⟩ := h
  exact ⟨hparams, hdb.symm⟩

/-- **Messages.** What an accepted message asked for is done to the storage. -/
theorem process_ok (h : exec (process env msg) db = (.ok out, db')) :
    ∃ action, actionOf env msg = .ok action ∧ Effect msg.sender db.rest.storage db'.rest.storage action := by
  simp only [process, exec_get_bind, exec_orThrow_bind_ok, exec_throwIf_bind_ok] at h
  obtain ⟨-, -, -, functionSig, hsig, h⟩ := h
  unfold actionOf
  rw [hsig]
  change ∃ action, (getArgumentsFromData msg.inv.input >>= _) = _ ∧ _
  split_ifs at h with hmulti hfork hadd hremove hall howned howners
  · obtain ⟨inputParams, cmdInput, hparams, hinput, heffect⟩ := doAddNewMultisigOwnershipCmd_ok h
    refine ⟨_, ?_, heffect⟩
    rw [hparams]
    simp only [bind, Except.bind, if_pos hmulti, hinput]
    rfl
  · cases h
  · obtain ⟨inputParams, cmdInput, hparams, hinput, heffect⟩ := doAddNewOwnershipCmd_ok h
    refine ⟨_, ?_, heffect⟩
    rw [hparams]
    simp only [bind, Except.bind, if_neg hmulti, if_pos hadd, hinput]
    rfl
  · obtain ⟨inputParams, mc, hparams, hinput, heffect⟩ := doRemoveOwnershipCmd_ok h
    refine ⟨_, ?_, heffect⟩
    rw [hparams]
    simp only [bind, Except.bind, if_neg hmulti, if_neg hadd, if_pos hremove, hinput]
    rfl
  · obtain ⟨⟨inputParams, hparams⟩, rfl⟩ := doGetListOfAllOwnershipsCmd_ok h
    refine ⟨.getAll, ?_, rfl⟩
    rw [hparams]
    simp only [bind, Except.bind, if_neg hmulti, if_neg hadd, if_neg hremove, if_pos hall]
    rfl
  · obtain ⟨inputParams, sc, hparams, hinput, heffect⟩ := doGetListOfOwnershipsCmd_ok h
    refine ⟨_, ?_, heffect⟩
    rw [hparams]
    simp only [bind, Except.bind, if_neg hmulti, if_neg hadd, if_neg hremove, if_neg hall, if_pos howned, hinput]
    rfl
  · obtain ⟨⟨inputParams, hparams⟩, rfl⟩ := doGetListOfOwnerScAddressesCmd_ok h
    refine ⟨.getOwners, ?_, rfl⟩
    rw [hparams]
    simp only [bind, Except.bind, if_neg hmulti, if_neg hadd, if_neg hremove, if_neg hall, if_neg howned]
    rfl
  · cases h

end Messages

/-! ## Runs -/

section Runs

variable {ρ : Type} (env : Externals ρ)

/-- the associations after a message -/
def associate (assoc : List McAddrOwnershipData) (msg : Message) : List McAddrOwnershipData :=
  match actionOf env msg with
  | .ok (.add mc) => assoc ++ [⟨msg.sender, mc⟩]
  | .ok (.remove mc) => assoc.erase ⟨msg.sender, mc⟩
  | _ => assoc

/-- the associations after the accepted messages, oldest first -/
def associations (done : List Message) : List McAddrOwnershipData := done.foldl (associate env) []

def HasAssociation (assoc : List McAddrOwnershipData) (sc : Address) : Prop := ∃ d ∈ assoc, d.scAddress = sc

/-- the list of an address is only asked for when it has an association -/
def OnlyOwnersQueried (done : List Message) : Prop :=
  ∀ before msg after sc, done = before ++ msg :: after → actionOf env msg = .ok (.getOwnerships sc) →
    HasAssociation (associations env before) sc

/-- one of the three queries -/
def IsQuery (msg : Message) : Prop :=
  (∃ sc, actionOf env msg = .ok (.getOwnerships sc)) ∨ actionOf env msg = .ok .getAll ∨ actionOf env msg = .ok .getOwners

/-- the storage right after the initialisation -/
def initialStorage : Storage := doSpecificInit ⟨fun _ => .zero, ∅⟩

/-- the lists agree with the associations -/
structure Agree (s : Storage) (assoc : List McAddrOwnershipData) : Prop where
  unique : (assoc.map McAddrOwnershipData.mcTransparentAddress).Nodup
  association : ∀ sc mc, getExistingAssociation s (getOwnershipId mc) = .ok (some sc) ↔ ⟨sc, mc⟩ ∈ assoc
  all : getListOfMcAddrOwnerships s = .ok assoc
  owned : ∀ sc, ∃ s', exec (getScAddrListOfMcAddrOwnerships sc) s = (.ok (assoc.filter (·.scAddress = sc)), s')
  owners : ∃ owners, getListOfOwnerScAddresses s = .ok owners ∧ owners.Nodup ∧ ∀ sc, sc ∈ owners ↔
    HasAssociation assoc sc

variable {env} {msg : Message} {action : Action}

theorem initialStorage_inv : Inv initialStorage (listsOf [] []) where
  all := ⟨holds_nil (by decide), fun _ => rfl⟩
  owners := ⟨holds_nil (by decide), fun _ => rfl⟩
  owned sc := by
    have hnil : ownedBy [] sc = [] := rfl
    show OwnedStored initialStorage sc (sc ∈ []) (ownedBy [] sc)
    rw [hnil]
    refine ⟨fun hmem => absurd hmem List.not_mem_nil, fun _ => ⟨rfl, rfl⟩, ?_, ?_⟩
    · exact fun mc hmc => absurd hmc List.not_mem_nil
    · exact fun mc hmc => absurd hmc List.not_mem_nil

/-- only addresses with an association are owners -/
def Tidy (assoc : List McAddrOwnershipData) (owners : List Address) : Prop := ∀ sc ∈ owners, HasAssociation assoc sc

theorem Inv.agree (h : Inv s (listsOf assoc owners)) (htidy : Tidy assoc owners) : Agree s assoc where
  unique := h.all.unique
  association sc mc := getExistingAssociation_eq h.all
  all := getListOfMcAddrOwnerships_eq h.all
  owned sc := by
    obtain ⟨s', hexec, -⟩ := getScAddrListOfMcAddrOwnerships_spec h sc
    refine ⟨s', hexec.trans ?_⟩
    have hitems : (ownedBy assoc sc).map (fun mc => (⟨sc, mc⟩ : McAddrOwnershipData)) = assoc.filter (·.scAddress = sc) := by
      rw [ownedBy, List.map_map]
      refine (List.map_congr_left ?_).trans (List.map_id' _)
      intro d hd
      have hsc : d.scAddress = sc := by simpa using (List.mem_filter.1 hd).2
      rw [← hsc]
      rfl
    rw [← hitems]
    rfl
  owners := by
    refine ⟨owners, getListOfOwnerScAddresses_eq h.owners, h.owners.nodup, fun sc => ⟨htidy sc, ?_⟩⟩
    rintro ⟨d, hd, rfl⟩
    exact h.mem_owners hd

/-- **Step.** An accepted message keeps the lists; and no address without an association becomes an owner unless its list
is asked for. -/
theorem Inv.effect (h : Inv s (listsOf assoc owners)) (haction : actionOf env msg = .ok action)
    (heffect : Effect msg.sender s s' action) :
    ∃ owners', Inv s' (listsOf (associate env assoc msg) owners') ∧
      (Tidy assoc owners → (∀ sc, action = .getOwnerships sc → HasAssociation assoc sc) →
        Tidy (associate env assoc msg) owners') := by
  unfold associate
  rw [haction]
  cases action with
  | add mc =>
    obtain ⟨hlength, hnone, hexec⟩ := heffect
    have hnew : mc ∉ assoc.map McAddrOwnershipData.mcTransparentAddress := by
      intro hmem
      obtain ⟨d, hd, rfl⟩ := List.mem_map.1 hmem
      rw [(getExistingAssociation_eq h.all).2 hd] at hnone
      cases hnone
    obtain ⟨s₁, hexec₁, h₁⟩ := h.add_association hnew hlength msg.sender
    obtain ⟨-, rfl⟩ := Prod.mk.inj (hexec.symm.trans hexec₁)
    refine ⟨_, h₁, ?_⟩
    intro htidy _ sc hsc
    rcases mem_withOwner.1 hsc with hmem | rfl
    · obtain ⟨d, hd, hown⟩ := htidy sc hmem
      exact ⟨d, List.mem_append_left _ hd, hown⟩
    · exact ⟨⟨msg.sender, mc⟩, by simp, rfl⟩
  | remove mc =>
    obtain ⟨hexisting, hexec⟩ := heffect
    have hmem := (getExistingAssociation_eq h.all).1 hexisting
    obtain ⟨s₁, hexec₁, h₁⟩ := h.remove_association hmem
    obtain ⟨-, rfl⟩ := Prod.mk.inj (hexec.symm.trans hexec₁)
    refine ⟨_, h₁, ?_⟩
    intro htidy _ sc hsc
    by_cases heq : sc = msg.sender
    · subst heq
      by_cases hempty : ownedBy (assoc.erase ⟨msg.sender, mc⟩) msg.sender = []
      · rw [withoutOwner, if_pos hempty] at hsc
        exact absurd hsc h.owners.nodup.not_mem_erase
      · obtain ⟨mc', hmc'⟩ := List.exists_mem_of_ne_nil _ hempty
        exact ⟨_, mem_ownedBy.1 hmc', rfl⟩
    · have hmem' : sc ∈ owners := by
        unfold withoutOwner at hsc
        split_ifs at hsc
        · exact List.mem_of_mem_erase hsc
        · exact hsc
      obtain ⟨d, hd, hown⟩ := htidy sc hmem'
      refine ⟨d, ?_, hown⟩
      have hne : d ≠ ⟨msg.sender, mc⟩ := by
        rintro rfl
        exact heq hown.symm
      exact (List.mem_erase_of_ne hne).2 hd
  | getOwnerships sc =>
    obtain ⟨items, hexec⟩ := heffect
    obtain ⟨s₁, hexec₁, h₁, -⟩ := getScAddrListOfMcAddrOwnerships_spec h sc
    obtain ⟨-, rfl⟩ := Prod.mk.inj (hexec.symm.trans hexec₁)
    refine ⟨_, h₁, ?_⟩
    intro htidy hquery sc' hsc'
    rcases mem_withOwner.1 hsc' with hmem | rfl
    · exact htidy sc' hmem
    · exact hquery sc' rfl
  | getAll =>
    cases heffect
    exact ⟨owners, h, fun htidy _ => htidy⟩
  | getOwners =>
    cases heffect
    exact ⟨owners, h, fun htidy _ => htidy⟩

/-- a query that only asks for the list of an owner changes nothing -/
theorem Inv.query (h : Inv s (listsOf assoc owners)) (hquery : IsQuery env msg) (haction : actionOf env msg = .ok action)
    (heffect : Effect msg.sender s s' action) (howner : ∀ sc, action = .getOwnerships sc → HasAssociation assoc sc) :
      s' = s := by
  unfold IsQuery at hquery
  rw [haction] at hquery
  rcases hquery with ⟨sc, hsc⟩ | hall | howners
  · obtain rfl := Except.ok.inj hsc
    obtain ⟨items, hexec⟩ := heffect
    obtain ⟨d, hd, rfl⟩ := howner sc rfl
    obtain ⟨s₁, hexec₁, -, hsame⟩ := getScAddrListOfMcAddrOwnerships_spec h d.scAddress
    obtain ⟨-, rfl⟩ := Prod.mk.inj (hexec.symm.trans hexec₁)
    exact hsame (h.mem_owners hd)
  · obtain rfl := Except.ok.inj hall
    exact heffect
  · obtain rfl := Except.ok.inj howners
    exact heffect

theorem associations_concat (done : List Message) (msg : Message) :
    associations env (done ++ [msg]) = associate env (associations env done) msg := by
  simp [associations]

/-- the storage holds the lists for the accepted messages -/
def Stored (env : Externals ρ) (db : Db ρ) (done : List Message) : Prop :=
  ∃ owners, Inv db.rest.storage (listsOf (associations env done) owners) ∧
    (OnlyOwnersQueried env done → Tidy (associations env done) owners)

theorem process_stored {db db' : Db ρ} {done : List Message} {out : Octets} (h : Stored env db done)
    (hexec : exec (process env msg) db = (.ok out, db')) : Stored env db' (done ++ [msg]) := by
  obtain ⟨owners, hinv, htidy⟩ := h
  obtain ⟨action, haction, heffect⟩ := process_ok hexec
  obtain ⟨owners', hinv', htidy'⟩ := hinv.effect haction heffect
  rw [Stored, associations_concat]
  refine ⟨owners', hinv', ?_⟩
  intro hqueried
  apply htidy'
  · apply htidy
    intro before msg' after sc hsplit
    exact hqueried before msg' (after ++ [msg]) sc (by simp [hsplit])
  · rintro sc rfl
    exact hqueried done msg [] sc rfl haction

theorem run_stored (env : Externals ρ) {m : Machine (ContractDb ρ)} (hstart : m.view.stateDb.rest.storage = initialStorage)
    (msgs : List Message) :
    Stored env (run (toRequest env) m msgs).view.stateDb (accepted (toRequest env) m msgs) := by
  have hempty : Stored env m.view.stateDb [] := by
    refine ⟨[], ?_, ?_⟩
    · rw [hstart]
      exact initialStorage_inv
    · intro _ sc hsc
      cases hsc
  have hstep : ∀ db db' done msg out, Stored env db done → exec (toRequest env msg).command db = (.ok out, db') →
      Stored env db' (done ++ [msg]) := fun db db' done msg out hdb hexec => process_stored hdb hexec
  have hrun := run_induction hstep hempty msgs
  rwa [List.nil_append] at hrun

theorem OnlyOwnersQueried.of_append {done done' : List Message} (h : OnlyOwnersQueried env (done ++ done')) :
    OnlyOwnersQueried env done := by
  intro before msg after sc hsplit
  exact h before msg (after ++ done') sc (by simp [hsplit])

/-- **Ownership lists.** From the initial storage, after any messages of which no accepted one asks for the list of an
address that has no association then: the lists agree with the associations made by the accepted messages; and no query
among the messages has changed the storage. -/
theorem ownership_lists_agree (env : Externals ρ) (m : Machine (ContractDb ρ))
    (hstart : m.view.stateDb.rest.storage = initialStorage) (msgs : List Message)
    (hqueried : OnlyOwnersQueried env (accepted (toRequest env) m msgs)) :
    Agree (run (toRequest env) m msgs).view.stateDb.rest.storage (associations env (accepted (toRequest env) m msgs)) ∧
      ∀ before query after, msgs = before ++ query :: after → IsQuery env query →
        (run (toRequest env) m (before ++ [query])).view.stateDb.rest.storage =
          (run (toRequest env) m before).view.stateDb.rest.storage := by
  constructor
  · obtain ⟨owners, hinv, htidy⟩ := run_stored env hstart msgs
    exact hinv.agree (htidy hqueried)
  · intro before query after hsplit hquery
    obtain ⟨owners, hinv, htidy⟩ := run_stored env hstart before
    rw [run_append]
    rcases step_cases (run (toRequest env) m before) (toRequest env query) with ⟨haccepted, out, hexec⟩ | ⟨-, hsame⟩
    · obtain ⟨action, haction, heffect⟩ := process_ok hexec
      apply hinv.query hquery haction heffect
      rintro sc rfl
      rw [hsplit, accepted_append, accepted, if_pos haccepted] at hqueried
      exact hqueried _ query _ sc rfl haction
    · have hdb : (run (toRequest env) (run (toRequest env) m before) [query]).view.stateDb =
          (run (toRequest env) m before).view.stateDb := hsame
      rw [hdb]

end Runs

/-! One address is associated, and then the list of its owner is asked for; or the list of an address without one. -/

section Sample

def sampleAddress : String := "ztYABCDEFGHIJKLMNOPQRSTUVWXYZ123456"

def sampleSignature : String := "IAAAAAAAAAAAAAAAAAAAAAAAAAAAAAAAAAAAAAAAAAAAAAAAAAAAAAAAAAAAAAAAAAAAAAAAAAAAAAAAAAAAAAA="

theorem sampleAddress_length : sampleAddress.length = HORIZEN_MC_TRANSPARENT_ADDRESS_BASE_58_LENGTH := by decide

theorem sampleSignature_length : sampleSignature.length = HORIZEN_MC_SIGNATURE_BASE_64_LENGTH := by decide

/-- inputs are decoded to one association or an address, and the signature is the one of its owner -/
def sampleExternals : Externals Unit where
  isForkActive _ := true
  isMultisigForkActive _ := true
  accountExists _ _ := true
  decodeAddNewOwnership _ := .ok ⟨sampleAddress, sampleSignature, sampleAddress_length, sampleSignature_length⟩
  decodeAddNewMultisigOwnership _ := .error "not used"
  decodeRemoveOwnership _ := .ok sampleAddress
  decodeGetOwnerships args := .ok (BitVec.ofNat 160 (ForgerStakeV2.wordOf args 0))
  encodeOwnerships items := ForgerStakeV2.bytesOf items.length
  encodeOwners items := ForgerStakeV2.bytesOf items.length
  keccakBytes _ := []
  utf8Bytes _ := []
  toChecksumAddress _ := ""
  mainNet := false
  base58Encode _ := sampleAddress
  base58Decode _ := .ok []
  base64Decode _ := .ok (31 :: (List.replicate 31 0 ++ [1] ++ List.replicate 31 0 ++ [1]))
  fromHexString _ := .ok []
  doubleSHA256Hash _ := List.replicate 32 0
  Ripemd160Sha256Hash _ := List.replicate 20 0
  signedMessageHashToKey _ _ := .ok 1
  compressPoint _ := .ok []
  gasCost _ _ := 50000

def sampleMachine : Machine (ContractDb Unit) where
  view := ⟨⟨fun _ => 0, fun _ => 0, fun _ => true, 0, ⟨initialStorage, [], ()⟩⟩, false⟩
  blockGasPool := GasPool.new 30000000
  invocationStack := []
  depth := 0
  gasTrace := []

def sampleMessage (functionSig args : Octets) : Message :=
  ⟨⟨⟨2, some 0x88888888888888888888, 0, functionSig ++ args, false⟩, GasPool.new 100000⟩, 2, 70⟩

def sampleAdd : Message := sampleMessage AddNewOwnershipCmd (ForgerStakeV2.bytesOf 0)

def sampleQuery (sc : ℕ) : Message := sampleMessage GetListOfOwnershipsCmd (ForgerStakeV2.bytesOf sc)

theorem one_association_listed :
    Agree (run (toRequest sampleExternals) sampleMachine [sampleAdd, sampleQuery 2]).view.stateDb.rest.storage
      [⟨2, sampleAddress⟩] := by
  have hfirst : Accepted sampleMachine (toRequest sampleExternals sampleAdd) := by decide +kernel
  have hsecond : Accepted (step sampleMachine (toRequest sampleExternals sampleAdd))
      (toRequest sampleExternals (sampleQuery 2)) := by
    decide +kernel
  have haccepted : accepted (toRequest sampleExternals) sampleMachine [sampleAdd, sampleQuery 2] = [sampleAdd,
      sampleQuery 2] := by
    rw [accepted, accepted, accepted, if_pos hfirst, if_pos hsecond]
    rfl
  have hassoc : associations sampleExternals [sampleAdd] = [⟨2, sampleAddress⟩] := by decide +kernel
  have hassoc' : associations sampleExternals [sampleAdd, sampleQuery 2] = [⟨2, sampleAddress⟩] := by decide +kernel
  have hqueried : OnlyOwnersQueried sampleExternals [sampleAdd, sampleQuery 2] := by
    intro before msg after sc hsplit haction
    rcases before with _ | ⟨first, before⟩
    · obtain ⟨rfl, -⟩ := List.cons.inj hsplit
      have hadd : actionOf sampleExternals sampleAdd = .ok (.add sampleAddress) := by rfl
      rw [hadd] at haction
      cases haction
    · obtain ⟨rfl, hrest⟩ := List.cons.inj hsplit
      rcases before with _ | ⟨second, before⟩
      · obtain ⟨rfl, -⟩ := List.cons.inj hrest
        have hquery : actionOf sampleExternals (sampleQuery 2) = .ok (.getOwnerships 2) := by rfl
        rw [hquery] at haction
        obtain rfl := Action.getOwnerships.inj (Except.ok.inj haction)
        rw [hassoc]
        exact ⟨⟨2, sampleAddress⟩, by simp, rfl⟩
      · simp at hrest
  have hagree := ownership_lists_agree sampleExternals sampleMachine rfl [sampleAdd, sampleQuery 2]
      (by rw [haccepted]; exact hqueried)
  rw [haccepted, hassoc'] at hagree
  exact hagree.1

/-- the query for the list of an address without associations makes it an owner -/
theorem queried_address_becomes_owner :
    let m := run (toRequest sampleExternals) sampleMachine [sampleQuery 7]
    let assoc := associations sampleExternals (accepted (toRequest sampleExternals) sampleMachine [sampleQuery 7])
    sampleMachine.view.stateDb.rest.storage = initialStorage ∧ IsQuery sampleExternals (sampleQuery 7) ∧ assoc = [] ∧
      getListOfOwnerScAddresses m.view.stateDb.rest.storage = .ok [7] ∧ ¬ Agree m.view.stateDb.rest.storage assoc ∧
      m.view.stateDb.rest.storage ≠ sampleMachine.view.stateDb.rest.storage := by
  intro m assoc
  have hassoc : assoc = [] := by decide +kernel
  have howners : getListOfOwnerScAddresses m.view.stateDb.rest.storage = .ok [7] := by decide +kernel
  refine ⟨rfl, .inl ⟨7, by rfl⟩, hassoc, howners, ?_, ?_⟩
  · intro hagree
    obtain ⟨owners, heq, -, hmem⟩ := hagree.owners
    rw [howners] at heq
    obtain rfl := Except.ok.inj heq
    obtain ⟨d, hd, -⟩ := (hmem 7).1 (by simp)
    rw [hassoc] at hd
    cases hd
  · intro hsame
    rw [hsame] at howners
    have hnone : getListOfOwnerScAddresses sampleMachine.view.stateDb.rest.storage = .ok [] := by decide +kernel
    rw [hnone] at howners
    cases howners

end Sample

end SidechainsSdk.Account.McAddrOwnership
