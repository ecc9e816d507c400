import AltFs.AppendRuns
import AltFs.FreshFileSystem
import AltFs.Release

/-!
# Releasing a whole file

The order in which the blocks of an inode are freed, by `free_inode` and by
`remove_datablocks_from_inode` from a direct block on.
-/

namespace AltFs

section

variable [Config]

/-- The direct blocks from position `first` on of a file of `n` blocks. -/
def Inode.directOrder (node : Inode) (first n : Nat) : List Int64 :=
  (List.range' first (min n numOfDirectBlocks - first)).map node.direct

/-- The blocks of level `d`, when a file of `n` blocks reaches it. -/
def Inode.levelOrder (s : FileSystem) (node : Inode) (n d : Nat) : List Int64 :=
  if levelStart d < n then treeOrder s d (node.root d) else []

/-- The blocks of a file of `n` blocks from the direct block `first` on, in the order in which
they are freed. -/
def Inode.releaseOrder (s : FileSystem) (node : Inode) (first n : Nat) : List Int64 :=
  node.directOrder first n ++
    (node.levelOrder s n 1 ++ (node.levelOrder s n 2 ++ node.levelOrder s n 3))

section WholeFile

variable {s s₀ : FileSystem} {node : Inode} {n d : Nat}

namespace Inode.WellMapped

theorem direct_dataBlock (h : node.WellMapped s n) {i : Nat} (hi : i < numOfDirectBlocks)
    (hn : i < n) : DataBlock (node.direct i) := by
  have hne := (h.filled.direct i hi).mpr hn
  rw [← Inode.blockAt_direct (s := s) hi] at hne ⊢
  exact h.data _ (blockAt_mem_blocks hne)

theorem coe_levelOrder (h : node.WellMapped s n) (hlow : 1 ≤ d) (hhigh : d ≤ 3) :
    (node.levelOrder s n d : Multiset Int64) = treeCells s d (node.root d) := by
  rw [Inode.levelOrder]
  split
  · next hlt => exact PointerTree.coe_postorder (h.filled.tree d hlow hhigh) (by decide) (by omega)
  · next hle =>
      rw [(h.root_eq_zero_iff hlow hhigh).mpr (by omega), treeCells_zero]
      rfl

end Inode.WellMapped

theorem freeDirectBlocks_frees (h : node.WellMapped s n) {count index : Nat}
    (hcount : index + count = numOfDirectBlocks) :
    Frees s 0 (node.directOrder index n) (freeDirectBlocks node count index) := by
  induction count generalizing index with
  | zero =>
      rw [Inode.directOrder, Nat.sub_eq_zero_of_le (by omega)]
      exact Frees.nil
  | succ count ih =>
      rw [freeDirectBlocks]
      by_cases hn : index < n
      · have hlength : min n numOfDirectBlocks - index =
            min n numOfDirectBlocks - (index + 1) + 1 := by omega
        rw [if_neg ((h.filled.direct index (by omega)).mpr hn), Inode.directOrder, hlength,
          List.range'_succ, List.map_cons]
        have hall := (Frees.free (node.direct index)).seq (@ih (index + 1) (by omega))
          fun a ha => by
            rw [List.mem_singleton.mp ha]
            exact ⟨h.direct_dataBlock (by omega) hn, Multiset.notMem_zero _⟩
        rwa [add_zero] at hall
      · have hzero : node.direct index = 0 := by
          by_contra hne
          exact hn ((h.filled.direct index (by omega)).mp hne)
        have hnone : min n numOfDirectBlocks - index = 0 := by omega
        rw [if_pos hzero, Inode.directOrder, hnone]
        exact Frees.nil

theorem freeIndirectIfSet_frees (h : node.WellMapped s n) (hlow : 1 ≤ d) (hhigh : d ≤ 3) :
    Frees s (treeInner s d (node.root d)) (node.levelOrder s n d)
      (freeIndirectIfSet (node.root d) d) := by
  rw [freeIndirectIfSet, Inode.levelOrder]
  by_cases hlt : levelStart d < n
  · have hroot : ¬node.root d = 0 := by
      rw [h.root_eq_zero_iff hlow hhigh]
      omega
    rw [if_neg hroot, if_pos hlt]
    exact freeIndirectBlocks_frees (h.filled.tree d hlow hhigh) (by omega)
      (Multiset.nodup_of_le (treeCells_le_blocks hlow hhigh) h.nodup)
      fun b hb => h.data b (Multiset.mem_of_le (treeCells_le_blocks hlow hhigh) hb)
  · have hroot := (h.root_eq_zero_iff hlow hhigh).mpr (by omega)
    rw [if_pos hroot, if_neg hlt]
    exact Frees.nil

namespace Inode.WellMapped

theorem directOrder_mem (h : node.WellMapped s n) {first : Nat} {a : Int64}
    (ha : a ∈ node.directOrder first n) : DataBlock a ∧ a ∉ node.indirect s := by
  obtain ⟨i, hi, rfl⟩ := List.mem_map.mp ha
  rw [List.mem_range'_1] at hi
  have hdirect : i < numOfDirectBlocks := by omega
  refine ⟨h.direct_dataBlock hdirect (by omega), ?_⟩
  rw [← Inode.blockAt_direct (s := s) hdirect]
  refine blockAt_notMem_indirect h.nodup ?_
  rw [Inode.blockAt_direct hdirect]
  exact (h.direct_dataBlock hdirect (by omega)).ne_zero

theorem levelOrder_mem (h : node.WellMapped s n) {e : Nat} (hlow : 1 ≤ d) (hhigh : d ≤ 3)
    (hlow' : 1 ≤ e) (hhigh' : e ≤ 3) (hne : d ≠ e) {a : Int64}
    (ha : a ∈ node.levelOrder s n d) :
    DataBlock a ∧ a ∉ treeInner s e (node.root e) := by
  have ha : a ∈ treeCells s d (node.root d) := by
    rw [← h.coe_levelOrder hlow hhigh]
    exact Multiset.mem_coe.mpr ha
  refine ⟨h.data a (Multiset.mem_of_le (treeCells_le_blocks hlow hhigh) ha), fun hmem => ?_⟩
  have hnodup := h.nodup
  rw [blocks_split hlow hhigh, Multiset.nodup_add] at hnodup
  exact Multiset.disjoint_left.mp hnodup.2.2 ha
    (Multiset.mem_of_le (treeInner_le_blocksExcept s node hlow' hhigh' hne.symm hlow) hmem)

theorem levelOrder_one_mem (h : node.WellMapped s n) {a : Int64}
    (ha : a ∈ node.levelOrder s n 1) :
    DataBlock a ∧ a ∉ treeInner s 2 (node.root 2) + treeInner s 3 (node.root 3) := by
  have hsecond := h.levelOrder_mem (e := 2) (by omega) (by omega) (by omega) (by omega)
    (by omega) ha
  have hthird := h.levelOrder_mem (e := 3) (by omega) (by omega) (by omega) (by omega)
    (by omega) ha
  refine ⟨hsecond.1, fun hmem => ?_⟩
  rcases Multiset.mem_add.mp hmem with hmem | hmem
  · exact hsecond.2 hmem
  · exact hthird.2 hmem

end Inode.WellMapped

omit [Config] in
theorem indirect_eq : node.indirect s =
    treeInner s 1 (node.root 1) + (treeInner s 2 (node.root 2) + treeInner s 3 (node.root 3)) := by
  rw [Inode.indirect, Finset.sum_range_succ, Finset.sum_range_succ, Finset.sum_range_one,
    add_assoc]

/-- `free_data_blocks_in_inode` frees the direct blocks and then tree after tree. -/
theorem freeDataBlocksInInode_frees (h : node.WellMapped s n) :
    Frees s (node.indirect s) (node.releaseOrder s 0 n) (freeDataBlocksInInode node) := by
  have hlast := (freeIndirectIfSet_frees h (d := 2) (by omega) (by omega)).seq
    (freeIndirectIfSet_frees h (d := 3) (by omega) (by omega)) fun a ha =>
      h.levelOrder_mem (by omega) (by omega) (by omega) (by omega) (by omega) ha
  have htrees := (freeIndirectIfSet_frees h (d := 1) (by omega) (by omega)).seq hlast fun a ha =>
    h.levelOrder_one_mem ha
  rw [← indirect_eq] at htrees
  have hdirect := freeDirectBlocks_frees h (zero_add numOfDirectBlocks)
  have hall := hdirect.seq htrees fun a ha => h.directOrder_mem ha
  rwa [zero_add] at hall

/-! ## Cutting the block map -/

/-- `node` without its blocks from position `last` on. -/
def Inode.cut (node : Inode) (last : Nat) : Inode :=
  { node with
    iBlocksNum := Int64.ofInt last
    iDirectBlocks := fun i => if i.val < last then node.iDirectBlocks i else 0
    iSingleIndirect := if levelStart 1 < last then node.iSingleIndirect else 0
    iDoubleIndirect := if levelStart 2 < last then node.iDoubleIndirect else 0
    iTripleIndirect := if levelStart 3 < last then node.iTripleIndirect else 0 }

def Inode.clearDirect (node : Inode) (index count : Nat) : Inode :=
  { node with
    iDirectBlocks := fun i =>
      if index ≤ i.val ∧ i.val < index + count then 0 else node.iDirectBlocks i }

theorem removeDirect_run {count index : Nat} {s s' : FileSystem}
    (hrun : freeAll ((List.range' index count).map node.direct) s = some (true, s')) :
    removeDirect count index node s = some ((true, node.clearDirect index count), s') := by
  induction count generalizing index node s with
  | zero =>
      cases hrun
      have hsame : node.clearDirect index 0 = node := by
        simp only [Inode.clearDirect, Nat.add_zero]
        congr
        funext i
        rw [if_neg (by omega)]
      rw [hsame]
      rfl
  | succ count ih =>
      rw [List.range'_succ, List.map_cons, freeAll] at hrun
      obtain ⟨freed, t, hfree, hrest⟩ := Prog.bind_eq_some_iff.mp hrun
      cases freed with
      | false => cases hrest
      | true =>
          have hsame : (List.range' (index + 1) count).map (node.setDirect index 0).direct =
              (List.range' (index + 1) count).map node.direct := by
            refine List.map_congr_left fun i hi => ?_
            rw [List.mem_range'_1] at hi
            simp only [Inode.direct, Inode.setDirect]
            split
            · rw [if_neg (by omega)]
            · rfl
          have hclear : (node.setDirect index 0).clearDirect (index + 1) count =
              node.clearDirect index (count + 1) := by
            simp only [Inode.clearDirect, Inode.setDirect]
            congr
            funext i
            by_cases hi : i.val = index
            · have hrange : index ≤ i.val ∧ i.val < index + (count + 1) := by omega
              rw [if_pos hi, if_pos hrange, ite_self]
            · have hrange : index + 1 ≤ i.val ∧ i.val < index + 1 + count ↔
                  index ≤ i.val ∧ i.val < index + (count + 1) := by omega
              simp only [hrange, hi, if_false]
          rw [removeDirect, Prog.bind_of_eq hfree]
          refine (ih ?_).trans (by rw [hclear])
          rw [hsame]
          exact hrest

theorem removeTree_run (h : node.WellMapped s₀ n) (hlow : 1 ≤ d) (hhigh : d ≤ 3)
    (hlt : levelStart d < n) {s s' : FileSystem}
    (hs : Untouched s₀ (treeInner s₀ d (node.root d)) s)
    (hrun : freeAll (node.levelOrder s₀ n d) s = some (true, s')) :
    removeDatablocksUtility d (node.root d) s = some (true, s') := by
  apply removeDatablocksUtility_of_freed
  rw [freeIndirectBlocks_frees (h.filled.tree d hlow hhigh) (by omega)
    (Multiset.nodup_of_le (treeCells_le_blocks hlow hhigh) h.nodup)
    (fun b hb => h.data b (Multiset.mem_of_le (treeCells_le_blocks hlow hhigh) hb)) s hs]
  rwa [Inode.levelOrder, if_pos hlt] at hrun

omit [Config] in
theorem levelOrder_of_le {s : FileSystem} (hle : n ≤ levelStart d) :
    node.levelOrder s n d = [] := by
  rw [Inode.levelOrder, if_neg (by omega)]

theorem removeTripleRest_run (h : node.WellMapped s₀ n) {node' : Inode} {last : Nat}
    (hroot : node'.iTripleIndirect = node.root 3) {left : Int}
    (hleft : left ≤ numOfDoubleIndirectBlockAddr ↔ n ≤ levelStart 3) {s s' : FileSystem}
    (hs : Untouched s₀ (treeInner s₀ 3 (node.root 3)) s)
    (hrun : freeAll (node.levelOrder s₀ n 3) s = some (true, s')) :
    removeTripleRest node' last left s =
      some ((true, { node' with iTripleIndirect := 0 }.withBlocksNum last), s') := by
  rw [removeTripleRest]
  by_cases hle : n ≤ levelStart 3
  · rw [levelOrder_of_le hle] at hrun
    cases hrun
    rw [(h.root_eq_zero_iff (by omega) (by omega)).mpr hle] at hroot
    rw [if_pos (hleft.mpr hle), ← hroot]
    rfl
  · have htree := removeTree_run h (by omega) (by omega) (by omega) hs hrun
    rw [← hroot] at htree
    rw [if_neg (fun hcond => hle (hleft.mp hcond)), Prog.bind_of_eq htree]
    rfl

theorem removeDoubleRest_run (h : node.WellMapped s₀ n) {node' : Inode} {last : Nat}
    (hdouble : node'.iDoubleIndirect = node.root 2)
    (htriple : node'.iTripleIndirect = node.root 3) {left : Int}
    (hleft : left = (n : Int) - numOfDirectBlocks) {s s' : FileSystem}
    (hs : Untouched s₀ (treeInner s₀ 2 (node.root 2) + treeInner s₀ 3 (node.root 3)) s)
    (hrun : freeAll (node.levelOrder s₀ n 2 ++ node.levelOrder s₀ n 3) s = some (true, s')) :
    removeDoubleRest node' last left s =
      some ((true, { node' with iDoubleIndirect := 0, iTripleIndirect := 0 }.withBlocksNum last),
        s') := by
  have hsize : levelStart 3 = 262668 := rfl
  have hsize' : levelStart 2 = 524 := rfl
  simp only [numOfDirectBlocks] at hleft
  have hreached : left ≤ numOfAddressesPerBlock ↔ n ≤ levelStart 2 := by
    simp only [numOfAddressesPerBlock]
    omega
  rw [removeDoubleRest]
  by_cases hle : n ≤ levelStart 2
  · rw [levelOrder_of_le hle, levelOrder_of_le (by omega)] at hrun
    cases hrun
    rw [(h.root_eq_zero_iff (by omega) (by omega)).mpr hle] at hdouble
    rw [(h.root_eq_zero_iff (by omega) (by omega)).mpr (by omega)] at htriple
    have hsame : { node' with iDoubleIndirect := 0, iTripleIndirect := 0 } = node' := by
      cases node' with
      | mk =>
          cases hdouble
          cases htriple
          rfl
    rw [if_pos (hreached.mpr hle), hsame]
    rfl
  · rw [freeAll_append] at hrun
    obtain ⟨freed, t, hfirst, hsecond⟩ := Prog.bind_eq_some_iff.mp hrun
    obtain ⟨rfl, ht⟩ := (hs.mono (Multiset.le_add_left _ _)).freed (fun a ha =>
      h.levelOrder_mem (d := 2) (by omega) (by omega) (by omega) (by omega) (by omega) ha) hfirst
    have htree := removeTree_run h (by omega) (by omega) (by omega)
      (hs.mono (Multiset.le_add_right _ _)) hfirst
    have hrest : left - numOfAddressesPerBlock ≤ numOfDoubleIndirectBlockAddr ↔
        n ≤ levelStart 3 := by
      simp only [numOfAddressesPerBlock, numOfDoubleIndirectBlockAddr]
      omega
    rw [if_neg (fun hcond => hle (hreached.mp hcond)), hdouble, Prog.bind_of_eq htree]
    exact @removeTripleRest_run _ s₀ node n h { node' with iDoubleIndirect := 0 } last htriple
      _ hrest t s' ht hsecond

/-- Removal from a direct block on releases everything behind it and cuts the block map. -/
theorem removeFromDirect_run (h : node.WellMapped s₀ n) {last : Nat}
    (hlast : last ≤ numOfDirectBlocks) {s s' : FileSystem} (hs : Untouched s₀ (node.indirect s₀) s)
    (hrun : freeAll (node.releaseOrder s₀ last n) s = some (true, s')) :
    removeFromDirect node last s = some ((true, node.cut last), s') := by
  have hsize : levelStart 1 = 12 := rfl
  have hsize' : levelStart 2 = 524 := rfl
  have hsize'' : levelStart 3 = 262668 := rfl
  have hcount : (min node.iBlocksNum.toInt (numOfDirectBlocks : Int) - last).toNat =
      min n numOfDirectBlocks - last := by
    rw [h.blocksNum]
    omega
  have hreached : node.iBlocksNum.toInt ≤ (numOfDirectBlocks : Int) ↔ n ≤ levelStart 1 := by
    rw [h.blocksNum]
    simp only [numOfDirectBlocks]
    omega
  have hclear : (node.clearDirect last (min n numOfDirectBlocks - last)).iDirectBlocks =
      (node.cut last).iDirectBlocks := by
    funext i
    simp only [Inode.clearDirect, Inode.cut]
    by_cases hi : i.val < last
    · rw [if_neg (by omega), if_pos hi]
    · rw [if_neg hi]
      split
      · rfl
      · next hout =>
          have hdirect := h.filled.direct i.val i.isLt
          have hsame : node.direct i.val = node.iDirectBlocks i := by simp [Inode.direct]
          by_contra hne
          rw [← hsame] at hne
          have := i.isLt
          have := hdirect.mp hne
          simp only [numOfDirectBlocks] at *
          omega
  have hcut : ({ node.clearDirect last (min n numOfDirectBlocks - last) with
      iSingleIndirect := 0
      iDoubleIndirect := 0
      iTripleIndirect := 0 } : Inode).withBlocksNum last = node.cut last := by
    simp only [numOfDirectBlocks] at hlast
    rw [Inode.withBlocksNum, hclear]
    simp only [Inode.cut, Inode.clearDirect]
    rw [if_neg (by omega), if_neg (by omega), if_neg (by omega)]
  rw [Inode.releaseOrder, freeAll_append] at hrun
  obtain ⟨freed, t, hfirst, hrest⟩ := Prog.bind_eq_some_iff.mp hrun
  obtain ⟨rfl, ht⟩ := hs.freed (fun a ha => h.directOrder_mem ha) hfirst
  rw [removeFromDirect, hcount, Prog.bind_of_eq (removeDirect_run hfirst)]
  by_cases hle : n ≤ levelStart 1
  · have hroots : ∀ d, 1 ≤ d → d ≤ 3 → node.root d = 0 := by
      intro d hlow hhigh
      have := levelStart_mono hlow (le_refl 1) (show d ≤ 4 by omega)
      exact (h.root_eq_zero_iff hlow hhigh).mpr (by omega)
    rw [levelOrder_of_le hle, levelOrder_of_le (by omega), levelOrder_of_le (by omega)] at hrest
    cases hrest
    have hsame : ({ node.clearDirect last (min n numOfDirectBlocks - last) with
        iSingleIndirect := 0
        iDoubleIndirect := 0
        iTripleIndirect := 0 } : Inode) =
          node.clearDirect last (min n numOfDirectBlocks - last) := by
      have hsingle : node.iSingleIndirect = 0 := hroots 1 (by omega) (by omega)
      have hdouble : node.iDoubleIndirect = 0 := hroots 2 (by omega) (by omega)
      have htriple : node.iTripleIndirect = 0 := hroots 3 (by omega) (by omega)
      simp only [Inode.clearDirect, hsingle, hdouble, htriple]
    rw [← hcut, hsame]
    simp only [Bool.not_true, Bool.false_eq_true, if_false, if_pos (hreached.mpr hle)]
    rfl
  · obtain ⟨freed, t', hsecond, hlastTrees⟩ :=
      Prog.bind_eq_some_iff.mp ((congrFun (freeAll_append _ _) t).symm.trans hrest)
    have hs₁ := ht.mono (treeInner_le_indirect (d := 1) (by omega) (by omega))
    rw [indirect_eq] at ht
    obtain ⟨rfl, ht'⟩ := (ht.mono (Multiset.le_add_left _ _)).freed
      (fun a ha => h.levelOrder_one_mem ha) hsecond
    have htree := removeTree_run h (d := 1) (by omega) (by omega) (by omega) hs₁ hsecond
    have hdoubleRest := @removeDoubleRest_run _ s₀ node n h
      { node.clearDirect last (min n numOfDirectBlocks - last) with iSingleIndirect := 0 } last rfl
      rfl (node.iBlocksNum.toInt - numOfDirectBlocks) (by rw [h.blocksNum]) t' s' ht' hlastTrees
    simp only [Bool.not_true, Bool.false_eq_true, if_false,
      if_neg (fun hcond => hle (hreached.mp hcond))]
    rw [← hcut]
    exact (Prog.bind_of_eq htree).trans hdoubleRest

/-! ## The two releases of a whole file -/

namespace Inode.WellMapped

theorem coe_releaseOrder (h : node.WellMapped s n) :
    (node.releaseOrder s 0 n : Multiset Int64) = node.blocks s := by
  have hdirect : (node.directOrder 0 n : Multiset Int64) =
      ∑ i ∈ Finset.range numOfDirectBlocks, cell (node.direct i) := by
    rw [Inode.directOrder, Nat.sub_zero, ← List.range_eq_range']
    refine (sum_cell_eq_map (Nat.min_le_right _ _) fun i hi => ?_).symm
    rw [h.filled.direct i hi]
    omega
  have htrees : ∑ j ∈ Finset.range 3, treeCells s (j + 1) (node.root (j + 1)) =
      treeCells s 1 (node.root 1) + (treeCells s 2 (node.root 2) + treeCells s 3 (node.root 3)) := by
    rw [Finset.sum_range_succ, Finset.sum_range_succ, Finset.sum_range_one, add_assoc]
  rw [Inode.releaseOrder, ← Multiset.coe_add, ← Multiset.coe_add, ← Multiset.coe_add, hdirect,
    h.coe_levelOrder (by omega) (by omega), h.coe_levelOrder (by omega) (by omega),
    h.coe_levelOrder (by omega) (by omega), Inode.blocks, htrees]

theorem untouched (h : node.WellMapped s n)
    (hhead : s.superblock.sFreelistHead = 0 ∨ DataBlock s.superblock.sFreelistHead)
    (hnot : s.superblock.sFreelistHead ∉ node.indirect s) : Untouched s (node.indirect s) s where
  head := hhead
  head_notMem := hnot
  disk a ha := ⟨(h.data a (Multiset.mem_of_le (indirect_le_blocks s node) ha)).ne_zero, rfl⟩

end Inode.WellMapped

theorem FreeList.head_cases {free : Multiset Int64} (h : FreeList s free) :
    s.superblock.sFreelistHead = 0 ∨ DataBlock s.superblock.sFreelistHead := by
  by_cases hzero : s.superblock.sFreelistHead = 0
  · exact .inl hzero
  · exact .inr (h.data _ (h.head_mem hzero))

theorem Owned.head_notMem_indirect {free held : Multiset Int64} (h : Owned s free held)
    (hle : node.blocks s ≤ held) : s.superblock.sFreelistHead ∉ node.indirect s := by
  intro hmem
  have hmem := Multiset.mem_of_le ((indirect_le_blocks s node).trans hle) hmem
  exact h.not_free hmem (h.freeList.head_mem (h.data _ hmem).ne_zero)

/--
`free_data_blocks_in_inode` and `remove_datablocks_from_inode` from position 0
free the same blocks in the same order: both succeed and leave the same state.
-/
theorem releases_agree {free : Multiset Int64} (h : node.WellMapped s n) (hn : 1 ≤ n)
    (hfree : FreeList s free) (hhead : s.superblock.sFreelistHead ∉ node.indirect s) :
    ∃ s', freeDataBlocksInInode node s = some (true, s') ∧
      removeDatablocksFromInode node 0 s = some ((true, node.cut 0), s') := by
  have huntouched := h.untouched hfree.head_cases hhead
  have hall : ∀ a ∈ node.releaseOrder s 0 n, DataBlock a ∧ a ∉ (0 : Multiset Int64) := by
    intro a ha
    rw [← Multiset.mem_coe, h.coe_releaseOrder] at ha
    exact ⟨h.data a ha, Multiset.notMem_zero a⟩
  obtain ⟨s', hrun, -⟩ := (huntouched.mono (Multiset.zero_le _)).freeAll hall
  refine ⟨s', ?_, ?_⟩
  · rw [freeDataBlocksInInode_frees h s huntouched, hrun]
  · have hcount : ¬((0 : Nat) : Int) ≥ node.iBlocksNum.toInt := by
      rw [h.blocksNum]
      omega
    rw [removeDatablocksFromInode, if_neg hcount]
    exact removeFromDirect_run h (Nat.zero_le _) huntouched hrun

/--
`free_inode` of a file of `n` blocks: its blocks and indirect blocks join the
free list, its inode is cleared, and nothing else changes.
-/
theorem freeInode_releases {free : Multiset Int64} {inum : Int64} (hformat : TableFormat s)
    (hinum : ValidInum inum) (h : (s.inodeAt (inumIndex inum)).WellMapped s n)
    (howned : Owned s free ((s.inodeAt (inumIndex inum)).blocks s)) (hne : free ≠ 0) :
    ∃ s', freeInode inum s = some (true, s') ∧
      FreeList s' (free + ((s.inodeAt (inumIndex inum)).indirect s +
        ((List.range n).map ((s.inodeAt (inumIndex inum)).blockAt s) : List Int64))) ∧
      s'.inodeAt (inumIndex inum) = Inode.zero ∧
      (∀ m < inodeCount, m ≠ inumIndex inum → s'.inodeAt m = s.inodeAt m) ∧
      ∀ b, DataBlock b → b ∉ free + (s.inodeAt (inumIndex inum)).blocks s →
        s'.disk b = s.disk b := by
  generalize hnode : s.inodeAt (inumIndex inum) = node at *
  have hrun := freeDataBlocksInInode_frees h s
    (h.untouched howned.freeList.head_cases (howned.head_notMem_indirect le_rfl))
  have hheld := howned
  rw [← h.coe_releaseOrder, ← add_zero (node.releaseOrder s 0 n : Multiset Int64)] at hheld
  obtain ⟨t, hall, howned', hframe⟩ := hheld.releaseAll hne
  rw [h.coe_releaseOrder, add_comm] at howned' hframe
  have hkept := hframe.tableKept howned'.freeList.data
  have hblocks := h.blocks_eq
  have hsame : SameData t (t.withInodeFreed (inumIndex inum)) := .withInodeFreed hinum.index_lt
  refine ⟨t.withInodeFreed (inumIndex inum), freeInode_run hformat hinum hkept ?_, ?_,
    inodeAt_withInodeFreed_self hinum.index_lt, fun m hm hother => ?_, fun b hb hnot => ?_⟩
  · rw [hnode, hrun, hall]
  · rw [← hblocks]
    exact (hsame.owned howned').freeList
  · rw [inodeAt_withInodeFreed_ne hinum.index_lt hm hother, hkept.inodeAt hm]
  · rw [hsame.disk b hb, hframe.disk b hb.ne_zero hnot]

theorem FreshRoot.wellMapped {free : Multiset Int64} {root : Inode} (h : FreshRoot s free root) :
    root.WellMapped s 1 where
  blocksNum := h.dir.blocksNum
  bound := by
    rw [maxBlocksNum]
    decide
  filled := h.filled
  nodup := h.owned.held_nodup
  data := h.owned.data

/-- A file without indirect levels has its data blocks only. -/
theorem Inode.WellMapped.blocks_eq_of_le (h : node.WellMapped s n) (hn : n ≤ levelStart 1) :
    node.blocks s = ((List.range n).map (node.blockAt s) : List Int64) := by
  have hinner : ∀ d, 1 ≤ d → d ≤ 3 → treeInner s d (node.root d) = 0 := by
    intro d hlow hhigh
    have := levelStart_mono hlow le_rfl (show d ≤ 4 by omega)
    rw [(h.root_eq_zero_iff hlow hhigh).mpr (by omega), treeInner, PointerTree.inner_zero]
  rw [h.blocks_eq, indirect_eq, hinner 1 (by omega) (by omega), hinner 2 (by omega) (by omega),
    hinner 3 (by omega) (by omega)]
  simp only [zero_add]

/-- All data blocks but that of the root directory are free. -/
theorem FreshRoot.card_free {free : Multiset Int64} {root : Inode} (h : FreshRoot s free root) :
    (free.card : Int) = numOfDataBlocks - 1 := by
  have hblocks := h.wellMapped.blocks_eq_of_le (show 1 ≤ levelStart 1 by decide)
  have hpos := one_le_numOfDataBlocks h.hasInodes
  have hcard := card_dataBlocks h.owned.nodup (fun b hb => ?_) h.full (by omega)
  · rw [hblocks, Multiset.card_add, Multiset.coe_card, List.length_map, List.length_range] at hcard
    omega
  · rcases Multiset.mem_add.mp hb with hfree | hheld
    · exact h.owned.freeList.data b hfree
    · exact h.owned.data b hheld

end WholeFile

end

/-- A file of 600 blocks is released both ways. -/
theorem releases_agree_600 :
    letI := Config.ofBlocks 4000 (by decide)
    ∃ s node s', node.WellMapped s 600 ∧ node.iDoubleIndirect ≠ 0 ∧
      freeDataBlocksInInode node s = some (true, s') ∧
      removeDatablocksFromInode node 0 s = some ((true, node.cut 0), s') := by
  let _ := Config.ofBlocks 4000 (by decide)
  obtain ⟨_, _, _, s, node, free, -, -, hfile, hlength, hwell, -⟩ :=
    @exists_file _ 600 (by decide) (by decide) (by simp only [maxBlocksNum]; omega) (by decide)
  obtain ⟨s', hfreed, hremoved⟩ := releases_agree hwell (by omega) hfile.owned.freeList
    (hfile.owned.head_notMem_indirect le_rfl)
  refine ⟨s, node, s', hwell, ?_, hfreed, hremoved⟩
  exact (hfile.root_ne_zero 2 (by omega) (by omega)).mpr (by rw [hlength]; decide)

/-- Inode 3 has a file of 600 blocks and is freed. -/
theorem freeInode_releases_600 :
    letI := Config.ofBlocks 4000 (by decide)
    ∃ s s' free, FreeList s free ∧ (s.inodeAt 3).WellMapped s 600 ∧
      freeInode 3 s = some (true, s') ∧
      FreeList s' (free + ((s.inodeAt 3).indirect s +
        ((List.range 600).map ((s.inodeAt 3).blockAt s) : List Int64))) ∧
      s'.inodeAt 3 = Inode.zero ∧ s'.inodeAt 2 = s.inodeAt 2 := by
  let _ := Config.ofBlocks 4000 (by decide)
  obtain ⟨t, s₀, hmake, hinit⟩ :=
    makefs_setup_run FileSystem.beforeFreelist (by decide) (by decide)
  obtain ⟨free₀, root, hfresh⟩ := freshRoot_of_makefs hmake hinit
  have hcard := hfresh.card_free
  have hdata : 3000 < numOfDataBlocks := by decide
  obtain ⟨bs, s, node, free, happended, hfile, hlength, hleft⟩ :=
    exists_appended (k := 600) hfresh.owned.freeList zero_emptyMap
      (by simp only [maxBlocksNum]; omega) (by omega)
  have hne : free ≠ 0 := Multiset.card_pos.mp (by omega)
  obtain ⟨S, hframe⟩ := happended.frame hfresh.owned.freeList zero_emptyMap
  have hcount : 3 < inodeCount := by decide
  have hindex : inumIndex 3 = 3 := by decide
  have hsame : SameData s (s.setInode 3 node) := .setInode node hcount
  have hformat : TableFormat (s.setInode 3 node) :=
    ⟨(hframe.format hfresh.format).sInodesCount, (hframe.format hfresh.format).sNumOfInodesPerBlock⟩
  have hat : (s.setInode 3 node).inodeAt 3 = node := inodeAt_setInode_self
  generalize s.setInode 3 node = u at hsame hformat hat
  have hwell := hfile.wellMapped.kept (hsame.kept hfile.owned le_rfl)
  have howned := hsame.owned hfile.owned
  rw [← hsame.blocks hfile.owned le_rfl] at howned
  rw [hlength] at hwell
  rw [← hat, ← hindex] at hwell howned
  obtain ⟨s', hrun, hlist, hzero, hothers, -⟩ :=
    freeInode_releases hformat ⟨by decide, by decide⟩ hwell howned hne
  rw [hindex] at hwell hlist hzero hothers
  exact ⟨u, s', free, howned.freeList, hwell, hrun, hlist, hzero,
    hothers 2 (by decide) (by decide)⟩

end AltFs
