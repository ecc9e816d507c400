import AltFs.ShrinkRuns
import AltFs.AppendRuns
import AltFs.BlockScans
import AltFs.FreshFreelist

/-!
# What shrinking keeps

For every position before the cut: the path to it, its block and the contents
of the block are as before, and the block does not get onto the free list.
-/

namespace AltFs

variable [Config]

/-- The path to position `i` is as before. -/
structure Inode.PathKept (s : FileSystem) (node : Inode) (s' : FileSystem) (node' : Inode) (i : Nat) :
    Prop where
  direct : i < numOfDirectBlocks → node'.direct i = node.direct i
  tree : ∀ d, 1 ≤ d → d ≤ 3 → levelStart d ≤ i → i < levelStart (d + 1) →
    ∀ k, treeNode s' d k (node'.root d) (i - levelStart d) =
      treeNode s d k (node.root d) (i - levelStart d)

section Positions

variable {s s' t : FileSystem} {node node' : Inode} {free free' held : Multiset Int64}
  {n last i d : Nat}

omit [Config] in
theorem Inode.PathKept.blockAt (hkept : node.PathKept s s' node' i) (hmax : i < maxBlocksNum) :
    node'.blockAt s' i = node.blockAt s i := by
  by_cases hdirect : i < numOfDirectBlocks
  · rw [Inode.blockAt_direct hdirect, Inode.blockAt_direct hdirect, hkept.direct hdirect]
  · obtain ⟨d, hlow, hhigh, hd, hd'⟩ := level_exists (by omega) hmax
    rw [Inode.blockAt_tree hlow hhigh hd hd', Inode.blockAt_tree hlow hhigh hd hd',
      hkept.tree d hlow hhigh hd hd']

/-- A kept path leads to the same block. -/
theorem Inode.PathKept.lookup (h : node.WellMapped s n) (hi : i < n)
    (hkept : node.PathKept s s' node' i) (hnum : (i : Int) < node'.iBlocksNum.toInt) :
    ∃ prev, getDiskBlockFromInodeBlock node' i 0 s' = some ((node.blockAt s i, prev), s') := by
  have hmax := hi.trans_le h.bound
  have hne := h.filled.blockAt_ne_zero hi hmax
  have hpath : ∀ d, 1 ≤ d → d ≤ 3 → levelStart d ≤ i → i < levelStart (d + 1) →
      ∀ k, DataBlock (treeNode s' d k (node'.root d) (i - levelStart d)) := by
    intro d hlow hhigh hd hd' k
    have hsize := levelStart_succ hlow hhigh
    rw [hkept.tree d hlow hhigh hd hd']
    rw [Inode.blockAt_tree hlow hhigh hd hd'] at hne
    exact treeNode_dataBlock h.data hlow hhigh (by omega) hne k
  obtain ⟨prev, hrun, -⟩ :=
    getDiskBlockFromInodeBlock_path hmax hpath hnum (prevValid_zero s' node' i)
  rw [hkept.blockAt hmax] at hrun
  exact ⟨prev, hrun⟩

/-- The block at position `i` is still reached, has its contents and is not free. -/
structure Inode.PositionKept (s : FileSystem) (node : Inode) (s' : FileSystem) (node' : Inode)
    (free' : Multiset Int64) (i : Nat) : Prop where
  path : node.PathKept s s' node' i
  disk : s'.disk (node.blockAt s i) = s.disk (node.blockAt s i)
  notMem : node.blockAt s i ∉ free'

/-- Positions among the direct blocks. -/
private theorem positionKept_direct (hi : i < numOfDirectBlocks) (hmem : node.direct i ∈ held)
    (hkeeps : Keeps t held s' free') (hsame : t.disk (node.direct i) = s.disk (node.direct i))
    (hdirect : node'.direct i = node.direct i) : node.PositionKept s s' node' free' i := by
  refine ⟨⟨fun _ => hdirect, fun d hlow _ hd => ?_⟩, ?_, ?_⟩
  · have := numOfDirectBlocks_le_levelStart hlow
    omega
  · rw [Inode.blockAt_direct hi, hkeeps.disk _ hmem, hsame]
  · rw [Inode.blockAt_direct hi]
    exact hkeeps.owned.not_free hmem

/-- Positions in a tree, once the path and the block are known to be kept. -/
private theorem positionKept_tree (hlow : 1 ≤ d) (hhigh : d ≤ 3) (hd : levelStart d ≤ i)
    (hd' : i < levelStart (d + 1))
    (hpath : ∀ k, treeNode s' d k (node'.root d) (i - levelStart d) =
      treeNode s d k (node.root d) (i - levelStart d))
    (hmem : node.blockAt s i ∈ held) (hkeeps : Keeps t held s' free')
    (hsame : t.disk (node.blockAt s i) = s.disk (node.blockAt s i)) :
    node.PositionKept s s' node' free' i := by
  refine ⟨⟨fun hdirect => ?_, fun e hlow' hhigh' he he' => ?_⟩, ?_, hkeeps.owned.not_free hmem⟩
  · have := numOfDirectBlocks_le_levelStart hlow
    omega
  · obtain rfl : e = d := by
      rcases Nat.lt_trichotomy e d with hlt | heq | hgt
      · have := levelStart_mono (show e + 1 ≤ d by omega) (by omega) (by omega)
        omega
      · exact heq
      · have := levelStart_mono (show d + 1 ≤ e by omega) (by omega) (by omega)
        omega
    exact hpath
  · rw [hkeeps.disk _ hmem, hsame]

/-- A tree of which nothing was given up. -/
private theorem positionKept_whole (h : node.WellMapped s n) (hlow : 1 ≤ d) (hhigh : d ≤ 3)
    (hd : levelStart d ≤ i) (hd' : i < levelStart (d + 1)) (hi : i < n)
    (hle : treeCells s d (node.root d) ≤ held) (hkeeps : Keeps t held s' free')
    (hsame : ∀ a ∈ treeCells s d (node.root d), t.disk a = s.disk a)
    (hroot : node'.root d = node.root d) : node.PositionKept s s' node' free' i := by
  have hsize := levelStart_succ hlow hhigh
  have hm : i - levelStart d < numOfAddressesPerBlock ^ d := by omega
  have hblock := @Inode.blockAt_tree s node d i hlow hhigh hd hd'
  have hne := h.filled.blockAt_ne_zero hi (hi.trans_le h.bound)
  rw [hblock] at hne
  have hmem : treeNode s d 0 (node.root d) (i - levelStart d) ∈ treeCells s d (node.root d) :=
    PointerTree.nodeAt_mem_cells hm hne
  rw [← hblock] at hmem
  refine positionKept_tree hlow hhigh hd hd' (fun k => ?_) (Multiset.mem_of_le hle hmem) hkeeps
    (hsame _ hmem)
  rw [hroot]
  refine PointerTree.nodeAt_congr hm fun a ha j _ => ?_
  have ha := Multiset.mem_of_le (PointerTree.inner_le_cells _ _) ha
  rw [FileSystem.words, hkeeps.disk a (Multiset.mem_of_le hle ha), hsame a ha]
  rfl

/-- The tree of the cut. -/
private theorem positionKept_cut (h : node.WellMapped s n) (hlow : 1 ≤ d) (hhigh : d ≤ 3)
    (hd : levelStart d ≤ last) (hd' : last < levelStart (d + 1)) (hlast : last < n)
    (hi : levelStart d ≤ i) (hi' : i < last)
    (hle : PointerTree.upTo numOfAddressesPerBlock (node.cutState s n last d).words d (node.root d)
      (last - levelStart d) ≤ held)
    (hkeeps : Keeps (node.cutState s n last d) held s' free') (hroot : node'.root d = node.root d) :
    node.PositionKept s s' node' free' i := by
  have hcleared := cut_cleared h hlow hhigh hd hd' hlast
  obtain ⟨-, hdisk⟩ := cutPath h hlow hhigh hd hd' hlast
  have hnodup := Multiset.nodup_of_le (treeCells_le_blocks hlow hhigh) h.nodup
  obtain ⟨-, -, hnode⟩ := hcleared.spec
    (Multiset.nodup_of_le (PointerTree.inner_le_cells _ _) hnodup)
  have hm := hcleared.leaf
  have hbefore : ∀ k, treeNode (node.cutState s n last d) d k (node.root d) (i - levelStart d) =
      treeNode s d k (node.root d) (i - levelStart d) := by
    intro k
    exact (hnode k _ (by omega)).trans (if_neg (by omega))
  have hblock := @Inode.blockAt_tree s node d i hlow hhigh hi (hi'.trans hd')
  have hne := h.filled.blockAt_ne_zero (hi'.trans hlast) ((hi'.trans hlast).trans_le h.bound)
  have hleaf := hne
  rw [hblock, ← hbefore] at hleaf
  have hmem := Multiset.mem_of_le hle (PointerTree.leaf_mem_upTo hm (by omega) hleaf)
  change treeNode _ d 0 (node.root d) (i - levelStart d) ∈ held at hmem
  rw [hbefore, ← hblock] at hmem
  refine positionKept_tree hlow hhigh hi (hi'.trans hd') (fun k => ?_) hmem hkeeps ?_
  · rw [hroot, ← hbefore k]
    refine PointerTree.nodeAt_upTo hm (by omega) fun a ha j _ => ?_
    rw [FileSystem.words, hkeeps.disk a (Multiset.mem_of_le hle ha)]
    rfl
  · apply hdisk
    intro heq
    apply blockAt_notMem_indirect h.nodup hne
    rw [heq]
    exact Multiset.mem_of_le (treeInner_le_indirect hlow hhigh)
      (PointerTree.nodeAt_mem_inner hm (by omega) hcleared.parent)

omit [Config] in
private theorem below_le (s : FileSystem) (node : Inode) {e : Nat} (hle : e ≤ d) :
    node.blocksBelow s e ≤ node.blocksBelow s d := by
  induction d with
  | zero => rw [Nat.le_zero.mp hle]
  | succ d ih =>
      by_cases heq : e = d + 1
      · rw [heq]
      · exact (ih (by omega)).trans (Multiset.le_add_right _ _)

/-- Positions below the tree of the cut. -/
private theorem positionKept_below (h : node.WellMapped s n) (hd : i < levelStart d) (hlow : 1 ≤ d)
    (hi : i < n) (hle : node.blocksBelow s d ≤ held)
    (hkeeps : Keeps t held s' free') (hsame : ∀ a ∈ node.blocksBelow s d, t.disk a = s.disk a)
    (hdirect : ∀ i, node'.direct i = node.direct i) (hroot : ∀ e < d, node'.root e = node.root e) :
    node.PositionKept s s' node' free' i := by
  by_cases hfirst : i < numOfDirectBlocks
  · have hne : node.direct i ≠ 0 := (h.filled.direct i hfirst).mpr hi
    have hmem : node.direct i ∈ node.blocksBelow s 0 := mem_sum_cell.mpr ⟨hne, i, hfirst, rfl⟩
    have hmem := Multiset.mem_of_le (below_le s node (Nat.zero_le d)) hmem
    exact positionKept_direct hfirst (Multiset.mem_of_le hle hmem) hkeeps (hsame _ hmem) (hdirect i)
  · obtain ⟨e, hlow', hhigh', he, he'⟩ := level_exists (by omega) (hi.trans_le h.bound)
    have hlt : e < d := by
      by_contra hge
      have := levelStart_mono (show d ≤ e by omega) hlow (by omega)
      omega
    have htree : treeCells s e (node.root e) ≤ node.blocksBelow s d :=
      (Multiset.le_add_left _ _).trans (below_le s node hlt)
    exact positionKept_whole h hlow' hhigh' he he' hi (htree.trans hle) hkeeps
      (fun a ha => hsame a (Multiset.mem_of_le htree ha)) (hroot e hlt)

end Positions

/-! ## Cutting within the direct blocks -/

section Direct

variable {s t : FileSystem} {node : Inode} {free rest : Multiset Int64} {n last : Nat}

/-- What is released and what stays. -/
private theorem coe_releaseOrder_cut (h : node.WellMapped s n) (hlast : last ≤ numOfDirectBlocks)
    (hlt : last ≤ n) : (node.releaseOrder s last n : Multiset Int64) +
      ((List.range last).map node.direct : List Int64) = node.blocks s := by
  have hsplit := @List.range'_append_1 0 last (min n numOfDirectBlocks - last)
  rw [Nat.zero_add, Nat.add_sub_cancel' (Nat.le_min.mpr ⟨hlt, hlast⟩)] at hsplit
  have hall := h.coe_releaseOrder
  rw [Inode.releaseOrder, Inode.directOrder, Nat.sub_zero, ← hsplit, List.map_append,
    List.append_assoc, ← Multiset.coe_add, add_comm, ← List.range_eq_range'] at hall
  exact hall

omit [Config] in
theorem direct_cut {i : Nat} (hi : i < numOfDirectBlocks) :
    (node.cut last).direct i = if i < last then node.direct i else 0 := by
  rw [Inode.direct, Inode.direct, dif_pos hi, dif_pos hi, Inode.cut]

/-- The blocks of a file that has been cut within its direct blocks. -/
theorem blocks_cut (h : node.WellMapped s n) (hlast : last ≤ numOfDirectBlocks)
    (hlt : last ≤ n) (t : FileSystem) :
    (node.cut last).blocks t = ((List.range last).map node.direct : List Int64) := by
  have htrees : ∀ j ∈ Finset.range 3, treeCells t (j + 1) ((node.cut last).root (j + 1)) = 0 := by
    intro j hj
    have hj := Finset.mem_range.mp hj
    have hroot : (node.cut last).root (j + 1) = 0 := by
      simp only [numOfDirectBlocks] at hlast
      obtain rfl | rfl | rfl : j = 0 ∨ j = 1 ∨ j = 2 := by omega
      all_goals
        simp only [Inode.root, Inode.cut, levelStart]
        exact if_neg (by omega)
    rw [hroot]
    exact treeCells_zero t (j + 1)
  rw [Inode.blocks, Finset.sum_eq_zero htrees, add_zero,
    sum_cell_eq_map (k := last) hlast fun i hi => ?_]
  · congr 1
    apply List.map_congr_left
    intro i hi
    have hi := List.mem_range.mp hi
    rw [direct_cut (by omega), if_pos hi]
  · rw [direct_cut hi]
    constructor
    · intro hne
      by_contra hge
      exact hne (if_neg hge)
    · intro hlt'
      rw [if_pos hlt']
      exact (h.filled.direct i hi).mpr (by omega)

/-- Removal from a direct block on. -/
theorem removeFromDirect_keeps (h : node.WellMapped s n)
    (howned : Owned s free (node.blocks s + rest)) (hne : free ≠ 0)
    (hd : last ≤ numOfDirectBlocks) (hlast : last < n) :
    ∃ s' free', removeFromDirect node last s = some ((true, node.cut last), s') ∧
      Keeps s ((node.cut last).blocks s' + rest) s' free' ∧
      free' + (node.cut last).blocks s' = free + node.blocks s := by
  have hsplit := coe_releaseOrder_cut h hd hlast.le
  have huntouched := h.untouched howned.freeList.head_cases
    (howned.head_notMem_indirect (Multiset.le_add_right _ _))
  have hkeeps : Keeps s ((node.releaseOrder s last n : Multiset Int64) +
      (((List.range last).map node.direct : List Int64) + rest)) s free := by
    rw [← add_assoc, hsplit]
    exact .start howned hne
  obtain ⟨s', hrun, hkeeps'⟩ := hkeeps.releaseAll
  rw [← blocks_cut h hd hlast.le s'] at hkeeps' hsplit
  refine ⟨s', (node.releaseOrder s last n : Multiset Int64) + free,
    removeFromDirect_run h hd huntouched hrun, hkeeps', ?_⟩
  rw [← hsplit]
  ac_rfl

end Direct

/-! ## The call as a whole -/

section Whole

variable {s : FileSystem} {node : Inode} {free : Multiset Int64} {n last : Nat}

private theorem not_ge (h : node.WellMapped s n) (hlast : last < n) :
    ¬(last : Int) ≥ node.iBlocksNum.toInt := by
  rw [h.blocksNum]
  omega

theorem removeDatablocksFromInode_direct (h : node.WellMapped s n) (hlast : last < n)
    (hd : last ≤ numOfDirectBlocks) :
    removeDatablocksFromInode node last s = removeFromDirect node last s := by
  rw [removeDatablocksFromInode, if_neg (not_ge h hlast), if_pos hd]

theorem removeDatablocksFromInode_single (h : node.WellMapped s n) (hlast : last < n)
    (hd : levelStart 1 < last) (hd' : last ≤ levelStart 2) :
    removeDatablocksFromInode node last s =
      removeFromSingle node last (last - levelStart 1) s := by
  have hpos : last - numOfDirectBlocks = last - levelStart 1 := rfl
  have hdirect : ¬last ≤ numOfDirectBlocks := Nat.not_le.mpr hd
  have hsingle : last - levelStart 1 ≤ numOfAddressesPerBlock := by
    simp only [levelStart, numOfAddressesPerBlock] at *
    omega
  rw [removeDatablocksFromInode, if_neg (not_ge h hlast), if_neg hdirect]
  simp only [hpos, hsingle, if_true]

omit [Config] in
private theorem position_double (hd : levelStart 2 < last) :
    ¬last ≤ numOfDirectBlocks ∧ ¬last - numOfDirectBlocks ≤ numOfAddressesPerBlock ∧
      last - numOfDirectBlocks - numOfAddressesPerBlock = last - levelStart 2 := by
  simp only [levelStart, numOfDirectBlocks, numOfAddressesPerBlock] at *
  omega

omit [Config] in
private theorem lt_levelStart_four (hlast : last < maxBlocksNum) : last < levelStart 4 := by
  simp only [maxBlocksNum] at hlast
  exact hlast

omit [Config] in
private theorem position_triple (hd : levelStart 3 < last) (hlast : last < maxBlocksNum) :
    levelStart 2 < last ∧ ¬last - levelStart 2 ≤ numOfDoubleIndirectBlockAddr ∧
      last - levelStart 2 - numOfDoubleIndirectBlockAddr = last - levelStart 3 ∧
      last - levelStart 3 ≤ numOfTripleIndirectBlockAddr := by
  have hsecond : levelStart 2 = 524 := rfl
  have hthird : levelStart 3 = 262668 := rfl
  have hdouble : numOfDoubleIndirectBlockAddr = 262144 := rfl
  have htriple : numOfTripleIndirectBlockAddr = 134217728 := rfl
  simp only [maxBlocksNum] at hlast
  rw [hthird] at hd
  rw [hsecond, hthird, hdouble, htriple]
  omega

theorem removeDatablocksFromInode_double (h : node.WellMapped s n) (hlast : last < n)
    (hd : levelStart 2 < last) (hd' : last ≤ levelStart 3) :
    removeDatablocksFromInode node last s =
      removeFromDouble node last (last - levelStart 2) s := by
  obtain ⟨hdirect, hsingle, hpos⟩ := position_double hd
  have hdouble : last - levelStart 2 ≤ numOfDoubleIndirectBlockAddr := by
    simp only [levelStart, numOfDoubleIndirectBlockAddr] at *
    omega
  rw [removeDatablocksFromInode, if_neg (not_ge h hlast), if_neg hdirect]
  simp only [hsingle, hpos, hdouble, if_true, if_false]

theorem removeDatablocksFromInode_triple (h : node.WellMapped s n) (hlast : last < n)
    (hd : levelStart 3 < last) :
    removeDatablocksFromInode node last s =
      removeFromTriple node last (last - levelStart 3) s := by
  obtain ⟨hd₂, hdouble, hpos', htriple⟩ := position_triple hd (hlast.trans_le h.bound)
  obtain ⟨hdirect, hsingle, hpos⟩ := position_double hd₂
  rw [removeDatablocksFromInode, if_neg (not_ge h hlast), if_neg hdirect]
  simp only [hsingle, hpos, hdouble, hpos', htriple, if_true, if_false]

omit [Config] in
theorem toInt_cut (hlast : last ≤ maxBlocksNum) :
    (node.cut last).iBlocksNum.toInt = last := by
  simp only [maxBlocksNum] at hlast
  exact Int64.toInt_ofInt_of_le (by omega) (by omega)

omit [Config] in
private theorem cut_keepsRoots (hd : levelStart 1 < last) (hlast : last < maxBlocksNum) :
    node.KeepsRoots last 1 (node.cut last) := by
  refine ⟨fun i => ?_, fun e he => ?_, (toInt_cut hlast.le).ge⟩
  · rw [Inode.direct, Inode.direct]
    split
    next hi =>
      exact if_pos (hi.trans hd)
    next => rfl
  · cases e with
    | zero => rfl
    | succ e =>
        obtain rfl : e = 0 := by omega
        exact if_pos hd

section Assembly

variable {s' : FileSystem} {node' : Inode} {free' : Multiset Int64} {d : Nat}

/-- A cut within the tree of level `d`. -/
private theorem positions_inside (h : node.WellMapped s n) (hlow : 1 ≤ d) (hhigh : d ≤ 3)
    (hd : levelStart d ≤ last) (hd' : last < levelStart (d + 1)) (hlast : last < n)
    (hkeeps : Keeps (node.cutState s n last d)
      (PointerTree.upTo numOfAddressesPerBlock (node.cutState s n last d).words d (node.root d)
        (last - levelStart d) + node.blocksBelow s d) s' free')
    (hroots : node.KeepsRoots last d node') :
    ∀ i < last, node.PositionKept s s' node' free' i := by
  intro i hi
  have hexcept : node.blocksBelow s d ≤ node.blocksExcept s d := by
    obtain rfl | rfl | rfl : d = 1 ∨ d = 2 ∨ d = 3 := by omega
    · rw [blocksExcept_one]
      exact (Multiset.le_add_left _ _).trans (Multiset.le_add_left _ _)
    · rw [blocksExcept_two]
      exact Multiset.le_add_left _ _
    · rw [blocksExcept_three]
  by_cases hbelow : i < levelStart d
  · apply positionKept_below h hbelow hlow (hi.trans hlast) (Multiset.le_add_left _ _) hkeeps
    · intro a ha
      exact cutState_disk_of_except h hlow hhigh hd hd' hlast (Multiset.mem_of_le hexcept ha)
    · exact hroots.direct
    · exact fun e he => hroots.root e he.le
  · exact positionKept_cut h hlow hhigh hd hd' hlast (Nat.not_lt.mp hbelow) hi
      (Multiset.le_add_right _ _) hkeeps (hroots.root d le_rfl)

/-- A cut right behind the tree of level `d`. -/
private theorem positions_behind (h : node.WellMapped s n) (hlow : 1 ≤ d) (hhigh : d ≤ 3)
    (hlast : levelStart (d + 1) < n)
    (hkeeps : Keeps s (treeCells s d (node.root d) + node.blocksBelow s d) s' free')
    (hroots : node.KeepsRoots (levelStart (d + 1)) d node') :
    ∀ i < levelStart (d + 1), node.PositionKept s s' node' free' i := by
  intro i hi
  by_cases hbelow : i < levelStart d
  · exact positionKept_below h hbelow hlow (hi.trans hlast) (Multiset.le_add_left _ _) hkeeps
      (fun _ _ => rfl) hroots.direct (fun e he => hroots.root e he.le)
  · exact positionKept_whole h hlow hhigh (Nat.not_lt.mp hbelow) hi (hi.trans hlast)
      (Multiset.le_add_right _ _) hkeeps (fun _ _ => rfl) (hroots.root d le_rfl)

end Assembly

/-- Whatever the call returns, it keeps every position before `last`. -/
theorem removeDatablocksFromInode_positions (h : node.WellMapped s n)
    (howned : Owned s free (node.blocks s)) (hne : free ≠ 0) (hlast : last < n) :
    ∃ done node' s' free', removeDatablocksFromInode node last s = some ((done, node'), s') ∧
      FreeList s' free' ∧ (last : Int) ≤ node'.iBlocksNum.toInt ∧
      ∀ i < last, node.PositionKept s s' node' free' i := by
  have hbound := hlast.trans_le h.bound
  have howned₀ : Owned s free (node.blocks s + 0) := by rwa [add_zero]
  by_cases hdirect : last ≤ numOfDirectBlocks
  · obtain ⟨s', free', hrun, hkeeps, -⟩ := removeFromDirect_keeps h howned₀ hne hdirect hlast
    refine ⟨true, node.cut last, s', free', ?_, hkeeps.owned.freeList, (toInt_cut hbound.le).ge,
      fun i hi => ?_⟩
    · rw [removeDatablocksFromInode_direct h hlast hdirect, hrun]
    · rw [blocks_cut h hdirect hlast.le, add_zero] at hkeeps
      have hi' := hi.trans_le hdirect
      have hmem : node.direct i ∈ ((List.range last).map node.direct : List Int64) :=
        List.mem_map.mpr ⟨i, List.mem_range.mpr hi, rfl⟩
      refine positionKept_direct hi' (Multiset.mem_coe.mpr hmem) hkeeps rfl ?_
      rw [Inode.direct, Inode.direct, dif_pos hi', dif_pos hi', Inode.cut]
      exact if_pos hi
  have hd : levelStart 1 < last := Nat.not_le.mp hdirect
  have hroots := @cut_keepsRoots node last hd hbound
  rcases Nat.lt_trichotomy last (levelStart 2) with hd' | rfl | hd₂
  · obtain ⟨s', free', hrun, hkeeps, -⟩ := removeFromSingle_cut h howned₀ hne hd hd' hlast
    rw [add_zero] at hkeeps
    have hupTo := (@PointerTree.upTo_add_beyond _ _ _ _ (node.cutState s n last 1).words _ _ (node.root 1)
      (cut_cleared h (d := 1) (by omega) (by omega) hd.le hd' hlast).leaf)
    refine ⟨true, node.cut last, s', free', ?_, hkeeps.owned.freeList, hroots.blocksNum,
      positions_inside h le_rfl (by omega) hd.le hd' hlast (hkeeps.mono ?_) hroots⟩
    · rw [removeDatablocksFromInode_single h hlast hd hd'.le, hrun]
    · apply add_le_add_left
      exact (Multiset.le_add_right _ _).trans hupTo.le
  · obtain ⟨s', free', hrun, hkeeps, -⟩ := removeFromSingle_end h howned₀ hne hlast
    rw [add_zero] at hkeeps
    refine ⟨true, _, s', free', ?_, hkeeps.owned.freeList, hroots.blocksNum,
      positions_behind h le_rfl (by omega) hlast hkeeps hroots⟩
    rw [removeDatablocksFromInode_single h hlast hd le_rfl, hrun]
  rcases Nat.lt_trichotomy last (levelStart 3) with hd' | rfl | hd₃
  · obtain ⟨done, node', s', free', hrun, hkeeps, hroots⟩ :=
      removeFromDouble_keeps h howned hne hd₂ hd' hlast
    refine ⟨done, node', s', free', ?_, hkeeps.owned.freeList, hroots.blocksNum,
      positions_inside h (by omega) (by omega) hd₂.le hd' hlast hkeeps hroots⟩
    rw [removeDatablocksFromInode_double h hlast hd₂ hd'.le, hrun]
  · obtain ⟨done, node', s', free', hrun, hkeeps, hroots⟩ :=
      removeFromDouble_end h howned hne hlast
    refine ⟨done, node', s', free', ?_, hkeeps.owned.freeList, hroots.blocksNum,
      positions_behind h (by omega) (by omega) hlast hkeeps hroots⟩
    rw [removeDatablocksFromInode_double h hlast hd₂ le_rfl, hrun]
  · obtain ⟨done, node', s', free', hrun, hkeeps, hroots⟩ :=
      removeFromTriple_keeps h howned hne hd₃ hlast
    refine ⟨done, node', s', free', ?_, hkeeps.owned.freeList, hroots.blocksNum,
      positions_inside h (by omega) le_rfl hd₃.le (lt_levelStart_four hbound) hlast hkeeps hroots⟩
    rw [removeDatablocksFromInode_triple h hlast hd₃, hrun]

/--
Shrinking keeps the positions before `last`: the same block is found, with the
same contents, and it is not free.
-/
theorem removeDatablocksFromInode_keeps (h : node.WellMapped s n) (hfree : FreeList s free)
    (hne : free ≠ 0) (hdisjoint : ∀ b ∈ node.blocks s, b ∉ free) (hlast : last < n) :
    ∃ done node' s' free', removeDatablocksFromInode node last s = some ((done, node'), s') ∧
      FreeList s' free' ∧
      ∀ i < last, ∃ b prev prev',
        getDiskBlockFromInodeBlock node i 0 s = some ((b, prev), s) ∧
        getDiskBlockFromInodeBlock node' i 0 s' = some ((b, prev'), s') ∧
        s'.disk b = s.disk b ∧ b ∉ free' := by
  have howned : Owned s free (node.blocks s) := by
    constructor
    · exact hfree
    · apply Multiset.nodup_add.mpr
      exact ⟨hfree.nodup, h.nodup, Multiset.disjoint_right.mpr fun {b} hb => hdisjoint b hb⟩
    · exact h.data
  obtain ⟨done, node', s', free', hrun, hfree', hnum, hkept⟩ :=
    removeDatablocksFromInode_positions h howned hne hlast
  refine ⟨done, node', s', free', hrun, hfree', fun i hi => ?_⟩
  have hpos := hkept i hi
  obtain ⟨prev, hbefore, -⟩ := h.lookup (hi.trans hlast) (prevValid_zero s node i)
  obtain ⟨prev', hafter⟩ := hpos.path.lookup h (hi.trans hlast) (by omega)
  exact ⟨node.blockAt s i, prev, prev', hbefore, hafter, hpos.disk, hpos.notMem⟩

end Whole

omit [Config] in
/-- A file of 600 blocks, cut down to 30. -/
theorem removeDatablocksFromInode_keeps_600 :
    letI := Config.ofBlocks 4000 (by decide)
    ∃ s node, node.WellMapped s 600 ∧
      ∃ done node' s' free', removeDatablocksFromInode node 30 s = some ((done, node'), s') ∧
        FreeList s' free' ∧
        ∀ i < 30, ∃ b prev prev',
          getDiskBlockFromInodeBlock node i 0 s = some ((b, prev), s) ∧
          getDiskBlockFromInodeBlock node' i 0 s' = some ((b, prev'), s') ∧
          s'.disk b = s.disk b ∧ b ∉ free' := by
  let _ := Config.ofBlocks 4000 (by decide)
  have hdata : 3000 < numOfDataBlocks := by decide
  obtain ⟨_, _, _, s, node, free, -, -, hfile, -, hwell, hleft⟩ :=
    @exists_file _ 600 (by decide) (by decide) (by simp only [maxBlocksNum]; omega) (by decide)
  have hne : free ≠ 0 := Multiset.card_pos.mp (by omega)
  exact ⟨s, node, hwell, removeDatablocksFromInode_keeps hwell hfile.owned.freeList hne
    (fun b hb => hfile.owned.not_free hb) (by omega)⟩

end AltFs
