import AltFs.InodeMap

/-!
# Looking up the blocks of a file

`get_disk_block_from_inode_block` remembers the last address block it went
through, in `*prev_indirect_block`, and uses it for the next position when
that is not the first of its address block.
-/

namespace AltFs

/-! ## Data blocks and indirect blocks -/

section DataBlocks

variable {s : FileSystem} {node : Inode}

private theorem sum_levels (f : Nat → Multiset Int64) :
    ∑ i ∈ Finset.range maxBlocksNum, f i =
      ∑ i ∈ Finset.range numOfDirectBlocks, f i +
        ∑ j ∈ Finset.range 3, ∑ i ∈ Finset.range (numOfAddressesPerBlock ^ (j + 1)),
          f (levelStart (j + 1) + i) := by
  have hsize : maxBlocksNum = levelStart 1 + numOfAddressesPerBlock ^ 1 +
      numOfAddressesPerBlock ^ 2 + numOfAddressesPerBlock ^ 3 := by rw [maxBlocksNum]; decide
  have hthree : ∀ g : Nat → Multiset Int64, ∑ j ∈ Finset.range 3, g j = g 0 + (g 1 + g 2) := by
    intro g
    rw [Finset.sum_range_succ, Finset.sum_range_succ, Finset.sum_range_one, add_assoc]
  rw [hsize, Finset.sum_range_add, Finset.sum_range_add, Finset.sum_range_add, hthree, add_assoc,
    add_assoc, ← levelStart_succ (by omega) (by omega), ← levelStart_succ (by omega) (by omega)]
  rfl

/-- The blocks of a file are its indirect blocks and the blocks at its positions. -/
theorem blocks_eq_indirect_add :
    node.blocks s =
      node.indirect s + ∑ i ∈ Finset.range maxBlocksNum, cell (node.blockAt s i) := by
  have hdirect : ∀ i ∈ Finset.range numOfDirectBlocks,
      cell (node.blockAt s i) = cell (node.direct i) := fun i hi => by
    rw [Inode.blockAt_direct (Finset.mem_range.mp hi)]
  have htree : ∀ j ∈ Finset.range 3,
      treeCells s (j + 1) (node.root (j + 1)) = treeInner s (j + 1) (node.root (j + 1)) +
        ∑ i ∈ Finset.range (numOfAddressesPerBlock ^ (j + 1)),
          cell (node.blockAt s (levelStart (j + 1) + i)) := by
    intro j hj
    have hj := Finset.mem_range.mp hj
    rw [treeCells, PointerTree.cells_eq]
    refine congrArg₂ (· + ·) rfl (Finset.sum_congr rfl fun i hi => ?_)
    have hi := Finset.mem_range.mp hi
    have hsize := levelStart_succ (show 1 ≤ j + 1 by omega) (show j + 1 ≤ 3 by omega)
    rw [Inode.blockAt_tree (show 1 ≤ j + 1 by omega) (by omega) (by omega) (by omega),
      Nat.add_sub_cancel_left]
  rw [sum_levels, Finset.sum_congr rfl hdirect, Inode.blocks, Inode.indirect,
    Finset.sum_congr rfl htree, Finset.sum_add_distrib, add_left_comm]

theorem blockAt_lt_max {i : Nat} (hne : node.blockAt s i ≠ 0) : i < maxBlocksNum := by
  by_contra hge
  exact hne (Inode.blockAt_of_ge (by omega))

private theorem mem_positions {i : Nat} (hne : node.blockAt s i ≠ 0) :
    node.blockAt s i ∈ ∑ i ∈ Finset.range maxBlocksNum, cell (node.blockAt s i) := by
  rw [mem_sum_cell]
  exact ⟨hne, i, blockAt_lt_max hne, rfl⟩

/-- Different positions of a file have different blocks. -/
theorem blockAt_inj (h : (node.blocks s).Nodup) {i j : Nat} (hne : node.blockAt s i ≠ 0)
    (heq : node.blockAt s i = node.blockAt s j) : i = j := by
  rw [blocks_eq_indirect_add, Multiset.nodup_add] at h
  have hj : node.blockAt s j ≠ 0 := by rwa [← heq]
  exact eq_of_nodup_sum_cell h.2.1 (blockAt_lt_max hne) (blockAt_lt_max hj) hne heq

theorem blockAt_mem_blocks {i : Nat} (hne : node.blockAt s i ≠ 0) :
    node.blockAt s i ∈ node.blocks s := by
  rw [blocks_eq_indirect_add, Multiset.mem_add]
  exact .inr (mem_positions hne)

/-- No position of a file has an indirect block. -/
theorem blockAt_notMem_indirect (h : (node.blocks s).Nodup) {i : Nat}
    (hne : node.blockAt s i ≠ 0) : node.blockAt s i ∉ node.indirect s := by
  rw [blocks_eq_indirect_add, Multiset.nodup_add, Multiset.disjoint_left] at h
  exact fun hmem => h.2.2 hmem (mem_positions hne)

end DataBlocks

variable [Config]

/-- The block map of a file of `n` blocks, each used once. -/
structure Inode.WellMapped (s : FileSystem) (node : Inode) (n : Nat) : Prop where
  blocksNum : node.iBlocksNum.toInt = n
  bound : n ≤ maxBlocksNum
  filled : node.Filled s n
  nodup : (node.blocks s).Nodup
  data : ∀ b ∈ node.blocks s, DataBlock b

omit [Config] in
theorem Inode.Filled.blockAt_ne_zero {s : FileSystem} {node : Inode} {n i : Nat}
    (h : node.Filled s n) (hi : i < n) (hmax : i < maxBlocksNum) : node.blockAt s i ≠ 0 := by
  by_cases hdirect : i < numOfDirectBlocks
  · rw [Inode.blockAt_direct hdirect]
    exact (h.direct i hdirect).mpr hi
  · obtain ⟨d, hlow, hhigh, hd, hd'⟩ := level_exists (by omega) hmax
    have hsize := levelStart_succ hlow hhigh
    rw [Inode.blockAt_tree hlow hhigh hd hd']
    exact (h.tree d hlow hhigh).node_ne_zero (Nat.zero_le d) (by omega) (by omega)

omit [Config] in
theorem Inode.Filled.blockAt_eq_zero {s : FileSystem} {node : Inode} {n i : Nat}
    (h : node.Filled s n) (hi : n ≤ i) : node.blockAt s i = 0 := by
  by_cases hmax : maxBlocksNum ≤ i
  · exact Inode.blockAt_of_ge hmax
  by_contra hne
  by_cases hdirect : i < numOfDirectBlocks
  · rw [Inode.blockAt_direct hdirect] at hne
    have := (h.direct i hdirect).mp hne
    omega
  · obtain ⟨d, hlow, hhigh, hd, hd'⟩ := level_exists (i := i) (by omega) (by omega)
    have hsize := levelStart_succ hlow hhigh
    rw [Inode.blockAt_tree hlow hhigh hd hd'] at hne
    have := (h.tree d hlow hhigh 0 (Nat.zero_le d) _ (by omega)).mp hne
    rw [pow_zero, Nat.div_one, Nat.mul_one] at this
    omega

/-- The blocks of a file of `n` blocks. -/
theorem Inode.WellMapped.blocks_eq {s : FileSystem} {node : Inode} {n : Nat}
    (h : node.WellMapped s n) :
    node.blocks s = node.indirect s + ((List.range n).map (node.blockAt s) : List Int64) := by
  rw [blocks_eq_indirect_add, sum_cell_eq_map h.bound fun i hi => ⟨fun hne => ?_, fun hlt =>
    h.filled.blockAt_ne_zero hlt hi⟩]
  by_contra hge
  exact hne (h.filled.blockAt_eq_zero (by omega))

theorem Inode.WellMapped.kept {s s' : FileSystem} {node : Inode} {n : Nat}
    (h : node.WellMapped s n) (hkept : node.Kept s s') : node.WellMapped s' n where
  blocksNum := h.blocksNum
  bound := h.bound
  filled := hkept.filled h.filled
  nodup := by
    rw [hkept.blocks]
    exact h.nodup
  data := by
    rw [hkept.blocks]
    exact h.data

theorem Inode.WellMapped.mapped {s : FileSystem} {node : Inode} {n : Nat}
    (h : node.WellMapped s n) : node.Mapped s where
  nonneg := by
    rw [h.blocksNum]
    exact Int.natCast_nonneg n
  blockAt_ne_zero i hi := by
    have hi : i < n := by
      have := h.blocksNum
      omega
    exact h.filled.blockAt_ne_zero hi (hi.trans_le h.bound)

theorem Inode.WellMapped.root_eq_zero_iff {s : FileSystem} {node : Inode} {n d : Nat}
    (h : node.WellMapped s n) (hlow : 1 ≤ d) (hhigh : d ≤ 3) : node.root d = 0 ↔ n ≤ levelStart d := by
  have hfilled := h.filled.tree d hlow hhigh
  constructor
  · intro hroot
    by_contra hlt
    exact hfilled.root_ne_zero (by decide) (by omega) hroot
  · intro hle
    rw [Nat.sub_eq_zero_of_le hle] at hfilled
    exact hfilled.root_eq_zero (by decide)

/-! ## The lookup -/

/-- The remembered address block is that of position `i`, where it will be used. -/
def PrevValid (s : FileSystem) (node : Inode) (i : Nat) (prev : Int64) : Prop :=
  prev = 0 ∨ ∀ d, 2 ≤ d → d ≤ 3 → levelStart d ≤ i → i < levelStart (d + 1) →
    (i - levelStart d) % numOfAddressesPerBlock ≠ 0 →
      treeNode s d 1 (node.root d) (i - levelStart d) = prev

omit [Config] in
theorem prevValid_zero (s : FileSystem) (node : Inode) (i : Nat) : PrevValid s node i 0 :=
  .inl rfl

omit [Config] in
theorem PrevValid.kept {s s' : FileSystem} {node : Inode} {i : Nat} {prev : Int64}
    (h : PrevValid s node i prev) (hkept : node.Kept s s') : PrevValid s' node i prev := by
  refine h.imp_right fun h d hlow hhigh hd hd' hrest => ?_
  have hsize := levelStart_succ (show 1 ≤ d by omega) hhigh
  rw [hkept.treeNode (by omega) hhigh (by omega)]
  exact h d hlow hhigh hd hd' hrest

section Lookup

variable {s : FileSystem} {node : Inode} {free held : Multiset Int64} {p prev : Int64}
  {d i k m n : Nat}

theorem lookupSingle_run {index : Nat} (hp : DataBlock p) (h : index < numOfAddressesPerBlock) :
    lookupSingle p index s = some ((s.disk p).word index, s) := by
  have hrequire : (Prog.require (index < numOfAddressesPerBlock) : Fs Unit) s = some ((), s) := by
    rw [Prog.require_apply, if_pos h]
  simp only [lookupSingle, Prog.bind_of_eq (readDataBlockArray_run hp), Prog.bind_of_eq hrequire,
    Prog.pure_apply]

omit [Config] in
theorem treeCells_le_blocks (hlow : 1 ≤ d) (hhigh : d ≤ 3) :
    treeCells s d (node.root d) ≤ node.blocks s := by
  rw [blocks_split hlow hhigh]
  exact Multiset.le_add_right _ _

/-- Nodes above a block of the file are data blocks. -/
theorem treeNode_dataBlock (hdata : ∀ b ∈ node.blocks s, DataBlock b) (hlow : 1 ≤ d)
    (hhigh : d ≤ 3) (hi : i < numOfAddressesPerBlock ^ d)
    (hleaf : treeNode s d 0 (node.root d) i ≠ 0) (k : Nat) :
    DataBlock (treeNode s d k (node.root d) i) :=
  hdata _ (Multiset.mem_of_le (treeCells_le_blocks hlow hhigh)
    (PointerTree.nodeAt_mem_cells hi (PointerTree.nodeAt_ne_zero_mono (Nat.zero_le k) hleaf)))

omit [Config] in
private theorem word_treeNode (hk : k < d) (hi : i < numOfAddressesPerBlock ^ d)
    (hleaf : treeNode s d 0 p i ≠ 0) :
    (s.disk (treeNode s d (k + 1) p i)).word
      (i / numOfAddressesPerBlock ^ k % numOfAddressesPerBlock) = treeNode s d k p i :=
  treeNode_step hk hi (PointerTree.nodeAt_ne_zero_mono (Nat.zero_le _) hleaf)

/-- Descending through one indirect block of a tree. -/
theorem lookupSingle_node (hp : ∀ k, DataBlock (treeNode s d k p i)) (hk : k < d)
    (hi : i < numOfAddressesPerBlock ^ d) {j : Nat}
    (hj : i / numOfAddressesPerBlock ^ k % numOfAddressesPerBlock = j) :
    lookupSingle (treeNode s d (k + 1) p i) j s = some (treeNode s d k p i, s) := by
  rw [← word_treeNode hk hi (hp 0).ne_zero, hj]
  exact lookupSingle_run (hp (k + 1)) (hj ▸ Nat.mod_lt _ (by decide))

theorem lookupDouble_run (hp : ∀ k, DataBlock (treeNode s 2 k node.iDoubleIndirect i))
    (hi : i < numOfDoubleIndirectBlockAddr)
    (hprev : prev = 0 ∨ (i % numOfAddressesPerBlock ≠ 0 →
      treeNode s 2 1 node.iDoubleIndirect i = prev)) :
    lookupDouble node i prev s =
      some ((treeNode s 2 0 node.iDoubleIndirect i,
        if i % numOfAddressesPerBlock ≠ 0 ∧ prev ≠ 0 then prev
        else treeNode s 2 1 node.iDoubleIndirect i), s) := by
  have hi' : i < numOfAddressesPerBlock ^ 2 := hi
  have hroot : treeNode s 2 2 node.iDoubleIndirect i = node.iDoubleIndirect :=
    PointerTree.nodeAt_top le_rfl _ _
  have htop := lookupSingle_node hp (show 1 < 2 by omega) hi'
    (show i / numOfAddressesPerBlock ^ 1 % numOfAddressesPerBlock = i / numOfAddressesPerBlock by
      rw [pow_one, Nat.mod_eq_of_lt (Nat.div_lt_of_lt_mul hi)])
  have hlow := lookupSingle_node hp (show 0 < 2 by omega) hi'
    (show i / numOfAddressesPerBlock ^ 0 % numOfAddressesPerBlock = i % numOfAddressesPerBlock by
      rw [pow_zero, Nat.div_one])
  have hne := (hp 2).ne_zero
  have hpos : ¬(treeNode s 2 1 node.iDoubleIndirect i).toInt ≤ 0 := by
    have := (hp 1).pos
    omega
  rw [hroot] at hne htop
  by_cases hcond : i % numOfAddressesPerBlock ≠ 0 ∧ prev ≠ 0
  · rcases hprev with hprev | hprev
    · exact absurd hprev hcond.2
    · rw [hprev hcond.1] at hlow
      simp only [lookupDouble, hne, if_false, if_pos hcond, Prog.bind_of_eq hlow, Prog.pure_apply]
  · simp only [lookupDouble, hne, if_false, if_neg hcond, Prog.bind_of_eq htop, hpos,
      Prog.bind_of_eq hlow, Prog.pure_apply]

theorem lookupTriple_run (hp : ∀ k, DataBlock (treeNode s 3 k node.iTripleIndirect i))
    (hi : i < numOfTripleIndirectBlockAddr)
    (hprev : prev = 0 ∨ (i % numOfAddressesPerBlock ≠ 0 →
      treeNode s 3 1 node.iTripleIndirect i = prev)) :
    lookupTriple node i prev s =
      some ((treeNode s 3 0 node.iTripleIndirect i,
        if i % numOfAddressesPerBlock ≠ 0 ∧ prev ≠ 0 then prev
        else treeNode s 3 1 node.iTripleIndirect i), s) := by
  have hi' : i < numOfAddressesPerBlock ^ 3 := hi
  have hroot : treeNode s 3 3 node.iTripleIndirect i = node.iTripleIndirect :=
    PointerTree.nodeAt_top le_rfl _ _
  have htop := lookupSingle_node hp (show 2 < 3 by omega) hi'
    (show i / numOfAddressesPerBlock ^ 2 % numOfAddressesPerBlock =
        i / numOfDoubleIndirectBlockAddr from Nat.mod_eq_of_lt (Nat.div_lt_of_lt_mul hi))
  have hmid := lookupSingle_node hp (show 1 < 3 by omega) hi'
    (show i / numOfAddressesPerBlock ^ 1 % numOfAddressesPerBlock =
        i / numOfAddressesPerBlock % numOfAddressesPerBlock by rw [pow_one])
  have hlow := lookupSingle_node hp (show 0 < 3 by omega) hi'
    (show i / numOfAddressesPerBlock ^ 0 % numOfAddressesPerBlock = i % numOfAddressesPerBlock by
      rw [pow_zero, Nat.div_one])
  have hne := (hp 3).ne_zero
  have hpos : ∀ k, ¬(treeNode s 3 k node.iTripleIndirect i).toInt ≤ 0 := by
    intro k
    have := (hp k).pos
    omega
  rw [hroot] at hne htop
  by_cases hcond : i % numOfAddressesPerBlock ≠ 0 ∧ prev ≠ 0
  · rcases hprev with hprev | hprev
    · exact absurd hprev hcond.2
    · rw [hprev hcond.1] at hlow
      simp only [lookupTriple, hne, if_false, if_pos hcond, Prog.bind_of_eq hlow, Prog.pure_apply]
  · simp only [lookupTriple, hne, if_false, if_neg hcond, Prog.bind_of_eq htop, hpos,
      Prog.bind_of_eq hmid, Prog.bind_of_eq hlow, Prog.pure_apply]

omit [Config] in
/-- The remembered address block is still right one position on. -/
private theorem prevValid_succ {e : Nat} (hlow : 2 ≤ e) (hhigh : e ≤ 3) (hi : levelStart e ≤ i)
    (hi' : i < levelStart (e + 1)) :
    PrevValid s node (i + 1) (treeNode s e 1 (node.root e) (i - levelStart e)) := by
  refine .inr fun d hlow' hhigh' hd hd' hrest => ?_
  have hde : d = e := by
    by_contra hne
    rcases Nat.lt_or_gt_of_ne hne with hlt | hgt
    · have := levelStart_mono (show d + 1 ≤ e by omega) (by omega) (by omega)
      omega
    · have := levelStart_mono (show e + 1 ≤ d by omega) (by omega) (by omega)
      exact hrest (by rw [show i + 1 - levelStart d = 0 by omega, Nat.zero_mod])
  subst hde
  refine (PointerTree.nodeAt_eq_of_div_eq (by omega) ?_).symm
  rw [show i + 1 - levelStart d = (i - levelStart d) + 1 by omega] at hrest ⊢
  rw [Nat.succ_div, if_neg fun hdvd => hrest (Nat.mod_eq_zero_of_dvd (by rwa [pow_one] at hdvd)),
    add_zero]

/-- Looking up a position reads only the address blocks on the path to it. -/
theorem getDiskBlockFromInodeBlock_path (hmax : i < maxBlocksNum)
    (hpath : ∀ d, 1 ≤ d → d ≤ 3 → levelStart d ≤ i → i < levelStart (d + 1) →
      ∀ k, DataBlock (treeNode s d k (node.root d) (i - levelStart d)))
    (hi : (i : Int) < node.iBlocksNum.toInt) (hprev : PrevValid s node i prev) :
    ∃ prev', getDiskBlockFromInodeBlock node i prev s = some ((node.blockAt s i, prev'), s) ∧
      PrevValid s node (i + 1) prev' := by
  have hbound : ¬(i : Int) > node.iBlocksNum.toInt := by omega
  by_cases hdirect : i < numOfDirectBlocks
  · refine ⟨prev, ?_, ?_⟩
    · rw [Inode.blockAt_direct hdirect]
      simp only [getDiskBlockFromInodeBlock, hbound, hdirect, if_false, if_true, Prog.pure_apply]
    · refine .inr fun d hlow hhigh hd => ?_
      have := levelStart_mono (show 2 ≤ d by omega) (by omega) (by omega)
      simp only [levelStart, numOfDirectBlocks] at *
      omega
  obtain ⟨d, hlow, hhigh, hd, hd'⟩ := level_exists (by omega) hmax
  rw [Inode.blockAt_tree hlow hhigh hd hd']
  have hsize := levelStart_succ hlow hhigh
  have hnodes := hpath d hlow hhigh hd hd'
  obtain rfl | hd2 : d = 1 ∨ 2 ≤ d := by omega
  · have hpos : i - levelStart 1 = i - numOfDirectBlocks := rfl
    have hend : i < levelStart 2 := hd'
    have hsingle : i - numOfDirectBlocks < numOfAddressesPerBlock := by
      rw [pow_one] at hsize
      omega
    have hroot : treeNode s 1 1 (node.root 1) (i - levelStart 1) = node.iSingleIndirect :=
      PointerTree.nodeAt_top le_rfl _ _
    have hlookup := lookupSingle_node hnodes (show 0 < 1 by omega) (by omega)
      (show (i - levelStart 1) / numOfAddressesPerBlock ^ 0 % numOfAddressesPerBlock =
        i - numOfDirectBlocks by rw [pow_zero, Nat.div_one, hpos, Nat.mod_eq_of_lt hsingle])
    have hzero := (hnodes 1).ne_zero
    rw [hroot] at hlookup hzero
    refine ⟨prev, ?_, ?_⟩
    · simp only [getDiskBlockFromInodeBlock, hbound, hdirect, hsingle, hzero, if_false, if_true,
        Prog.bind_of_eq hlookup, Prog.pure_apply]
    · refine .inr fun d hlow hhigh hd hd' hrest => absurd ?_ hrest
      have := levelStart_mono (show 2 ≤ d by omega) (by omega) (by omega)
      rw [show i + 1 - levelStart d = 0 by omega, Nat.zero_mod]
  have hsingle : ¬i - numOfDirectBlocks < numOfAddressesPerBlock := by
    have := levelStart_mono (show 2 ≤ d by omega) (by omega) (by omega)
    simp only [levelStart, numOfDirectBlocks, numOfAddressesPerBlock] at *
    omega
  have hprev' : prev = 0 ∨ ((i - levelStart d) % numOfAddressesPerBlock ≠ 0 →
      treeNode s d 1 (node.root d) (i - levelStart d) = prev) :=
    hprev.imp_right fun h => h d hd2 hhigh hd hd'
  have hkeep : PrevValid s node (i + 1)
      (if (i - levelStart d) % numOfAddressesPerBlock ≠ 0 ∧ prev ≠ 0 then prev
        else treeNode s d 1 (node.root d) (i - levelStart d)) := by
    split
    · next hcond =>
        rw [← hprev'.resolve_left hcond.2 hcond.1]
        exact prevValid_succ hd2 hhigh hd hd'
    · exact prevValid_succ hd2 hhigh hd hd'
  refine ⟨_, ?_, hkeep⟩
  obtain rfl | rfl : d = 2 ∨ d = 3 := by omega
  · have hpos : i - levelStart 2 = i - numOfDirectBlocks - numOfAddressesPerBlock := by
      simp only [levelStart, numOfDirectBlocks, numOfAddressesPerBlock]
      omega
    have hdouble : i - numOfDirectBlocks - numOfAddressesPerBlock <
        numOfDoubleIndirectBlockAddr := by
      simp only [levelStart, numOfDirectBlocks, numOfAddressesPerBlock,
        numOfDoubleIndirectBlockAddr] at *
      omega
    rw [hpos] at hnodes hprev' ⊢
    simp only [getDiskBlockFromInodeBlock, hbound, hdirect, hsingle, hdouble, if_false, if_true]
    exact lookupDouble_run hnodes hdouble hprev'
  · have hpos : i - levelStart 3 = i - numOfDirectBlocks - numOfAddressesPerBlock -
        numOfDoubleIndirectBlockAddr := by
      simp only [levelStart, numOfDirectBlocks, numOfAddressesPerBlock,
        numOfDoubleIndirectBlockAddr]
      omega
    have hdouble : ¬i - numOfDirectBlocks - numOfAddressesPerBlock <
        numOfDoubleIndirectBlockAddr := by
      simp only [levelStart, numOfDirectBlocks, numOfAddressesPerBlock,
        numOfDoubleIndirectBlockAddr] at *
      omega
    have htriple : i - numOfDirectBlocks - numOfAddressesPerBlock -
        numOfDoubleIndirectBlockAddr < numOfTripleIndirectBlockAddr := by
      simp only [levelStart, numOfDirectBlocks, numOfAddressesPerBlock,
        numOfDoubleIndirectBlockAddr, numOfTripleIndirectBlockAddr] at *
      omega
    rw [hpos] at hnodes hprev' ⊢
    simp only [getDiskBlockFromInodeBlock, hbound, hdirect, hsingle, hdouble, if_false]
    exact lookupTriple_run hnodes htriple hprev'

/-- Looking up a position of the file. -/
theorem getDiskBlockFromInodeBlock_run (hdata : ∀ b ∈ node.blocks s, DataBlock b)
    (hmapped : node.Mapped s)
    (hi : (i : Int) < node.iBlocksNum.toInt) (hprev : PrevValid s node i prev) :
    ∃ prev', getDiskBlockFromInodeBlock node i prev s = some ((node.blockAt s i, prev'), s) ∧
      PrevValid s node (i + 1) prev' := by
  have hne := hmapped.blockAt_ne_zero i hi
  apply getDiskBlockFromInodeBlock_path _ _ hi hprev
  · by_contra hge
    exact hne (Inode.blockAt_of_ge (by omega))
  · intro d hlow hhigh hd hd'
    have hsize := levelStart_succ hlow hhigh
    rw [Inode.blockAt_tree hlow hhigh hd hd'] at hne
    exact treeNode_dataBlock hdata hlow hhigh (by omega) hne

theorem getDiskBlockFromInodeBlock_spec (howned : Owned s free held)
    (hle : node.blocks s ≤ held) (hmapped : node.Mapped s)
    (hi : (i : Int) < node.iBlocksNum.toInt) (hprev : PrevValid s node i prev) :
    ∃ prev', getDiskBlockFromInodeBlock node i prev s = some ((node.blockAt s i, prev'), s) ∧
      PrevValid s node (i + 1) prev' :=
  getDiskBlockFromInodeBlock_run (fun b hb => howned.data b (Multiset.mem_of_le hle hb)) hmapped
    hi hprev

end Lookup

end AltFs
