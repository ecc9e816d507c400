import AltFs.BlockMap

/-!
# The blocks of a file

An inode owns the blocks in its direct slots and in its three trees.  Position
`i` of the file lies in the direct slots or in one of the trees.
-/

namespace AltFs

/-- The position of the file at which level `d` starts. -/
def levelStart : Nat → Nat
  | 0 => 0
  | 1 => 12
  | 2 => 524
  | 3 => 262668
  | _ => 134480396

/-- The largest number of blocks of a file. -/
@[irreducible] def maxBlocksNum : Nat := 134480396

namespace Inode

/-- The indirect pointer of level `d`. -/
def root (node : Inode) : Nat → Int64
  | 1 => node.iSingleIndirect
  | 2 => node.iDoubleIndirect
  | 3 => node.iTripleIndirect
  | _ => 0

def setRoot (node : Inode) (d : Nat) (p : Int64) : Inode :=
  match d with
  | 1 => { node with iSingleIndirect := p }
  | 2 => { node with iDoubleIndirect := p }
  | 3 => { node with iTripleIndirect := p }
  | _ => node

/-- All blocks of the file, data blocks and indirect blocks. -/
def blocks (s : FileSystem) (node : Inode) : Multiset Int64 :=
  ∑ i ∈ Finset.range numOfDirectBlocks, cell (node.direct i) +
    ∑ j ∈ Finset.range 3, treeCells s (j + 1) (node.root (j + 1))

/-- The indirect blocks of the file. -/
def indirect (s : FileSystem) (node : Inode) : Multiset Int64 :=
  ∑ j ∈ Finset.range 3, treeInner s (j + 1) (node.root (j + 1))

/-- The blocks of the file outside tree `d`. -/
def blocksExcept (s : FileSystem) (node : Inode) (d : Nat) : Multiset Int64 :=
  ∑ i ∈ Finset.range numOfDirectBlocks, cell (node.direct i) +
    ∑ j ∈ (Finset.range 3).erase (d - 1), treeCells s (j + 1) (node.root (j + 1))

/-- The block at position `i` of the file. -/
def blockAt (s : FileSystem) (node : Inode) (i : Nat) : Int64 :=
  if i < levelStart 1 then node.direct i
  else if i < levelStart 2 then treeNode s 1 0 (node.root 1) (i - levelStart 1)
  else if i < levelStart 3 then treeNode s 2 0 (node.root 2) (i - levelStart 2)
  else if i < maxBlocksNum then treeNode s 3 0 (node.root 3) (i - levelStart 3)
  else 0

/-- Every position of the file has a block. -/
structure Mapped (s : FileSystem) (node : Inode) : Prop where
  nonneg : 0 ≤ node.iBlocksNum.toInt
  blockAt_ne_zero : ∀ i : Nat, (i : Int) < node.iBlocksNum.toInt → node.blockAt s i ≠ 0

/-- The block map of a file of `n` blocks, with no pointer past its end. -/
structure Filled (s : FileSystem) (node : Inode) (n : Nat) : Prop where
  direct : ∀ i < numOfDirectBlocks, node.direct i ≠ 0 ↔ i < n
  tree : ∀ d, 1 ≤ d → d ≤ 3 →
    PointerTree.Filled numOfAddressesPerBlock s.words d (node.root d) (n - levelStart d)

/-- A block map without blocks. -/
structure EmptyMap (node : Inode) : Prop where
  blocksNum : node.iBlocksNum = 0
  direct : ∀ i, node.direct i = 0
  root : ∀ d, node.root d = 0

/-- The inode with the block map of `map`. -/
def withMap (node map : Inode) : Inode :=
  { node with
    iBlocksNum := map.iBlocksNum
    iDirectBlocks := map.iDirectBlocks
    iSingleIndirect := map.iSingleIndirect
    iDoubleIndirect := map.iDoubleIndirect
    iTripleIndirect := map.iTripleIndirect }

section Accessors

variable {s : FileSystem} {node : Inode} {d d' : Nat} {p : Int64}

private theorem level_cases (hlow : 1 ≤ d) (hhigh : d ≤ 3) : d = 1 ∨ d = 2 ∨ d = 3 := by
  omega

theorem root_setRoot_self (hlow : 1 ≤ d) (hhigh : d ≤ 3) : (node.setRoot d p).root d = p := by
  rcases level_cases hlow hhigh with rfl | rfl | rfl <;> rfl

theorem root_setRoot_ne (h : d' ≠ d) : (node.setRoot d p).root d' = node.root d' := by
  unfold setRoot
  split <;> (unfold root; split <;> simp_all)

@[simp] theorem direct_setRoot (i : Nat) : (node.setRoot d p).direct i = node.direct i := by
  unfold setRoot
  split <;> rfl

@[simp] theorem iBlocksNum_setRoot : (node.setRoot d p).iBlocksNum = node.iBlocksNum := by
  unfold setRoot
  split <;> rfl

@[simp] theorem root_withBlocksNum (n : Int) : (node.withBlocksNum n).root d = node.root d := rfl

@[simp] theorem direct_withBlocksNum (n : Int) (i : Nat) :
    (node.withBlocksNum n).direct i = node.direct i := rfl

theorem EmptyMap.blocks_eq_zero (h : node.EmptyMap) (s : FileSystem) : node.blocks s = 0 := by
  rw [blocks, Finset.sum_eq_zero, Finset.sum_eq_zero, add_zero]
  · intro j _
    rw [h.root, treeCells, PointerTree.cells_zero]
  · intro i _
    rw [h.direct, cell_zero]

theorem EmptyMap.mapped (h : node.EmptyMap) (s : FileSystem) : node.Mapped s := by
  refine ⟨by rw [h.blocksNum]; decide, fun i hi => ?_⟩
  rw [h.blocksNum] at hi
  have : (i : Int) < 0 := hi
  omega

theorem EmptyMap.filled (h : node.EmptyMap) (s : FileSystem) : node.Filled s 0 where
  direct i _ := by simp [h.direct]
  tree d _ _ := by
    rw [h.root, Nat.zero_sub]
    exact PointerTree.Filled.empty d

theorem withMap_setRoot : node.withMap (node.setRoot d p) = node.setRoot d p := by
  unfold setRoot
  split <;> rfl

theorem withMap_blockAdded :
    node.withMap (node.setRoot d p).blockAdded = (node.setRoot d p).blockAdded := by
  unfold setRoot
  split <;> rfl

theorem blocks_eq_of_withMap (node : Inode) {node' : Inode} (h : node' = node'.withMap node) :
    node'.blocks s = node.blocks s := by
  rw [h]
  rfl

theorem blockAt_eq_of_withMap {node' : Inode} (h : node' = node'.withMap node) (i : Nat) :
    node'.blockAt s i = node.blockAt s i := by
  rw [h]
  rfl

theorem Mapped.of_withMap {node' : Inode} (hmapped : node.Mapped s)
    (h : node' = node'.withMap node) : node'.Mapped s := by
  rw [h]
  exact ⟨hmapped.nonneg, hmapped.blockAt_ne_zero⟩

theorem Filled.of_withMap {node' : Inode} {n : Nat} (hfilled : node.Filled s n)
    (h : node' = node'.withMap node) : node'.Filled s n := by
  rw [h]
  exact ⟨hfilled.direct, hfilled.tree⟩

theorem Filled.withBlocksNum {n : Nat} (h : node.Filled s n) (k : Int) :
    (node.withBlocksNum k).Filled s n :=
  ⟨h.direct, h.tree⟩

theorem blockAt_direct {i : Nat} (h : i < numOfDirectBlocks) : node.blockAt s i = node.direct i := by
  have h : i < levelStart 1 := h
  rw [blockAt, if_pos h]

theorem blockAt_tree {i : Nat} (hlow : 1 ≤ d) (hhigh : d ≤ 3) (hi : levelStart d ≤ i)
    (hi' : i < levelStart (d + 1)) :
    node.blockAt s i = treeNode s d 0 (node.root d) (i - levelStart d) := by
  rcases level_cases hlow hhigh with rfl | rfl | rfl <;> simp only [levelStart] at hi hi'
  · rw [blockAt, levelStart, levelStart, if_neg (by omega), if_pos hi']
  · rw [blockAt, levelStart, levelStart, levelStart, if_neg (by omega), if_neg (by omega),
      if_pos hi']
  · rw [blockAt, levelStart, levelStart, levelStart, maxBlocksNum,
      if_neg (by omega), if_neg (by omega), if_neg (by omega), if_pos hi']

theorem blockAt_of_ge {i : Nat} (h : maxBlocksNum ≤ i) : node.blockAt s i = 0 := by
  simp only [maxBlocksNum] at h
  rw [blockAt, levelStart, levelStart, levelStart, maxBlocksNum,
    if_neg (by omega), if_neg (by omega), if_neg (by omega), if_neg (by omega)]

end Accessors

end Inode

theorem levelStart_succ {d : Nat} (hlow : 1 ≤ d) (hhigh : d ≤ 3) :
    levelStart (d + 1) = levelStart d + numOfAddressesPerBlock ^ d := by
  obtain rfl | rfl | rfl : d = 1 ∨ d = 2 ∨ d = 3 := by omega
  all_goals rfl

theorem levelStart_mono {d d' : Nat} (h : d ≤ d') (hlow : 1 ≤ d) (hhigh : d' ≤ 4) :
    levelStart d ≤ levelStart d' := by
  obtain rfl | rfl | rfl | rfl : d = 1 ∨ d = 2 ∨ d = 3 ∨ d = 4 := by omega
  all_goals
    obtain rfl | rfl | rfl | rfl : d' = 1 ∨ d' = 2 ∨ d' = 3 ∨ d' = 4 := by omega
    all_goals first | decide | omega

theorem numOfDirectBlocks_le_levelStart {d : Nat} (h : 1 ≤ d) : numOfDirectBlocks ≤ levelStart d := by
  match d with
  | 0 => omega
  | 1 | 2 | 3 | d + 4 => simp only [levelStart]; decide

/-- How many indirect blocks the block at position `n` of a file needs. -/
def blockCost (n : Nat) : Nat :=
  if n < levelStart 1 then 0
  else if n < levelStart 2 then branchCost 1 (n - levelStart 1)
  else if n < levelStart 3 then branchCost 2 (n - levelStart 2)
  else branchCost 3 (n - levelStart 3)

theorem blockCost_tree {d n : Nat} (hlow : 1 ≤ d) (hhigh : d ≤ 3) (hn : levelStart d ≤ n)
    (hn' : n < levelStart (d + 1)) : blockCost n = branchCost d (n - levelStart d) := by
  obtain rfl | rfl | rfl : d = 1 ∨ d = 2 ∨ d = 3 := by omega
  all_goals simp only [levelStart] at hn hn'
  · rw [blockCost, levelStart, levelStart, if_neg (by omega), if_pos hn']
  · rw [blockCost, levelStart, levelStart, levelStart, if_neg (by omega), if_neg (by omega),
      if_pos hn']
  · rw [blockCost, levelStart, levelStart, levelStart, if_neg (by omega), if_neg (by omega),
      if_neg (by omega)]

theorem blockCost_le (n : Nat) : blockCost n ≤ 3 := by
  have hone := branchCost_le 1
  have htwo := branchCost_le 2
  have hthree := branchCost_le 3
  unfold blockCost
  split
  · exact Nat.zero_le 3
  · split
    · exact (hone _).trans (by omega)
    · split
      · exact (htwo _).trans (by omega)
      · exact hthree _

section

variable [Config]

/-- The outcome of adding block `b` to the end of the file `node₀` of `s₀`. -/
structure BlockAdded (b : Int64) (rest free₀ : Multiset Int64) (s₀ : FileSystem) (node₀ : Inode)
    (added : Bool) (s : FileSystem) (node : Inode) (free : Multiset Int64) : Prop where
  owned : Owned s free ((if added then 0 else {b}) + (node.blocks s + rest))
  frame : DataFrame (free₀ + node₀.indirect s₀) s₀ s
  withMap : node = node₀.withMap node
  blocksNum : node.iBlocksNum.toInt = node₀.iBlocksNum.toInt + if added then 1 else 0
  blockAt_lt : ∀ i : Nat, (i : Int) < node₀.iBlocksNum.toInt →
    node.blockAt s i = node₀.blockAt s₀ i
  old : ∀ i : Nat, (i : Int) < node₀.iBlocksNum.toInt → node₀.blockAt s i = node₀.blockAt s₀ i
  blockAt_new : added = true → ∀ i : Nat, (i : Int) = node₀.iBlocksNum.toInt →
    node.blockAt s i = b
  filled : added = true → ∀ n : Nat, (n : Int) = node₀.iBlocksNum.toInt →
    node₀.Filled s₀ n → node.Filled s (n + 1)
  cost : ∀ n : Nat, (n : Int) = node₀.iBlocksNum.toInt →
    if added then free₀.card = free.card + blockCost n
    else n < maxBlocksNum → free = 0 ∧ free₀.card < blockCost n
  conserved : ∀ n : Nat, (n : Int) = node₀.iBlocksNum.toInt → node₀.Filled s₀ n →
    free + node.blocks s = free₀ + node₀.blocks s₀ + if added then {b} else 0
  oldBlocks : ∀ n : Nat, (n : Int) = node₀.iBlocksNum.toInt → node₀.Filled s₀ n →
    node₀.blocks s ≤ node.blocks s

section Frame

variable {s s' : FileSystem} {node : Inode} {S : Multiset Int64} {d d' : Nat} {p : Int64}

omit [Config] in
theorem blocks_split (hlow : 1 ≤ d) (hhigh : d ≤ 3) :
    node.blocks s = treeCells s d (node.root d) + node.blocksExcept s d := by
  obtain ⟨j, rfl⟩ : ∃ j, d = j + 1 := ⟨d - 1, by omega⟩
  have hsum := Finset.add_sum_erase (Finset.range 3)
    (fun j => treeCells s (j + 1) (node.root (j + 1))) (Finset.mem_range.mpr (show j < 3 by omega))
  rw [Inode.blocks, Inode.blocksExcept, Nat.add_sub_cancel, ← hsum, add_left_comm]

omit [Config] in
theorem treeInner_le_blocksExcept (s : FileSystem) (node : Inode) (hlow : 1 ≤ d')
    (hhigh : d' ≤ 3) (hne : d' ≠ d) (hd : 1 ≤ d) :
    treeInner s d' (node.root d') ≤ node.blocksExcept s d := by
  obtain ⟨j, rfl⟩ : ∃ j, d' = j + 1 := ⟨d' - 1, by omega⟩
  have hmem : j ∈ (Finset.range 3).erase (d - 1) :=
    Finset.mem_erase.mpr ⟨by omega, Finset.mem_range.mpr (by omega)⟩
  have hle := Finset.single_le_sum (f := fun j => treeCells s (j + 1) (node.root (j + 1)))
    (fun _ _ => Multiset.zero_le _) hmem
  exact (PointerTree.inner_le_cells _ _).trans (hle.trans (Multiset.le_add_left _ _))

omit [Config] in
theorem treeInner_le_indirect (hlow : 1 ≤ d) (hhigh : d ≤ 3) :
    treeInner s d (node.root d) ≤ node.indirect s := by
  obtain ⟨j, rfl⟩ : ∃ j, d = j + 1 := ⟨d - 1, by omega⟩
  exact Finset.single_le_sum (f := fun j => treeInner s (j + 1) (node.root (j + 1)))
    (fun _ _ => Multiset.zero_le _) (Finset.mem_range.mpr (by omega))

omit [Config] in
theorem blocksExcept_setRoot (hlow : 1 ≤ d) :
    (node.setRoot d p).blocksExcept s d = node.blocksExcept s d := by
  have htrees : ∀ j ∈ (Finset.range 3).erase (d - 1),
      treeCells s (j + 1) ((node.setRoot d p).root (j + 1)) =
        treeCells s (j + 1) (node.root (j + 1)) := by
    intro j hj
    rw [Inode.root_setRoot_ne]
    have := (Finset.mem_erase.mp hj).1
    omega
  rw [Inode.blocksExcept, Inode.blocksExcept, Finset.sum_congr rfl htrees]
  simp only [Inode.direct_setRoot]

omit [Config] in
theorem blocksExcept_eq (hframe : DataFrame S s s') (hd : 1 ≤ d)
    (hin : ∀ a ∈ node.blocksExcept s d, a ≠ 0 ∧ a ∉ S) :
    node.blocksExcept s' d = node.blocksExcept s d := by
  have htrees : ∀ j ∈ (Finset.range 3).erase (d - 1),
      treeCells s' (j + 1) (node.root (j + 1)) = treeCells s (j + 1) (node.root (j + 1)) := by
    intro j hj
    have hne := (Finset.mem_erase.mp hj).1
    have hlt := Finset.mem_range.mp (Finset.mem_of_mem_erase hj)
    have hle := @treeInner_le_blocksExcept d (j + 1) s node (by omega) (by omega) (by omega) hd
    exact treeCells_eq hframe fun a ha => hin a (Multiset.mem_of_le hle ha)
  rw [Inode.blocksExcept, Inode.blocksExcept, Finset.sum_congr rfl htrees]

end Frame

omit [Config] in
theorem level_exists {i : Nat} (hlow : numOfDirectBlocks ≤ i) (hhigh : i < maxBlocksNum) :
    ∃ d, 1 ≤ d ∧ d ≤ 3 ∧ levelStart d ≤ i ∧ i < levelStart (d + 1) := by
  simp only [maxBlocksNum, numOfDirectBlocks] at hlow hhigh
  by_cases hsingle : i < 524
  · exact ⟨1, by omega, by omega, hlow, hsingle⟩
  by_cases hdouble : i < 262668
  · exact ⟨2, by omega, by omega, by simpa [levelStart] using hsingle, hdouble⟩
  · exact ⟨3, by omega, by omega, by simpa [levelStart] using hdouble, hhigh⟩

/-- The indirect blocks of the file have not changed. -/
def Inode.Kept (s s' : FileSystem) (node : Inode) : Prop :=
  ∀ a ∈ node.indirect s, s'.disk a = s.disk a

namespace Inode.Kept

variable {s s' : FileSystem} {node : Inode}

omit [Config] in
private theorem tree (h : node.Kept s s') {d : Nat} (hlow : 1 ≤ d) (hhigh : d ≤ 3) :
    ∀ a ∈ treeInner s d (node.root d), ∀ i < numOfAddressesPerBlock,
      s'.words a i = s.words a i := by
  intro a ha i _
  rw [FileSystem.words, h a (Multiset.mem_of_le (treeInner_le_indirect hlow hhigh) ha)]
  rfl

omit [Config] in
theorem blocks (h : node.Kept s s') : node.blocks s' = node.blocks s := by
  have htrees : ∀ j ∈ Finset.range 3,
      treeCells s' (j + 1) (node.root (j + 1)) = treeCells s (j + 1) (node.root (j + 1)) := by
    intro j hj
    have hj := Finset.mem_range.mp hj
    exact PointerTree.gather_congr (h.tree (by omega) (by omega))
  rw [Inode.blocks, Inode.blocks, Finset.sum_congr rfl htrees]

omit [Config] in
theorem indirect (h : node.Kept s s') : node.indirect s' = node.indirect s := by
  have htrees : ∀ j ∈ Finset.range 3,
      treeInner s' (j + 1) (node.root (j + 1)) = treeInner s (j + 1) (node.root (j + 1)) := by
    intro j hj
    have hj := Finset.mem_range.mp hj
    exact PointerTree.gather_congr (h.tree (by omega) (by omega))
  rw [Inode.indirect, Inode.indirect, Finset.sum_congr rfl htrees]

omit [Config] in
theorem blockAt (h : node.Kept s s') (i : Nat) : node.blockAt s' i = node.blockAt s i := by
  by_cases hdirect : i < numOfDirectBlocks
  · rw [Inode.blockAt_direct hdirect, Inode.blockAt_direct hdirect]
  by_cases hmax : i < maxBlocksNum
  · obtain ⟨d, hlow, hhigh, hd, hd'⟩ := level_exists (i := i) (by omega) hmax
    have hsize := levelStart_succ hlow hhigh
    rw [Inode.blockAt_tree hlow hhigh hd hd', Inode.blockAt_tree hlow hhigh hd hd']
    exact PointerTree.nodeAt_congr (by omega) (h.tree hlow hhigh)
  · rw [Inode.blockAt_of_ge (by omega), Inode.blockAt_of_ge (by omega)]

omit [Config] in
theorem treeNode (h : node.Kept s s') {d k i : Nat} (hlow : 1 ≤ d) (hhigh : d ≤ 3)
    (hi : i < numOfAddressesPerBlock ^ d) :
    treeNode s' d k (node.root d) i = treeNode s d k (node.root d) i :=
  PointerTree.nodeAt_congr hi (h.tree hlow hhigh)

omit [Config] in
theorem mapped (h : node.Kept s s') (hmapped : node.Mapped s) : node.Mapped s' where
  nonneg := hmapped.nonneg
  blockAt_ne_zero i hi := by
    rw [h.blockAt]
    exact hmapped.blockAt_ne_zero i hi

omit [Config] in
theorem filled (h : node.Kept s s') {n : Nat} (hfilled : node.Filled s n) :
    node.Filled s' n where
  direct := hfilled.direct
  tree d hlow hhigh := (hfilled.tree d hlow hhigh).congr (h.tree hlow hhigh)

end Inode.Kept

omit [Config] in
theorem indirect_le_blocks (s : FileSystem) (node : Inode) : node.indirect s ≤ node.blocks s :=
  (Finset.sum_le_sum fun _ _ => PointerTree.inner_le_cells _ _).trans (Multiset.le_add_left _ _)

/-- Held blocks that a change does not touch are kept. -/
theorem Owned.kept {s s' : FileSystem} {node : Inode} {free held S : Multiset Int64}
    (h : Owned s free held) (hle : node.blocks s ≤ held) (hframe : DataFrame S s s')
    (hS : ∀ a ∈ node.indirect s, a ∉ S) : node.Kept s s' := fun a ha =>
  h.disk_eq hframe (Multiset.mem_of_le ((indirect_le_blocks s node).trans hle) ha) (hS a ha)

section AddBlock

variable {s s' : FileSystem} {node : Inode} {free free' rest : Multiset Int64} {b p : Int64}
  {d n : Nat} {added : Bool}

omit [Config] in
theorem toInt_blockAdded (node : Inode) (hn : (n : Int) = node.iBlocksNum.toInt)
    (hlt : n < maxBlocksNum) :
    node.blockAdded.iBlocksNum.toInt = node.iBlocksNum.toInt + 1 := by
  simp only [maxBlocksNum] at hlt
  simp only [Inode.blockAdded, Inode.withBlocksNum]
  exact Int64.toInt_ofInt_of_le (by omega) (by omega)

/-- Blocks held beside one tree are outside the free list and that tree. -/
theorem Owned.outside (h : Owned s free (b ::ₘ (treeCells s d p + rest))) {a : Int64}
    (ha : a ∈ rest) : a ≠ 0 ∧ a ∉ free + treeInner s d p := by
  have hheld : a ∈ b ::ₘ (treeCells s d p + rest) :=
    Multiset.mem_cons_of_mem (Multiset.mem_add.mpr (.inr ha))
  refine ⟨(h.data a hheld).ne_zero, fun hmem => ?_⟩
  rcases Multiset.mem_add.mp hmem with hfree | hinner
  · exact h.not_free hheld hfree
  · have hnodup := (Multiset.nodup_cons.mp h.held_nodup).2
    exact Multiset.disjoint_left.mp (Multiset.nodup_add.mp hnodup).2.2
      (mem_treeCells_of_mem_treeInner hinner) ha

/-- Adding a block to one of the trees. -/
theorem BlockAdded.of_branch (hlow : 1 ≤ d) (hhigh : d ≤ 3)
    (howned : Owned s free (b ::ₘ (node.blocks s + rest))) (hn : (n : Int) = node.iBlocksNum.toInt)
    (hstart : levelStart d ≤ n) (hend : n < levelStart (d + 1))
    (h : BranchAdded d (n - levelStart d) b (node.blocksExcept s d + rest) free s (node.root d)
      added s' p free') :
    BlockAdded b rest free s node added s'
      (if added then (node.setRoot d p).blockAdded else node.setRoot d p) free' := by
  have hmax : n < maxBlocksNum := by
    obtain rfl | rfl | rfl : d = 1 ∨ d = 2 ∨ d = 3 := by omega
    all_goals simp only [levelStart, maxBlocksNum] at hend ⊢; omega
  rw [blocks_split hlow hhigh, add_assoc] at howned
  have hout : ∀ a ∈ node.blocksExcept s d, a ≠ 0 ∧ a ∉ free + treeInner s d (node.root d) :=
    fun a ha => howned.outside (Multiset.mem_add.mpr (.inl ha))
  have hframe := h.growing.frame
  have htree : ∀ d', 1 ≤ d' → d' ≤ 3 → d' ≠ d →
      ∀ a ∈ treeInner s d' (node.root d'), ∀ i < numOfAddressesPerBlock,
        s'.words a i = s.words a i := by
    intro d' hlow' hhigh' hne a ha i _
    have ha := hout a (Multiset.mem_of_le
      (treeInner_le_blocksExcept s node hlow' hhigh' hne hlow) ha)
    rw [hframe.words ha.1 ha.2]
  have hblocks : (node.setRoot d p).blocks s' =
      treeCells s' d p + node.blocksExcept s d := by
    rw [blocks_split hlow hhigh, Inode.root_setRoot_self hlow hhigh, blocksExcept_setRoot hlow,
      blocksExcept_eq hframe hlow hout]
  have hdirect := numOfDirectBlocks_le_levelStart hlow
  have hsize := levelStart_succ hlow hhigh
  have hat : ∀ i < n, (node.setRoot d p).blockAt s' i = node.blockAt s i := by
    intro i hi
    by_cases hdir : i < numOfDirectBlocks
    · rw [Inode.blockAt_direct hdir, Inode.blockAt_direct hdir, Inode.direct_setRoot]
    obtain ⟨d', hlow', hhigh', hi₁, hi₂⟩ := level_exists (i := i) (by omega) (by omega)
    have hsize' := levelStart_succ hlow' hhigh'
    rw [Inode.blockAt_tree hlow' hhigh' hi₁ hi₂, Inode.blockAt_tree hlow' hhigh' hi₁ hi₂]
    by_cases hd : d' = d
    · subst hd
      rw [Inode.root_setRoot_self hlow hhigh]
      exact h.leaf_lt _ (by omega) (by omega)
    · rw [Inode.root_setRoot_ne hd]
      exact PointerTree.nodeAt_congr (by omega) (htree d' hlow' hhigh' hd)
  have hold : ∀ i < n, node.blockAt s' i = node.blockAt s i := by
    intro i hi
    rw [← hat i hi]
    by_cases hdir : i < numOfDirectBlocks
    · rw [Inode.blockAt_direct hdir, Inode.blockAt_direct hdir, Inode.direct_setRoot]
    obtain ⟨d', hlow', hhigh', hi₁, hi₂⟩ := level_exists (i := i) (by omega) (by omega)
    rw [Inode.blockAt_tree hlow' hhigh' hi₁ hi₂, Inode.blockAt_tree hlow' hhigh' hi₁ hi₂]
    by_cases hd : d' = d
    · subst hd
      rw [Inode.root_setRoot_self hlow hhigh, h.root (by omega)]
    · rw [Inode.root_setRoot_ne hd]
  have hnew : added = true → (node.setRoot d p).blockAt s' n = b := by
    intro hadded
    rw [Inode.blockAt_tree hlow hhigh hstart hend, Inode.root_setRoot_self hlow hhigh]
    exact h.leaf hadded
  have hfilled : added = true → node.Filled s n → (node.setRoot d p).Filled s' (n + 1) := by
    intro hadded hfull
    constructor
    · intro i hi
      rw [Inode.direct_setRoot, hfull.direct i hi]
      omega
    · intro d' hlow' hhigh'
      have hsize' := levelStart_succ hlow' hhigh'
      by_cases hd : d' = d
      · subst hd
        rw [Inode.root_setRoot_self hlow hhigh, show n + 1 - levelStart d' =
          n - levelStart d' + 1 by omega]
        exact h.filled hadded (hfull.tree d' hlow hhigh)
      · rw [Inode.root_setRoot_ne hd]
        have hkeep := (hfull.tree d' hlow' hhigh').congr (htree d' hlow' hhigh' hd)
        by_cases hlt : d' < d
        · have := levelStart_mono (show d' + 1 ≤ d by omega) (by omega) (by omega)
          exact hkeep.of_full (by omega) (by omega)
        · have := levelStart_mono (show d + 1 ≤ d' by omega) (by omega) (by omega)
          rwa [show n + 1 - levelStart d' = n - levelStart d' by omega]
  have hkeep : DataFrame (free + node.indirect s) s s' :=
    hframe.mono fun a ha => by
      rcases Multiset.mem_add.mp ha with ha | ha
      · exact Multiset.mem_add.mpr (.inl ha)
      · exact Multiset.mem_add.mpr
          (.inr (Multiset.mem_of_le (treeInner_le_indirect hlow hhigh) ha))
  have hgrown := h.growing.owned
  have hcost := h.cost
  rw [← add_assoc (treeCells s' d p), ← hblocks] at hgrown
  rw [← blockCost_tree hlow hhigh hstart hend] at hcost
  have hcount : ∀ k : Nat, (k : Int) = node.iBlocksNum.toInt → k = n := fun k hk => by omega
  have hconserved : node.Filled s n → free' + (node.setRoot d p).blocks s' =
      free + node.blocks s + if added then {b} else 0 := by
    intro hfull
    rw [hblocks, blocks_split hlow hhigh, ← add_assoc, ← add_assoc,
      h.conserved (hfull.tree d hlow hhigh), add_right_comm]
  have holdBlocks : node.Filled s n → node.blocks s' ≤ (node.setRoot d p).blocks s' := by
    intro hfull
    rw [blocks_split hlow hhigh, hblocks, blocksExcept_eq hframe hlow hout]
    by_cases hm : n - levelStart d = 0
    · have hempty := hfull.tree d hlow hhigh
      rw [hm] at hempty
      rw [hempty.root_eq_zero (by decide), treeCells_zero, zero_add]
      exact Multiset.le_add_left _ _
    · rw [h.root hm]
  cases added with
  | true =>
      show BlockAdded b rest free s node true s' (node.setRoot d p).blockAdded free'
      refine ⟨hgrown, hkeep, Inode.withMap_blockAdded.symm, ?_, fun i hi => hat i (by omega),
        fun i hi => hold i (by omega), fun _ i hi => ?_, fun _ k hk => ?_, fun k hk => ?_,
        fun k hk => ?_, fun k hk => ?_⟩
      · rw [toInt_blockAdded _ (by rw [Inode.iBlocksNum_setRoot]; exact hn) hmax,
          Inode.iBlocksNum_setRoot, if_pos rfl]
      · obtain rfl := hcount i hi
        exact hnew rfl
      · obtain rfl := hcount k hk
        exact fun hfull => (hfilled rfl hfull).withBlocksNum _
      · obtain rfl := hcount k hk
        exact hcost
      · obtain rfl := hcount k hk
        exact hconserved
      · obtain rfl := hcount k hk
        exact holdBlocks
  | false =>
      show BlockAdded b rest free s node false s' (node.setRoot d p) free'
      refine ⟨hgrown, hkeep, Inode.withMap_setRoot.symm, ?_, fun i hi => hat i (by omega),
        fun i hi => hold i (by omega), fun h => absurd h (by simp), fun h => absurd h (by simp),
        fun k hk => ?_,
        fun k hk => ?_, fun k hk => ?_⟩
      · rw [Inode.iBlocksNum_setRoot]
        exact (add_zero _).symm
      · obtain rfl := hcount k hk
        exact fun _ => hcost
      · obtain rfl := hcount k hk
        exact hconserved
      · obtain rfl := hcount k hk
        exact holdBlocks

omit [Config] in
theorem Inode.Mapped.tree (h : node.Mapped s) (hn : (n : Int) = node.iBlocksNum.toInt)
    (hlow : 1 ≤ d) (hhigh : d ≤ 3) : TreeMapped s d (node.root d) (n - levelStart d) := by
  intro i hi hlt
  have hne := h.blockAt_ne_zero (levelStart d + i) (by omega)
  have hsize := levelStart_succ hlow hhigh
  rwa [Inode.blockAt_tree hlow hhigh (by omega) (by omega), Nat.add_sub_cancel_left] at hne

omit [Config] in
theorem direct_setDirect (i j : Nat) (hj : j < numOfDirectBlocks) :
    (node.setDirect i p).direct j = if j = i then p else node.direct j := by
  have hj : j < 12 := hj
  simp [Inode.direct, Inode.setDirect, hj]

omit [Config] in
theorem blockAt_setDirect (i j : Nat) :
    (node.setDirect i p).blockAt s j =
      if j = i ∧ j < numOfDirectBlocks then p else node.blockAt s j := by
  by_cases hj : j < numOfDirectBlocks
  · rw [Inode.blockAt_direct hj, Inode.blockAt_direct hj, direct_setDirect i j hj]
    simp [hj]
  · have hj' : ¬j < levelStart 1 := hj
    rw [if_neg fun h => hj h.2, Inode.blockAt, if_neg hj', Inode.blockAt, if_neg hj']
    rfl

/-- Adding a block to a direct slot. -/
theorem BlockAdded.of_direct (howned : Owned s free (b ::ₘ (node.blocks s + rest)))
    (hn : (n : Int) = node.iBlocksNum.toInt) (hlt : n < numOfDirectBlocks) :
    BlockAdded b rest free s node true s (node.setDirect n b).blockAdded free := by
  have hsum := sum_add_of_eq_off (s := Finset.range numOfDirectBlocks)
    (f := fun i => cell (node.direct i)) (g := fun i => cell ((node.setDirect n b).direct i))
    (Finset.mem_range.mpr hlt) fun i hi hne => by
      show cell _ = cell _
      rw [direct_setDirect n i (Finset.mem_range.mp hi), if_neg hne]
  have hcell : cell ((node.setDirect n b).direct n) = {b} := by
    rw [direct_setDirect n n hlt, if_pos rfl, cell_of_ne
      (howned.data b (Multiset.mem_cons_self _ _)).ne_zero]
  have hsum' : (node.setDirect n b).blockAdded.blocks s + cell (node.direct n) =
      node.blocks s + {b} := by
    rw [hcell] at hsum
    refine (add_right_comm _ _ _).trans (Eq.trans ?_ (add_right_comm _ _ _))
    rw [← hsum]
    rfl
  have hblocks : (node.setDirect n b).blockAdded.blocks s ≤ {b} + node.blocks s := by
    rw [add_comm, ← hsum']
    exact Multiset.le_add_right _ _
  refine ⟨howned.mono ?_, DataFrame.refl _ _, rfl, ?_, fun i hi => ?_, fun _ _ => rfl,
    fun _ i hi => ?_,
    fun _ k hk hfull => ?_, fun k hk => ?_, fun k hk hfull => ?_, fun k hk hfull => ?_⟩
  · rw [if_pos rfl, zero_add, ← Multiset.singleton_add, ← add_assoc]
    exact add_le_add_left hblocks rest
  · exact toInt_blockAdded (node.setDirect n b) hn (by
      simp only [maxBlocksNum, numOfDirectBlocks] at *
      omega)
  · show (node.setDirect n b).blockAt s i = _
    rw [blockAt_setDirect, if_neg (by omega)]
  · show (node.setDirect n b).blockAt s i = _
    rw [blockAt_setDirect, if_pos (by omega)]
  · obtain rfl : k = n := by omega
    refine Inode.Filled.withBlocksNum ⟨fun i hi => ?_, fun d hlow hhigh => ?_⟩ _
    · rw [direct_setDirect k i hi]
      by_cases hik : i = k
      · simp [hik, (howned.data b (Multiset.mem_cons_self _ _)).ne_zero]
      · rw [if_neg hik, hfull.direct i hi]
        omega
    · have hstart := numOfDirectBlocks_le_levelStart hlow
      have := hfull.tree d hlow hhigh
      rw [show k - levelStart d = k + 1 - levelStart d by omega] at this
      exact this
  · obtain rfl : k = n := by omega
    have hlt : k < levelStart 1 := hlt
    simp [blockCost, hlt]
  · obtain rfl : k = n := by omega
    have hempty : node.direct k = 0 := by
      by_contra hne
      exact absurd ((hfull.direct k hlt).mp hne) (lt_irrefl k)
    rw [hempty, cell_zero, add_zero] at hsum'
    rw [hsum', if_pos rfl, add_assoc]
  · obtain rfl : k = n := by omega
    have hempty : node.direct k = 0 := by
      by_contra hne
      exact absurd ((hfull.direct k hlt).mp hne) (lt_irrefl k)
    rw [hempty, cell_zero, add_zero] at hsum'
    rw [hsum']
    exact Multiset.le_add_right _ _

/-- `add_datablock_to_inode` gives the file a block at its end unless the device is full. -/
theorem addDatablockToInode_spec (howned : Owned s free (b ::ₘ (node.blocks s + rest)))
    (hmapped : node.Mapped s) :
    ∃ added node' s' free', addDatablockToInode node b s = some ((added, node'), s') ∧
      BlockAdded b rest free s node added s' node' free' := by
  obtain ⟨n, hn⟩ := Int.eq_ofNat_of_zero_le hmapped.nonneg
  have hrequire : (Prog.require (0 ≤ node.iBlocksNum.toInt) : Fs Unit) s = some ((), s) := by
    rw [Prog.require_apply, if_pos hmapped.nonneg]
  have hsize : numOfDirectBlocks + numOfAddressesPerBlock + numOfDoubleIndirectBlockAddr +
      numOfTripleIndirectBlockAddr = maxBlocksNum := by rw [maxBlocksNum]; decide
  by_cases hdirect : n < numOfDirectBlocks
  · refine ⟨true, _, s, free, ?_, BlockAdded.of_direct howned hn.symm hdirect⟩
    simp only [addDatablockToInode, Prog.bind_of_eq hrequire, hn, Int.toNat_natCast, hdirect,
      if_true, Prog.pure_apply]
  by_cases hsingle : n - numOfDirectBlocks < numOfAddressesPerBlock
  · have howned' := howned
    rw [blocks_split (d := 1) (by omega) (by omega), add_assoc] at howned'
    obtain ⟨added, p, s', free', hrun, hbranch⟩ := addToSingle_spec howned'
      (hmapped.tree hn.symm (by omega) (by omega)) hsingle
    refine ⟨added, _, s', free', ?_, BlockAdded.of_branch (by omega) (by omega) howned hn.symm
      (by simpa [levelStart] using hdirect)
      (by simp only [levelStart, numOfDirectBlocks, numOfAddressesPerBlock] at *; omega) hbranch⟩
    simp only [addDatablockToInode, Prog.bind_of_eq hrequire, hn, Int.toNat_natCast, hdirect,
      hsingle, if_true, if_false]
    exact hrun
  by_cases hdouble :
      n - numOfDirectBlocks - numOfAddressesPerBlock < numOfDoubleIndirectBlockAddr
  · have howned' := howned
    rw [blocks_split (d := 2) (by omega) (by omega), add_assoc] at howned'
    have hpos : n - levelStart 2 = n - numOfDirectBlocks - numOfAddressesPerBlock := by
      simp only [levelStart, numOfDirectBlocks, numOfAddressesPerBlock]
      omega
    obtain ⟨added, p, s', free', hrun, hbranch⟩ := addToDouble_spec howned'
      (hmapped.tree hn.symm (by omega) (by omega)) (by rw [hpos]; exact hdouble)
    refine ⟨added, _, s', free', ?_, BlockAdded.of_branch (by omega) (by omega) howned hn.symm
      (by simp only [levelStart, numOfDirectBlocks, numOfAddressesPerBlock] at *; omega)
      (by simp only [levelStart, numOfDirectBlocks, numOfAddressesPerBlock,
            numOfDoubleIndirectBlockAddr] at *; omega) hbranch⟩
    rw [hpos] at hrun
    simp only [addDatablockToInode, Prog.bind_of_eq hrequire, hn, Int.toNat_natCast, hdirect,
      hsingle, hdouble, if_true, if_false]
    exact hrun
  by_cases htriple : n - numOfDirectBlocks - numOfAddressesPerBlock -
      numOfDoubleIndirectBlockAddr < numOfTripleIndirectBlockAddr
  · have howned' := howned
    rw [blocks_split (d := 3) (by omega) (by omega), add_assoc] at howned'
    have hpos : n - levelStart 3 = n - numOfDirectBlocks - numOfAddressesPerBlock -
        numOfDoubleIndirectBlockAddr := by
      simp only [levelStart, numOfDirectBlocks, numOfAddressesPerBlock,
        numOfDoubleIndirectBlockAddr]
      omega
    obtain ⟨added, p, s', free', hrun, hbranch⟩ := addToTriple_spec howned'
      (hmapped.tree hn.symm (by omega) (by omega)) (by rw [hpos]; exact htriple)
    refine ⟨added, _, s', free', ?_, BlockAdded.of_branch (by omega) (by omega) howned hn.symm
      (by simp only [levelStart, numOfDirectBlocks, numOfAddressesPerBlock,
            numOfDoubleIndirectBlockAddr] at *; omega)
      (by simp only [levelStart, numOfDirectBlocks, numOfAddressesPerBlock,
            numOfDoubleIndirectBlockAddr, numOfTripleIndirectBlockAddr] at *; omega) hbranch⟩
    rw [hpos] at hrun
    simp only [addDatablockToInode, Prog.bind_of_eq hrequire, hn, Int.toNat_natCast, hdirect,
      hsingle, hdouble, htriple, if_true, if_false]
    exact hrun
  refine ⟨false, node, s, free, ?_, ⟨?_, DataFrame.refl _ _, rfl, by simp, fun _ _ => rfl,
    fun _ _ => rfl, fun h => absurd h (by simp), fun h => absurd h (by simp), fun k hk hlt => ?_,
    fun _ _ _ => (add_zero _).symm, fun _ _ _ => le_rfl⟩⟩
  · simp only [addDatablockToInode, Prog.bind_of_eq hrequire, hn, Int.toNat_natCast, hdirect,
      hsingle, hdouble, htriple, if_false, Prog.pure_apply]
  · simpa using howned
  · omega

end AddBlock

end

end AltFs
