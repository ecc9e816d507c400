import AltFs.BlockScans

/-!
# Overwriting a position of the block map

`overwrite_datablock_to_inode` stores a block number in the address block of a
position, unless it goes through `*prev_indirect_block`.  Then it writes the
changed address block over the new data block, and the block map stays.
-/

namespace AltFs

section

variable [Config]

/-- The address block that holds position `i`, for a position behind the direct blocks. -/
def Inode.addressBlock (s : FileSystem) (node : Inode) (i : Nat) : Int64 :=
  if i < levelStart 2 then node.iSingleIndirect
  else if i < levelStart 3 then treeNode s 2 1 (node.root 2) (i - levelStart 2)
  else treeNode s 3 1 (node.root 3) (i - levelStart 3)

/-- Lookups find `b` at position `i` and what they found before at the others. -/
structure ChangesOnly (s : FileSystem) (node : Inode) (n i : Nat) (b : Int64) (s' : FileSystem)
    (node' : Inode) : Prop where
  self : ∃ prev, getDiskBlockFromInodeBlock node' i 0 s' = some ((b, prev), s')
  other : ∀ j < n, j ≠ i → ∃ c prev prev', getDiskBlockFromInodeBlock node j 0 s =
    some ((c, prev), s) ∧ getDiskBlockFromInodeBlock node' j 0 s' = some ((c, prev'), s')
  disk : ∀ a, i < numOfDirectBlocks ∨ a ≠ node.addressBlock s i → s'.disk a = s.disk a

section Tree

variable {s : FileSystem} {node : Inode} {n i d : Nat} {b prev : Int64}

omit [Config] in
theorem addressBlock_eq (hlow : 1 ≤ d) (hhigh : d ≤ 3) (hd : levelStart d ≤ i)
    (hd' : i < levelStart (d + 1)) :
    node.addressBlock s i = treeNode s d 1 (node.root d) (i - levelStart d) := by
  obtain rfl | rfl | rfl : d = 1 ∨ d = 2 ∨ d = 3 := by omega
  all_goals simp only [levelStart] at hd hd'
  · rw [Inode.addressBlock, levelStart, if_pos (show i < levelStart 2 from hd'), treeNode,
      PointerTree.nodeAt_top le_rfl]
    rfl
  · rw [Inode.addressBlock, levelStart, levelStart, if_neg (by omega), if_pos (by omega)]
  · rw [Inode.addressBlock, levelStart, levelStart, if_neg (by omega), if_neg (by omega)]

/-- Once the blocks at the positions are known, so are the lookups. -/
private theorem changesOnly_of_blockAt {s' : FileSystem} {node' : Inode} (h : node.WellMapped s n)
    (hi : i < n) (hb : b ≠ 0) (hnum : node'.iBlocksNum = node.iBlocksNum)
    (hdata : ∀ c ∈ node'.blocks s', DataBlock c)
    (hat : ∀ j < n, node'.blockAt s' j = if j = i then b else node.blockAt s j)
    (hdisk : ∀ a, i < numOfDirectBlocks ∨ a ≠ node.addressBlock s i → s'.disk a = s.disk a) :
    ChangesOnly s node n i b s' node' := by
  have hlt : ∀ j : Nat, (j : Int) < node'.iBlocksNum.toInt ↔ j < n := by
    intro j
    rw [hnum, h.blocksNum]
    omega
  have hmapped : node'.Mapped s' := by
    refine ⟨by rw [hnum]; exact h.mapped.nonneg, fun j hj => ?_⟩
    rw [hat j ((hlt j).mp hj)]
    split
    · exact hb
    · exact h.filled.blockAt_ne_zero ((hlt j).mp hj) (((hlt j).mp hj).trans_le h.bound)
  have hfound : ∀ j < n, ∃ prev, getDiskBlockFromInodeBlock node' j 0 s' =
      some ((if j = i then b else node.blockAt s j, prev), s') := by
    intro j hj
    obtain ⟨prev, hlookup, -⟩ := getDiskBlockFromInodeBlock_run hdata hmapped ((hlt j).mpr hj)
      (prevValid_zero s' node' j)
    rw [hat j hj] at hlookup
    exact ⟨prev, hlookup⟩
  refine ⟨?_, fun j hj hne => ?_, hdisk⟩
  · obtain ⟨prev, hlookup⟩ := hfound i hi
    rw [if_pos rfl] at hlookup
    exact ⟨prev, hlookup⟩
  · obtain ⟨prev, hbefore, -⟩ := h.lookup hj (prevValid_zero s node j)
    obtain ⟨prev', hafter⟩ := hfound j hj
    rw [if_neg hne] at hafter
    exact ⟨_, prev, prev', hbefore, hafter⟩

private theorem changesOnly_direct (h : node.WellMapped s n) (hi : i < n)
    (hdirect : i < numOfDirectBlocks) (hb : DataBlock b) :
    ChangesOnly s node n i b s (node.setDirect i b) := by
  refine changesOnly_of_blockAt h hi hb.ne_zero rfl (fun c hc => ?_) (fun j _ => ?_)
    fun _ _ => rfl
  · rw [Inode.blocks, Multiset.mem_add, mem_sum_cell] at hc
    rcases hc with ⟨hzero, j, hj, rfl⟩ | hc
    · rw [direct_setDirect i j hj] at hzero ⊢
      by_cases hji : j = i
      · rw [if_pos hji]
        exact hb
      · rw [if_neg hji] at hzero ⊢
        refine h.data _ ?_
        rw [Inode.blocks, Multiset.mem_add, mem_sum_cell]
        exact .inl ⟨hzero, j, hj, rfl⟩
    · refine h.data c ?_
      rw [Inode.blocks, Multiset.mem_add]
      exact .inr hc
  · rw [blockAt_setDirect]
    by_cases hj : j = i
    · rw [if_pos ⟨hj, hj ▸ hdirect⟩, if_pos hj]
    · rw [if_neg (fun hcond => hj hcond.1), if_neg hj]

private theorem changesOnly_tree (h : node.WellMapped s n) (hi : i < n) (hlow : 1 ≤ d)
    (hhigh : d ≤ 3) (hd : levelStart d ≤ i) (hd' : i < levelStart (d + 1)) (hb : DataBlock b) :
    ChangesOnly s node n i b
      (s.writeDisk (node.addressBlock s i) ((s.disk (node.addressBlock s i)).setWord
        ((i - levelStart d) % numOfAddressesPerBlock) b)) node := by
  rw [addressBlock_eq hlow hhigh hd hd']
  have hsize := levelStart_succ hlow hhigh
  have hm : i - levelStart d < numOfAddressesPerBlock ^ d := by omega
  have hleaf := h.filled.blockAt_ne_zero hi (hi.trans_le h.bound)
  rw [Inode.blockAt_tree hlow hhigh hd hd'] at hleaf
  have hparent : treeNode s d 1 (node.root d) (i - levelStart d) ≠ 0 :=
    PointerTree.nodeAt_ne_zero_mono (Nat.zero_le 1) hleaf
  have hcells := h.nodup
  rw [blocks_split hlow hhigh, Multiset.nodup_add] at hcells
  have hstored := stored_setWord (Multiset.nodup_of_le (PointerTree.inner_le_cells _ _) hcells.1)
    (show 0 < d by omega) hm hparent b
  rw [pow_zero, Nat.div_one, Nat.zero_add] at hstored
  have hmem : treeNode s d 1 (node.root d) (i - levelStart d) ∈ treeCells s d (node.root d) :=
    PointerTree.nodeAt_mem_cells hm hparent
  generalize ha : treeNode s d 1 (node.root d) (i - levelStart d) = a at *
  generalize hs' : s.writeDisk a ((s.disk a).setWord
    ((i - levelStart d) % numOfAddressesPerBlock) b) = s' at *
  have hdisk : ∀ c, c ≠ a → s'.disk c = s.disk c := by
    intro c hc
    rw [← hs', disk_writeDisk_ne hc]
  have hother : ∀ c ∈ node.blocksExcept s d, c ≠ a := by
    rintro c hc rfl
    exact Multiset.disjoint_left.mp hcells.2.2 hmem hc
  have hframe : DataFrame {a} s s' := by
    rw [← hs']
    exact .writeDisk (Multiset.mem_singleton_self a)
  have hexcept : node.blocksExcept s' d = node.blocksExcept s d := by
    refine blocksExcept_eq hframe hlow fun c hc => ⟨?_, ?_⟩
    · refine (h.data c ?_).ne_zero
      rw [blocks_split hlow hhigh]
      exact Multiset.mem_add.mpr (.inr hc)
    · rw [Multiset.mem_singleton]
      exact hother c hc
  refine changesOnly_of_blockAt h hi hb.ne_zero rfl (fun c hc => ?_) (fun j hj => ?_)
    fun c hc => hdisk c ?_
  · rw [blocks_split hlow hhigh, hexcept, Multiset.mem_add] at hc
    have hsum : treeCells s' d (node.root d) + cell (treeNode s d 0 (node.root d)
        (i - levelStart d)) = treeCells s d (node.root d) + cell b :=
      PointerTree.gather_store hstored
    rcases hc with hc | hc
    · have hc : c ∈ treeCells s d (node.root d) + cell b := by
        rw [← hsum]
        exact Multiset.mem_add.mpr (.inl hc)
      rcases Multiset.mem_add.mp hc with hc | hc
      · exact h.data c (Multiset.mem_of_le (treeCells_le_blocks hlow hhigh) hc)
      · rw [(mem_cell.mp hc).2]
        exact hb
    · refine h.data c ?_
      rw [blocks_split hlow hhigh]
      exact Multiset.mem_add.mpr (.inr hc)
  · by_cases hdirect : j < numOfDirectBlocks
    · have := numOfDirectBlocks_le_levelStart hlow
      rw [Inode.blockAt_direct hdirect, Inode.blockAt_direct hdirect, if_neg (by omega)]
    obtain ⟨d', hlow', hhigh', hj₁, hj₂⟩ :=
      level_exists (i := j) (by omega) (hj.trans_le h.bound)
    have hsize' := levelStart_succ hlow' hhigh'
    rw [Inode.blockAt_tree hlow' hhigh' hj₁ hj₂, Inode.blockAt_tree hlow' hhigh' hj₁ hj₂]
    by_cases hlevel : d' = d
    · subst hlevel
      rw [treeNode, PointerTree.nodeAt_store hstored (by omega)]
      have hsame : j - levelStart d' = i - levelStart d' ↔ j = i := by omega
      simp only [pow_zero, Nat.div_one, le_refl, true_and, hsame, PointerTree.nodeAt]
    · rw [if_neg ?_]
      · refine PointerTree.nodeAt_congr (by omega) fun c hc k _ => ?_
        have hc := Multiset.mem_of_le
          (treeInner_le_blocksExcept s node hlow' hhigh' hlevel hlow) hc
        simp only [FileSystem.words, hdisk c (hother c hc)]
      · rintro rfl
        rcases Nat.lt_or_gt_of_ne hlevel with hlt | hgt
        · have := levelStart_mono (show d' + 1 ≤ d by omega) (by omega) (by omega)
          omega
        · have := levelStart_mono (show d + 1 ≤ d' by omega) (by omega) (by omega)
          omega
  · rcases hc with hdirect | hc
    · have := numOfDirectBlocks_le_levelStart hlow
      omega
    · rwa [addressBlock_eq hlow hhigh hd hd', ha] at hc

/-! ## The runs -/

theorem overwriteRemembered_run (hprev : DataBlock prev) (hb : DataBlock b) {innerIdx : Nat}
    (hindex : innerIdx < numOfAddressesPerBlock) :
    overwriteRemembered prev innerIdx b s =
      some (true, s.writeDisk b ((s.disk prev).setWord innerIdx b)) := by
  have hrequire : (Prog.require (innerIdx < numOfAddressesPerBlock) : Fs Unit) s =
      some ((), s) := by
    rw [Prog.require_apply, if_pos hindex]
  simp only [overwriteRemembered, Prog.bind_of_eq (readDataBlockArray_run hprev),
    Prog.bind_of_eq hrequire, writeDataBlock_run hb]

variable (hnodes : ∀ k, DataBlock (treeNode s d k (node.root d) (i - levelStart d)))
  (hinner : (i - levelStart d) % numOfAddressesPerBlock = 0 ∨ prev = 0)

include hnodes hinner

private theorem overwriteDouble_run (hlevel : d = 2)
    (hsize : i - levelStart d < numOfDoubleIndirectBlockAddr) :
    overwriteDouble node (i - levelStart d) b prev s =
      some ((true, treeNode s d 1 (node.root d) (i - levelStart d)),
        s.writeDisk (treeNode s d 1 (node.root d) (i - levelStart d))
          ((s.disk (treeNode s d 1 (node.root d) (i - levelStart d))).setWord
            ((i - levelStart d) % numOfAddressesPerBlock) b)) := by
  subst hlevel
  generalize i - levelStart 2 = m at *
  have htop := lookupSingle_node hnodes (show 1 < 2 by omega) hsize
    (show m / numOfAddressesPerBlock ^ 1 % numOfAddressesPerBlock = m / numOfAddressesPerBlock by
      rw [pow_one, Nat.mod_eq_of_lt (Nat.div_lt_of_lt_mul hsize)])
  have hroot : treeNode s 2 2 (node.root 2) m = node.iDoubleIndirect :=
    PointerTree.nodeAt_top le_rfl _ _
  have hne := (hnodes 2).ne_zero
  rw [hroot] at htop hne
  have hpos : ¬(treeNode s 2 1 (node.root 2) m).toInt ≤ 0 := by
    have := (hnodes 1).pos
    omega
  have hplain : ¬(m % numOfAddressesPerBlock ≠ 0 ∧ prev ≠ 0) := by
    rintro ⟨hindex, hprev⟩
    exact hinner.elim hindex hprev
  simp only [overwriteDouble, hne, if_false, if_neg hplain, Prog.bind_of_eq htop, hpos,
    Prog.bind_of_eq (storeAddress_run (hnodes 1) (Nat.mod_lt m (by decide))), Prog.pure_apply]

private theorem overwriteTriple_run (hlevel : d = 3)
    (hsize : i - levelStart d < numOfTripleIndirectBlockAddr) :
    overwriteTriple node (i - levelStart d) b prev s =
      some (true, s.writeDisk (treeNode s d 1 (node.root d) (i - levelStart d))
        ((s.disk (treeNode s d 1 (node.root d) (i - levelStart d))).setWord
          ((i - levelStart d) % numOfAddressesPerBlock) b)) := by
  subst hlevel
  generalize i - levelStart 3 = m at *
  have htop := lookupSingle_node hnodes (show 2 < 3 by omega) hsize
    (show m / numOfAddressesPerBlock ^ 2 % numOfAddressesPerBlock =
        m / numOfDoubleIndirectBlockAddr from Nat.mod_eq_of_lt (Nat.div_lt_of_lt_mul hsize))
  have hmid := lookupSingle_node hnodes (show 1 < 3 by omega) hsize
    (show m / numOfAddressesPerBlock ^ 1 % numOfAddressesPerBlock =
        m / numOfAddressesPerBlock % numOfAddressesPerBlock by rw [pow_one])
  have hroot : treeNode s 3 3 (node.root 3) m = node.iTripleIndirect :=
    PointerTree.nodeAt_top le_rfl _ _
  have hne := (hnodes 3).ne_zero
  rw [hroot] at htop hne
  have hpos : ∀ k, ¬(treeNode s 3 k (node.root 3) m).toInt ≤ 0 := by
    intro k
    have := (hnodes k).pos
    omega
  have hplain : ¬(m % numOfAddressesPerBlock ≠ 0 ∧ prev ≠ 0) := by
    rintro ⟨hindex, hprev⟩
    exact hinner.elim hindex hprev
  simp only [overwriteTriple, hne, if_false, if_neg hplain, Prog.bind_of_eq htop, hpos,
    Prog.bind_of_eq hmid, storeAddress_run (hnodes 1) (Nat.mod_lt m (by decide))]

end Tree

section Whole

variable {s : FileSystem} {node : Inode} {n i : Nat} {b prev : Int64}

/-- Away from the remembered block the call does what it should. -/
theorem overwriteDatablockToInode_plain (h : node.WellMapped s n) (hi : i < n) (hb : DataBlock b)
    (hplain : i < levelStart 2 ∨ (i - levelStart 2) % numOfAddressesPerBlock = 0 ∨ prev = 0) :
    ∃ node' prev' s', overwriteDatablockToInode node i b prev s =
      some ((true, node', prev'), s') ∧ ChangesOnly s node n i b s' node' := by
  have hbound : ¬(i : Int) > node.iBlocksNum.toInt := by
    rw [h.blocksNum]
    omega
  by_cases hdirect : i < numOfDirectBlocks
  · refine ⟨_, prev, s, ?_, changesOnly_direct h hi hdirect hb⟩
    simp only [overwriteDatablockToInode, hbound, hdirect, if_false, if_true, Prog.pure_apply]
  have hmax := hi.trans_le h.bound
  have hne := h.filled.blockAt_ne_zero hi hmax
  obtain ⟨d, hlow, hhigh, hd, hd'⟩ := level_exists (by omega) hmax
  rw [Inode.blockAt_tree hlow hhigh hd hd'] at hne
  have hsize := levelStart_succ hlow hhigh
  have hnodes := treeNode_dataBlock h.data hlow hhigh
    (show i - levelStart d < numOfAddressesPerBlock ^ d by omega) hne
  have hchanges := changesOnly_tree h hi hlow hhigh hd hd' hb
  rw [addressBlock_eq hlow hhigh hd hd'] at hchanges
  obtain rfl | rfl | rfl : d = 1 ∨ d = 2 ∨ d = 3 := by omega
  · have hpos : i - numOfDirectBlocks = i - levelStart 1 := rfl
    have hend : i < levelStart 2 := hd'
    have hsingle : i - levelStart 1 < numOfAddressesPerBlock := by
      rw [pow_one] at hsize
      omega
    have hroot : treeNode s 1 1 (node.root 1) (i - levelStart 1) = node.iSingleIndirect :=
      PointerTree.nodeAt_top le_rfl _ _
    have hdata := hnodes 1
    rw [hroot] at hdata hchanges
    rw [Nat.mod_eq_of_lt hsingle] at hchanges
    refine ⟨node, prev, _, ?_, hchanges⟩
    simp only [overwriteDatablockToInode, hbound, hdirect, hpos, hsingle, hdata.ne_zero, if_false,
      if_true, Prog.bind_of_eq (storeAddress_run hdata hsingle), Prog.pure_apply]
  · have hpos : i - numOfDirectBlocks - numOfAddressesPerBlock = i - levelStart 2 := by
      simp only [levelStart, numOfDirectBlocks, numOfAddressesPerBlock]
      omega
    have hinner := hplain.resolve_left (by omega)
    have hsingle : ¬i - numOfDirectBlocks < numOfAddressesPerBlock := by
      simp only [levelStart, numOfDirectBlocks, numOfAddressesPerBlock] at *
      omega
    have hdouble : i - levelStart 2 < numOfDoubleIndirectBlockAddr := by
      rw [levelStart_succ hlow hhigh] at hd'
      have : numOfAddressesPerBlock ^ 2 = numOfDoubleIndirectBlockAddr := rfl
      omega
    refine ⟨node, treeNode s 2 1 (node.root 2) (i - levelStart 2), _, ?_, hchanges⟩
    simp only [overwriteDatablockToInode, hbound, hdirect, hsingle, hpos, hdouble, if_false,
      if_true, Prog.bind_of_eq (overwriteDouble_run hnodes hinner rfl hdouble), Prog.pure_apply]
  · have hpos : i - numOfDirectBlocks - numOfAddressesPerBlock - numOfDoubleIndirectBlockAddr =
        i - levelStart 3 := by
      simp only [levelStart, numOfDirectBlocks, numOfAddressesPerBlock,
        numOfDoubleIndirectBlockAddr]
      omega
    have hinner : (i - levelStart 3) % numOfAddressesPerBlock = 0 ∨ prev = 0 := by
      have hsame : (i - levelStart 2) % numOfAddressesPerBlock =
          (i - levelStart 3) % numOfAddressesPerBlock := by
        simp only [levelStart, numOfAddressesPerBlock] at *
        omega
      rw [← hsame]
      refine hplain.resolve_left ?_
      simp only [levelStart] at *
      omega
    have hsingle : ¬i - numOfDirectBlocks < numOfAddressesPerBlock := by
      simp only [levelStart, numOfDirectBlocks, numOfAddressesPerBlock] at *
      omega
    have hdouble : ¬i - numOfDirectBlocks - numOfAddressesPerBlock <
        numOfDoubleIndirectBlockAddr := by
      simp only [levelStart, numOfDirectBlocks, numOfAddressesPerBlock,
        numOfDoubleIndirectBlockAddr] at *
      omega
    have htriple : i - levelStart 3 < numOfTripleIndirectBlockAddr := by
      rw [levelStart_succ hlow hhigh] at hd'
      have : numOfAddressesPerBlock ^ 3 = numOfTripleIndirectBlockAddr := rfl
      omega
    refine ⟨node, prev, _, ?_, hchanges⟩
    simp only [overwriteDatablockToInode, hbound, hdirect, hsingle, hdouble, hpos, if_false,
      Prog.bind_of_eq (overwriteTriple_run hnodes hinner rfl htriple), Prog.pure_apply]

/-- Through the remembered block only the new data block is written. -/
theorem overwriteDatablockToInode_remembered (h : node.WellMapped s n) (hi : i < n)
    (hb : DataBlock b) (hlevel : levelStart 2 ≤ i)
    (hinner : (i - levelStart 2) % numOfAddressesPerBlock ≠ 0) (hprev : DataBlock prev) :
    overwriteDatablockToInode node i b prev s = some ((true, node, prev),
      s.writeDisk b ((s.disk prev).setWord ((i - levelStart 2) % numOfAddressesPerBlock) b)) := by
  have hbound : ¬(i : Int) > node.iBlocksNum.toInt := by
    rw [h.blocksNum]
    omega
  have hsize : levelStart 2 = 524 := rfl
  have hdirect : ¬i < numOfDirectBlocks := by
    simp only [numOfDirectBlocks]
    omega
  have hsingle : ¬i - numOfDirectBlocks < numOfAddressesPerBlock := by
    simp only [numOfDirectBlocks, numOfAddressesPerBlock]
    omega
  have hpos : i - numOfDirectBlocks - numOfAddressesPerBlock = i - levelStart 2 := by
    simp only [numOfDirectBlocks, numOfAddressesPerBlock]
    omega
  have hstore := overwriteRemembered_run (s := s) hprev hb
    (Nat.mod_lt (i - levelStart 2) (show 0 < numOfAddressesPerBlock by decide))
  by_cases hdouble : i - levelStart 2 < numOfDoubleIndirectBlockAddr
  · have hroot : ¬node.iDoubleIndirect = 0 := fun hzero => by
      have := (h.root_eq_zero_iff (d := 2) (by omega) (by omega)).mp hzero
      omega
    simp only [overwriteDatablockToInode, hbound, hdirect, hsingle, hpos, hdouble, if_false,
      if_true, overwriteDouble, hroot, hinner, hprev.ne_zero, ne_eq, not_false_eq_true, and_self,
      Prog.bind_apply, hstore, Prog.pure_apply]
  · have hroot : ¬node.iTripleIndirect = 0 := fun hzero => by
      have hle := (h.root_eq_zero_iff (d := 3) (by omega) (by omega)).mp hzero
      simp only [levelStart, numOfDoubleIndirectBlockAddr] at *
      omega
    have hindex : (i - levelStart 2 - numOfDoubleIndirectBlockAddr) % numOfAddressesPerBlock =
        (i - levelStart 2) % numOfAddressesPerBlock := by
      simp only [levelStart, numOfAddressesPerBlock, numOfDoubleIndirectBlockAddr] at *
      omega
    have htriple : overwriteTriple node (i - levelStart 2 - numOfDoubleIndirectBlockAddr) b prev s =
        some (true,
          s.writeDisk b ((s.disk prev).setWord ((i - levelStart 2) % numOfAddressesPerBlock) b)) := by
      simp only [overwriteTriple, hroot, hindex, hinner, hprev.ne_zero, ne_eq, not_false_eq_true,
        and_self, if_false, if_true, hstore]
    simp only [overwriteDatablockToInode, hbound, hdirect, hsingle, hpos, hdouble, if_false,
      Prog.bind_of_eq htriple, Prog.pure_apply]

/-- A call in the double-indirect range remembers the address block of the position. -/
theorem overwriteDatablockToInode_double (h : node.WellMapped s n) (hi : i < n)
    (hd : levelStart 2 ≤ i) (hd' : i < levelStart 3) :
    overwriteDatablockToInode node i b 0 s = some ((true, node, node.addressBlock s i),
      s.writeDisk (node.addressBlock s i) ((s.disk (node.addressBlock s i)).setWord
        ((i - levelStart 2) % numOfAddressesPerBlock) b)) := by
  have hbound : ¬(i : Int) > node.iBlocksNum.toInt := by
    rw [h.blocksNum]
    omega
  have hsize : levelStart 2 = 524 := rfl
  have hdirect : ¬i < numOfDirectBlocks := by
    simp only [numOfDirectBlocks]
    omega
  have hsingle : ¬i - numOfDirectBlocks < numOfAddressesPerBlock := by
    simp only [numOfDirectBlocks, numOfAddressesPerBlock]
    omega
  have hpos : i - numOfDirectBlocks - numOfAddressesPerBlock = i - levelStart 2 := by
    simp only [numOfDirectBlocks, numOfAddressesPerBlock]
    omega
  have hdouble : i - levelStart 2 < numOfDoubleIndirectBlockAddr := by
    simp only [levelStart, numOfDoubleIndirectBlockAddr] at *
    omega
  have hne := h.filled.blockAt_ne_zero hi (hi.trans_le h.bound)
  rw [Inode.blockAt_tree (d := 2) (by omega) (by omega) hd hd'] at hne
  have hnodes := treeNode_dataBlock (d := 2) h.data (by omega) (by omega) hdouble hne
  rw [addressBlock_eq (d := 2) (by omega) (by omega) hd hd']
  simp only [overwriteDatablockToInode, hbound, hdirect, hsingle, hpos, hdouble, if_false,
    if_true, Prog.bind_of_eq (overwriteDouble_run hnodes (.inr rfl) rfl hdouble), Prog.pure_apply]

/-- The block map depends only on the addresses in the blocks. -/
private theorem wellMapped_of_words (h : node.WellMapped s n) {s' : FileSystem}
    (hwords : ∀ a j, s'.words a j = s.words a j) :
    node.WellMapped s' n ∧ node.blocks s' = node.blocks s := by
  have htrees : ∀ j ∈ Finset.range 3,
      treeCells s' (j + 1) (node.root (j + 1)) = treeCells s (j + 1) (node.root (j + 1)) :=
    fun j _ => PointerTree.gather_congr fun a _ j _ => hwords a j
  have hblocks : node.blocks s' = node.blocks s := by
    rw [Inode.blocks, Inode.blocks, Finset.sum_congr rfl htrees]
  refine ⟨⟨h.blocksNum, h.bound, ⟨h.filled.direct, fun d hlow hhigh => ?_⟩, ?_, ?_⟩, hblocks⟩
  · exact (h.filled.tree d hlow hhigh).congr fun a _ j _ => hwords a j
  · rw [hblocks]
    exact h.nodup
  · rw [hblocks]
    exact h.data

/-- Overwriting a position with the block it has keeps the block map. -/
theorem overwriteDatablockToInode_same (h : node.WellMapped s n) (hi : i < n)
    (hd : levelStart 2 ≤ i) (hd' : i < levelStart 3) :
    ∃ s', overwriteDatablockToInode node i (node.blockAt s i) 0 s =
      some ((true, node, node.addressBlock s i), s') ∧ DataBlock (node.addressBlock s i) ∧
      node.WellMapped s' n ∧ node.blocks s' = node.blocks s := by
  have hm : i - levelStart 2 < numOfAddressesPerBlock ^ 2 := by
    rw [levelStart_succ (by omega) (by omega)] at hd'
    omega
  have hne := h.filled.blockAt_ne_zero hi (hi.trans_le h.bound)
  have hstep := treeNode_step (s := s) (d := 2) (k := 0) (p := node.root 2) (by omega) hm
  rw [Inode.blockAt_tree (d := 2) (by omega) (by omega) hd hd'] at hne
  have hnodes := treeNode_dataBlock (d := 2) h.data (by omega) (by omega) hm hne 1
  rw [← addressBlock_eq (d := 2) (by omega) (by omega) hd hd'] at hnodes hstep
  have hword := hstep hnodes.ne_zero
  rw [pow_zero, Nat.div_one, ← Inode.blockAt_tree (d := 2) (by omega) (by omega) hd hd'] at hword
  refine ⟨_, overwriteDatablockToInode_double h hi hd hd', hnodes, ?_⟩
  apply wellMapped_of_words h
  intro a j
  rw [words_setWord (Nat.mod_lt _ (by decide))]
  split
  next hsame => rw [hsame.1, hsame.2, FileSystem.words, hword]
  next => rfl

/-- A write of a block that the file does not use changes no lookup. -/
private theorem lookup_old (h : node.WellMapped s n) (hi : i < n) (hb : b ∉ node.blocks s)
    (block : Block) {c prev : Int64} {t : FileSystem}
    (hlookup : getDiskBlockFromInodeBlock node i 0 (s.writeDisk b block) = some ((c, prev), t)) :
    c = node.blockAt s i := by
  have hkept : node.Kept s (s.writeDisk b block) := by
    intro a ha
    apply disk_writeDisk_ne
    rintro rfl
    exact hb (Multiset.mem_of_le (indirect_le_blocks s node) ha)
  have hwell : node.WellMapped (s.writeDisk b block) n :=
    ⟨h.blocksNum, h.bound, hkept.filled h.filled, by rw [hkept.blocks]; exact h.nodup,
      by rw [hkept.blocks]; exact h.data⟩
  obtain ⟨prev', hrun, -⟩ := hwell.lookup hi (prevValid_zero _ node i)
  rw [hlookup, hkept.blockAt] at hrun
  simp only [Option.some.injEq, Prod.mk.injEq] at hrun
  exact hrun.1.1

/-- Through `*prev_indirect_block` the block of position `i` stays as it was. -/
theorem overwriteDatablockToInode_stale (h : node.WellMapped s n) (hi : i < n)
    (hb : DataBlock b) (hfresh : b ∉ node.blocks s) (hlevel : levelStart 2 ≤ i)
    (hinner : (i - levelStart 2) % numOfAddressesPerBlock ≠ 0) (hprev : DataBlock prev) :
    ∃ node' prev' s', overwriteDatablockToInode node i b prev s =
      some ((true, node', prev'), s') ∧ ¬ChangesOnly s node n i b s' node' := by
  refine ⟨_, _, _, overwriteDatablockToInode_remembered h hi hb hlevel hinner hprev,
    fun hchanges => ?_⟩
  obtain ⟨prev', hlookup⟩ := hchanges.self
  have hold := lookup_old h hi hfresh _ hlookup
  have hleaf := h.filled.blockAt_ne_zero hi (hi.trans_le h.bound)
  rw [← hold] at hleaf
  apply hfresh
  rw [hold]
  apply blockAt_mem_blocks
  rwa [← hold]

/--
`overwrite_datablock_to_inode` stores `b` at position `i` and changes no other
position exactly when it does not go through `*prev_indirect_block`.
-/
theorem overwriteDatablockToInode_changesOnly_iff (h : node.WellMapped s n) (hi : i < n)
    (hb : DataBlock b) (hfresh : b ∉ node.blocks s) (hprev : prev = 0 ∨ DataBlock prev) :
    (∀ node' prev' s', overwriteDatablockToInode node i b prev s =
        some ((true, node', prev'), s') → ChangesOnly s node n i b s' node') ↔
      i < levelStart 2 ∨ (i - levelStart 2) % numOfAddressesPerBlock = 0 ∨ prev = 0 := by
  constructor
  · intro hchanges
    by_contra hcond
    simp only [not_or, not_lt] at hcond
    obtain ⟨hlevel, hinner, hne⟩ := hcond
    obtain ⟨node', prev', s', hrun, hnot⟩ :=
      overwriteDatablockToInode_stale h hi hb hfresh hlevel hinner (hprev.resolve_left hne)
    exact hnot (hchanges _ _ _ hrun)
  · intro hplain node' prev' s' hrun
    obtain ⟨node₁, prev₁, s₁, hplainRun, hchanges⟩ :=
      overwriteDatablockToInode_plain h hi hb hplain
    rw [hrun] at hplainRun
    simp only [Option.some.injEq, Prod.mk.injEq, true_and] at hplainRun
    obtain ⟨⟨rfl, rfl⟩, rfl⟩ := hplainRun
    exact hchanges

end Whole

end

/-- Position 525 of a file of 526 blocks, on a device where a further block is free. -/
theorem overwriteDatablockToInode_changesOnly_iff_526 :
    letI := Config.ofBlocks 2200 (by decide)
    ∃ s node b, node.WellMapped s 526 ∧ DataBlock b ∧ b ∉ node.blocks s ∧
      ∀ node' prev' s', overwriteDatablockToInode node 525 b 0 s =
        some ((true, node', prev'), s') → ChangesOnly s node 526 525 b s' node' := by
  let _ := Config.ofBlocks 2200 (by decide)
  have hdata : numOfDataBlocks = 2166 := by decide
  obtain ⟨_, _, _, s, node, free, -, -, hfile, -, hwell, hleft⟩ :=
    @exists_file _ 526 (by decide) (by decide) (by simp only [maxBlocksNum]; omega) (by decide)
  obtain ⟨b, hb⟩ := Multiset.card_pos_iff_exists_mem.mp (show 0 < free.card by omega)
  have hfresh : b ∉ node.blocks s := fun hheld => hfile.owned.not_free hheld hb
  refine ⟨s, node, b, hwell, hfile.owned.freeList.data b hb, hfresh, ?_⟩
  exact (overwriteDatablockToInode_changesOnly_iff hwell (by omega)
    (hfile.owned.freeList.data b hb) hfresh (.inl rfl)).mpr (.inr (.inr rfl))

/--
In a file of 526 blocks, position 524 is overwritten with the block it has and
then, with the variable this leaves, position 525 with a block that is not in use.
-/
theorem overwriteDatablockToInode_changes_525 :
    letI := Config.ofBlocks 2200 (by decide)
    ∃ s node b c t prev, node.WellMapped s 526 ∧ DataBlock b ∧ b ∉ node.blocks s ∧
      overwriteDatablockToInode node 524 c 0 t = some ((true, node, prev), s) ∧
      ∃ node' prev' s', overwriteDatablockToInode node 525 b prev s =
        some ((true, node', prev'), s') ∧ ¬ChangesOnly s node 526 525 b s' node' := by
  let _ := Config.ofBlocks 2200 (by decide)
  have hdata : numOfDataBlocks = 2166 := by decide
  obtain ⟨_, _, _, s, node, free, -, -, hfile, -, hwell, hleft⟩ :=
    @exists_file _ 526 (by decide) (by decide) (by simp only [maxBlocksNum]; omega) (by decide)
  obtain ⟨b, hb⟩ := Multiset.card_pos_iff_exists_mem.mp (show 0 < free.card by omega)
  obtain ⟨s', hrun, hprev, hwell', hblocks⟩ := overwriteDatablockToInode_same (i := 524) hwell
    (by omega) (by simp only [levelStart]; omega) (by simp only [levelStart]; omega)
  have hfresh : b ∉ node.blocks s' := by
    rw [hblocks]
    exact fun hheld => hfile.owned.not_free hheld hb
  exact ⟨s', node, b, _, s, _, hwell', hfile.owned.freeList.data b hb, hfresh, hrun,
    overwriteDatablockToInode_stale (i := 525) hwell' (by omega) (hfile.owned.freeList.data b hb)
      hfresh (by simp only [levelStart]; omega)
      (by simp only [levelStart, numOfAddressesPerBlock]; omega) hprev⟩

end AltFs
