import AltFs.FileUpdates
import AltFs.KeptPositions

/-!
# Truncating a file

`altfs_truncate` between two requests.  Behind the single-indirect level
`remove_datablocks_from_inode` loses blocks; a cut before that is exact.
-/

namespace AltFs

open Prog NamedTree

variable [Config]

/-! ## The blocks that are given up -/

/-- Node `node` has been cut to `last` blocks, next to the blocks `rest` of others. -/
structure CutTo (s : FileSystem) (free rest : Multiset Int64) (node : Inode) (last : Nat)
    (t : FileSystem) (free' : Multiset Int64) : Prop where
  owned : Owned t free' ((node.cut last).blocks t + rest)
  rest : ∀ a ∈ rest, t.disk a = s.disk a
  only : DataOnly s t
  conserved : free' + (node.cut last).blocks t = free + node.blocks s
  filled : (node.cut last).Filled t last
  blockAt : ∀ i < last, (node.cut last).blockAt t i = node.blockAt s i
  disk : ∀ i < last, t.disk (node.blockAt s i) = s.disk (node.blockAt s i)

section Cut

variable {s t : FileSystem} {node : Inode} {free free' rest : Multiset Int64} {n last : Nat}

omit [Config] in
private theorem root_cut (hlast : last ≤ levelStart 2) {d : Nat} (hlow : 1 ≤ d) (hhigh : d ≤ 3)
    (hd : last ≤ levelStart d) : (node.cut last).root d = 0 := by
  have hsize : levelStart 1 = 12 := rfl
  have hsize' : levelStart 2 = 524 := rfl
  have hsize'' : levelStart 3 = 262668 := rfl
  obtain rfl | rfl | rfl : d = 1 ∨ d = 2 ∨ d = 3 := by omega
  · exact if_neg (by omega)
  · exact if_neg (by omega)
  · exact if_neg (by omega)

omit [Config] in
/-- The cut keeps the tree of one level, as far as it is filled. -/
private theorem filled_cut (h : node.Filled s n) (hlt : last < n) (hlast : last ≤ levelStart 2)
    (htree : levelStart 1 < last → PointerTree.Filled numOfAddressesPerBlock t.words 1 (node.root 1)
      (last - levelStart 1)) : (node.cut last).Filled t last where
  direct i hi := by
    rw [direct_cut hi]
    by_cases hkept : i < last
    · rw [if_pos hkept, h.direct i hi]
      omega
    · rw [if_neg hkept]
      exact iff_of_false (fun hne => hne rfl) hkept
  tree d hlow hhigh := by
    by_cases hd : last ≤ levelStart d
    · rw [root_cut hlast hlow hhigh hd, Nat.sub_eq_zero_of_le hd]
      exact PointerTree.Filled.empty d
    · have hsize : levelStart 2 = 524 := rfl
      have hsize' : levelStart 3 = 262668 := rfl
      obtain rfl | rfl | rfl : d = 1 ∨ d = 2 ∨ d = 3 := by omega
      · have hroot : (node.cut last).root 1 = node.root 1 := if_pos (by omega)
        rw [hroot]
        exact htree (by omega)
      · omega
      · omega

omit [Config] in
private theorem blocksBelow_one (s : FileSystem) (node : Inode) :
    node.blocksBelow s 1 = ∑ i ∈ Finset.range numOfDirectBlocks, cell (node.direct i) := by
  have hnone : treeCells s 0 (node.root 0) = 0 := treeCells_zero s 0
  rw [Inode.blocksBelow, Inode.blocksBelow, hnone, add_zero]

omit [Config] in
/-- The blocks of a file that has been cut in its single-indirect level. -/
private theorem blocks_cut_single (hd : levelStart 1 < last) (hlast : last ≤ levelStart 2)
    (t : FileSystem) : (node.cut last).blocks t =
      treeCells t 1 (node.root 1) + node.blocksBelow s 1 := by
  have hsize : levelStart 1 = 12 := rfl
  have hsize' : levelStart 2 = 524 := rfl
  have hsize'' : levelStart 3 = 262668 := rfl
  have hroot : (node.cut last).root 1 = node.root 1 := if_pos hd
  have hdirect : ∀ i ∈ Finset.range numOfDirectBlocks,
      cell ((node.cut last).direct i) = cell (node.direct i) := by
    intro i hi
    have hi := Finset.mem_range.mp hi
    rw [direct_cut hi, if_pos (hi.trans hd)]
  have hbelow : (node.cut last).blocksBelow t 1 = node.blocksBelow s 1 := by
    rw [blocksBelow_one, blocksBelow_one, Finset.sum_congr rfl hdirect]
  rw [blocks_split (d := 1) (by omega) (by omega), blocksExcept_one, hroot,
    root_cut hlast (by omega) (by omega) hlast, root_cut hlast (by omega) (by omega) (by omega),
    treeCells_zero, treeCells_zero, zero_add, zero_add, hbelow]

/-- The single-indirect level once the positions from `last` on are cleared. -/
private theorem filled_cutState (h : node.WellMapped s n) (hd : levelStart 1 < last)
    (hd' : last < levelStart 2) (hlast : last < n) :
    PointerTree.Filled numOfAddressesPerBlock (node.cutState s n last 1).words 1 (node.root 1)
      (last - levelStart 1) := by
  have hcleared := cut_cleared h (d := 1) (by omega) (by omega) hd.le hd' hlast
  have hnodup := Multiset.nodup_of_le (treeCells_le_blocks (d := 1) (by omega) (by omega)) h.nodup
  obtain ⟨-, -, hnode⟩ := hcleared.spec
    (Multiset.nodup_of_le (PointerTree.inner_le_cells _ _) hnodup)
  have hfilled := h.filled.tree 1 (by omega) (by omega)
  intro k hk i hi
  have hold := hfilled k hk i hi
  rw [hnode k i hi]
  have hsize : levelStart 1 = 12 := rfl
  have hsize' : levelStart 2 = 524 := rfl
  rw [pow_one, numOfAddressesPerBlock] at hi
  obtain rfl | rfl : k = 0 ∨ k = 1 := by omega
  · rw [pow_zero, Nat.div_one, Nat.mul_one] at hold ⊢
    by_cases hcut : last - levelStart 1 ≤ i ∧ i < last - levelStart 1 + cutCount n last 1
    · rw [if_pos ⟨rfl, hcut⟩]
      exact iff_of_false (fun hne => hne rfl) (by omega)
    · rw [if_neg fun hall => hcut hall.2, hold]
      rw [cutCount, entryCount] at hcut
      simp only [numOfAddressesPerBlock] at hcut
      omega
  · rw [if_neg (by omega), hold, pow_one, numOfAddressesPerBlock, Nat.div_eq_of_lt hi]
    omega

/-- In the single-indirect level everything behind the cut is given up and nothing else. -/
private theorem removeFromSingle_exact (h : node.WellMapped s n)
    (howned : Owned s free (node.blocks s + rest)) (hne : free ≠ 0) (hd : levelStart 1 < last)
    (hlt : last < n) (hlast : last ≤ levelStart 2) :
    ∃ u t free', removeFromSingle node last (last - levelStart 1) s =
        some ((true, node.cut last), t) ∧
      Keeps u (treeCells u 1 (node.root 1) + (node.blocksBelow s 1 + rest)) t free' ∧
      free' + treeCells u 1 (node.root 1) + node.blocksBelow s 1 = free + node.blocks s ∧
      DataOnly s u ∧ (∀ a ∈ rest, u.disk a = s.disk a) ∧
      PointerTree.Filled numOfAddressesPerBlock u.words 1 (node.root 1) (last - levelStart 1) := by
  by_cases hend : last = levelStart 2
  · rw [hend] at hlt ⊢
    obtain ⟨t, free', hrun, hkeeps, hconserved⟩ := removeFromSingle_end h howned hne hlt
    refine ⟨s, t, free', hrun, hkeeps, hconserved, .refl s, fun _ _ => rfl, ?_⟩
    apply (h.filled.tree 1 (by omega) (by omega)).of_full
    · simp only [levelStart, numOfAddressesPerBlock] at *
      omega
    · decide
  · have hd' : last < levelStart 2 := by omega
    obtain ⟨t, free', hrun, hkeeps, hconserved⟩ := removeFromSingle_cut h howned hne hd hd' hlt
    obtain ⟨hdata, hdisk⟩ := cutPath h (d := 1) (by omega) (by omega) hd.le hd' hlt
    refine ⟨node.cutState s n last 1, t, free', hrun, hkeeps, hconserved,
      .writeDisk (hdata 1) _, fun a ha => hdisk a ?_, filled_cutState h hd hd' hlt⟩
    -- the address block is one of the file
    rintro rfl
    have hcell := PointerTree.nodeAt_mem_cells
      (cut_cleared h (d := 1) (by omega) (by omega) hd.le hd' hlt).leaf (hdata 1).ne_zero
    have hblock := Multiset.mem_of_le (treeCells_le_blocks (d := 1) (by omega) (by omega)) hcell
    exact Multiset.disjoint_left.mp (Multiset.nodup_add.mp howned.held_nodup).2.2 hblock ha

/-- No block is lost when a file is cut before the end of its single-indirect level. -/
theorem removeDatablocksFromInode_cut (h : node.WellMapped s n)
    (howned : Owned s free (node.blocks s + rest)) (hne : free ≠ 0) (hlt : last < n)
    (hlast : last ≤ levelStart 2) :
    ∃ t free', removeDatablocksFromInode node last s = some ((true, node.cut last), t) ∧
      CutTo s free rest node last t free' := by
  obtain ⟨done, node', t', free₁, hwhole, -, -, hpositions⟩ :=
    removeDatablocksFromInode_positions h (howned.mono (Multiset.le_add_right _ _)) hne hlt
  suffices hcut : ∃ t free', removeDatablocksFromInode node last s =
        some ((true, node.cut last), t) ∧ Owned t free' ((node.cut last).blocks t + rest) ∧
      (∀ a ∈ rest, t.disk a = s.disk a) ∧ DataOnly s t ∧
      free' + (node.cut last).blocks t = free + node.blocks s ∧ (node.cut last).Filled t last by
    obtain ⟨t, free', hrun, howned', hrest, honly, hconserved, hfilled⟩ := hcut
    obtain ⟨hresult, rfl⟩ := Prod.mk.inj (Option.some.inj (hwhole.symm.trans hrun))
    obtain ⟨-, rfl⟩ := Prod.mk.inj hresult
    refine ⟨t', free', hrun, howned', hrest, honly, hconserved, hfilled, fun i hi => ?_,
      fun i hi => (hpositions i hi).disk⟩
    exact (hpositions i hi).path.blockAt (hi.trans (hlt.trans_le h.bound))
  by_cases hdirect : last ≤ numOfDirectBlocks
  · obtain ⟨t, free', hrun, hkeeps, hconserved⟩ :=
      removeFromDirect_keeps h howned hne hdirect hlt
    refine ⟨t, free', ?_, hkeeps.owned, fun a ha => ?_, hkeeps.only, hconserved, ?_⟩
    · rw [removeDatablocksFromInode_direct h hlt hdirect, hrun]
    · exact hkeeps.disk a (Multiset.mem_add.mpr (.inr ha))
    · exact filled_cut h.filled hlt hlast fun hd => absurd hdirect (Nat.not_le.mpr hd)
  · have hd : levelStart 1 < last := Nat.not_le.mp hdirect
    obtain ⟨u, t, free', hrun, hkeeps, hconserved, honly, hrest, hfilled⟩ :=
      removeFromSingle_exact h howned hne hd hlt hlast
    have hwords : ∀ a ∈ treeInner u 1 (node.root 1), ∀ i < numOfAddressesPerBlock,
        t.words a i = u.words a i := by
      intro a ha i _
      rw [FileSystem.words, FileSystem.words, hkeeps.disk a]
      exact Multiset.mem_add.mpr (.inl (mem_treeCells_of_mem_treeInner ha))
    have hcells : treeCells t 1 (node.root 1) = treeCells u 1 (node.root 1) :=
      PointerTree.gather_congr hwords
    have hblocks := @blocks_cut_single s node last hd hlast t
    rw [hcells] at hblocks
    refine ⟨t, free', ?_, ?_, fun a ha => ?_, honly.trans hkeeps.only, ?_, ?_⟩
    · rw [removeDatablocksFromInode_single h hlt hd hlast, hrun]
    · rw [hblocks, add_assoc]
      exact hkeeps.owned
    · rw [hkeeps.disk a, hrest a ha]
      exact Multiset.mem_add.mpr (.inr (Multiset.mem_add.mpr (.inr ha)))
    · rw [hblocks, ← add_assoc]
      exact hconserved
    · exact filled_cut h.filled hlt hlast fun _ => hfilled.congr hwords

end Cut

/-! ## The copy in memory -/

def blocksFor (length : Nat) : Nat := (length + blockSize - 1) / blockSize

/-- A copy of inode `n` with `last` blocks, each as it was in the first place. -/
structure CopyCut (s : FileSystem) (free : Multiset Int64) (n last : Nat) (t : FileSystem)
    (free' : Multiset Int64) : Prop where
  editing : Editing t free' n ((s.inodeAt n).cut last)
  others : OthersKept n s t
  only : DataOnly s t
  conserved : free' + ((s.inodeAt n).cut last).blocks t = free + (s.inodeAt n).blocks s
  filled : ((s.inodeAt n).cut last).Filled t last

section Copy

variable {s t : FileSystem} {free free' : Multiset Int64} {inum : Int64} {n last length : Nat}

omit [Config] in
private theorem cut_self {node : Inode} (h : node.Filled s n) (hnum : node.iBlocksNum.toInt = n) :
    node.cut n = node := by
  have hdirect : (fun i : Fin numOfDirectBlocks => if i.val < n then node.iDirectBlocks i else 0) =
      node.iDirectBlocks := by
    funext i
    have hi := h.direct i.val i.isLt
    rw [Inode.direct, dif_pos i.isLt] at hi
    by_cases hlt : i.val < n
    · rw [if_pos hlt]
    · rw [if_neg hlt]
      by_contra hne
      exact hlt (hi.mp fun hzero => hne hzero.symm)
  have hroot : ∀ d, 1 ≤ d → d ≤ 3 → ¬levelStart d < n → node.root d = 0 := by
    intro d hlow hhigh hle
    have htree := h.tree d hlow hhigh
    rw [Nat.sub_eq_zero_of_le (Nat.not_lt.mp hle)] at htree
    exact htree.root_eq_zero (by decide)
  have hpointer : ∀ d, 1 ≤ d → d ≤ 3 → (if levelStart d < n then node.root d else 0) =
      node.root d := by
    intro d hlow hhigh
    by_cases hlt : levelStart d < n
    · rw [if_pos hlt]
    · rw [if_neg hlt, hroot d hlow hhigh hlt]
  have hblocks : Int64.ofInt n = node.iBlocksNum := by
    rw [← hnum]
    exact Int64.ofInt_toInt _
  have hone := hpointer 1 le_rfl (by omega)
  have htwo := hpointer 2 (by omega) (by omega)
  have hthree := hpointer 3 (by omega) le_rfl
  simp only [Inode.root] at hone htwo hthree
  rw [Inode.cut, hblocks, hdirect, hone, htwo, hthree]

/-- What `cutBlocks` does to a copy of an inode. -/
theorem cutBlocks_run (h : Sound s free) (hinum : ValidInum inum)
    (hle : (last : Int) ≤ (s.inodeAt (inumIndex inum)).iBlocksNum.toInt)
    (hcut : (last : Int) < (s.inodeAt (inumIndex inum)).iBlocksNum.toInt →
      free ≠ 0 ∧ last ≤ levelStart 2) :
    ∃ t free', cutBlocks (s.inodeAt (inumIndex inum)) (last - 1) s =
        some ((s.inodeAt (inumIndex inum)).cut last, t) ∧
      CopyCut s free (inumIndex inum) last t free' ∧
      ∀ j < blockSize * last, fileByte t ((s.inodeAt (inumIndex inum)).cut last) j =
        fileByte s (s.inodeAt (inumIndex inum)) j := by
  have hn := hinum.index_lt
  obtain ⟨count, hmapped⟩ := h.wellMapped hn
  have hnum := hmapped.blocksNum
  by_cases hlt : (last : Int) < (s.inodeAt (inumIndex inum)).iBlocksNum.toInt
  · obtain ⟨hne, hlast⟩ := hcut hlt
    have howned := h.owned
    rw [tableBlocks_split s hn] at howned
    obtain ⟨t, free', hrun, hdone⟩ :=
      removeDatablocksFromInode_cut hmapped howned hne (by omega) hlast
    have hcall : cutBlocks (s.inodeAt (inumIndex inum)) (last - 1) s =
        some ((s.inodeAt (inumIndex inum)).cut last, t) := by
      have hposition : ((last : Int) - 1 + 1).toNat = last := by omega
      rw [cutBlocks, if_pos (by omega), hposition]
      exact bind_of_eq hrun
    have hpath := (primitives_persists hinum.inRange_zero).writes.cutBlocks_within _ _ _ _ _ hcall
      h.stored
    have hothers : OthersKept (inumIndex inum) s t := by
      obtain ⟨S, hdata, hframe⟩ := hdone.only
      exact ⟨fun m hm _ => hframe.inodeAt_eq hdata hm, hdone.rest⟩
    refine ⟨t, free', hcall, ⟨⟨h.stored.path hpath, ?_, fun m hm hother => ?_⟩, hothers,
      hdone.only, hdone.conserved, hdone.filled⟩, fun j hj => ?_⟩
    · rw [hothers.otherBlocks_eq]
      exact hdone.owned
    · rw [hothers.inodeAt m hm hother]
      exact (h.inodes m hm).kept (hothers.kept hm hother)
    · have hi := Nat.div_lt_of_lt_mul hj
      rw [fileByte, hdone.blockAt _ hi, hdone.disk _ hi, fileByte]
  · obtain rfl : count = last := by omega
    rw [cut_self hmapped.filled hnum]
    refine ⟨s, free, ?_, ?_, fun _ _ => rfl⟩
    · rw [cutBlocks, if_neg (by omega)]
      rfl
    · constructor
      · rw [cut_self hmapped.filled hnum]
        exact h.edit hn
      · exact .refl _ s
      · exact .refl s
      · rw [cut_self hmapped.filled hnum]
      · rw [cut_self hmapped.filled hnum]
        exact hmapped.filled

omit [Config] in
theorem byteAt_clearFrom {block : Block} {position p : Nat} (hp : p < blockSize) :
    (clearFrom block position).byteAt p = if p < position then block.byteAt p else 0 := by
  rw [clearFrom, Block.byteAt_splice _ _ _ hp, List.length_replicate]
  by_cases hkept : p < position
  · rw [if_neg (by omega), if_pos hkept]
  · rw [if_pos (by omega), if_neg hkept]
    exact List.getD_replicate 0 (by omega)

omit [Config] in
theorem blocksFor_spec (hpos : 0 < length) : 0 < blocksFor length ∧
    (length - 1) / blockSize + 1 = blocksFor length ∧
    blockSize * (blocksFor length - 1) + ((length - 1) % blockSize + 1) = length := by
  simp only [blocksFor, blockSize]
  omega

theorem CopyCut.mapped (h : CopyCut s free n last t free') (hmax : last ≤ maxBlocksNum) :
    ((s.inodeAt n).cut last).Mapped t := by
  have hnum := @toInt_cut (s.inodeAt n) last hmax
  constructor
  · omega
  · intro i hi
    exact h.filled.blockAt_ne_zero (by omega) (by omega)

/-- A data block of the copy is written over. -/
theorem CopyCut.write (h : CopyCut s free n last t free') {i : Nat} (hi : i < last)
    (hmax : last ≤ maxBlocksNum) (contents : Block) :
    CopyCut s free n last
      (t.writeDisk (((s.inodeAt n).cut last).blockAt t i) contents) free' := by
  have hne := h.filled.blockAt_ne_zero hi (hi.trans_le hmax)
  have hmem := blockAt_mem_blocks hne
  have hheld := Multiset.mem_of_le (Multiset.le_add_right _ (otherBlocks t n)) hmem
  have howned := h.editing.owned
  have hdata := howned.data _ hheld
  have hnodup := Multiset.nodup_of_le (Multiset.le_add_right _ (otherBlocks t n)) howned.held_nodup
  have hkept : ((s.inodeAt n).cut last).Kept t
      (t.writeDisk (((s.inodeAt n).cut last).blockAt t i) contents) := fun a ha =>
    disk_writeDisk_ne fun heq => blockAt_notMem_indirect hnodup hne (heq ▸ ha)
  have hframe : DataFrame (free' + ((s.inodeAt n).cut last).blocks t) t
      (t.writeDisk (((s.inodeAt n).cut last).blockAt t i) contents) :=
    .writeDisk (Multiset.mem_add.mpr (.inr hmem))
  constructor
  · apply h.editing.step hframe (h.editing.stored.step (.block _ hdata.ne_zero))
    rw [hkept.blocks]
    exact howned.write contents hheld
  · exact h.others.trans (h.editing.othersKept hframe)
  · exact h.only.trans (.writeDisk hdata contents)
  · rw [hkept.blocks]
    exact h.conserved
  · exact hkept.filled h.filled

/-- The bytes behind the end of the file are zeros in its last block. -/
theorem clearTail_run (h : CopyCut s free n (blocksFor length) t free') (hpos : 0 < length)
    (hmax : blocksFor length ≤ maxBlocksNum) :
    ∃ u, clearTail (((s.inodeAt n).cut (blocksFor length)).blockAt t (blocksFor length - 1))
        length t = some ((), u) ∧ CopyCut s free n (blocksFor length) u free' ∧
      ∀ j < blockSize * blocksFor length,
        fileByte u ((s.inodeAt n).cut (blocksFor length)) j =
          if j < length then fileByte t ((s.inodeAt n).cut (blocksFor length)) j else 0 := by
  obtain ⟨hlast, -, hend⟩ := blocksFor_spec hpos
  have hsize : 0 < blockSize := by decide
  have hbelow : blocksFor length - 1 < blocksFor length := by omega
  have hwhole : blockSize * (blocksFor length - 1) + blockSize = blockSize * blocksFor length := by
    rw [← Nat.mul_succ]
    congr 1
    omega
  have hne := h.filled.blockAt_ne_zero hbelow (hbelow.trans_le hmax)
  have hheld := Multiset.mem_of_le (Multiset.le_add_right _ (otherBlocks t n))
    (blockAt_mem_blocks hne)
  have hdata := h.editing.owned.data _ hheld
  have hread := readDataBlock_run (s := t) hdata
  unfold clearTail
  rw [bind_of_eq hread]
  by_cases hfull : (length - 1) % blockSize = blockSize - 1
  · refine ⟨t, ?_, h, fun j hj => ?_⟩
    · rw [if_pos hfull]
      rfl
    · rw [if_pos (by omega)]
  · have hnodup := Multiset.nodup_of_le (Multiset.le_add_right _ (otherBlocks t n))
      h.editing.owned.held_nodup
    have hmod := Nat.mod_lt (length - 1) hsize
    refine ⟨_, ?_, h.write hbelow hmax (clearFrom (t.disk
      (((s.inodeAt n).cut (blocksFor length)).blockAt t (blocksFor length - 1)))
        ((length - 1) % blockSize + 1)), fun j hj => ?_⟩
    · rw [if_neg hfull]
      exact bind_of_eq (writeDataBlock_run hdata)
    · have hindex := Nat.div_lt_of_lt_mul hj
      have hdiv := Nat.div_add_mod j blockSize
      have hlt := Nat.mod_lt j hsize
      rw [fileByte_writeDisk hnodup hne (h.filled.blockAt_ne_zero hindex (hindex.trans_le hmax))]
      by_cases htail : j / blockSize = blocksFor length - 1
      · rw [if_pos htail, byteAt_clearFrom hlt, fileByte, htail]
        rw [htail] at hdiv
        apply if_congr _ rfl rfl
        omega
      · rw [if_neg htail, if_pos]
        have hmul := Nat.mul_le_mul_left blockSize
          (show j / blockSize + 1 ≤ blocksFor length - 1 by omega)
        rw [Nat.mul_succ] at hmul
        omega

/-- A file that has enough blocks for `length` bytes is cut to them. -/
theorem shrinkTo_run (h : Sound s free) (hinum : ValidInum inum)
    (hle : (blocksFor length : Int) ≤ (s.inodeAt (inumIndex inum)).iBlocksNum.toInt)
    (hcut : (blocksFor length : Int) < (s.inodeAt (inumIndex inum)).iBlocksNum.toInt →
      free ≠ 0 ∧ blocksFor length ≤ levelStart 2) :
    ∃ t free', shrinkTo inum (s.inodeAt (inumIndex inum)) length s =
        some (0, t.setInode (inumIndex inum)
          { (s.inodeAt (inumIndex inum)).cut (blocksFor length) with
            iFileSize := Int64.ofInt length }) ∧
      CopyCut s free (inumIndex inum) (blocksFor length) t free' ∧
      ∀ j < blockSize * blocksFor length,
        fileByte t ((s.inodeAt (inumIndex inum)).cut (blocksFor length)) j =
          if j < length then fileByte s (s.inodeAt (inumIndex inum)) j else 0 := by
  have hn := hinum.index_lt
  obtain ⟨count, hmapped⟩ := h.wellMapped hn
  have hmax : blocksFor length ≤ maxBlocksNum := by
    have := hmapped.bound
    have := hmapped.blocksNum
    omega
  obtain ⟨t, free', hrun, hcopy, hbyte⟩ := cutBlocks_run h hinum hle hcut
  by_cases hzero : length = 0
  · subst hzero
    have hnone : blocksFor 0 = 0 := rfl
    rw [hnone] at hrun hcopy ⊢
    have hrun : cutBlocks (s.inodeAt (inumIndex inum)) (-1) s =
        some ((s.inodeAt (inumIndex inum)).cut 0, t) := hrun
    have hwrite := @writeInode_run _ _ _ { (s.inodeAt (inumIndex inum)).cut 0 with iFileSize := 0 }
      hcopy.editing.stored.toTableFormat hinum
    refine ⟨t, free', ?_, hcopy, fun j hj => absurd hj (Nat.not_lt_zero j)⟩
    rw [shrinkTo, if_pos rfl, bind_of_eq hrun, if_pos rfl]
    exact bind_of_eq hwrite
  · obtain ⟨hlast, hposition, -⟩ := blocksFor_spec (Nat.pos_of_ne_zero hzero)
    have hbelow : blocksFor length - 1 < blocksFor length := by omega
    have hnum := @toInt_cut (s.inodeAt (inumIndex inum)) (blocksFor length) hmax
    have hmapped' := hcopy.mapped hmax
    have hdata : ∀ b ∈ ((s.inodeAt (inumIndex inum)).cut (blocksFor length)).blocks t,
        DataBlock b := fun b hb =>
      hcopy.editing.owned.data b (Multiset.mem_of_le (Multiset.le_add_right _ _) hb)
    have hindex : (((length - 1) / blockSize : Nat) : Int) = (blocksFor length : Int) - 1 := by omega
    have hnat : ((blocksFor length : Int) - 1).toNat = blocksFor length - 1 := by omega
    obtain ⟨prev, hlookup, -⟩ := getDiskBlockFromInodeBlock_run hdata hmapped'
      (show ((blocksFor length - 1 : Nat) : Int) < _ by omega) (prevValid_zero t _ _)
    have hpos := (hdata _ (blockAt_mem_blocks (hmapped'.blockAt_ne_zero (blocksFor length - 1)
      (by omega)))).pos
    obtain ⟨u, hclear, hcopy', htail⟩ := clearTail_run hcopy (Nat.pos_of_ne_zero hzero) hmax
    have hwrite := @writeInode_run _ _ _ { (s.inodeAt (inumIndex inum)).cut (blocksFor length) with
      iFileSize := Int64.ofInt length } hcopy'.editing.stored.toTableFormat hinum
    refine ⟨u, free', ?_, hcopy', fun j hj => ?_⟩
    · rw [shrinkTo, if_neg hzero, hindex, bind_of_eq hrun, if_neg (by omega), hnat,
        bind_of_eq hlookup]
      simp only [if_neg (show ¬(((s.inodeAt (inumIndex inum)).cut (blocksFor length)).blockAt t
        (blocksFor length - 1)).toInt ≤ 0 by omega), bind_of_eq hclear]
      exact bind_of_eq hwrite
    · rw [htail j hj, hbyte j hj]

end Copy

/-! ## The file that is left -/

section File

variable {s t : FileSystem} {free free' : Multiset Int64} {inum : Int64} {names : List CString}
  {length : Nat}

/-- The blocks behind the new end of a file can be given up without losing one. -/
def CanCut (s : FileSystem) (free : Multiset Int64) (inum : Int64) (length : Nat) : Prop :=
  (blocksFor length : Int) < (s.inodeAt (inumIndex inum)).iBlocksNum.toInt →
    free ≠ 0 ∧ blocksFor length ≤ levelStart 2

/-- The copy as it is stored. -/
private structure Stamped (node : Inode) (length : Nat) (node' : Inode) : Prop where
  map : node' = node'.withMap (node.cut (blocksFor length))
  mode : node'.iMode = node.iMode
  mark : node'.iAllocated = node.iAllocated
  links : node'.iLinksCount = node.iLinksCount
  size : node'.iFileSize.toInt = length
  blocksNum : node'.iBlocksNum.toInt = blocksFor length

omit [Config] in
private theorem stamped {node : Inode} (hlength : length < 2 ^ 63)
    (hmax : blocksFor length ≤ maxBlocksNum) :
    Stamped node length { node.cut (blocksFor length) with iFileSize := Int64.ofInt length } where
  map := rfl
  mode := rfl
  mark := rfl
  links := rfl
  size := Int64.toInt_ofInt_of_le (by omega) (by omega)
  blocksNum := @toInt_cut node _ hmax

section Commit

variable {n : Nat} {node : Inode} (h : WholeTree s free) (hn : n < inodeCount)
  (hregular : (s.inodeAt n).isRegular = true)
  (hcopy : CopyCut s free n (blocksFor length) t free')
  (hstamp : Stamped (s.inodeAt n) length node) (hmax : blocksFor length ≤ maxBlocksNum)

include hcopy hstamp

private theorem CopyCut.edited : Editing t free' n node := by
  refine ⟨hcopy.editing.stored, ?_, hcopy.editing.others⟩
  rw [Inode.blocks_eq_of_withMap _ hstamp.map]
  exact hcopy.editing.owned

include h hn hregular hmax in
private theorem CopyCut.wellFormed : WellFormed (t.setInode n node) free' := by
  have hmark := Inode.isRegular_iAllocated hregular
  have hsize := hstamp.size
  have hdir : node.isDir = false := by
    rw [isDir_congr hstamp.mode]
    exact Inode.isRegular_isDir hregular
  apply h.commit hn (hcopy.edited hstamp) hcopy.others _ _ hstamp.mark
  · intro hyes
    rw [hdir] at hyes
    cases hyes
  · refine ⟨by omega, fun hyes => ?_⟩
    rw [hdir] at hyes
    cases hyes
  · obtain ⟨S, -, hframe⟩ := hcopy.only
    exact hframe.sFirstIno
  · refine ⟨(hcopy.mapped hmax).of_withMap hstamp.map, ⟨_, hstamp.blocksNum,
      hcopy.filled.of_withMap hstamp.map⟩, fun hvacant => ?_⟩
    rw [hstamp.mark, hmark] at hvacant
    cases hvacant

include hn hmax in
private theorem CopyCut.fileByte_eq {j : Nat} (hj : j < blockSize * blocksFor length) :
    fileByte (t.setInode n node) node j =
      fileByte t ((s.inodeAt n).cut (blocksFor length)) j := by
  have hsame : SameData t (t.setInode n node) := .setInode node hn
  have howned := (hcopy.edited hstamp).owned
  have hle : node.blocks t ≤ node.blocks t + otherBlocks t n := Multiset.le_add_right _ _
  have hblock := Inode.blockAt_eq_of_withMap (s := t) hstamp.map (j / blockSize)
  have hindex := Nat.div_lt_of_lt_mul hj
  have hne := hcopy.filled.blockAt_ne_zero hindex (hindex.trans_le hmax)
  rw [← hblock] at hne
  calc fileByte (t.setInode n node) node j = fileByte t node j :=
        AltFs.fileByte_eq ((hsame.kept howned hle).blockAt _)
          (hsame.disk _ (howned.data _ (Multiset.mem_of_le hle (blockAt_mem_blocks hne))))
    _ = fileByte t ((s.inodeAt n).cut (blocksFor length)) j := by
        rw [fileByte, hblock, fileByte]

end Commit

/-- A regular file is cut to `length` bytes. -/
theorem shrinkTo_wholeTree (h : WholeTree s free)
    (hnode : follow (childOf s) rootInodeNum names = some inum)
    (hregular : (s.inodeAt (inumIndex inum)).isRegular = true)
    (hlength : length ≤ (s.inodeAt (inumIndex inum)).fileSize)
    (hcut : CanCut s free inum length) :
    ∃ t free', shrinkTo inum (s.inodeAt (inumIndex inum)) length s = some (0, t) ∧
      WholeTree t free' ∧ free' + tableBlocks t = free + tableBlocks s ∧
      (Coherent s → Coherent t) ∧
      view t = (view s).put names ⟨(s.inodeAt (inumIndex inum)).iMode,
        (contentOf s (inumIndex inum)).take length⟩ := by
  have hinum := h.rooted.valid hnode
  have hn := hinum.index_lt
  have hnum := ((h.served _ hn).file hregular).blocksNum
  have hbound := (s.inodeAt (inumIndex inum)).iFileSize.toInt_lt
  have hle : (blocksFor length : Int) ≤ (s.inodeAt (inumIndex inum)).iBlocksNum.toInt := by
    rw [hnum, blocksFor]
    exact_mod_cast Nat.div_le_div_right (by omega)
  have hmax : blocksFor length ≤ maxBlocksNum := by
    obtain ⟨count, hmapped⟩ := h.wellMapped hn
    have := hmapped.bound
    have := hmapped.blocksNum
    omega
  rw [Inode.fileSize] at hlength
  have hstamp := @stamped length (s.inodeAt (inumIndex inum)) (by omega) hmax
  obtain ⟨u, free', hrun, hcopy, hbyte⟩ := shrinkTo_run h.toSound hinum hle hcut
  generalize { (s.inodeAt (inumIndex inum)).cut (blocksFor length) with
    iFileSize := Int64.ofInt length } = node' at hrun hstamp
  have hself : (u.setInode (inumIndex inum) node').inodeAt (inumIndex inum) = node' :=
    inodeAt_setInode_self
  have hedit := hcopy.edited hstamp
  have hchanged : FileChanged s inum (u.setInode (inumIndex inum) node') := by
    constructor
    · exact hcopy.others.trans (othersKept_setInode hedit.owned le_rfl hn)
    · rw [hself, hstamp.mode]
    · rw [hself, hstamp.mark]
    · rw [hself, hstamp.links]
    · rw [hself]
      constructor
      · rw [hstamp.size]
        omega
      · rw [hstamp.blocksNum, Inode.fileSize, hstamp.size]
        rfl
      · intro j hlow hhigh
        rw [Inode.fileSize, hstamp.size] at hlow
        rw [hstamp.blocksNum] at hhigh
        rw [hcopy.fileByte_eq hn hstamp hmax hhigh, hbyte j hhigh, if_neg (by omega)]
    · obtain ⟨S, -, hframe⟩ := hcopy.only
      exact hframe.cache
  have hcontent : contentOf (u.setInode (inumIndex inum) node') (inumIndex inum) =
      (contentOf s (inumIndex inum)).take length := by
    rw [contentOf, contentOf, hself, bytesAt, bytesAt, ← List.map_take, List.take_range,
      Inode.fileSize, Inode.fileSize, hstamp.size, Nat.min_eq_left hlength, Int.toNat_natCast]
    apply List.map_congr_left
    intro j hj
    have hj := List.mem_range.mp hj
    have hfit : j < blockSize * blocksFor length := by
      simp only [blocksFor, blockSize]
      omega
    rw [Nat.zero_add, hcopy.fileByte_eq hn hstamp hmax hfit, hbyte j hfit, if_pos hj]
  have hwell := hcopy.wellFormed h hn hregular hstamp hmax
  obtain ⟨htree, hcoherent, hview⟩ := hchanged.wholeTree h hwell hnode hregular
  rw [hcontent] at hview
  refine ⟨_, free', hrun, htree, ?_, hcoherent, hview⟩
  rw [tableBlocks_setInode hedit.owned le_rfl hn, Inode.blocks_eq_of_withMap _ hstamp.map,
    hcopy.others.otherBlocks_eq, ← add_assoc, hcopy.conserved, add_assoc, ← tableBlocks_split s hn]

end File

/-! ## The operation -/

section Operation

variable {s t : FileSystem} {free : Multiset Int64} {names : List CString} {length : Int64} {r : Int}

/-- There is room for the bytes that are added, and the blocks that go can be given up. -/
def CanResize (s : FileSystem) (free : Multiset Int64) (names : List CString) (length : Nat) :
    Prop :=
  ∀ inum, follow (childOf s) rootInodeNum names = some inum →
    ((s.inodeAt (inumIndex inum)).fileSize < length →
      RoomFor (s.inodeAt (inumIndex inum)) (s.inodeAt (inumIndex inum)).fileSize
        (length - (s.inodeAt (inumIndex inum)).fileSize) free.card) ∧
    CanCut s free inum length

theorem altfsTruncate_served (h : WholeTree s free) (hcoherent : Coherent s)
    (hnames : ∀ name ∈ names, IsComponent name)
    (hregular : ∀ node, view s names = some node → node.isRegular = true)
    (hsize : CanResize s free names length.toInt.toNat)
    (hrun : altfsTruncate (pathOf names) length s = some (r, t)) :
    (r, view t) = (view s).truncate names length.toInt ∧ Served s free t := by
  obtain ⟨inum, s₁, hname, hrest⟩ := bind_eq_some_iff.mp hrun
  obtain ⟨hsame, hcoherent₁, hlookup⟩ := nameI_wholeTree h hcoherent hnames hname
  have h₁ := hsame.wholeTree h
  have hserved := hsame.served h hcoherent₁
  have hview := hsame.view_eq h
  unfold FileTree.truncate
  rcases hlookup with ⟨hmissing, hnone⟩ | ⟨hfound, hnode⟩
  · rw [if_pos hmissing] at hrest
    cases hrest
    rw [hnone, hview]
    exact ⟨rfl, hserved⟩
  have hinum := h.rooted.valid hnode
  have hsome := view_eq_some hnode
  have hread := getInode_run h₁.stored.toTableFormat hinum
  rw [if_neg hfound, bind_of_eq hread, hsame.inodeAt] at hrest
  rw [hsome]
  have hfile : (s.inodeAt (inumIndex inum)).isRegular = true := by
    rw [h.isRegular hnode]
    exact hregular _ hsome
  have hsound := (h.served _ hinum.index_lt).file hfile
  have hnonneg := hsound.nonneg
  have hlength : (contentOf s (inumIndex inum)).length =
      (s.inodeAt (inumIndex inum)).fileSize := by
    rw [contentOf, length_bytesAt]
  have hcontent : (nodeOf s inum).content = contentOf s (inumIndex inum) := by
    rw [nodeOf, hfile]
    rfl
  have hwrite : (s.inodeAt (inumIndex inum)).canWrite = (nodeOf s inum).canWrite := rfl
  rw [hwrite] at hrest
  simp only [hcontent]
  cases hmay : (nodeOf s inum).canWrite with
  | false =>
      rw [hmay] at hrest
      cases hrest
      rw [hview]
      exact ⟨rfl, hserved⟩
  | true =>
  rw [hmay] at hrest
  by_cases hnegative : length.toInt < 0
  · rw [if_neg (by decide), if_pos hnegative] at hrest
    cases hrest
    rw [hview, if_neg (by decide), if_pos hnegative]
    exact ⟨rfl, hserved⟩
  rw [if_neg (by decide), if_neg hnegative] at hrest
  rw [if_neg (by decide), if_neg hnegative]
  obtain ⟨hroom, hcut⟩ := hsize inum hnode
  have hnode₁ := hnode
  rw [← hsame.childOf_eq] at hnode₁
  by_cases hzero : length = 0 ∧ (s.inodeAt (inumIndex inum)).iFileSize = 0
  · rw [if_pos hzero] at hrest
    cases hrest
    have hnil : (nodeOf s inum).content = [] := by
      rw [hcontent, ← List.length_eq_zero_iff, hlength, Inode.fileSize, hzero.2]
      rfl
    refine ⟨?_, hserved⟩
    rw [hview, PathTree.put_self]
    rw [hsome, hzero.1, ← hcontent, hnil]
    change some (nodeOf s inum) = some ⟨(nodeOf s inum).mode, []⟩
    rw [← hnil]
  rw [if_neg hzero] at hrest
  by_cases hlonger : length.toInt > (s.inodeAt (inumIndex inum)).iFileSize.toInt
  · rw [if_pos hlonger] at hrest
    obtain ⟨written, u, hcall, hrest⟩ := bind_eq_some_iff.mp hrest
    have hadded : (length.toInt - (s.inodeAt (inumIndex inum)).iFileSize.toInt).toNat =
        length.toInt.toNat - (s.inodeAt (inumIndex inum)).fileSize := by
      rw [Inode.fileSize]
      omega
    have hlt : (s.inodeAt (inumIndex inum)).fileSize < length.toInt.toNat := by
      rw [Inode.fileSize]
      omega
    rw [hadded] at hcall hrest
    have hroom₁ : RoomForBytes s₁ free names (s.inodeAt (inumIndex inum)).iFileSize.toInt.toNat
        (List.replicate (length.toInt.toNat - (s.inodeAt (inumIndex inum)).fileSize)
          (0 : UInt8)).length := by
      intro i hi
      obtain rfl : i = inum := Option.some.inj (hi.symm.trans hnode₁)
      rw [hsame.inodeAt, List.length_replicate]
      exact hroom hlt
    obtain ⟨hresult, hcoherent', free', htree, hconserved⟩ :=
      altfsWrite_served h₁ hcoherent₁ hnames (by rwa [hview]) hroom₁ hcall
    have hsome₁ := hsome
    rw [← hview] at hsome₁
    have hzeros : List.replicate (length.toInt.toNat - (s.inodeAt (inumIndex inum)).fileSize)
        (0 : UInt8) ≠ [] := by
      rw [Ne, List.replicate_eq_nil_iff]
      omega
    rw [FileTree.write, if_neg hzeros, if_neg (not_lt.mpr hnonneg), hsome₁] at hresult
    obtain ⟨rfl, hafter⟩ := Prod.mk.inj hresult
    rw [List.length_replicate, if_pos rfl] at hrest
    cases hrest
    rw [hsame.tableBlocks_eq] at hconserved
    refine ⟨?_, hcoherent', free', htree, hconserved⟩
    rw [hafter, hview, FileTree.resize_of_ge (by rw [hlength]; exact hlt.le), hlength, hcontent]
    rfl
  · rw [if_neg hlonger, ← hsame.inodeAt] at hrest
    have hfile₁ := hfile
    rw [← hsame.inodeAt] at hfile₁
    have hcut₁ : CanCut s₁ free inum length.toInt.toNat := by
      unfold CanCut
      rw [hsame.inodeAt]
      exact hcut
    have hle : length.toInt.toNat ≤ (s.inodeAt (inumIndex inum)).fileSize := by
      rw [Inode.fileSize]
      omega
    obtain ⟨u, free', hshrink, htree, hconserved, hcoherent', hafter⟩ :=
      shrinkTo_wholeTree h₁ hnode₁ hfile₁ (by rw [hsame.inodeAt]; exact hle) hcut₁
    rw [hshrink] at hrest
    cases hrest
    rw [hsame.tableBlocks_eq] at hconserved
    refine ⟨?_, hcoherent' hcoherent₁, free', htree, hconserved⟩
    rw [hafter, hview, hsame.inodeAt, hsame.contentOf_eq,
      FileTree.resize_of_le (by rw [hlength]; exact hle)]
    rfl

end Operation

end AltFs
