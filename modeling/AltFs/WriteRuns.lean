import AltFs.ReadRuns
import AltFs.WellFormed
import AltFs.WriteLoops

/-!
# Writing to a file

What `altfs_write` leaves behind, also when the device runs out of blocks: the
contents, the size and the block map of the file, and the blocks that are lost.
-/

namespace AltFs

open Prog

variable [Config]

/-- The bytes of a file of `m` blocks with zeros behind them. -/
def paddedBytes (s : FileSystem) (node : Inode) (m j : Nat) : UInt8 :=
  if j < blockSize * m then fileByte s node j else 0

/--
`buff` has been written at `offset` to file `n`, which had `m` blocks and got
`k` more; `leak` is a block that belongs to no file any more.
-/
structure FileWritten (n offset : Nat) (buff : List UInt8) (m k : Nat) (leak free : Multiset Int64)
    (s : FileSystem) (free' : Multiset Int64) (s' : FileSystem) : Prop where
  le : k ≤ (offset + buff.length - 1) / blockSize + 1 - m
  stored : Stored s'
  owned : Owned s' free' (leak + tableBlocks s')
  others : OthersKept n s s'
  cache : s'.cache = s.cache
  sFirstIno : s'.superblock.sFirstIno = s.superblock.sFirstIno
  node : ∃ node : Inode, s'.inodeAt n = { (s.inodeAt n).withMap node with
    iFileSize := node.iFileSize, iMtime := node.iMtime, iStatusChangeTime := node.iStatusChangeTime }
  size : (s'.inodeAt n).iFileSize.toInt = max (s.inodeAt n).iFileSize.toInt
    (offset + writtenUpTo offset buff.length (m + k))
  blocksNum : (s'.inodeAt n).iBlocksNum.toInt = (m + k : Nat)
  mapped : (s'.inodeAt n).Mapped s'
  filled : leak = 0 → (s'.inodeAt n).Filled s' (m + k)
  fileByte : ∀ j < blockSize * (m + k), fileByte s' (s'.inodeAt n) j =
    spliced (paddedBytes s (s.inodeAt n) m) offset buff j
  conserved : free' + (leak + tableBlocks s') = free + tableBlocks s
  cost : leak = 0 → free.card = free'.card + appendCost m k
  enough : appendCost m k ≤ free.card
  stopped : m + k ≤ (offset + buff.length - 1) / blockSize →
    free.card < appendCost m (k + 1) ∨ maxBlocksNum ≤ m + k
  leaks : leak = 0 ↔
    (offset + buff.length - 1) / blockSize < m + k ∨ free.card = appendCost m k

section

variable {s : FileSystem} {free : Multiset Int64} {inum : Int64} {node : Inode}
  {buff : List UInt8} {offset m k bytes : Nat}

/-- The end of a write: the size, the times and the inode. -/
private theorem finishWrite_run (hformat : TableFormat s) (hinum : ValidInum inum)
    (node : Inode) (offset bytes : Nat) :
    ∃ clock node', finishWrite inum node offset bytes s =
        some ((bytes : Int), ({ s with clock := clock } : FileSystem).setInode (inumIndex inum) node') ∧
      node' = { (node.written offset bytes) with
        iMtime := node'.iMtime, iStatusChangeTime := node'.iStatusChangeTime } := by
  by_cases hbytes : bytes = 0
  · refine ⟨s.clock, node.written offset bytes, ?_, rfl⟩
    rw [finishWrite, stampWrite, if_pos hbytes, pure_bind_apply,
      bind_of_eq (writeInode_run hformat hinum)]
    rfl
  · refine ⟨s.clock + 1, (node.written offset bytes).modified (Config.timeAt s.clock), ?_, rfl⟩
    have hformat' : TableFormat { s with clock := s.clock + 1 } :=
      ⟨hformat.sInodesCount, hformat.sNumOfInodesPerBlock⟩
    have hstamp : stampWrite (node.written offset bytes) bytes s =
        some ((node.written offset bytes).modified (Config.timeAt s.clock),
          { s with clock := s.clock + 1 }) := by
      rw [stampWrite, if_neg hbytes]
      rfl
    rw [finishWrite, bind_of_eq hstamp, bind_of_eq (writeInode_run hformat' hinum)]
    rfl

omit [Config] in
private theorem toInt_written (hoffset : offset < 2 ^ 63) (hbytes : offset + bytes < 2 ^ 63) :
    (node.written offset bytes).iFileSize.toInt =
      max node.iFileSize.toInt (offset + bytes) := by
  have hlow := node.iFileSize.le_toInt
  have hhigh := node.iFileSize.toInt_lt
  rw [Inode.written]
  simp only
  rw [Int64.toInt_ofInt_of_le (by omega) (by omega)]
  omega

/-- The two loops together, on the copy of the inode. -/
private theorem writeLoops_run {rest : Multiset Int64} (hbuff : buff ≠ [])
    (howned : Owned s free (node.blocks s + rest)) (hfilled : node.Filled s m)
    (hmapped : node.Mapped s) (hm : node.iBlocksNum.toInt = m) :
    ∃ k leak node' s₁ s₂ free',
      overwriteBlocks node buff (Span.ofRange offset buff.length)
        ((m : Int) - (offset / blockSize : Nat)).toNat (offset / blockSize) 0 0 s =
          some ((true, writtenUpTo offset buff.length m), s₁) ∧
      appendBlocks buff (Span.ofRange offset buff.length)
        (((offset + buff.length - 1) / blockSize : Nat) - (m : Int) + 1)
        ((offset / blockSize : Nat) - (m : Int) + 1)
        ((((offset + buff.length - 1) / blockSize : Nat) - (m : Int) + 1)).toNat 1 node
        (writtenUpTo offset buff.length m) s₁ =
          some ((node', writtenUpTo offset buff.length (m + k)), s₂) ∧
      DataFrame (free + node.blocks s) s s₂ ∧
      (∀ j < blockSize * (m + k), fileByte s₂ node' j =
        spliced (paddedBytes s node m) offset buff j) ∧
      node.blocks s₁ = node.blocks s ∧
      BlocksAppended rest free s₁ node offset buff m
        ((offset + buff.length - 1) / blockSize + 1 - m) k leak s₂ node' free' := by
  obtain ⟨s₁, hfirst, howned₁, hframe₁, hkept₁, hbytes₁⟩ :=
    @overwriteBlocks_run _ s node free _ buff offset m hbuff howned (Multiset.le_add_right _ _)
      hmapped hm
  rw [← hkept₁.blocks] at howned₁
  have hcount : ((((offset + buff.length - 1) / blockSize : Nat) - (m : Int) + 1)).toNat =
      (offset + buff.length - 1) / blockSize + 1 - m := by omega
  have hposition : (m : Int) = m + (1 : Nat) - 1 := by omega
  have hend : (offset + buff.length - 1) / blockSize + 1 - m ≠ 0 →
      m + ((offset + buff.length - 1) / blockSize + 1 - m) =
        (offset + buff.length - 1) / blockSize + 1 := by omega
  rw [hcount]
  obtain ⟨k, leak, node', s₂, free', hsecond, happended⟩ :=
    @appendBlocks_spec _ s₁ node free rest buff offset _ 1 m m hbuff howned₁
      (hkept₁.filled hfilled) hm (hkept₁.mapped hmapped) le_rfl hposition hend
  refine ⟨k, leak, node', s₁, s₂, free', hfirst, hsecond, ?_, fun j hj => ?_, hkept₁.blocks,
    happended⟩
  · have hframe₂ := happended.frame
    rw [hkept₁.blocks] at hframe₂
    exact (hframe₁.mono (Multiset.subset_of_le (Multiset.le_add_left _ _))).trans hframe₂
  · rw [happended.fileByte j hj, spliced, spliced, paddedBytes]
    by_cases hold : j < blockSize * m
    · rw [if_pos hold, if_pos hold, hbytes₁ j hold, spliced]
    · rw [if_neg hold, if_neg hold]

/-- `altfs_write` on the inode of the file. -/
theorem writeInum_spec (h : Sound s free) (hinum : ValidInum inum) (hbuff : buff ≠ [])
    (hoffset : offset < 2 ^ 63) (hm : (s.inodeAt (inumIndex inum)).iBlocksNum.toInt = m) :
    ∃ k leak free' s', writeInum inum buff offset s =
        some ((writtenUpTo offset buff.length (m + k) : Int), s') ∧
      FileWritten (inumIndex inum) offset buff m k leak free s free' s' := by
  have hn := hinum.index_lt
  have hedit := h.edit hn
  obtain ⟨hmapped, ⟨m', hm', hfilled⟩, -⟩ := h.inodes _ hn
  obtain rfl : m' = m := by omega
  obtain ⟨k, leak, node₂, s₁, s₂, free', hfirst, hsecond, hframe, hbytes, hblocks, happended⟩ :=
    @writeLoops_run _ s free _ buff offset m' _ hbuff hedit.owned hfilled hmapped hm
  have hformat := hframe.format h.stored.toTableFormat
  obtain ⟨clock, node', hfinish, hnode'⟩ := finishWrite_run hformat hinum node₂ offset
    (writtenUpTo offset buff.length (m' + k))
  have hrun : writeInum inum buff offset s = some ((writtenUpTo offset buff.length (m' + k) : Int),
      ({ s₂ with clock := clock } : FileSystem).setInode (inumIndex inum) node') := by
    rw [writeInum, bind_of_eq (getInode_run h.stored.toTableFormat hinum)]
    rw [hm]
    refine (bind_of_eq hfirst).trans ?_
    refine (bind_of_eq hsecond).trans ?_
    exact hfinish
  have hstored : Stored (({ s₂ with clock := clock } : FileSystem).setInode (inumIndex inum) node') :=
    h.stored.path ((primitives_persists hinum.inRange_zero).writes.writeInum_within inum buff offset _ _ _
      hrun h.stored)
  refine ⟨k, leak, free', _, hrun, ?_⟩
  generalize hu : ({ s₂ with clock := clock } : FileSystem) = u at hstored ⊢
  have hframe' : DataFrame (free + (s.inodeAt (inumIndex inum)).blocks s) s u := by
    rw [← hu]
    exact { hframe with }
  have hothers := hedit.othersKept hframe'
  have hmap : node' = node'.withMap node₂ := by
    rw [hnode']
    rfl
  have hblocks' : node'.blocks u = node₂.blocks s₂ := by
    rw [Inode.blocks_eq_of_withMap _ hmap, ← hu]
    rfl
  have hsame₂ : node₂.Kept s₂ u := by
    rw [← hu]
    exact fun _ _ => rfl
  have hmapped' : node₂.Mapped u := hsame₂.mapped happended.mapped
  have howned : Owned u free' (leak + (node'.blocks u + otherBlocks u (inumIndex inum))) := by
    rw [hblocks', hothers.otherBlocks_eq, ← hu]
    exact ⟨happended.owned.freeList.frame rfl fun _ _ => rfl, happended.owned.nodup,
      happended.owned.data⟩
  have hle : node'.blocks u + otherBlocks u (inumIndex inum) ≤
      leak + (node'.blocks u + otherBlocks u (inumIndex inum)) := Multiset.le_add_left _ _
  have hsame : SameData u (u.setInode (inumIndex inum) node') := .setInode node' hn
  have hkept : node'.Kept u (u.setInode (inumIndex inum) node') :=
    hsame.kept howned ((Multiset.le_add_right _ _).trans hle)
  have htable := tableBlocks_setInode howned hle hn
  have hsize : node₂.iFileSize = (s.inodeAt (inumIndex inum)).iFileSize := by
    rw [happended.withMap]
    rfl
  have hcount : (writtenUpTo offset buff.length (m' + k) : Int) + offset < 2 ^ 63 := by
    have hmax : m' + k ≤ maxBlocksNum := by
      by_contra hlt
      have hne := happended.mapped.blockAt_ne_zero maxBlocksNum (by rw [happended.blocksNum]; omega)
      exact hne (Inode.blockAt_of_ge le_rfl)
    simp only [maxBlocksNum] at hmax
    simp only [writtenUpTo, blockSize]
    omega
  refine ⟨happended.le, hstored, ?_, hothers.trans (othersKept_setInode howned hle hn),
    hframe'.cache, hframe'.sFirstIno, ?_, ?_, ?_,
    ?_, ?_, ?_, ?_, happended.cost, happended.enough, ?_, ?_⟩
  · rw [htable]
    exact hsame.owned howned
  all_goals try rw [inodeAt_setInode_self]
  · refine ⟨node', ?_⟩
    rw [hnode', happended.withMap]
    rfl
  · rw [hnode', ← hsize]
    exact toInt_written hoffset (by omega)
  · rw [hmap]
    exact happended.blocksNum
  · exact hkept.mapped (hmapped'.of_withMap hmap)
  · intro hleak
    exact hkept.filled ((hsame₂.filled (happended.filled hleak)).of_withMap hmap)
  · intro j hj
    have hposition : ((j / blockSize : Nat) : Int) < node₂.iBlocksNum.toInt := by
      rw [happended.blocksNum]
      simp only [blockSize] at *
      omega
    have hblock : node'.blockAt u (j / blockSize) = node₂.blockAt s₂ (j / blockSize) := by
      rw [Inode.blockAt_eq_of_withMap hmap, hsame₂.blockAt]
    have hdata : DataBlock (node₂.blockAt s₂ (j / blockSize)) :=
      happended.owned.data _ (Multiset.mem_add.mpr (.inr (Multiset.mem_add.mpr
        (.inl (blockAt_mem_blocks (happended.mapped.blockAt_ne_zero _ hposition))))))
    rw [← hbytes j hj, fileByte, fileByte, hkept.blockAt, hblock, hsame.disk _ hdata, ← hu]
  · have hsum := happended.conserved
    rw [hblocks] at hsum
    rw [htable, hblocks', hothers.otherBlocks_eq, tableBlocks_split s hn, ← add_assoc leak,
      ← add_assoc, hsum, add_assoc]
  · intro hlt
    exact happended.stopped (by omega)
  · have hle := happended.le
    rw [happended.leaks]
    omega

end

end AltFs
