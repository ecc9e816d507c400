import AltFs.FreshFiles

/-!
# Writes that run out of space

The size of the file after a write that has not written all bytes.
-/

namespace AltFs

open Prog

variable [Config]

/--
After a write to file `n` that returned `r`, the size is as the result says,
and every byte below it lies in a block of the file.
-/
structure SizeConsistent (s s' : FileSystem) (n offset : Nat) (r : Int) : Prop where
  size : (s'.inodeAt n).iFileSize.toInt =
    if 0 < r then max (s.inodeAt n).iFileSize.toInt (offset + r)
    else (s.inodeAt n).iFileSize.toInt
  fits : (s'.inodeAt n).iFileSize.toInt ≤ blockSize * (s'.inodeAt n).iBlocksNum.toInt
  readable : ∀ position length : Nat, 0 < length →
    (position + length : Int) ≤ (s'.inodeAt n).iFileSize.toInt →
    readRange (s'.inodeAt n) position length s' =
      some ((true, bytesAt s' (s'.inodeAt n) position length), s')

/--
The write starts behind the end of the file, and the blocks up to its first
byte cannot all be appended.
-/
def HoleTooLarge (node : Inode) (offset freeBlocks : Nat) : Prop :=
  node.iFileSize.toInt < offset ∧ node.iBlocksNum.toInt.toNat ≤ offset / blockSize ∧
    (freeBlocks < appendCost node.iBlocksNum.toInt.toNat
      (offset / blockSize + 1 - node.iBlocksNum.toInt.toNat) ∨
      maxBlocksNum ≤ offset / blockSize)

section

variable {s s₁ s' : FileSystem} {free free' leak : Multiset Int64} {n m k offset : Nat}
  {buff : List UInt8}

theorem FileWritten.count_le (h : FileWritten n offset buff m k leak free s free' s') :
    m + k ≤ maxBlocksNum := by
  by_contra hlt
  have hne := h.mapped.blockAt_ne_zero maxBlocksNum (by rw [h.blocksNum]; omega)
  exact hne (Inode.blockAt_of_ge le_rfl)

/-- Nothing is written exactly when the hole takes all blocks that can be appended. -/
private theorem FileWritten.nothing_iff (h : FileWritten n offset buff m k leak free s free' s')
    (hbuff : buff ≠ []) :
    writtenUpTo offset buff.length (m + k) = 0 ↔ m ≤ offset / blockSize ∧
      (free.card < appendCost m (offset / blockSize + 1 - m) ∨
        maxBlocksNum ≤ offset / blockSize) := by
  have hpos : 0 < buff.length := List.length_pos_iff.mpr hbuff
  have hnone : writtenUpTo offset buff.length (m + k) = 0 ↔ m + k ≤ offset / blockSize := by
    simp only [writtenUpTo, blockSize]
    omega
  have hmax := h.count_le
  rw [hnone]
  constructor
  · intro hle
    have hend : offset / blockSize ≤ (offset + buff.length - 1) / blockSize :=
      Nat.div_le_div_right (by omega)
    refine ⟨by omega, (h.stopped (hle.trans hend)).imp (fun hlt => ?_) fun hlt => by omega⟩
    exact hlt.trans_le (appendCost_mono m (by omega))
  · rintro ⟨hle, hfull⟩
    by_contra hlt
    have hcost : appendCost m (offset / blockSize + 1 - m) ≤ appendCost m k :=
      appendCost_mono m (by omega)
    have := h.enough
    omega

/-- What the loops leave is consistent unless the hole takes everything. -/
theorem FileWritten.sizeConsistent_iff (h : FileWritten n offset buff m k leak free s free' s')
    (hsame : SameButCache s₁ s) (hn : n < inodeCount)
    (hm : (s.inodeAt n).iBlocksNum.toInt = m) (hbuff : buff ≠ [])
    (hfile : (s.inodeAt n).iFileSize.toInt ≤ blockSize * (s.inodeAt n).iBlocksNum.toInt) :
    SizeConsistent s₁ s' n offset (writtenUpTo offset buff.length (m + k)) ↔
      ¬HoleTooLarge (s₁.inodeAt n) offset free.card := by
  have hnothing := h.nothing_iff hbuff
  have hsize := h.size
  rw [hm] at hfile
  rw [HoleTooLarge, ← hsame.inodeAt, hm, Int.toNat_natCast, ← hnothing]
  generalize hw : writtenUpTo offset buff.length (m + k) = w at *
  have hend : 0 < w → offset + w ≤ blockSize * (m + k) := by
    rw [← hw]
    simp only [writtenUpTo, blockSize]
    omega
  constructor
  · rintro ⟨hresult, -, -⟩ ⟨hhole, hzero⟩
    rw [hsize, ← hsame.inodeAt, hzero, if_neg (by decide)] at hresult
    omega
  · intro hhole
    have hfits : (s'.inodeAt n).iFileSize.toInt ≤ blockSize * (m + k : Nat) := by
      rw [hsize]
      simp only [blockSize] at *
      omega
    refine ⟨?_, ?_, fun position length hpos hfit => ?_⟩
    · rw [hsize, ← hsame.inodeAt]
      split
      next => rfl
      next => omega
    · rw [h.blocksNum]
      exact hfits
    · have hle : (s'.inodeAt n).blocks s' ≤ leak + tableBlocks s' :=
        (blocks_le_tableBlocks hn).trans (Multiset.le_add_left _ _)
      refine readRange_spec h.owned hle h.mapped h.blocksNum ?_ hpos
      simp only [blockSize] at *
      omega

/--
The size after a write agrees with the number of bytes written and with the
blocks of the file, unless the write starts behind the end of the file and
there is no room for the hole.
-/
theorem altfsWrite_sizeConsistent_iff {path : CString} {inum offset : Int64} {r : Int}
    (hsound : Sound s free) (hname : nameI path s = some (inum, s₁)) (hfound : inum ≠ -1)
    (hfile : (s.inodeAt (inumIndex inum)).iFileSize.toInt ≤
      blockSize * (s.inodeAt (inumIndex inum)).iBlocksNum.toInt)
    (hbuff : buff ≠ []) (hoffset : 0 ≤ offset.toInt)
    (hrun : altfsWrite path buff offset s = some (r, s')) (hr : 0 ≤ r) :
    SizeConsistent s s' (inumIndex inum) offset.toInt.toNat r ↔
      ¬HoleTooLarge (s.inodeAt (inumIndex inum)) offset.toInt.toNat free.card := by
  have hsame := nameI_sameButCache hname
  have hsound₁ := hsame.sound hsound
  rw [← hsame.inodeAt] at hfile
  have hlength : buff.length ≠ 0 := fun hzero => hbuff (List.length_eq_zero_iff.mp hzero)
  rw [altfsWrite, if_neg hlength, if_neg (not_lt.mpr hoffset), bind_of_eq hname, if_neg hfound]
    at hrun
  obtain ⟨node, s₂, hread, -⟩ := bind_eq_some_iff.mp hrun
  obtain ⟨hinum, rfl, rfl⟩ := hsound₁.validInum_of_getInode hread
  obtain ⟨-, ⟨m, hm, -⟩, -⟩ := hsound₁.inodes _ hinum.index_lt
  have hlt : offset.toInt.toNat < 2 ^ 63 := by
    have := offset.toInt_lt
    omega
  obtain ⟨k, leak, free', t, hwrite, hwritten⟩ := writeInum_spec hsound₁ hinum hbuff hlt hm
  rw [hwrite] at hrun
  cases hrun
  exact hwritten.sizeConsistent_iff hsame hinum.index_lt hm hbuff hfile

/-- With 64 free blocks a write stops after 63 blocks: the last one is the indirect block. -/
private theorem FileWritten.stops_63 (h : FileWritten n offset buff 0 k leak free s free' s')
    (hcard : free.card = 64) (hlast : 63 ≤ (offset + buff.length - 1) / blockSize) : k = 63 := by
  have hfits : appendCost 0 63 = 64 := by decide
  have hmore : appendCost 0 64 = 65 := by decide
  have henough := h.enough
  have hlow : k < 64 := by
    by_contra hlong
    have := appendCost_mono 0 (show 64 ≤ k by omega)
    omega
  by_contra hshort
  rcases h.stopped (by omega) with hfew | hfull
  · have := appendCost_mono 0 (show k + 1 ≤ 63 by omega)
    omega
  · simp only [maxBlocksNum] at hfull
    omega

end

omit [Config] in
/-- 70 blocks are to be written behind a hole of one block: there is room for 62 and the hole. -/
theorem altfsWrite_sizeConsistent_iff_short :
    letI := Config.ofBlocks 67 (by decide)
    ∃ s s', altfsWrite [slash, letterF] (List.replicate (blockSize * 70) 7) 5000 s =
        some (253048, s') ∧ SizeConsistent s s' 3 5000 253048 := by
  let _ := Config.ofBlocks 67 (by decide)
  obtain ⟨s, free, entries, hroot, hempty, -, hcard⟩ := exists_emptyFile (by decide) (by decide)
  have hdata : numOfDataBlocks = 65 := by decide
  have hroot' : RootHolds s free entries 4 (([slash, letterF] : CString).length + 998) := hroot
  have hblocks : (s.inodeAt 3).iBlocksNum = 0 := hempty.emptyMap.blocksNum
  have hsize : (s.inodeAt 3).iFileSize = 0 := hempty.iFileSize
  obtain ⟨buff, hbuff⟩ : ∃ buff, buff = List.replicate (blockSize * 70) (7 : UInt8) := ⟨_, rfl⟩
  have hlength : buff.length = 286720 := by
    rw [hbuff, List.length_replicate]
    rfl
  have hne : buff ≠ [] := List.length_pos_iff.mp (by omega)
  obtain ⟨s₁, hname, -⟩ := nameI_run hroot'.ready hempty.walk
  obtain ⟨_, c, _, _, t, hrun, -, hwritten, -⟩ := @RootHolds.write _ _ _ _ _ _ _ _ buff 5000 0
    hroot' hempty.walk hempty.valid (by decide) (by decide) hempty.iAllocated hempty.isDir
    (by rw [hempty.emptyMap.blocksNum]; rfl) hne (by decide)
  have hoffset : (5000 : Int64).toInt.toNat = 5000 := rfl
  rw [hoffset] at hrun hwritten
  obtain rfl : c = 63 := hwritten.stops_63 (by omega) (by rw [hlength]; decide)
  rw [hlength] at hrun
  have hrun : altfsWrite [slash, letterF] buff 5000 s = some (253048, t) := hrun
  refine ⟨s, t, hbuff ▸ hrun, (@altfsWrite_sizeConsistent_iff _ _ _ _ _ _ _ 3 _ _
    hroot.wellFormed.toSound hname (by decide) ?_ hne (by decide) hrun (by decide)).mpr ?_⟩
  · change (s.inodeAt 3).iFileSize.toInt ≤ blockSize * (s.inodeAt 3).iBlocksNum.toInt
    rw [hsize, hblocks]
    decide
  · rintro ⟨-, -, hroom⟩
    change free.card < appendCost (s.inodeAt 3).iBlocksNum.toInt.toNat
      (1 + 1 - (s.inodeAt 3).iBlocksNum.toInt.toNat) ∨ maxBlocksNum ≤ 1 at hroom
    rw [hblocks] at hroom
    have hcost : appendCost 0 2 = 2 := by decide
    rcases hroom with hfew | hfull
    · change free.card < appendCost 0 2 at hfew
      omega
    · simp only [maxBlocksNum] at hfull
      omega

omit [Config] in
/-- A byte is written 65 blocks behind the end of an empty file, and 64 blocks are free. -/
theorem altfsWrite_hole_f :
    letI := Config.ofBlocks 67 (by decide)
    ∃ s free r s', WellFormed s free ∧ EmptyFile s [slash, letterF] 3 ∧
      altfsWrite [slash, letterF] [1] 266240 s = some (r, s') ∧ 0 ≤ r ∧
      ¬SizeConsistent s s' 3 266240 r := by
  let _ := Config.ofBlocks 67 (by decide)
  obtain ⟨s, free, entries, hroot, hempty, -, hcard⟩ := exists_emptyFile (by decide) (by decide)
  have hdata : numOfDataBlocks = 65 := by decide
  have hroot' : RootHolds s free entries 4 (([slash, letterF] : CString).length + 998) := hroot
  have hblocks : (s.inodeAt 3).iBlocksNum = 0 := hempty.emptyMap.blocksNum
  have hsize : (s.inodeAt 3).iFileSize = 0 := hempty.iFileSize
  obtain ⟨s₁, c, leak, free', t, hrun, hsame, hwritten, -⟩ := @RootHolds.write _ _ _ _ _ _ _ _ [1]
    266240 0 hroot' hempty.walk hempty.valid (by decide) (by decide) hempty.iAllocated
    hempty.isDir (by rw [hempty.emptyMap.blocksNum]; rfl) (by decide) (by decide)
  refine ⟨s, free, _, t, hroot.wellFormed, hempty, hrun, Int.natCast_nonneg _, ?_⟩
  have hnode : s₁.inodeAt (inumIndex 3) = s.inodeAt 3 := hsame.inodeAt 3
  have hcost : free.card < appendCost 0 66 := by
    have : appendCost 0 66 = 67 := by decide
    omega
  have hiff := hwritten.sizeConsistent_iff hsame hempty.valid.index_lt
    (by rw [hnode, hblocks]; rfl) (by decide) (by rw [hnode, hsize, hblocks]; decide)
  intro hconsistent
  apply hiff.mp hconsistent
  change HoleTooLarge (s.inodeAt 3) _ free.card
  rw [HoleTooLarge, hsize, hblocks]
  exact ⟨by decide, by decide, .inl hcost⟩

end AltFs
