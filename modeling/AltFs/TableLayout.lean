import AltFs.InodeTable

/-!
# The inode table as an array

`inum_to_block_pos` divides by the number of inodes to a block.  Whatever this
number and the number of inodes are, as long as the table fits into its blocks,
an inode that is written is read back and nothing else changes.
-/

namespace AltFs

open Prog

variable [Config]

/-- The counts of the superblock are those of a table that fits into the inode blocks. -/
structure TableLayout (s : FileSystem) : Prop where
  perBlock_pos : 0 < s.superblock.sNumOfInodesPerBlock.toInt
  fits : inodeSize * s.superblock.sNumOfInodesPerBlock.toInt ≤ blockSize
  count : s.superblock.sInodesCount.toInt ≤
    inodeBlockCount * s.superblock.sNumOfInodesPerBlock.toInt

section

variable {s t : FileSystem} {inum other : Int64} {node : Inode}

/-- Formatting gives such counts, and `load_superblock` accepts no others. -/
theorem TableFormat.layout (h : TableFormat s) : TableLayout s where
  perBlock_pos := by
    rw [h.sNumOfInodesPerBlock]
    decide
  fits := by
    rw [h.sNumOfInodesPerBlock]
    decide
  count := by
    have hnonneg := inodeBlockCount_nonneg
    rw [h.sInodesCount, h.sNumOfInodesPerBlock, inodeCount]
    push_cast
    omega

omit [Config] in
theorem isValidInodeNumber_iff_toInt :
    isValidInodeNumber inum s = true ↔
      0 ≤ inum.toInt ∧ inum.toInt < s.superblock.sInodesCount.toInt := by
  simp [isValidInodeNumber]

omit [Config] in
theorem inumToBlockPos_congr (h : t.superblock = s.superblock) :
    inumToBlockPos inum t = inumToBlockPos inum s := by
  rw [inumToBlockPos, inumToBlockPos, h]

omit [Config] in
theorem isValidInodeNumber_congr (h : t.superblock = s.superblock) :
    isValidInodeNumber inum t = isValidInodeNumber inum s := by
  rw [isValidInodeNumber, isValidInodeNumber, h]

/-- The block and the index determine the inode number. -/
theorem toInt_eq_of_position (h : TableLayout s) :
    inum.toInt = ((inumToBlockPos inum s).1 - 1) * s.superblock.sNumOfInodesPerBlock.toInt +
      (inumToBlockPos inum s).2 := by
  have hmod := Int.emod_nonneg inum.toInt h.perBlock_pos.ne'
  have hsplit := Int.mul_ediv_add_emod inum.toInt s.superblock.sNumOfInodesPerBlock.toInt
  have hblock : (inumToBlockPos inum s).1 - 1 =
      inum.toInt / s.superblock.sNumOfInodesPerBlock.toInt := by
    rw [inumToBlockPos]
    omega
  have hindex : ((inumToBlockPos inum s).2 : Int) =
      inum.toInt % s.superblock.sNumOfInodesPerBlock.toInt := Int.toNat_of_nonneg hmod
  rw [hblock, hindex, mul_comm, hsplit]

theorem inumToBlockPos_inj (h : TableLayout s)
    (heq : inumToBlockPos other s = inumToBlockPos inum s) : other = inum := by
  apply Int64.toInt_inj.mp
  rw [toInt_eq_of_position h, heq, ← toInt_eq_of_position h]

/-- Where the bytes of an inode lie. -/
structure PositionFits (s : FileSystem) (inum : Int64) : Prop where
  first : 1 ≤ (inumToBlockPos inum s).1
  last : (inumToBlockPos inum s).1 ≤ inodeBlockCount
  inside : inodeSize * (inumToBlockPos inum s).2 + inodeSize ≤ blockSize

theorem TableLayout.positionFits (h : TableLayout s) (hinum : isValidInodeNumber inum s = true) :
    PositionFits s inum := by
  obtain ⟨hlow, hhigh⟩ := isValidInodeNumber_iff_toInt.mp hinum
  have hpos := h.perBlock_pos
  have hcount := h.count
  have hfits := h.fits
  have hdiv : inum.toInt / s.superblock.sNumOfInodesPerBlock.toInt < inodeBlockCount :=
    Int.ediv_lt_of_lt_mul hpos (by omega)
  have hdiv' := Int.ediv_nonneg hlow hpos.le
  have hmod := Int.emod_nonneg inum.toInt hpos.ne'
  have hmod' := Int.emod_lt_of_pos inum.toInt hpos
  refine ⟨?_, ?_, ?_⟩
  · rw [inumToBlockPos]
    omega
  · rw [inumToBlockPos]
    omega
  · simp only [inumToBlockPos, inodeSize, blockSize] at *
    omega

namespace PositionFits

theorem toInt_block (h : PositionFits s inum) :
    (Int64.ofInt (inumToBlockPos inum s).1).toInt = (inumToBlockPos inum s).1 := by
  have hlow := h.first
  have hhigh := h.last
  have hle := inodeBlockCount_le
  exact toInt_ofInt_of_inRange (by omega) (by omega)

theorem inRange (h : PositionFits s inum) : InRange (Int64.ofInt (inumToBlockPos inum s).1) := by
  have hlow := h.first
  have hhigh := h.last
  have hlt := inodeBlockCount_lt (by omega)
  rw [InRange, h.toInt_block]
  omega

theorem block_ne_zero (h : PositionFits s inum) :
    (0 : Int64) ≠ Int64.ofInt (inumToBlockPos inum s).1 := by
  intro heq
  have hvalue := h.toInt_block
  have hlow := h.first
  rw [← heq, Int64.toInt_zero] at hvalue
  omega

theorem block_ne_dataBlock (h : PositionFits s inum) {b : Int64} (hb : DataBlock b) :
    b ≠ Int64.ofInt (inumToBlockPos inum s).1 := by
  rintro rfl
  have hdata := hb.1
  have hhigh := h.last
  rw [h.toInt_block] at hdata
  omega

theorem index_lt (h : PositionFits s inum) : (inumToBlockPos inum s).2 < inodesPerBlock := by
  have hinside := h.inside
  simp only [inodeSize, blockSize, inodesPerBlock] at *
  omega

/-- The superblock alone says where an inode is read. -/
theorem getInode_run (h : PositionFits s inum) (hinum : isValidInodeNumber inum s = true)
    (hsuperblock : t.superblock = s.superblock) :
    getInode? inum t = some (some (inodeIn (t.disk (Int64.ofInt (inumToBlockPos inum s).1))
      (inumToBlockPos inum s).2), t) := by
  simp only [getInode?, get_bind_apply, isValidInodeNumber_congr hsuperblock,
    inumToBlockPos_congr hsuperblock, hinum, Bool.not_true, Bool.false_eq_true, if_false,
    bind_of_eq (altfsReadBlock_run h.inRange), pure_apply]

theorem writeInode_run (h : PositionFits s inum) (hinum : isValidInodeNumber inum s = true)
    (node : Inode) :
    writeInode inum node s = some (true, s.writeDisk (Int64.ofInt (inumToBlockPos inum s).1)
      (putInode (s.disk (Int64.ofInt (inumToBlockPos inum s).1)) (inumToBlockPos inum s).2 node)) := by
  simp only [writeInode, get_bind_apply, hinum, Bool.not_true, Bool.false_eq_true, if_false,
    bind_of_eq (altfsReadBlock_run h.inRange), altfsWriteBlock_run h.inRange]

end PositionFits

/-- Two inodes share a block at different indices, or lie in different blocks. -/
theorem block_or_index_ne (h : TableLayout s) (hfits : PositionFits s inum)
    (hfits' : PositionFits s other) (hne : other ≠ inum) :
    Int64.ofInt (inumToBlockPos other s).1 ≠ Int64.ofInt (inumToBlockPos inum s).1 ∨
      (inumToBlockPos other s).2 ≠ (inumToBlockPos inum s).2 := by
  by_contra hboth
  rw [not_or, not_not, not_not] at hboth
  obtain ⟨hblock, hindex⟩ := hboth
  apply hne
  apply inumToBlockPos_inj h
  apply Prod.ext
  · rw [← hfits'.toInt_block, hblock, hfits.toInt_block]
  · exact hindex

/--
The positions of the inodes are distinct and lie in the inode blocks.  A write
to one of them succeeds, is read back, and changes no other inode, neither
block 0 nor any data block.
-/
theorem inodeTable_array (h : TableLayout s) (hinum : isValidInodeNumber inum s = true) :
    PositionFits s inum ∧
    (∀ other, other ≠ inum → inumToBlockPos other s ≠ inumToBlockPos inum s) ∧
    ∀ node, (∃ t, writeInode inum node s = some (true, t)) ∧
      ∀ t, writeInode inum node s = some (true, t) →
        getInode? inum t = some (some node, t) ∧
        (∀ other, isValidInodeNumber other s = true → other ≠ inum → ∃ kept,
          getInode? other s = some (some kept, s) ∧ getInode? other t = some (some kept, t)) ∧
        t.disk 0 = s.disk 0 ∧ ∀ b, DataBlock b → t.disk b = s.disk b := by
  have hfits := h.positionFits hinum
  have hwrite := hfits.writeInode_run hinum
  refine ⟨hfits, fun other hne heq => hne (inumToBlockPos_inj h heq), fun node =>
    ⟨⟨_, hwrite node⟩, fun t hrun => ?_⟩⟩
  rw [hwrite node] at hrun
  obtain rfl := congrArg Prod.snd (Option.some.inj hrun)
  refine ⟨?_, fun other hother hne => ?_, disk_writeDisk_ne hfits.block_ne_zero,
    fun b hb => disk_writeDisk_ne (hfits.block_ne_dataBlock hb)⟩
  · rw [hfits.getInode_run hinum superblock_writeDisk, disk_writeDisk_self,
      inodeIn_putInode _ _ hfits.index_lt]
  · have hfits' := h.positionFits hother
    refine ⟨_, hfits'.getInode_run hother rfl,
      (hfits'.getInode_run hother superblock_writeDisk).trans ?_⟩
    by_cases hblock : Int64.ofInt (inumToBlockPos other s).1 = Int64.ofInt (inumToBlockPos inum s).1
    · have hindex := (block_or_index_ne h hfits hfits' hne).resolve_left (not_not.mpr hblock)
      rw [hblock, disk_writeDisk_self, inodeIn_putInode_ne _ _ hindex]
    · rw [disk_writeDisk_ne hblock]

end

omit [Config] in
/-- On a device of 519 blocks the root inode is written. -/
theorem inodeTable_array_root :
    letI := Config.ofBlocks 519 (by decide)
    ∃ s t : FileSystem, writeInode rootInodeNum { Inode.zero with iLinksCount := 1 } s = some (true, t) ∧
      getInode? rootInodeNum t = some (some { Inode.zero with iLinksCount := 1 }, t) := by
  let _ := Config.ofBlocks 519 (by decide)
  let s : FileSystem := { FileSystem.blank with
    superblock :=
      { sInodesCount := 126, sFirstIno := 3, sFreelistHead := 8, sNumOfInodesPerBlock := 18 } }
  have hlayout : TableLayout s := ⟨by decide, by decide, by decide⟩
  have hroot : isValidInodeNumber rootInodeNum s = true := by decide
  obtain ⟨⟨t, hrun⟩, hspec⟩ := (inodeTable_array hlayout hroot).2.2 { Inode.zero with iLinksCount := 1 }
  exact ⟨s, t, hrun, (hspec t hrun).1⟩

end AltFs
