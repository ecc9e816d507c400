import AltFs.Directory
import AltFs.InodeAllocator

/-!
# A freshly made file system

What `altfs_makefs` leaves on the device, and what `setup_filesystem` adds to
it: the root directory with its entries `.` and `..`.
-/

namespace AltFs

theorem Superblock.encode_ne_zero {sb : Superblock} (h : sb.sInodesCount ≠ 0) :
    sb.encode ≠ Block.zero := by
  intro heq
  have hdecode := Superblock.decode_encode sb
  rw [heq] at hdecode
  apply h
  rw [← hdecode]
  exact Block.word_zero 0

theorem writeDisk_eq_self {s : FileSystem} {b : Int64} {block : Block} (h : s.disk b = block) :
    s.writeDisk b block = s := by
  cases s with
  | mk disk superblock cache clock =>
      simp only [FileSystem.writeDisk, FileSystem.mk.injEq, and_true]
      funext a
      by_cases ha : a = b
      · rw [if_pos ha, ha]
        exact h.symm
      · rw [if_neg ha]

variable [Config]

/-- Writing zeros to blocks of zeros changes nothing. -/
theorem clearBlocks_blank {s : FileSystem} {count : Nat} {blocknum : Int} (hlow : 0 ≤ blocknum)
    (hhigh : blocknum + count ≤ blockCount)
    (hblank : ∀ k < count, s.disk (Int64.ofInt (blocknum + k)) = Block.zero) :
    clearBlocks count blocknum s = some (true, s) := by
  induction count generalizing blocknum with
  | zero => rfl
  | succ count ih =>
      have hrange : InRange (Int64.ofInt blocknum) := inRange_ofInt hlow (by omega)
      have hfirst := hblank 0 (by omega)
      rw [Nat.cast_zero, add_zero] at hfirst
      rw [clearBlocks, Prog.bind_of_eq (altfsWriteBlock_run hrange), writeDisk_eq_self hfirst,
        if_pos rfl]
      refine ih (by omega) (by omega) fun k hk => ?_
      have hnext := hblank (k + 1) (by omega)
      rwa [Nat.cast_succ, add_comm (k : Int), ← add_assoc] at hnext

/-- The device right after formatting. -/
structure Formatted (s : FileSystem) (free : Multiset Int64) : Prop
    extends FullFreelist s free where
  stored : s.disk 0 = s.superblock.encode
  format : TableFormat s
  sFirstIno : s.superblock.sFirstIno = 3
  inodeAt : ∀ n < inodeCount, s.inodeAt n = Inode.zero

section Makefs

variable {s s' : FileSystem}

theorem FullFreelist.ne_zero {free : Multiset Int64} (h : FullFreelist s free)
    (hpos : 1 ≤ numOfDataBlocks) : free ≠ 0 := by
  rintro rfl
  have hnonneg := inodeBlockCount_nonneg
  have hvalue : (Int64.ofInt (inodeBlockCount + 1)).toInt = inodeBlockCount + 1 :=
    toInt_ofInt_of_inRange (by omega) (by simp only [numOfDataBlocks] at hpos; omega)
  refine Multiset.notMem_zero _ (h.full (Int64.ofInt (inodeBlockCount + 1)) ?_)
  rw [DataBlock, hvalue]
  simp only [numOfDataBlocks] at hpos
  omega

/-- The state before the free list is created. -/
private def withNewSuperblock (s : FileSystem) : FileSystem :=
  let superblock : Superblock :=
    { sFirstIno := 3
      sNumOfInodesPerBlock := Int64.ofInt inodesPerBlock
      sInodesCount := Int64.ofInt (inodeBlockCount * inodesPerBlock)
      sFreelistHead := Int64.ofInt (inodeBlockCount + 1) }
  { s with disk := fun _ => Block.zero, superblock := superblock }.writeDisk 0 superblock.encode

private theorem altfsMakefs_start (h : InRange 0) :
    altfsMakefs s = (do
      if !(← altfsCreateFreelist) then pure false else pure true : Fs Bool)
        (withNewSuperblock s) := by
  have hcount := inodeBlockCount_nonneg
  have hle := inodeBlockCount_le
  have hblank : clearBlocks inodeBlockCount.toNat 1 (withNewSuperblock s) =
      some (true, withNewSuperblock s) := by
    have hlast : 1 + inodeBlockCount ≤ blockCount := by
      have hhigh := h.2
      rw [Int64.toInt_zero] at hhigh
      by_cases hpos : 0 < inodeBlockCount
      · have := inodeBlockCount_lt hpos
        omega
      · omega
    refine clearBlocks_blank (by omega) (by omega) fun k hk => ?_
    refine disk_writeDisk_ne fun heq => ?_
    have hvalue := toInt_ofInt_of_inRange (x := 1 + k) (by omega) (by omega)
    rw [heq, Int64.toInt_zero] at hvalue
    omega
  have hsuper : altfsCreateSuperblock { s with disk := fun _ => Block.zero } =
      some (true, withNewSuperblock s) := by
    rw [altfsCreateSuperblock, Prog.modify_bind_apply, altfsWriteSuperblock_run h]
    rfl
  simp only [altfsMakefs, altfsAllocMemory, altfsCreateIlist]
  refine (Prog.bind_of_eq (a := true) (t := { s with disk := fun _ => Block.zero }) rfl).trans ?_
  simp only [Bool.not_true, Bool.false_eq_true, if_false, Prog.bind_of_eq hsuper,
    Prog.bind_of_eq hblank]

private theorem format_of_counts (hcount : s.superblock.sInodesCount =
      Int64.ofInt (inodeBlockCount * inodesPerBlock))
    (hper : s.superblock.sNumOfInodesPerBlock = Int64.ofInt inodesPerBlock) : TableFormat s := by
  have hnonneg := inodeBlockCount_nonneg
  have hle := inodeBlockCount_le
  have hlt := blockCount_lt
  constructor
  · rw [hcount, inodeCount]
    simp only [inodesPerBlock]
    rw [Int64.toInt_ofInt_of_le (by omega) (by omega)]
    omega
  · rw [hper]
    decide

/-- Formatting succeeds unless there is no data block or 512 divides their number. -/
theorem altfsMakefs_run (hpos : 1 ≤ numOfDataBlocks)
    (hrest : numOfDataBlocks % numOfAddressesPerBlock ≠ 0) :
    ∃ s' free, altfsMakefs s = some (true, s') ∧ Formatted s' free ∧ s'.cache = s.cache := by
  have hnonneg := inodeBlockCount_nonneg
  have hzero : InRange 0 := ⟨by decide, by
    simp only [numOfDataBlocks, Int64.toInt_zero] at *
    omega⟩
  obtain ⟨s', free, hrun, hfull, hsuper, hcache, hframe⟩ :=
    @altfsCreateFreelist_spec _ (withNewSuperblock s) rfl hpos hrest
  refine ⟨s', free, ?_, { hfull with
    stored := ?_, format := ?_, sFirstIno := ?_, inodeAt := fun n hn => ?_ }, hcache⟩
  · rw [altfsMakefs_start hzero, Prog.bind_of_eq hrun]
    rfl
  · rw [hframe 0 hnonneg, hsuper]
    exact disk_writeDisk_self
  · exact format_of_counts (by rw [hsuper]; rfl) (by rw [hsuper]; rfl)
  · rw [hsuper]
    rfl
  · have hle := inodeBlock_le hn
    rw [← toInt_inodeBlockOf hn] at hle
    have hblank : (withNewSuperblock s).disk (inodeBlockOf n) = Block.zero :=
      disk_writeDisk_ne (inodeBlockOf_ne_zero hn)
    rw [FileSystem.inodeAt, hframe _ hle, hblank]
    exact Inode.decodeAt_zero _

theorem altfsMakefs_true (hrun : altfsMakefs s = some (true, s')) :
    1 ≤ numOfDataBlocks ∧ numOfDataBlocks % numOfAddressesPerBlock ≠ 0 := by
  have hzero : InRange 0 := by
    by_contra hout
    have hnonneg := blockCount_nonneg
    have hfail : isBlockOutOfRange 0 = true := by
      simp only [InRange, Int64.toInt_zero] at hout
      simp [isBlockOutOfRange]
      omega
    simp [altfsMakefs, altfsAllocMemory, altfsCreateSuperblock, altfsWriteSuperblock,
      altfsWriteBlock, hfail, Prog.bind_apply] at hrun
  have hnonneg : 0 ≤ numOfDataBlocks := by
    have hhigh := hzero.2
    simp only [Int64.toInt_zero] at hhigh
    simp only [numOfDataBlocks, inodeBlockCount]
    omega
  have hrest : numOfDataBlocks % numOfAddressesPerBlock ≠ 0 := by
    intro hrest
    obtain ⟨t, hfail⟩ := @altfsCreateFreelist_fails _ (withNewSuperblock s) rfl hnonneg hrest
    rw [altfsMakefs_start hzero, Prog.bind_of_eq hfail] at hrun
    cases hrun
  refine ⟨?_, hrest⟩
  by_contra hempty
  have hnone : numOfDataBlocks = 0 := by omega
  exact hrest (by rw [hnone]; rfl)

end Makefs

/-! ## Mounting -/

section Load

variable {s s' : FileSystem} {sb : Superblock}

theorem loadSuperblock_run (hstored : s.disk 0 = sb.encode)
    (hcount : sb.sInodesCount.toInt = inodeCount)
    (hper : sb.sNumOfInodesPerBlock.toInt = inodesPerBlock) (hpos : 0 < inodeBlockCount) :
    loadSuperblock s = some (true, { s with superblock := sb }) := by
  have hlt := inodeBlockCount_lt hpos
  have hzero : InRange 0 := ⟨by decide, by rw [Int64.toInt_zero]; omega⟩
  have hne : sb.sInodesCount ≠ 0 := by
    intro heq
    rw [heq, Int64.toInt_zero, inodeCount] at hcount
    simp only [inodesPerBlock] at hcount
    omega
  have hne' : sb.sNumOfInodesPerBlock ≠ 0 := by
    intro heq
    rw [heq] at hper
    exact absurd hper (by decide)
  have hsame : Block.sameBytes sb.encode Block.zero = false := by
    rw [← Bool.not_eq_true, Block.sameBytes_iff]
    exact Superblock.encode_ne_zero hne
  have hcounts : ¬(sb.sNumOfInodesPerBlock.toInt ≠ inodesPerBlock ∨
      sb.sInodesCount.toInt ≠ inodeBlockCount * inodesPerBlock) := by
    rw [hper, hcount, inodeCount]
    simp only [inodesPerBlock]
    omega
  simp only [loadSuperblock, Prog.bind_of_eq (altfsReadBlock_run hzero), Option.getD_some,
    hstored, hsame, Superblock.decode_encode, Bool.false_eq_true, if_false, if_neg hcounts, hne,
    hne', or_self, Prog.modify_bind_apply, Prog.pure_apply]

/-- A superblock without inodes is not accepted. -/
theorem inodeBlockCount_pos_of_load (h : loadSuperblock s = some (true, s')) :
    0 < inodeBlockCount := by
  have hnonneg := inodeBlockCount_nonneg
  by_contra hzero
  obtain ⟨buffer, t, -, hrest⟩ := Prog.bind_eq_some_iff.mp h
  split at hrest
  · cases hrest
  dsimp only at hrest
  split at hrest
  · cases hrest
  next hcounts =>
    rw [Prog.modify_bind_apply] at hrest
    split at hrest
    · cases hrest
    next hne =>
      have hcount : (Superblock.decode (buffer.getD Block.zero)).sInodesCount.toInt = 0 := by
        have : inodeBlockCount = 0 := by omega
        rw [this] at hcounts
        simp only [inodesPerBlock] at hcounts
        omega
      exact hne (.inl (Int64.toInt_inj.mp hcount))

end Load

/-- The file system once the root directory has been set up. -/
structure FreshRoot (s : FileSystem) (free : Multiset Int64) (root : Inode) : Prop where
  hasInodes : 0 < inodeBlockCount
  format : TableFormat s
  sFirstIno : s.superblock.sFirstIno = 3
  rootAt : s.inodeAt 2 = root
  others : ∀ n < inodeCount, n ≠ 2 → s.inodeAt n = Inode.zero
  owned : Owned s free (root.blocks s)
  full : ∀ b, DataBlock b → b ∈ free + root.blocks s
  dir : DirContents s root [[([dot], rootInodeNum), ([dot, dot], rootInodeNum)]]
  filled : root.Filled s 1
  iAllocated : root.iAllocated = true
  iMode : root.iMode = sIfdir ||| defaultPermissions
  iLinksCount : root.iLinksCount = 1
  iChildNum : root.iChildNum = 2
  iFileSize : root.iFileSize.toInt = blockSize
  cache : s.cache = InodeCache.createInodeCache cacheCapacity

theorem one_le_numOfDataBlocks (h : 0 < inodeBlockCount) : 1 ≤ numOfDataBlocks := by
  simp only [numOfDataBlocks, inodeBlockCount] at *
  omega

theorem inodeCount_gt (h : 0 < inodeBlockCount) : 17 < inodeCount := by
  simp only [inodeCount, inodesPerBlock]
  omega

theorem validInum_root (h : 0 < inodeBlockCount) : ValidInum rootInodeNum := by
  have := inodeCount_gt h
  exact ⟨by decide, by rw [show rootInodeNum.toInt = 2 from rfl]; omega⟩

section Setup

variable {s s' : FileSystem} {free : Multiset Int64}

omit [Config] in
theorem emptyMap_newRoot (currTime : Int64) : (Inode.zero.newRoot currTime).EmptyMap where
  blocksNum := rfl
  direct i := by
    rw [Inode.direct]
    split <;> rfl
  root d := by
    unfold Inode.root
    split <;> rfl

omit [Config] in
theorem isDir_newRoot (node : Inode) (currTime : Int64) : (node.newRoot currTime).isDir = true := by
  change decide ((sIfdir ||| defaultPermissions) &&& 0xF000 = 0x4000) = true
  decide

/-- Setting up a formatted device creates the root directory. -/
theorem setupFilesystem_run (h : Formatted s free) (hpos : 0 < inodeBlockCount) :
    ∃ s' free' root, setupFilesystem s = some (true, s') ∧ FreshRoot s' free' root := by
  let node := Inode.zero.newRoot (Config.timeAt s.clock)
  let s₁ : FileSystem := { s with cache := InodeCache.createInodeCache cacheCapacity }
  let s₂ : FileSystem := { s₁ with clock := s.clock + 1 }
  have hinum := validInum_root hpos
  have hload : loadSuperblock s = some (true, s) :=
    loadSuperblock_run h.stored h.format.sInodesCount h.format.sNumOfInodesPerBlock hpos
  have hformat : TableFormat s₁ := ⟨h.format.sInodesCount, h.format.sNumOfInodesPerBlock⟩
  have hread : getInode? rootInodeNum s₁ = some (some Inode.zero, s₁) := by
    have hslot : s₁.inodeAt 2 = s.inodeAt 2 := inodeAt_of_disk_eq rfl
    rw [h.inodeAt 2 hinum.index_lt] at hslot
    rw [getInode?_run hformat hinum]
    exact congrArg (fun node => some (some node, s₁)) hslot
  have hunused : ¬(Inode.zero.iAllocated = true ∧ 2 ≤ Inode.zero.iChildNum.toNat) := by decide
  have hempty : node.EmptyMap := emptyMap_newRoot _
  have howned : Owned s₂ free (node.blocks s₂ + 0) := by
    rw [hempty.blocks_eq_zero]
    exact ⟨h.toFreeList.frame rfl fun _ _ => rfl, by simpa using h.nodup, by simp⟩
  obtain ⟨node₁, s₃, free', node₂, s₄, hfirst, hadded, hsecond, hadded'⟩ :=
    @addDirectoryEntry_pair _ s₂ node free 0 ([dot], rootInodeNum) ([dot, dot], rootInodeNum)
      (.nil (isDir_newRoot _ _) hempty) howned
      (h.ne_zero (one_le_numOfDataBlocks hpos)) (by decide) (by decide)
  obtain ⟨hfilled, hsum⟩ := hadded.filled rfl (hempty.filled s₂)
  obtain ⟨hfilled', hsum'⟩ := hadded'.filled rfl hfilled
  rw [hempty.blocks_eq_zero, add_zero] at hsum
  have hframe : DataFrame free s₂ s₄ := by
    have hframe := hadded.frame
    have hframe' := hadded'.frame
    rw [hempty.blocks_eq_zero, add_zero] at hframe
    rw [hsum] at hframe'
    exact hframe.trans hframe'
  have hformat' : TableFormat s₄ := hframe.format ⟨hformat.sInodesCount, hformat.sNumOfInodesPerBlock⟩
  have hroot : 2 < inodeCount := hinum.index_lt
  have hsame : SameData s₄ (s₄.setInode 2 node₂) := .setInode _ hroot
  have hwrite := @writeInode_run _ s₄ rootInodeNum node₂ hformat' hinum
  refine ⟨s₄.setInode 2 node₂, free', node₂, ?_, ?_⟩
  · simp only [setupFilesystem, Prog.bind_of_eq hload, Bool.not_true, Bool.false_eq_true, if_false,
      Prog.modify_bind_apply]
    refine (Prog.bind_of_eq hread).trans ?_
    simp only [if_neg hunused]
    refine (Prog.bind_of_eq (a := Config.timeAt s.clock) (t := s₂) rfl).trans ?_
    refine (Prog.bind_of_eq hfirst).trans ?_
    simp only [Bool.not_true, Bool.false_eq_true, if_false]
    refine (Prog.bind_of_eq hsecond).trans ?_
    simp only [Bool.not_true, Bool.false_eq_true, if_false, Prog.bind_of_eq hwrite]
    rfl
  have howned' := hadded'.owned
  rw [add_zero] at howned'
  have hkept := hsame.kept howned' le_rfl
  have hchanged : node₂ = { node.withMap node₂ with
      iFileSize := node₂.iFileSize, iChildNum := node₂.iChildNum } := by
    rw [hadded'.changed, hadded.changed]
    rfl
  have hinodes : ∀ n < inodeCount, s₄.inodeAt n = Inode.zero := fun n hn =>
    have hslot : s₂.inodeAt n = s.inodeAt n := inodeAt_of_disk_eq rfl
    ((hframe.inodeAt_eq h.data hn).trans hslot).trans (h.inodeAt n hn)
  exact
    { hasInodes := hpos
      format := hformat'.setInode _ _
      sFirstIno := hframe.sFirstIno.trans h.sFirstIno
      rootAt := inodeAt_setInode_self
      others := fun n hn hne => by
        rw [inodeAt_setInode_ne hroot hn hne]
        exact hinodes n hn
      owned := by
        rw [hkept.blocks]
        exact hsame.owned howned'
      full := fun b hb => by
        rw [hkept.blocks, hsum', hsum]
        exact h.full b hb
      dir := hadded'.dir.of_disk_eq fun b hb => hsame.disk b (howned'.data b hb)
      filled := hkept.filled hfilled'
      iAllocated := by
        rw [hchanged]
        rfl
      iMode := by
        rw [hchanged]
        rfl
      iLinksCount := by
        rw [hchanged]
        rfl
      iChildNum := by
        rw [hadded'.childNum, hadded.childNum]
        rfl
      iFileSize := hadded'.fileSize (hadded.fileSize rfl)
      cache := hframe.cache }

/-- Every successful formatting and set-up leaves a file system with a root. -/
theorem freshRoot_of_makefs {s₀ : FileSystem} (hmake : altfsMakefs s₀ = some (true, s))
    (hinit : setupFilesystem s = some (true, s')) : ∃ free root, FreshRoot s' free root := by
  obtain ⟨hpos, hrest⟩ := altfsMakefs_true hmake
  obtain ⟨t, free, hrun, hformatted, -⟩ := @altfsMakefs_run _ s₀ hpos hrest
  obtain rfl : t = s := by simpa [hrun] using hmake
  have hinodes : 0 < inodeBlockCount := by
    obtain ⟨ok, u, hload, hafter⟩ := Prog.bind_eq_some_iff.mp hinit
    cases ok with
    | false => cases hafter
    | true => exact inodeBlockCount_pos_of_load hload
  obtain ⟨u, free', root, hsetup, hfresh⟩ := setupFilesystem_run hformatted hinodes
  obtain rfl : u = s' := by simpa [hsetup] using hinit
  exact ⟨free', root, hfresh⟩

/-- On a device with inodes whose data blocks are not a multiple of 512, both succeed. -/
theorem makefs_setup_run (s₀ : FileSystem) (hinodes : 0 < inodeBlockCount)
    (hrest : numOfDataBlocks % numOfAddressesPerBlock ≠ 0) :
    ∃ s s', altfsMakefs s₀ = some (true, s) ∧ setupFilesystem s = some (true, s') := by
  obtain ⟨s, free, hmake, hformatted, -⟩ :=
    @altfsMakefs_run _ s₀ (one_le_numOfDataBlocks hinodes) hrest
  obtain ⟨s', -, -, hsetup, -⟩ := setupFilesystem_run hformatted hinodes
  exact ⟨s, s', hmake, hsetup⟩

end Setup

end AltFs
