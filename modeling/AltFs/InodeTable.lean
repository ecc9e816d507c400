import AltFs.FreshFreelist
import AltFs.InodeMap

/-!
# The inodes on disk

The inodes lie in the blocks from 1 to `INODE_BLOCK_COUNT`, 18 to a block.
`inodeAt` and `setInode` read and exchange one of them; the functions of
`inode_ops.c` are specified by them.
-/

namespace AltFs

namespace Inode

theorem decodeAt_congr {first second : Block} {base : Nat}
    (h : ∀ position, base ≤ position → position < base + inodeSize →
      first.byteAt position = second.byteAt position) :
    decodeAt first base = decodeAt second base := by
  have hread : ∀ offset width, offset + width ≤ inodeSize →
      first.readLe (base + offset) width = second.readLe (base + offset) width := by
    intro offset width hfit
    exact Block.readLe_congr fun position _ _ => h position (by omega) (by omega)
  have hssize : ∀ offset, offset + 8 ≤ inodeSize →
      first.ssizeAt (base + offset) = second.ssizeAt (base + offset) := by
    intro offset hfit
    exact Block.ssizeAt_congr fun position _ _ => h position (by omega) (by omega)
  have hdirect : (fun i : Fin 12 => first.ssizeAt (base + 80 + 8 * i.val)) =
      fun i : Fin 12 => second.ssizeAt (base + 80 + 8 * i.val) := by
    funext i
    have hi := i.isLt
    rw [Nat.add_assoc]
    exact hssize _ (by simp only [inodeSize]; omega)
  have hmode := hread 0 4 (by decide)
  rw [Nat.add_zero] at hmode
  simp only [decodeAt, hmode, hdirect, hread 4 4 (by decide), hread 8 4 (by decide),
    hread 48 8 (by decide), hread 72 1 (by decide), hread 200 8 (by decide),
    hssize 16 (by decide), hssize 24 (by decide), hssize 32 (by decide), hssize 40 (by decide),
    hssize 56 (by decide), hssize 64 (by decide), hssize 176 (by decide),
    hssize 184 (by decide), hssize 192 (by decide)]

theorem decodeAt_zero (base : Nat) : decodeAt Block.zero base = zero := by
  simp [decodeAt, zero]

end Inode

theorem inodeIn_putInode (buffer : Block) (node : Inode) {offset : Nat}
    (h : offset < inodesPerBlock) : inodeIn (putInode buffer offset node) offset = node := by
  rw [inodeIn, putInode]
  apply Inode.decodeAt_encodeAt
  simp only [inodesPerBlock, inodeSize, blockSize] at *
  omega

theorem inodeIn_putInode_ne (buffer : Block) (node : Inode) {offset offset' : Nat}
    (h : offset' ≠ offset) :
    inodeIn (putInode buffer offset node) offset' = inodeIn buffer offset' := by
  rw [inodeIn, inodeIn, putInode]
  apply Inode.decodeAt_congr
  intro position hlow hhigh
  apply Inode.byteAt_encodeAt
  simp only [inodeSize] at *
  omega

/-- The block that holds inode `n`. -/
def inodeBlockOf (n : Nat) : Int64 := Int64.ofInt (1 + n / inodesPerBlock)

namespace FileSystem

@[irreducible] def inodeAt (s : FileSystem) (n : Nat) : Inode :=
  inodeIn (s.disk (inodeBlockOf n)) (n % inodesPerBlock)

def setInode (s : FileSystem) (n : Nat) (node : Inode) : FileSystem :=
  s.writeDisk (inodeBlockOf n) (putInode (s.disk (inodeBlockOf n)) (n % inodesPerBlock) node)

end FileSystem

section

variable {s s' : FileSystem} {n : Nat} {node : Inode}

theorem inodeAt_setInode_self : (s.setInode n node).inodeAt n = node := by
  rw [FileSystem.inodeAt, FileSystem.setInode, disk_writeDisk_self]
  exact inodeIn_putInode _ _ (Nat.mod_lt _ (by decide))

@[simp] theorem superblock_setInode : (s.setInode n node).superblock = s.superblock := rfl

@[simp] theorem cache_setInode : (s.setInode n node).cache = s.cache := rfl

theorem inodeAt_of_disk_eq (h : s'.disk (inodeBlockOf n) = s.disk (inodeBlockOf n)) :
    s'.inodeAt n = s.inodeAt n := by
  rw [FileSystem.inodeAt, FileSystem.inodeAt, h]

end

variable [Config]

/-- The number of inodes of the device. -/
def inodeCount : Nat := inodeBlockCount.toNat * inodesPerBlock

theorem inodeBlockCount_lt (h : 0 < inodeBlockCount) : inodeBlockCount < blockCount := by
  simp only [inodeBlockCount] at *
  omega

section Numbers

variable {n m : Nat}

theorem inodeBlock_le (h : n < inodeCount) : 1 + (n / inodesPerBlock : Int) ≤ inodeBlockCount := by
  simp only [inodeCount, inodesPerBlock] at *
  omega

theorem toInt_inodeBlockOf (h : n < inodeCount) :
    (inodeBlockOf n).toInt = 1 + (n / inodesPerBlock : Int) := by
  have hle := inodeBlock_le h
  have hcount := inodeBlockCount_le
  rw [inodeBlockOf]
  simp only [inodesPerBlock] at *
  exact toInt_ofInt_of_inRange (by omega) (by omega)

theorem inRange_inodeBlockOf (h : n < inodeCount) : InRange (inodeBlockOf n) := by
  have hle := inodeBlock_le h
  rw [InRange, toInt_inodeBlockOf h]
  simp only [inodesPerBlock] at *
  have hlt := inodeBlockCount_lt (by omega)
  omega

theorem inodeBlockOf_ne_zero (h : n < inodeCount) : inodeBlockOf n ≠ 0 := by
  intro heq
  have hvalue := toInt_inodeBlockOf h
  rw [heq, Int64.toInt_zero] at hvalue
  simp only [inodesPerBlock] at hvalue
  omega

theorem not_dataBlock_inodeBlockOf (h : n < inodeCount) : ¬DataBlock (inodeBlockOf n) := by
  intro hdata
  have hle := inodeBlock_le h
  have hlow := hdata.1
  rw [toInt_inodeBlockOf h] at hlow
  omega

theorem inodeBlockOf_inj (hn : n < inodeCount) (hm : m < inodeCount)
    (h : inodeBlockOf n = inodeBlockOf m) : n / inodesPerBlock = m / inodesPerBlock := by
  have hvalue := toInt_inodeBlockOf hn
  rw [h, toInt_inodeBlockOf hm] at hvalue
  omega

end Numbers

section Access

variable {s s' : FileSystem} {n m : Nat} {node : Inode}

theorem inodeAt_setInode_ne (hn : n < inodeCount) (hm : m < inodeCount) (h : m ≠ n) :
    (s.setInode n node).inodeAt m = s.inodeAt m := by
  rw [FileSystem.inodeAt, FileSystem.setInode, FileSystem.inodeAt]
  by_cases hblock : inodeBlockOf m = inodeBlockOf n
  · have hdiv := inodeBlockOf_inj hm hn hblock
    rw [hblock, disk_writeDisk_self]
    apply inodeIn_putInode_ne
    simp only [inodesPerBlock] at *
    omega
  · rw [disk_writeDisk_ne hblock]

theorem disk_setInode_of_dataBlock {b : Int64} (hn : n < inodeCount) (hb : DataBlock b) :
    (s.setInode n node).disk b = s.disk b := by
  rw [FileSystem.setInode]
  apply disk_writeDisk_ne
  rintro rfl
  exact not_dataBlock_inodeBlockOf hn hb

/-- Allocating, freeing and writing data blocks changes no inode. -/
theorem DataFrame.inodeAt_eq {S : Multiset Int64} (h : DataFrame S s s')
    (hdata : ∀ b ∈ S, DataBlock b) (hn : n < inodeCount) : s'.inodeAt n = s.inodeAt n :=
  inodeAt_of_disk_eq (h.disk _ (inodeBlockOf_ne_zero hn) fun hmem =>
    not_dataBlock_inodeBlockOf hn (hdata _ hmem))

end Access

/-- The data blocks and the head of the free list have not changed. -/
structure SameData (s s' : FileSystem) : Prop where
  disk : ∀ b, DataBlock b → s'.disk b = s.disk b
  head : s'.superblock.sFreelistHead = s.superblock.sFreelistHead

namespace SameData

variable {s t u : FileSystem} {node : Inode} {free held : Multiset Int64}

theorem trans (h : SameData s t) (h' : SameData t u) : SameData s u :=
  ⟨fun b hb => (h'.disk b hb).trans (h.disk b hb), h'.head.trans h.head⟩

theorem setInode {n : Nat} (node : Inode) (hn : n < inodeCount) : SameData s (s.setInode n node) :=
  ⟨fun _ hb => disk_setInode_of_dataBlock hn hb, rfl⟩

theorem owned (h : SameData s t) (howned : Owned s free held) : Owned t free held where
  freeList := howned.freeList.frame h.head fun b hb => h.disk b (howned.freeList.data b hb)
  nodup := howned.nodup
  data := howned.data

theorem kept (h : SameData s t) (howned : Owned s free held) (hle : node.blocks s ≤ held) :
    node.Kept s t := fun a ha =>
  h.disk a (howned.data a (Multiset.mem_of_le ((indirect_le_blocks s node).trans hle) ha))

theorem blocks (h : SameData s t) (howned : Owned s free held) (hle : node.blocks s ≤ held) :
    node.blocks t = node.blocks s := (h.kept howned hle).blocks

end SameData

/-! ## Inode numbers -/

/-- The superblock has the counts that formatting gave it. -/
structure TableFormat (s : FileSystem) : Prop where
  sInodesCount : s.superblock.sInodesCount.toInt = inodeCount
  sNumOfInodesPerBlock : s.superblock.sNumOfInodesPerBlock.toInt = inodesPerBlock

theorem DataFrame.format {S : Multiset Int64} {s s' : FileSystem} (h : DataFrame S s s')
    (hs : TableFormat s) : TableFormat s' where
  sInodesCount := by rw [h.sInodesCount, hs.sInodesCount]
  sNumOfInodesPerBlock := by rw [h.sNumOfInodesPerBlock, hs.sNumOfInodesPerBlock]

/-- The inode numbers of the device. -/
def ValidInum (inum : Int64) : Prop := 0 ≤ inum.toInt ∧ inum.toInt < inodeCount

/-- The position of the inode in the table. -/
def inumIndex (inum : Int64) : Nat := inum.toInt.toNat

section Inum

variable {s : FileSystem} {inum : Int64} {node : Inode}

theorem ValidInum.index_lt (h : ValidInum inum) : inumIndex inum < inodeCount := by
  have := h.1
  have := h.2
  rw [inumIndex]
  omega

theorem ValidInum.inRange_zero (h : ValidInum inum) : InRange 0 := by
  have hrange := inRange_inodeBlockOf h.index_lt
  have hlow := hrange.1
  have hhigh := hrange.2
  rw [InRange, Int64.toInt_zero]
  omega

theorem ValidInum.index_eq (h : ValidInum inum) : (inumIndex inum : Int) = inum.toInt :=
  Int.toNat_of_nonneg h.1

theorem ValidInum.eq_of_index {inum' : Int64} (h : ValidInum inum) (h' : ValidInum inum')
    (heq : inumIndex inum = inumIndex inum') : inum = inum' := by
  apply Int64.toInt_inj.mp
  rw [← h.index_eq, ← h'.index_eq, heq]

theorem isValidInodeNumber_iff (h : TableFormat s) :
    isValidInodeNumber inum s = true ↔ ValidInum inum := by
  simp [isValidInodeNumber, ValidInum, h.sInodesCount]

theorem inumToBlockPos_eq (h : TableFormat s) (hinum : ValidInum inum) :
    inumToBlockPos inum s =
      (1 + (inumIndex inum / inodesPerBlock : Int), inumIndex inum % inodesPerBlock) := by
  rw [inumToBlockPos, h.sNumOfInodesPerBlock, ← hinum.index_eq]
  rfl

theorem getInode?_run (h : TableFormat s) (hinum : ValidInum inum) :
    getInode? inum s = some (some (s.inodeAt (inumIndex inum)), s) := by
  have hrange := inRange_inodeBlockOf hinum.index_lt
  rw [inodeBlockOf] at hrange
  rw [FileSystem.inodeAt, inodeBlockOf]
  simp only [getInode?, Prog.get_bind_apply, (isValidInodeNumber_iff h).mpr hinum, Bool.not_true,
    Bool.false_eq_true, if_false, inumToBlockPos_eq h hinum,
    Prog.bind_of_eq (altfsReadBlock_run hrange), Prog.pure_apply]

theorem getInode?_invalid (h : TableFormat s) (hinum : ¬ValidInum inum) :
    getInode? inum s = some (none, s) := by
  have hinvalid : isValidInodeNumber inum s = false := by
    simpa using (isValidInodeNumber_iff h).not.mpr hinum
  simp [getInode?, hinvalid]

theorem getInode_run (h : TableFormat s) (hinum : ValidInum inum) :
    getInode inum s = some (s.inodeAt (inumIndex inum), s) := by
  rw [getInode, Prog.bind_of_eq (getInode?_run h hinum), Prog.ofOption_some]

theorem writeInode_run (h : TableFormat s) (hinum : ValidInum inum) :
    writeInode inum node s = some (true, s.setInode (inumIndex inum) node) := by
  have hrange := inRange_inodeBlockOf hinum.index_lt
  rw [inodeBlockOf] at hrange
  simp only [writeInode, Prog.get_bind_apply, (isValidInodeNumber_iff h).mpr hinum, Bool.not_true,
    Bool.false_eq_true, if_false, inumToBlockPos_eq h hinum,
    Prog.bind_of_eq (altfsReadBlock_run hrange), altfsWriteBlock_run hrange]
  rfl

theorem writeInode_invalid (h : TableFormat s) (hinum : ¬ValidInum inum) :
    writeInode inum node s = some (false, s) := by
  have hinvalid : isValidInodeNumber inum s = false := by
    simpa using (isValidInodeNumber_iff h).not.mpr hinum
  simp [writeInode, hinvalid]

end Inum

end AltFs
