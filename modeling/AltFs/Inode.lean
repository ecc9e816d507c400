import AltFs.SuperblockLayer

/-!
# The on-disk inode

`struct inode` and its layout: 216 bytes, 18 to a block.
-/

namespace AltFs

structure Inode where
  iMode : UInt32
  iUid : UInt32
  iGid : UInt32
  iStatusChangeTime : Int64
  iAtime : Int64
  iCtime : Int64
  iMtime : Int64
  iLinksCount : UInt64
  iFileSize : Int64
  iBlocksNum : Int64
  iAllocated : Bool
  iDirectBlocks : Fin 12 → Int64
  iSingleIndirect : Int64
  iDoubleIndirect : Int64
  iTripleIndirect : Int64
  iChildNum : UInt64

/-- `NUM_OF_DIRECT_BLOCKS` -/
abbrev numOfDirectBlocks : Nat := 12

namespace Inode

/-- `i_direct_blocks[index]` -/
def direct (node : Inode) (index : Nat) : Int64 :=
  if h : index < 12 then node.iDirectBlocks ⟨index, h⟩ else 0

def setDirect (node : Inode) (index : Nat) (value : Int64) : Inode :=
  { node with
    iDirectBlocks := fun i => if i.val = index then value else node.iDirectBlocks i }

/-- The inode whose bytes are all zero. -/
def zero : Inode where
  iMode := 0
  iUid := 0
  iGid := 0
  iStatusChangeTime := 0
  iAtime := 0
  iCtime := 0
  iMtime := 0
  iLinksCount := 0
  iFileSize := 0
  iBlocksNum := 0
  iAllocated := false
  iDirectBlocks := fun _ => 0
  iSingleIndirect := 0
  iDoubleIndirect := 0
  iTripleIndirect := 0
  iChildNum := 0

/-- `S_ISDIR(i_mode)` -/
def isDir (node : Inode) : Bool := node.iMode &&& 0xF000 = 0x4000

/-- `i_mode & S_IRUSR` -/
def canRead (node : Inode) : Bool := node.iMode &&& 0x100 ≠ 0

/-- `i_mode & S_IWUSR` -/
def canWrite (node : Inode) : Bool := node.iMode &&& 0x80 ≠ 0

/-! ## Layout -/

/-- `i_direct_blocks`, written from `offset` on. -/
def encodeDirect (node : Inode) (offset : Nat) : Nat → Block → Block
  | 0, block => block
  | count + 1, block =>
      (encodeDirect node offset count block).putSsize (offset + 8 * count) (node.direct count)

/-- `memcpy` of the inode to byte `base` of the block. -/
def encodeAt (node : Inode) (base : Nat) (block : Block) : Block :=
  let block := block.writeLe base 4 node.iMode.toNat
  let block := block.writeLe (base + 4) 4 node.iUid.toNat
  let block := block.writeLe (base + 8) 4 node.iGid.toNat
  let block := block.putSsize (base + 16) node.iStatusChangeTime
  let block := block.putSsize (base + 24) node.iAtime
  let block := block.putSsize (base + 32) node.iCtime
  let block := block.putSsize (base + 40) node.iMtime
  let block := block.writeLe (base + 48) 8 node.iLinksCount.toNat
  let block := block.putSsize (base + 56) node.iFileSize
  let block := block.putSsize (base + 64) node.iBlocksNum
  let block := block.writeLe (base + 72) 1 node.iAllocated.toNat
  let block := node.encodeDirect (base + 80) 12 block
  let block := block.putSsize (base + 176) node.iSingleIndirect
  let block := block.putSsize (base + 184) node.iDoubleIndirect
  let block := block.putSsize (base + 192) node.iTripleIndirect
  block.writeLe (base + 200) 8 node.iChildNum.toNat

def decodeAt (block : Block) (base : Nat) : Inode where
  iMode := UInt32.ofNat (block.readLe base 4)
  iUid := UInt32.ofNat (block.readLe (base + 4) 4)
  iGid := UInt32.ofNat (block.readLe (base + 8) 4)
  iStatusChangeTime := block.ssizeAt (base + 16)
  iAtime := block.ssizeAt (base + 24)
  iCtime := block.ssizeAt (base + 32)
  iMtime := block.ssizeAt (base + 40)
  iLinksCount := UInt64.ofNat (block.readLe (base + 48) 8)
  iFileSize := block.ssizeAt (base + 56)
  iBlocksNum := block.ssizeAt (base + 64)
  iAllocated := block.readLe (base + 72) 1 ≠ 0
  iDirectBlocks := fun i => block.ssizeAt (base + 80 + 8 * i.val)
  iSingleIndirect := block.ssizeAt (base + 176)
  iDoubleIndirect := block.ssizeAt (base + 184)
  iTripleIndirect := block.ssizeAt (base + 192)
  iChildNum := UInt64.ofNat (block.readLe (base + 200) 8)

theorem byteAt_encodeDirect (node : Inode) {offset count position : Nat} {block : Block}
    (h : position < offset ∨ offset + 8 * count ≤ position) :
    (node.encodeDirect offset count block).byteAt position = block.byteAt position := by
  induction count with
  | zero => rfl
  | succ count ih =>
      rw [encodeDirect, Block.putSsize, Block.byteAt_writeLe_of_not_mem (by omega)]
      exact ih (by omega)

theorem ssizeAt_encodeDirect (node : Inode) {offset count index : Nat} {block : Block}
    (hindex : index < count) (hfit : offset + 8 * count ≤ blockSize) :
    (node.encodeDirect offset count block).ssizeAt (offset + 8 * index) = node.direct index := by
  induction count with
  | zero => omega
  | succ count ih =>
      rw [encodeDirect]
      by_cases h : index = count
      · subst h
        exact Block.ssizeAt_putSsize (by omega)
      · rw [Block.ssizeAt_putSsize_disjoint (by omega)]
        exact ih (by omega) (by omega)

private theorem readLe_encodeDirect (node : Inode) {offset count offset' width : Nat}
    {block : Block} (h : offset' + width ≤ offset ∨ offset + 8 * count ≤ offset') :
    (node.encodeDirect offset count block).readLe offset' width = block.readLe offset' width :=
  Block.readLe_congr fun _ _ _ => node.byteAt_encodeDirect (by omega)

private theorem readLe_putSsize_disjoint {block : Block} {offset offset' width : Nat}
    {value : Int64} (h : offset' + width ≤ offset ∨ offset + 8 ≤ offset') :
    (block.putSsize offset value).readLe offset' width = block.readLe offset' width :=
  Block.readLe_writeLe_disjoint h

private theorem ssizeAt_encodeDirect_disjoint (node : Inode) {offset count offset' : Nat}
    {block : Block} (h : offset' + 8 ≤ offset ∨ offset + 8 * count ≤ offset') :
    (node.encodeDirect offset count block).ssizeAt offset' = block.ssizeAt offset' :=
  Block.ssizeAt_congr fun _ _ _ => node.byteAt_encodeDirect (by omega)

/-- Bytes outside the 216 bytes of the inode stay as they are. -/
theorem byteAt_encodeAt (node : Inode) {base position : Nat} {block : Block}
    (h : position < base ∨ base + inodeSize ≤ position) :
    (node.encodeAt base block).byteAt position = block.byteAt position := by
  simp only [inodeSize] at h
  simp only [encodeAt, Block.putSsize]
  repeat rw [Block.byteAt_writeLe_of_not_mem (by omega)]
  rw [byteAt_encodeDirect _ (by omega)]
  repeat rw [Block.byteAt_writeLe_of_not_mem (by omega)]

theorem decodeAt_encodeAt (node : Inode) {base : Nat} {block : Block}
    (hfit : base + inodeSize ≤ blockSize) :
    decodeAt (node.encodeAt base block) base = node := by
  simp only [inodeSize] at hfit
  have hdirect : (fun i : Fin 12 =>
      (node.encodeAt base block).ssizeAt (base + 80 + 8 * i.val)) = node.iDirectBlocks := by
    funext i
    have hi := i.isLt
    simp (disch := omega) only [encodeAt, Block.ssizeAt_writeLe_disjoint,
      Block.ssizeAt_putSsize_disjoint]
    rw [ssizeAt_encodeDirect _ hi (by omega)]
    simp [direct]
  have halloc : (node.encodeAt base block).readLe (base + 72) 1 = node.iAllocated.toNat := by
    simp (disch := omega) only [encodeAt, Block.putSsize,
      Block.readLe_writeLe_disjoint, readLe_encodeDirect, Block.readLe_writeLe]
    cases node.iAllocated <;> rfl
  simp only [decodeAt, hdirect, halloc]
  simp (disch := omega) only [encodeAt, Block.readLe_writeLe_disjoint, readLe_putSsize_disjoint,
    readLe_encodeDirect, Block.readLe_writeLe, Block.ssizeAt_writeLe_disjoint,
    Block.ssizeAt_putSsize_disjoint, Block.ssizeAt_putSsize, ssizeAt_encodeDirect_disjoint]
  cases node with
  | mk => simp

end Inode

end AltFs
