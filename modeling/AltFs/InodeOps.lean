import AltFs.DataBlockOps
import AltFs.Inode

/-!
# The inode table

`inode_ops.c`: reading, writing, allocating and freeing inodes, and the map
from a logical block of a file to a block of the device.
-/

namespace AltFs

/-- `ROOT_INODE_NUM` -/
def rootInodeNum : Int64 := 2

/-- `NUM_OF_DOUBLE_INDIRECT_BLOCK_ADDR` -/
abbrev numOfDoubleIndirectBlockAddr : Nat := 262144

/-- `NUM_OF_TRIPLE_INDIRECT_BLOCK_ADDR` -/
abbrev numOfTripleIndirectBlockAddr : Nat := 134217728

variable [Config]

def isValidInodeNumber (inum : Int64) (s : FileSystem) : Bool :=
  inum.toInt ≥ 0 && inum.toInt < s.superblock.sInodesCount.toInt

/-- `inum_to_block_pos`: the block of the inode and its index in the block. -/
def inumToBlockPos (inum : Int64) (s : FileSystem) : Int × Nat :=
  let tmp := s.superblock.sNumOfInodesPerBlock.toInt
  (1 + inum.toInt / tmp, (inum.toInt % tmp).toNat)

/-- `((struct inode*)buffer)[offset]` -/
def inodeIn (buffer : Block) (offset : Nat) : Inode :=
  Inode.decodeAt buffer (inodeSize * offset)

def putInode (buffer : Block) (offset : Nat) (node : Inode) : Block :=
  node.encodeAt (inodeSize * offset) buffer

/--
The inner loop of the search for the next free inode: `count` inodes from
`offset` on.  Returns the updated `visited` and whether the last inode
visited is free.
-/
def nextFreeInBlock (buffer : Block) : Nat → Nat → Int → Int × Bool
  | 0, _, visited => (visited, false)
  | count + 1, offset, visited =>
      if !(inodeIn buffer offset).iAllocated then (visited + 1, true)
      else nextFreeInBlock buffer count (offset + 1) (visited + 1)

/--
The outer loop of the search, with the current block in `buffer`.  `fuel`
counts the inode blocks that are left; the source stops past the last one.
Returns `visited` when a free inode was found.
-/
def searchFreeInode (inodesLeft : Int) :
    Nat → Block → Int → Nat → Int → Fs (Option Int)
  | 0, _, _, _, _ => pure none
  | fuel + 1, buffer, blockNum, offset, visited => do
      if visited = inodesLeft then pure none else do
      let s ← Prog.get
      let perBlock := s.superblock.sNumOfInodesPerBlock.toInt.toNat
      match nextFreeInBlock buffer (perBlock - offset) offset visited with
      | (visited, true) => pure (some visited)
      | (visited, false) =>
          if blockNum + 1 > inodeBlockCount then pure none else do
          match ← altfsReadBlock (Int64.ofInt (blockNum + 1)) with
          | none => pure none
          | some buffer => searchFreeInode inodesLeft fuel buffer (blockNum + 1) 0 visited

def setFirstIno (inum : Int) : Fs Unit := do
  Prog.modify fun s =>
    { s with superblock := { s.superblock with sFirstIno := Int64.ofInt inum } }
  let _ ← altfsWriteSuperblock

def allocateInode : Fs Int64 := do
  let s ← Prog.get
  let inumToAllocate := s.superblock.sFirstIno
  if inumToAllocate = s.superblock.sInodesCount then pure (-1) else do
  if !isValidInodeNumber inumToAllocate s then pure (-1) else do
  let (blockNum, offset) := inumToBlockPos inumToAllocate s
  match ← altfsReadBlock (Int64.ofInt blockNum) with
  | none => pure (-1)
  | some buffer =>
      let node := inodeIn buffer offset
      if node.iAllocated then pure (-1) else do
      let buffer := putInode buffer offset { node with iAllocated := true, iLinksCount := 0 }
      if !(← altfsWriteBlock (Int64.ofInt blockNum) buffer) then pure (-1) else do
      let inodesLeft := s.superblock.sInodesCount.toInt - inumToAllocate.toInt + 1
      match ← searchFreeInode inodesLeft (inodeBlockCount.toNat + 1) buffer blockNum
          (offset + 1) 0 with
      | some visited => setFirstIno (inumToAllocate.toInt + visited)
      | none => setFirstIno s.superblock.sInodesCount.toInt
      pure inumToAllocate

/-- `get_inode`; nothing stands for `NULL`. -/
def getInode? (inum : Int64) : Fs (Option Inode) := do
  let s ← Prog.get
  if !isValidInodeNumber inum s then pure none else do
  let (blockNum, offset) := inumToBlockPos inum s
  match ← altfsReadBlock (Int64.ofInt blockNum) with
  | none => pure none
  | some buffer => pure (some (inodeIn buffer offset))

/-- `get_inode` where the caller dereferences the result without a check. -/
def getInode (inum : Int64) : Fs Inode := do
  Prog.ofOption (← getInode? inum)

def writeInode (inum : Int64) (node : Inode) : Fs Bool := do
  let s ← Prog.get
  if !isValidInodeNumber inum s then pure false else do
  let (blockNum, offset) := inumToBlockPos inum s
  match ← altfsReadBlock (Int64.ofInt blockNum) with
  | none => pure false
  | some buffer => altfsWriteBlock (Int64.ofInt blockNum) (putInode buffer offset node)

/-- Visit the addresses in `count` words from `index` on, up to the first zero. -/
def forAddresses (buffer : Block) (visit : Int64 → Fs Bool) : Nat → Nat → Fs Bool
  | 0, _ => pure true
  | count + 1, index => do
      if buffer.word index = 0 then pure true else do
      if !(← visit (buffer.word index)) then pure false else
      forAddresses buffer visit count (index + 1)

/--
`free_indirect_blocks`: the blocks at `indirection` levels below `iBlockNum`,
then the block itself.  At level 0 this is the data block that level 1 frees.
-/
def freeIndirectBlocks : Nat → Int64 → Fs Bool
  | 0, iBlockNum => freeDataBlock iBlockNum
  | indirection + 1, iBlockNum => do
      match ← altfsReadBlock iBlockNum with
      | none => pure false
      | some buffer =>
          if !(← forAddresses buffer (freeIndirectBlocks indirection)
              numOfAddressesPerBlock 0) then pure false else
          freeDataBlock iBlockNum

def freeDirectBlocks (node : Inode) : Nat → Nat → Fs Bool
  | 0, _ => pure true
  | count + 1, index => do
      if node.direct index = 0 then pure true else do
      if !(← freeDataBlock (node.direct index)) then pure false else
      freeDirectBlocks node count (index + 1)

def freeIndirectIfSet (iBlockNum : Int64) (indirection : Nat) : Fs Bool := do
  if iBlockNum = 0 then pure true else freeIndirectBlocks indirection iBlockNum

def freeDataBlocksInInode (node : Inode) : Fs Bool := do
  if !(← freeDirectBlocks node numOfDirectBlocks 0) then pure false else do
  if !(← freeIndirectIfSet node.iSingleIndirect 1) then pure false else do
  if !(← freeIndirectIfSet node.iDoubleIndirect 2) then pure false else
  freeIndirectIfSet node.iTripleIndirect 3

def freeInode (inum : Int64) : Fs Bool := do
  let s ← Prog.get
  if !isValidInodeNumber inum s then pure false else do
  let (blockNum, offset) := inumToBlockPos inum s
  match ← altfsReadBlock (Int64.ofInt blockNum) with
  | none => pure false
  | some buffer => do
      if !(← freeDataBlocksInInode (inodeIn buffer offset)) then pure false else do
      if !(← altfsWriteBlock (Int64.ofInt blockNum) (putInode buffer offset Inode.zero))
      then pure false else do
      let s ← Prog.get
      setFirstIno (min inum.toInt s.superblock.sFirstIno.toInt)
      pure true

/-! ## From logical to physical blocks -/

/-- The block that `address[index]` names, two levels up from a data block. -/
def lookupSingle (singleIndirect : Int64) (innerIdx : Nat) : Fs Int64 := do
  let singleIndirectBlockArr ← readDataBlockArray singleIndirect
  Prog.require (innerIdx < numOfAddressesPerBlock)
  pure (singleIndirectBlockArr.word innerIdx)

def lookupDouble (node : Inode) (logicalBlockNum : Nat) (prevIndirectBlock : Int64) :
    Fs (Int64 × Int64) := do
  if node.iDoubleIndirect = 0 then pure (-1, prevIndirectBlock) else do
  let doubleIIdx := logicalBlockNum / numOfAddressesPerBlock
  let innerIdx := logicalBlockNum % numOfAddressesPerBlock
  if innerIdx ≠ 0 ∧ prevIndirectBlock ≠ 0 then do
    pure (← lookupSingle prevIndirectBlock innerIdx, prevIndirectBlock)
  else do
  let dataBlockNum ← lookupSingle node.iDoubleIndirect doubleIIdx
  if dataBlockNum.toInt ≤ 0 then pure (-1, prevIndirectBlock) else do
  pure (← lookupSingle dataBlockNum innerIdx, dataBlockNum)

def lookupTriple (node : Inode) (logicalBlockNum : Nat) (prevIndirectBlock : Int64) :
    Fs (Int64 × Int64) := do
  if node.iTripleIndirect = 0 then pure (-1, prevIndirectBlock) else do
  let tripleIIdx := logicalBlockNum / numOfDoubleIndirectBlockAddr
  let doubleIIdx := logicalBlockNum / numOfAddressesPerBlock % numOfAddressesPerBlock
  let innerIdx := logicalBlockNum % numOfAddressesPerBlock
  if innerIdx ≠ 0 ∧ prevIndirectBlock ≠ 0 then do
    pure (← lookupSingle prevIndirectBlock innerIdx, prevIndirectBlock)
  else do
  let doubleNum ← lookupSingle node.iTripleIndirect tripleIIdx
  if doubleNum.toInt ≤ 0 then pure (-1, prevIndirectBlock) else do
  let singleNum ← lookupSingle doubleNum doubleIIdx
  if singleNum.toInt ≤ 0 then pure (-1, prevIndirectBlock) else do
  pure (← lookupSingle singleNum innerIdx, singleNum)

/--
`get_disk_block_from_inode_block`; returns the block number and the new
`*prev_indirect_block`.
-/
def getDiskBlockFromInodeBlock (node : Inode) (logicalBlockNum : Nat)
    (prevIndirectBlock : Int64) : Fs (Int64 × Int64) := do
  if (logicalBlockNum : Int) > node.iBlocksNum.toInt then pure (-1, prevIndirectBlock) else do
  if logicalBlockNum < numOfDirectBlocks then
    pure (node.direct logicalBlockNum, prevIndirectBlock)
  else do
  let logicalBlockNum := logicalBlockNum - numOfDirectBlocks
  if logicalBlockNum < numOfAddressesPerBlock then do
    if node.iSingleIndirect = 0 then pure (-1, prevIndirectBlock) else do
    pure (← lookupSingle node.iSingleIndirect logicalBlockNum, prevIndirectBlock)
  else do
  let logicalBlockNum := logicalBlockNum - numOfAddressesPerBlock
  if logicalBlockNum < numOfDoubleIndirectBlockAddr then
    lookupDouble node logicalBlockNum prevIndirectBlock
  else
  lookupTriple node (logicalBlockNum - numOfDoubleIndirectBlockAddr) prevIndirectBlock

end AltFs
