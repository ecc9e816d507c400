import AltFs.DiskLayer

/-!
# Formatting the device

`superblock_layer.c`: the superblock, the inode blocks and the initial free
list.  A free-list block keeps the number of the next one in word 0 and the
numbers of free blocks in the words after it.
-/

namespace AltFs

/-- `sizeof(struct inode)` -/
abbrev inodeSize : Nat := 216

/-- `BLOCK_SIZE / sizeof(struct inode)` -/
abbrev inodesPerBlock : Nat := 18

namespace Superblock

/-- The superblock as it lies at the start of a block. -/
def encode (sb : Superblock) : Block :=
  (((Block.zero.setWord 0 sb.sInodesCount).setWord 1 sb.sFirstIno).setWord 2
    sb.sFreelistHead).setWord 3 sb.sNumOfInodesPerBlock

def decode (block : Block) : Superblock where
  sInodesCount := block.word 0
  sFirstIno := block.word 1
  sFreelistHead := block.word 2
  sNumOfInodesPerBlock := block.word 3

theorem decode_encode (sb : Superblock) : decode sb.encode = sb := by
  simp (disch := decide) [decode, encode, Block.word_setWord]

end Superblock

variable [Config]

def altfsWriteSuperblock : Fs Bool := do
  let s ← Prog.get
  altfsWriteBlock 0 s.superblock.encode

/-- `load_superblock`; the static superblock is overwritten only after its checks. -/
def loadSuperblock : Fs Bool := do
  let buffer ← altfsReadBlock 0
  let sbBuffer := buffer.getD Block.zero
  if Block.sameBytes sbBuffer Block.zero then pure false else do
  let sb := Superblock.decode sbBuffer
  if sb.sNumOfInodesPerBlock.toInt ≠ inodesPerBlock ∨
      sb.sInodesCount.toInt ≠ inodeBlockCount * inodesPerBlock then pure false else do
  Prog.modify fun s => { s with superblock := sb }
  if sb.sInodesCount = 0 ∨ sb.sNumOfInodesPerBlock = 0 then pure false else
  pure true

def altfsCreateSuperblock : Fs Bool := do
  Prog.modify fun s =>
    { s with
      superblock :=
        { sFirstIno := 3
          sNumOfInodesPerBlock := Int64.ofInt inodesPerBlock
          sInodesCount := Int64.ofInt (inodeBlockCount * inodesPerBlock)
          sFreelistHead := Int64.ofInt (inodeBlockCount + 1) } }
  altfsWriteSuperblock

/-- Write zeros to `count` blocks from `blocknum` on. -/
def clearBlocks : Nat → Int → Fs Bool
  | 0, _ => pure true
  | count + 1, blocknum => do
      if ← altfsWriteBlock (Int64.ofInt blocknum) Block.zero
      then clearBlocks count (blocknum + 1)
      else pure false

def altfsCreateIlist : Fs Bool := clearBlocks inodeBlockCount.toNat 1

/-- A block number as it is stored in the free list: 0 past the end of the device. -/
def freelistAddress (blocknum : Int) : Int64 :=
  if blocknum ≥ blockCount then 0 else Int64.ofInt blocknum

/-- `count` slots from `slot` on receive consecutive block numbers. -/
def fillSlots : Nat → Nat → Int → Block → Block
  | 0, _, _, buffer => buffer
  | count + 1, slot, blocknum, buffer =>
      fillSlots count (slot + 1) (blocknum + 1)
        (buffer.setWord slot (freelistAddress (blocknum + 1)))

/-- The free-list block number `blocknum`: 511 slots, then the link in word 0. -/
def freelistBlock (blocknum : Int) : Block :=
  (fillSlots (numOfAddressesPerBlock - 1) 1 blocknum Block.zero).setWord 0
    (freelistAddress (blocknum + numOfAddressesPerBlock))

def createFreelistFrom : Nat → Int → Fs Bool
  | 0, _ => pure true
  | count + 1, blocknum => do
      if ← altfsWriteBlock (Int64.ofInt blocknum) (freelistBlock blocknum)
      then createFreelistFrom count (blocknum + numOfAddressesPerBlock)
      else pure false

def altfsCreateFreelist : Fs Bool := do
  let s ← Prog.get
  createFreelistFrom numOfFreeListBlocks.toNat s.superblock.sFreelistHead.toInt

/-- `altfs_makefs_options(true, true)` -/
def altfsMakefs : Fs Bool := do
  if !(← altfsAllocMemory) then pure false else do
  if !(← altfsCreateSuperblock) then pure false else do
  if !(← altfsCreateIlist) then pure false else do
  if !(← altfsCreateFreelist) then pure false else
  pure true

end AltFs
