import AltFs.Block
import AltFs.InodeCache

/-!
# The disk and the state of the file system

`disk_layer.c`, with the in-memory device: a read or write of a block in
range always succeeds.  `FileSystem` collects the static variables of the
program: the device, the in-memory superblock and the inode cache.
-/

namespace AltFs

/-- What the build and the environment fix: `FS_SIZE` and the clock. -/
class Config where
  fsSize : Nat
  /-- `FS_SIZE` is an `ssize_t`. -/
  fsSize_lt : fsSize < 2 ^ 63
  /-- What the n-th call of `time(NULL)` returns. -/
  timeAt : Nat → Int64

structure Superblock where
  sInodesCount : Int64
  sFirstIno : Int64
  sFreelistHead : Int64
  sNumOfInodesPerBlock : Int64
  deriving DecidableEq

structure FileSystem where
  /-- `mem_ptr`, cut into blocks. -/
  disk : Int64 → Block
  superblock : Superblock
  cache : InodeCache
  /-- How often `time(NULL)` has been called. -/
  clock : Nat

/-- The static variables before anything has been made. -/
def FileSystem.blank : FileSystem where
  disk := fun _ => Block.zero
  superblock :=
    { sInodesCount := 0, sFirstIno := 0, sFreelistHead := 0, sNumOfInodesPerBlock := 0 }
  cache := InodeCache.createInodeCache 0
  clock := 0

/-- A device of `blocks` blocks whose clock ticks once a call. -/
@[reducible] def Config.ofBlocks (blocks : Nat) (h : blockSize * blocks < 2 ^ 63) : Config where
  fsSize := blockSize * blocks
  fsSize_lt := h
  timeAt n := Int64.ofNat n

abbrev Fs (α : Type) : Type := Prog FileSystem α

section

variable [Config]

/-- `BLOCK_COUNT` -/
def blockCount : Int := Config.fsSize / blockSize

/-- `INODE_BLOCK_COUNT`: 1.5 % of the blocks, rounded down. -/
def inodeBlockCount : Int := blockCount * 15 / 1000

/-- `NUM_OF_DATA_BLOCKS` -/
def numOfDataBlocks : Int := blockCount - inodeBlockCount - 1

/-- `NUM_OF_FREE_LIST_BLOCKS` -/
def numOfFreeListBlocks : Int := numOfDataBlocks.tdiv numOfAddressesPerBlock + 1

def isBlockOutOfRange (blockid : Int64) : Bool :=
  blockid.toInt < 0 || blockid.toInt ≥ blockCount

/-- The contents of a block, or nothing when the block is out of range. -/
def altfsReadBlock (blockid : Int64) : Fs (Option Block) := do
  if isBlockOutOfRange blockid then pure none else do
  let s ← Prog.get
  pure (some (s.disk blockid))

def FileSystem.writeDisk (s : FileSystem) (blockid : Int64) (block : Block) : FileSystem :=
  { s with disk := fun b => if b = blockid then block else s.disk b }

def altfsWriteBlock (blockid : Int64) (buffer : Block) : Fs Bool := do
  if isBlockOutOfRange blockid then pure false else do
  Prog.modify fun s => s.writeDisk blockid buffer
  pure true

/-- `calloc(1, FS_SIZE)` -/
def altfsAllocMemory : Fs Bool := do
  Prog.modify fun s => { s with disk := fun _ => Block.zero }
  pure true

/-- `time(NULL)` -/
def currentTime : Fs Int64 := fun s =>
  some (Config.timeAt s.clock, { s with clock := s.clock + 1 })

end

end AltFs
