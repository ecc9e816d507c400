import AltFs.SuperblockLayer

/-!
# The block allocator

`data_block_ops.c`.  The head of the free list hands out the numbers in its
slots first and itself last; a freed block goes into the first empty slot of
the head, or becomes the new head when there is none.
-/

namespace AltFs

/-- The first slot from 1 on whose word satisfies `p`. -/
def firstSlot (p : Int64 → Bool) (buffer : Block) : Option Nat :=
  (List.range' 1 (numOfAddressesPerBlock - 1)).find? fun i => p (buffer.word i)

def FileSystem.setFreelistHead (s : FileSystem) (head : Int64) : FileSystem :=
  { s with superblock := { s.superblock with sFreelistHead := head } }

variable [Config]

def allocateDataBlock : Fs Int64 := do
  let s ← Prog.get
  let temp := s.superblock.sFreelistHead
  if temp = 0 then pure (-1) else do
  match ← altfsReadBlock temp with
  | none => pure (-1)
  | some buffer =>
      match firstSlot (· ≠ 0) buffer with
      | some i => do
          if !(← altfsWriteBlock temp (buffer.setWord i 0)) then pure (-1) else do
          let _ ← altfsWriteBlock (buffer.word i) Block.zero
          pure (buffer.word i)
      | none => do
          Prog.modify fun s => s.setFreelistHead (buffer.word 0)
          if !(← altfsWriteSuperblock) then pure (-1) else do
          if !(← altfsWriteBlock temp (buffer.setWord 0 0)) then pure (-1) else do
          let _ ← altfsWriteBlock temp Block.zero
          pure temp

/-- The range check of the data-block functions; it lets `BLOCK_COUNT` itself pass. -/
def isInvalidDataBlock (index : Int64) : Bool :=
  index.toInt ≤ inodeBlockCount || index.toInt > blockCount

def readDataBlock (index : Int64) : Fs (Option Block) := do
  if isInvalidDataBlock index then pure none else
  altfsReadBlock index

/-- `((ssize_t*) read_data_block(index))[..]`: a `NULL` result is dereferenced. -/
def readDataBlockArray (index : Int64) : Fs Block := do
  Prog.ofOption (← readDataBlock index)

def writeDataBlock (index : Int64) (buffer : Block) : Fs Bool := do
  if isInvalidDataBlock index then pure false else
  altfsWriteBlock index buffer

/-- `if (s_freelist_head == 0)`: the freed block becomes the head, its contents unchanged. -/
def restartFreelist (index : Int64) : Fs Bool := do
  let s ← Prog.get
  if s.superblock.sFreelistHead ≠ 0 then pure true else do
  Prog.modify fun s => s.setFreelistHead index
  altfsWriteSuperblock

def freeDataBlock (index : Int64) : Fs Bool := do
  if isInvalidDataBlock index then pure false else do
  if !(← restartFreelist index) then pure false else do
  let s ← Prog.get
  match ← altfsReadBlock s.superblock.sFreelistHead with
  | none => pure false
  | some buffer =>
      match firstSlot (· = 0) buffer with
      | some i => altfsWriteBlock s.superblock.sFreelistHead (buffer.setWord i index)
      | none => do
          let temp := s.superblock.sFreelistHead
          Prog.modify fun s => s.setFreelistHead index
          if !(← altfsWriteSuperblock) then pure false else
          altfsWriteBlock index (Block.zero.setWord 0 temp)

end AltFs
