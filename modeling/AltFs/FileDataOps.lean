import AltFs.DirectoryOps

/-!
# Reading, writing and truncating files

`altfs_read`, `altfs_write` and `altfs_truncate` of `interface_layer.c`.  A
result below zero is a negated `errno` or -1.
-/

namespace AltFs

/-- `ENOENT` -/
abbrev enoent : Int := 2

/-- `EACCES` -/
abbrev eacces : Int := 13

/-- `EINVAL` -/
abbrev einval : Int := 22

/-- `EOVERFLOW` -/
abbrev eoverflow : Int := 75

/-- The first and the last block that a range of bytes touches, with the offsets in them. -/
structure Span where
  startIBlock : Nat
  startBlockOffset : Nat
  endIBlock : Nat
  endBlockOffset : Nat

def Span.ofRange (offset nbytes : Nat) : Span where
  startIBlock := offset / blockSize
  startBlockOffset := offset % blockSize
  endIBlock := (offset + nbytes - 1) / blockSize
  endBlockOffset := (offset + nbytes - 1) % blockSize

/-! ## Reading -/

/-- The bytes copied out of the block number `i` among the `blocksToRead`. -/
def Span.readPart (span : Span) (blocksToRead i : Nat) (bufRead : Block) : List UInt8 :=
  if i = 0 then bufRead.slice span.startBlockOffset (blockSize - span.startBlockOffset)
  else if i = blocksToRead - 1 then bufRead.slice 0 (span.endBlockOffset + 1)
  else bufRead.slice 0 blockSize

/-- The access time after a read. -/
def Inode.touch (node : Inode) (currTime : Int64) : Inode := { node with iAtime := currTime }

/-- What the buffer of `nbytes` bytes holds once `data` has been copied to its start. -/
def filledBuffer (nbytes : Nat) (data : List UInt8) : List UInt8 :=
  data ++ List.replicate (nbytes - data.length) 0

section

variable [Config]

/-- `count` blocks from block `i` on; returns whether all could be read, and the bytes. -/
def readBlocks (node : Inode) (span : Span) (blocksToRead : Nat) :
    Nat → Nat → Int64 → Fs (Bool × List UInt8)
  | 0, _, _ => pure (true, [])
  | count + 1, i, prevBlock => do
      let (dblockNum, prevBlock) ←
        getDiskBlockFromInodeBlock node (span.startIBlock + i) prevBlock
      if dblockNum.toInt ≤ 0 then pure (false, []) else do
      match ← readDataBlock dblockNum with
      | none => pure (false, [])
      | some bufRead => do
          let (complete, rest) ← readBlocks node span blocksToRead count (i + 1) prevBlock
          pure (complete, span.readPart blocksToRead i bufRead ++ rest)

/-- The part of `altfs_read` that copies `nbytes` bytes which the file has. -/
def readRange (node : Inode) (offset nbytes : Nat) : Fs (Bool × List UInt8) := do
  let span := Span.ofRange offset nbytes
  let blocksToRead := span.endIBlock - span.startIBlock + 1
  if blocksToRead = 1 then do
    let (dblockNum, _) ← getDiskBlockFromInodeBlock node span.startIBlock 0
    if dblockNum.toInt ≤ 0 then pure (false, []) else do
    match ← readDataBlock dblockNum with
    | none => pure (false, [])
    | some bufRead => pure (true, bufRead.slice span.startBlockOffset nbytes)
  else
  readBlocks node span blocksToRead blocksToRead 0 0

/-- Returns the result and the bytes stored in the buffer, none when it is left alone. -/
def altfsRead (path : CString) (nbytes : Nat) (offset : Int64) : Fs (Int × List UInt8) := do
  if nbytes = 0 then pure (0, []) else do
  if offset.toInt < 0 then pure (-einval, []) else do
  let inum ← nameI path
  if inum = -1 then pure (-enoent, filledBuffer nbytes []) else do
  let node ← getInode inum
  if node.iFileSize = 0 then pure (0, filledBuffer nbytes []) else do
  if offset.toInt ≥ node.iFileSize.toInt then pure (-eoverflow, filledBuffer nbytes []) else do
  let length := min nbytes (node.iFileSize.toInt - offset.toInt).toNat
  let (complete, data) ← readRange node offset.toInt.toNat length
  if !complete then pure (-1, filledBuffer nbytes data) else do
  let currTime ← currentTime
  let _ ← writeInode inum (node.touch currTime)
  pure (data.length, filledBuffer nbytes data)

end

/-! ## Writing -/

/-- How many bytes go into the first block. -/
def Span.toWrite (span : Span) (nbytes : Nat) : Nat :=
  if span.startBlockOffset + nbytes > blockSize then blockSize - span.startBlockOffset else nbytes

/-- `length` bytes of the caller's buffer from `position` on. -/
def bytesFrom (buff : List UInt8) (position length : Nat) : List UInt8 :=
  (buff.drop position).take length

/-- The new contents of an existing block `i` of the file, and how many bytes it takes. -/
def Span.overwrite (span : Span) (buff : List UInt8) (bytesWritten i : Nat) (bufRead : Block) :
    Block × Nat :=
  if i ≠ span.startIBlock ∧ i ≠ span.endIBlock then
    (Block.zero.splice 0 (bytesFrom buff bytesWritten blockSize), blockSize)
  else if i = span.startIBlock then
    (bufRead.splice span.startBlockOffset (bytesFrom buff 0 (span.toWrite buff.length)),
      span.toWrite buff.length)
  else
    (bufRead.splice 0 (bytesFrom buff bytesWritten (span.endBlockOffset + 1)),
      span.endBlockOffset + 1)

/--
The contents of the `i`-th of the new blocks, counted from 1, and how many
bytes it takes.  `startingBlock` is the first one that receives any.
-/
def Span.append (span : Span) (buff : List UInt8) (bytesWritten : Nat)
    (newBlocks startingBlock : Int) (i : Nat) : Block × Nat :=
  if startingBlock ≥ 1 ∧ i = startingBlock then
    (Block.zero.splice span.startBlockOffset (bytesFrom buff 0 (span.toWrite buff.length)),
      span.toWrite buff.length)
  else if i = newBlocks then
    (Block.zero.splice 0 (bytesFrom buff bytesWritten (span.endBlockOffset + 1)),
      span.endBlockOffset + 1)
  else if i ≥ startingBlock then
    (Block.zero.splice 0 (bytesFrom buff bytesWritten blockSize), blockSize)
  else (Block.zero, 0)

/-- The size and the times after a write of which `bytesWritten` bytes succeeded. -/
def Inode.written (node : Inode) (offset : Int) (bytesWritten : Nat) : Inode :=
  let bytesToAdd := max (offset + bytesWritten - node.iFileSize.toInt) 0
  { node with iFileSize := Int64.ofInt (node.iFileSize.toInt + bytesToAdd) }

def Inode.modified (node : Inode) (currTime : Int64) : Inode :=
  { node with iMtime := currTime, iStatusChangeTime := currTime }

/-- Zeros from byte `position` on. -/
def clearFrom (block : Block) (position : Nat) : Block :=
  block.splice position (List.replicate (blockSize - position) 0)

section

variable [Config]

/--
The blocks the file has already: `count` of them from block `i` on.  A block
that is neither the first nor the last of the range is not read.  Returns
whether the loop got through, and `bytes_written`.
-/
def overwriteBlocks (node : Inode) (buff : List UInt8) (span : Span) :
    Nat → Nat → Int64 → Nat → Fs (Bool × Nat)
  | 0, _, _, bytesWritten => pure (true, bytesWritten)
  | count + 1, i, prevBlock, bytesWritten => do
      let (dblockNum, prevBlock) ← getDiskBlockFromInodeBlock node i prevBlock
      if dblockNum.toInt ≤ 0 then pure (false, bytesWritten) else do
      let bufRead ←
        if i ≠ span.startIBlock ∧ i ≠ span.endIBlock then pure (some Block.zero)
        else readDataBlock dblockNum
      match bufRead with
      | none => pure (false, bytesWritten)
      | some bufRead => do
          let (contents, length) := span.overwrite buff bytesWritten i bufRead
          if !(← writeDataBlock dblockNum contents) then pure (false, bytesWritten + length) else
          if i = span.endIBlock then pure (true, bytesWritten + length) else
          overwriteBlocks node buff span count (i + 1) prevBlock (bytesWritten + length)

/-- `count` new blocks from the `i`-th on; a failure ends the loop early. -/
def appendBlocks (buff : List UInt8) (span : Span) (newBlocks startingBlock : Int) :
    Nat → Nat → Inode → Nat → Fs (Inode × Nat)
  | 0, _, node, bytesWritten => pure (node, bytesWritten)
  | count + 1, i, node, bytesWritten => do
      let newBlockNum ← allocateDataBlock
      if newBlockNum.toInt ≤ 0 then pure (node, bytesWritten) else do
      let (added, node) ← addDatablockToInode node newBlockNum
      if !added then pure (node, bytesWritten) else do
      let (contents, length) := span.append buff bytesWritten newBlocks startingBlock i
      let stored ←
        if i ≥ startingBlock then writeDataBlock newBlockNum contents else pure true
      if !stored then pure (node, bytesWritten + length) else
      appendBlocks buff span newBlocks startingBlock count (i + 1) node (bytesWritten + length)

/-- The times are set when at least one byte has been written. -/
def stampWrite (node : Inode) (bytesWritten : Nat) : Fs Inode := do
  if bytesWritten = 0 then pure node else do
  let currTime ← currentTime
  pure (node.modified currTime)

def finishWrite (inum : Int64) (node : Inode) (offset bytesWritten : Nat) : Fs Int := do
  let node ← stampWrite (node.written offset bytesWritten) bytesWritten
  if !(← writeInode inum node) then pure (-1) else
  pure bytesWritten

/-- The part of `altfs_write` after the path has been resolved. -/
def writeInum (inum : Int64) (buff : List UInt8) (offset : Nat) : Fs Int := do
  let node ← getInode inum
  let span := Span.ofRange offset buff.length
  let newBlocks := span.endIBlock - node.iBlocksNum.toInt + 1
  let startingBlock := span.startIBlock - node.iBlocksNum.toInt + 1
  let (complete, bytesWritten) ← overwriteBlocks node buff span
    (node.iBlocksNum.toInt - span.startIBlock).toNat span.startIBlock 0 0
  if !complete then pure (if bytesWritten = 0 then -1 else bytesWritten) else do
  let (node, bytesWritten) ←
    appendBlocks buff span newBlocks startingBlock newBlocks.toNat 1 node bytesWritten
  finishWrite inum node offset bytesWritten

def altfsWrite (path : CString) (buff : List UInt8) (offset : Int64) : Fs Int := do
  if buff.length = 0 then pure 0 else do
  if offset.toInt < 0 then pure (-einval) else do
  let inum ← nameI path
  if inum = -1 then pure (-enoent) else
  writeInum inum buff offset.toInt.toNat

/-! ## Truncating -/

/-- Remove the blocks after block `iBlockNum`, if there are any. -/
def cutBlocks (node : Inode) (iBlockNum : Int) : Fs Inode := do
  if node.iBlocksNum.toInt > iBlockNum + 1 then do
    let (_, node) ← removeDatablocksFromInode node (iBlockNum + 1).toNat
    pure node
  else pure node

/-- Zero the rest of the last block of a file of `length` bytes. -/
def clearTail (dBlockNum : Int64) (length : Nat) : Fs Unit := do
  let dataBlock ← readDataBlock dBlockNum
  let blockOffset := (length - 1) % blockSize
  if blockOffset = blockSize - 1 then pure () else do
  let dataBlock ← Prog.ofOption dataBlock
  let _ ← writeDataBlock dBlockNum (clearFrom dataBlock (blockOffset + 1))
  pure ()

/-- The part of `altfs_truncate` that cuts the file to `length` bytes or fewer than it has. -/
def shrinkTo (inum : Int64) (node : Inode) (length : Nat) : Fs Int := do
  let iBlockNum : Int := if length = 0 then -1 else ((length - 1) / blockSize : Nat)
  let node ← cutBlocks node iBlockNum
  if iBlockNum = -1 then do
    let _ ← writeInode inum { node with iFileSize := 0 }
    pure 0
  else do
  let (dBlockNum, _) ← getDiskBlockFromInodeBlock node iBlockNum.toNat 0
  if dBlockNum.toInt ≤ 0 then pure (-1) else do
  clearTail dBlockNum length
  let _ ← writeInode inum { node with iFileSize := Int64.ofInt length }
  pure 0

def altfsTruncate (path : CString) (length : Int64) : Fs Int := do
  let inum ← nameI path
  if inum = -1 then pure (-enoent) else do
  let node ← getInode inum
  if !node.canWrite then pure (-eacces) else do
  if length.toInt < 0 then pure (-einval) else do
  if length = 0 ∧ node.iFileSize = 0 then pure 0 else do
  if length.toInt > node.iFileSize.toInt then do
    let bytesToAdd := (length.toInt - node.iFileSize.toInt).toNat
    let written ← altfsWrite path (List.replicate bytesToAdd 0) node.iFileSize
    if written = bytesToAdd then pure 0 else pure (-1)
  else
  shrinkTo inum node length.toInt.toNat

end

end AltFs
