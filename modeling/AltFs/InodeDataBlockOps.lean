import AltFs.InodeOps

/-!
# Growing and shrinking the block map of an inode

`inode_data_block_ops.c`.  The functions work on a copy of the inode and
return the changed copy; the caller writes it back.
-/

namespace AltFs

variable [Config]

/-- Read the address block, store `value` at `index` and write the block back. -/
def storeAddress (blockNum : Int64) (index : Nat) (value : Int64) : Fs Bool := do
  let arr ← readDataBlockArray blockNum
  Prog.require (index < numOfAddressesPerBlock)
  writeDataBlock blockNum (arr.setWord index value)

def Inode.withBlocksNum (node : Inode) (n : Int) : Inode :=
  { node with iBlocksNum := Int64.ofInt n }

/-- `i_blocks_num++` -/
def Inode.blockAdded (node : Inode) : Inode :=
  node.withBlocksNum (node.iBlocksNum.toInt + 1)

/-- The single-indirect part of `add_datablock_to_inode`. -/
def addToSingle (node : Inode) (logicalBlockNum : Nat) (dataBlockNum : Int64) :
    Fs (Bool × Inode) := do
  let singleIndirectBlockNum ←
    if logicalBlockNum = 0 then allocateDataBlock else pure node.iSingleIndirect
  if logicalBlockNum = 0 ∧ singleIndirectBlockNum = -1 then pure (false, node) else do
  let node := { node with iSingleIndirect := singleIndirectBlockNum }
  if !(← storeAddress node.iSingleIndirect logicalBlockNum dataBlockNum)
  then pure (false, node) else
  pure (true, node.blockAdded)

/-- The tail shared by the double and triple parts: store the data block in its address block. -/
def addToAddressBlock (node : Inode) (singleIndirectBlockNum : Int64) (innerIdx : Nat)
    (dataBlockNum : Int64) : Fs (Bool × Inode) := do
  if singleIndirectBlockNum.toInt ≤ 0 then pure (false, node) else do
  if !(← storeAddress singleIndirectBlockNum innerIdx dataBlockNum)
  then pure (false, node) else
  pure (true, node.blockAdded)

/--
The part shared by the double and triple levels: the address block for the
data block, created when the data block is its first, is an entry of
`doubleIndirectBlockNum`.
-/
def addToDoubleBlock (node : Inode) (doubleIndirectBlockNum : Int64) (doubleIIdx innerIdx : Nat)
    (dataBlockNum : Int64) : Fs (Bool × Inode) := do
  let doubleIndirectBlockArr ← readDataBlockArray doubleIndirectBlockNum
  if innerIdx = 0 then do
    let singleIndirectBlockNum ← allocateDataBlock
    if singleIndirectBlockNum = -1 then pure (false, node) else do
    if !(← writeDataBlock doubleIndirectBlockNum
        (doubleIndirectBlockArr.setWord doubleIIdx singleIndirectBlockNum))
    then pure (false, node) else
    addToAddressBlock node singleIndirectBlockNum innerIdx dataBlockNum
  else
  addToAddressBlock node (doubleIndirectBlockArr.word doubleIIdx) innerIdx dataBlockNum

def addToDouble (node : Inode) (logicalBlockNum : Nat) (dataBlockNum : Int64) :
    Fs (Bool × Inode) := do
  let doubleIndirectDataBlockNum ←
    if logicalBlockNum = 0 then allocateDataBlock else pure node.iDoubleIndirect
  if logicalBlockNum = 0 ∧ doubleIndirectDataBlockNum = -1 then pure (false, node) else do
  let node := { node with iDoubleIndirect := doubleIndirectDataBlockNum }
  let doubleIIdx := logicalBlockNum / numOfAddressesPerBlock
  let innerIdx := logicalBlockNum % numOfAddressesPerBlock
  addToDoubleBlock node node.iDoubleIndirect doubleIIdx innerIdx dataBlockNum

/-- The triple level below its root. -/
def addToTripleBlock (node : Inode) (tripleIndirectBlockNum : Int64) (logicalBlockNum : Nat)
    (dataBlockNum : Int64) : Fs (Bool × Inode) := do
  let tripleIndirectBlockArr ← readDataBlockArray tripleIndirectBlockNum
  let tripleIIdx := logicalBlockNum / numOfDoubleIndirectBlockAddr
  let doubleIIdx := logicalBlockNum / numOfAddressesPerBlock % numOfAddressesPerBlock
  let innerIdx := logicalBlockNum % numOfAddressesPerBlock
  if logicalBlockNum % numOfDoubleIndirectBlockAddr = 0 then do
    let doubleIndirectDataBlockNum ← allocateDataBlock
    if doubleIndirectDataBlockNum = -1 then pure (false, node) else do
    if !(← writeDataBlock tripleIndirectBlockNum
        (tripleIndirectBlockArr.setWord tripleIIdx doubleIndirectDataBlockNum))
    then pure (false, node) else
    addToDoubleBlock node doubleIndirectDataBlockNum doubleIIdx innerIdx dataBlockNum
  else
  addToDoubleBlock node (tripleIndirectBlockArr.word tripleIIdx) doubleIIdx innerIdx dataBlockNum

def addToTriple (node : Inode) (logicalBlockNum : Nat) (dataBlockNum : Int64) :
    Fs (Bool × Inode) := do
  let tripleDataBlockNum ←
    if logicalBlockNum = 0 then allocateDataBlock else pure node.iTripleIndirect
  if logicalBlockNum = 0 ∧ tripleDataBlockNum = -1 then pure (false, node) else do
  let node := { node with iTripleIndirect := tripleDataBlockNum }
  addToTripleBlock node node.iTripleIndirect logicalBlockNum dataBlockNum

def addDatablockToInode (node : Inode) (dataBlockNum : Int64) : Fs (Bool × Inode) := do
  Prog.require (0 ≤ node.iBlocksNum.toInt)
  let logicalBlockNum := node.iBlocksNum.toInt.toNat
  if logicalBlockNum < numOfDirectBlocks then
    pure (true, (node.setDirect logicalBlockNum dataBlockNum).blockAdded)
  else do
  let logicalBlockNum := logicalBlockNum - numOfDirectBlocks
  if logicalBlockNum < numOfAddressesPerBlock then
    addToSingle node logicalBlockNum dataBlockNum
  else do
  let logicalBlockNum := logicalBlockNum - numOfAddressesPerBlock
  if logicalBlockNum < numOfDoubleIndirectBlockAddr then
    addToDouble node logicalBlockNum dataBlockNum
  else do
  let logicalBlockNum := logicalBlockNum - numOfDoubleIndirectBlockAddr
  if logicalBlockNum < numOfTripleIndirectBlockAddr then
    addToTriple node logicalBlockNum dataBlockNum
  else
  pure (false, node)

/--
Overwriting through `*prev_indirect_block`: the changed array is written to
the data block itself, not back to the address block it was read from.
-/
def overwriteRemembered (prevIndirectBlock : Int64) (innerIdx : Nat) (dataBlockNum : Int64) :
    Fs Bool := do
  let singleIndirectBlockArr ← readDataBlockArray prevIndirectBlock
  Prog.require (innerIdx < numOfAddressesPerBlock)
  writeDataBlock dataBlockNum (singleIndirectBlockArr.setWord innerIdx dataBlockNum)

/-- The double-indirect part; returns the new `*prev_indirect_block` as well. -/
def overwriteDouble (node : Inode) (logicalBlockNum : Nat)
    (dataBlockNum prevIndirectBlock : Int64) : Fs (Bool × Int64) := do
  if node.iDoubleIndirect = 0 then pure (false, prevIndirectBlock) else do
  let doubleIIdx := logicalBlockNum / numOfAddressesPerBlock
  let innerIdx := logicalBlockNum % numOfAddressesPerBlock
  if innerIdx ≠ 0 ∧ prevIndirectBlock ≠ 0 then do
    pure (← overwriteRemembered prevIndirectBlock innerIdx dataBlockNum, prevIndirectBlock)
  else do
  let singleDataBlockNum ← lookupSingle node.iDoubleIndirect doubleIIdx
  if singleDataBlockNum.toInt ≤ 0 then pure (false, prevIndirectBlock) else do
  pure (← storeAddress singleDataBlockNum innerIdx dataBlockNum, singleDataBlockNum)

/-- The triple-indirect part never sets `*prev_indirect_block`. -/
def overwriteTriple (node : Inode) (logicalBlockNum : Nat)
    (dataBlockNum prevIndirectBlock : Int64) : Fs Bool := do
  if node.iTripleIndirect = 0 then pure false else do
  let tripleIIdx := logicalBlockNum / numOfDoubleIndirectBlockAddr
  let doubleIIdx := logicalBlockNum / numOfAddressesPerBlock % numOfAddressesPerBlock
  let innerIdx := logicalBlockNum % numOfAddressesPerBlock
  if innerIdx ≠ 0 ∧ prevIndirectBlock ≠ 0 then
    overwriteRemembered prevIndirectBlock innerIdx dataBlockNum
  else do
  let doubleDataBlockNum ← lookupSingle node.iTripleIndirect tripleIIdx
  if doubleDataBlockNum.toInt ≤ 0 then pure false else do
  let singleDataBlockNum ← lookupSingle doubleDataBlockNum doubleIIdx
  if singleDataBlockNum.toInt ≤ 0 then pure false else
  storeAddress singleDataBlockNum innerIdx dataBlockNum

/--
`overwrite_datablock_to_inode`; returns the changed inode and the new
`*prev_indirect_block`.
-/
def overwriteDatablockToInode (node : Inode) (logicalBlockNum : Nat)
    (dataBlockNum prevIndirectBlock : Int64) : Fs (Bool × Inode × Int64) := do
  if (logicalBlockNum : Int) > node.iBlocksNum.toInt
  then pure (false, node, prevIndirectBlock) else do
  if logicalBlockNum < numOfDirectBlocks then
    pure (true, node.setDirect logicalBlockNum dataBlockNum, prevIndirectBlock)
  else do
  let logicalBlockNum := logicalBlockNum - numOfDirectBlocks
  if logicalBlockNum < numOfAddressesPerBlock then do
    if node.iSingleIndirect = 0 then pure (false, node, prevIndirectBlock) else do
    pure (← storeAddress node.iSingleIndirect logicalBlockNum dataBlockNum, node,
      prevIndirectBlock)
  else do
  let logicalBlockNum := logicalBlockNum - numOfAddressesPerBlock
  if logicalBlockNum < numOfDoubleIndirectBlockAddr then do
    let (done, prevIndirectBlock) ←
      overwriteDouble node logicalBlockNum dataBlockNum prevIndirectBlock
    pure (done, node, prevIndirectBlock)
  else do
  pure (← overwriteTriple node (logicalBlockNum - numOfDoubleIndirectBlockAddr) dataBlockNum
    prevIndirectBlock, node, prevIndirectBlock)

/-- Visit the addresses in `count` words from `index` on, up to the first zero. -/
def forEachAddress (buffer : Block) (visit : Int64 → Fs Unit) : Nat → Nat → Fs Unit
  | 0, _ => pure ()
  | count + 1, index => do
      if buffer.word index = 0 then pure () else do
      visit (buffer.word index)
      forEachAddress buffer visit count (index + 1)

/--
`remove_datablocks_utility`.  Unlike `free_indirect_blocks` it ignores the
results of the calls it makes.  Level 0 is the data block that level 1 frees.
-/
def removeDatablocksUtility : Nat → Int64 → Fs Bool
  | 0, pBlockNum => freeDataBlock pBlockNum
  | indirectionlevel + 1, pBlockNum => do
      if pBlockNum.toInt ≤ 0 then pure false else do
      let buffer ← readDataBlockArray pBlockNum
      forEachAddress buffer
        (fun blockNum => do
          let _ ← removeDatablocksUtility indirectionlevel blockNum
          pure ())
        numOfAddressesPerBlock 0
      let _ ← freeDataBlock pBlockNum
      pure true

/-- Free and clear the direct blocks from `index` on. -/
def removeDirect : Nat → Nat → Inode → Fs (Bool × Inode)
  | 0, _, node => pure (true, node)
  | count + 1, index, node => do
      if !(← freeDataBlock (node.direct index)) then pure (false, node) else
      removeDirect count (index + 1) (node.setDirect index 0)

/-- Free and clear `count` entries of an address block from `index` on. -/
def removeEntries : Nat → Nat → Block → Fs (Bool × Block)
  | 0, _, arr => pure (true, arr)
  | count + 1, index, arr => do
      if !(← freeDataBlock (arr.word index)) then pure (false, arr) else
      removeEntries count (index + 1) (arr.setWord index 0)

/-- How often `for (j = start; j < end && j < 512; j++)` runs its body. -/
def entryCount (start : Nat) (endingBlockNum : Int) : Nat :=
  (min endingBlockNum (numOfAddressesPerBlock : Int) - start).toNat

/-- The whole triple-indirect tree goes, when the file reaches into it. -/
def removeTripleRest (node : Inode) (startingBlockNum : Nat) (endingBlockNum : Int) :
    Fs (Bool × Inode) := do
  if endingBlockNum ≤ numOfDoubleIndirectBlockAddr
  then pure (true, node.withBlocksNum startingBlockNum) else do
  if !(← removeDatablocksUtility 3 node.iTripleIndirect) then pure (false, node) else
  pure (true, { node with iTripleIndirect := 0 }.withBlocksNum startingBlockNum)

/-- The whole double-indirect tree goes, when the file reaches into it. -/
def removeDoubleRest (node : Inode) (startingBlockNum : Nat) (endingBlockNum : Int) :
    Fs (Bool × Inode) := do
  if endingBlockNum ≤ numOfAddressesPerBlock
  then pure (true, node.withBlocksNum startingBlockNum) else do
  if !(← removeDatablocksUtility 2 node.iDoubleIndirect) then pure (false, node) else
  removeTripleRest { node with iDoubleIndirect := 0 } startingBlockNum
    (endingBlockNum - numOfAddressesPerBlock)

/-- Removal from a direct block on. -/
def removeFromDirect (node : Inode) (logicalBlockNum : Nat) : Fs (Bool × Inode) := do
  let endingBlockNum := node.iBlocksNum.toInt
  let count := (min endingBlockNum (numOfDirectBlocks : Int) - logicalBlockNum).toNat
  let (freed, node) ← removeDirect count logicalBlockNum node
  if !freed then pure (false, node) else do
  if endingBlockNum ≤ numOfDirectBlocks
  then pure (true, node.withBlocksNum logicalBlockNum) else do
  if !(← removeDatablocksUtility 1 node.iSingleIndirect) then pure (false, node) else
  removeDoubleRest { node with iSingleIndirect := 0 } logicalBlockNum
    (endingBlockNum - numOfDirectBlocks)

/-- Removal from a block of the single-indirect level on. -/
def removeFromSingle (node : Inode) (startingBlockNum logicalBlockNum : Nat) :
    Fs (Bool × Inode) := do
  if node.iSingleIndirect = 0 then pure (false, node) else do
  let singleIndirectBlockArr ← readDataBlockArray node.iSingleIndirect
  let endingBlockNum := node.iBlocksNum.toInt - numOfDirectBlocks
  let (freed, arr) ← removeEntries (entryCount logicalBlockNum endingBlockNum)
    logicalBlockNum singleIndirectBlockArr
  if !freed then pure (false, node) else do
  if !(← writeDataBlock node.iSingleIndirect arr) then pure (false, node) else
  removeDoubleRest node startingBlockNum endingBlockNum

/--
The loop of the double-indirect level over `count` address blocks from `i`
on.  Returns whether it got through and the remaining `ending_block_num`.
The address block itself is freed unless it is the first one, but its entry
in `double_indirect_block_arr` is neither cleared nor written back.
-/
def removeDoubleLoop (doubleIndirectBlockArr : Block) (doubleIIdx innerIdx : Nat) :
    Nat → Nat → Int → Fs (Bool × Int)
  | 0, _, endingBlockNum => pure (true, endingBlockNum)
  | count + 1, i, endingBlockNum => do
      let start := if i = doubleIIdx then innerIdx else 0
      let dataBlockNum := doubleIndirectBlockArr.word i
      if dataBlockNum.toInt ≤ 0 then pure (false, endingBlockNum) else do
      let singleIndirectBlockArr ← readDataBlockArray dataBlockNum
      let steps := entryCount start endingBlockNum
      let (freed, arr) ← removeEntries steps start singleIndirectBlockArr
      if !freed then pure (false, endingBlockNum) else do
      if !(← writeDataBlock dataBlockNum arr) then pure (false, endingBlockNum) else do
      let j := start + steps
      if (j : Int) = endingBlockNum then pure (true, endingBlockNum) else do
      let endingBlockNum := endingBlockNum - numOfAddressesPerBlock
      if i = doubleIIdx ∧ 0 < j then
        removeDoubleLoop doubleIndirectBlockArr doubleIIdx innerIdx count (i + 1) endingBlockNum
      else do
      if !(← freeDataBlock dataBlockNum) then pure (false, endingBlockNum) else
      removeDoubleLoop doubleIndirectBlockArr doubleIIdx innerIdx count (i + 1) endingBlockNum

/-- Removal from a block of the double-indirect level on. -/
def removeFromDouble (node : Inode) (startingBlockNum logicalBlockNum : Nat) :
    Fs (Bool × Inode) := do
  if node.iDoubleIndirect = 0 then pure (false, node) else do
  let doubleIIdx := logicalBlockNum / numOfAddressesPerBlock
  let innerIdx := logicalBlockNum % numOfAddressesPerBlock
  let doubleIndirectBlockArr ← readDataBlockArray node.iDoubleIndirect
  let endingBlockNum := node.iBlocksNum.toInt - (numOfAddressesPerBlock + numOfDirectBlocks) -
    numOfAddressesPerBlock * doubleIIdx
  let (done, endingBlockNum) ← removeDoubleLoop doubleIndirectBlockArr doubleIIdx innerIdx
    (numOfAddressesPerBlock - doubleIIdx) doubleIIdx endingBlockNum
  if !done then pure (false, node) else
  removeTripleRest node startingBlockNum endingBlockNum

/--
The inner loop of the triple-indirect level, over `count` address blocks from
`j` on.  Returns whether it got through, whether the end was reached and the
remaining `ending_block_num`.
-/
def removeTripleInner (doubleIndirectBlockArr : Block) (doubleIIdx innerIdx : Nat) :
    Nat → Nat → Int → Fs (Bool × Bool × Int)
  | 0, _, endingBlockNum => pure (true, false, endingBlockNum)
  | count + 1, j, endingBlockNum => do
      let singleNum := doubleIndirectBlockArr.word j
      if singleNum.toInt ≤ 0 then pure (false, false, endingBlockNum) else do
      let start := if j = doubleIIdx then innerIdx else 0
      let singleIndirectBlockArr ← readDataBlockArray singleNum
      let steps := entryCount start endingBlockNum
      let (freed, arr) ← removeEntries steps start singleIndirectBlockArr
      if !freed then pure (false, false, endingBlockNum) else do
      if !(← writeDataBlock singleNum arr) then pure (false, false, endingBlockNum) else do
      if ((start + steps : Nat) : Int) = endingBlockNum then
        pure (true, true, endingBlockNum) else do
      let endingBlockNum := endingBlockNum - numOfAddressesPerBlock
      if start = innerIdx then
        removeTripleInner doubleIndirectBlockArr doubleIIdx innerIdx count (j + 1) endingBlockNum
      else do
      if !(← freeDataBlock singleNum) then pure (false, false, endingBlockNum) else
      removeTripleInner doubleIndirectBlockArr doubleIIdx innerIdx count (j + 1) endingBlockNum

def removeTripleLoop (tripleIndirectBlockArr : Block) (tripleIIdx doubleIIdx innerIdx : Nat) :
    Nat → Nat → Int → Fs Bool
  | 0, _, _ => pure true
  | count + 1, i, endingBlockNum => do
      let dataBlockNum := tripleIndirectBlockArr.word i
      if dataBlockNum.toInt ≤ 0 then pure false else do
      let start := if i = tripleIIdx then doubleIIdx else 0
      let doubleIndirectBlockArr ← readDataBlockArray dataBlockNum
      let (done, hasReachedEnd, endingBlockNum) ← removeTripleInner doubleIndirectBlockArr
        doubleIIdx innerIdx (numOfAddressesPerBlock - start) start endingBlockNum
      if !done then pure false else do
      if hasReachedEnd then pure true else do
      if start = doubleIIdx then
        removeTripleLoop tripleIndirectBlockArr tripleIIdx doubleIIdx innerIdx count (i + 1)
          endingBlockNum
      else do
      if !(← freeDataBlock dataBlockNum) then pure false else
      removeTripleLoop tripleIndirectBlockArr tripleIIdx doubleIIdx innerIdx count (i + 1)
        endingBlockNum

/-- Removal from a block of the triple-indirect level on. -/
def removeFromTriple (node : Inode) (startingBlockNum logicalBlockNum : Nat) :
    Fs (Bool × Inode) := do
  if node.iTripleIndirect = 0 then pure (false, node) else do
  let tripleIIdx := logicalBlockNum / numOfDoubleIndirectBlockAddr
  let doubleIIdx := logicalBlockNum / numOfAddressesPerBlock % numOfAddressesPerBlock
  let innerIdx := logicalBlockNum % numOfAddressesPerBlock
  let tripleIndirectBlockArr ← readDataBlockArray node.iTripleIndirect
  let endingBlockNum := node.iBlocksNum.toInt -
    (numOfDoubleIndirectBlockAddr + numOfAddressesPerBlock + numOfDirectBlocks) -
    (numOfDoubleIndirectBlockAddr * tripleIIdx + numOfAddressesPerBlock * doubleIIdx)
  if !(← removeTripleLoop tripleIndirectBlockArr tripleIIdx doubleIIdx innerIdx
      (numOfAddressesPerBlock - tripleIIdx) tripleIIdx endingBlockNum)
  then pure (false, node) else
  pure (true, node.withBlocksNum startingBlockNum)

/-- Remove the data blocks from position `logicalBlockNum` to the end of the file. -/
def removeDatablocksFromInode (node : Inode) (logicalBlockNum : Nat) : Fs (Bool × Inode) := do
  if (logicalBlockNum : Int) ≥ node.iBlocksNum.toInt then pure (false, node) else do
  let startingBlockNum := logicalBlockNum
  if logicalBlockNum ≤ numOfDirectBlocks then removeFromDirect node logicalBlockNum else do
  let logicalBlockNum := logicalBlockNum - numOfDirectBlocks
  if logicalBlockNum ≤ numOfAddressesPerBlock then
    removeFromSingle node startingBlockNum logicalBlockNum
  else do
  let logicalBlockNum := logicalBlockNum - numOfAddressesPerBlock
  if logicalBlockNum ≤ numOfDoubleIndirectBlockAddr then
    removeFromDouble node startingBlockNum logicalBlockNum
  else do
  let logicalBlockNum := logicalBlockNum - numOfDoubleIndirectBlockAddr
  if logicalBlockNum ≤ numOfTripleIndirectBlockAddr then
    removeFromTriple node startingBlockNum logicalBlockNum
  else
  pure (false, node)

end AltFs
