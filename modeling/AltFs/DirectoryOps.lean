import AltFs.InodeDataBlockOps

/-!
# Directories and paths

`directory_ops.c`.  A directory block is a sequence of records: the length of
the record (2 bytes), the inode number (8 bytes) and the name with its
terminator.  A zero length marks the end.
-/

namespace AltFs

/-- `MAX_FILE_NAME_LENGTH` -/
abbrev maxFileNameLength : Nat := 255

/-- `RECORD_FIXED_LEN` -/
abbrev recordFixedLen : Nat := 10

/-- `LAST_POSSIBLE_RECORD` -/
abbrev lastPossibleRecord : Nat := 4086

/-- `CACHE_CAPACITY` -/
def cacheCapacity : Nat := 100000

/-! ## Paths -/

/-- The last `/` before position `i` of the path that is not its last character. -/
def lastSlashBefore (path : CString) : Nat → Option Nat
  | 0 => none
  | i + 1 =>
      if path[i]? = some slash ∧ i ≠ path.length - 1 then some i else lastSlashBefore path i

def getLastIndexOfParentPath (path : CString) : Option Nat := lastSlashBefore path path.length

def copyParentPath (path : CString) : Option CString :=
  match getLastIndexOfParentPath path with
  | none => none
  | some 0 => some (path.take 1)
  | some (index + 1) => some (path.take (index + 1))

/-- The last component; a trailing `/` is dropped. -/
def copyFileName (path : CString) : Option CString :=
  match getLastIndexOfParentPath path with
  | none => none
  | some index =>
      let endIndex := if path.getLast? = some slash then path.length - 1 else path.length
      some ((path.take endIndex).drop (index + 1))

theorem lastSlashBefore_lt {path : CString} {i j : Nat} (h : lastSlashBefore path i = some j) :
    j < i ∧ j ≠ path.length - 1 ∧ path[j]? = some slash := by
  induction i with
  | zero => simp [lastSlashBefore] at h
  | succ i ih =>
      rw [lastSlashBefore] at h
      split at h
      · next hcond =>
          obtain rfl : i = j := by simpa using h
          exact ⟨by omega, hcond.2, hcond.1⟩
      · obtain ⟨hlt, hrest⟩ := ih h
        exact ⟨by omega, hrest⟩

theorem length_copyParentPath {path parent : CString} (h : copyParentPath path = some parent) :
    parent.length < path.length := by
  unfold copyParentPath at h
  split at h
  · simp at h
  · next hindex =>
      have := lastSlashBefore_lt hindex
      obtain rfl : path.take 1 = parent := by simpa using h
      rw [List.length_take]
      omega
  · next index hindex =>
      have := lastSlashBefore_lt hindex
      obtain rfl : path.take (index + 1) = parent := by simpa using h
      rw [List.length_take]
      omega

/-! ## Records -/

/-- `((unsigned short*)(buffer + position))[0]` -/
def recordLen (buffer : Block) (position : Nat) : Nat := buffer.readLe position 2

/-- `((ssize_t*)(buffer + position + RECORD_LENGTH))[0]` -/
def recordInum (buffer : Block) (position : Nat) : Int64 := buffer.ssizeAt (position + 2)

/-- A record for `inum` under `fileName`, terminator included. -/
def putRecord (buffer : Block) (position : Nat) (inum : Int64) (fileName : CString) : Block :=
  ((buffer.writeLe position 2 (recordFixedLen + fileName.length + 1)).putSsize (position + 2)
    inum).splice (position + recordFixedLen) (fileName.map Subtype.val ++ [0])

/-- The block without the record at `position`; what follows it moves up. -/
def removeRecord (buffer : Block) (position : Nat) : Block :=
  Block.ofFn fun i =>
    if i < position then buffer.byteAt i else buffer.byteAt (i + recordLen buffer position)

/-- `strncmp` with a name of the same length; it stops at the first difference. -/
def namesMatch (buffer : Block) : Nat → CString → Option Bool
  | _, [] => some true
  | position, c :: rest =>
      if position ≥ blockSize then none
      else if buffer.byteAt position = c.val then namesMatch buffer (position + 1) rest
      else some false

/--
The search of a block for a name, from `position` on.  Nothing when a name is
compared past the end of the block.  `fuel` bounds the bytes that are left.
-/
def findRecord (buffer : Block) (fileName : CString) : Nat → Nat → Option (Option Nat)
  | 0, _ => some none
  | fuel + 1, position =>
      if position > lastPossibleRecord then some none else
      if recordLen buffer position = 0 then some none else
      if (recordLen buffer position + 65536 - (recordFixedLen + 1)) % 65536 = fileName.length then
        match namesMatch buffer (position + recordFixedLen) fileName with
        | none => none
        | some true => some (some position)
        | some false => findRecord buffer fileName fuel (position + recordLen buffer position)
      else findRecord buffer fileName fuel (position + recordLen buffer position)

/-- The position at which the records of a block end, if a record could start there. -/
def recordsEnd (buffer : Block) : Nat → Nat → Option Nat
  | 0, _ => none
  | fuel + 1, position =>
      if position > lastPossibleRecord then none else
      if recordLen buffer position = 0 then some position else
      recordsEnd buffer fuel (position + recordLen buffer position)

/-- Where a name of `length` bytes and its terminator fit after the records of a block. -/
def spaceFor (buffer : Block) (length : Nat) : Option Nat :=
  (recordsEnd buffer blockSize 0).filter fun position =>
    length + 1 ≤ blockSize - position - recordFixedLen

/-- `struct fileposition` with an `offset` other than -1. -/
structure FilePosition where
  pBlock : Block
  pBlockNum : Int64
  offset : Nat

def Inode.addChild (node : Inode) : Inode := { node with iChildNum := node.iChildNum + 1 }

/-- The times and the count after a record has been removed. -/
def Inode.removeChild (node : Inode) (currTime : Int64) : Inode :=
  { node with iCtime := currTime, iMtime := currTime, iChildNum := node.iChildNum - 1 }

def Inode.withSize (node : Inode) (size : Int) : Inode :=
  { node with iFileSize := Int64.ofInt size }

section

variable [Config]

/-- `count` blocks of the directory from `lBlockNum` on. -/
def findInBlocks (fileName : CString) (node : Inode) :
    Nat → Nat → Int64 → Fs (Option FilePosition)
  | 0, _, _ => pure none
  | count + 1, lBlockNum, prevBlock => do
      let (pBlockNum, prevBlock) ← getDiskBlockFromInodeBlock node lBlockNum prevBlock
      if pBlockNum.toInt ≤ 0 then pure none else do
      let buffer ← readDataBlockArray pBlockNum
      match ← Prog.ofOption (findRecord buffer fileName blockSize 0) with
      | some offset => pure (some ⟨buffer, pBlockNum, offset⟩)
      | none => findInBlocks fileName node count (lBlockNum + 1) prevBlock

/-- `get_file_position_in_dir`; nothing stands for the offset -1. -/
def getFilePositionInDir (fileName : CString) (parentInode : Inode) : Fs (Option FilePosition) := do
  if !parentInode.isDir then pure none else do
  if fileName.length > maxFileNameLength then pure none else
  findInBlocks fileName parentInode parentInode.iBlocksNum.toInt.toNat 0 0

/-- A new block of the directory, for the record that fits in no other. -/
def addEntryBlock (dirInode : Inode) (childInum : Int64) (fileName : CString) :
    Fs (Bool × Inode) := do
  let dataBlockNum ← allocateDataBlock
  if dataBlockNum.toInt ≤ 0 then pure (false, dirInode) else do
  if !(← writeDataBlock dataBlockNum (putRecord Block.zero 0 childInum fileName))
  then pure (false, dirInode) else do
  let (added, dirInode) ← addDatablockToInode dirInode dataBlockNum
  if !added then pure (false, dirInode) else
  pure (true, (dirInode.withSize (dirInode.iFileSize.toInt + blockSize)).addChild)

/-- The search for a block with room among `count` blocks from `lBlockNum` on. -/
def addEntryFrom (dirInode : Inode) (childInum : Int64) (fileName : CString) :
    Nat → Nat → Int64 → Fs (Bool × Inode)
  | 0, _, _ => addEntryBlock dirInode childInum fileName
  | count + 1, lBlockNum, prevBlock => do
      let (pBlockNum, prevBlock) ← getDiskBlockFromInodeBlock dirInode lBlockNum prevBlock
      if pBlockNum.toInt ≤ 0 then pure (false, dirInode) else do
      let dblock ← readDataBlockArray pBlockNum
      match spaceFor dblock fileName.length with
      | none => addEntryFrom dirInode childInum fileName count (lBlockNum + 1) prevBlock
      | some currPos => do
          if !(← writeDataBlock pBlockNum (putRecord dblock currPos childInum fileName))
          then pure (false, dirInode) else
          pure (true, dirInode.addChild)

/-- `add_directory_entry`; returns the changed copy of the inode. -/
def addDirectoryEntry (dirInode : Inode) (childInum : Int64) (fileName : CString) :
    Fs (Bool × Inode) := do
  if !dirInode.isDir then pure (false, dirInode) else do
  if fileName.length > maxFileNameLength then pure (false, dirInode) else
  addEntryFrom dirInode childInum fileName dirInode.iBlocksNum.toInt.toNat 0 0

def removeDirectoryEntry (dirInode : Inode) (fileName : CString) : Fs (Bool × Inode) := do
  match ← getFilePositionInDir fileName dirInode with
  | none => pure (false, dirInode)
  | some filePos => do
      let _ ← writeDataBlock filePos.pBlockNum (removeRecord filePos.pBlock filePos.offset)
      let currTime ← currentTime
      pure (true, dirInode.removeChild currTime)

/-! ## Path resolution -/

def onCache {α : Type} (x : InodeCache.CacheProg α) : Fs α :=
  Prog.zoom FileSystem.cache (fun s cache => { s with cache := cache }) x

/-- One step of the walk: the inode number under `fileName` in the directory `parentInum`. -/
def nameInDir (parentInum : Int64) (fileName : CString) : Fs (Option Int64) := do
  let inodeObj ← getInode parentInum
  match ← getFilePositionInDir fileName inodeObj with
  | none => pure none
  | some filePos => pure (some (recordInum filePos.pBlock filePos.offset))

def nameI (filePath : CString) : Fs Int64 := do
  if filePath = [slash] then pure rootInodeNum else do
  let inumFromCache ← onCache (InodeCache.getCacheEntry filePath)
  if inumFromCache.toInt > 0 then pure inumFromCache else
  match h : copyParentPath filePath with
  | none => pure (-1)
  | some parentPath => do
      let parentInum ← nameI parentPath
      if parentInum = -1 then pure (-1) else
      match copyFileName filePath with
      | none => pure (-1)
      | some childPath => do
          match ← nameInDir parentInum childPath with
          | none => pure (-1)
          | some inum => do
              onCache (InodeCache.setCacheEntry filePath inum)
              pure inum
termination_by filePath.length
decreasing_by exact length_copyParentPath h

def removeFromInodeCache (path : CString) : Fs Bool := onCache (InodeCache.removeCacheEntry path)

def flushInodeCache (create : Bool) : Fs Unit := do
  onCache InodeCache.freeInodeCache
  if create then
    Prog.modify fun s => { s with cache := InodeCache.createInodeCache cacheCapacity }
  else pure ()

/-! ## Set-up -/

/-- `teardown`; the memory it frees is not used again. -/
def teardown : Fs Unit := do
  let _ ← altfsWriteSuperblock
  pure ()

/-- `S_IFDIR` -/
def sIfdir : UInt32 := 0x4000

/-- `S_IFREG` -/
def sIfreg : UInt32 := 0x8000

/-- `DEFAULT_PERMISSIONS` -/
def defaultPermissions : UInt32 := 0x1FD

/-- The root directory that `setup_filesystem` creates, still without entries. -/
def Inode.newRoot (rootDir : Inode) (currTime : Int64) : Inode :=
  { rootDir with
    iAllocated := true
    iLinksCount := rootDir.iLinksCount + 1
    iMode := sIfdir ||| defaultPermissions
    iBlocksNum := 0
    iFileSize := 0
    iAtime := currTime
    iCtime := currTime
    iMtime := currTime
    iStatusChangeTime := currTime
    iChildNum := 0 }

def setupFilesystem : Fs Bool := do
  if !(← loadSuperblock) then pure false else do
  Prog.modify fun s => { s with cache := InodeCache.createInodeCache cacheCapacity }
  match ← getInode? rootInodeNum with
  | none => do
      teardown
      pure false
  | some rootDir => do
      if rootDir.iAllocated ∧ 2 ≤ rootDir.iChildNum.toNat then pure true else do
      let currTime ← currentTime
      let (added, rootDir) ← addDirectoryEntry (rootDir.newRoot currTime) rootInodeNum [dot]
      if !added then do
        teardown
        pure false
      else do
      let (added, rootDir) ← addDirectoryEntry rootDir rootInodeNum [dot, dot]
      if !added then do
        teardown
        pure false
      else do
      if !(← writeInode rootInodeNum rootDir) then do
        teardown
        pure false
      else
      pure true

end

end AltFs
