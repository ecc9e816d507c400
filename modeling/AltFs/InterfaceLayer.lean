import AltFs.FileDataOps

/-!
# The interface of the file system

`interface_layer.c`: the operations on paths.
-/

namespace AltFs

/-- `EIO` -/
abbrev eio : Int := 5

/-- `ENOTDIR` -/
abbrev enotdir : Int := 20

/-- `ENOTEMPTY` -/
abbrev enotempty : Int := 39

/-- `EDQUOT` -/
abbrev edquot : Int := 122

/-- `O_WRONLY` -/
def oWronly : Int64 := 0x1

/-- `O_RDWR` -/
def oRdwr : Int64 := 0x2

/-- `O_CREAT` -/
def oCreat : Int64 := 0x40

/-- `O_TRUNC` -/
def oTrunc : Int64 := 0x200

def hasFlag (oflag flag : Int64) : Bool := oflag &&& flag ≠ 0

/-- `struct stat`; the fields that are always zero are left out. -/
structure Stat where
  stIno : Int64
  stMode : UInt32
  stNlink : UInt64
  stSize : Int64
  stBlksize : Int64
  stBlocks : Int64
  stAtime : Int64
  stCtime : Int64
  stMtime : Int64

/-- `memset(st, 0, sizeof(struct stat))` -/
def Stat.zero : Stat where
  stIno := 0
  stMode := 0
  stNlink := 0
  stSize := 0
  stBlksize := 0
  stBlocks := 0
  stAtime := 0
  stCtime := 0
  stMtime := 0

/-- `inode_to_stat`, with `st_ino` set by the callers. -/
def inodeToStat (inum : Int64) (node : Inode) : Stat where
  stIno := inum
  stMode := node.iMode
  stNlink := node.iLinksCount
  stSize := node.iFileSize
  stBlksize := 4096
  stBlocks := node.iBlocksNum
  stAtime := node.iAtime
  stCtime := node.iCtime
  stMtime := node.iMtime

/-- The directory after `create_new_file` or `altfs_rename` has changed its entries. -/
def Inode.entriesChanged (node : Inode) (currTime : Int64) : Inode :=
  { node with iMtime := currTime, iCtime := currTime }

/-- The inode of a new file. -/
def Inode.fresh (node : Inode) (mode : UInt32) (currTime : Int64) : Inode :=
  { node with
    iLinksCount := 1
    iMode := mode
    iBlocksNum := 0
    iFileSize := 0
    iAtime := currTime
    iMtime := currTime
    iCtime := currTime
    iStatusChangeTime := currTime
    iChildNum := 0 }

def isEmptyDir (dirInode : Inode) : Bool := !(dirInode.iChildNum > 2)

/-- The state of `create_new_file` after it has tried to add the entry to the parent. -/
structure CreatedEntry where
  parentInodeNum : Int64
  parentInode : Inode
  childInodeNum : Int64
  added : Bool

/-- What `create_new_file` returns, with its output parameters. -/
structure NewFile where
  childInodeNum : Int64
  node : Inode
  parentInum : Int64

/-- A record handed to the callback of `altfs_readdir`: the name and its attributes. -/
abbrev DirItem : Type := List UInt8 × Stat

variable [Config]

def altfsInit : Fs Bool := setupFilesystem

def altfsGetattr (path : CString) : Fs (Int × Stat) := do
  let inum ← nameI path
  if inum = -1 then pure (-enoent, Stat.zero) else do
  match ← getInode? inum with
  | none => pure (-eio, Stat.zero)
  | some node => pure (0, inodeToStat inum node)

def altfsAccess (path : CString) : Fs Int := do
  let inum ← nameI path
  if inum = -1 then pure (-enoent) else pure 0

/-! ## Creating -/

/-- The part of `create_new_file` up to the entry in the parent directory. -/
def createEntry (path : CString) : Fs (Except Int CreatedEntry) := do
  match copyParentPath path with
  | none => pure (.error (-enoent))
  | some parentPath => do
      let parentInodeNum ← nameI parentPath
      if parentInodeNum = -1 then pure (.error (-enoent)) else do
      let parentInode ← getInode parentInodeNum
      if !parentInode.isDir then pure (.error (-enoent)) else do
      if !parentInode.canWrite then pure (.error (-eacces)) else do
      match copyFileName path with
      | none => pure (.error (-1))
      | some childName => do
          let childInodeNum ← allocateInode
          if childInodeNum = -1 then pure (.error (-edquot)) else do
          let (added, parentInode) ← addDirectoryEntry parentInode childInodeNum childName
          pure (.ok ⟨parentInodeNum, parentInode, childInodeNum, added⟩)

/-- The part of `create_new_file` after the entry has been added to the copy of the parent. -/
def finishCreate (created : CreatedEntry) (mode : UInt32) : Fs (Except Int NewFile) := do
  let currTime ← currentTime
  if !(← writeInode created.parentInodeNum (created.parentInode.entriesChanged currTime))
  then pure (.error (-1)) else do
  let buff ← getInode created.childInodeNum
  let buff := buff.fresh mode currTime
  if !(← writeInode created.childInodeNum buff) then pure (.error (-1)) else
  pure (.ok ⟨created.childInodeNum, buff, created.parentInodeNum⟩)

def createNewFile (path : CString) (mode : UInt32) : Fs (Except Int NewFile) := do
  match ← createEntry path with
  | .error code => pure (.error code)
  | .ok created =>
      if !created.added then do
        let _ ← freeInode created.childInodeNum
        pure (.error (-edquot))
      else
      finishCreate created mode

/-- The entries `.` and `..` of a new directory. -/
def addDots (dirInode : Inode) (dirInodeNum parentInum : Int64) : Fs (Bool × Inode) := do
  let (added, dirInode) ← addDirectoryEntry dirInode dirInodeNum [dot]
  if !added then pure (false, dirInode) else
  addDirectoryEntry dirInode parentInum [dot, dot]

def altfsMkdir (path : CString) (mode : UInt32) : Fs Bool := do
  let inum ← nameI path
  if inum ≠ -1 then pure false else do
  match ← createNewFile path (sIfdir ||| mode) with
  | .error _ => pure false
  | .ok created => do
      let (added, dirInode) ← addDots created.node created.childInodeNum created.parentInum
      if !added then pure false else
      writeInode created.childInodeNum dirInode

def altfsMknod (path : CString) (mode : UInt32) : Fs Bool := do
  let inum ← nameI path
  if inum ≠ -1 then pure false else do
  match ← createNewFile path mode with
  | .error _ => pure false
  | .ok _ => pure true

/-! ## Listing a directory -/

/-- The records of a block from `offset` on.  `fuel` bounds the bytes that are left. -/
def readdirBlock (dblock : Block) : Nat → Nat → Fs (List DirItem)
  | 0, _ => pure []
  | fuel + 1, offset => do
      if offset ≥ lastPossibleRecord then pure [] else do
      if recordLen dblock offset = 0 then pure [] else do
      let nameLen := (recordLen dblock offset + 65536 - recordFixedLen) % 65536
      Prog.require (offset + recordFixedLen + nameLen ≤ blockSize)
      let fileInode ← getInode (recordInum dblock offset)
      let rest ← readdirBlock dblock fuel (offset + recordLen dblock offset)
      pure ((dblock.slice (offset + recordFixedLen) nameLen,
        inodeToStat (recordInum dblock offset) fileInode) :: rest)

def readdirBlocks (node : Inode) : Nat → Nat → Int64 → Fs (List DirItem)
  | 0, _, _ => pure []
  | count + 1, iBlockNum, prev => do
      let (dblockNum, prev) ← getDiskBlockFromInodeBlock node iBlockNum prev
      let dblock ← readDataBlockArray dblockNum
      let items ← readdirBlock dblock blockSize 0
      let rest ← readdirBlocks node count (iBlockNum + 1) prev
      pure (items ++ rest)

def altfsReaddir (path : CString) : Fs (Int × List DirItem) := do
  let inum ← nameI path
  if inum = -1 then pure (-enoent, []) else do
  let node ← getInode inum
  if !node.isDir then pure (-enotdir, []) else do
  let items ← readdirBlocks node node.iBlocksNum.toInt.toNat 0 0
  pure (0, items)

/-! ## Removing -/

/-- One link less; the last one frees the inode. -/
def dropLink (inum : Int64) (node : Inode) : Fs Unit := do
  let node : Inode := { node with iLinksCount := node.iLinksCount - 1 }
  if node.iLinksCount = 0 then do
    let _ ← freeInode inum
    pure ()
  else do
    let currTime ← currentTime
    let _ ← writeInode inum { node with iStatusChangeTime := currTime }
    pure ()

/-- A path that is not in the cache makes it empty. -/
def forgetPath (path : CString) : Fs Unit := do
  if ← removeFromInodeCache path then pure () else flushInodeCache true

/-- The part of `altfs_unlink` that works on the two inodes it has read. -/
def unlinkEntry (path childName : CString) (inum parentInum : Int64) (node parent : Inode) :
    Fs Int := do
  let (removed, parent) ← removeDirectoryEntry parent childName
  if !removed then pure (-1) else do
  dropLink inum node
  let _ ← writeInode parentInum parent
  forgetPath path
  pure 0

def altfsUnlink (path : CString) : Fs Int := do
  let inum ← nameI path
  if inum = -1 then pure (-enoent) else do
  if inum = rootInodeNum then pure (-eacces) else do
  match copyFileName path with
  | none => pure (-1)
  | some childName =>
  match copyParentPath path with
  | none => pure (-einval)
  | some parentPath => do
      let node ← getInode inum
      if node.isDir ∧ !isEmptyDir node then pure (-enotempty) else do
      let parentInum ← nameI parentPath
      if parentInum = -1 then pure (-1) else do
      let parent ← getInode parentInum
      unlinkEntry path childName inum parentInum node parent

/-! ## Opening -/

/-- The permissions asked for by `oflag`; `O_RDONLY` is zero and asks for none. -/
def mayOpen (oflag : Int64) (node : Inode) : Bool :=
  !(hasFlag oflag oRdwr && !node.canRead) &&
    !((hasFlag oflag oWronly || hasFlag oflag oRdwr) && !node.canWrite)

/-- The part of `altfs_open` after the file has been found or created. -/
def openInum (path : CString) (oflag : Int64) (inum : Int64) (created : Bool) : Fs Int := do
  let node ← getInode inum
  if !mayOpen oflag node then pure (-eacces) else do
  if hasFlag oflag oTrunc && node.canWrite then do
    if (← altfsTruncate path 0) = -1 then pure (-1) else do
    if !created then do
      -- `node` was read before the truncation
      let currTime ← currentTime
      let _ ← writeInode inum { node with iCtime := currTime, iMtime := currTime }
      pure inum.toInt
    else pure inum.toInt
  else pure inum.toInt

def altfsOpen (path : CString) (oflag : Int64) : Fs Int := do
  let inum ← nameI path
  if inum = -1 then
    if hasFlag oflag oCreat then do
      match ← createNewFile path (sIfreg ||| defaultPermissions) with
      | .error code => pure code
      | .ok created => openInum path oflag created.childInodeNum true
    else pure (-enoent)
  else
  openInum path oflag inum false

def altfsClose : Fs Int := pure 0

def altfsChmod (path : CString) (mode : UInt32) : Fs Int := do
  let inum ← nameI path
  if inum = -1 then pure (-enoent) else do
  match ← getInode? inum with
  | none => pure (-1)
  | some node =>
      if !(← writeInode inum { node with iMode := mode }) then pure (-1) else pure 0

/-! ## Renaming -/

/-- The target of a rename is unlinked when it exists. -/
def unlinkTarget (toPath : CString) : Fs Int := do
  if (← altfsAccess toPath) = 0 then altfsUnlink toPath else pure 0

/-- The part of `altfs_rename` that removes the record of the source. -/
def removeSource (fromPath : CString) (currTime : Int64) : Fs Int := do
  match copyParentPath fromPath with
  | none => pure (-1)
  | some fromParentPath => do
      let fromParentInodeNum ← nameI fromParentPath
      if fromParentInodeNum = -1 then pure (-1) else do
      let fromParentInode ← getInode fromParentInodeNum
      match copyFileName fromPath with
      | none => pure (-1)
      | some fromChildName => do
          let (removed, fromParentInode) ← removeDirectoryEntry fromParentInode fromChildName
          if !removed then pure (-1) else do
          if !(← writeInode fromParentInodeNum (fromParentInode.entriesChanged currTime))
          then pure (-1) else do
          flushInodeCache true
          pure 0

/-- The part of `altfs_rename` after the target has been unlinked. -/
def moveEntry (fromPath toPath : CString) : Fs Int := do
  match copyParentPath toPath with
  | none => pure (-1)
  | some toParentPath => do
      let toParentInodeNum ← nameI toParentPath
      if toParentInodeNum = -1 then pure (-1) else do
      let toParentInode ← getInode toParentInodeNum
      if !toParentInode.isDir then pure (-1) else do
      match copyFileName toPath with
      | none => pure (-1)
      | some toChildName => do
          let inum ← nameI fromPath
          let (added, toParentInode) ← addDirectoryEntry toParentInode inum toChildName
          if !added then pure (-edquot) else do
          let currTime ← currentTime
          if !(← writeInode toParentInodeNum (toParentInode.entriesChanged currTime))
          then pure (-1) else
          removeSource fromPath currTime

def altfsRename (fromPath toPath : CString) : Fs Int := do
  if (← altfsAccess fromPath) ≠ 0 then pure (-enoent) else do
  let unlinkRes ← unlinkTarget toPath
  if unlinkRes ≠ 0 then pure unlinkRes else
  moveEntry fromPath toPath

def altfsDestroy : Fs Unit := do
  flushInodeCache false
  teardown

end AltFs
