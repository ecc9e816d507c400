import AltFs.Reading

/-!
# What the primitives keep, every function keeps

`Primitives R`: the functions that touch the device, the superblock, the cache
or the clock themselves stay within the preorder `R`.  All others are built
from these, so they stay within `R` too, whatever their arguments.
-/

namespace AltFs

open Prog

variable [Config]

structure Primitives (R : FileSystem → FileSystem → Prop) : Prop extends Lookups R where
  altfsWriteSuperblock : Within R altfsWriteSuperblock
  loadSuperblock : Within R loadSuperblock
  allocateDataBlock : Within R allocateDataBlock
  freeDataBlock : ∀ b, Within R (freeDataBlock b)
  writeDataBlock : ∀ b block, Within R (writeDataBlock b block)
  allocateInode : Within R allocateInode
  writeInode : ∀ inum node, Within R (writeInode inum node)
  freeInode : ∀ inum, Within R (freeInode inum)
  currentTime : Within R currentTime

/-- The primitives that leave the cache alone stay within `R`. -/
structure Writes (R : FileSystem → FileSystem → Prop) : Prop where
  altfsReadBlock : ∀ b, Within R (altfsReadBlock b)
  allocateDataBlock : Within R allocateDataBlock
  freeDataBlock : ∀ b, Within R (freeDataBlock b)
  writeDataBlock : ∀ b block, Within R (writeDataBlock b block)
  allocateInode : Within R allocateInode
  writeInode : ∀ inum node, Within R (writeInode inum node)
  freeInode : ∀ inum, Within R (freeInode inum)
  currentTime : Within R currentTime

/-- So do the functions that change the cache, for paths of `P`. -/
structure Operations (P : CString → Prop) (R : FileSystem → FileSystem → Prop) : Prop
    extends Writes R where
  parent : ∀ {path parentPath}, copyParentPath path = some parentPath → P path → P parentPath
  nameI : ∀ {path}, P path → Within R (nameI path)
  removeFromInodeCache : ∀ {path}, P path → Within R (removeFromInodeCache path)
  flushInodeCache : Within R (flushInodeCache true)

section

variable {R : FileSystem → FileSystem → Prop} [IsPreorder FileSystem R] (h : Writes R)

include h

theorem Writes.reads : ReadProperty fun _ x => Within R x := reads_of h.altfsReadBlock

/-! ## `inode_data_block_ops.c` -/

theorem Writes.storeAddress_within (b : Int64) (index : Nat) (value : Int64) :
    Within R (storeAddress b index value) :=
  .bind (h.reads.readDataBlockArray_reads b) fun _ =>
    .bind (.require _) fun _ => h.writeDataBlock _ _

theorem Writes.addToSingle_within (node : Inode) (l : Nat) (b : Int64) :
    Within R (addToSingle node l b) := by
  unfold addToSingle
  refine .ite (.bind h.allocateDataBlock fun _ => ?_) (.bind (.pure _) fun _ => ?_)
  all_goals
    refine .ite (.pure _) (.bind (h.storeAddress_within _ _ _) fun _ => ?_)
    exact .ite (.pure _) (.pure _)

theorem Writes.addToAddressBlock_within (node : Inode) (p : Int64) (innerIdx : Nat)
    (b : Int64) : Within R (addToAddressBlock node p innerIdx b) :=
  .ite (.pure _) (.bind (h.storeAddress_within _ _ _) fun _ => .ite (.pure _) (.pure _))

theorem Writes.addToDoubleBlock_within (node : Inode) (p : Int64) (doubleIIdx innerIdx : Nat)
    (b : Int64) : Within R (addToDoubleBlock node p doubleIIdx innerIdx b) := by
  refine .bind (h.reads.readDataBlockArray_reads p) fun _ =>
    .ite ?_ (h.addToAddressBlock_within _ _ _ _)
  refine .bind h.allocateDataBlock fun _ => .ite (.pure _) ?_
  exact .bind (h.writeDataBlock _ _) fun _ =>
    .ite (.pure _) (h.addToAddressBlock_within _ _ _ _)

theorem Writes.addToDouble_within (node : Inode) (l : Nat) (b : Int64) :
    Within R (addToDouble node l b) := by
  unfold addToDouble
  refine .ite (.bind h.allocateDataBlock fun _ => ?_) (.bind (.pure _) fun _ => ?_)
  all_goals exact .ite (.pure _) (h.addToDoubleBlock_within _ _ _ _ _)

theorem Writes.addToTripleBlock_within (node : Inode) (p : Int64) (l : Nat) (b : Int64) :
    Within R (addToTripleBlock node p l b) := by
  refine .bind (h.reads.readDataBlockArray_reads p) fun _ =>
    .ite ?_ (h.addToDoubleBlock_within _ _ _ _ _)
  refine .bind h.allocateDataBlock fun _ => .ite (.pure _) ?_
  exact .bind (h.writeDataBlock _ _) fun _ =>
    .ite (.pure _) (h.addToDoubleBlock_within _ _ _ _ _)

theorem Writes.addToTriple_within (node : Inode) (l : Nat) (b : Int64) :
    Within R (addToTriple node l b) := by
  unfold addToTriple
  refine .ite (.bind h.allocateDataBlock fun _ => ?_) (.bind (.pure _) fun _ => ?_)
  all_goals exact .ite (.pure _) (h.addToTripleBlock_within _ _ _ _)

theorem Writes.addDatablockToInode_within (node : Inode) (b : Int64) :
    Within R (addDatablockToInode node b) := by
  refine .bind (.require _) fun _ => .ite (.pure _) ?_
  refine .ite (h.addToSingle_within _ _ _) (.ite (h.addToDouble_within _ _ _) ?_)
  exact .ite (h.addToTriple_within _ _ _) (.pure _)

omit [Config] h in
theorem forEachAddress_within {visit : Int64 → Fs Unit}
    (hvisit : ∀ b, Within R (visit b)) (buffer : Block) (count index : Nat) :
    Within R (forEachAddress buffer visit count index) := by
  induction count generalizing index with
  | zero => exact .pure ()
  | succ count ih => exact .ite (.pure ()) (.bind (hvisit _) fun _ => ih (index + 1))

theorem Writes.removeDatablocksUtility_within (level : Nat) (b : Int64) :
    Within R (removeDatablocksUtility level b) := by
  induction level generalizing b with
  | zero => exact h.freeDataBlock b
  | succ level ih =>
      refine .ite (.pure _) (.bind (h.reads.readDataBlockArray_reads b) fun buffer => ?_)
      refine .bind (forEachAddress_within (fun a => ?_) buffer _ _) fun _ => ?_
      · exact .bind (ih a) fun _ => .pure ()
      · exact .bind (h.freeDataBlock b) fun _ => .pure _

theorem Writes.removeDirect_within (count index : Nat) (node : Inode) :
    Within R (removeDirect count index node) := by
  induction count generalizing index node with
  | zero => exact .pure _
  | succ count ih => exact .bind (h.freeDataBlock _) fun _ => .ite (.pure _) (ih _ _)

theorem Writes.removeEntries_within (count index : Nat) (arr : Block) :
    Within R (removeEntries count index arr) := by
  induction count generalizing index arr with
  | zero => exact .pure _
  | succ count ih => exact .bind (h.freeDataBlock _) fun _ => .ite (.pure _) (ih _ _)

theorem Writes.removeTripleRest_within (node : Inode) (start : Nat) (ending : Int) :
    Within R (removeTripleRest node start ending) :=
  .ite (.pure _) (.bind (h.removeDatablocksUtility_within _ _) fun _ => .ite (.pure _) (.pure _))

theorem Writes.removeDoubleRest_within (node : Inode) (start : Nat) (ending : Int) :
    Within R (removeDoubleRest node start ending) :=
  .ite (.pure _) (.bind (h.removeDatablocksUtility_within _ _) fun _ =>
    .ite (.pure _) (h.removeTripleRest_within _ _ _))

theorem Writes.removeFromDirect_within (node : Inode) (l : Nat) :
    Within R (removeFromDirect node l) := by
  refine .bind (h.removeDirect_within _ _ _) fun _ => .ite (.pure _) (.ite (.pure _) ?_)
  exact .bind (h.removeDatablocksUtility_within _ _) fun _ =>
    .ite (.pure _) (h.removeDoubleRest_within _ _ _)

theorem Writes.removeFromSingle_within (node : Inode) (start l : Nat) :
    Within R (removeFromSingle node start l) := by
  refine .ite (.pure _) (.bind (h.reads.readDataBlockArray_reads _) fun _ => ?_)
  refine .bind (h.removeEntries_within _ _ _) fun _ => .ite (.pure _) ?_
  exact .bind (h.writeDataBlock _ _) fun _ => .ite (.pure _) (h.removeDoubleRest_within _ _ _)

theorem Writes.removeDoubleLoop_within (arr : Block) (doubleIIdx innerIdx count i : Nat)
    (ending : Int) : Within R (removeDoubleLoop arr doubleIIdx innerIdx count i ending) := by
  induction count generalizing i ending with
  | zero => exact .pure _
  | succ count ih =>
      unfold removeDoubleLoop
      refine .ite (.pure _) (.bind (h.reads.readDataBlockArray_reads _) fun _ => ?_)
      refine .bind (h.removeEntries_within _ _ _) fun _ => .ite (.pure _) ?_
      refine .bind (h.writeDataBlock _ _) fun _ => .ite (.pure _) (.ite (.pure _) ?_)
      exact .ite (ih _ _) (.bind (h.freeDataBlock _) fun _ => .ite (.pure _) (ih _ _))

theorem Writes.removeFromDouble_within (node : Inode) (start l : Nat) :
    Within R (removeFromDouble node start l) := by
  refine .ite (.pure _) (.bind (h.reads.readDataBlockArray_reads _) fun _ => ?_)
  exact .bind (h.removeDoubleLoop_within _ _ _ _ _ _) fun _ =>
    .ite (.pure _) (h.removeTripleRest_within _ _ _)

theorem Writes.removeTripleInner_within (arr : Block) (doubleIIdx innerIdx count j : Nat)
    (ending : Int) : Within R (removeTripleInner arr doubleIIdx innerIdx count j ending) := by
  induction count generalizing j ending with
  | zero => exact .pure _
  | succ count ih =>
      unfold removeTripleInner
      refine .ite (.pure _) (.bind (h.reads.readDataBlockArray_reads _) fun _ => ?_)
      refine .bind (h.removeEntries_within _ _ _) fun _ => .ite (.pure _) ?_
      refine .bind (h.writeDataBlock _ _) fun _ => .ite (.pure _) (.ite (.pure _) ?_)
      exact .ite (ih _ _) (.bind (h.freeDataBlock _) fun _ => .ite (.pure _) (ih _ _))

theorem Writes.removeTripleLoop_within (arr : Block)
    (tripleIIdx doubleIIdx innerIdx count i : Nat) (ending : Int) :
    Within R (removeTripleLoop arr tripleIIdx doubleIIdx innerIdx count i ending) := by
  induction count generalizing i ending with
  | zero => exact .pure _
  | succ count ih =>
      unfold removeTripleLoop
      refine .ite (.pure _) (.bind (h.reads.readDataBlockArray_reads _) fun _ => ?_)
      refine .bind (h.removeTripleInner_within _ _ _ _ _ _) fun _ => .ite (.pure _) ?_
      refine .ite (.pure _) (.ite (ih _ _) ?_)
      exact .bind (h.freeDataBlock _) fun _ => .ite (.pure _) (ih _ _)

theorem Writes.removeFromTriple_within (node : Inode) (start l : Nat) :
    Within R (removeFromTriple node start l) := by
  refine .ite (.pure _) (.bind (h.reads.readDataBlockArray_reads _) fun _ => ?_)
  exact .bind (h.removeTripleLoop_within _ _ _ _ _ _ _) fun _ => .ite (.pure _) (.pure _)

theorem Writes.removeDatablocksFromInode_within (node : Inode) (l : Nat) :
    Within R (removeDatablocksFromInode node l) := by
  refine .ite (.pure _) (.ite (h.removeFromDirect_within _ _) ?_)
  refine .ite (h.removeFromSingle_within _ _ _) (.ite (h.removeFromDouble_within _ _ _) ?_)
  exact .ite (h.removeFromTriple_within _ _ _) (.pure _)

/-! ## `directory_ops.c` -/

theorem Writes.addEntryBlock_within (node : Inode) (childInum : Int64) (fileName : CString) :
    Within R (addEntryBlock node childInum fileName) := by
  refine .bind h.allocateDataBlock fun _ => .ite (.pure _) ?_
  refine .bind (h.writeDataBlock _ _) fun _ => .ite (.pure _) ?_
  exact .bind (h.addDatablockToInode_within _ _) fun _ => .ite (.pure _) (.pure _)

theorem Writes.addEntryFrom_within (node : Inode) (childInum : Int64) (fileName : CString)
    (count l : Nat) (prev : Int64) :
    Within R (addEntryFrom node childInum fileName count l prev) := by
  induction count generalizing l prev with
  | zero => exact h.addEntryBlock_within _ _ _
  | succ count ih =>
      refine .bind (h.reads.getDiskBlockFromInodeBlock_reads _ _ _) fun _ => .ite (.pure _) ?_
      refine .bind (h.reads.readDataBlockArray_reads _) fun dblock => ?_
      cases spaceFor dblock fileName.length with
      | none => exact ih _ _
      | some currPos => exact .bind (h.writeDataBlock _ _) fun _ => .ite (.pure _) (.pure _)

theorem Writes.addDirectoryEntry_within (node : Inode) (childInum : Int64)
    (fileName : CString) : Within R (addDirectoryEntry node childInum fileName) :=
  .ite (.pure _) (.ite (.pure _) (h.addEntryFrom_within _ _ _ _ _ _))

theorem Writes.dropLink_within (inum : Int64) (node : Inode) : Within R (dropLink inum node) :=
  .ite (.bind (h.freeInode _) fun _ => .pure _)
    (.bind h.currentTime fun _ => .bind (h.writeInode _ _) fun _ => .pure _)

theorem Writes.removeDirectoryEntry_within (node : Inode) (fileName : CString) :
    Within R (removeDirectoryEntry node fileName) := by
  refine .bind (h.reads.getFilePositionInDir_reads _ _) fun found => ?_
  cases found with
  | none => exact .pure _
  | some filePos =>
      exact .bind (h.writeDataBlock _ _) fun _ => .bind h.currentTime fun _ => .pure _

/-! ## Files and listings -/

theorem Writes.overwriteBlocks_within (node : Inode) (buff : List UInt8) (span : Span)
    (count i : Nat) (prev : Int64) (bytesWritten : Nat) :
    Within R (overwriteBlocks node buff span count i prev bytesWritten) := by
  induction count generalizing i prev bytesWritten with
  | zero => exact .pure _
  | succ count ih =>
      unfold overwriteBlocks
      refine .bind (h.reads.getDiskBlockFromInodeBlock_reads _ _ _) fun _ => .ite (.pure _) ?_
      refine .ite (.bind (.pure _) fun bufRead => ?_)
        (.bind (h.reads.readDataBlock_reads _) fun bufRead => ?_)
      all_goals
        cases bufRead with
        | none => exact .pure _
        | some bufRead =>
            refine .bind (h.writeDataBlock _ _) fun _ => .ite (.pure _) ?_
            exact .ite (.pure _) (ih _ _ _)

theorem Writes.appendBlocks_within (buff : List UInt8) (span : Span)
    (newBlocks startingBlock : Int) (count i : Nat) (node : Inode) (bytesWritten : Nat) :
    Within R (appendBlocks buff span newBlocks startingBlock count i node bytesWritten) := by
  induction count generalizing i node bytesWritten with
  | zero => exact .pure _
  | succ count ih =>
      unfold appendBlocks
      refine .bind h.allocateDataBlock fun _ => .ite (.pure _) ?_
      refine .bind (h.addDatablockToInode_within _ _) fun _ => .ite (.pure _) ?_
      refine .ite (.bind (h.writeDataBlock _ _) fun _ => ?_) (.bind (.pure _) fun _ => ?_)
      all_goals exact .ite (.pure _) (ih _ _ _)

theorem Writes.finishWrite_within (inum : Int64) (node : Inode)
    (offset bytesWritten : Nat) : Within R (finishWrite inum node offset bytesWritten) := by
  have hstamp : ∀ node, Within R (stampWrite node bytesWritten) := fun node =>
    .ite (.pure _) (.bind h.currentTime fun _ => .pure _)
  exact .bind (hstamp _) fun _ => .bind (h.writeInode _ _) fun _ => .ite (.pure _) (.pure _)

theorem Writes.writeInum_within (inum : Int64) (buff : List UInt8) (offset : Nat) :
    Within R (writeInum inum buff offset) := by
  refine .bind (h.reads.getInode_reads _) fun _ => ?_
  refine .bind (h.overwriteBlocks_within _ _ _ _ _ _ _) fun _ => .ite (.pure _) ?_
  exact .bind (h.appendBlocks_within _ _ _ _ _ _ _ _) fun _ => h.finishWrite_within _ _ _ _

theorem Writes.cutBlocks_within (node : Inode) (last : Int) :
    Within R (cutBlocks node last) :=
  .ite (.bind (h.removeDatablocksFromInode_within _ _) fun _ => .pure _) (.pure _)

theorem Writes.shrinkTo_within (inum : Int64) (node : Inode) (length : Nat) :
    Within R (shrinkTo inum node length) := by
  have hclear : ∀ b, Within R (clearTail b length) := fun b =>
    .bind (h.reads.readDataBlock_reads b) fun _ => .ite (.pure _)
      (.bind (.ofOption _) fun _ => .bind (h.writeDataBlock _ _) fun _ => .pure _)
  refine .bind (h.cutBlocks_within _ _) fun _ => .ite (.bind (h.writeInode _ _) fun _ => .pure _) ?_
  refine .bind (h.reads.getDiskBlockFromInodeBlock_reads _ _ _) fun _ => .ite (.pure _) ?_
  exact .bind (hclear _) fun _ => .bind (h.writeInode _ _) fun _ => .pure _

theorem Writes.readdirBlock_within (dblock : Block) (fuel offset : Nat) :
    Within R (readdirBlock dblock fuel offset) := by
  induction fuel generalizing offset with
  | zero => exact .pure _
  | succ fuel ih =>
      refine .ite (.pure _) (.ite (.pure _) (.bind (.require _) fun _ => ?_))
      exact .bind (h.reads.getInode_reads _) fun _ => .bind (ih _) fun _ => .pure _

theorem Writes.readdirBlocks_within (node : Inode) (count l : Nat) (prev : Int64) :
    Within R (readdirBlocks node count l prev) := by
  induction count generalizing l prev with
  | zero => exact .pure _
  | succ count ih =>
      unfold readdirBlocks
      refine .bind (h.reads.getDiskBlockFromInodeBlock_reads _ _ _) fun _ => ?_
      refine .bind (h.reads.readDataBlockArray_reads _) fun dblock => ?_
      refine .bind (h.readdirBlock_within dblock blockSize 0) fun _ => ?_
      exact .bind (ih _ _) fun _ => .pure _

end

/-! ## `interface_layer.c` -/

section

variable {P : CString → Prop} {R : FileSystem → FileSystem → Prop} [IsPreorder FileSystem R]
  (h : Operations P R) {path fromPath toPath : CString}

include h

theorem Operations.altfsGetattr_within (hpath : P path) : Within R (altfsGetattr path) := by
  refine .bind (h.nameI hpath) fun _ => .ite (.pure _) ?_
  refine .bind (h.reads.getInode? _) fun node => ?_
  cases node with
  | none => exact .pure _
  | some node => exact .pure _

theorem Operations.altfsAccess_within (hpath : P path) : Within R (altfsAccess path) :=
  .bind (h.nameI hpath) fun _ => .ite (.pure _) (.pure _)

theorem Operations.altfsRead_within (hpath : P path) (nbytes : Nat) (offset : Int64) :
    Within R (altfsRead path nbytes offset) := by
  refine .ite (.pure _) (.ite (.pure _) (.bind (h.nameI hpath) fun _ => .ite (.pure _) ?_))
  refine .bind (h.reads.getInode_reads _) fun _ => .ite (.pure _) (.ite (.pure _) ?_)
  refine .bind (h.reads.readRange_reads _ _ _) fun _ => .ite (.pure _) ?_
  exact .bind h.currentTime fun _ => .bind (h.writeInode _ _) fun _ => .pure _

theorem Operations.altfsWrite_within (hpath : P path) (buff : List UInt8) (offset : Int64) :
    Within R (altfsWrite path buff offset) :=
  .ite (.pure _) (.ite (.pure _) (.bind (h.nameI hpath) fun _ =>
    .ite (.pure _) (h.writeInum_within _ _ _)))

theorem Operations.altfsTruncate_within (hpath : P path) (length : Int64) :
    Within R (altfsTruncate path length) := by
  refine .bind (h.nameI hpath) fun _ => .ite (.pure _) ?_
  refine .bind (h.reads.getInode_reads _) fun _ => .ite (.pure _) (.ite (.pure _) (.ite (.pure _) ?_))
  refine .ite ?_ (h.shrinkTo_within _ _ _)
  exact .bind (h.altfsWrite_within hpath _ _) fun _ => .ite (.pure _) (.pure _)

theorem Operations.createEntry_within (hpath : P path) : Within R (createEntry path) := by
  unfold createEntry
  split
  · exact .pure _
  next parentPath hparent =>
  refine .bind (h.nameI (h.parent hparent hpath)) fun _ => .ite (.pure _) ?_
  refine .bind (h.reads.getInode_reads _) fun _ => .ite (.pure _) (.ite (.pure _) ?_)
  split
  · exact .pure _
  refine .bind h.allocateInode fun _ => .ite (.pure _) ?_
  exact .bind (h.addDirectoryEntry_within _ _ _) fun _ => .pure _

theorem Operations.createNewFile_within (hpath : P path) (mode : UInt32) :
    Within R (createNewFile path mode) := by
  refine .bind (h.createEntry_within hpath) fun created => ?_
  cases created with
  | error code => exact .pure _
  | ok created =>
      refine .ite (.bind (h.freeInode _) fun _ => .pure _) ?_
      refine .bind h.currentTime fun _ => .bind (h.writeInode _ _) fun _ => .ite (.pure _) ?_
      refine .bind (h.reads.getInode_reads _) fun _ => .bind (h.writeInode _ _) fun _ => ?_
      exact .ite (.pure _) (.pure _)

theorem Operations.altfsMkdir_within (hpath : P path) (mode : UInt32) :
    Within R (altfsMkdir path mode) := by
  refine .bind (h.nameI hpath) fun _ => .ite (.pure _) ?_
  refine .bind (h.createNewFile_within hpath _) fun created => ?_
  cases created with
  | error code => exact .pure _
  | ok created =>
      refine .bind (.bind (h.addDirectoryEntry_within _ _ _) fun _ => ?_) fun _ => ?_
      · exact .ite (.pure _) (h.addDirectoryEntry_within _ _ _)
      · exact .ite (.pure _) (h.writeInode _ _)

theorem Operations.altfsMknod_within (hpath : P path) (mode : UInt32) :
    Within R (altfsMknod path mode) := by
  refine .bind (h.nameI hpath) fun _ => .ite (.pure _) ?_
  refine .bind (h.createNewFile_within hpath _) fun created => ?_
  cases created with
  | error code => exact .pure _
  | ok created => exact .pure _

theorem Operations.altfsReaddir_within (hpath : P path) : Within R (altfsReaddir path) := by
  unfold altfsReaddir
  refine .bind (h.nameI hpath) fun _ => .ite (.pure _) (.bind (h.reads.getInode_reads _) fun _ => ?_)
  exact .ite (.pure _) (.bind (h.readdirBlocks_within _ _ _ _) fun _ => .pure _)

theorem Operations.altfsUnlink_within (hpath : P path) : Within R (altfsUnlink path) := by
  have hforget : Within R (forgetPath path) :=
    .bind (h.removeFromInodeCache hpath) fun _ => .ite (.pure _) h.flushInodeCache
  unfold altfsUnlink
  refine .bind (h.nameI hpath) fun _ => .ite (.pure _) (.ite (.pure _) ?_)
  split
  · exact .pure _
  split
  · exact .pure _
  next parentPath hparent =>
  refine .bind (h.reads.getInode_reads _) fun _ => .ite (.pure _) ?_
  refine .bind (h.nameI (h.parent hparent hpath)) fun _ => .ite (.pure _) ?_
  refine .bind (h.reads.getInode_reads _) fun _ => ?_
  refine .bind (h.removeDirectoryEntry_within _ _) fun _ => .ite (.pure _) ?_
  refine .bind (h.dropLink_within _ _) fun _ => .bind (h.writeInode _ _) fun _ => ?_
  exact .bind hforget fun _ => .pure _

theorem Operations.openInum_within (hpath : P path) (oflag inum : Int64) (created : Bool) :
    Within R (openInum path oflag inum created) := by
  refine .bind (h.reads.getInode_reads _) fun _ => .ite (.pure _) (.ite ?_ (.pure _))
  refine .bind (h.altfsTruncate_within hpath _) fun _ => .ite (.pure _) (.ite ?_ (.pure _))
  exact .bind h.currentTime fun _ => .bind (h.writeInode _ _) fun _ => .pure _

theorem Operations.altfsOpen_within (hpath : P path) (oflag : Int64) :
    Within R (altfsOpen path oflag) := by
  refine .bind (h.nameI hpath) fun _ => .ite (.ite ?_ (.pure _)) (h.openInum_within hpath _ _ _)
  refine .bind (h.createNewFile_within hpath _) fun created => ?_
  cases created with
  | error code => exact .pure _
  | ok created => exact h.openInum_within hpath _ _ _

theorem Operations.altfsChmod_within (hpath : P path) (mode : UInt32) :
    Within R (altfsChmod path mode) := by
  refine .bind (h.nameI hpath) fun _ => .ite (.pure _) ?_
  refine .bind (h.reads.getInode? _) fun node => ?_
  cases node with
  | none => exact .pure _
  | some node => exact .bind (h.writeInode _ _) fun _ => .ite (.pure _) (.pure _)

theorem Operations.removeSource_within (hfrom : P fromPath) (currTime : Int64) :
    Within R (removeSource fromPath currTime) := by
  unfold removeSource
  split
  · exact .pure _
  next parentPath hparent =>
  refine .bind (h.nameI (h.parent hparent hfrom)) fun _ => .ite (.pure _) ?_
  refine .bind (h.reads.getInode_reads _) fun _ => ?_
  split
  · exact .pure _
  refine .bind (h.removeDirectoryEntry_within _ _) fun _ => .ite (.pure _) ?_
  refine .bind (h.writeInode _ _) fun _ => .ite (.pure _) ?_
  exact .bind h.flushInodeCache fun _ => .pure _

theorem Operations.moveEntry_within (hfrom : P fromPath) (hto : P toPath) :
    Within R (moveEntry fromPath toPath) := by
  unfold moveEntry
  split
  · exact .pure _
  next parentPath hparent =>
  refine .bind (h.nameI (h.parent hparent hto)) fun _ => .ite (.pure _) ?_
  refine .bind (h.reads.getInode_reads _) fun _ => .ite (.pure _) ?_
  split
  · exact .pure _
  refine .bind (h.nameI hfrom) fun _ => .bind (h.addDirectoryEntry_within _ _ _) fun _ => ?_
  refine .ite (.pure _) (.bind h.currentTime fun _ => .bind (h.writeInode _ _) fun _ => ?_)
  exact .ite (.pure _) (h.removeSource_within hfrom _)

theorem Operations.altfsRename_within (hfrom : P fromPath) (hto : P toPath) :
    Within R (altfsRename fromPath toPath) := by
  have htarget : Within R (unlinkTarget toPath) :=
    .bind (h.altfsAccess_within hto) fun _ => .ite (h.altfsUnlink_within hto) (.pure _)
  refine .bind (h.altfsAccess_within hfrom) fun _ => .ite (.pure _) (.bind htarget fun _ => ?_)
  exact .ite (.pure _) (h.moveEntry_within hfrom hto)

end

/-! ## All of them -/

section

variable {R : FileSystem → FileSystem → Prop} [IsPreorder FileSystem R] (h : Primitives R)

include h

omit [IsPreorder FileSystem R] in
theorem Primitives.writes : Writes R where
  altfsReadBlock := h.altfsReadBlock
  allocateDataBlock := h.allocateDataBlock
  freeDataBlock := h.freeDataBlock
  writeDataBlock := h.writeDataBlock
  allocateInode := h.allocateInode
  writeInode := h.writeInode
  freeInode := h.freeInode
  currentTime := h.currentTime

theorem Primitives.operations : Operations (fun _ => True) R where
  toWrites := h.writes
  parent _ _ := trivial
  nameI _ := h.nameI_within _
  removeFromInodeCache _ := h.removeFromInodeCache_within _
  flushInodeCache := h.flushInodeCache_within true

theorem Primitives.teardown_within : Within R teardown :=
  .bind h.altfsWriteSuperblock fun _ => .pure _

theorem Primitives.setupFilesystem_within : Within R setupFilesystem := by
  refine .bind h.loadSuperblock fun _ => .ite (.pure _) (.bind (.modify fun s => h.cache s _) ?_)
  refine fun _ => .bind (h.reads.getInode? _) fun rootDir => ?_
  cases rootDir with
  | none => exact .bind h.teardown_within fun _ => .pure _
  | some rootDir =>
      have hfail : Within R (do teardown; pure false : Fs Bool) :=
        .bind h.teardown_within fun _ => .pure _
      refine .ite (.pure _) (.bind h.currentTime fun _ => ?_)
      refine .bind (h.writes.addDirectoryEntry_within _ _ _) fun _ => .ite hfail ?_
      refine .bind (h.writes.addDirectoryEntry_within _ _ _) fun _ => .ite hfail ?_
      exact .bind (h.writeInode _ _) fun _ => .ite hfail (.pure _)

theorem Primitives.altfsDestroy_within : Within R altfsDestroy :=
  .bind (h.flushInodeCache_within _) fun _ => h.teardown_within

end

/-! ## Calls -/

/-- The operations of the interface, with their arguments. -/
inductive InterfaceCall where
  | init
  | destroy
  | getattr (path : CString)
  | access (path : CString)
  | mkdir (path : CString) (mode : UInt32)
  | mknod (path : CString) (mode : UInt32)
  | readdir (path : CString)
  | unlink (path : CString)
  | openFile (path : CString) (oflag : Int64)
  | close
  | read (path : CString) (nbytes : Nat) (offset : Int64)
  | write (path : CString) (buff : List UInt8) (offset : Int64)
  | truncate (path : CString) (length : Int64)
  | chmod (path : CString) (mode : UInt32)
  | rename (fromPath toPath : CString)

/-- A call whose result is not looked at. -/
def ignoreResult {α : Type} (x : Fs α) : Fs Unit := do
  let _ ← x
  pure ()

def InterfaceCall.exec : InterfaceCall → Fs Unit
  | init => ignoreResult altfsInit
  | destroy => ignoreResult altfsDestroy
  | getattr path => ignoreResult (altfsGetattr path)
  | access path => ignoreResult (altfsAccess path)
  | mkdir path mode => ignoreResult (altfsMkdir path mode)
  | mknod path mode => ignoreResult (altfsMknod path mode)
  | readdir path => ignoreResult (altfsReaddir path)
  | unlink path => ignoreResult (altfsUnlink path)
  | openFile path oflag => ignoreResult (altfsOpen path oflag)
  | close => ignoreResult altfsClose
  | read path nbytes offset => ignoreResult (altfsRead path nbytes offset)
  | write path buff offset => ignoreResult (altfsWrite path buff offset)
  | truncate path length => ignoreResult (altfsTruncate path length)
  | chmod path mode => ignoreResult (altfsChmod path mode)
  | rename fromPath toPath => ignoreResult (altfsRename fromPath toPath)

section

variable {R : FileSystem → FileSystem → Prop} [IsPreorder FileSystem R] (h : Primitives R)

include h

/-- Every operation of the interface stays within a relation that the primitives keep. -/
theorem Primitives.interface_within (call : InterfaceCall) : Within R call.exec := by
  have hignore : ∀ {α : Type} {x : Fs α}, Within R x → Within R (ignoreResult x) :=
    fun hx => .bind hx fun _ => .pure ()
  cases call with
  | init => exact hignore h.setupFilesystem_within
  | destroy => exact hignore h.altfsDestroy_within
  | getattr path => exact hignore (h.altfsGetattr_within path)
  | access path => exact hignore (h.altfsAccess_within path)
  | mkdir path mode => exact hignore (h.operations.altfsMkdir_within trivial mode)
  | mknod path mode => exact hignore (h.operations.altfsMknod_within trivial mode)
  | readdir path => exact hignore (h.operations.altfsReaddir_within trivial)
  | unlink path => exact hignore (h.operations.altfsUnlink_within trivial)
  | openFile path oflag => exact hignore (h.operations.altfsOpen_within trivial oflag)
  | close => exact hignore (.pure 0)
  | read path nbytes offset => exact hignore (h.operations.altfsRead_within trivial nbytes offset)
  | write path buff offset => exact hignore (h.operations.altfsWrite_within trivial buff offset)
  | truncate path length => exact hignore (h.operations.altfsTruncate_within trivial length)
  | chmod path mode => exact hignore (h.operations.altfsChmod_within trivial mode)
  | rename fromPath toPath => exact hignore (h.operations.altfsRename_within trivial trivial)

end

end AltFs
