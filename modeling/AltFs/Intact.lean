import AltFs.FileContents
import AltFs.FileRelease
import AltFs.Namespace

/-!
# File systems whose free list does not matter

`Intact s`: the blocks of the inodes are data blocks, no two are the same, and
the directories hold records.  A change of one inode and of its blocks keeps
this whatever becomes of the free list.
-/

namespace AltFs

open Prog

variable [Config]

structure Intact (s : FileSystem) : Prop where
  format : TableFormat s
  nodup : (tableBlocks s).Nodup
  data : ∀ b ∈ tableBlocks s, DataBlock b
  dirs : ∀ n < inodeCount, (s.inodeAt n).isDir = true →
    ∃ contents, DirContents s (s.inodeAt n) contents

/-- The inodes outside `S` and their blocks are as before. -/
structure KeptOutside (S : Finset Nat) (s t : FileSystem) : Prop where
  inodeAt : ∀ n < inodeCount, n ∉ S → t.inodeAt n = s.inodeAt n
  disk : ∀ n < inodeCount, n ∉ S → ∀ b ∈ (s.inodeAt n).blocks s, t.disk b = s.disk b

section

variable {s t u : FileSystem} {free : Multiset Int64} {S T : Finset Nat} {n : Nat} {inum : Int64}
  {node : Inode} {contents : List (List Entry)} {name : CString}

theorem WellFormed.intact (h : WellFormed s free) : Intact s :=
  ⟨h.stored.toTableFormat, h.owned.held_nodup, h.owned.data, h.dirs⟩

namespace Intact

theorem nodup_split (h : Intact s) (hn : n < inodeCount) :
    ((s.inodeAt n).blocks s + otherBlocks s n).Nodup := by
  rw [← tableBlocks_split s hn]
  exact h.nodup

theorem inode_nodup (h : Intact s) (hn : n < inodeCount) : ((s.inodeAt n).blocks s).Nodup :=
  Multiset.nodup_of_le (blocks_le_tableBlocks hn) h.nodup

theorem inode_data (h : Intact s) (hn : n < inodeCount) :
    ∀ b ∈ (s.inodeAt n).blocks s, DataBlock b :=
  fun b hb => h.data b (Multiset.mem_of_le (blocks_le_tableBlocks hn) hb)

theorem other_data (h : Intact s) (hn : n < inodeCount) : ∀ b ∈ otherBlocks s n, DataBlock b := by
  intro b hb
  apply h.data b
  rw [tableBlocks_split s hn]
  exact Multiset.mem_add.mpr (.inr hb)

theorem lookupIn_dir (h : Intact s) (hinum : ValidInum inum)
    (hdir : DirContents s (s.inodeAt (inumIndex inum)) contents) (name : CString) :
    lookupIn s inum name = some (contents.flatten.lookup name) :=
  AltFs.lookupIn_dir h.format hinum (h.inode_data hinum.index_lt) hdir

/-- A search in any inode ends. -/
theorem lookupIn_isSome (h : Intact s) (hinum : ValidInum inum) (name : CString) :
    (lookupIn s inum name).isSome := by
  cases hdir : (s.inodeAt (inumIndex inum)).isDir with
  | true =>
      obtain ⟨contents, hcontents⟩ := h.dirs _ hinum.index_lt hdir
      rw [h.lookupIn_dir hinum hcontents]
      rfl
  | false =>
      rw [lookupIn_notDir h.format hinum hdir]
      rfl

end Intact

namespace KeptOutside

theorem mono (h : KeptOutside S s t) (hST : S ⊆ T) : KeptOutside T s t where
  inodeAt n hn hnot := h.inodeAt n hn fun hmem => hnot (hST hmem)
  disk n hn hnot := h.disk n hn fun hmem => hnot (hST hmem)

theorem kept (h : KeptOutside S s t) (hn : n < inodeCount) (hnot : n ∉ S) :
    (s.inodeAt n).Kept s t := fun a ha =>
  h.disk n hn hnot a (Multiset.mem_of_le (indirect_le_blocks s _) ha)

theorem trans (h : KeptOutside S s t) (h' : KeptOutside S t u) : KeptOutside S s u where
  inodeAt n hn hnot := (h'.inodeAt n hn hnot).trans (h.inodeAt n hn hnot)
  disk n hn hnot b hb := by
    rw [h'.disk n hn hnot b, h.disk n hn hnot b hb]
    rwa [h.inodeAt n hn hnot, (h.kept hn hnot).blocks]

theorem fileByte (h : KeptOutside S s t) (hn : n < inodeCount) (hnot : n ∉ S) (j : Nat)
    (hne : (s.inodeAt n).blockAt s (j / blockSize) ≠ 0) :
    AltFs.fileByte t (t.inodeAt n) j = AltFs.fileByte s (s.inodeAt n) j := by
  rw [h.inodeAt n hn hnot]
  apply fileByte_eq ((h.kept hn hnot).blockAt _)
  exact h.disk n hn hnot _ (blockAt_mem_blocks hne)

/-- What is found in an inode outside `S` is found there as before. -/
theorem lookupIn_eq (h : KeptOutside S s t) (hs : Intact s) (ht : Intact t)
    (hnot : ValidInum inum → inumIndex inum ∉ S) (name : CString) :
    lookupIn t inum name = lookupIn s inum name := by
  by_cases hvalid : ValidInum inum
  swap
  · rw [lookupIn_invalid hs.format hvalid, lookupIn_invalid ht.format hvalid]
  have hn := hvalid.index_lt
  have hat := h.inodeAt _ hn (hnot hvalid)
  cases hdir : (s.inodeAt (inumIndex inum)).isDir with
  | true =>
      obtain ⟨contents, hcontents⟩ := hs.dirs _ hn hdir
      have hcontents' := hcontents.of_disk_eq (h.disk _ hn (hnot hvalid))
      rw [← hat] at hcontents'
      rw [ht.lookupIn_dir hvalid hcontents', hs.lookupIn_dir hvalid hcontents]
  | false =>
      rw [lookupIn_notDir hs.format hvalid hdir]
      rw [← hat] at hdir
      exact lookupIn_notDir ht.format hvalid hdir

end KeptOutside

theorem OthersKept.outside (h : OthersKept n s t) : KeptOutside {n} s t where
  inodeAt m hm hne := h.inodeAt m hm (Finset.notMem_singleton.mp hne)
  disk _ hm hne b hb :=
    h.disk b (Multiset.mem_of_le (blocks_le_otherBlocks hm (Finset.notMem_singleton.mp hne)) hb)

/-- One inode and its blocks are exchanged. -/
theorem Intact.step (h : Intact s) (hn : n < inodeCount) (hothers : OthersKept n s t)
    (hformat : TableFormat t) (hnodup : ((t.inodeAt n).blocks t + otherBlocks s n).Nodup)
    (hdata : ∀ b ∈ (t.inodeAt n).blocks t, DataBlock b)
    (hdir : (t.inodeAt n).isDir = true → ∃ contents, DirContents t (t.inodeAt n) contents) :
    Intact t where
  format := hformat
  nodup := by
    rw [tableBlocks_split t hn, hothers.otherBlocks_eq]
    exact hnodup
  data b hb := by
    rw [tableBlocks_split t hn, hothers.otherBlocks_eq] at hb
    rcases Multiset.mem_add.mp hb with hb | hb
    · exact hdata b hb
    · exact h.other_data hn b hb
  dirs m hm hisDir := by
    by_cases hne : m = n
    · rw [hne] at hisDir ⊢
      exact hdir hisDir
    · rw [hothers.inodeAt m hm hne] at hisDir ⊢
      obtain ⟨contents, hcontents⟩ := h.dirs m hm hisDir
      refine ⟨contents, hcontents.of_disk_eq fun b hb => hothers.disk b ?_⟩
      exact Multiset.mem_of_le (blocks_le_otherBlocks hm hne) hb

/-! ## The steps -/

/-- A block of the directory is written. -/
theorem Intact.writeBlock (h : Intact s) (hn : n < inodeCount) {b : Int64} {block : Block}
    {clock : Nat} (hmem : b ∈ (s.inodeAt n).blocks s) (hindirect : b ∉ (s.inodeAt n).indirect s)
    (ht : t = { s.writeDisk b block with clock := clock })
    (hdir : DirContents t (s.inodeAt n) contents) :
    Intact t ∧ OthersKept n s t ∧ t.inodeAt n = s.inodeAt n ∧
      (s.inodeAt n).blocks t = (s.inodeAt n).blocks s := by
  have hdata := h.inode_data hn b hmem
  have hdisk : ∀ a, a ≠ b → t.disk a = s.disk a := by
    intro a hne
    rw [ht]
    exact disk_writeDisk_ne hne
  have hat : ∀ m < inodeCount, t.inodeAt m = s.inodeAt m := fun m hm =>
    inodeAt_of_disk_eq (hdisk _ (by
      rintro rfl
      exact not_dataBlock_inodeBlockOf hm hdata))
  have hothers : OthersKept n s t := by
    refine ⟨fun m hm _ => hat m hm, fun a ha => hdisk a ?_⟩
    rintro rfl
    exact Multiset.disjoint_left.mp (Multiset.nodup_add.mp (h.nodup_split hn)).2.2 hmem ha
  have hkept : (s.inodeAt n).Kept s t := fun a ha => hdisk a (ne_of_mem_of_not_mem ha hindirect)
  have hblocks : (t.inodeAt n).blocks t = (s.inodeAt n).blocks s := by
    rw [hat n hn, hkept.blocks]
  refine ⟨h.step hn hothers ?_ ?_ ?_ fun _ => ?_, hothers, hat n hn, hkept.blocks⟩
  · rw [ht]
    exact ⟨h.format.sInodesCount, h.format.sNumOfInodesPerBlock⟩
  · rw [hblocks]
    exact h.nodup_split hn
  · rw [hblocks]
    exact h.inode_data hn
  · rw [hat n hn]
    exact ⟨contents, hdir⟩

theorem WellFormed.congr (h : WellFormed s free) (hdisk : t.disk = s.disk)
    (hsb : t.superblock = s.superblock) : WellFormed t free := by
  have hsound := h.toSound.congr hdisk hsb
  have hat : ∀ m, t.inodeAt m = s.inodeAt m := fun m => inodeAt_of_disk_eq (congrFun hdisk _)
  refine ⟨hsound, ?_, fun m hm hdir => ?_, fun m hm => ?_⟩
  · apply h.first.congr hsound.stored.toTableFormat hsound.owned.headBeyond
    · rw [hsb]
    · intro m _
      rw [hat]
  · rw [hat] at hdir ⊢
    obtain ⟨contents, hcontents⟩ := h.dirs m hm hdir
    exact ⟨contents, hcontents.of_disk_eq fun b _ => congrFun hdisk b⟩
  · rw [hat]
    exact h.sizes m hm

/-- A data block of a directory is written in place. -/
theorem WellFormed.writeBlock (h : WellFormed s free) (hn : n < inodeCount) {b : Int64}
    {block : Block} {clock : Nat}
    (hmem : b ∈ (s.inodeAt n).blocks s) (hindirect : b ∉ (s.inodeAt n).indirect s)
    (ht : t = { s.writeDisk b block with clock := clock })
    (hdir : DirContents t (s.inodeAt n) contents) : WellFormed t free := by
  obtain ⟨-, hothers, hat, hblocks⟩ := h.intact.writeBlock hn hmem hindirect ht hdir
  have htable : tableBlocks t = tableBlocks s := by
    rw [tableBlocks_split t hn, hothers.otherBlocks_eq, hat, hblocks, ← tableBlocks_split s hn]
  have hheld : b ∈ tableBlocks s := Multiset.mem_of_le (blocks_le_tableBlocks hn) hmem
  have hinodes : ∀ m < inodeCount, t.inodeAt m = s.inodeAt m := by
    intro m hm
    by_cases hself : m = n
    · rw [hself, hat]
    · exact hothers.inodeAt m hm hself
  have hkept : ∀ m < inodeCount, (s.inodeAt m).Kept s t := by
    intro m hm
    by_cases hself : m = n
    · intro a ha
      rw [hself] at ha
      rw [ht]
      exact disk_writeDisk_ne (ne_of_mem_of_not_mem ha hindirect)
    · exact hothers.kept hm hself
  have hstored : Stored t := by
    rw [ht]
    have hzero := (h.owned.data b hheld).ne_zero
    have hwritten := h.stored.step (.block block hzero)
    exact ⟨⟨hwritten.sInodesCount, hwritten.sNumOfInodesPerBlock⟩, hwritten.stored⟩
  have howned : Owned t free (tableBlocks t) := by
    rw [htable]
    have hwritten := h.owned.write block hheld
    refine ⟨hwritten.freeList.frame ?_ fun a _ => ?_, hwritten.nodup, hwritten.data⟩
    · rw [ht]
    · rw [ht]
  refine ⟨⟨hstored, howned, fun m hm => ?_⟩, ?_, fun m hm hisDir => ?_, fun m hm => ?_⟩
  · rw [hinodes m hm]
    exact (h.inodes m hm).kept (hkept m hm)
  · apply h.first.congr hstored.toTableFormat howned.headBeyond
    · rw [ht]
      rfl
    · intro m hm
      rw [hinodes m hm]
  · by_cases hself : m = n
    · rw [hself, hat]
      exact ⟨contents, hdir⟩
    · rw [hinodes m hm] at hisDir ⊢
      obtain ⟨contents', hcontents⟩ := h.dirs m hm hisDir
      refine ⟨contents', hcontents.of_disk_eq fun a ha => hothers.disk a ?_⟩
      exact Multiset.mem_of_le (blocks_le_otherBlocks hm hself) ha
  · rw [hinodes m hm]
    exact h.sizes m hm

theorem othersKept_setInode_of_data (hdata : ∀ b ∈ otherBlocks s n, DataBlock b)
    (hn : n < inodeCount) : OthersKept n s (s.setInode n node) where
  inodeAt _ hm hne := inodeAt_setInode_ne hn hm hne
  disk b hb := disk_setInode_of_dataBlock hn (hdata b hb)

omit [Config] in
theorem isDir_congr {node node' : Inode} (hmode : node'.iMode = node.iMode) :
    node'.isDir = node.isDir := by
  rw [Inode.isDir, Inode.isDir, hmode]

/-- The type and the permissions, the mark and the links are the same. -/
structure SameKind (node node' : Inode) : Prop where
  mode : node'.iMode = node.iMode
  mark : node'.iAllocated = node.iAllocated
  links : node'.iLinksCount = node.iLinksCount

/-- A copy of an inode that has its blocks is written back. -/
theorem OthersKept.commit (h : Intact s) (hn : n < inodeCount) (hothers : OthersKept n s t)
    (hformat : TableFormat t) (hnodup : (node.blocks t + otherBlocks s n).Nodup)
    (hdata : ∀ b ∈ node.blocks t, DataBlock b)
    (hdir : node.isDir = true → ∃ contents, DirContents t node contents) :
    Intact (t.setInode n node) ∧ OthersKept n s (t.setInode n node) ∧
      ∀ contents, DirContents t node contents → DirContents (t.setInode n node) node contents := by
  have hothers' : OthersKept n s (t.setInode n node) := by
    refine hothers.trans (othersKept_setInode_of_data ?_ hn)
    rw [hothers.otherBlocks_eq]
    exact h.other_data hn
  have hdisk : ∀ b ∈ node.blocks t, (t.setInode n node).disk b = t.disk b := fun b hb =>
    disk_setInode_of_dataBlock hn (hdata b hb)
  have hkept : node.Kept t (t.setInode n node) := fun a ha =>
    hdisk a (Multiset.mem_of_le (indirect_le_blocks t node) ha)
  have hdirs : ∀ contents, DirContents t node contents →
      DirContents (t.setInode n node) node contents := fun contents hcontents =>
    hcontents.of_disk_eq hdisk
  refine ⟨h.step hn hothers' ⟨hformat.sInodesCount, hformat.sNumOfInodesPerBlock⟩ ?_ ?_ ?_,
    hothers', hdirs⟩
  · rw [inodeAt_setInode_self, hkept.blocks]
    exact hnodup
  · rw [inodeAt_setInode_self, hkept.blocks]
    exact hdata
  · rw [inodeAt_setInode_self]
    intro hisDir
    obtain ⟨contents, hcontents⟩ := hdir hisDir
    exact ⟨contents, hdirs contents hcontents⟩

/-- The cache and the clock do not matter. -/
theorem Intact.congr (h : Intact s) (hdisk : t.disk = s.disk)
    (hsb : t.superblock = s.superblock) : Intact t := by
  have hat : ∀ n, t.inodeAt n = s.inodeAt n := fun n => inodeAt_of_disk_eq (congrFun hdisk _)
  have hkept : ∀ n, (s.inodeAt n).Kept s t := fun _ a _ => congrFun hdisk a
  have htable : tableBlocks t = tableBlocks s := by
    unfold tableBlocks
    refine Finset.sum_congr rfl fun n _ => ?_
    rw [hat, (hkept n).blocks]
  refine ⟨⟨?_, ?_⟩, ?_, ?_, fun n hn hdir => ?_⟩
  · rw [hsb, h.format.sInodesCount]
  · rw [hsb, h.format.sNumOfInodesPerBlock]
  · rw [htable]
    exact h.nodup
  · rw [htable]
    exact h.data
  · rw [hat] at hdir ⊢
    obtain ⟨contents, hcontents⟩ := h.dirs n hn hdir
    exact ⟨contents, hcontents.of_disk_eq fun b _ => congrFun hdisk b⟩

theorem SameButCache.intact (hsame : SameButCache s t) (h : Intact s) : Intact t := by
  obtain ⟨cache, rfl⟩ := hsame
  apply h.congr
  · rfl
  · rfl

/-- A copy of an inode has been written that has its blocks and its kind. -/
structure CopyWritten (n : Nat) (node : Inode) (s t : FileSystem) : Prop where
  intact : Intact t
  others : OthersKept n s t
  inodeAt : t.inodeAt n = node
  cache : t.cache = s.cache
  head : t.superblock.sFreelistHead = s.superblock.sFreelistHead
  dir : ∀ contents, DirContents s (s.inodeAt n) contents → DirContents t (t.inodeAt n) contents
  lookup : ∀ inum name, lookupIn t inum name = lookupIn s inum name

theorem Intact.writeCopy (h : Intact s) (hinum : ValidInum inum)
    (hmap : node = node.withMap (s.inodeAt (inumIndex inum)))
    (hmode : node.iMode = (s.inodeAt (inumIndex inum)).iMode) :
    ∃ t, writeInode inum node s = some (true, t) ∧ CopyWritten (inumIndex inum) node s t := by
  have hn := hinum.index_lt
  have hblocks := Inode.blocks_eq_of_withMap (s := s) _ hmap
  have hisDir : node.isDir = (s.inodeAt (inumIndex inum)).isDir := by
    rw [Inode.isDir, Inode.isDir, hmode]
  obtain ⟨hintact, hothers, hdirs⟩ := (OthersKept.refl _ s).commit h hn h.format
    (hblocks ▸ h.nodup_split hn) (hblocks ▸ h.inode_data hn) fun hdir => by
      obtain ⟨contents, hcontents⟩ := h.dirs _ hn (hisDir ▸ hdir)
      exact ⟨contents, hcontents.of_withMap hmap hmode⟩
  have hat : (s.setInode (inumIndex inum) node).inodeAt (inumIndex inum) = node :=
    inodeAt_setInode_self
  have hdir : ∀ contents, DirContents s (s.inodeAt (inumIndex inum)) contents →
      DirContents (s.setInode (inumIndex inum) node)
        ((s.setInode (inumIndex inum) node).inodeAt (inumIndex inum)) contents := by
    intro contents hcontents
    rw [hat]
    exact hdirs contents (hcontents.of_withMap hmap hmode)
  refine ⟨_, writeInode_run h.format hinum, hintact, hothers, hat, rfl, rfl, hdir, fun other name => ?_⟩
  by_cases hother : ValidInum other ∧ inumIndex other = inumIndex inum
  swap
  · apply hothers.outside.lookupIn_eq h hintact
    intro hvalid hmem
    exact hother ⟨hvalid, Finset.mem_singleton.mp hmem⟩
  obtain ⟨hvalid, hindex⟩ := hother
  obtain rfl := hvalid.eq_of_index hinum hindex
  cases hkind : (s.inodeAt (inumIndex other)).isDir with
  | true =>
      obtain ⟨contents, hcontents⟩ := h.dirs _ hn hkind
      rw [h.lookupIn_dir hinum hcontents, hintact.lookupIn_dir hinum (hdir contents hcontents)]
  | false =>
      rw [lookupIn_notDir h.format hinum hkind]
      apply lookupIn_notDir hintact.format hinum
      rw [hat, hisDir, hkind]

omit [Config] in
theorem SameButCache.disk_eq (hsame : SameButCache s t) : t.disk = s.disk := by
  obtain ⟨cache, rfl⟩ := hsame
  rfl

theorem SameButCache.outside (hsame : SameButCache s t) (S : Finset Nat) : KeptOutside S s t where
  inodeAt n _ _ := hsame.inodeAt n
  disk _ _ _ b _ := congrFun hsame.disk_eq b

end

/-! ## Freeing an inode -/

/-- The relation of a program that leaves the cache alone. -/
def CacheKept (s t : FileSystem) : Prop := t.cache = s.cache

instance : IsPreorder FileSystem CacheKept where
  refl _ := rfl
  trans _ _ _ h h' := h'.trans h

theorem freeDataBlock_cacheKept (b : Int64) : Within CacheKept (freeDataBlock b) := by
  have hread : ∀ b, Within CacheKept (altfsReadBlock b) := fun b s buffer t hrun => by
    rw [altfsReadBlock_cases hrun]
    exact refl_of CacheKept s
  have hwrite : ∀ b block, Within CacheKept (altfsWriteBlock b block) := fun b block s ok t hrun => by
    rcases altfsWriteBlock_cases hrun with rfl | rfl
    · exact refl_of CacheKept t
    · rfl
  have hhead : Within CacheKept (Prog.modify fun s => s.setFreelistHead b) := .modify fun _ => rfl
  have hsuperblock : Within CacheKept altfsWriteSuperblock :=
    .bind .get fun _ => hwrite _ _
  rw [freeDataBlock]
  refine .ite (.pure false) (.bind ?_ fun _ => .ite (.pure false) (.bind .get fun _ => ?_))
  · refine .bind .get fun _ => .ite (.pure true) ?_
    exact .bind hhead fun _ => hsuperblock
  · refine .bind (hread _) fun buffer => ?_
    cases buffer with
    | none => exact .pure false
    | some buffer =>
        cases hslot : firstSlot (· = 0) buffer with
        | some i => simpa only [hslot] using hwrite _ _
        | none =>
            simp only [hslot]
            exact .bind hhead fun _ => .bind hsuperblock fun _ => .ite (.pure false) (hwrite _ _)

section

variable {s : FileSystem} {n : Nat} {inum : Int64}

/--
`free_inode` clears the inode and touches no block of another inode, also when
the free list is empty.
-/
theorem freeInode_others (h : Intact s) (hinum : ValidInum inum)
    (hmapped : (s.inodeAt (inumIndex inum)).WellMapped s n)
    (hhead : s.superblock.sFreelistHead = 0 ∨ DataBlock s.superblock.sFreelistHead)
    (hnot : s.superblock.sFreelistHead ∉ tableBlocks s) :
    ∃ t, freeInode inum s = some (true, t) ∧ Intact t ∧ OthersKept (inumIndex inum) s t ∧
      t.inodeAt (inumIndex inum) = Inode.zero ∧ t.cache = s.cache := by
  have hn := hinum.index_lt
  have hsplit := tableBlocks_split s hn
  have huntouched : Untouched s (tableBlocks s) s :=
    ⟨hhead, hnot, fun a ha => ⟨(h.data a ha).ne_zero, rfl⟩⟩
  have hle : (s.inodeAt (inumIndex inum)).indirect s ≤ tableBlocks s :=
    (indirect_le_blocks s _).trans (blocks_le_tableBlocks hn)
  have hothersLe : otherBlocks s (inumIndex inum) ≤ tableBlocks s := by
    rw [hsplit]
    exact Multiset.le_add_left _ _
  have hfrees := freeDataBlocksInInode_frees hmapped s (huntouched.mono hle)
  obtain ⟨u, hall, hu⟩ := (huntouched.mono hothersLe).freeAll fun b hb => by
    rw [← Multiset.mem_coe, hmapped.coe_releaseOrder] at hb
    exact ⟨hmapped.data b hb,
      Multiset.disjoint_left.mp (Multiset.nodup_add.mp (h.nodup_split hn)).2.2 hb⟩
  rw [hall] at hfrees
  have hbeyond : HeadBeyond s := hhead.imp_right fun hdata => by
    have := hdata.1
    omega
  have hkept := (freeDataBlocksInInode_beyond _ _ _ _ hfrees hbeyond).2
  have hcache : u.cache = s.cache := freeDataBlocksInInode_within
    (fun b s buffer t hrun => by
      rw [altfsReadBlock_cases hrun]
      exact refl_of CacheKept s) freeDataBlock_cacheKept _ _ _ _ hfrees
  have hothers : OthersKept (inumIndex inum) s (u.withInodeFreed (inumIndex inum)) := by
    refine ⟨fun m hm hne => ?_, fun b hb => ?_⟩
    · rw [inodeAt_withInodeFreed_ne hn hm hne, hkept.inodeAt hm]
    · rw [(SameData.withInodeFreed hn).disk b (h.other_data hn b hb), (hu.disk b hb).2]
  have hzero : (u.withInodeFreed (inumIndex inum)).inodeAt (inumIndex inum) = Inode.zero :=
    inodeAt_withInodeFreed_self hn
  have hformat := hkept.format h.format
  refine ⟨_, freeInode_run h.format hinum hkept hfrees, ?_, hothers, hzero, hcache⟩
  refine h.step hn hothers ⟨hformat.sInodesCount, hformat.sNumOfInodesPerBlock⟩ ?_ ?_ ?_
  · rw [hzero, Inode.emptyMap_zero.blocks_eq_zero, zero_add]
    exact (Multiset.nodup_add.mp (h.nodup_split hn)).2.1
  · rw [hzero, Inode.emptyMap_zero.blocks_eq_zero]
    exact fun b hb => absurd hb (Multiset.notMem_zero b)
  · rw [hzero]
    intro hdir
    cases hdir

end

end AltFs
