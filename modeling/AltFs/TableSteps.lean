import AltFs.Intact

/-!
# One inode of a well-formed file system

What happens to a well-formed file system when a changed copy of an inode is
written back and when an inode is freed with all its blocks.
-/

namespace AltFs

open Prog

variable [Config]

section

variable {s t u : FileSystem} {free free' : Multiset Int64} {n : Nat} {node : Inode} {inum : Int64}

theorem Sound.head_notMem (h : Sound s free) : s.superblock.sFreelistHead ∉ tableBlocks s := by
  intro hmem
  exact h.owned.not_free hmem (h.owned.freeList.head_mem (h.owned.data _ hmem).ne_zero)

/-- An inode of a well-formed file system is replaced by the copy that has been worked on. -/
theorem WellFormed.commit (h : WellFormed s free) (hn : n < inodeCount) (hedit : Editing u free' n node)
    (hothers : OthersKept n s u) (hfirst : u.superblock.sFirstIno = s.superblock.sFirstIno)
    (hnode : SoundInode u node) (hmark : node.iAllocated = (s.inodeAt n).iAllocated)
    (hdirs : node.isDir = true → ∃ contents, DirContents u node contents) (hsize : SizeFits node) :
    WellFormed (u.setInode n node) free' := by
  have hsound := hedit.commit hn hnode
  have hsame : SameData u (u.setInode n node) := .setInode node hn
  have hothers' := hothers.trans (othersKept_setInode hedit.owned le_rfl hn)
  refine ⟨hsound, ?_, fun m hm hdir => ?_, fun m hm => ?_⟩
  · apply h.first.congr hsound.stored.toTableFormat hsound.owned.headBeyond hfirst
    intro m hm
    by_cases hself : m = n
    · rw [hself, inodeAt_setInode_self, hmark]
    · rw [hothers'.inodeAt m hm hself]
  · by_cases hself : m = n
    · rw [hself, inodeAt_setInode_self] at hdir ⊢
      obtain ⟨contents, hcontents⟩ := hdirs hdir
      refine ⟨contents, hcontents.of_disk_eq fun b hb => hsame.disk b ?_⟩
      exact hedit.owned.data b (Multiset.mem_add.mpr (.inl hb))
    · rw [hothers'.inodeAt m hm hself] at hdir ⊢
      obtain ⟨contents, hcontents⟩ := h.dirs m hm hdir
      refine ⟨contents, hcontents.of_disk_eq fun b hb => hothers'.disk b ?_⟩
      exact Multiset.mem_of_le (blocks_le_otherBlocks hm hself) hb
  · by_cases hself : m = n
    · rw [hself, inodeAt_setInode_self]
      exact hsize
    · rw [hothers'.inodeAt m hm hself]
      exact h.sizes m hm

/-- A copy of an inode with the blocks, the type and the size it had. -/
structure CopyOf (node node' : Inode) : Prop where
  map : node' = node'.withMap node
  isDir : node'.isDir = node.isDir
  size : node'.iFileSize = node.iFileSize
  mark : node'.iAllocated = true

theorem WellFormed.writeCopy (h : WellFormed s free) (hinum : ValidInum inum)
    (hmark : (s.inodeAt (inumIndex inum)).iAllocated = true)
    (hcopy : CopyOf (s.inodeAt (inumIndex inum)) node) :
    WellFormed (s.setInode (inumIndex inum) node) free ∧
      tableBlocks (s.setInode (inumIndex inum) node) = tableBlocks s := by
  have hn := hinum.index_lt
  have hblocks := Inode.blocks_eq_of_withMap (s := s) _ hcopy.map
  have hsound := h.inodes _ hn
  have hisDir := hcopy.isDir
  have hnum : node.iBlocksNum = (s.inodeAt (inumIndex inum)).iBlocksNum := by
    rw [hcopy.map]
    rfl
  have hedit : Editing s free (inumIndex inum) node := by
    refine ⟨h.stored, ?_, fun m hm _ => h.inodes m hm⟩
    rw [hblocks, ← tableBlocks_split s hn]
    exact h.owned
  constructor
  · apply h.commit hn hedit (.refl _ s) rfl
    · refine ⟨hsound.mapped.of_withMap hcopy.map, ?_, fun hvacant => ?_⟩
      · obtain ⟨count, hcount, hfilled⟩ := hsound.filled
        exact ⟨count, by rw [hnum]; exact hcount, hfilled.of_withMap hcopy.map⟩
      · rw [hcopy.mark] at hvacant
        cases hvacant
    · rw [hcopy.mark, hmark]
    · intro hdir
      obtain ⟨contents, hcontents⟩ := h.dirs _ hn (hisDir ▸ hdir)
      exact ⟨contents, hcontents.of_map hcopy.map hisDir⟩
    · refine ⟨?_, fun hdir => ?_⟩
      · rw [hcopy.size]
        exact (h.sizes _ hn).nonneg
      · rw [hcopy.size, hnum]
        exact (h.sizes _ hn).dir (hisDir ▸ hdir)
  · rw [tableBlocks_setInode hedit.owned le_rfl hn, hblocks, ← tableBlocks_split s hn]

/-- The inode is free and all its blocks are in the free list. -/
structure Released (s : FileSystem) (free : Multiset Int64) (inum : Int64) (t : FileSystem) :
    Prop where
  wellFormed : WellFormed t (free + (s.inodeAt (inumIndex inum)).blocks s)
  others : OthersKept (inumIndex inum) s t
  zero : t.inodeAt (inumIndex inum) = Inode.zero
  cache : t.cache = s.cache
  table : tableBlocks s = (s.inodeAt (inumIndex inum)).blocks s + tableBlocks t

theorem WellFormed.release (h : WellFormed s free) (hinum : ValidInum inum)
    (hfixed : 3 ≤ inum.toInt) (hfree : free = 0 → (s.inodeAt (inumIndex inum)).blocks s = 0) :
    ∃ t, freeInode inum s = some (true, t) ∧ Released s free inum t := by
  have hn := hinum.index_lt
  obtain ⟨count, hmapped⟩ := h.wellMapped hn
  have hnot := h.head_notMem
  have hhead := h.owned.freeList.head_cases
  obtain ⟨t, hrun, hintact, hothers, hzero, hcache⟩ :=
    freeInode_others h.intact hinum hmapped hhead hnot
  have hheld := h.owned
  rw [tableBlocks_split s hn, ← hmapped.coe_releaseOrder] at hheld
  obtain ⟨u, hall, howned, hframe⟩ : ∃ u,
      freeAll ((s.inodeAt (inumIndex inum)).releaseOrder s 0 count) s = some (true, u) ∧
      Owned u (((s.inodeAt (inumIndex inum)).releaseOrder s 0 count : Multiset Int64) + free)
        (otherBlocks s (inumIndex inum)) ∧
      DataFrame (((s.inodeAt (inumIndex inum)).releaseOrder s 0 count : Multiset Int64) + free)
        s u := by
    by_cases hempty : free = 0
    · have horder : (s.inodeAt (inumIndex inum)).releaseOrder s 0 count = [] := by
        rw [← Multiset.coe_eq_zero, hmapped.coe_releaseOrder]
        exact hfree hempty
      rw [horder] at hheld ⊢
      exact ⟨s, rfl, by simpa using hheld, .refl _ _⟩
    · exact hheld.releaseAll hempty
  rw [hmapped.coe_releaseOrder, add_comm] at howned hframe
  have hkept := hframe.tableKept howned.freeList.data
  have hfrees := freeDataBlocksInInode_frees hmapped s
    (hmapped.untouched hhead fun hmem =>
      hnot (Multiset.mem_of_le ((indirect_le_blocks s _).trans (blocks_le_tableBlocks hn)) hmem))
  rw [hall] at hfrees
  have hsame : SameData u (u.withInodeFreed (inumIndex inum)) := .withInodeFreed hn
  obtain rfl : u.withInodeFreed (inumIndex inum) = t := by
    rw [freeInode_run h.stored.toTableFormat hinum hkept hfrees] at hrun
    exact (Prod.mk.inj (Option.some.inj hrun)).2
  have htable : tableBlocks (u.withInodeFreed (inumIndex inum)) = otherBlocks s (inumIndex inum) := by
    rw [tableBlocks_split _ hn, hothers.otherBlocks_eq, hzero,
      Inode.emptyMap_zero.blocks_eq_zero, zero_add]
  have hstored : Stored (u.withInodeFreed (inumIndex inum)) :=
    h.stored.path (freeInode_persists hinum.inRange_zero inum s true _ hrun h.stored)
  refine ⟨_, hrun, ⟨⟨hstored, ?_, fun m hm => ?_⟩, h.first.free hfixed hrun, hintact.dirs,
    fun m hm => ?_⟩, hothers, hzero, hcache, ?_⟩
  · rw [htable]
    exact hsame.owned howned
  · by_cases hself : m = inumIndex inum
    · rw [hself, hzero]
      exact Inode.emptyMap_zero.sound (fun _ => rfl) _
    · rw [hothers.inodeAt m hm hself]
      exact (h.inodes m hm).kept (hothers.kept hm hself)
  · by_cases hself : m = inumIndex inum
    · rw [hself, hzero]
      exact ⟨le_rfl, fun hdir => by cases hdir⟩
    · rw [hothers.inodeAt m hm hself]
      exact h.sizes m hm
  · rw [htable, ← tableBlocks_split s hn]

end

end AltFs
