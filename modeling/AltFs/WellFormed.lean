import AltFs.InodeRuns
import AltFs.Resolution
import AltFs.SuperblockRuns

/-!
# Sound file systems

`Sound s free`: every inode of the table has a complete block map, and the
free list and the block maps share no block.  While inode `n` is worked on in
memory, `Editing s free n node` holds with the copy `node` in its place.
-/

namespace AltFs

/-- An inode as it lies in the table between two operations. -/
structure SoundInode (s : FileSystem) (node : Inode) : Prop where
  mapped : node.Mapped s
  filled : ∃ n : Nat, node.iBlocksNum.toInt = n ∧ node.Filled s n
  vacant : node.iAllocated = false → node = Inode.zero

theorem SoundInode.kept {s t : FileSystem} {node : Inode} (h : SoundInode s node)
    (hkept : node.Kept s t) : SoundInode t node where
  mapped := hkept.mapped h.mapped
  filled := by
    obtain ⟨n, hn, hfilled⟩ := h.filled
    exact ⟨n, hn, hkept.filled hfilled⟩
  vacant := h.vacant

theorem Inode.EmptyMap.sound {node : Inode} (h : node.EmptyMap)
    (hvacant : node.iAllocated = false → node = Inode.zero) (s : FileSystem) : SoundInode s node :=
  ⟨h.mapped s, ⟨0, by rw [h.blocksNum]; rfl, h.filled s⟩, hvacant⟩

theorem Inode.emptyMap_zero : Inode.zero.EmptyMap where
  blocksNum := rfl
  direct i := by simp [Inode.direct, Inode.zero]
  root d := by
    unfold Inode.root
    split <;> rfl

variable [Config]

/-- The blocks of all inodes of the table. -/
def tableBlocks (s : FileSystem) : Multiset Int64 :=
  ∑ m ∈ Finset.range inodeCount, (s.inodeAt m).blocks s

/-- The blocks of the inodes other than inode `n`. -/
def otherBlocks (s : FileSystem) (n : Nat) : Multiset Int64 :=
  ∑ m ∈ (Finset.range inodeCount).erase n, (s.inodeAt m).blocks s

structure Sound (s : FileSystem) (free : Multiset Int64) : Prop where
  stored : Stored s
  owned : Owned s free (tableBlocks s)
  inodes : ∀ m < inodeCount, SoundInode s (s.inodeAt m)

structure Editing (s : FileSystem) (free : Multiset Int64) (n : Nat) (node : Inode) : Prop where
  stored : Stored s
  owned : Owned s free (node.blocks s + otherBlocks s n)
  others : ∀ m < inodeCount, m ≠ n → SoundInode s (s.inodeAt m)

section

variable {s t : FileSystem} {free free' : Multiset Int64} {n m : Nat} {node node' : Inode}
  {inum : Int64}

theorem tableBlocks_split (s : FileSystem) (hn : n < inodeCount) :
    tableBlocks s = (s.inodeAt n).blocks s + otherBlocks s n := by
  have hmem : n ∈ Finset.range inodeCount := Finset.mem_range.mpr hn
  have hsum := Finset.add_sum_erase (Finset.range inodeCount) (fun m => (s.inodeAt m).blocks s) hmem
  rw [tableBlocks, otherBlocks]
  rw [← hsum]

theorem blocks_le_otherBlocks (hm : m < inodeCount) (hne : m ≠ n) :
    (s.inodeAt m).blocks s ≤ otherBlocks s n := by
  have hmem : m ∈ (Finset.range inodeCount).erase n :=
    Finset.mem_erase.mpr ⟨hne, Finset.mem_range.mpr hm⟩
  have hle := Finset.single_le_sum (f := fun m => (s.inodeAt m).blocks s)
    (fun _ _ => Multiset.zero_le _) hmem
  rw [otherBlocks]
  exact hle

theorem blocks_le_tableBlocks (hn : n < inodeCount) : (s.inodeAt n).blocks s ≤ tableBlocks s := by
  rw [tableBlocks_split s hn]
  exact Multiset.le_add_right _ _

theorem Sound.wellMapped (h : Sound s free) (hn : n < inodeCount) :
    ∃ count, (s.inodeAt n).WellMapped s count := by
  obtain ⟨hmapped, ⟨count, hcount, hfilled⟩, -⟩ := h.inodes n hn
  have hle := blocks_le_tableBlocks (s := s) hn
  refine ⟨count, hcount, ?_, hfilled, Multiset.nodup_of_le hle h.owned.held_nodup,
    fun b hb => h.owned.data b (Multiset.mem_of_le hle hb)⟩
  by_contra hlt
  have hne := hmapped.blockAt_ne_zero maxBlocksNum (by rw [hcount]; omega)
  exact hne (Inode.blockAt_of_ge le_rfl)

theorem Sound.edit (h : Sound s free) (hn : n < inodeCount) :
    Editing s free n (s.inodeAt n) where
  stored := h.stored
  owned := by
    rw [← tableBlocks_split s hn]
    exact h.owned
  others m hm _ := h.inodes m hm

theorem Sound.validInum_of_getInode {node : Inode} (h : Sound s free)
    (hrun : getInode inum s = some (node, t)) :
    ValidInum inum ∧ t = s ∧ node = s.inodeAt (inumIndex inum) := by
  by_cases hvalid : ValidInum inum
  · rw [getInode_run h.stored.toTableFormat hvalid] at hrun
    cases hrun
    exact ⟨hvalid, rfl, rfl⟩
  · rw [getInode, Prog.bind_of_eq (getInode?_invalid h.stored.toTableFormat hvalid)] at hrun
    cases hrun

/-- The other inodes and their blocks are as before. -/
structure OthersKept (n : Nat) (s t : FileSystem) : Prop where
  inodeAt : ∀ m < inodeCount, m ≠ n → t.inodeAt m = s.inodeAt m
  disk : ∀ b ∈ otherBlocks s n, t.disk b = s.disk b

namespace OthersKept

theorem refl (n : Nat) (s : FileSystem) : OthersKept n s s := ⟨fun _ _ _ => rfl, fun _ _ => rfl⟩

theorem kept (h : OthersKept n s t) (hm : m < inodeCount) (hne : m ≠ n) :
    (s.inodeAt m).Kept s t := by
  intro a ha
  have hle : (s.inodeAt m).indirect s ≤ otherBlocks s n :=
    (indirect_le_blocks s (s.inodeAt m)).trans (blocks_le_otherBlocks hm hne)
  exact h.disk a (Multiset.mem_of_le hle ha)

theorem otherBlocks_eq (h : OthersKept n s t) : otherBlocks t n = otherBlocks s n := by
  unfold otherBlocks
  refine Finset.sum_congr rfl fun m hm => ?_
  have hne := (Finset.mem_erase.mp hm).1
  have hm := Finset.mem_range.mp (Finset.mem_erase.mp hm).2
  rw [h.inodeAt m hm hne, (h.kept hm hne).blocks]

theorem trans {u : FileSystem} (h : OthersKept n s t) (h' : OthersKept n t u) :
    OthersKept n s u where
  inodeAt m hm hne := (h'.inodeAt m hm hne).trans (h.inodeAt m hm hne)
  disk b hb := by
    rw [h'.disk b (h.otherBlocks_eq.symm ▸ hb), h.disk b hb]

end OthersKept

theorem Editing.othersKept (h : Editing s free n node)
    (hframe : DataFrame (free + node.blocks s) s t) : OthersKept n s t where
  inodeAt m hm _ := hframe.inodeAt_eq (fun b hb => by
    rcases Multiset.mem_add.mp hb with hb | hb
    · exact h.owned.freeList.data b hb
    · exact h.owned.data b (Multiset.mem_add.mpr (.inl hb))) hm
  disk b hb := by
    have hheld : b ∈ node.blocks s + otherBlocks s n := Multiset.mem_add.mpr (.inr hb)
    refine h.owned.disk_eq hframe hheld fun hmem => ?_
    rcases Multiset.mem_add.mp hmem with hfree | hown
    · exact h.owned.not_free hheld hfree
    · exact Multiset.disjoint_left.mp (Multiset.nodup_add.mp h.owned.held_nodup).2.2 hown hb

/-- Work on the blocks of the inode and on free blocks. -/
theorem Editing.step (h : Editing s free n node) (hframe : DataFrame (free + node.blocks s) s t)
    (hstored : Stored t) (howned : Owned t free' (node'.blocks t + otherBlocks s n)) :
    Editing t free' n node' where
  stored := hstored
  owned := by
    rw [(h.othersKept hframe).otherBlocks_eq]
    exact howned
  others m hm hne := by
    have hkept := h.othersKept hframe
    rw [hkept.inodeAt m hm hne]
    exact (h.others m hm hne).kept (hkept.kept hm hne)

theorem Stored.setInode (h : Stored s) (hn : n < inodeCount) (node : Inode) :
    Stored (s.setInode n node) :=
  h.step (.block _ (inodeBlockOf_ne_zero hn))

section SetInode

variable {held : Multiset Int64} (howned : Owned s free held)
  (hle : node.blocks s + otherBlocks s n ≤ held) (hn : n < inodeCount)

include howned hle hn

theorem othersKept_setInode : OthersKept n s (s.setInode n node) where
  inodeAt _ hm hne := inodeAt_setInode_ne hn hm hne
  disk b hb := disk_setInode_of_dataBlock hn
    (howned.data b (Multiset.mem_of_le ((Multiset.le_add_left _ _).trans hle) hb))

theorem tableBlocks_setInode :
    tableBlocks (s.setInode n node) = node.blocks s + otherBlocks s n := by
  have hsame : SameData s (s.setInode n node) := .setInode node hn
  rw [tableBlocks_split _ hn, inodeAt_setInode_self,
    (othersKept_setInode howned hle hn).otherBlocks_eq,
    hsame.blocks howned ((Multiset.le_add_right _ _).trans hle)]

end SetInode

/-- The copy is written back. -/
theorem Editing.commit (h : Editing s free n node) (hn : n < inodeCount)
    (hnode : SoundInode s node) : Sound (s.setInode n node) free := by
  have hsame : SameData s (s.setInode n node) := .setInode node hn
  have hle : node.blocks s ≤ node.blocks s + otherBlocks s n := Multiset.le_add_right _ _
  have hkept := othersKept_setInode h.owned le_rfl hn
  refine ⟨h.stored.setInode hn node, ?_, fun m hm => ?_⟩
  · rw [tableBlocks_setInode h.owned le_rfl hn]
    exact hsame.owned h.owned
  · by_cases hne : m = n
    · rw [hne, inodeAt_setInode_self]
      exact hnode.kept (hsame.kept h.owned hle)
    · rw [hkept.inodeAt m hm hne]
      exact (h.others m hm hne).kept (hkept.kept hm hne)

/-- The cache and the clock do not matter. -/
theorem tableBlocks_congr (hdisk : t.disk = s.disk) : tableBlocks t = tableBlocks s := by
  have hkept : ∀ node : Inode, node.Kept s t := fun node a _ => congrFun hdisk a
  unfold tableBlocks
  refine Finset.sum_congr rfl fun m _ => ?_
  rw [inodeAt_of_disk_eq (congrFun hdisk _), (hkept _).blocks]

theorem Sound.congr (h : Sound s free) (hdisk : t.disk = s.disk)
    (hsb : t.superblock = s.superblock) : Sound t free := by
  have hat : ∀ m, t.inodeAt m = s.inodeAt m := fun m =>
    inodeAt_of_disk_eq (congrFun hdisk _)
  have hkept : ∀ node : Inode, node.Kept s t := fun node a _ => congrFun hdisk a
  refine ⟨⟨⟨?_, ?_⟩, ?_⟩, ?_, fun m hm => ?_⟩
  · rw [hsb, h.stored.sInodesCount]
  · rw [hsb, h.stored.sNumOfInodesPerBlock]
  · rw [hdisk, hsb, h.stored.stored]
  · rw [tableBlocks_congr hdisk]
    exact ⟨h.owned.freeList.frame (by rw [hsb]) fun b _ => congrFun hdisk b, h.owned.nodup,
      h.owned.data⟩
  · rw [hat]
    exact (h.inodes m hm).kept (hkept _)

theorem SameButCache.tableBlocks_eq (hsame : SameButCache s t) : tableBlocks t = tableBlocks s := by
  obtain ⟨cache, rfl⟩ := hsame
  exact tableBlocks_congr rfl

theorem SameButCache.sound (hsame : SameButCache s t) (h : Sound s free) : Sound t free := by
  obtain ⟨cache, rfl⟩ := hsame
  exact h.congr rfl rfl

omit [Config] in
theorem SameButCache.inodeAt (h : SameButCache s t) (n : Nat) : t.inodeAt n = s.inodeAt n := by
  obtain ⟨cache, rfl⟩ := h
  exact inodeAt_of_disk_eq rfl

end

end AltFs
