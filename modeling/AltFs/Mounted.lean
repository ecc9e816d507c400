import AltFs.Creation

/-!
# A mounted file system

After formatting and set-up the file system is well formed and the cache is
empty.  `altfs_mknod` then creates files in it.
-/

namespace AltFs

open Prog

variable [Config]

section Fresh

variable {s₀ s s' : FileSystem} {free : Multiset Int64} {root : Inode}

theorem FreshRoot.tableBlocks_eq (h : FreshRoot s free root) : tableBlocks s = root.blocks s := by
  have hcount := inodeCount_gt h.hasInodes
  have hothers : otherBlocks s 2 = 0 := by
    refine Finset.sum_eq_zero fun m hm => ?_
    obtain ⟨hne, hm⟩ := Finset.mem_erase.mp hm
    rw [h.others m (Finset.mem_range.mp hm) hne]
    exact Inode.emptyMap_zero.blocks_eq_zero s
  rw [tableBlocks_split s (by omega : 2 < inodeCount), hothers, add_zero, h.rootAt]

theorem FreshRoot.wellFormed (h : FreshRoot s free root) (hstored : Stored s) :
    WellFormed s free := by
  have hinodes : ∀ n < inodeCount, n = 2 ∧ s.inodeAt n = root ∨ s.inodeAt n = Inode.zero := by
    intro n hn
    by_cases hroot : n = 2
    · exact .inl ⟨hroot, hroot ▸ h.rootAt⟩
    · exact .inr (h.others n hn hroot)
  refine ⟨⟨hstored, ?_, fun n hn => ?_⟩, h.firstIsLeast, fun n hn hdir => ?_, fun n hn => ?_⟩
  · rw [h.tableBlocks_eq]
    exact h.owned
  · rcases hinodes n hn with ⟨-, hat⟩ | hat
    · rw [hat]
      refine ⟨h.dir.mapped, ⟨1, h.dir.blocksNum, h.filled⟩, fun hfree => ?_⟩
      rw [h.iAllocated] at hfree
      cases hfree
    · rw [hat]
      exact Inode.emptyMap_zero.sound (fun _ => rfl) s
  · rcases hinodes n hn with ⟨-, hat⟩ | hat
    · rw [hat]
      exact ⟨_, h.dir⟩
    · rw [hat] at hdir
      cases hdir
  · rcases hinodes n hn with ⟨-, hat⟩ | hat
    · rw [hat]
      have hnum := h.dir.blocksNum
      refine ⟨?_, fun _ => ?_⟩
      · rw [h.iFileSize]
        exact Int.natCast_nonneg _
      · rw [h.iFileSize, hnum]
        rfl
    · rw [hat]
      refine ⟨le_rfl, fun hdir => ?_⟩
      cases hdir

theorem FreshRoot.ready (h : FreshRoot s free root) : Ready s cacheCapacity where
  coherent := by
    rw [Coherent, h.cache]
    exact InodeCache.allEntries_createInodeCache _
  inv := by
    rw [h.cache]
    exact ⟨[], InodeCache.createInodeCache_inv (by decide)⟩
  room := by
    rw [h.cache]
    exact le_rfl

/-- A file system that has been formatted and set up. -/
theorem mounted_of_makefs (hmake : altfsMakefs s₀ = some (true, s))
    (hinit : setupFilesystem s = some (true, s')) :
    ∃ free root, FreshRoot s' free root ∧ WellFormed s' free ∧ Ready s' cacheCapacity := by
  obtain ⟨free, root, hfresh⟩ := freshRoot_of_makefs hmake hinit
  obtain ⟨hpos, hrest⟩ := altfsMakefs_true hmake
  obtain ⟨t, free', hmake', hformatted, -⟩ := @altfsMakefs_run _ s₀ hpos hrest
  obtain rfl : t = s := by simpa [hmake'] using hmake
  have hzero : InRange 0 := (validInum_root hfresh.hasInodes).inRange_zero
  have hstored : Stored t := ⟨hformatted.format, hformatted.stored⟩
  have hpath := (primitives_persists hzero).setupFilesystem_within _ _ _ hinit hstored
  exact ⟨free, root, hfresh, hfresh.wellFormed (hstored.path hpath), hfresh.ready⟩

end Fresh

section Mknod

variable {s : FileSystem} {free : Multiset Int64} {path parentPath name : CString}
  {parentInum : Int64} {contents : List (List Entry)} {k : Nat}

/-- `altfs_mknod` on a path whose parent is found and has room. -/
theorem altfsMknod_run (h : WellFormed s free) (hready : Ready s (path.length + (parentPath.length + k)))
    (hmissing : walk s path = some (-1)) (hparent : copyParentPath path = some parentPath)
    (hwalk : walk s parentPath = some parentInum) (hvalid : ValidInum parentInum)
    (hdir : DirContents s (s.inodeAt (inumIndex parentInum)) contents)
    (hwrite : (s.inodeAt (inumIndex parentInum)).canWrite = true)
    (hfile : copyFileName path = some name) (hnew : contents.flatten.lookup name = none)
    (hvacant : s.superblock.sFirstIno.toInt < inodeCount) (hroom : HasRoom free contents name)
    (mode : UInt32) :
    ∃ s₁ t childInum free' contents', altfsMknod path mode s = some (true, t) ∧ SameButCache s s₁ ∧
      Ready s₁ k ∧ Created s₁ free parentInum childInum name mode contents t free' contents' ∧
      Ready t k := by
  obtain ⟨s₁, hname, hsame, hready₁⟩ := nameI_run hready hmissing
  rw [← hsame.walk_eq] at hwalk
  obtain ⟨s₂, hname₂, hsame₂, hready₂⟩ := nameI_run hready₁ hwalk
  have hto₂ : SameButCache s s₂ := trans_of SameButCache hsame hsame₂
  have h₂ := hto₂.wellFormed h
  have hdir₂ : DirContents s₂ (s₂.inodeAt (inumIndex parentInum)) contents := by
    rw [hto₂.inodeAt]
    exact hto₂.dirContents hdir
  have hvacant₂ : s₂.superblock.sFirstIno.toInt < inodeCount := by
    obtain ⟨cache, rfl⟩ := hto₂
    exact hvacant
  rw [← hto₂.inodeAt] at hwrite
  obtain ⟨r, t, hcreate, houtcome⟩ := @createNewFile_run _ _ _ _ _ _ _ _ mode _ hparent hname₂ h₂
    hvalid hdir₂ hwrite hfile hvacant₂
  cases houtcome with
  | refused hnoRoom _ _ _ => exact absurd hroom hnoRoom
  | @created childInum _ free' contents' _ hcreated =>
      refine ⟨s₂, t, childInum, free', contents', ?_, hto₂, hready₂, hcreated,
        hcreated.ready h₂ hdir₂ hready₂ hnew⟩
      rw [altfsMknod, bind_of_eq hname]
      exact bind_of_eq hcreate

end Mknod

end AltFs
