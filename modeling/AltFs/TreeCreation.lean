import AltFs.FreshFiles
import AltFs.NameTree

/-!
# Creating adds an edge

A new file adds one edge to the tree of names.
-/

namespace AltFs

open Prog NamedTree

variable [Config]

section Edge

variable {s t : FileSystem} {free free' : Multiset Int64} {parentInum childInum : Int64}
  {name : CString} {mode : UInt32} {contents contents' : List (List Entry)}

omit [Config] in
/-- The records of a directory with one more. -/
theorem DirRecords.added {node node' : Inode} {entries entries' : List Entry} {entry : Entry}
    (h : DirRecords node entries) (hperm : entries'.Perm (entry :: entries))
    (hnew : entries.lookup entry.1 = none) (hchildNum : node'.iChildNum = node.iChildNum + 1)
    (hlength : entries.length + 1 < 2 ^ 64) : DirRecords node' entries' where
  unique := by
    rw [(hperm.map Prod.fst).nodup_iff, List.map_cons, List.nodup_cons]
    refine ⟨fun hmem => ?_, h.unique⟩
    obtain ⟨other, hother, heq⟩ := List.mem_map.mp hmem
    exact lookup_eq_none_iff.mp hnew other hother heq
  childNum := by
    have hone : (1 : UInt64).toNat = 1 := rfl
    rw [hchildNum, UInt64.toNat_add, h.childNum, hperm.length_eq, List.length_cons, hone]
    exact Nat.mod_eq_of_lt hlength
  hasDot := (hperm.map Prod.fst).mem_iff.mpr (List.mem_cons_of_mem _ h.hasDot)
  hasDotDot := (hperm.map Prod.fst).mem_iff.mpr (List.mem_cons_of_mem _ h.hasDotDot)

omit [Config] in
theorem DirContents.length_flatten_lt {node : Inode} (h : DirContents s node contents) :
    contents.flatten.length + 1 < 2 ^ 64 := by
  have hcount := h.length_flatten_le
  have hblocks := h.length_le
  simp only [maxBlocksNum] at hblocks
  omega

namespace Created

variable (hcreated : Created s free parentInum childInum name mode contents t free' contents')

include hcreated

theorem childOf_name (hnew : contents.flatten.lookup name = none) (hname : IsComponent name) :
    childOf t parentInum name = some childInum := by
  rw [childOf_eq hname, hcreated.lookupIn_name hnew]
  rfl

theorem allocated_child : (t.inodeAt (inumIndex childInum)).iAllocated = true := by
  obtain ⟨currTime, hchild⟩ := hcreated.child
  rw [hchild]
  rfl

variable (h : TreeFormed s free)

include h

/-- No record named the inode. -/
theorem unnamed (i : Int64) (other : CString) : childOf s i other ≠ some childInum := by
  intro hchild
  have hallocated := (h.child hchild).2
  rw [hcreated.vacant] at hallocated
  cases hallocated

theorem ne_root : childInum ≠ rootInodeNum := by
  rintro rfl
  have hroot := h.rootDir
  rw [hcreated.vacant] at hroot
  cases hroot

variable (hdir : DirContents s (s.inodeAt (inumIndex parentInum)) contents)

include hdir

theorem childOf_other (i : Int64) (other : CString) (hother : ¬(i = parentInum ∧ other = name)) :
    childOf t i other = childOf s i other := by
  apply childOf_congr
  exact hcreated.lookupIn_other h.toWellFormed hdir (not_and_or.mp hother)

/-- An inode in use stays in use and keeps its kind. -/
theorem kept_allocated {inum : Int64} (hinum : ValidInum inum)
    (hallocated : (s.inodeAt (inumIndex inum)).iAllocated = true) :
    (t.inodeAt (inumIndex inum)).iAllocated = true ∧
      (t.inodeAt (inumIndex inum)).isDir = (s.inodeAt (inumIndex inum)).isDir := by
  by_cases hparent : inumIndex inum = inumIndex parentInum
  · obtain ⟨node, hnode⟩ := hcreated.parent
    rw [hparent, hnode]
    refine ⟨?_, isDir_congr rfl⟩
    exact h.isAllocated hcreated.validParent.index_lt hdir.isDir
  have hchild : inumIndex inum ≠ inumIndex childInum := by
    intro heq
    rw [heq, hcreated.vacant] at hallocated
    cases hallocated
  rw [(hcreated.other _ hinum.index_lt hparent hchild).1]
  exact ⟨hallocated, rfl⟩

/-- A file has been added to the tree. -/
theorem treeFormed (hnew : contents.flatten.lookup name = none) (hname : IsComponent name)
    (hrecords : DirRecords (s.inodeAt (inumIndex parentInum)) contents.flatten)
    (hfile : (t.inodeAt (inumIndex childInum)).isDir = false) : TreeFormed t free' where
  toWellFormed := hcreated.wellFormed
  root := h.root
  rootDir := by
    have hallocated := h.isAllocated h.root.index_lt h.rootDir
    rw [(hcreated.kept_allocated h hdir h.root hallocated).2]
    exact h.rootDir
  records n hn hisDir := by
    by_cases hparent : n = inumIndex parentInum
    · obtain ⟨node, hnode⟩ := hcreated.parent
      rw [hparent]
      refine ⟨contents', hcreated.dir, hrecords.added hcreated.entries hnew ?_ hdir.length_flatten_lt⟩
      rw [hnode]
    by_cases hchild : n = inumIndex childInum
    · rw [hchild, hfile] at hisDir
      cases hisDir
    obtain ⟨hat, hdisk⟩ := hcreated.other n hn hparent hchild
    rw [hat] at hisDir ⊢
    obtain ⟨records, hcontents, hkept⟩ := h.records n hn hisDir
    exact ⟨records, hcontents.of_disk_eq hdisk, hkept⟩
  child {i other inum} hfound := by
    by_cases hself : i = parentInum ∧ other = name
    · rw [hself.1, hself.2, hcreated.childOf_name hnew hname] at hfound
      cases hfound
      exact ⟨hcreated.valid, hcreated.allocated_child⟩
    · rw [hcreated.childOf_other h hdir i other hself] at hfound
      obtain ⟨hinum, hallocated⟩ := h.child hfound
      exact ⟨hinum, (hcreated.kept_allocated h hdir hinum hallocated).1⟩
  tree := by
    apply h.tree.added
    · exact hcreated.unnamed h
    · exact hcreated.ne_root h
    · exact hcreated.childOf_name hnew hname
    · exact hcreated.childOf_other h hdir

end Created

end Edge

/-! ## The first tree -/

section Fresh

variable {s : FileSystem} {free : Multiset Int64} {root : Inode}

/-- On a fresh device nothing has a name. -/
theorem FreshRoot.childOf_eq_none (h : FreshRoot s free root) (hwell : WellFormed s free)
    (inum : Int64) (name : CString) : childOf s inum name = none := by
  rw [childOf]
  split
  next => rfl
  next hdots =>
  obtain ⟨hdot, hdotDot⟩ := not_or.mp hdots
  have hformat := hwell.stored.toTableFormat
  by_cases hvalid : ValidInum inum
  swap
  · rw [lookupIn_invalid hformat hvalid]
    rfl
  by_cases hroot : inumIndex inum = 2
  · have hdir := h.dir
    rw [← h.rootAt, ← hroot] at hdir
    have hnone :
        ([[([dot], rootInodeNum), ([dot, dot], rootInodeNum)]] : List (List Entry)).flatten.lookup
        name = none := by
      rw [lookup_eq_none_iff]
      intro entry hentry heq
      simp only [List.flatten_cons, List.flatten_nil, List.append_nil, List.mem_cons,
        List.not_mem_nil, or_false] at hentry
      rcases hentry with rfl | rfl
      · exact hdot heq.symm
      · exact hdotDot heq.symm
    rw [hwell.lookupIn_dir hvalid hdir, hnone]
    rfl
  · rw [lookupIn_notDir hformat hvalid]
    · rfl
    · rw [h.others _ hvalid.index_lt hroot]
      rfl

theorem FreshRoot.treeFormed (h : FreshRoot s free root) (hwell : WellFormed s free) :
    TreeFormed s free where
  toWellFormed := hwell
  root := validInum_root h.hasInodes
  rootDir := by
    change (s.inodeAt 2).isDir = true
    rw [h.rootAt]
    exact h.dir.isDir
  records n hn hdir := by
    by_cases hroot : n = 2
    · rw [hroot, h.rootAt]
      refine ⟨_, h.dir, by decide, ?_, by decide, by decide⟩
      rw [h.iChildNum]
      rfl
    · rw [h.others n hn hroot] at hdir
      cases hdir
  child hchild := by
    rw [h.childOf_eq_none hwell] at hchild
    cases hchild
  tree := by
    refine ⟨fun hchild => ?_, fun i name hchild => ?_⟩
    · rw [h.childOf_eq_none hwell] at hchild
      cases hchild
    · rw [h.childOf_eq_none hwell] at hchild
      cases hchild

end Fresh

/-! ## A tree with one file -/

/-- The file `/f` in a tree of its own, with room beside its record. -/
structure OneFile (s : FileSystem) (free : Multiset Int64) (inum : Int64) (entries : List Entry) :
    Prop where
  tree : TreeFormed s free
  ready : Ready s 1000
  dir : DirContents s (s.inodeAt (inumIndex rootInodeNum)) [entries]
  records : entries.Perm (([letterF], inum) :: dots rootInodeNum rootInodeNum)
  child : childOf s rootInodeNum [letterF] = some inum
  other : ∀ i name, ¬(i = rootInodeNum ∧ name = [letterF]) → childOf s i name = none
  node : ∃ currTime, s.inodeAt (inumIndex inum) =
    Inode.zero.marked.fresh (sIfreg ||| defaultPermissions) currTime

omit [Config] in
theorem isComponent_letter {c : CChar} (hslash : c ≠ slash) (hdot : c ≠ dot) :
    IsComponent [c] where
  ne_nil := List.cons_ne_nil _ _
  slash_notMem hmem := hslash (List.mem_singleton.mp hmem).symm
  ne_dot heq := hdot (List.cons.inj heq).1
  ne_dotDot heq := by cases heq

omit [Config] in
theorem isComponent_f : IsComponent [letterF] := isComponent_letter (by decide) (by decide)

omit [Config] in
theorem components_f : ∀ name ∈ [[letterF]], IsComponent name := by
  intro name hmem
  rw [List.mem_singleton.mp hmem]
  exact isComponent_f

section Fresh

variable {s : FileSystem} {free : Multiset Int64} {root : Inode}

theorem FreshRoot.dirRoot (h : FreshRoot s free root) :
    DirContents s (s.inodeAt (inumIndex rootInodeNum)) [dots rootInodeNum rootInodeNum] := by
  change DirContents s (s.inodeAt 2) _
  rw [h.rootAt]
  exact h.dir

/-- The first file of a fresh device. -/
theorem FreshRoot.mknod_run (h : FreshRoot s free root) (hwell : WellFormed s free)
    (hready : Ready s cacheCapacity) :
    ∃ s₁ t childInum free' contents',
      altfsMknod (pathOf [[letterF]]) (sIfreg ||| defaultPermissions) s = some (true, t) ∧
      SameButCache s s₁ ∧ Ready s₁ 1000 ∧
      Created s₁ free rootInodeNum childInum [letterF] (sIfreg ||| defaultPermissions)
        [dots rootInodeNum rootInodeNum] t free' contents' ∧ Ready t 1000 := by
  have htree := h.treeFormed hwell
  have hmissing : walk s (pathOf [[letterF]]) = some (-1) := by
    rw [htree.rooted.walk_eq_minusOne components_f, follow_cons, h.childOf_eq_none hwell]
    rfl
  have hwrite : (s.inodeAt (inumIndex rootInodeNum)).canWrite = true := by
    change (s.inodeAt 2).canWrite = true
    rw [h.rootAt, Inode.canWrite, h.iMode]
    decide
  have hfits : RecordFits [dots rootInodeNum rootInodeNum] ([letterF], 0) := by
    refine ⟨_, List.mem_singleton.mpr rfl, ?_⟩
    decide
  have hvacant : s.superblock.sFirstIno.toInt < inodeCount := by
    have hcount := inodeCount_gt h.hasInodes
    rw [h.sFirstIno]
    change (3 : Int) < inodeCount
    omega
  exact @altfsMknod_run _ s free (pathOf [[letterF]]) [slash] [letterF] rootInodeNum _ 1000 hwell
    (hready.mono (by decide)) hmissing rfl walk_root (validInum_root h.hasInodes) h.dirRoot hwrite rfl
    (by decide) hvacant ⟨by decide, .inl hfits⟩ _

theorem FreshRoot.dirRecords (h : FreshRoot s free root) :
    DirRecords (s.inodeAt (inumIndex rootInodeNum)) [dots rootInodeNum rootInodeNum].flatten := by
  change DirRecords (s.inodeAt 2) _
  rw [h.rootAt]
  refine ⟨by decide, ?_, by decide, by decide⟩
  rw [h.iChildNum]
  rfl

theorem FreshRoot.oneFile_run (h : FreshRoot s free root) (hwell : WellFormed s free)
    (hready : Ready s cacheCapacity) :
    ∃ s₁ t childInum entries,
      altfsMknod (pathOf [[letterF]]) (sIfreg ||| defaultPermissions) s = some (true, t) ∧
      SameButCache s s₁ ∧ Coherent s₁ ∧
      Created s₁ free rootInodeNum childInum [letterF] (sIfreg ||| defaultPermissions)
        [dots rootInodeNum rootInodeNum] t free [entries] ∧ OneFile t free childInum entries := by
  have htree := h.treeFormed hwell
  have hname := isComponent_f
  have hnew : [dots rootInodeNum rootInodeNum].flatten.lookup [letterF] = none := by decide
  obtain ⟨s₁, t, childInum, free', contents', hrun, hsame, hready₁, hcreated, hready'⟩ :=
    h.mknod_run hwell hready
  have htree₁ := hsame.treeFormed htree
  have hdir₁ := hsame.dirContents h.dirRoot
  have hrecords := h.dirRecords
  rw [← hsame.inodeAt] at hdir₁ hrecords
  have hfile : (t.inodeAt (inumIndex childInum)).isDir = false := by
    obtain ⟨currTime, hnode⟩ := hcreated.child
    rw [hnode]
    exact isDir_freshFile currTime
  have hfits : RecordFits [dots rootInodeNum rootInodeNum] ([letterF], childInum) := by
    refine ⟨_, List.mem_singleton.mpr rfl, ?_⟩
    change recordsSize (dots rootInodeNum rootInodeNum) + recordSize ([letterF], 0) ≤ blockSize
    decide
  obtain ⟨entries, rfl⟩ : ∃ entries, contents' = [entries] :=
    List.length_eq_one_iff.mp (hcreated.lengthSame hfits)
  obtain rfl : free' = free := by
    rcases hcreated.room with ⟨-, hfree⟩ | ⟨hnone, -⟩
    · exact hfree
    · exact absurd hfits hnone
  refine ⟨s₁, t, childInum, entries, hrun, hsame, hready₁.coherent, hcreated,
    hcreated.treeFormed htree₁ hdir₁ hnew hname hrecords hfile, hready', hcreated.dir, ?_,
    hcreated.childOf_name hnew hname, fun i name hother => ?_, hcreated.child⟩
  · have hperm := hcreated.entries
    rw [List.flatten_singleton, List.flatten_singleton] at hperm
    exact hperm
  · rw [hcreated.childOf_other htree₁ hdir₁ i name hother, hsame.childOf_eq, h.childOf_eq_none hwell]

theorem FreshRoot.oneFile (h : FreshRoot s free root) (hwell : WellFormed s free)
    (hready : Ready s cacheCapacity) :
    ∃ s₁ t childInum entries, SameButCache s s₁ ∧ Coherent s₁ ∧
      Created s₁ free rootInodeNum childInum [letterF] (sIfreg ||| defaultPermissions)
        [dots rootInodeNum rootInodeNum] t free [entries] ∧ OneFile t free childInum entries := by
  obtain ⟨s₁, t, childInum, entries, -, hfile⟩ := h.oneFile_run hwell hready
  exact ⟨s₁, t, childInum, entries, hfile⟩

end Fresh

theorem exists_oneFile (hinodes : 0 < inodeBlockCount)
    (hrest : numOfDataBlocks % numOfAddressesPerBlock ≠ 0) :
    ∃ s free inum entries, OneFile s free inum entries := by
  obtain ⟨s₀, s, hmake, hsetup⟩ := makefs_setup_run FileSystem.blank hinodes hrest
  obtain ⟨free, root, hfresh, hwell, hready⟩ := mounted_of_makefs hmake hsetup
  obtain ⟨-, t, inum, entries, -, -, -, hone⟩ := hfresh.oneFile hwell hready
  exact ⟨t, free, inum, entries, hone⟩

end AltFs
