import AltFs.Consistent

/-!
# One path changes

A creation or an unlink changes what its own path resolves to, and no other
path.
-/

namespace AltFs

open Prog NamedTree

variable [Config]

/-- Every path other than `names` resolves as before. -/
def OtherPathsKept (s : FileSystem) (names : List CString) (t : FileSystem) : Prop :=
  ∀ path, (∀ name ∈ path, IsComponent name) → path ≠ names →
    nameIUncached t (pathOf path) = nameIUncached s (pathOf path)

/-- `names` led nowhere and leads to a number that no record had. -/
structure PathAdded (s : FileSystem) (names : List CString) (inum : Int64) (t : FileSystem) :
    Prop where
  missing : nameIUncached s (pathOf names) = some (-1)
  found : nameIUncached t (pathOf names) = some inum
  valid : ValidInum inum
  unnamed : ∀ n < inodeCount, ∀ contents, DirContents s (s.inodeAt n) contents →
    ∀ entry ∈ contents.flatten, entry.2 ≠ inum
  other : OtherPathsKept s names t

/-- `names` leads nowhere, and the inode it led to is free. -/
structure PathRemoved (s : FileSystem) (names : List CString) (t : FileSystem) : Prop where
  removed : nameIUncached t (pathOf names) = some (-1)
  freed : ∃ inum, ValidInum inum ∧ nameIUncached s (pathOf names) = some inum ∧
    (t.inodeAt (inumIndex inum)).iAllocated = false
  other : OtherPathsKept s names t

section Creating

variable {s s₁ t u : FileSystem} {free free' : Multiset Int64} {parentInum childInum : Int64}
  {name : CString} {names : List CString} {mode : UInt32} {contents contents' : List (List Entry)}

theorem Created.rooted (h : TreeFormed s free)
    (hcreated : Created s free parentInum childInum name mode contents t free' contents')
    (hdir : DirContents s (s.inodeAt (inumIndex parentInum)) contents)
    (hnew : contents.flatten.lookup name = none) (hname : IsComponent name) : Rooted t where
  toIntact := hcreated.wellFormed.intact
  root := h.root
  child {i other inum} hchild := by
    by_cases hself : i = parentInum ∧ other = name
    · rw [hself.1, hself.2, hcreated.childOf_name hnew hname] at hchild
      cases hchild
      exact hcreated.valid
    · rw [hcreated.childOf_other h hdir i other hself] at hchild
      exact (h.child hchild).1

/-- The new inode has nothing below it. -/
theorem Created.childOf_child (h : TreeFormed s free)
    (hcreated : Created s free parentInum childInum name mode contents t free' contents')
    (hdir : DirContents s (s.inodeAt (inumIndex parentInum)) contents) (other : CString) :
    childOf t childInum other = none := by
  have hbefore : (s.inodeAt (inumIndex childInum)).isDir = false := by
    rw [hcreated.vacant]
    rfl
  have hne : ¬(childInum = parentInum ∧ other = name) := by
    rintro ⟨rfl, -⟩
    rw [hdir.isDir] at hbefore
    cases hbefore
  rw [hcreated.childOf_other h hdir childInum other hne, childOf,
    lookupIn_notDir h.stored.toTableFormat hcreated.valid hbefore, Option.join_some, ite_self]

/-- The directory at which a creation has been attempted, on a path that led nowhere. -/
theorem Attempted.place (h : TreeFormed s free) (hnames : ∀ name ∈ names, IsComponent name)
    (hmissing : walk s (pathOf names) = some (-1))
    (hattempted : Attempted s (pathOf names) parentInum name)
    (hcontents : DirContents s (s.inodeAt (inumIndex parentInum)) contents) :
    ∃ front, names = front ++ [name] ∧ IsComponent name ∧
      (∀ other ∈ front, IsComponent other) ∧
      follow (childOf s) rootInodeNum front = some parentInum ∧
      childOf s parentInum name = none ∧ contents.flatten.lookup name = none := by
  cases names using List.reverseRecOn with
  | nil =>
      rw [show pathOf [] = [slash] from rfl, walk_root] at hmissing
      cases hmissing
  | append_singleton front last =>
      have hlast := hnames last (List.mem_append_right _ List.mem_cons_self)
      have hfront : ∀ other ∈ front, IsComponent other := fun other hother =>
        hnames other (List.mem_append_left _ hother)
      have hfile := hattempted.file
      rw [copyFileName_pathOf hlast.ne_nil hlast.slash_notMem] at hfile
      cases hfile
      obtain ⟨parentPath, hparentPath, hwalk⟩ := hattempted.parent
      rw [copyParentPath_pathOf hlast.ne_nil hlast.slash_notMem] at hparentPath
      cases hparentPath
      rw [h.rooted.walk_eq_some hfront hattempted.valid.ne_minusOne] at hwalk
      rw [h.rooted.walk_eq_minusOne hnames, follow_concat, hwalk] at hmissing
      refine ⟨front, rfl, hlast, hfront, hwalk, hmissing, ?_⟩
      rw [Option.bind_some, childOf_eq hlast, h.lookupIn_dir hattempted.valid hcontents] at hmissing
      exact hmissing

theorem Created.pathAdded (h : Consistent s free) (hnames : ∀ name ∈ names, IsComponent name)
    (hmissing : walk s (pathOf names) = some (-1)) (hsame : SameButCache s s₁)
    (hattempted : Attempted s (pathOf names) parentInum name)
    (hcontents : DirContents s (s.inodeAt (inumIndex parentInum)) contents)
    (hcreated : Created s₁ free parentInum childInum name mode contents u free' contents')
    (ht : Intact t) (hedges : childOf t = childOf u) :
    PathAdded s names childInum t ∧ ∃ front, names = front ++ [name] ∧
      nameIUncached s (pathOf front) = some parentInum := by
  obtain ⟨front, rfl, hname, hfront, hparent, hnone, hnew⟩ :=
    hattempted.place h.toTreeFormed hnames hmissing hcontents
  have h₁ := hsame.treeFormed h.toTreeFormed
  have hdir := hsame.dirContents hcontents
  rw [← hsame.inodeAt] at hdir
  have hrooted : Rooted t := by
    refine ⟨ht, h.root, fun hchild => ?_⟩
    rw [hedges] at hchild
    exact (hcreated.rooted h₁ hdir hnew hname).child hchild
  have hself := hcreated.childOf_name hnew hname
  have hother := hcreated.childOf_other h₁ hdir
  rw [hsame.childOf_eq, ← hedges] at hother
  rw [← hedges] at hself
  have hleaf := hcreated.childOf_child h₁ hdir
  rw [← hedges] at hleaf
  refine ⟨⟨?_, ?_, hcreated.valid, ?_, ?_⟩, front, rfl, ?_⟩
  · rw [nameIUncached_eq]
    exact hmissing
  · rw [nameIUncached_eq, hrooted.walk_eq_some hnames hcreated.valid.ne_minusOne]
    exact h.tree.follow_added_self hparent hself hother
  · rintro n hn records hrecords entry hentry rfl
    have hallocated := (h.named n hn records hrecords entry hentry).2
    have hvacant := hcreated.vacant
    rw [hsame.inodeAt] at hvacant
    rw [hvacant] at hallocated
    cases hallocated
  · intro path hpath hne
    rw [nameIUncached_eq, nameIUncached_eq, hrooted.walk_pathOf hpath, h.rooted.walk_pathOf hpath,
      h.tree.follow_added_other hparent hself hother hnone hleaf hne]
  · rw [nameIUncached_eq, h.rooted.walk_eq_some hfront hattempted.valid.ne_minusOne]
    exact hparent

/-- A creating `altfs_open`; truncating the new file does nothing. -/
theorem altfsOpen_created {oflag : Int64} {r : Int} (h : Consistent s free)
    (hnames : ∀ name ∈ names, IsComponent name) (hmissing : walk s (pathOf names) = some (-1))
    (hrun : altfsOpen (pathOf names) oflag s = some (r, t)) (hr : 0 ≤ r) :
    hasFlag oflag oCreat = true ∧ ∃ inum currTime, r = inum.toInt ∧ PathAdded s names inum t ∧
      t.inodeAt (inumIndex inum) =
        Inode.zero.marked.fresh (sIfreg ||| defaultPermissions) currTime := by
  obtain ⟨inum, s₀, hname, hrest⟩ := bind_eq_some_iff.mp hrun
  have hsame := nameI_sameButCache hname
  obtain ⟨hwalk, hcoherent₀⟩ := nameI_walk h.coherent hname
  rw [hmissing] at hwalk
  cases hwalk
  rw [if_pos rfl] at hrest
  split at hrest
  swap
  · cases hrest
    exact absurd hr (by decide)
  next hflag =>
  refine ⟨hflag, ?_⟩
  obtain ⟨result, u, hcreate, hrest⟩ := bind_eq_some_iff.mp hrest
  have h₀ := hsame.wellFormed h.toWellFormed
  cases result with
  | error code =>
      cases hrest
      exact absurd hr (not_le.mpr (createNewFile_error h₀ hcoherent₀ hcreate).1)
  | ok new =>
      obtain ⟨s₁, free', parentInum, name, contents, contents', hsame₁, hcoherent₁, hattempted,
        hcontents, hcreated, -⟩ := createNewFile_ok h₀ hcoherent₀ hcreate
      have hback := hsame.symm.attempted hattempted
      have hto₁ : SameButCache s s₁ := trans_of SameButCache hsame hsame₁
      rw [hsame.inodeAt] at hcontents
      have hdir := hsame.symm.dirContents hcontents
      obtain ⟨-, -, -, -, -, -, hnew⟩ := hback.place h.toTreeFormed hnames hmissing hdir
      obtain ⟨currTime, hchild⟩ := hcreated.child
      have hunchanged : SameButCache u t ∧ r = new.childInodeNum.toInt := by
        obtain ⟨node, u₁, hread, hrest⟩ := bind_eq_some_iff.mp hrest
        obtain ⟨-, rfl, rfl⟩ := hcreated.wellFormed.validInum_of_getInode hread
        rw [hchild, mayOpen_newFile, if_neg (by decide)] at hrest
        split at hrest
        swap
        · cases hrest
          exact ⟨refl_of SameButCache _, rfl⟩
        next hboth =>
        obtain ⟨res, u₂, htruncate, hrest⟩ := bind_eq_some_iff.mp hrest
        rw [if_neg (altfsTruncate_zero_ne hcreated.wellFormed htruncate)] at hrest
        cases hrest
        refine ⟨?_, rfl⟩
        have hfound := (Created.pathAdded h hnames hmissing hto₁ hback hdir hcreated
          hcreated.wellFormed.intact rfl).1.found
        rw [nameIUncached_eq] at hfound
        have hdir₁ := hto₁.dirContents hdir
        rw [← hto₁.inodeAt] at hdir₁
        apply altfsTruncate_empty hcreated.wellFormed.toSound
          (hcreated.coherent (hto₁.wellFormed h.toWellFormed) hdir₁ hcoherent₁ hnew) hfound
          hcreated.valid.ne_minusOne _ _ htruncate
        · rw [hchild]
          exact (Bool.and_eq_true_iff.mp hboth).2
        · rw [hchild]
          rfl
      obtain ⟨hsame', rfl⟩ := hunchanged
      refine ⟨new.childInodeNum, currTime, rfl, ?_, ?_⟩
      · exact (Created.pathAdded h hnames hmissing hto₁ hback hdir hcreated
          (hsame'.intact hcreated.wellFormed.intact) hsame'.childOf_eq).1
      · rw [hsame'.inodeAt]
        exact hchild

end Creating

section Paths

variable {s t : FileSystem} {free : Multiset Int64} {names : List CString}

theorem altfsUnlink_removed (h : Consistent s free) (hnames : ∀ name ∈ names, IsComponent name)
    (hrun : altfsUnlink (pathOf names) s = some (0, t)) : PathRemoved s names t := by
  cases names using List.reverseRecOn with
  | nil => exact absurd rfl (altfsUnlink_root hrun).1
  | append_singleton front name =>
      rcases altfsUnlink_cases h.toTreeFormed h.coherent hnames hrun with
        ⟨hr, -⟩ | ⟨-, parentInum, inum, hparent, hchild, hunlinked, -⟩
      · exact absurd rfl hr
      have hvalid := (h.child hchild).1
      have hfollow : follow (childOf s) rootInodeNum (front ++ [name]) = some inum := by
        rw [follow_concat, hparent]
        exact hchild
      refine ⟨?_, ⟨inum, hvalid, ?_, ?_⟩, fun path hpath hne => ?_⟩
      · rw [nameIUncached_eq, hunlinked.rooted.walk_eq_minusOne hnames, follow_concat,
          hunlinked.follow_other h.toTreeFormed hparent (not_prefix_init front name), hparent]
        exact hunlinked.gone
      · rw [nameIUncached_eq, h.rooted.walk_eq_some hnames hvalid.ne_minusOne]
        exact hfollow
      · rw [hunlinked.freed (h.links _ _ _ hchild)]
        rfl
      · rw [nameIUncached_eq, nameIUncached_eq, hunlinked.rooted.walk_pathOf hpath,
          h.rooted.walk_pathOf hpath, h.tree.follow_removed_other hparent hchild hunlinked.other
            hunlinked.gone hunlinked.leaf hne]

/--
A creation adds its own path, which leads to a new empty file or to a directory
of one block with `.` and `..`; an unlink removes its own path.  No other path
changes.
-/
theorem oneNameChanges (h : Consistent s free) (hnames : ∀ name ∈ names, IsComponent name) :
    (∀ mode t, altfsMknod (pathOf names) mode s = some (true, t) →
      ∃ inum, PathAdded s names inum t ∧ (t.inodeAt (inumIndex inum)).iFileSize = 0 ∧
        (t.inodeAt (inumIndex inum)).iBlocksNum = 0) ∧
    (∀ mode t, altfsMkdir (pathOf names) mode s = some (true, t) →
      ∃ inum front name parentInum, PathAdded s names inum t ∧ names = front ++ [name] ∧
        nameIUncached s (pathOf front) = some parentInum ∧
        DirContents t (t.inodeAt (inumIndex inum)) [dots inum parentInum]) ∧
    (∀ oflag r t, nameIUncached s (pathOf names) = some (-1) →
      altfsOpen (pathOf names) oflag s = some (r, t) → 0 ≤ r →
      hasFlag oflag oCreat = true ∧ ∃ inum, r = inum.toInt ∧ PathAdded s names inum t ∧
        (t.inodeAt (inumIndex inum)).iFileSize = 0 ∧
        (t.inodeAt (inumIndex inum)).iBlocksNum = 0) ∧
    ∀ t, altfsUnlink (pathOf names) s = some (0, t) → PathRemoved s names t := by
  refine ⟨fun mode t hrun => ?_, fun mode t hrun => ?_, fun oflag r t hmissing hrun hr => ?_,
    fun t hrun => altfsUnlink_removed h hnames hrun⟩
  · obtain ⟨hmissing, s₁, free', parentInum, childInum, name, contents, contents', hsame, -,
      hattempted, hcontents, hcreated⟩ := altfsMknod_true h.toWellFormed h.coherent hrun
    obtain ⟨hadded, -⟩ := Created.pathAdded h hnames hmissing hsame hattempted hcontents hcreated
      hcreated.wellFormed.intact rfl
    obtain ⟨currTime, hchild⟩ := hcreated.child
    refine ⟨childInum, hadded, ?_, ?_⟩
    · rw [hchild]
      rfl
    · rw [hchild]
      rfl
  · obtain ⟨hmissing, s₁, u, free₁, free', parentInum, childInum, name, contents, contents', hsame,
      -, hattempted, hcontents, hcreated, hdots⟩ := altfsMkdir_true h.toWellFormed h.coherent hrun
    have hedges := hdots.childOf_eq hcreated.wellFormed hcreated.valid hcreated.emptyMap_child
    obtain ⟨hadded, front, hfront, hparent⟩ := Created.pathAdded h hnames hmissing hsame hattempted
      hcontents hcreated hdots.wellFormed.intact hedges
    exact ⟨childInum, front, name, parentInum, hadded, hfront, hparent, hdots.dir⟩
  · rw [nameIUncached_eq] at hmissing
    obtain ⟨hflag, inum, currTime, rfl, hadded, hchild⟩ :=
      altfsOpen_created h hnames hmissing hrun hr
    refine ⟨hflag, inum, rfl, hadded, ?_, ?_⟩
    · rw [hchild]
      rfl
    · rw [hchild]
      rfl

omit [Config] in
/-- `/f` is made on a fresh device and unlinked. -/
theorem oneNameChanges_unlinked :
    letI := Config.ofBlocks 67 (by decide)
    ∃ s t u inum,
      altfsMknod (pathOf [[letterF]]) (sIfreg ||| defaultPermissions) s = some (true, t) ∧
      PathAdded s [[letterF]] inum t ∧ altfsUnlink (pathOf [[letterF]]) t = some (0, u) ∧
      PathRemoved t [[letterF]] u := by
  let _ := Config.ofBlocks 67 (by decide)
  obtain ⟨s₀, s, hmake, hsetup⟩ := makefs_setup_run FileSystem.blank (by decide) (by decide)
  obtain ⟨free, root, hfresh, hwell, hready⟩ := mounted_of_makefs hmake hsetup
  obtain ⟨t, inum, entries, hmknod, hconsistent, hone, -⟩ := hfresh.consistentFile hwell hready
  obtain ⟨currTime, hnode⟩ := hone.node
  have hfile : (t.inodeAt (inumIndex inum)).isDir = false := by
    rw [hnode]
    exact isDir_freshFile currTime
  have hready' : Ready t ((pathOf ([] ++ [[letterF]])).length + ((pathOf []).length + 900)) :=
    hone.ready.mono (by decide)
  obtain ⟨u, hunlink⟩ :=
    altfsUnlink_run hone.tree (by simpa using isComponent_f) hready' rfl hone.child hfile
  obtain ⟨hfiles, -⟩ := oneNameChanges (hfresh.consistent hwell hready) components_f
  obtain ⟨-, -, -, hremoved⟩ := oneNameChanges hconsistent components_f
  obtain ⟨inum', hadded, -⟩ := hfiles _ t hmknod
  exact ⟨s, t, u, inum', hmknod, hadded, hunlink, hremoved u hunlink⟩

end Paths

end AltFs
