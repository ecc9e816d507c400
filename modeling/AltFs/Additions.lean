import AltFs.PathChanges
import AltFs.Serving

/-!
# Adding a name between two requests

`altfs_mknod` and `altfs_mkdir`: a new inode without content appears under its
path, or nothing changes.
-/

namespace AltFs

open Prog NamedTree

variable [Config]

section Tree

variable {s t : FileSystem} {free free' : Multiset Int64} {parentInum childInum inum : Int64}
  {name : CString} {names : List CString} {mode : UInt32}

/-- An inode that was vacant has become the child `name` of a directory. -/
structure NameAdded (s : FileSystem) (parentInum : Int64) (name : CString) (childInum : Int64)
    (mode : UInt32) (t : FileSystem) : Prop where
  component : IsComponent name
  valid : ValidInum childInum
  notFixed : 3 ≤ childInum.toInt
  vacant : s.inodeAt (inumIndex childInum) = Inode.zero
  outside : KeptOutside {inumIndex parentInum, inumIndex childInum} s t
  parentDir : (s.inodeAt (inumIndex parentInum)).isDir = true
  parentKind : SameKind (s.inodeAt (inumIndex parentInum)) (t.inodeAt (inumIndex parentInum))
  parentServed : ServedInode t (inumIndex parentInum)
  childMark : (t.inodeAt (inumIndex childInum)).iAllocated = true
  childLinks : (t.inodeAt (inumIndex childInum)).iLinksCount = 1
  childServed : ServedInode t (inumIndex childInum)
  childNode : nodeOf t childInum = ⟨mode, []⟩
  missing : childOf s parentInum name = none
  edge : childOf t parentInum name = some childInum
  other : ∀ i n, ¬(i = parentInum ∧ n = name) → childOf t i n = childOf s i n
  leaf : ∀ n, childOf t childInum n = none

theorem NameAdded.wholeTree (hadded : NameAdded s parentInum name childInum mode t)
    (h : WholeTree s free) (hwell : WellFormed t free')
    (hparent : follow (childOf s) rootInodeNum names = some parentInum) :
    WholeTree t free' ∧ view t = (view s).put (names ++ [name]) ⟨mode, []⟩ := by
  have hvalid := h.rooted.valid hparent
  have hout : ∀ {k}, ValidInum k → k ≠ parentInum → k ≠ childInum →
      inumIndex k ∉ ({inumIndex parentInum, inumIndex childInum} : Finset Nat) := by
    intro k hk hne hne' hmem
    rcases Finset.mem_insert.mp hmem with heq | heq
    · exact hne (hk.eq_of_index hvalid heq)
    · exact hne' (hk.eq_of_index hadded.valid (Finset.mem_singleton.mp heq))
  have hinUse : ∀ {k}, (s.inodeAt (inumIndex k)).iAllocated = true → k ≠ childInum := by
    rintro k hallocated rfl
    rw [hadded.vacant] at hallocated
    cases hallocated
  -- an inode that was in use keeps its mode, its mark and its links
  have hkept : ∀ {k}, ValidInum k → k ≠ childInum →
      SameKind (s.inodeAt (inumIndex k)) (t.inodeAt (inumIndex k)) := by
    intro k hk hne
    by_cases hself : k = parentInum
    · rw [hself]
      exact hadded.parentKind
    · rw [hadded.outside.inodeAt _ hk.index_lt (hout hk hself hne)]
      exact ⟨rfl, rfl, rfl⟩
  have hunnamed : ∀ k n, childOf s k n ≠ some childInum := fun k n hchild =>
    hinUse (h.edge hchild).allocated rfl
  have hroot : rootInodeNum ≠ childInum :=
    hinUse (h.toWellFormed.isAllocated h.root.index_lt h.rootDir)
  constructor
  · constructor
    · exact hwell
    · exact h.root
    · rw [isDir_congr (hkept h.root hroot).mode]
      exact h.rootDir
    · intro n hn
      by_cases hmem : n ∈ ({inumIndex parentInum, inumIndex childInum} : Finset Nat)
      · rcases Finset.mem_insert.mp hmem with rfl | heq
        · exact hadded.parentServed
        · rw [Finset.mem_singleton.mp heq]
          exact hadded.childServed
      · exact hadded.outside.servedInode h.toSound hn hmem (h.served n hn)
    · intro i other k hfound
      by_cases hpair : i = parentInum ∧ other = name
      · rw [hpair.1, hpair.2, hadded.edge] at hfound
        cases hfound
        rw [hpair.2]
        exact ⟨hadded.component, hadded.valid, hadded.notFixed, hadded.childMark, hadded.childLinks⟩
      · rw [hadded.other i other hpair] at hfound
        obtain ⟨hcomponent, hk, hfixed, hallocated, hlinks⟩ := h.edge hfound
        have hkind := hkept hk (hinUse hallocated)
        exact ⟨hcomponent, hk, hfixed, hkind.mark.trans hallocated, hkind.links.trans hlinks⟩
    · exact h.tree.added hunnamed hroot.symm hadded.edge hadded.other
    · intro k hk hallocated
      apply h.tree.reached_added hparent hadded.edge hadded.other hadded.missing hadded.leaf
      by_cases hself : k = childInum
      · exact .inl hself
      · rw [(hkept hk hself).mark] at hallocated
        exact .inr (h.reached hk hallocated)
  · rw [← hadded.childNode]
    apply h.tree.labels_added hparent hadded.edge hadded.other hadded.missing hadded.leaf
    intro path k hpath
    have hk := h.rooted.valid hpath
    have hne : k ≠ childInum := by
      rintro rfl
      cases path using List.reverseRecOn with
      | nil => exact hroot (Option.some.inj hpath)
      | append_singleton front last =>
          rw [follow_concat] at hpath
          obtain ⟨i, -, hchild⟩ := Option.bind_eq_some_iff.mp hpath
          exact hunnamed i last hchild
    by_cases hself : k = parentInum
    · rw [hself, nodeOf_of_isDir hadded.parentDir, nodeOf_of_isDir, hadded.parentKind.mode]
      rw [isDir_congr hadded.parentKind.mode]
      exact hadded.parentDir
    · exact hadded.outside.nodeOf_eq h.toSound hk (hout hk hself hne) (h.served _ hk.index_lt)

end Tree

section Created

variable {s t u : FileSystem} {free free₁ free' : Multiset Int64} {parentInum childInum : Int64}
  {name : CString} {mode : UInt32} {contents contents' : List (List Entry)} {currTime : Int64}

omit [Config] in
theorem nodeOf_fresh
    (hchild : t.inodeAt (inumIndex childInum) = Inode.zero.marked.fresh mode currTime) :
    nodeOf t childInum = ⟨mode, []⟩ := by
  rw [nodeOf, contentOf, hchild]
  split
  next => rfl
  next => rfl

theorem servedInode_fresh {n : Nat} (hchild : t.inodeAt n = Inode.zero.marked.fresh mode currTime)
    (hfile : mode &&& 0xF000 ≠ sIfdir) : ServedInode t n := by
  constructor
  · intro hdir
    rw [hchild] at hdir
    exact absurd (of_decide_eq_true hdir) hfile
  · intro _
    rw [hchild]
    refine ⟨le_rfl, ?_, fun j _ hj => absurd hj (Nat.not_lt_zero j)⟩
    simp [Inode.fresh, Inode.fileSize, blockSize]

theorem ValidInum.servedRecords_dots {node : Inode} (hinum : ValidInum childInum)
    (hparent : ValidInum parentInum) (hchildNum : node.iChildNum = 2) :
    ServedRecords (inumIndex childInum) node [dots childInum parentInum].flatten where
  unique := by simp [dots]
  childNum := by
    rw [hchildNum]
    rfl
  hasDot := by simp [dots]
  hasDotDot := by simp [dots]
  valid entry hentry := by
    simp only [dots, List.flatten_cons, List.flatten_nil, List.append_nil, List.mem_cons,
      List.not_mem_nil, or_false] at hentry
    rcases hentry with rfl | rfl
    · exact hinum
    · exact hparent
  self inum hself := by
    simp [dots] at hself
    rw [hself]
    exact hinum.index_eq.symm

variable (h : WholeTree s free)
  (hcreated : Created s free parentInum childInum name mode contents u free₁ contents')
  (hdir : DirContents s (s.inodeAt (inumIndex parentInum)) contents)
  (hnew : contents.flatten.lookup name = none) (hname : IsComponent name)

include hcreated

omit h in
theorem Created.ne_parent (hdir : DirContents s (s.inodeAt (inumIndex parentInum)) contents) :
    inumIndex parentInum ≠ inumIndex childInum := by
  intro heq
  have hisDir := hdir.isDir
  rw [heq, hcreated.vacant] at hisDir
  cases hisDir

omit h in
theorem Created.outside : KeptOutside {inumIndex parentInum, inumIndex childInum} s u where
  inodeAt n hn hmem := (hcreated.other n hn (by grind) (by grind)).1
  disk n hn hmem := (hcreated.other n hn (by grind) (by grind)).2

include h

theorem Created.notFixed : 3 ≤ childInum.toInt := by
  have hstart := h.first.least.start_le
  rw [hcreated.least]
  omega

include hdir

theorem Created.records (hnew : contents.flatten.lookup name = none) (hname : IsComponent name) :
    ServedRecords (inumIndex parentInum) (u.inodeAt (inumIndex parentInum)) contents'.flatten := by
  obtain ⟨records, hcontents, hrecords⟩ :=
    (h.served _ hcreated.validParent.index_lt).records hdir.isDir
  obtain rfl := hdir.unique hcontents
  obtain ⟨node, hnode⟩ := hcreated.parent
  apply hrecords.added hcreated.entries hnew
  · rw [hnode]
  · exact hdir.length_flatten_lt
  · exact hname
  · exact hcreated.valid

include hnew hname

theorem Created.nameAdded (hfile : mode &&& 0xF000 ≠ sIfdir) :
    NameAdded s parentInum name childInum mode u := by
  obtain ⟨currTime, hchild⟩ := hcreated.child
  obtain ⟨node, hnode⟩ := hcreated.parent
  constructor
  · exact hname
  · exact hcreated.valid
  · exact hcreated.notFixed h
  · exact hcreated.vacant
  · exact hcreated.outside
  · exact hdir.isDir
  · rw [hnode]
    exact ⟨rfl, rfl, rfl⟩
  · exact .of_dir hcreated.dir (hcreated.records h hdir hnew hname)
  · exact hcreated.allocated_child
  · rw [hchild]
    rfl
  · exact servedInode_fresh hchild hfile
  · exact nodeOf_fresh hchild
  · rw [childOf_eq hname, h.lookupIn_dir hcreated.validParent hdir, hnew]
    rfl
  · exact hcreated.childOf_name hnew hname
  · exact hcreated.childOf_other h.treeFormed hdir
  · exact hcreated.childOf_child h.treeFormed hdir

/-- A new directory with its two records. -/
theorem Created.nameAdded_dir (hdots : DotsWritten u free₁ childInum parentInum t free') :
    NameAdded s parentInum name childInum mode t := by
  obtain ⟨currTime, hchild⟩ := hcreated.child
  obtain ⟨node, hnode⟩ := hcreated.parent
  obtain ⟨dotsNode, hdotsNode⟩ := hdots.node
  have hp := hcreated.validParent.index_lt
  have hne := hcreated.ne_parent hdir
  have hparent : t.inodeAt (inumIndex parentInum) = u.inodeAt (inumIndex parentInum) :=
    hdots.others.inodeAt _ hp hne
  have hchildOf := hdots.childOf_eq hcreated.wellFormed hcreated.valid hcreated.emptyMap_child
  rw [hchild] at hdotsNode
  constructor
  · exact hname
  · exact hcreated.valid
  · exact hcreated.notFixed h
  · exact hcreated.vacant
  · exact hcreated.outside.trans (hdots.others.outside.mono (by simp))
  · exact hdir.isDir
  · rw [hparent, hnode]
    exact ⟨rfl, rfl, rfl⟩
  · have hrecords := hcreated.records h hdir hnew hname
    rw [← hparent] at hrecords
    refine .of_dir ?_ hrecords
    rw [hparent]
    apply hcreated.dir.of_disk_eq
    exact hdots.others.outside.disk _ hp fun hmem => hne (Finset.mem_singleton.mp hmem)
  · rw [hdotsNode]
    rfl
  · rw [hdotsNode]
    rfl
  · apply ServedInode.of_dir hdots.dir
    apply hcreated.valid.servedRecords_dots hcreated.validParent
    rw [hdotsNode]
    rfl
  · rw [nodeOf_of_isDir hdots.dir.isDir, hdotsNode]
    rfl
  · rw [childOf_eq hname, h.lookupIn_dir hcreated.validParent hdir, hnew]
    rfl
  · rw [hchildOf]
    exact hcreated.childOf_name hnew hname
  · rw [hchildOf]
    exact hcreated.childOf_other h.treeFormed hdir
  · rw [hchildOf]
    exact hcreated.childOf_child h.treeFormed hdir

end Created

section Operation

variable {s t : FileSystem} {free : Multiset Int64} {parentInum : Int64} {name : CString}
  {names : List CString} {mode : UInt32} {contents : List (List Entry)} {code : Int} {done : Bool}

/-- The directory, with its contents, in which the path has its record. -/
def PlaceOf (s : FileSystem) (names : List CString) (parentInum : Int64) (name : CString)
    (contents : List (List Entry)) : Prop :=
  ∃ front, names = front ++ [name] ∧ follow (childOf s) rootInodeNum front = some parentInum ∧
    DirContents s (s.inodeAt (inumIndex parentInum)) contents

/-- The record finds its block. -/
def RoomForRecord (s : FileSystem) (free : Multiset Int64) (names : List CString) : Prop :=
  ∀ parentInum name contents, PlaceOf s names parentInum name contents →
    HasRoom free contents name

/-- An inode is vacant and its record finds its block. -/
def RoomForName (s : FileSystem) (free : Multiset Int64) (names : List CString) : Prop :=
  s.superblock.sFirstIno.toInt < inodeCount ∧ RoomForRecord s free names

/-- The directory does not run out of blocks between a data block and its indirect blocks. -/
def NoBlockLost (s : FileSystem) (free : Multiset Int64) (names : List CString) : Prop :=
  ∀ parentInum name contents, PlaceOf s names parentInum name contents →
    HasRoom free contents name ∨ maxFileNameLength < name.length ∨ free = 0

theorem SameButCache.placeOf (hsame : SameButCache s t)
    (hplace : PlaceOf t names parentInum name contents) :
    PlaceOf s names parentInum name contents := by
  obtain ⟨front, heq, hfollow, hcontents⟩ := hplace
  rw [hsame.childOf_eq] at hfollow
  rw [hsame.inodeAt] at hcontents
  exact ⟨front, heq, hfollow, hsame.symm.dirContents hcontents⟩

theorem Undone.outside (h : Undone s free t) : KeptOutside ∅ s t where
  inodeAt _ hn _ := h.inodeAt _ hn
  disk _ hn _ b hb := h.disk b (Multiset.mem_of_le (blocks_le_tableBlocks hn) hb)

variable (h : WholeTree s free) (hnames : ∀ name ∈ names, IsComponent name)

include h hnames

theorem Attempted.placeOf (hmissing : follow (childOf s) rootInodeNum names = none)
    (hattempted : Attempted s (pathOf names) parentInum name) :
    ∃ contents, PlaceOf s names parentInum name contents := by
  obtain ⟨contents, hcontents⟩ := h.dirs _ hattempted.valid.index_lt hattempted.isDir
  obtain ⟨front, heq, -, -, hfollow, -⟩ := hattempted.place h.treeFormed hnames
    ((h.rooted.walk_eq_minusOne hnames).mpr hmissing) hcontents
  exact ⟨contents, front, heq, hfollow, hcontents⟩

theorem Attempted.mayCreate (hmissing : follow (childOf s) rootInodeNum names = none)
    (hattempted : Attempted s (pathOf names) parentInum name)
    (hshort : name.length ≤ maxFileNameLength) : (view s).MayCreate names := by
  obtain ⟨contents, front, heq, hfollow, -⟩ := hattempted.placeOf h hnames hmissing
  exact ⟨view_eq_none_iff.mpr hmissing, front, name, _, heq, view_eq_some hfollow,
    hattempted.isDir, hattempted.canWrite, hshort⟩

theorem WholeTree.attempted (hmay : (view s).MayCreate names)
    (hvacant : s.superblock.sFirstIno.toInt < inodeCount) :
    ∃ parentInum name, Attempted s (pathOf names) parentInum name := by
  obtain ⟨-, front, name, node, rfl, hnode, hdir, hwrite, -⟩ := hmay
  have hname := hnames name (List.mem_append_right _ List.mem_cons_self)
  have hfront : ∀ other ∈ front, IsComponent other := fun other hother =>
    hnames other (List.mem_append_left _ hother)
  obtain ⟨parentInum, hfollow, rfl⟩ := Option.map_eq_some_iff.mp hnode
  have hvalid := h.rooted.valid hfollow
  refine ⟨parentInum, name, copyFileName_pathOf hname.ne_nil hname.slash_notMem, ⟨pathOf front,
    copyParentPath_pathOf hname.ne_nil hname.slash_notMem, ?_⟩, hvalid, hdir, hwrite, hvacant⟩
  exact (h.rooted.walk_eq_some hfront hvalid.ne_minusOne).mpr hfollow

/-- `create_new_file` without success leaves the tree as it was. -/
theorem createNewFile_refused (hcoherent : Coherent s)
    (hmissing : follow (childOf s) rootInodeNum names = none) (hkeeps : NoBlockLost s free names)
    (hrun : createNewFile (pathOf names) mode s = some (.error code, t)) :
    WholeTree t free ∧ tableBlocks t = tableBlocks s ∧ view t = view s ∧ Coherent t ∧
      ¬((view s).MayCreate names ∧ RoomForName s free names) := by
  rcases createNewFile_steps h.toWellFormed hcoherent hrun with
    ⟨-, hsame, hcoherent', hnone⟩ | ⟨parentInum, name, s₁, hattempted, hsame, hcoherent₁, houtcome⟩
  · refine ⟨hsame.wholeTree h, hsame.tableBlocks_eq, hsame.view_eq h, hcoherent', ?_⟩
    rintro ⟨hmay, hvacant, -⟩
    obtain ⟨parentInum, name, hattempted⟩ := h.attempted hnames hmay hvacant
    exact hnone parentInum name hattempted
  · obtain ⟨contents, hplace⟩ := hattempted.placeOf h hnames hmissing
    obtain ⟨-, -, -, hcontents⟩ := id hplace
    cases houtcome contents hcontents with
    | refused hroom hnamespace hblocks hlost hundone =>
        have hundo := hundone ((hkeeps _ _ _ hplace).resolve_left hroom)
        have h₁ := hsame.wholeTree h
        obtain ⟨htree, hview⟩ := h₁.kept hundo.wellFormed hundo.outside
        refine ⟨htree, ?_, hview.trans (hsame.view_eq h), ?_, fun hboth => ?_⟩
        · rw [hundo.outside.tableBlocks_eq, hsame.tableBlocks_eq]
        · apply hcoherent₁.mono hundo.cache
          intro i n value hlookup
          rw [hundo.outside.lookupIn_eq h₁.intact htree.intact fun _ => Finset.notMem_empty _]
          exact hlookup
        · exact hroom (hboth.2.2 _ _ _ hplace)

omit h hnames in
/-- What `create_new_file` found room for, it had room for. -/
theorem Created.hasRoom {s₁ : FileSystem} {childInum : Int64} {free' : Multiset Int64}
    {contents' : List (List Entry)}
    (hcreated : Created s₁ free parentInum childInum name mode contents t free' contents') :
    HasRoom free contents name := by
  refine ⟨hcreated.dir.short (hcreated.entries.mem_iff.mpr List.mem_cons_self), ?_⟩
  rcases hcreated.room with ⟨hfits, -⟩ | ⟨-, hlength, hcost⟩
  · exact .inl hfits
  · exact .inr ⟨hlength, by omega⟩

omit h hnames in
theorem PlaceOf.unique {parentInum' : Int64} {name' : CString} {contents' : List (List Entry)}
    (hplace : PlaceOf s names parentInum name contents)
    (hplace' : PlaceOf s names parentInum' name' contents') : name' = name ∧ contents' = contents := by
  obtain ⟨front, rfl, hfollow, hcontents⟩ := hplace
  obtain ⟨front', heq, hfollow', hcontents'⟩ := hplace'
  obtain ⟨rfl, hlast⟩ := List.append_inj' heq rfl
  rw [hfollow, Option.some_inj] at hfollow'
  rw [← hfollow'] at hcontents'
  exact ⟨(List.cons.inj hlast).1.symm, hcontents'.unique hcontents⟩

/-- A file or a directory that has been created is in the tree. -/
theorem Created.creates {s₁ u : FileSystem} {childInum : Int64} {free' free₁ : Multiset Int64}
    {contents' : List (List Entry)} (hsame : SameButCache s s₁)
    (hmissing : follow (childOf s) rootInodeNum names = none)
    (hattempted : Attempted s (pathOf names) parentInum name)
    (hdir : DirContents s (s.inodeAt (inumIndex parentInum)) contents)
    (hcreated : Created s₁ free parentInum childInum name mode contents u free₁ contents')
    (hadded : NameAdded s₁ parentInum name childInum mode t) (hwell : WellFormed t free') :
    FileTree.Creates (view s) (RoomForName s free names) names mode true (view t) ∧
      WholeTree t free' := by
  obtain ⟨contents₀, front, heq, hfollow, hcontents⟩ := hattempted.placeOf h hnames hmissing
  obtain rfl := hdir.unique hcontents
  have hplace : PlaceOf s names parentInum name contents := ⟨front, heq, hfollow, hcontents⟩
  have hmay := hattempted.mayCreate h hnames hmissing hcreated.hasRoom.1
  rw [← hsame.childOf_eq] at hfollow
  obtain ⟨htree, hview⟩ := hadded.wholeTree (hsame.wholeTree h) hwell hfollow
  rw [hview, hsame.view_eq h, ← heq]
  refine ⟨.done hmay ⟨hattempted.vacant, fun parentInum' name' contents' hplace' => ?_⟩, htree⟩
  obtain ⟨rfl, rfl⟩ := hplace.unique hplace'
  exact hcreated.hasRoom

/-- What is true of the states after a creation. -/
def CreatedOrNot (s : FileSystem) (free : Multiset Int64) (names : List CString) (mode : UInt32)
    (done : Bool) (t : FileSystem) : Prop :=
  FileTree.Creates (view s) (RoomForName s free names) names mode done (view t) ∧ Served s free t

private theorem created_exists {inum : Int64} (hcoherent : Coherent s)
    (hname : nameI (pathOf names) s = some (inum, t)) (hfound : inum ≠ -1) :
    CreatedOrNot s free names mode false t := by
  have hsame := nameI_sameButCache hname
  obtain ⟨hwalk, hcoherent'⟩ := nameI_walk hcoherent hname
  refine ⟨?_, hcoherent', free, hsame.wholeTree h, by rw [hsame.tableBlocks_eq]⟩
  rw [hsame.view_eq h]
  apply FileTree.Creates.refused
  rintro ⟨⟨hnone, -⟩, -⟩
  rw [view_eq_none_iff, ← h.rooted.walk_eq_minusOne hnames, hwalk, Option.some_inj] at hnone
  exact hfound hnone

private theorem created_refused {s₀ : FileSystem} (hcoherent : Coherent s)
    (hkeeps : NoBlockLost s free names) (hname : nameI (pathOf names) s = some (-1, s₀))
    (hcreate : createNewFile (pathOf names) mode s₀ = some (.error code, t)) :
    CreatedOrNot s free names mode false t := by
  have hsame := nameI_sameButCache hname
  obtain ⟨hwalk, hcoherent₀⟩ := nameI_walk hcoherent hname
  rw [h.rooted.walk_eq_minusOne hnames] at hwalk
  obtain ⟨htree, htable, hview, hcoherent', hnot⟩ := createNewFile_refused (hsame.wholeTree h) hnames
    hcoherent₀ (by rw [hsame.childOf_eq]; exact hwalk)
    (fun _ _ _ hplace => hkeeps _ _ _ (hsame.placeOf hplace)) hcreate
  rw [hsame.view_eq h] at hview hnot
  refine ⟨?_, hcoherent', free, htree, by rw [htable, hsame.tableBlocks_eq]⟩
  rw [hview]
  apply FileTree.Creates.refused
  rintro ⟨hmay, hvacant, hroom⟩
  refine hnot ⟨hmay, ?_, fun _ _ _ hplace => hroom _ _ _ (hsame.placeOf hplace)⟩
  obtain ⟨cache, rfl⟩ := hsame
  exact hvacant

theorem altfsMknod_wholeTree (hcoherent : Coherent s) (hmode : mode &&& 0xF000 ≠ sIfdir)
    (hkeeps : NoBlockLost s free names)
    (hrun : altfsMknod (pathOf names) mode s = some (done, t)) :
    CreatedOrNot s free names mode done t := by
  cases done with
  | false =>
      obtain ⟨inum, s₀, hname, hrest⟩ := bind_eq_some_iff.mp hrun
      split at hrest
      next hfound =>
        cases hrest
        exact created_exists h hnames hcoherent hname hfound
      next hmissing =>
      obtain rfl : inum = -1 := not_not.mp hmissing
      obtain ⟨r, u, hcreate, hrest⟩ := bind_eq_some_iff.mp hrest
      cases r with
      | ok new => cases hrest
      | error code =>
          cases hrest
          exact created_refused h hnames hcoherent hkeeps hname hcreate
  | true =>
      obtain ⟨hwalk, s₁, free', parentInum, childInum, name, contents, contents', hsame, hcoherent₁,
        hattempted, hcontents, hcreated⟩ := altfsMknod_true h.toWellFormed hcoherent hrun
      have hmissing := (h.rooted.walk_eq_minusOne hnames).mp hwalk
      obtain ⟨-, -, hname, -, -, -, hnew⟩ := hattempted.place h.treeFormed hnames hwalk hcontents
      have h₁ := hsame.wholeTree h
      have hcontents₁ := hsame.dirContents hcontents
      rw [← hsame.inodeAt] at hcontents₁
      have hadded := hcreated.nameAdded h₁ hcontents₁ hnew hname hmode
      obtain ⟨hcreates, htree⟩ := hcreated.creates h hnames hsame hmissing hattempted hcontents hadded
        hcreated.wellFormed
      refine ⟨hcreates, hcreated.coherent h₁.toWellFormed hcontents₁ hcoherent₁ hnew, free', htree, ?_⟩
      rw [hcreated.conserved, hsame.tableBlocks_eq]

omit h hnames in
/-- The records `.` and `..` do not change what a path leads to. -/
theorem DotsWritten.coherent {u : FileSystem} {free₁ free' : Multiset Int64} {childInum : Int64}
    (hdots : DotsWritten u free₁ childInum parentInum t free') (hwell : WellFormed u free₁)
    (hvalid : ValidInum childInum) (hempty : (u.inodeAt (inumIndex childInum)).EmptyMap)
    (hcoherent : Coherent u) : Coherent t := by
  apply hcoherent.mono hdots.cache
  intro i n value hlookup
  by_cases hself : i = childInum
  · -- the new directory had no records
    rw [hself] at hlookup
    cases hisDir : (u.inodeAt (inumIndex childInum)).isDir with
    | true =>
        rw [hwell.lookupIn_dir hvalid (.nil hisDir hempty)] at hlookup
        cases hlookup
    | false =>
        rw [lookupIn_notDir hwell.stored.toTableFormat hvalid hisDir] at hlookup
        cases hlookup
  · rw [hdots.others.outside.lookupIn_eq hwell.intact hdots.wellFormed.intact]
    · exact hlookup
    · intro hi hmem
      exact hself (hi.eq_of_index hvalid (Finset.mem_singleton.mp hmem))

theorem altfsMkdir_wholeTree (hcoherent : Coherent s) (hkeeps : NoBlockLost s free names)
    (hstrands : ¬MkdirStrands s free (pathOf names) mode)
    (hrun : altfsMkdir (pathOf names) mode s = some (done, t)) :
    CreatedOrNot s free names (sIfdir ||| mode) done t := by
  cases done with
  | false =>
      obtain ⟨inum, s₀, hname, hrest⟩ := bind_eq_some_iff.mp hrun
      have hsame := nameI_sameButCache hname
      split at hrest
      next hfound =>
        cases hrest
        exact created_exists h hnames hcoherent hname hfound
      next hmissing =>
      obtain rfl : inum = -1 := not_not.mp hmissing
      obtain ⟨r, u, hcreate, hrest⟩ := bind_eq_some_iff.mp hrest
      cases r with
      | error code =>
          cases hrest
          exact created_refused h hnames hcoherent hkeeps hname hcreate
      | ok new =>
          -- the new directory would be stranded without its records
          obtain ⟨s₁, free₁, parentInum, name, contents, contents', hsame₁, -, -, -, hcreated, hnew⟩ :=
            createNewFile_ok (hsame.wellFormed h.toWellFormed) (nameI_walk hcoherent hname).2 hcreate
          have hto₁ := trans_of SameButCache hsame hsame₁
          obtain ⟨currTime, hchild⟩ := hcreated.child
          obtain ⟨⟨added, dirInode⟩, v, hadd, hrest⟩ := bind_eq_some_iff.mp hrest
          rw [hnew] at hadd
          cases added with
          | true =>
              obtain ⟨t', free', hwrite, -⟩ := @writeDots_run _ _ _ _ _ hcreated.wellFormed
                hcreated.valid hcreated.emptyMap_child (by rw [hchild]; rfl) (by rw [hchild]; rfl) _ _
                hadd
              simp [hwrite] at hrest
          | false =>
              cases hrest
              rcases addDots_run hcreated.wellFormed hcreated.valid hcreated.emptyMap_child
                parentInum with ⟨-, node', hdots⟩ | ⟨-, node₁, v₁, free', node₂, v₂, hdots, -⟩
              · rw [hdots] at hadd
                cases hadd
                have hnamespace :=
                  (altfsMkdir_false h.toWellFormed hcoherent hrun).mpr hstrands
                exact absurd ((hto₁.symm.sameNamespace (hto₁.wellFormed h.toWellFormed)).trans
                  hnamespace) hcreated.allocated
              · rw [hdots] at hadd
                cases hadd
  | true =>
      obtain ⟨hwalk, s₁, u, free₁, free', parentInum, childInum, name, contents, contents', hsame,
        hcoherent₁, hattempted, hcontents, hcreated, hdots⟩ :=
        altfsMkdir_true h.toWellFormed hcoherent hrun
      have hmissing := (h.rooted.walk_eq_minusOne hnames).mp hwalk
      obtain ⟨-, -, hname, -, -, -, hnew⟩ := hattempted.place h.treeFormed hnames hwalk hcontents
      have h₁ := hsame.wholeTree h
      have hcontents₁ := hsame.dirContents hcontents
      rw [← hsame.inodeAt] at hcontents₁
      have hadded := hcreated.nameAdded_dir h₁ hcontents₁ hnew hname hdots
      obtain ⟨hcreates, htree⟩ := hcreated.creates h hnames hsame hmissing hattempted hcontents hadded
        hdots.wellFormed
      refine ⟨hcreates, ?_, free', htree, ?_⟩
      · exact hdots.coherent hcreated.wellFormed hcreated.valid hcreated.emptyMap_child
          (hcreated.coherent h₁.toWellFormed hcontents₁ hcoherent₁ hnew)
      · rw [hdots.conserved, hcreated.conserved, hsame.tableBlocks_eq]

end Operation

end AltFs
