import AltFs.CacheKeys
import AltFs.FileStore
import AltFs.FileTree
import AltFs.Renames

/-!
# The state between two requests

`WholeTree s free`: the directories form a tree that reaches every allocated
inode, and the regular files have as many blocks as their size takes.  This
and a cache that is right about its paths, `Serving s free`, hold whenever no
request is being served.  `view s` is what a client sees.
-/

namespace AltFs

open Prog NamedTree

/-- An absolute path without empty components, `.` and `..`. -/
def Normal (path : CString) : Prop :=
  ∃ names, (∀ name ∈ names, IsComponent name) ∧ path = pathOf names

def nodeOf (s : FileSystem) (inum : Int64) : Node where
  mode := (s.inodeAt (inumIndex inum)).iMode
  content :=
    if (s.inodeAt (inumIndex inum)).isRegular then contentOf s (inumIndex inum) else []

section Normal

variable {names : List CString} {path parentPath name : CString}

theorem normal_pathOf (hnames : ∀ name ∈ names, IsComponent name) : Normal (pathOf names) :=
  ⟨names, hnames, rfl⟩

theorem Normal.parent (hparent : copyParentPath path = some parentPath) (h : Normal path) :
    Normal parentPath := by
  obtain ⟨names, hnames, rfl⟩ := h
  cases names using List.reverseRecOn with
  | nil => cases hparent
  | append_singleton front name =>
      have hname := hnames name (List.mem_append_right _ List.mem_cons_self)
      rw [copyParentPath_pathOf hname.ne_nil hname.slash_notMem] at hparent
      cases hparent
      exact normal_pathOf fun other hother => hnames other (List.mem_append_left _ hother)

end Normal

section Files

variable {s t : FileSystem} {node node' : Inode} {n : Nat} {inum : Int64}

theorem SoundInode.blockAt_ne_zero (h : SoundInode s node) {j : Nat}
    (hj : j < blockSize * node.iBlocksNum.toInt.toNat) : node.blockAt s (j / blockSize) ≠ 0 := by
  apply h.mapped.blockAt_ne_zero
  simp only [blockSize] at *
  omega

/-- A file is sound when another one with the same size and bytes is. -/
theorem FileSound.congr (h : FileSound s node) (hsize : node'.iFileSize = node.iFileSize)
    (hnum : node'.iBlocksNum = node.iBlocksNum)
    (hbyte : ∀ j < blockSize * node.iBlocksNum.toInt.toNat, fileByte t node' j = fileByte s node j) :
    FileSound t node' where
  nonneg := by
    rw [hsize]
    exact h.nonneg
  blocksNum := by
    rw [hnum, Inode.fileSize, hsize]
    exact h.blocksNum
  tail j hlow hhigh := by
    rw [hnum] at hhigh
    rw [Inode.fileSize, hsize] at hlow
    rw [hbyte j hhigh]
    exact h.tail j hlow hhigh

theorem FileSound.contentOf_congr (h : FileSound s (s.inodeAt n))
    (hsize : (t.inodeAt n).iFileSize = (s.inodeAt n).iFileSize)
    (hbyte : ∀ j < blockSize * (s.inodeAt n).iBlocksNum.toInt.toNat,
      fileByte t (t.inodeAt n) j = fileByte s (s.inodeAt n) j) : contentOf t n = contentOf s n := by
  have hle := h.fileSize_le
  unfold contentOf bytesAt Inode.fileSize
  rw [hsize]
  apply List.map_congr_left
  intro k hk
  apply hbyte
  have := List.mem_range.mp hk
  rw [Inode.fileSize] at hle
  omega

theorem nodeOf_of_isDir (hdir : (s.inodeAt (inumIndex inum)).isDir = true) :
    nodeOf s inum = ⟨(s.inodeAt (inumIndex inum)).iMode, []⟩ := by
  have hregular : (s.inodeAt (inumIndex inum)).isRegular = false := by
    cases hkind : (s.inodeAt (inumIndex inum)).isRegular with
    | false => rfl
    | true =>
        rw [Inode.isRegular_isDir hkind] at hdir
        cases hdir
  rw [nodeOf, hregular]
  rfl

end Files

variable [Config]

/-- The records of directory `n`: numbers that an inode can have, and its own under `.`. -/
structure ServedRecords (n : Nat) (node : Inode) (entries : List Entry) : Prop
    extends DirRecords node entries where
  valid : ∀ entry ∈ entries, ValidInum entry.2
  self : ∀ inum, ([dot], inum) ∈ entries → inum.toInt = n

/-- What holds of a single inode between two requests. -/
structure ServedInode (s : FileSystem) (n : Nat) : Prop where
  records : (s.inodeAt n).isDir = true → ∃ contents, DirContents s (s.inodeAt n) contents ∧
    ServedRecords n (s.inodeAt n) contents.flatten
  file : (s.inodeAt n).isRegular = true → FileSound s (s.inodeAt n)

section Records

variable {s : FileSystem} {node node' : Inode} {entries entries' : List Entry} {name : CString}
  {inum : Int64} {n : Nat}

theorem ServedRecords.added (h : ServedRecords n node entries)
    (hperm : entries'.Perm ((name, inum) :: entries)) (hnew : entries.lookup name = none)
    (hchildNum : node'.iChildNum = node.iChildNum + 1) (hlength : entries.length + 1 < 2 ^ 64)
    (hname : IsComponent name) (hinum : ValidInum inum) : ServedRecords n node' entries' where
  toDirRecords := h.toDirRecords.added hperm hnew hchildNum hlength
  valid entry hentry := by
    rcases List.mem_cons.mp (hperm.mem_iff.mp hentry) with rfl | hold
    · exact hinum
    · exact h.valid entry hold
  self other hother := by
    rcases List.mem_cons.mp (hperm.mem_iff.mp hother) with heq | hold
    · exact absurd (Prod.mk.inj heq).1.symm hname.ne_dot
    · exact h.self other hold

theorem ServedRecords.removed (h : ServedRecords n node entries)
    (hperm : entries.Perm ((name, inum) :: entries')) (hname : IsComponent name)
    (hchildNum : node'.iChildNum = node.iChildNum - 1) : ServedRecords n node' entries' where
  unique := by
    have hunique := (hperm.map Prod.fst).nodup_iff.mp h.unique
    exact (List.nodup_cons.mp hunique).2
  childNum := by
    have hone : (1 : UInt64).toNat = 1 := rfl
    have hlength := h.childNum
    rw [hperm.length_eq, List.length_cons] at hlength
    rw [hchildNum, UInt64.toNat_sub_of_le _ _ (by rw [UInt64.le_iff_toNat_le]; omega), hone]
    omega
  hasDot := by
    have hmem := (hperm.map Prod.fst).mem_iff.mp h.hasDot
    exact (List.mem_cons.mp hmem).resolve_left hname.ne_dot.symm
  hasDotDot := by
    have hmem := (hperm.map Prod.fst).mem_iff.mp h.hasDotDot
    exact (List.mem_cons.mp hmem).resolve_left hname.ne_dotDot.symm
  valid entry hentry := h.valid entry (hperm.mem_iff.mpr (List.mem_cons_of_mem _ hentry))
  self other hother := h.self other (hperm.mem_iff.mpr (List.mem_cons_of_mem _ hother))

theorem ServedInode.of_dir {contents : List (List Entry)}
    (hcontents : DirContents s (s.inodeAt n) contents)
    (hrecords : ServedRecords n (s.inodeAt n) contents.flatten) : ServedInode s n where
  records _ := ⟨contents, hcontents, hrecords⟩
  file hregular := by
    have hdir := Inode.isRegular_isDir hregular
    rw [hcontents.isDir] at hdir
    cases hdir

theorem ServedInode.of_zero (h : s.inodeAt n = Inode.zero) : ServedInode s n where
  records hdir := by
    rw [h] at hdir
    cases hdir
  file hregular := by
    rw [h] at hregular
    cases hregular

end Records

def view (s : FileSystem) : FileTree := labels (childOf s) rootInodeNum (nodeOf s)

/-- An edge of the tree leads to an inode that can be freed, under its only name. -/
structure ServedEdge (s : FileSystem) (name : CString) (inum : Int64) : Prop where
  component : IsComponent name
  valid : ValidInum inum
  notFixed : 3 ≤ inum.toInt
  allocated : (s.inodeAt (inumIndex inum)).iAllocated = true
  links : (s.inodeAt (inumIndex inum)).iLinksCount = 1

structure WholeTree (s : FileSystem) (free : Multiset Int64) : Prop extends WellFormed s free where
  root : ValidInum rootInodeNum
  rootDir : (s.inodeAt (inumIndex rootInodeNum)).isDir = true
  served : ∀ n < inodeCount, ServedInode s n
  edge : ∀ {parentInum name inum}, childOf s parentInum name = some inum → ServedEdge s name inum
  tree : IsTree (childOf s) rootInodeNum
  reached : ∀ {inum}, ValidInum inum → (s.inodeAt (inumIndex inum)).iAllocated = true →
    Reached (childOf s) rootInodeNum inum

structure Serving (s : FileSystem) (free : Multiset Int64) : Prop extends WholeTree s free where
  coherent : Coherent s
  normal : KeysIn Normal s

namespace WholeTree

variable {s t : FileSystem} {free : Multiset Int64} {names : List CString} {inum : Int64}

theorem treeFormed (h : WholeTree s free) : TreeFormed s free where
  toWellFormed := h.toWellFormed
  root := h.root
  rootDir := h.rootDir
  records n hn hdir := by
    obtain ⟨contents, hcontents, hrecords⟩ := (h.served n hn).records hdir
    exact ⟨contents, hcontents, hrecords.toDirRecords⟩
  child hchild := ⟨(h.edge hchild).valid, (h.edge hchild).allocated⟩
  tree := h.tree

theorem rooted (h : WholeTree s free) : Rooted s := h.treeFormed.rooted

theorem allocated (h : WholeTree s free)
    (hnode : follow (childOf s) rootInodeNum names = some inum) :
    (s.inodeAt (inumIndex inum)).iAllocated = true := by
  cases names using List.reverseRecOn with
  | nil =>
      cases hnode
      exact h.toWellFormed.isAllocated h.root.index_lt h.rootDir
  | append_singleton front name =>
      rw [follow_concat] at hnode
      obtain ⟨parentInum, -, hchild⟩ := Option.bind_eq_some_iff.mp hnode
      exact (h.edge hchild).allocated

theorem isRegular (h : WholeTree s free)
    (hnode : follow (childOf s) rootInodeNum names = some inum) :
    (s.inodeAt (inumIndex inum)).isRegular = (nodeOf s inum).isRegular := by
  rw [Inode.isRegular, h.allocated hnode, Bool.true_and]
  rfl

end WholeTree

/-- What every operation leaves behind: a whole tree, with the same blocks in all. -/
def Served (s : FileSystem) (free : Multiset Int64) (t : FileSystem) : Prop :=
  Coherent t ∧ ∃ free', WholeTree t free' ∧ free' + tableBlocks t = free + tableBlocks s

section

variable {s t : FileSystem} {free : Multiset Int64} {names : List CString} {inum : Int64}

theorem view_eq_some (hfollow : follow (childOf s) rootInodeNum names = some inum) :
    view s names = some (nodeOf s inum) := labels_eq_some hfollow

theorem view_eq_none_iff : view s names = none ↔ follow (childOf s) rootInodeNum names = none :=
  labels_eq_none_iff

end

/-! ## What does not change -/

section Kept

variable {s t : FileSystem} {free free' : Multiset Int64} {S : Finset Nat} {n : Nat} {inum : Int64}

namespace KeptOutside

variable (h : KeptOutside S s t) (hs : Sound s free) (hn : n < inodeCount) (hnot : n ∉ S)

include h hs hn hnot

theorem fileByte_eq {j : Nat} (hj : j < blockSize * (s.inodeAt n).iBlocksNum.toInt.toNat) :
    AltFs.fileByte t (t.inodeAt n) j = AltFs.fileByte s (s.inodeAt n) j :=
  h.fileByte hn hnot j ((hs.inodes n hn).blockAt_ne_zero hj)

theorem servedInode (hserved : ServedInode s n) : ServedInode t n := by
  have hat := h.inodeAt n hn hnot
  constructor
  · intro hdir
    rw [hat] at hdir ⊢
    obtain ⟨contents, hcontents, hrecords⟩ := hserved.records hdir
    exact ⟨contents, hcontents.of_disk_eq (h.disk n hn hnot), hrecords⟩
  · intro hregular
    rw [hat] at hregular
    apply (hserved.file hregular).congr
    · rw [hat]
    · rw [hat]
    · exact fun j hj => h.fileByte_eq hs hn hnot hj

theorem contentOf_eq (hserved : ServedInode s n) (hregular : (s.inodeAt n).isRegular = true) :
    contentOf t n = contentOf s n := by
  apply (hserved.file hregular).contentOf_congr
  · rw [h.inodeAt n hn hnot]
  · exact fun j hj => h.fileByte_eq hs hn hnot hj

end KeptOutside

theorem KeptOutside.nodeOf_eq (h : KeptOutside S s t) (hs : Sound s free) (hinum : ValidInum inum)
    (hnot : inumIndex inum ∉ S) (hserved : ServedInode s (inumIndex inum)) :
    nodeOf t inum = nodeOf s inum := by
  have hn := hinum.index_lt
  unfold nodeOf
  rw [h.inodeAt _ hn hnot]
  split
  next hregular =>
    rw [h.contentOf_eq hs hn hnot hserved hregular]
  next => rfl

theorem KeptOutside.tableBlocks_eq (h : KeptOutside ∅ s t) : tableBlocks t = tableBlocks s := by
  unfold tableBlocks
  apply Finset.sum_congr rfl
  intro m hm
  have hn := Finset.mem_range.mp hm
  rw [h.inodeAt m hn (Finset.notMem_empty m), (h.kept hn (Finset.notMem_empty m)).blocks]

/-- Nothing changes in the tree when no inode and none of its blocks does. -/
theorem WholeTree.kept (h : WholeTree s free) (hwell : WellFormed t free')
    (hout : KeptOutside ∅ s t) : WholeTree t free' ∧ view t = view s := by
  have hat : ∀ {k}, ValidInum k → t.inodeAt (inumIndex k) = s.inodeAt (inumIndex k) := fun hk =>
    hout.inodeAt _ hk.index_lt (Finset.notMem_empty _)
  have hchildOf : childOf t = childOf s := by
    funext parentInum name
    apply childOf_congr
    exact hout.lookupIn_eq h.intact hwell.intact (fun _ => Finset.notMem_empty _) name
  constructor
  · constructor
    · exact hwell
    · exact h.root
    · rw [hat h.root]
      exact h.rootDir
    · intro n hn
      exact hout.servedInode h.toSound hn (Finset.notMem_empty n) (h.served n hn)
    · intro parentInum name inum hchild
      rw [hchildOf] at hchild
      obtain ⟨hcomponent, hvalid, hfixed, hallocated, hlinks⟩ := h.edge hchild
      exact ⟨hcomponent, hvalid, hfixed, by rwa [hat hvalid], by rwa [hat hvalid]⟩
    · rw [hchildOf]
      exact h.tree
    · intro inum hvalid hallocated
      rw [hat hvalid] at hallocated
      rw [hchildOf]
      exact h.reached hvalid hallocated
  · rw [view, hchildOf]
    apply labels_congr
    intro path k hk
    have hvalid := h.rooted.valid hk
    exact hout.nodeOf_eq h.toSound hvalid (Finset.notMem_empty _) (h.served _ hvalid.index_lt)

theorem SameButCache.wholeTree (hsame : SameButCache s t) (h : WholeTree s free) :
    WholeTree t free :=
  (h.kept (hsame.wellFormed h.toWellFormed) (hsame.outside ∅)).1

theorem SameButCache.view_eq (hsame : SameButCache s t) (h : WholeTree s free) :
    view t = view s :=
  (h.kept (hsame.wellFormed h.toWellFormed) (hsame.outside ∅)).2

theorem SameButCache.served (hsame : SameButCache s t) (h : WholeTree s free)
    (hcoherent : Coherent t) : Served s free t :=
  ⟨hcoherent, free, hsame.wholeTree h, by rw [hsame.tableBlocks_eq]⟩

/-- A lookup at the start of an operation. -/
theorem nameI_wholeTree {names : List CString} (h : WholeTree s free) (hcoherent : Coherent s)
    (hnames : ∀ name ∈ names, IsComponent name) (hname : nameI (pathOf names) s = some (inum, t)) :
    SameButCache s t ∧ Coherent t ∧ (inum = -1 ∧ view s names = none ∨
      inum ≠ -1 ∧ follow (childOf s) rootInodeNum names = some inum) := by
  obtain ⟨hwalk, hcoherent'⟩ := nameI_walk hcoherent hname
  refine ⟨nameI_sameButCache hname, hcoherent', ?_⟩
  by_cases hfound : inum = -1
  · rw [hfound, h.rooted.walk_eq_minusOne hnames] at hwalk
    exact .inl ⟨hfound, view_eq_none_iff.mpr hwalk⟩
  · rw [h.rooted.walk_eq_some hnames hfound] at hwalk
    exact .inr ⟨hfound, hwalk⟩

end Kept

end AltFs
