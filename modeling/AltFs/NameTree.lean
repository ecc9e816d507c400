import AltFs.Intact
import AltFs.Lib.NamedTree
import AltFs.Paths

/-!
# The tree of names

`childOf s` is what the directories have under each name other than `.` and
`..`.  `name_i` goes down a normalised path along these edges.
-/

namespace AltFs

open Prog NamedTree

variable [Config]

/-- The inode that a directory has under a name other than `.` and `..`. -/
def childOf (s : FileSystem) (parentInum : Int64) (name : CString) : Option Int64 :=
  if name = [dot] ∨ name = [dot, dot] then none else (lookupIn s parentInum name).join

/-- The inode number that `name_i` finds with an empty cache in which the path has room. -/
def nameIUncached (s : FileSystem) (path : CString) : Option Int64 :=
  (nameI path { s with
    cache := InodeCache.createInodeCache (cacheCapacity + path.length) }).map Prod.fst

/-- The records of a directory: one for each name, `.` and `..` among them. -/
structure DirRecords (node : Inode) (entries : List Entry) : Prop where
  unique : (entries.map Prod.fst).Nodup
  childNum : node.iChildNum.toNat = entries.length
  hasDot : [dot] ∈ entries.map Prod.fst
  hasDotDot : [dot, dot] ∈ entries.map Prod.fst

/-- A well-formed file system in which the records form a tree of allocated inodes. -/
structure TreeFormed (s : FileSystem) (free : Multiset Int64) : Prop extends
    WellFormed s free where
  root : ValidInum rootInodeNum
  rootDir : (s.inodeAt (inumIndex rootInodeNum)).isDir = true
  records : ∀ n < inodeCount, (s.inodeAt n).isDir = true →
    ∃ contents, DirContents s (s.inodeAt n) contents ∧
      DirRecords (s.inodeAt n) contents.flatten
  child : ∀ {parentInum name inum}, childOf s parentInum name = some inum →
    ValidInum inum ∧ (s.inodeAt (inumIndex inum)).iAllocated = true
  tree : IsTree (childOf s) rootInodeNum

section

variable {s t : FileSystem} {free : Multiset Int64} {inum : Int64} {name path : CString}
  {names : List CString}

theorem childOf_eq (hname : IsComponent name) (parentInum : Int64) :
    childOf s parentInum name = (lookupIn s parentInum name).join := by
  rw [childOf, if_neg]
  exact not_or.mpr ⟨hname.ne_dot, hname.ne_dotDot⟩

theorem childOf_congr (h : lookupIn t inum name = lookupIn s inum name) :
    childOf t inum name = childOf s inum name := by
  rw [childOf, childOf, h]

theorem coherent_empty (s : FileSystem) (capacity : Nat) :
    Coherent { s with cache := InodeCache.createInodeCache capacity } :=
  InodeCache.allEntries_createInodeCache capacity

theorem nameIUncached_eq (s : FileSystem) (path : CString) : nameIUncached s path = walk s path := by
  have hsame : SameButCache s { s with
      cache := InodeCache.createInodeCache (cacheCapacity + path.length) } := ⟨_, rfl⟩
  have hcoherent := coherent_empty s (cacheCapacity + path.length)
  rw [nameIUncached]
  cases hwalk : walk s path with
  | some inum =>
      have hready : Ready { s with
          cache := InodeCache.createInodeCache (cacheCapacity + path.length) } (path.length + 0) := by
        refine ⟨hcoherent, ⟨[], InodeCache.createInodeCache_inv ?_⟩, ?_⟩
        · exact Nat.add_pos_left (by decide) _
        · change 0 + (path.length + 0) ≤ cacheCapacity + path.length
          omega
      obtain ⟨t, hrun, -⟩ := nameI_run hready ((hsame.walk_eq path).trans hwalk)
      rw [hrun]
      rfl
  | none =>
      rw [Option.map_eq_none_iff]
      cases hrun : nameI path { s with
          cache := InodeCache.createInodeCache (cacheCapacity + path.length) } with
      | none => rfl
      | some result =>
          have hfound := (nameI_walk hcoherent hrun).1
          rw [hsame.walk_eq, hwalk] at hfound
          cases hfound

/-! ## Walking down the tree -/

/-- Every name leads to a number of the inode table. -/
structure Rooted (s : FileSystem) : Prop extends Intact s where
  root : ValidInum rootInodeNum
  child : ∀ {parentInum name inum}, childOf s parentInum name = some inum → ValidInum inum

theorem ValidInum.ne_minusOne (h : ValidInum inum) : inum ≠ -1 := by
  rintro rfl
  exact absurd h.1 (by decide)

namespace Rooted

variable (h : Rooted s)

include h

theorem valid (hfollow : follow (childOf s) rootInodeNum names = some inum) : ValidInum inum := by
  cases names using List.reverseRecOn with
  | nil =>
      cases hfollow
      exact h.root
  | append_singleton front name =>
      rw [follow_concat] at hfollow
      obtain ⟨parentInum, -, hchild⟩ := Option.bind_eq_some_iff.mp hfollow
      exact h.child hchild

theorem walk_pathOf (hnames : ∀ name ∈ names, IsComponent name) :
    walk s (pathOf names) = some ((follow (childOf s) rootInodeNum names).getD (-1)) := by
  induction names using List.reverseRecOn with
  | nil => exact walk_root
  | append_singleton front name ih =>
      have hname := hnames name (List.mem_append_right _ List.mem_cons_self)
      have hfront := ih fun other hother => hnames other (List.mem_append_left _ hother)
      rw [walk_step (pathOf_concat_ne_root hname.ne_nil)
        (copyParentPath_pathOf hname.ne_nil hname.slash_notMem), hfront, Option.bind_some,
        copyFileName_pathOf hname.ne_nil hname.slash_notMem, follow_concat]
      cases hfollow : follow (childOf s) rootInodeNum front with
      | none => rfl
      | some parentInum =>
          have hvalid := h.valid hfollow
          obtain ⟨found, hfound⟩ := Option.isSome_iff_exists.mp (h.lookupIn_isSome hvalid name)
          rw [Option.getD_some, if_neg hvalid.ne_minusOne, Option.bind_some, childOf_eq hname]
          simp only [hfound, Option.map_some, Option.join_some]

theorem walk_eq_some (hnames : ∀ name ∈ names, IsComponent name) (hinum : inum ≠ -1) :
    walk s (pathOf names) = some inum ↔ follow (childOf s) rootInodeNum names = some inum := by
  rw [h.walk_pathOf hnames, Option.some_inj]
  cases hfollow : follow (childOf s) rootInodeNum names with
  | none => exact iff_of_false (fun heq => hinum heq.symm) nofun
  | some found => rw [Option.getD_some, Option.some_inj]

theorem walk_eq_minusOne (hnames : ∀ name ∈ names, IsComponent name) :
    walk s (pathOf names) = some (-1) ↔ follow (childOf s) rootInodeNum names = none := by
  rw [h.walk_pathOf hnames, Option.some_inj]
  cases hfollow : follow (childOf s) rootInodeNum names with
  | none => exact iff_of_true rfl rfl
  | some found => exact iff_of_false (h.valid hfollow).ne_minusOne nofun

end Rooted

theorem TreeFormed.rooted (h : TreeFormed s free) : Rooted s where
  toIntact := h.intact
  root := h.root
  child hchild := (h.child hchild).1

/-! ## The cache does not matter -/

theorem SameButCache.childOf_eq (hsame : SameButCache s t) : childOf t = childOf s := by
  funext i other
  exact childOf_congr (hsame.lookupIn_eq i other)

theorem SameButCache.rooted (hsame : SameButCache s t) (h : Rooted s) : Rooted t where
  toIntact := hsame.intact h.toIntact
  root := h.root
  child hchild := by
    rw [hsame.childOf_eq] at hchild
    exact h.child hchild

theorem SameButCache.treeFormed (hsame : SameButCache s t) (h : TreeFormed s free) :
    TreeFormed t free where
  toWellFormed := hsame.wellFormed h.toWellFormed
  root := h.root
  rootDir := by
    rw [hsame.inodeAt]
    exact h.rootDir
  records n hn hdir := by
    rw [hsame.inodeAt] at hdir ⊢
    obtain ⟨contents, hcontents, hrecords⟩ := h.records n hn hdir
    exact ⟨contents, hsame.dirContents hcontents, hrecords⟩
  child hchild := by
    rw [hsame.childOf_eq] at hchild
    rw [hsame.inodeAt]
    exact h.child hchild
  tree := by
    rw [hsame.childOf_eq]
    exact h.tree

end

end AltFs
