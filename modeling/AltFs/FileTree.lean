import AltFs.FuseLayer
import AltFs.Lib.PathTree
import AltFs.Lib.Splice
import AltFs.Paths

/-!
# What a file system is for

The abstract file system: every path has a node with a mode and a content, or
nothing.  No inode numbers, no blocks, no cache.  The operations are stated on
these trees; the code is compared with them elsewhere.
-/

namespace AltFs

/-- What a client sees of a file or a directory. -/
structure Node where
  mode : UInt32
  content : List UInt8

namespace Node

def isDir (node : Node) : Bool := node.mode &&& 0xF000 = sIfdir

def isRegular (node : Node) : Bool := node.mode &&& 0xF000 = sIfreg

def canRead (node : Node) : Bool := node.mode &&& 0x100 ≠ 0

def canWrite (node : Node) : Bool := node.mode &&& 0x80 ≠ 0

/-- Reading needs permission only together with writing. -/
def mayOpen (node : Node) (flags : Int64) : Bool :=
  !(hasFlag flags oRdwr && !node.canRead) &&
    !((hasFlag flags oWronly || hasFlag flags oRdwr) && !node.canWrite)

/-- The attributes that the client can check. -/
def HasAttr (node : Node) (st : Stat) : Prop :=
  st.stMode = node.mode ∧ (node.isRegular = true → st.stSize.toInt = node.content.length)

end Node

/-- What `altfs_read` returns and stores in the buffer, from the contents of the file. -/
def readResult (content : List UInt8) (nbytes : Nat) (offset : Int) : Int × List UInt8 :=
  if nbytes = 0 then (0, []) else
  if offset < 0 then (-einval, []) else
  if content ≠ [] ∧ content.length ≤ offset then (-eoverflow, filledBuffer nbytes []) else
  ((slice content offset.toNat nbytes).length,
    filledBuffer nbytes (slice content offset.toNat nbytes))

/-- The files and directories under their paths. -/
abbrev FileTree : Type := PathTree CString Node

namespace FileTree

open PathTree

/-- The path is free, in a directory that can be written. -/
def MayCreate (tree : FileTree) (path : List CString) : Prop :=
  tree path = none ∧ ∃ front name node, path = front ++ [name] ∧ tree front = some node ∧
    node.isDir = true ∧ node.canWrite = true ∧ name.length ≤ maxFileNameLength

/-- Creating a file or a directory; `room` says whether there is room for it. -/
inductive Creates (tree : FileTree) (room : Prop) (path : List CString) (mode : UInt32) :
    Bool → FileTree → Prop
  | done (h : tree.MayCreate path) (hroom : room) :
      Creates tree room path mode true (tree.put path ⟨mode, []⟩)
  | refused (h : ¬(tree.MayCreate path ∧ room)) : Creates tree room path mode false tree

/-- Removing a file or an empty directory. -/
inductive Removes (tree : FileTree) (path : List CString) : Int → FileTree → Prop
  | missing (h : tree path = none) : Removes tree path (-enoent) tree
  | root (h : path = []) : Removes tree path (-eacces) tree
  | notEmpty (hne : path ≠ []) (h : tree.HasChild path) : Removes tree path (-enotempty) tree
  | done (hne : path ≠ []) (hsome : tree path ≠ none) (hleaf : ¬tree.HasChild path) :
      Removes tree path 0 (tree.erase path)

theorem Removes.eq_of_ne_zero {tree after : FileTree} {path : List CString} {code : Int}
    (h : tree.Removes path code after) (hcode : code ≠ 0) : after = tree := by
  cases h with
  | missing hnone => rfl
  | root hroot => rfl
  | notEmpty hne hchild => rfl
  | done hne hsome hleaf => exact absurd rfl hcode

theorem Removes.eq_erase {tree after : FileTree} {path : List CString}
    (h : tree.Removes path 0 after) : after = tree.erase path := by
  generalize hcode : (0 : Int) = code at h
  cases h with
  | missing hnone => exact absurd hcode (by decide)
  | root hroot => exact absurd hcode (by decide)
  | notEmpty hne hchild => exact absurd hcode (by decide)
  | done hne hsome hleaf => rfl

/-- The directory in which the path has its record. -/
def HasParentDir (tree : FileTree) (path : List CString) : Prop :=
  ∃ front name node, path = front ++ [name] ∧ tree front = some node ∧ node.isDir = true

/-- Moving a file or a directory, in place of what can be removed at the target. -/
inductive Renames (tree : FileTree) (room : Prop) (source target : List CString) :
    Int → FileTree → Prop
  | missing (h : tree source = none) : Renames tree room source target (-enoent) tree
  | refused {code : Int} (hsome : tree source ≠ none) (htarget : tree target ≠ none)
      (h : tree.Removes target code tree) (hcode : code ≠ 0) :
      Renames tree room source target code tree
  | noParent (hsome : tree source ≠ none) (htarget : tree target = none)
      (h : ¬tree.HasParentDir target) : Renames tree room source target (-1) tree
  | noRoom (hsome : tree source ≠ none) (htarget : tree target = none)
      (hparent : tree.HasParentDir target) (h : ¬room) :
      Renames tree room source target (-edquot) tree
  | moved (hsome : tree source ≠ none) (htarget : tree target = none)
      (hparent : tree.HasParentDir target) (hroom : room) :
      Renames tree room source target 0 (tree.move source target)
  | replaced (hsome : tree source ≠ none)
      (htarget : tree.Removes target 0 (tree.erase target)) :
      Renames tree room source target 0 (tree.move source target)

/-- What `readdir` hands on: `.`, `..` and the names below the path, each once. -/
structure Listing (tree : FileTree) (path : List CString) (node : Node) (items : List DirItem) :
    Prop where
  once : ∀ name, items.countP (fun item => item.1 = nameBytes name) =
    if name = [dot] ∨ name = [dot, dot] ∨ (tree (path ++ [name])).isSome then 1 else 0
  only : ∀ item ∈ items, ∃ name, item.1 = nameBytes name
  self : ∀ st, (nameBytes [dot], st) ∈ items → node.HasAttr st
  child : ∀ name child st, tree (path ++ [name]) = some child → (nameBytes name, st) ∈ items →
    child.HasAttr st

inductive Lists (tree : FileTree) (path : List CString) : Int → List DirItem → Prop
  | missing (h : tree path = none) : Lists tree path (-enoent) []
  | notDir {node : Node} (hnode : tree path = some node) (hdir : node.isDir = false) :
      Lists tree path (-enotdir) []
  | listed {node : Node} {items : List DirItem} (hnode : tree path = some node)
      (hdir : node.isDir = true) (h : tree.Listing path node items) : Lists tree path 0 items

/-! ### Files -/

def access (tree : FileTree) (path : List CString) : Int :=
  match tree path with
  | none => -enoent
  | some _ => 0

def openFile (tree : FileTree) (path : List CString) (flags : Int64) : Int :=
  match tree path with
  | none => -enoent
  | some node => if node.mayOpen flags then 0 else -eacces

def chmod (tree : FileTree) (path : List CString) (mode : UInt32) : Int × FileTree :=
  match tree path with
  | none => (-enoent, tree)
  | some node => (0, tree.put path { node with mode := mode })

def read (tree : FileTree) (path : List CString) (nbytes : Nat) (offset : Int) :
    Int × List UInt8 :=
  match tree path with
  | none =>
      if nbytes = 0 then (0, []) else
      if offset < 0 then (-einval, []) else (-enoent, filledBuffer nbytes [])
  | some node => readResult node.content nbytes offset

def write (tree : FileTree) (path : List CString) (buff : List UInt8) (offset : Int) :
    Int × FileTree :=
  if buff = [] then (0, tree) else
  if offset < 0 then (-einval, tree) else
  match tree path with
  | none => (-enoent, tree)
  | some node =>
      (buff.length, tree.put path { node with content := AltFs.put 0 node.content offset.toNat buff })

/-- The first `length` bytes, with zeros where there are fewer. -/
def resize (content : List UInt8) (length : Nat) : List UInt8 :=
  (content ++ List.replicate (length - content.length) 0).take length

theorem resize_of_ge {content : List UInt8} {length : Nat} (h : content.length ≤ length) :
    resize content length =
      AltFs.put 0 content content.length (List.replicate (length - content.length) 0) := by
  rw [resize, List.take_of_length_le, AltFs.put]
  · simp
  · rw [List.length_append, List.length_replicate]
    omega

theorem resize_of_le {content : List UInt8} {length : Nat} (h : length ≤ content.length) :
    resize content length = content.take length := by
  rw [resize, Nat.sub_eq_zero_of_le h, List.replicate_zero, List.append_nil]

def truncate (tree : FileTree) (path : List CString) (length : Int) : Int × FileTree :=
  match tree path with
  | none => (-enoent, tree)
  | some node =>
      if !node.canWrite then (-eacces, tree) else
      if length < 0 then (-einval, tree) else
      (0, tree.put path { node with content := resize node.content length.toNat })

end FileTree

end AltFs
