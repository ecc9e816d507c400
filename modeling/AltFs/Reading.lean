import AltFs.InterfaceLayer
import AltFs.Lib.Within

/-!
# The functions that only read

A property of programs that `altfs_read_block` and `get_inode` have, and that
the parts of a program hand on to the whole, holds of every function that only
reads the device.  Path resolution also changes the cache.
-/

namespace AltFs

open Prog

variable [Config]

structure ReadProperty (W : (α : Type) → Fs α → Prop) : Prop where
  pure : ∀ {α : Type} (a : α), W α (Pure.pure a)
  bind : ∀ {α β : Type} {x : Fs α} {f : α → Fs β}, W α x → (∀ a, W β (f a)) → W β (x >>= f)
  stuck : ∀ {α : Type}, W α Prog.stuck
  altfsReadBlock : ∀ b, W _ (altfsReadBlock b)
  getInode? : ∀ inum, W _ (getInode? inum)

namespace ReadProperty

variable {W : (α : Type) → Fs α → Prop} (h : ReadProperty W)

omit [Config] in
theorem ite {α : Type} {c : Prop} [Decidable c] {x y : Fs α} (hx : W α x) (hy : W α y) :
    W α (if c then x else y) := by
  split
  · exact hx
  · exact hy

include h

theorem ofOption {α : Type} (o : Option α) : W α (Prog.ofOption o) := by
  cases o with
  | none => exact h.stuck
  | some a => exact h.pure a

theorem require (p : Prop) [Decidable p] : W Unit (Prog.require p) := by
  by_cases hp : p
  · rw [show (Prog.require p : Fs Unit) = Pure.pure () from funext fun s => by simp [require_apply, hp]]
    exact h.pure ()
  · rw [show (Prog.require p : Fs Unit) = Prog.stuck from funext fun s => by simp [require_apply, hp]]
    exact h.stuck

theorem readDataBlock_reads (b : Int64) : W _ (readDataBlock b) :=
  ite (h.pure _) (h.altfsReadBlock b)

theorem readDataBlockArray_reads (b : Int64) : W _ (readDataBlockArray b) :=
  h.bind (h.readDataBlock_reads b) fun o => h.ofOption o

theorem getInode_reads (inum : Int64) : W _ (getInode inum) :=
  h.bind (h.getInode? inum) fun o => h.ofOption o

theorem lookupSingle_reads (b : Int64) (innerIdx : Nat) :
    W _ (lookupSingle b innerIdx) :=
  h.bind (h.readDataBlockArray_reads b) fun _ => h.bind (h.require _) fun _ => h.pure _

theorem lookupDouble_reads (node : Inode) (l : Nat) (prev : Int64) :
    W _ (lookupDouble node l prev) := by
  refine ite (h.pure _) (ite (h.bind (h.lookupSingle_reads _ _) fun _ => h.pure _) ?_)
  refine h.bind (h.lookupSingle_reads _ _) fun _ => ite (h.pure _) ?_
  exact h.bind (h.lookupSingle_reads _ _) fun _ => h.pure _

theorem lookupTriple_reads (node : Inode) (l : Nat) (prev : Int64) :
    W _ (lookupTriple node l prev) := by
  refine ite (h.pure _) (ite (h.bind (h.lookupSingle_reads _ _) fun _ => h.pure _) ?_)
  refine h.bind (h.lookupSingle_reads _ _) fun _ => ite (h.pure _) ?_
  refine h.bind (h.lookupSingle_reads _ _) fun _ => ite (h.pure _) ?_
  exact h.bind (h.lookupSingle_reads _ _) fun _ => h.pure _

theorem getDiskBlockFromInodeBlock_reads (node : Inode) (l : Nat) (prev : Int64) :
    W _ (getDiskBlockFromInodeBlock node l prev) := by
  refine ite (h.pure _) (ite (h.pure _) (ite ?_ (ite ?_ ?_)))
  · exact ite (h.pure _) (h.bind (h.lookupSingle_reads _ _) fun _ => h.pure _)
  · exact h.lookupDouble_reads _ _ _
  · exact h.lookupTriple_reads _ _ _

theorem findInBlocks_reads (fileName : CString) (node : Inode) (count l : Nat)
    (prev : Int64) : W _ (findInBlocks fileName node count l prev) := by
  induction count generalizing l prev with
  | zero => exact h.pure _
  | succ count ih =>
      refine h.bind (h.getDiskBlockFromInodeBlock_reads _ _ _) fun _ => ite (h.pure _) ?_
      refine h.bind (h.readDataBlockArray_reads _) fun _ => h.bind (h.ofOption _) fun found => ?_
      cases found with
      | none => exact ih _ _
      | some offset => exact h.pure _

theorem getFilePositionInDir_reads (fileName : CString) (node : Inode) :
    W _ (getFilePositionInDir fileName node) :=
  ite (h.pure _) (ite (h.pure _) (h.findInBlocks_reads _ _ _ _ _))

theorem nameInDir_reads (parentInum : Int64) (fileName : CString) :
    W _ (nameInDir parentInum fileName) := by
  refine h.bind (h.getInode_reads _) fun _ =>
    h.bind (h.getFilePositionInDir_reads _ _) fun found => ?_
  cases found with
  | none => exact h.pure _
  | some filePos => exact h.pure _

theorem readBlocks_reads (node : Inode) (span : Span) (blocksToRead count i : Nat)
    (prev : Int64) : W _ (readBlocks node span blocksToRead count i prev) := by
  induction count generalizing i prev with
  | zero => exact h.pure _
  | succ count ih =>
      refine h.bind (h.getDiskBlockFromInodeBlock_reads _ _ _) fun _ => ite (h.pure _) ?_
      refine h.bind (h.readDataBlock_reads _) fun bufRead => ?_
      cases bufRead with
      | none => exact h.pure _
      | some bufRead => exact h.bind (ih _ _) fun _ => h.pure _

theorem readRange_reads (node : Inode) (offset nbytes : Nat) :
    W _ (readRange node offset nbytes) := by
  unfold readRange
  refine ite ?_ (h.readBlocks_reads _ _ _ _ _ _)
  refine h.bind (h.getDiskBlockFromInodeBlock_reads _ _ _) fun _ => ite (h.pure _) ?_
  refine h.bind (h.readDataBlock_reads _) fun bufRead => ?_
  cases bufRead with
  | none => exact h.pure _
  | some bufRead => exact h.pure _

end ReadProperty

/-- The device is read, and the cache changes. -/
structure Lookups (R : FileSystem → FileSystem → Prop) : Prop where
  altfsReadBlock : ∀ b, Within R (altfsReadBlock b)
  cache : ∀ s cache, R s { s with cache := cache }

section

variable {R : FileSystem → FileSystem → Prop} [IsPreorder FileSystem R]

theorem reads_of (hread : ∀ b, Within R (altfsReadBlock b)) :
    ReadProperty fun _ x => Within R x where
  pure := .pure
  bind := .bind
  stuck := .stuck
  altfsReadBlock := hread
  getInode? inum := by
    refine .bind .get fun s => .ite (.pure _) (.bind (hread _) fun buffer => ?_)
    cases buffer with
    | none => exact .pure _
    | some buffer => exact .pure _

variable (h : Lookups R)

include h

theorem Lookups.reads : ReadProperty fun _ x => Within R x := reads_of h.altfsReadBlock

omit [IsPreorder FileSystem R] in
theorem Lookups.onCache_within {α : Type} (x : InodeCache.CacheProg α) :
    Within R (onCache x) :=
  .zoom (Q := fun _ _ => True) (fun _ _ _ _ => trivial) fun s cache _ => h.cache s cache

/-- The walk goes on with shorter paths. -/
theorem Lookups.nameI_within (path : CString) : Within R (nameI path) := by
  induction hlength : path.length using Nat.strong_induction_on generalizing path with
  | _ n ih =>
      rw [nameI]
      refine .ite (.pure _) (.bind (h.onCache_within _) fun _ => .ite (.pure _) ?_)
      split
      · exact .pure _
      next parentPath hparent =>
        have hshorter := length_copyParentPath hparent
        refine .bind (ih parentPath.length (by omega) parentPath rfl) fun _ => .ite (.pure _) ?_
        split
        · exact .pure _
        refine .bind (h.reads.nameInDir_reads _ _) fun found => ?_
        cases found with
        | none => exact .pure _
        | some inum => exact .bind (h.onCache_within _) fun _ => .pure _

omit [IsPreorder FileSystem R] in
theorem Lookups.removeFromInodeCache_within (path : CString) :
    Within R (removeFromInodeCache path) :=
  h.onCache_within _

theorem Lookups.flushInodeCache_within (create : Bool) : Within R (flushInodeCache create) :=
  .bind (h.onCache_within _) fun _ => .ite (.modify fun s => h.cache s _) (.pure _)

theorem Lookups.altfsGetattr_within (path : CString) : Within R (altfsGetattr path) := by
  refine .bind (h.nameI_within _) fun _ => .ite (.pure _) ?_
  refine .bind (h.reads.getInode? _) fun node => ?_
  cases node with
  | none => exact .pure _
  | some node => exact .pure _

theorem Lookups.altfsAccess_within (path : CString) : Within R (altfsAccess path) :=
  .bind (h.nameI_within _) fun _ => .ite (.pure _) (.pure _)

end

end AltFs
