import AltFs.WellFormed

/-!
# The namespace

`resolve` is `name_i` with an empty cache.  It depends only on what each
directory has under each name, and this is read off the records.
-/

namespace AltFs

open Prog

variable [Config]

/-- The inode number that `name_i` finds for a path when nothing is in the cache. -/
def resolve (s : FileSystem) (path : CString) : Option Int64 :=
  (nameI path { s with cache := InodeCache.createInodeCache cacheCapacity }).map Prod.fst

section Lookup

variable {s t : FileSystem} {free held : Multiset Int64} {inum : Int64} {name path : CString}
  {contents : List (List Entry)}

/-- A directory has under a name what the first record with the name says. -/
theorem lookupIn_dir (hformat : TableFormat s) (hinum : ValidInum inum)
    (hdata : ∀ b ∈ (s.inodeAt (inumIndex inum)).blocks s, DataBlock b)
    (hdir : DirContents s (s.inodeAt (inumIndex inum)) contents) :
    lookupIn s inum name = some (contents.flatten.lookup name) := by
  obtain ⟨result, hrun, hlookup, -⟩ := getFilePositionInDir_spec hdir hdata name
  rw [lookupIn, nameInDir, bind_of_eq (getInode_run hformat hinum), bind_of_eq hrun, hlookup]
  cases result with
  | none => rfl
  | some filePos => rfl

theorem lookupIn_notDir (hformat : TableFormat s) (hinum : ValidInum inum)
    (hdir : (s.inodeAt (inumIndex inum)).isDir = false) : lookupIn s inum name = some none := by
  have hrun : getFilePositionInDir name (s.inodeAt (inumIndex inum)) s = some (none, s) := by
    rw [getFilePositionInDir, hdir]
    rfl
  rw [lookupIn, nameInDir, bind_of_eq (getInode_run hformat hinum), bind_of_eq hrun]
  rfl

theorem lookupIn_invalid (hformat : TableFormat s) (hinum : ¬ValidInum inum) :
    lookupIn s inum name = none := by
  have hrun : getInode inum s = none := by
    rw [getInode, bind_of_eq (getInode?_invalid hformat hinum)]
    rfl
  rw [lookupIn, nameInDir, bind_apply, hrun]
  rfl

/-- The same entries are found everywhere, and the caches are equal. -/
structure Alike (s t : FileSystem) : Prop where
  lookup : ∀ parentInum name, lookupIn t parentInum name = lookupIn s parentInum name
  cache : t.cache = s.cache

private theorem Alike.moved {s' t' : FileSystem} (h : Alike s t) (hs : SameButCache s s')
    (ht : SameButCache t t') (hcache : t'.cache = s'.cache) : Alike s' t' where
  lookup parentInum name := by rw [ht.lookupIn_eq, h.lookup, hs.lookupIn_eq]
  cache := hcache

private theorem Alike.onCache {α : Type} {x : InodeCache.CacheProg α} {a : α} {s' : FileSystem}
    (h : Alike s t) (hrun : onCache x s = some (a, s')) :
    ∃ t', AltFs.onCache x t = some (a, t') ∧ Alike s' t' := by
  obtain ⟨cache, hcall, rfl⟩ := zoom_eq_some_iff.mp hrun
  have hs : SameButCache s { s with cache := cache } := ⟨cache, rfl⟩
  rw [← h.cache] at hcall
  exact ⟨_, onCache_run hcall, h.moved hs ⟨cache, rfl⟩ rfl⟩

private theorem Alike.fromParent {parentInum : Int64} {s' : FileSystem} (h : Alike s t)
    (hrun : fromParent path parentInum s = some (inum, s')) :
    ∃ t', AltFs.fromParent path parentInum t = some (inum, t') ∧ Alike s' t' := by
  rw [AltFs.fromParent] at hrun ⊢
  split at hrun
  next hmissing =>
    cases hrun
    rw [if_pos hmissing]
    exact ⟨t, rfl, h⟩
  next hfound =>
  rw [if_neg hfound]
  cases hname : copyFileName path with
  | none =>
      simp only [hname] at hrun ⊢
      cases hrun
      exact ⟨t, rfl, h⟩
  | some name =>
      simp only [hname] at hrun ⊢
      obtain ⟨found, s₁, hsearch, hrest⟩ := bind_eq_some_iff.mp hrun
      obtain ⟨rfl, hlookup⟩ := nameInDir_eq hsearch
      rw [← h.lookup] at hlookup
      rw [bind_of_eq (nameInDir_run hlookup)]
      cases found with
      | none =>
          cases hrest
          exact ⟨t, rfl, h⟩
      | some value =>
          obtain ⟨done, s₂, hset, hrest⟩ := bind_eq_some_iff.mp hrest
          cases hrest
          obtain ⟨t', hset', h'⟩ := h.onCache hset
          exact ⟨t', bind_of_eq hset', h'⟩

/-- The search in directories and the cache determine what `name_i` does. -/
theorem Alike.nameI {s' : FileSystem} (h : Alike s t)
    (hrun : nameI path s = some (inum, s')) :
    ∃ t', AltFs.nameI path t = some (inum, t') ∧ Alike s' t' := by
  induction hlength : path.length using Nat.strong_induction_on
    generalizing path inum s t s' with
  | _ n ih =>
      by_cases hroot : path = [slash]
      · rw [hroot, nameI_root] at hrun ⊢
        cases hrun
        exact ⟨t, rfl, h⟩
      cases hparent : copyParentPath path with
      | none =>
          rw [nameI_noParent hroot hparent] at hrun ⊢
          obtain ⟨value, s₁, hget, hrest⟩ := bind_eq_some_iff.mp hrun
          obtain ⟨t₁, hget', h₁⟩ := h.onCache hget
          rw [bind_of_eq hget']
          split at hrest
          next hpos =>
            cases hrest
            rw [if_pos hpos]
            exact ⟨t₁, rfl, h₁⟩
          next hpos =>
            cases hrest
            rw [if_neg hpos]
            exact ⟨t₁, rfl, h₁⟩
      | some parentPath =>
          rw [nameI_step hroot hparent] at hrun ⊢
          obtain ⟨value, s₁, hget, hrest⟩ := bind_eq_some_iff.mp hrun
          obtain ⟨t₁, hget', h₁⟩ := h.onCache hget
          rw [bind_of_eq hget']
          split at hrest
          next hpos =>
            cases hrest
            rw [if_pos hpos]
            exact ⟨t₁, rfl, h₁⟩
          next hpos =>
          have hshorter := length_copyParentPath hparent
          obtain ⟨parentInum, s₂, hparentRun, hrest⟩ := bind_eq_some_iff.mp hrest
          obtain ⟨t₂, hparentRun', h₂⟩ := ih parentPath.length (by omega) h₁ hparentRun rfl
          rw [if_neg hpos, bind_of_eq hparentRun']
          exact h₂.fromParent hrest

theorem resolve_congr
    (hlookup : ∀ parentInum name, lookupIn t parentInum name = lookupIn s parentInum name)
    (path : CString) : resolve t path = resolve s path := by
  have hforward : ∀ {u v : FileSystem} {inum : Int64},
      (∀ parentInum name, lookupIn v parentInum name = lookupIn u parentInum name) →
        resolve u path = some inum → resolve v path = some inum := by
    intro u v inum hsame hresolve
    obtain ⟨⟨_, u'⟩, hrun, rfl⟩ := Option.map_eq_some_iff.mp hresolve
    have halike : Alike { u with cache := InodeCache.createInodeCache cacheCapacity }
        { v with cache := InodeCache.createInodeCache cacheCapacity } := by
      refine ⟨fun parentInum name => ?_, rfl⟩
      have hu : SameButCache u { u with cache := InodeCache.createInodeCache cacheCapacity } :=
        ⟨_, rfl⟩
      have hv : SameButCache v { v with cache := InodeCache.createInodeCache cacheCapacity } :=
        ⟨_, rfl⟩
      rw [hv.lookupIn_eq, hsame, hu.lookupIn_eq]
    obtain ⟨v', hrun', -⟩ := halike.nameI hrun
    rw [resolve, hrun']
    rfl
  cases hs : resolve s path with
  | some inum => exact hforward hlookup hs
  | none =>
      cases ht : resolve t path with
      | none => rfl
      | some inum =>
          rw [hforward (fun parentInum name => (hlookup parentInum name).symm) ht] at hs
          cases hs

end Lookup

/-- No size is negative, and a directory is as large as its blocks. -/
structure SizeFits (node : Inode) : Prop where
  nonneg : 0 ≤ node.iFileSize.toInt
  dir : node.isDir = true → node.iFileSize.toInt = blockSize * node.iBlocksNum.toInt

/-- A sound file system whose directories hold records. -/
structure WellFormed (s : FileSystem) (free : Multiset Int64) : Prop extends Sound s free where
  first : FirstIsLeast s
  dirs : ∀ n < inodeCount, (s.inodeAt n).isDir = true →
    ∃ contents, DirContents s (s.inodeAt n) contents
  sizes : ∀ n < inodeCount, SizeFits (s.inodeAt n)

/-- The allocated inodes, the records of the directories and the meaning of paths are the same. -/
structure SameNamespace (s t : FileSystem) : Prop where
  allocated : ∀ n < inodeCount, (t.inodeAt n).iAllocated = (s.inodeAt n).iAllocated
  records : ∀ n < inodeCount, ∀ contents, DirContents s (s.inodeAt n) contents →
    DirContents t (t.inodeAt n) contents
  resolve : ∀ path, resolve t path = resolve s path

section

variable {s t : FileSystem} {free free' held : Multiset Int64} {n : Nat} {inum : Int64}
  {contents : List (List Entry)}

theorem WellFormed.lookupIn_dir (h : WellFormed s free) (hinum : ValidInum inum)
    (hdir : DirContents s (s.inodeAt (inumIndex inum)) contents) (name : CString) :
    lookupIn s inum name = some (contents.flatten.lookup name) :=
  AltFs.lookupIn_dir h.stored.toTableFormat hinum
    (h.owned.mono (blocks_le_tableBlocks hinum.index_lt)).data hdir

theorem WellFormed.isAllocated (h : WellFormed s free) (hn : n < inodeCount)
    (hdir : (s.inodeAt n).isDir = true) : (s.inodeAt n).iAllocated = true := by
  cases hmark : (s.inodeAt n).iAllocated with
  | true => rfl
  | false =>
      rw [(h.inodes n hn).vacant hmark] at hdir
      cases hdir

omit [Config] in
theorem SameButCache.dirContents {node : Inode} (h : SameButCache s t)
    (hdir : DirContents s node contents) : DirContents t node contents := by
  obtain ⟨cache, rfl⟩ := h
  exact hdir.of_disk_eq fun _ _ => rfl

theorem SameButCache.wellFormed (hsame : SameButCache s t) (h : WellFormed s free) :
    WellFormed t free := by
  have hsound := hsame.sound h.toSound
  refine ⟨hsound, ?_, fun n hn hdir => ?_, fun n hn => ?_⟩
  · have hat := hsame.inodeAt
    obtain ⟨cache, rfl⟩ := hsame
    exact h.first.congr hsound.stored.toTableFormat hsound.owned.headBeyond rfl fun n _ => by
      rw [hat]
  · rw [hsame.inodeAt] at hdir ⊢
    obtain ⟨contents, hcontents⟩ := h.dirs n hn hdir
    obtain ⟨cache, rfl⟩ := hsame
    exact ⟨contents, hcontents.of_disk_eq fun _ _ => rfl⟩
  · rw [hsame.inodeAt]
    exact h.sizes n hn

/-- The namespace does not change when the inodes and the records stay. -/
theorem SameNamespace.of_records (h : WellFormed s free) (hformat : TableFormat t)
    (hat : ∀ n < inodeCount, t.inodeAt n = s.inodeAt n)
    (hdata : ∀ n < inodeCount, (s.inodeAt n).isDir = true →
      ∀ b ∈ (s.inodeAt n).blocks t, DataBlock b)
    (hdirs : ∀ n < inodeCount, ∀ contents, DirContents s (s.inodeAt n) contents →
      DirContents t (s.inodeAt n) contents) : SameNamespace s t where
  allocated n hn := by rw [hat n hn]
  records n hn contents hcontents := by
    rw [hat n hn]
    exact hdirs n hn contents hcontents
  resolve := resolve_congr fun parentInum name => by
    by_cases hvalid : ValidInum parentInum
    · have hn := hvalid.index_lt
      have hsame := hat _ hn
      cases hdir : (s.inodeAt (inumIndex parentInum)).isDir with
      | true =>
          obtain ⟨contents, hcontents⟩ := h.dirs _ hn hdir
          have hcontents' := hdirs _ hn contents hcontents
          have hdata := hdata _ hn hdir
          rw [h.lookupIn_dir hvalid hcontents]
          rw [← hsame] at hcontents' hdata
          exact AltFs.lookupIn_dir hformat hvalid hdata hcontents'
      | false =>
          rw [lookupIn_notDir h.stored.toTableFormat hvalid hdir]
          rw [← hsame] at hdir
          exact lookupIn_notDir hformat hvalid hdir
    · rw [lookupIn_invalid hformat hvalid, lookupIn_invalid h.stored.toTableFormat hvalid]

theorem SameButCache.sameNamespace (hsame : SameButCache s t) (h : WellFormed s free) :
    SameNamespace s t := by
  have h' := hsame.wellFormed h
  refine .of_records h h'.stored.toTableFormat (fun n _ => hsame.inodeAt n) (fun n hn _ => ?_)
    fun n hn contents hcontents => ?_
  · rw [← hsame.inodeAt]
    exact (h'.owned.mono (blocks_le_tableBlocks hn)).data
  · obtain ⟨cache, rfl⟩ := hsame
    exact hcontents.of_disk_eq fun _ _ => rfl

theorem SameNamespace.trans {u : FileSystem} (h : SameNamespace s t) (h' : SameNamespace t u) :
    SameNamespace s u where
  allocated n hn := (h'.allocated n hn).trans (h.allocated n hn)
  records n hn contents hcontents := h'.records n hn contents (h.records n hn contents hcontents)
  resolve path := (h'.resolve path).trans (h.resolve path)

end

end AltFs
