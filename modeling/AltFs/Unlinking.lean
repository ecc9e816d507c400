import AltFs.NameTree
import AltFs.TableSteps

/-!
# Unlinking

`altfs_unlink` removes one edge of the tree of names.  The blocks of the inode
are freed onto whatever list there is, so only what does not depend on the
free list is known afterwards.
-/

namespace AltFs

open Prog NamedTree

variable [Config]

section Leaf

variable {s : FileSystem} {free : Multiset Int64} {node : Inode} {entries : List Entry}
  {inum : Int64} {name : CString}

omit [Config] in
/-- A directory that counts as empty has no other records than `.` and `..`. -/
theorem DirRecords.onlyDots (h : DirRecords node entries) (hempty : isEmptyDir node = true)
    (hdot : name ≠ [dot]) (hdotDot : name ≠ [dot, dot]) : entries.lookup name = none := by
  rw [lookup_eq_none_iff]
  rintro entry hentry rfl
  have hnodup : [[dot], [dot, dot], entry.1].Nodup := by
    simp [hdot.symm, hdotDot.symm]
  have hsub : [[dot], [dot, dot], entry.1] ⊆ entries.map Prod.fst := by
    intro other hother
    simp only [List.mem_cons, List.not_mem_nil, or_false] at hother
    rcases hother with rfl | rfl | rfl
    · exact h.hasDot
    · exact h.hasDotDot
    · exact List.mem_map_of_mem hentry
  have hlength := (hnodup.subperm hsub).length_le
  have hcount : ¬node.iChildNum > 2 := by simpa [isEmptyDir] using hempty
  rw [gt_iff_lt, UInt64.lt_iff_toNat_lt] at hcount
  have hchildNum := h.childNum
  simp only [List.length_map, List.length_cons, List.length_nil] at hlength
  have htwo : (2 : UInt64).toNat = 2 := rfl
  omega

/-- What `altfs_unlink` agrees to remove has no children. -/
theorem TreeFormed.childOf_leaf (h : TreeFormed s free) (hinum : ValidInum inum)
    (hleaf : ¬((s.inodeAt (inumIndex inum)).isDir = true ∧
      isEmptyDir (s.inodeAt (inumIndex inum)) = false)) (name : CString) :
    childOf s inum name = none := by
  rw [childOf]
  split
  next => rfl
  next hdots =>
  obtain ⟨hdot, hdotDot⟩ := not_or.mp hdots
  cases hdir : (s.inodeAt (inumIndex inum)).isDir with
  | true =>
      obtain ⟨contents, hcontents, hrecords⟩ := h.records _ hinum.index_lt hdir
      have hempty : isEmptyDir (s.inodeAt (inumIndex inum)) = true := by
        simpa [hdir] using hleaf
      rw [h.lookupIn_dir hinum hcontents, hrecords.onlyDots hempty hdot hdotDot]
      rfl
  | false =>
      rw [lookupIn_notDir h.stored.toTableFormat hinum hdir]
      rfl

end Leaf

/-! ## The two inodes -/

section Inodes

variable {s u : FileSystem} {free : Multiset Int64} {parentInum inum : Int64} {name : CString}
  {contents : List (List Entry)} {n : Nat}

/-- An inode that has lost a link: it is free, or it has the records it had. -/
structure LinkDropped (inum : Int64) (s t : FileSystem) : Prop where
  intact : Intact t
  others : OthersKept (inumIndex inum) s t
  cache : t.cache = s.cache
  freed : (s.inodeAt (inumIndex inum)).iLinksCount = 1 → t.inodeAt (inumIndex inum) = Inode.zero
  lookup : t.inodeAt (inumIndex inum) = Inode.zero ∨
    ∀ name, lookupIn t inum name = lookupIn s inum name

theorem dropLink_run (h : Intact s) (hinum : ValidInum inum)
    (hmapped : (s.inodeAt (inumIndex inum)).WellMapped s n)
    (hhead : s.superblock.sFreelistHead = 0 ∨ DataBlock s.superblock.sFreelistHead)
    (hnot : s.superblock.sFreelistHead ∉ tableBlocks s) :
    ∃ t, dropLink inum (s.inodeAt (inumIndex inum)) s = some ((), t) ∧ LinkDropped inum s t := by
  have hn := hinum.index_lt
  by_cases hlast : (s.inodeAt (inumIndex inum)).iLinksCount - 1 = 0
  · obtain ⟨t, hrun, hintact, hothers, hzero, hcache⟩ :=
      freeInode_others h hinum hmapped hhead hnot
    refine ⟨t, ?_, hintact, hothers, hcache, fun _ => hzero, .inl hzero⟩
    rw [dropLink]
    simp only [if_pos hlast]
    exact bind_of_eq hrun
  · let node : Inode := { s.inodeAt (inumIndex inum) with
      iLinksCount := (s.inodeAt (inumIndex inum)).iLinksCount - 1
      iStatusChangeTime := Config.timeAt s.clock }
    let u : FileSystem := { s with clock := s.clock + 1 }
    have hu : Intact u := h.congr rfl rfl
    have hat : ∀ m, u.inodeAt m = s.inodeAt m := fun m => inodeAt_of_disk_eq rfl
    obtain ⟨t, hwrite, hwritten⟩ := @Intact.writeCopy _ _ _ node hu hinum (by rw [hat]; rfl)
      (by rw [hat])
    refine ⟨t, ?_, hwritten.intact, ?_, hwritten.cache, fun hone => ?_, .inr fun name => ?_⟩
    · rw [dropLink]
      simp only [if_neg hlast]
      exact bind_of_eq hwrite
    · refine OthersKept.trans ⟨fun m _ _ => hat m, fun _ _ => rfl⟩ hwritten.others
    · rw [hone] at hlast
      exact absurd rfl hlast
    · rw [hwritten.lookup]
      apply lookupIn_congr
      · rfl
      · rfl

end Inodes

/-! ## The record -/

section Record

variable {s t : FileSystem} {free : Multiset Int64} {parentInum inum : Int64} {name : CString}
  {contents : List (List Entry)} {n : Nat}

/-- The record of `name` has been taken out of a block of directory `n`. -/
structure RecordGone (n : Nat) (name : CString) (contents : List (List Entry)) (s t : FileSystem)
    (contents' : List (List Entry)) : Prop where
  intact : Intact t
  wellFormed : ∀ free, WellFormed s free → WellFormed t free
  others : OthersKept n s t
  inodeAt : t.inodeAt n = s.inodeAt n
  cache : t.cache = s.cache
  head : t.superblock.sFreelistHead = s.superblock.sFreelistHead
  table : tableBlocks t = tableBlocks s
  dir : DirContents t (t.inodeAt n) contents'
  entries : ∃ inum, contents.flatten.Perm ((name, inum) :: contents'.flatten)
  unique : (contents'.flatten.map Prod.fst).Nodup
  gone : contents'.flatten.lookup name = none
  lookup : ∀ other, other ≠ name → contents'.flatten.lookup other = contents.flatten.lookup other
  short : name.length ≤ maxFileNameLength
  fits : ∀ inum, RecordFits contents' (name, inum)

theorem Intact.removeRecord (h : Intact s) (hn : n < inodeCount)
    (hdir : DirContents s (s.inodeAt n) contents) (hunique : (contents.flatten.map Prod.fst).Nodup)
    (hname : contents.flatten.lookup name = some inum) :
    ∃ t contents', removeDirectoryEntry (s.inodeAt n) name s =
        some ((true, (s.inodeAt n).removeChild (Config.timeAt s.clock)), t) ∧
      RecordGone n name contents s t contents' := by
  obtain ⟨entry, t, contents', hrun, rfl, hremoved⟩ :=
    removeDirectoryEntry_run hdir (h.inode_data hn) (h.inode_nodup hn) hname
  obtain ⟨b, hmem, block, hindirect, ht⟩ := hremoved.written
  obtain ⟨hintact, hothers, hat, hblocks⟩ := h.writeBlock hn hmem hindirect ht hremoved.dir
  have hnames := (hremoved.entries.map Prod.fst).nodup_iff.mp hunique
  rw [List.map_cons, List.nodup_cons] at hnames
  refine ⟨t, contents', hrun, hintact,
    fun free hwell => hwell.writeBlock hn hmem hindirect ht hremoved.dir, hothers, hat,
    by rw [ht]; rfl, by rw [ht]; rfl, ?_, ?_, ⟨entry.2, hremoved.entries⟩, hnames.2, ?_,
    hremoved.lookup, ?_, hremoved.fits⟩
  · rw [tableBlocks_split t hn, hothers.otherBlocks_eq, hat, hblocks, ← tableBlocks_split s hn]
  · rw [hat]
    exact hremoved.dir
  · rw [lookup_eq_none_iff]
    intro other hother heq
    exact hnames.1 (heq ▸ List.mem_map_of_mem hother)
  · exact hdir.short (hremoved.entries.mem_iff.mpr List.mem_cons_self)

/-- Only a directory has something under a name. -/
theorem Rooted.directory (h : Rooted s) (hchild : childOf s parentInum name = some inum) :
    ValidInum parentInum ∧ (s.inodeAt (inumIndex parentInum)).isDir = true ∧
      lookupIn s parentInum name = some (some inum) := by
  rw [childOf] at hchild
  split at hchild
  next => cases hchild
  have hlookup : lookupIn s parentInum name = some (some inum) := by
    simpa [Option.join_eq_some_iff] using hchild
  by_cases hvalid : ValidInum parentInum
  swap
  · rw [lookupIn_invalid h.format hvalid] at hlookup
    cases hlookup
  refine ⟨hvalid, ?_, hlookup⟩
  cases hdir : (s.inodeAt (inumIndex parentInum)).isDir with
  | true => rfl
  | false =>
      rw [lookupIn_notDir h.format hvalid hdir] at hlookup
      cases hlookup

theorem TreeFormed.directory (h : TreeFormed s free)
    (hchild : childOf s parentInum name = some inum) :
    ValidInum parentInum ∧ ∃ contents, DirContents s (s.inodeAt (inumIndex parentInum)) contents ∧
      DirRecords (s.inodeAt (inumIndex parentInum)) contents.flatten ∧
      contents.flatten.lookup name = some inum := by
  obtain ⟨hvalid, hdir, hlookup⟩ := h.rooted.directory hchild
  obtain ⟨contents, hcontents, hrecords⟩ := h.records _ hvalid.index_lt hdir
  rw [h.lookupIn_dir hvalid hcontents, Option.some_inj] at hlookup
  exact ⟨hvalid, contents, hcontents, hrecords, hlookup⟩

end Record

/-! ## The cache -/

section Cache

variable {s t : FileSystem} {names removed : List CString} {path parentPath : CString}
  {P : CString → Prop}

/-- A normalised path that is not at or below `removed`. -/
def Avoids (removed : List CString) (path : CString) : Prop :=
  ∃ names, (∀ name ∈ names, IsComponent name) ∧ path = pathOf names ∧ ¬removed <+: names

omit [Config] in
theorem Avoids.parent (hparent : copyParentPath path = some parentPath) (h : Avoids removed path) :
    Avoids removed parentPath := by
  obtain ⟨names, hnames, rfl, hnot⟩ := h
  cases names using List.reverseRecOn with
  | nil => cases hparent
  | append_singleton front name =>
      have hname := hnames name (List.mem_append_right _ List.mem_cons_self)
      rw [copyParentPath_pathOf hname.ne_nil hname.slash_notMem] at hparent
      cases hparent
      exact ⟨front, fun other hother => hnames other (List.mem_append_left _ hother), rfl,
        fun hinit => hnot (hinit.trans (List.prefix_append _ _))⟩

theorem CoherentOn.mono (h : CoherentOn P s) (hcache : t.cache = s.cache)
    (hwalk : ∀ path, P path → walk t path = walk s path) : CoherentOn P t := by
  intro a entry hentry hkey hpos
  rw [hcache] at hentry
  rw [hwalk _ hkey]
  exact h a entry hentry hkey hpos

theorem flushInodeCache_run (hrun : flushInodeCache true s = some ((), t)) :
    SameButCache s t ∧ Coherent t := by
  obtain ⟨_, u, hfree, hrest⟩ := bind_eq_some_iff.mp hrun
  obtain ⟨cache, -, rfl⟩ := zoom_eq_some_iff.mp hfree
  cases hrest
  exact ⟨⟨_, rfl⟩, coherent_empty _ _⟩

theorem forgetPath_run (h : CoherentOn P s) (hrun : forgetPath path s = some ((), t)) :
    SameButCache s t ∧ CoherentOn P t := by
  obtain ⟨removed, u, hremove, hrest⟩ := bind_eq_some_iff.mp hrun
  obtain ⟨hsame, hcoherent⟩ := h.within (InodeCache.removeCacheEntry_kept path) hremove
  cases removed with
  | true =>
      cases hrest
      exact ⟨hsame, hcoherent⟩
  | false =>
      obtain ⟨hsame', hcoherent'⟩ := flushInodeCache_run hrest
      exact ⟨trans_of SameButCache hsame hsame', hcoherent'.on P⟩

end Cache

/-! ## The operation -/

section Operation

variable {s t : FileSystem} {free : Multiset Int64} {parentInum inum : Int64} {name : CString}
  {names : List CString} {r : Int}

/-- The record of `inum` under `name` and one of its links are gone. -/
structure Unlinked (s : FileSystem) (parentInum : Int64) (name : CString) (inum : Int64)
    (t : FileSystem) : Prop where
  rooted : Rooted t
  outside : KeptOutside {inumIndex parentInum, inumIndex inum} s t
  gone : childOf t parentInum name = none
  other : ∀ i other, ¬(i = parentInum ∧ other = name) → childOf t i other = childOf s i other
  freed : (s.inodeAt (inumIndex inum)).iLinksCount = 1 → t.inodeAt (inumIndex inum) = Inode.zero
  room : ∃ contents, DirContents t (t.inodeAt (inumIndex parentInum)) contents ∧
    (contents.flatten.map Prod.fst).Nodup ∧ name.length ≤ maxFileNameLength ∧
      ∀ inum, RecordFits contents (name, inum)
  leaf : ∀ other, childOf s inum other = none

theorem Unlinked.follow_other (h : TreeFormed s free)
    (hparent : follow (childOf s) rootInodeNum names = some parentInum)
    (hunlinked : Unlinked s parentInum name inum t) {path : List CString}
    (hout : ¬names ++ [name] <+: path) :
    follow (childOf t) rootInodeNum path = follow (childOf s) rootInodeNum path :=
  h.tree.follow_removed hparent hunlinked.other hout

theorem Unlinked.walk_other (h : TreeFormed s free)
    (hparent : follow (childOf s) rootInodeNum names = some parentInum)
    (hunlinked : Unlinked s parentInum name inum t) {path : CString}
    (hout : Avoids (names ++ [name]) path) : walk t path = walk s path := by
  obtain ⟨names', hnames', rfl, hnot⟩ := hout
  rw [hunlinked.rooted.walk_pathOf hnames', h.rooted.walk_pathOf hnames',
    hunlinked.follow_other h hparent hnot]

theorem SameButCache.unlinked {u : FileSystem} (hsame : SameButCache t u)
    (h : Unlinked s parentInum name inum t) : Unlinked s parentInum name inum u where
  rooted := hsame.rooted h.rooted
  outside := h.outside.trans (hsame.outside _)
  gone := by
    rw [hsame.childOf_eq]
    exact h.gone
  other i other hne := by
    rw [hsame.childOf_eq]
    exact h.other i other hne
  freed hone := by
    rw [hsame.inodeAt]
    exact h.freed hone
  room := by
    obtain ⟨contents, hcontents, hroom⟩ := h.room
    rw [hsame.inodeAt]
    exact ⟨contents, hsame.dirContents hcontents, hroom⟩
  leaf := h.leaf

omit [Config] in
theorem forgetPath_defined {nodes : List Nat} (path : CString)
    (hinv : s.cache.CacheInv nodes) : ∃ t, forgetPath path s = some ((), t) := by
  rcases InodeCache.removeCacheEntry_defined hinv path with hmiss | ⟨cache, hremove⟩
  · obtain ⟨cache, hfree⟩ := InodeCache.freeInodeCache_run hinv
    exact ⟨_, (bind_of_eq (onCache_run hmiss)).trans (bind_of_eq (onCache_run hfree))⟩
  · exact ⟨_, bind_of_eq (onCache_run hremove)⟩

theorem unlinkEntry_run (h : TreeFormed s free) (hcoherent : Coherent s)
    (hparent : follow (childOf s) rootInodeNum names = some parentInum) (hname : IsComponent name)
    (hchild : childOf s parentInum name = some inum) (hleaf : ∀ other, childOf s inum other = none)
    (hrun : unlinkEntry (pathOf (names ++ [name])) name inum parentInum
      (s.inodeAt (inumIndex inum)) (s.inodeAt (inumIndex parentInum)) s = some (r, t)) :
    r = 0 ∧ Unlinked s parentInum name inum t ∧ CoherentOn (Avoids (names ++ [name])) t := by
  obtain ⟨hvalid, contents, hcontents, hrecords, hlookup⟩ := h.directory hchild
  obtain ⟨hinum, -⟩ := h.child hchild
  have hn := hvalid.index_lt
  have hm := hinum.index_lt
  have hne : parentInum ≠ inum := by
    rintro rfl
    rw [hleaf name] at hchild
    cases hchild
  have hindex : inumIndex inum ≠ inumIndex parentInum := fun heq =>
    hne (hinum.eq_of_index hvalid heq).symm
  obtain ⟨count, hmapped⟩ := h.wellMapped hm
  -- the record, the link, the parent
  obtain ⟨s₁, contents', hremove, hgone⟩ :=
    h.intact.removeRecord hn hcontents hrecords.unique hlookup
  have hat₁ := hgone.others.inodeAt _ hm hindex
  obtain ⟨s₂, hdrop, hdropped⟩ := @dropLink_run _ s₁ inum count hgone.intact hinum
    (hat₁.symm ▸ hmapped.kept (hgone.others.kept hm hindex))
    (hgone.head.symm ▸ h.owned.freeList.head_cases)
    (by rw [hgone.head, hgone.table]; exact h.head_notMem)
  rw [hat₁] at hdrop
  have hat₂ : s₂.inodeAt (inumIndex parentInum) = s₁.inodeAt (inumIndex parentInum) :=
    hdropped.others.inodeAt _ hn hindex.symm
  have hparentAt := hat₂.trans hgone.inodeAt
  obtain ⟨s₃, hwrite, hwritten⟩ := @Intact.writeCopy _ s₂ parentInum
    ((s.inodeAt (inumIndex parentInum)).removeChild (Config.timeAt s.clock)) hdropped.intact hvalid
    (by rw [hparentAt]; rfl) (by rw [hparentAt]; rfl)
  simp only [unlinkEntry, bind_of_eq hremove, Bool.not_true, Bool.false_eq_true, if_false,
    bind_of_eq hdrop, bind_of_eq hwrite] at hrun
  obtain ⟨_, u, hforget, hlast⟩ := bind_eq_some_iff.mp hrun
  cases hlast
  have hoff : ∀ {i j : Int64}, ValidInum j → i ≠ j → ValidInum i → inumIndex i ∉
      ({inumIndex j} : Finset Nat) := fun hj hij hi hmem =>
    hij (hi.eq_of_index hj (Finset.mem_singleton.mp hmem))
  have hdir₂ : DirContents s₂ (s₂.inodeAt (inumIndex parentInum)) contents' := by
    rw [hat₂]
    apply hgone.dir.of_disk_eq
    exact hdropped.others.outside.disk _ hn fun hmem => hindex.symm (Finset.mem_singleton.mp hmem)
  have hparentLookup : ∀ other, lookupIn s₃ parentInum other =
      some (contents'.flatten.lookup other) := fun other =>
    hwritten.intact.lookupIn_dir hvalid (hwritten.dir contents' hdir₂) other
  have hother : ∀ i other, ¬(i = parentInum ∧ other = name) → childOf s₃ i other = childOf s i other := by
    intro i other hpair
    by_cases hi : i = parentInum
    · subst hi
      apply childOf_congr
      rw [hparentLookup, h.lookupIn_dir hvalid hcontents]
      exact congrArg some (hgone.lookup other fun heq => hpair ⟨rfl, heq⟩)
    have hfirst : lookupIn s₁ i other = lookupIn s i other :=
      hgone.others.outside.lookupIn_eq h.intact hgone.intact (hoff hvalid hi) other
    by_cases hremoved : i = inum
    · subst hremoved
      rcases hdropped.lookup with hzero | hsame
      · have hnone : lookupIn s₃ i other = some none := by
          rw [hwritten.lookup]
          apply lookupIn_notDir hdropped.intact.format hinum
          rw [hzero]
          rfl
        rw [hleaf other, childOf, hnone, Option.join_some, ite_self]
      · apply childOf_congr
        rw [hwritten.lookup, hsame, hfirst]
    · apply childOf_congr
      rw [hwritten.lookup, hdropped.others.outside.lookupIn_eq hgone.intact hdropped.intact
        (hoff hinum hremoved) other, hfirst]
  have hgone₃ : childOf s₃ parentInum name = none := by
    rw [childOf_eq hname, hparentLookup, hgone.gone]
    rfl
  have hunlinked : Unlinked s parentInum name inum s₃ := by
    refine ⟨⟨hwritten.intact, h.root, ?_⟩, ?_, hgone₃, hother, fun hone => ?_, ?_, hleaf⟩
    · intro i other j hfound
      by_cases hpair : i = parentInum ∧ other = name
      · obtain ⟨rfl, rfl⟩ := hpair
        rw [hgone₃] at hfound
        cases hfound
      · rw [hother i other hpair] at hfound
        exact (h.child hfound).1
    · have hleft : {inumIndex parentInum} ⊆
          ({inumIndex parentInum, inumIndex inum} : Finset Nat) := by simp
      have hright : {inumIndex inum} ⊆
          ({inumIndex parentInum, inumIndex inum} : Finset Nat) := by simp
      exact (hgone.others.outside.mono hleft).trans
        ((hdropped.others.outside.mono hright).trans (hwritten.others.outside.mono hleft))
    · rw [hwritten.others.inodeAt _ hm hindex]
      apply hdropped.freed
      rw [hat₁]
      exact hone
    · exact ⟨contents', hwritten.dir contents' hdir₂, hgone.unique, hgone.short, hgone.fits⟩
  have hcoherent₃ : CoherentOn (Avoids (names ++ [name])) s₃ := by
    refine (hcoherent.on _).mono ?_ fun path hpath => hunlinked.walk_other h hparent hpath
    rw [hwritten.cache, hdropped.cache, hgone.cache]
  obtain ⟨hsame, hcoherent'⟩ := forgetPath_run hcoherent₃ hforget
  exact ⟨rfl, hsame.unlinked hunlinked, hcoherent'⟩

theorem SameButCache.unlinked_of {s' : FileSystem} (hsame : SameButCache s s')
    (h : Unlinked s' parentInum name inum t) : Unlinked s parentInum name inum t where
  rooted := h.rooted
  outside := (hsame.outside _).trans h.outside
  gone := h.gone
  other i other hne := by
    rw [← hsame.childOf_eq]
    exact h.other i other hne
  freed hone := by
    rw [← hsame.inodeAt] at hone
    exact h.freed hone
  room := h.room
  leaf other := by
    rw [← hsame.childOf_eq]
    exact h.leaf other

/-- Removing a leaf fails nowhere, up to the call that forgets its path. -/
theorem unlinkEntry_steps (h : TreeFormed s free) (hchild : childOf s parentInum name = some inum)
    (hleaf : ∀ other, childOf s inum other = none) :
    ∃ t, t.cache = s.cache ∧ ∀ path, unlinkEntry path name inum parentInum
      (s.inodeAt (inumIndex inum)) (s.inodeAt (inumIndex parentInum)) s =
        (do forgetPath path; pure 0 : Fs Int) t := by
  obtain ⟨hvalid, contents, hcontents, hrecords, hlookup⟩ := h.directory hchild
  obtain ⟨hinum, -⟩ := h.child hchild
  have hm := hinum.index_lt
  have hindex : inumIndex inum ≠ inumIndex parentInum := by
    intro heq
    obtain rfl := hinum.eq_of_index hvalid heq
    rw [hleaf name] at hchild
    cases hchild
  obtain ⟨count, hmapped⟩ := h.wellMapped hm
  obtain ⟨s₁, contents', hremove, hgone⟩ :=
    h.intact.removeRecord hvalid.index_lt hcontents hrecords.unique hlookup
  have hat₁ := hgone.others.inodeAt _ hm hindex
  obtain ⟨s₂, hdrop, hdropped⟩ := @dropLink_run _ s₁ inum count hgone.intact hinum
    (hat₁.symm ▸ hmapped.kept (hgone.others.kept hm hindex))
    (hgone.head.symm ▸ h.owned.freeList.head_cases)
    (by rw [hgone.head, hgone.table]; exact h.head_notMem)
  rw [hat₁] at hdrop
  have hwrite := @writeInode_run _ s₂ parentInum
    ((s.inodeAt (inumIndex parentInum)).removeChild (Config.timeAt s.clock)) hdropped.intact.format
    hvalid
  refine ⟨s₂.setInode (inumIndex parentInum) ((s.inodeAt (inumIndex parentInum)).removeChild
    (Config.timeAt s.clock)), hdropped.cache.trans hgone.cache, fun path => ?_⟩
  simp only [unlinkEntry, bind_of_eq hremove, Bool.not_true, Bool.false_eq_true, if_false,
    bind_of_eq hdrop, bind_of_eq hwrite]

/-- Why `altfs_unlink` removes nothing, with the code it returns. -/
inductive UnlinkRefused (s : FileSystem) (names : List CString) : Int → Prop
  | missing (h : follow (childOf s) rootInodeNum names = none) : UnlinkRefused s names (-enoent)
  | root (h : names = []) : UnlinkRefused s names (-eacces)
  | notEmpty {found : Int64} (h : follow (childOf s) rootInodeNum names = some found)
      (hne : names ≠ [])
      (hdir : (s.inodeAt (inumIndex found)).isDir = true)
      (hfull : isEmptyDir (s.inodeAt (inumIndex found)) = false) : UnlinkRefused s names (-enotempty)

/-- The leaf that `altfs_unlink` has found in state `s₂`, after two walks from `s`. -/
structure LeafFound (s : FileSystem) (names : List CString) (name : CString)
    (parentInum inum : Int64) (s₂ : FileSystem) : Prop where
  lookups : ∃ s₁, nameI (pathOf (names ++ [name])) s = some (inum, s₁) ∧
    nameI (pathOf names) s₁ = some (parentInum, s₂)
  same : SameButCache s s₂
  coherent : Coherent s₂
  parent : follow (childOf s) rootInodeNum names = some parentInum
  child : childOf s parentInum name = some inum
  leaf : ∀ other, childOf s inum other = none

/-- `altfs_unlink` refuses, or it goes on with a leaf. -/
theorem altfsUnlink_steps (h : TreeFormed s free) (hcoherent : Coherent s)
    (hnames : ∀ other ∈ names ++ [name], IsComponent other)
    (hrun : altfsUnlink (pathOf (names ++ [name])) s = some (r, t)) :
    (UnlinkRefused s (names ++ [name]) r ∧ SameButCache s t ∧ Coherent t) ∨
    ∃ parentInum inum s₂, LeafFound s names name parentInum inum s₂ ∧
      unlinkEntry (pathOf (names ++ [name])) name inum parentInum
        (s₂.inodeAt (inumIndex inum)) (s₂.inodeAt (inumIndex parentInum)) s₂ = some (r, t) := by
  have hname := hnames name (List.mem_append_right _ List.mem_cons_self)
  have hfront : ∀ other ∈ names, IsComponent other := fun other hother =>
    hnames other (List.mem_append_left _ hother)
  obtain ⟨inum, s₁, hnameI, hrest⟩ := bind_eq_some_iff.mp hrun
  have hsame₁ := nameI_sameButCache hnameI
  obtain ⟨hwalk, hcoherent₁⟩ := nameI_walk hcoherent hnameI
  split at hrest
  next hmissing =>
    cases hrest
    rw [hmissing, h.rooted.walk_eq_minusOne hnames] at hwalk
    exact .inl ⟨.missing hwalk, hsame₁, hcoherent₁⟩
  next hfound =>
  rw [h.rooted.walk_eq_some hnames hfound] at hwalk
  have hfollow := hwalk
  rw [follow_concat] at hwalk
  obtain ⟨parentInum, hparent, hchild⟩ := Option.bind_eq_some_iff.mp hwalk
  have hroot : inum ≠ rootInodeNum := fun heq => h.tree.root_ne parentInum name (heq ▸ hchild)
  rw [if_neg hroot] at hrest
  simp only [copyFileName_pathOf hname.ne_nil hname.slash_notMem,
    copyParentPath_pathOf hname.ne_nil hname.slash_notMem] at hrest
  have hinum := (h.child hchild).1
  have hvalid := h.rooted.valid hparent
  have h₁ := hsame₁.treeFormed h
  rw [bind_of_eq (getInode_run h₁.stored.toTableFormat hinum), hsame₁.inodeAt] at hrest
  split at hrest
  next hfull =>
    cases hrest
    exact .inl ⟨.notEmpty hfollow (List.append_ne_nil_of_right_ne_nil _ (List.cons_ne_nil _ _))
      hfull.1 (by simpa using hfull.2), hsame₁, hcoherent₁⟩
  next hleaf =>
  obtain ⟨found, s₂, hnameI', hrest⟩ := bind_eq_some_iff.mp hrest
  have hsame₂ : SameButCache s s₂ := trans_of SameButCache hsame₁ (nameI_sameButCache hnameI')
  obtain ⟨hwalk', hcoherent₂⟩ := nameI_walk hcoherent₁ hnameI'
  have h₂ := hsame₂.treeFormed h
  obtain rfl : found = parentInum := by
    rw [hsame₁.walk_eq, (h.rooted.walk_eq_some hfront hvalid.ne_minusOne).mpr hparent] at hwalk'
    exact (Option.some.inj hwalk').symm
  rw [if_neg hvalid.ne_minusOne,
    bind_of_eq (getInode_run h₂.stored.toTableFormat hvalid), ← hsame₂.inodeAt] at hrest
  exact .inr ⟨found, inum, s₂, ⟨⟨s₁, hnameI, hnameI'⟩, hsame₂, hcoherent₂, hparent, hchild,
    h.childOf_leaf hinum (by simpa using hleaf)⟩, hrest⟩

theorem UnlinkRefused.ne_zero (h : UnlinkRefused s names r) : r ≠ 0 := by
  cases h with
  | missing => decide
  | root => decide
  | notEmpty => decide

/-- `altfs_unlink` removes an edge to an inode without children, or nothing. -/
theorem altfsUnlink_cases (h : TreeFormed s free) (hcoherent : Coherent s)
    (hnames : ∀ other ∈ names ++ [name], IsComponent other)
    (hrun : altfsUnlink (pathOf (names ++ [name])) s = some (r, t)) :
    (r ≠ 0 ∧ SameButCache s t ∧ Coherent t) ∨
    r = 0 ∧ ∃ parentInum inum, follow (childOf s) rootInodeNum names = some parentInum ∧
      childOf s parentInum name = some inum ∧ Unlinked s parentInum name inum t ∧
      CoherentOn (Avoids (names ++ [name])) t := by
  have hname := hnames name (List.mem_append_right _ List.mem_cons_self)
  rcases altfsUnlink_steps h hcoherent hnames hrun with
    ⟨hrefused, hsame, hcoherent'⟩ | ⟨parentInum, inum, s₂, hfound, hrest⟩
  · exact .inl ⟨hrefused.ne_zero, hsame, hcoherent'⟩
  · have hchildOf := hfound.same.childOf_eq
    obtain ⟨rfl, hunlinked, hcoherent'⟩ := unlinkEntry_run (hfound.same.treeFormed h) hfound.coherent
      (by rw [hchildOf]; exact hfound.parent) hname (by rw [hchildOf]; exact hfound.child)
      (by rw [hchildOf]; exact hfound.leaf) hrest
    exact .inr ⟨rfl, parentInum, inum, hfound.parent, hfound.child,
      hfound.same.unlinked_of hunlinked, hcoherent'⟩

/-- `altfs_unlink` of a file that is found. -/
theorem altfsUnlink_run {k : Nat} (h : TreeFormed s free)
    (hnames : ∀ other ∈ names ++ [name], IsComponent other)
    (hready : Ready s ((pathOf (names ++ [name])).length + ((pathOf names).length + k)))
    (hparent : follow (childOf s) rootInodeNum names = some parentInum)
    (hchild : childOf s parentInum name = some inum)
    (hfile : (s.inodeAt (inumIndex inum)).isDir = false) :
    ∃ t, altfsUnlink (pathOf (names ++ [name])) s = some (0, t) := by
  have hname := hnames name (List.mem_append_right _ List.mem_cons_self)
  have hfront : ∀ other ∈ names, IsComponent other := fun other hother =>
    hnames other (List.mem_append_left _ hother)
  have hinum := (h.child hchild).1
  have hvalid := h.rooted.valid hparent
  have hroot : inum ≠ rootInodeNum := fun heq => h.tree.root_ne parentInum name (heq ▸ hchild)
  have hleaf : ∀ other, childOf s inum other = none := fun other => by
    rw [childOf, lookupIn_notDir h.stored.toTableFormat hinum hfile, Option.join_some, ite_self]
  have hfollow : follow (childOf s) rootInodeNum (names ++ [name]) = some inum := by
    rw [follow_concat, hparent]
    exact hchild
  obtain ⟨s₁, hnameI, hsame₁, hready₁⟩ :=
    nameI_run hready ((h.rooted.walk_eq_some hnames hinum.ne_minusOne).mpr hfollow)
  obtain ⟨s₂, hnameI', hsame₂, hready₂⟩ := nameI_run hready₁
    ((hsame₁.walk_eq _).trans ((h.rooted.walk_eq_some hfront hvalid.ne_minusOne).mpr hparent))
  have hto₂ : SameButCache s s₂ := trans_of SameButCache hsame₁ hsame₂
  have h₂ := hto₂.treeFormed h
  obtain ⟨t, hcache, hsteps⟩ := unlinkEntry_steps h₂ (by rw [hto₂.childOf_eq]; exact hchild)
    (by rw [hto₂.childOf_eq]; exact hleaf)
  obtain ⟨nodes, hinv⟩ := hready₂.inv
  rw [← hcache] at hinv
  obtain ⟨u, hforget⟩ := forgetPath_defined (pathOf (names ++ [name])) hinv
  have hread := getInode_run (hsame₁.treeFormed h).stored.toTableFormat hinum
  have hread' := getInode_run h₂.stored.toTableFormat hvalid
  have hisFile : ¬((s.inodeAt (inumIndex inum)).isDir = true ∧
      (!isEmptyDir (s.inodeAt (inumIndex inum))) = true) := by
    rw [hfile]
    exact fun hdir => Bool.noConfusion hdir.1
  refine ⟨u, ?_⟩
  rw [altfsUnlink, bind_of_eq hnameI, if_neg hinum.ne_minusOne, if_neg hroot]
  simp only [copyFileName_pathOf hname.ne_nil hname.slash_notMem,
    copyParentPath_pathOf hname.ne_nil hname.slash_notMem, bind_of_eq hread, hsame₁.inodeAt]
  rw [if_neg hisFile, bind_of_eq hnameI', if_neg hvalid.ne_minusOne, bind_of_eq hread',
    ← hto₂.inodeAt, hsteps]
  exact bind_of_eq hforget

theorem altfsUnlink_slash : altfsUnlink [slash] = pure (-eacces) := by
  funext s
  have hroot : ¬rootInodeNum = -1 := by decide
  rw [altfsUnlink, nameI_root]
  change (if rootInodeNum = -1 then _ else _ : Fs Int) s = _
  rw [if_neg hroot, if_pos rfl]

theorem altfsUnlink_root (hrun : altfsUnlink [slash] s = some (r, t)) : r ≠ 0 ∧ t = s := by
  rw [altfsUnlink_slash] at hrun
  cases hrun
  exact ⟨by decide, rfl⟩

end Operation

end AltFs
