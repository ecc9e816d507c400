import AltFs.Serving
import AltFs.TableSteps

/-!
# Removing a name between two requests

`altfs_unlink` of the only name of an inode: its blocks return to the free
list, its path disappears from what the client sees, and the next request
finds the file system as `Serving` says.
-/

namespace AltFs

open Prog NamedTree

variable [Config]

section Cache

variable {s t : FileSystem} {path : CString} {P : CString → Prop}

theorem CoherentOn.coherent (h : CoherentOn P s) (hkeys : KeysIn P s) : Coherent s :=
  fun a entry hentry => h a entry hentry (hkeys a entry hentry)

/-- A path is forgotten when at most one node of the cache holds it. -/
theorem forgetPath_coherent (hone : s.cache.OneNode path) (hnormal : KeysIn Normal s)
    (h : CoherentOn (fun key => Normal key ∧ key ≠ path) s)
    (hrun : forgetPath path s = some ((), t)) :
    SameButCache s t ∧ Coherent t ∧ KeysIn Normal t := by
  obtain ⟨removed, u, hremove, hrest⟩ := bind_eq_some_iff.mp hrun
  obtain ⟨hsame, hcoherent⟩ := h.within (InodeCache.removeCacheEntry_kept path) hremove
  unfold removeFromInodeCache at hremove
  obtain ⟨cache, hcache, rfl⟩ := zoom_eq_some_iff.mp hremove
  have hkeys : cache.AllEntries fun _ key _ => Normal key :=
    InodeCache.removeCacheEntry_kept path _ _ _ hcache hnormal
  cases removed with
  | true =>
      cases hrest
      have habsent := InodeCache.removeCacheEntry_absent hone hcache
      refine ⟨hsame, hcoherent.coherent fun a entry hentry => ?_, hkeys⟩
      exact ⟨hkeys a entry hentry, habsent a entry hentry⟩
  | false =>
      obtain ⟨hsame', hcoherent'⟩ := flushInodeCache_run hrest
      exact ⟨trans_of SameButCache hsame hsame', hcoherent',
        (operations_keysKept Normal.parent).flushInodeCache _ _ _ hrest hkeys⟩

end Cache

section Entry

variable {s t : FileSystem} {free : Multiset Int64} {parentInum inum : Int64} {name path : CString}
  {names : List CString} {r : Int} {node parent : Inode}

/-- The blocks of the inode and its parent are left sound by `unlinkEntry`. -/
private theorem unlinkEntry_wellFormed (h : WholeTree s free)
    (hchild : childOf s parentInum name = some inum) (hleaf : ∀ other, childOf s inum other = none)
    (hfree : free = 0 → (s.inodeAt (inumIndex inum)).blocks s = 0)
    (hrun : unlinkEntry path name inum parentInum (s.inodeAt (inumIndex inum))
      (s.inodeAt (inumIndex parentInum)) s = some (r, t)) :
    ∃ free', WellFormed t free' ∧ free' + tableBlocks t = free + tableBlocks s ∧
      ∃ contents currTime, DirContents t (t.inodeAt (inumIndex parentInum)) contents ∧
        ServedRecords (inumIndex parentInum) (t.inodeAt (inumIndex parentInum)) contents.flatten ∧
        t.inodeAt (inumIndex parentInum) =
          (s.inodeAt (inumIndex parentInum)).removeChild currTime := by
  have hedge := h.edge hchild
  obtain ⟨hvalid, contents, hcontents, -, hlookup⟩ := h.treeFormed.directory hchild
  obtain ⟨records, hdir, hrecords⟩ := (h.served _ hvalid.index_lt).records hcontents.isDir
  obtain rfl := hcontents.unique hdir
  have hn := hvalid.index_lt
  have hm := hedge.valid.index_lt
  have hindex : inumIndex inum ≠ inumIndex parentInum := by
    intro heq
    obtain rfl := hedge.valid.eq_of_index hvalid heq
    rw [hleaf name] at hchild
    cases hchild
  -- the record, the inode, the parent
  obtain ⟨s₁, contents', hremove, hgone⟩ :=
    h.intact.removeRecord hn hcontents hrecords.unique hlookup
  have hwell₁ := hgone.wellFormed free h.toWellFormed
  have hat₁ := hgone.others.inodeAt _ hm hindex
  have hblocks₁ : (s₁.inodeAt (inumIndex inum)).blocks s₁ = (s.inodeAt (inumIndex inum)).blocks s := by
    rw [hat₁, (hgone.others.kept hm hindex).blocks]
  obtain ⟨s₂, hfreed, hreleased⟩ := hwell₁.release hedge.valid hedge.notFixed
    (by rw [hblocks₁]; exact hfree)
  have hdrop : dropLink inum (s.inodeAt (inumIndex inum)) s₁ = some ((), s₂) := by
    rw [dropLink, hedge.links]
    exact bind_of_eq hfreed
  have hat₂ : s₂.inodeAt (inumIndex parentInum) = s.inodeAt (inumIndex parentInum) :=
    (hreleased.others.inodeAt _ hn hindex.symm).trans hgone.inodeAt
  have hdir₂ : DirContents s₂ (s₂.inodeAt (inumIndex parentInum)) contents' := by
    rw [hat₂, ← hgone.inodeAt]
    apply hgone.dir.of_disk_eq
    exact hreleased.others.outside.disk _ hn fun hmem => hindex.symm (Finset.mem_singleton.mp hmem)
  let node : Inode := (s.inodeAt (inumIndex parentInum)).removeChild (Config.timeAt s.clock)
  have hmark := h.toWellFormed.isAllocated hn hcontents.isDir
  obtain ⟨hwell₃, htable₃⟩ := @WellFormed.writeCopy _ s₂ _ node parentInum hreleased.wellFormed
    hvalid (by rw [hat₂]; exact hmark) (by rw [hat₂]; exact ⟨rfl, rfl, rfl, hmark⟩)
  have hwrite := @writeInode_run _ s₂ parentInum node hreleased.wellFormed.stored.toTableFormat hvalid
  have hdir₃ : DirContents (s₂.setInode (inumIndex parentInum) node) node contents' := by
    rw [hat₂] at hdir₂
    have hcopy : DirContents s₂ node contents' := hdir₂.of_withMap rfl rfl
    apply hcopy.of_disk_eq
    intro b hb
    apply (SameData.setInode node hn).disk b
    apply hreleased.wellFormed.owned.data b
    apply Multiset.mem_of_le (blocks_le_tableBlocks hn)
    rw [hat₂]
    exact hb
  simp only [unlinkEntry, bind_of_eq hremove, Bool.not_true, Bool.false_eq_true, if_false,
    bind_of_eq hdrop] at hrun
  rw [bind_of_eq hwrite] at hrun
  obtain ⟨_, u, hforget, hlast⟩ := bind_eq_some_iff.mp hrun
  cases hlast
  have hsame := (forgetPath_run (P := fun _ => False) (fun _ _ _ hfalse => hfalse.elim) hforget).1
  obtain ⟨otherInum, hperm⟩ := hgone.entries
  have hrecords' : ServedRecords (inumIndex parentInum) node contents'.flatten :=
    hrecords.removed hperm hedge.component rfl
  refine ⟨_, hsame.wellFormed hwell₃, ?_, contents', Config.timeAt s.clock, ?_⟩
  · have htable₂ := hreleased.table
    rw [hgone.table] at htable₂
    rw [hsame.tableBlocks_eq, htable₃, htable₂, add_assoc]
  · rw [hsame.inodeAt, inodeAt_setInode_self]
    exact ⟨hsame.dirContents hdir₃, hrecords', rfl⟩

/-- `unlinkEntry` of a leaf takes its path out of the tree. -/
theorem unlinkEntry_wholeTree (h : WholeTree s free) (hcoherent : Coherent s)
    (hparent : follow (childOf s) rootInodeNum names = some parentInum)
    (hchild : childOf s parentInum name = some inum) (hleaf : ∀ other, childOf s inum other = none)
    (hfree : free = 0 → (s.inodeAt (inumIndex inum)).blocks s = 0)
    (hrun : unlinkEntry (pathOf (names ++ [name])) name inum parentInum
      (s.inodeAt (inumIndex inum)) (s.inodeAt (inumIndex parentInum)) s = some (r, t)) :
    r = 0 ∧ Unlinked s parentInum name inum t ∧ (∃ free', WholeTree t free' ∧
      free' + tableBlocks t = free + tableBlocks s) ∧
      view t = (view s).erase (names ++ [name]) := by
  have hedge := h.edge hchild
  obtain ⟨rfl, hunlinked, -⟩ := unlinkEntry_run h.treeFormed hcoherent hparent hedge.component hchild
    hleaf hrun
  obtain ⟨free', hwell, hconserved, contents, currTime, hcontents, hrecords, hparentAt⟩ :=
    unlinkEntry_wellFormed h hchild hleaf hfree hrun
  have hvalid := h.rooted.valid hparent
  have hzero := hunlinked.freed hedge.links
  have hsub : ∀ i other k, childOf t i other = some k → childOf s i other = some k := by
    intro i other k hfound
    by_cases hpair : i = parentInum ∧ other = name
    · rw [hpair.1, hpair.2, hunlinked.gone] at hfound
      cases hfound
    · rw [← hunlinked.other i other hpair]
      exact hfound
  have hout : ∀ {k}, ValidInum k → k ≠ parentInum → k ≠ inum →
      inumIndex k ∉ ({inumIndex parentInum, inumIndex inum} : Finset Nat) := by
    intro k hk hne hne' hmem
    rcases Finset.mem_insert.mp hmem with heq | heq
    · exact hne (hk.eq_of_index hvalid heq)
    · exact hne' (hk.eq_of_index hedge.valid (Finset.mem_singleton.mp heq))
  -- an inode that is not removed keeps its mode, its mark and its links
  have hkept : ∀ {k}, ValidInum k → k ≠ inum →
      SameKind (s.inodeAt (inumIndex k)) (t.inodeAt (inumIndex k)) := by
    intro k hk hne
    by_cases hself : k = parentInum
    · rw [hself, hparentAt]
      exact ⟨rfl, rfl, rfl⟩
    · rw [hunlinked.outside.inodeAt _ hk.index_lt (hout hk hself hne)]
      exact ⟨rfl, rfl, rfl⟩
  have hroot : rootInodeNum ≠ inum := fun heq => h.tree.root_ne parentInum name (heq ▸ hchild)
  refine ⟨rfl, hunlinked, ⟨free', ⟨hwell, h.root, ?_, fun n hn => ?_, fun {i other k} hfound => ?_,
    h.tree.of_sub hsub, fun {k} hk hallocated => ?_⟩, hconserved⟩, ?_⟩
  · rw [isDir_congr (hkept h.root hroot).mode]
    exact h.rootDir
  · by_cases hmem : n ∈ ({inumIndex parentInum, inumIndex inum} : Finset Nat)
    · rcases Finset.mem_insert.mp hmem with rfl | heq
      · exact .of_dir hcontents hrecords
      · rw [Finset.mem_singleton.mp heq]
        exact .of_zero hzero
    · exact hunlinked.outside.servedInode h.toSound hn hmem (h.served n hn)
  · have hother := hsub i other k hfound
    obtain ⟨hcomponent, hk, hfixed, hallocated, hlinks⟩ := h.edge hother
    have hne : k ≠ inum := by
      rintro rfl
      obtain ⟨rfl, rfl⟩ := h.tree.unique hother hchild
      rw [hunlinked.gone] at hfound
      cases hfound
    have hkind := hkept hk hne
    exact ⟨hcomponent, hk, hfixed, hkind.mark.trans hallocated, hkind.links.trans hlinks⟩
  · have hne : k ≠ inum := by
      rintro rfl
      rw [hzero] at hallocated
      cases hallocated
    rw [(hkept hk hne).mark] at hallocated
    exact h.tree.reached_removed hparent hchild hunlinked.other hunlinked.gone hleaf
      (h.reached hk hallocated) hne
  · apply h.tree.labels_removed hparent hchild hunlinked.other hunlinked.gone hleaf
    intro path k hpath hne
    have hk := h.rooted.valid hpath
    by_cases hself : k = parentInum
    · rw [hself]
      obtain ⟨-, _, hdir, -⟩ := h.treeFormed.directory hchild
      rw [nodeOf_of_isDir hdir.isDir, nodeOf_of_isDir hcontents.isDir, hparentAt]
      rfl
    · exact hunlinked.outside.nodeOf_eq h.toSound hk (hout hk hself hne) (h.served _ hk.index_lt)

end Entry

section Operation

variable {s t : FileSystem} {free : Multiset Int64} {parentInum inum : Int64}
  {names path : List CString} {r : Int}

/-- A directory that does not count as empty has a child. -/
theorem WholeTree.hasChild (h : WholeTree s free)
    (hfollow : follow (childOf s) rootInodeNum names = some inum)
    (hdir : (s.inodeAt (inumIndex inum)).isDir = true)
    (hfull : isEmptyDir (s.inodeAt (inumIndex inum)) = false) : (view s).HasChild names := by
  have hinum := h.rooted.valid hfollow
  obtain ⟨contents, hcontents, hrecords⟩ := (h.served _ hinum.index_lt).records hdir
  have hcount : (s.inodeAt (inumIndex inum)).iChildNum > 2 := by simpa [isEmptyDir] using hfull
  rw [gt_iff_lt, UInt64.lt_iff_toNat_lt, hrecords.childNum,
    ← List.length_map (f := Prod.fst)] at hcount
  obtain ⟨name, hmem, hdots⟩ : ∃ name ∈ contents.flatten.map Prod.fst, name ∉ [[dot], [dot, dot]] := by
    by_contra hall
    have hsub : contents.flatten.map Prod.fst ⊆ [[dot], [dot, dot]] := fun name hname =>
      not_not.mp fun hnot => hall ⟨name, hname, hnot⟩
    exact absurd hcount (Nat.not_lt.mpr (hrecords.unique.subperm hsub).length_le)
  refine ⟨name, fun hnone => ?_⟩
  rw [view_eq_none_iff, follow_concat, hfollow, Option.bind_some, childOf,
    if_neg (by simpa using hdots), h.lookupIn_dir hinum hcontents, Option.join_some,
    lookup_eq_none_iff] at hnone
  obtain ⟨entry, hentry, heq⟩ := List.mem_map.mp hmem
  exact hnone entry hentry heq

theorem UnlinkRefused.removes (h : WholeTree s free) (hrefused : UnlinkRefused s names r) :
    FileTree.Removes (view s) names r (view s) := by
  cases hrefused with
  | missing hnone => exact .missing (view_eq_none_iff.mpr hnone)
  | root heq => exact .root heq
  | notEmpty hfollow hne hdir hfull => exact .notEmpty hne (h.hasChild hfollow hdir hfull)

/-- A free block is needed to release the blocks of the inode that is removed. -/
def FreesBlocks (s : FileSystem) (free : Multiset Int64) (names : List CString) : Prop :=
  ∀ inum, follow (childOf s) rootInodeNum names = some inum →
    free = 0 → (s.inodeAt (inumIndex inum)).blocks s = 0

theorem altfsUnlink_wholeTree (h : WholeTree s free) (hcoherent : Coherent s)
    (hnames : ∀ name ∈ names, IsComponent name) (hfree : FreesBlocks s free names)
    (hrun : altfsUnlink (pathOf names) s = some (r, t)) :
    FileTree.Removes (view s) names r (view t) ∧ ∃ free', WholeTree t free' ∧
      free' + tableBlocks t = free + tableBlocks s := by
  cases names using List.reverseRecOn with
  | nil =>
      change altfsUnlink [slash] s = _ at hrun
      rw [altfsUnlink_slash] at hrun
      cases hrun
      exact ⟨.root rfl, free, h, rfl⟩
  | append_singleton front name =>
      rcases altfsUnlink_steps h.treeFormed hcoherent hnames hrun with
        ⟨hrefused, hsame, -⟩ | ⟨parentInum, inum, s₂, hfound, hrest⟩
      · rw [hsame.view_eq h]
        exact ⟨hrefused.removes h, free, hsame.wholeTree h, by
          rw [hsame.tableBlocks_eq]⟩
      · have hname := hnames name (List.mem_append_right _ List.mem_cons_self)
        have hsame := hfound.same
        have hchildOf := hsame.childOf_eq
        have hfollow : follow (childOf s) rootInodeNum (front ++ [name]) = some inum := by
          rw [follow_concat, hfound.parent]
          exact hfound.child
        have hblocks : (s₂.inodeAt (inumIndex inum)).blocks s₂ =
            (s.inodeAt (inumIndex inum)).blocks s := by
          rw [hsame.inodeAt]
          exact ((hsame.outside ∅).kept (h.edge hfound.child).valid.index_lt
            (Finset.notMem_empty _)).blocks
        obtain ⟨rfl, -, ⟨free', htree, hconserved⟩, hview⟩ := unlinkEntry_wholeTree
          (hsame.wholeTree h) hfound.coherent (by rw [hchildOf]; exact hfound.parent)
          (by rw [hchildOf]; exact hfound.child) (by rw [hchildOf]; exact hfound.leaf)
          (by rw [hblocks]; exact hfree inum hfollow) hrest
        rw [hview, hsame.view_eq h]
        refine ⟨.done ?_ ?_ ?_, free', htree, ?_⟩
        · exact List.append_ne_nil_of_right_ne_nil _ (List.cons_ne_nil _ _)
        · rw [view_eq_some hfollow]
          exact Option.some_ne_none _
        · rintro ⟨other, hother⟩
          apply hother
          rw [view_eq_none_iff, follow_concat, hfollow]
          exact hfound.leaf other
        · rw [hconserved, hsame.tableBlocks_eq]

/-- Once `altfs_unlink` has walked to the path, at most one node of the cache holds it. -/
def ForgetsPath (s : FileSystem) (path : CString) : Prop :=
  ∀ inum s₁ parentPath parentInum s₂, nameI path s = some (inum, s₁) →
    copyParentPath path = some parentPath → nameI parentPath s₁ = some (parentInum, s₂) →
    s₂.cache.OneNode path

private theorem unlinkEntry_forgets {childName : CString} {node parent : Inode} {path : CString}
    (hrun : unlinkEntry path childName inum parentInum node parent s = some (0, t)) :
    ∃ u, u.cache = s.cache ∧ forgetPath path u = some ((), t) := by
  obtain ⟨⟨removed, parent'⟩, s₁, hremove, hrest⟩ := bind_eq_some_iff.mp hrun
  have hcache₁ : s₁.cache = s.cache :=
    writes_cacheKept.removeDirectoryEntry_within parent childName _ _ _ hremove
  cases removed with
  | false => cases hrest
  | true =>
      obtain ⟨_, s₂, hdrop, hrest⟩ := bind_eq_some_iff.mp hrest
      obtain ⟨_, s₃, hwrite, hrest⟩ := bind_eq_some_iff.mp hrest
      obtain ⟨_, u, hforget, hlast⟩ := bind_eq_some_iff.mp hrest
      cases hlast
      have hcache₂ : s₂.cache = s₁.cache := writes_cacheKept.dropLink_within inum node _ _ _ hdrop
      have hcache₃ : s₃.cache = s₂.cache := writes_cacheKept.writeInode _ _ _ _ _ hwrite
      exact ⟨s₃, hcache₃.trans (hcache₂.trans hcache₁), hforget⟩

theorem altfsUnlink_serving (h : Serving s free) (hnames : ∀ name ∈ names, IsComponent name)
    (hfree : FreesBlocks s free names) (hforgets : ForgetsPath s (pathOf names))
    (hrun : altfsUnlink (pathOf names) s = some (r, t)) :
    FileTree.Removes (view s) names r (view t) ∧ ∃ free', Serving t free' ∧
      free' + tableBlocks t = free + tableBlocks s := by
  obtain ⟨hremoves, free', htree, hconserved⟩ :=
    altfsUnlink_wholeTree h.toWholeTree h.coherent hnames hfree hrun
  have hnormal : KeysIn Normal t := (operations_keysKept Normal.parent).altfsUnlink_within
    (normal_pathOf hnames) _ _ _ hrun h.normal
  refine ⟨hremoves, free', ⟨htree, ?_, hnormal⟩, hconserved⟩
  cases names using List.reverseRecOn with
  | nil =>
      change altfsUnlink [slash] s = _ at hrun
      rw [altfsUnlink_slash] at hrun
      cases hrun
      exact h.coherent
  | append_singleton front name =>
      rcases altfsUnlink_steps h.treeFormed h.coherent hnames hrun with
        ⟨-, -, hcoherent⟩ | ⟨parentInum, inum, s₂, hfound, hrest⟩
      · exact hcoherent
      · have hname := hnames name (List.mem_append_right _ List.mem_cons_self)
        have hchildOf := hfound.same.childOf_eq
        obtain ⟨rfl, hunlinked, -⟩ := unlinkEntry_run (hfound.same.treeFormed h.treeFormed)
          hfound.coherent (by rw [hchildOf]; exact hfound.parent) hname
          (by rw [hchildOf]; exact hfound.child) (by rw [hchildOf]; exact hfound.leaf) hrest
        obtain ⟨u, hcache, hforget⟩ := unlinkEntry_forgets hrest
        obtain ⟨s₁, hlookup, hlookup'⟩ := hfound.lookups
        have hone := hforgets _ _ _ _ _ hlookup
          (copyParentPath_pathOf hname.ne_nil hname.slash_notMem) hlookup'
        have hsame := (forgetPath_run (P := fun _ => False) (fun _ _ _ hfalse => hfalse.elim)
          hforget).1
        have hkeys : KeysIn Normal s₂ :=
          (operations_keysKept Normal.parent).nameI (normal_pathOf fun other hother =>
            hnames other (List.mem_append_left _ hother)) _ _ _ hlookup'
              ((operations_keysKept Normal.parent).nameI (normal_pathOf hnames) _ _ _ hlookup
                h.normal)
        rw [← hcache] at hone
        have hkeys' : KeysIn Normal u := by
          rw [KeysIn, hcache]
          exact hkeys
        refine (forgetPath_coherent hone hkeys' ?_ hforget).2.1
        apply (hfound.coherent.on _).mono hcache
        -- only the path that is removed leads somewhere else
        rintro path ⟨⟨names', hnames', rfl⟩, hne⟩
        rw [← hsame.walk_eq, hfound.same.walk_eq, hunlinked.rooted.walk_pathOf hnames',
          h.rooted.walk_pathOf hnames']
        have hother : ∀ k n, ¬(k = parentInum ∧ n = name) → childOf t k n = childOf s k n := by
          intro k n hpair
          rw [hunlinked.other k n hpair, hchildOf]
        rw [h.tree.follow_removed_other hfound.parent hfound.child hother hunlinked.gone hfound.leaf
          fun heq => hne (congrArg pathOf heq)]

end Operation

end AltFs
