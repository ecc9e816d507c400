import AltFs.Requests

/-!
# Every request is served

A program that is stuck has no result.  With an intact cache that evicts
nothing, and no removal of the only path in it, every callback returns.
-/

namespace AltFs

open Prog NamedTree

variable [Config]

/-- The run has a result and leaves room for `room` entries in an intact cache. -/
def Ends (room : Nat) {α : Type} (x : Fs α) (s : FileSystem) : Prop :=
  ∃ a t, x s = some (a, t) ∧ t.cache.Roomy room

section Ends

variable {α β : Type} {x : Fs α} {f : α → Fs β} {s t : FileSystem} {a : α} {k k' : Nat}

omit [Config] in
theorem ends_pure (h : s.cache.Roomy k) (a : α) : Ends k (pure a) s := ⟨a, s, rfl, h⟩

omit [Config] in
theorem Ends.bind (hx : x s = some (a, t)) (h : Ends k (f a) t) : Ends k (x >>= f) s := by
  obtain ⟨b, u, hrun, hroomy⟩ := h
  exact ⟨b, u, (bind_of_eq hx).trans hrun, hroomy⟩

omit [Config] in
theorem Ends.then (h : Ends k' x s)
    (hrest : ∀ a t, x s = some (a, t) → t.cache.Roomy k' → Ends k (f a) t) :
    Ends k (x >>= f) s := by
  obtain ⟨a, t, hrun, hroomy⟩ := h
  exact .bind hrun (hrest a t hrun hroomy)

omit [Config] in
theorem Ends.map (h : Ends k x s) (g : α → β) : Ends k (do pure (g (← x))) s :=
  h.then fun a t _ hroomy => ⟨g a, t, rfl, hroomy⟩

omit [Config] in
/-- What only writes to the device leaves the cache as it is. -/
theorem Ends.of_cacheKept (hkept : Within CacheKept x) (hroomy : s.cache.Roomy k)
    (hrun : x s = some (a, t)) : Ends k x s := by
  refine ⟨a, t, hrun, ?_⟩
  rw [show t.cache = s.cache from hkept _ _ _ hrun]
  exact hroomy

theorem writeInode_ends (hroomy : s.cache.Roomy k) (inum : Int64) (node : Inode) :
    Ends k (writeInode inum node) s := by
  have hread : ∀ b, ∃ buffer, altfsReadBlock b s = some (buffer, s) := by
    intro b
    unfold altfsReadBlock
    split
    · exact ⟨_, rfl⟩
    · exact ⟨_, rfl⟩
  have hwrite : ∀ b block, ∃ ok t, altfsWriteBlock b block s = some (ok, t) := by
    intro b block
    unfold altfsWriteBlock
    split
    · exact ⟨_, _, rfl⟩
    · exact ⟨_, _, rfl⟩
  unfold writeInode
  rw [Ends, get_bind_apply]
  split
  · exact ⟨_, s, rfl, hroomy⟩
  obtain ⟨buffer, hread⟩ := hread (Int64.ofInt (inumToBlockPos inum s).1)
  apply Ends.bind hread
  cases buffer with
  | none => exact ⟨_, s, rfl, hroomy⟩
  | some buffer =>
      obtain ⟨ok, t, hwrite⟩ := hwrite (Int64.ofInt (inumToBlockPos inum s).1)
        (putInode buffer (inumToBlockPos inum s).2 node)
      refine ⟨ok, t, hwrite, ?_⟩
      rcases altfsWriteBlock_cases hwrite with rfl | rfl
      · exact hroomy
      · exact hroomy

end Ends

/-! ## Looking up -/

section Lookup

variable {β : Type} {s t : FileSystem} {free : Multiset Int64} {names : List CString}
  {inum : Int64} {k k' : Nat}

/-- What a lookup leaves behind when it has found an inode. -/
structure LookedUp (s : FileSystem) (names : List CString) (k : Nat) (inum : Int64)
    (t : FileSystem) : Prop where
  run : nameI (pathOf names) s = some (inum, t)
  same : SameButCache s t
  coherent : Coherent t
  roomy : t.cache.Roomy k
  remembered : Remembered s (pathOf names) inum t
  found : inum ≠ -1
  follow : follow (childOf s) rootInodeNum names = some inum

/-- A lookup ends, whether it finds an inode or not. -/
theorem WholeTree.lookup (h : WholeTree s free) (hcoherent : Coherent s)
    (hnames : ∀ name ∈ names, IsComponent name)
    (hroomy : s.cache.Roomy ((pathOf names).length + k)) :
    (∃ t, nameI (pathOf names) s = some (-1, t) ∧ t.cache.Roomy k) ∨
      ∃ inum t, LookedUp s names k inum t := by
  obtain ⟨t, hname, hroomy', hremembered⟩ := nameI_remembered (P := fun _ => True)
    (fun _ _ _ _ => trivial) (hcoherent.on _) trivial hroomy (h.rooted.walk_pathOf hnames)
  obtain ⟨hsame, hcoherent', hlookup⟩ := nameI_wholeTree h hcoherent hnames hname
  rcases hlookup with ⟨hminus, -⟩ | ⟨hne, hfollow⟩
  · rw [hminus] at hname
    exact .inl ⟨t, hname, hroomy'⟩
  · exact .inr ⟨_, t, hname, hsame, hcoherent', hroomy', hremembered, hne, hfollow⟩

theorem Ends.nameI {f : Int64 → Fs β} (h : WholeTree s free) (hcoherent : Coherent s)
    (hnames : ∀ name ∈ names, IsComponent name)
    (hroomy : s.cache.Roomy ((pathOf names).length + k'))
    (hmissing : ∀ t, nameI (pathOf names) s = some (-1, t) → t.cache.Roomy k' → Ends k (f (-1)) t)
    (hfound : ∀ inum t, LookedUp s names k' inum t → Ends k (f inum) t) :
    Ends k (nameI (pathOf names) >>= f) s := by
  rcases h.lookup hcoherent hnames hroomy with ⟨t, hname, hroomy'⟩ | ⟨inum, t, hlooked⟩
  · exact .bind hname (hmissing t hname hroomy')
  · exact .bind hlooked.run (hfound inum t hlooked)

theorem LookedUp.valid (hlooked : LookedUp s names k inum t) (h : WholeTree s free) :
    ValidInum inum :=
  h.rooted.valid hlooked.follow

theorem LookedUp.format (hlooked : LookedUp s names k inum t) (h : WholeTree s free) :
    TableFormat t :=
  (hlooked.same.wholeTree h).stored.toTableFormat

end Lookup

/-! ## Requests that change no directory -/

section Operations

variable {s t : FileSystem} {free : Multiset Int64} {names : List CString} {inum offset : Int64}
  {mode : UInt32} {flags : Int64} {k nbytes : Nat} {buff : List UInt8}

variable (h : WholeTree s free) (hcoherent : Coherent s)
  (hnames : ∀ name ∈ names, IsComponent name)
  (hroomy : s.cache.Roomy ((pathOf names).length + k))

include h hcoherent hnames hroomy

theorem altfsAccess_ends : Ends k (altfsAccess (pathOf names)) s := by
  refine Ends.nameI h hcoherent hnames hroomy (fun t _ hroomy => ends_pure hroomy _) ?_
  intro inum t hlooked
  rw [if_neg hlooked.found]
  exact ends_pure hlooked.roomy _

theorem altfsGetattr_ends : Ends k (altfsGetattr (pathOf names)) s := by
  refine Ends.nameI h hcoherent hnames hroomy (fun t _ hroomy => ends_pure hroomy _) ?_
  intro inum t hlooked
  rw [if_neg hlooked.found]
  exact .bind (getInode?_run (hlooked.format h) (hlooked.valid h)) (ends_pure hlooked.roomy _)

theorem altfsChmod_ends : Ends k (altfsChmod (pathOf names) mode) s := by
  refine Ends.nameI h hcoherent hnames hroomy (fun t _ hroomy => ends_pure hroomy _) ?_
  intro inum t hlooked
  rw [if_neg hlooked.found]
  refine .bind (getInode?_run (hlooked.format h) (hlooked.valid h)) ?_
  refine .bind (writeInode_run (hlooked.format h) (hlooked.valid h)) ?_
  exact ⟨0, _, rfl, hlooked.roomy⟩

theorem altfsOpen_ends (hcreat : hasFlag flags oCreat = false)
    (htrunc : hasFlag flags oTrunc = false) : Ends k (altfsOpen (pathOf names) flags) s := by
  refine Ends.nameI h hcoherent hnames hroomy (fun t _ hroomy => ?_) ?_
  · rw [if_pos rfl, hcreat]
    exact ends_pure hroomy _
  · intro inum t hlooked
    rw [if_neg hlooked.found]
    refine .bind (getInode_run (hlooked.format h) (hlooked.valid h)) ?_
    rw [htrunc]
    split
    · exact ends_pure hlooked.roomy _
    · exact ends_pure hlooked.roomy _

theorem altfsRead_ends (hregular : ∀ node, view s names = some node → node.isRegular = true) :
    Ends k (altfsRead (pathOf names) nbytes offset) s := by
  by_cases hnone : nbytes = 0
  · rw [altfsRead, if_pos hnone]
    exact ends_pure (hroomy.mono (Nat.le_add_left _ _)) _
  by_cases hoffset : offset.toInt < 0
  · rw [altfsRead, if_neg hnone, if_pos hoffset]
    exact ends_pure (hroomy.mono (Nat.le_add_left _ _)) _
  rw [altfsRead, if_neg hnone, if_neg hoffset]
  refine Ends.nameI h hcoherent hnames hroomy (fun t _ hroomy => ends_pure hroomy _) ?_
  intro inum t hlooked
  have ht := hlooked.same.wholeTree h
  have hfile : (t.inodeAt (inumIndex inum)).isRegular = true := by
    rw [hlooked.same.inodeAt, h.isRegular hlooked.follow]
    exact hregular _ (view_eq_some hlooked.follow)
  obtain ⟨u, hread, hu⟩ := @altfsRead_run _ s free (pathOf names) inum t nbytes offset ht.toSound
    hlooked.run (hlooked.valid h) ((ht.served _ (hlooked.valid h).index_lt).file hfile) hnone
    (not_lt.mp hoffset)
  rw [altfsRead, if_neg hnone, if_neg hoffset, bind_of_eq hlooked.run] at hread
  refine ⟨_, u, hread, ?_⟩
  rcases hu with rfl | ⟨clock, currTime, rfl⟩
  · exact hlooked.roomy
  · exact hlooked.roomy

theorem altfsWrite_ends (hregular : ∀ node, view s names = some node → node.isRegular = true)
    (hroom : RoomForBytes s free names offset.toInt.toNat buff.length) :
    Ends k (altfsWrite (pathOf names) buff offset) s := by
  by_cases hempty : buff.length = 0
  · rw [altfsWrite, if_pos hempty]
    exact ends_pure (hroomy.mono (Nat.le_add_left _ _)) _
  by_cases hoffset : offset.toInt < 0
  · rw [altfsWrite, if_neg hempty, if_pos hoffset]
    exact ends_pure (hroomy.mono (Nat.le_add_left _ _)) _
  rw [altfsWrite, if_neg hempty, if_neg hoffset]
  refine Ends.nameI h hcoherent hnames hroomy (fun t _ hroomy => ends_pure hroomy _) ?_
  intro inum t hlooked
  rw [if_neg hlooked.found]
  have hfile : (t.inodeAt (inumIndex inum)).isRegular = true := by
    rw [hlooked.same.inodeAt, h.isRegular hlooked.follow]
    exact hregular _ (view_eq_some hlooked.follow)
  have hlt := offset.toInt_lt
  obtain ⟨u, free', hwrite, -⟩ :=
    @writeInum_wholeTree _ t free inum names offset.toInt.toNat buff (hlooked.same.wholeTree h)
      (by rw [hlooked.same.childOf_eq]; exact hlooked.follow) hfile
      (fun hnil => hempty (List.length_eq_zero_iff.mpr hnil)) (by omega)
      (by rw [hlooked.same.inodeAt]; exact hroom inum hlooked.follow)
  exact .of_cacheKept (writes_cacheKept.writeInum_within _ _ _) hlooked.roomy hwrite

theorem altfsReaddir_ends : Ends k (altfsReaddir (pathOf names)) s := by
  refine Ends.nameI h hcoherent hnames hroomy (fun t _ hroomy => ends_pure hroomy _) ?_
  intro inum t hlooked
  have ht := hlooked.same.wholeTree h
  have hn := (hlooked.valid h).index_lt
  have hread := getInode_run (hlooked.format h) (hlooked.valid h)
  cases hdir : (t.inodeAt (inumIndex inum)).isDir with
  | false =>
      rw [if_neg hlooked.found]
      apply Ends.bind hread
      rw [hdir]
      exact ends_pure hlooked.roomy _
  | true =>
      obtain ⟨contents, hcontents, hrecords⟩ := (ht.served _ hn).records hdir
      have hlist := altfsReaddir_run hlooked.run (hlooked.format h) (hlooked.valid h) hcontents
        (fun b hb => ht.owned.data b (Multiset.mem_of_le (blocks_le_tableBlocks hn) hb))
        hrecords.valid
      rw [altfsReaddir, bind_of_eq hlooked.run] at hlist
      exact ⟨_, t, hlist, hlooked.roomy⟩

end Operations

section Truncate

variable {s t : FileSystem} {free : Multiset Int64} {names : List CString} {inum length : Int64}
  {k : Nat}

theorem altfsTruncate_ends (h : WholeTree s free) (hcoherent : Coherent s)
    (hnames : ∀ name ∈ names, IsComponent name)
    (hroomy : s.cache.Roomy ((pathOf names).length + ((pathOf names).length + k)))
    (hregular : ∀ node, view s names = some node → node.isRegular = true)
    (hsize : CanResize s free names length.toInt.toNat) :
    Ends k (altfsTruncate (pathOf names) length) s := by
  refine Ends.nameI h hcoherent hnames hroomy (fun t _ hroomy => ?_) ?_
  · exact ends_pure (hroomy.mono (Nat.le_add_left _ _)) _
  intro inum t hlooked
  have hleft : t.cache.Roomy k := hlooked.roomy.mono (Nat.le_add_left _ _)
  have ht := hlooked.same.wholeTree h
  have hview := hlooked.same.view_eq h
  have hinum := hlooked.valid h
  obtain ⟨hroom, hcut⟩ := hsize inum hlooked.follow
  rw [if_neg hlooked.found]
  refine .bind (getInode_run (hlooked.format h) hinum) ?_
  rw [← hlooked.same.inodeAt] at hroom
  have hfile : (t.inodeAt (inumIndex inum)).isRegular = true := by
    rw [hlooked.same.inodeAt, h.isRegular hlooked.follow]
    exact hregular _ (view_eq_some hlooked.follow)
  have hnonneg := ((ht.served _ hinum.index_lt).file hfile).nonneg
  split
  · exact ends_pure hleft _
  split
  · exact ends_pure hleft _
  split
  · exact ends_pure hleft _
  split
  next hlonger =>
    refine (altfsWrite_ends ht hlooked.coherent hnames hlooked.roomy (by rwa [hview]) ?_).then
      fun written u _ hroomy => ?_
    · intro i hi
      rw [hlooked.same.childOf_eq, hlooked.follow] at hi
      cases hi
      rw [List.length_replicate]
      have hadded : (length.toInt - (t.inodeAt (inumIndex inum)).iFileSize.toInt).toNat =
          length.toInt.toNat - (t.inodeAt (inumIndex inum)).fileSize := by
        rw [Inode.fileSize]
        omega
      rw [hadded]
      apply hroom
      rw [Inode.fileSize]
      omega
    · split
      · exact ⟨_, u, rfl, hroomy⟩
      · exact ⟨_, u, rfl, hroomy⟩
  next hshorter =>
    have hfollow : NamedTree.follow (childOf t) rootInodeNum names = some inum := by
      rw [hlooked.same.childOf_eq]
      exact hlooked.follow
    have hlength : length.toInt.toNat ≤ (t.inodeAt (inumIndex inum)).fileSize := by
      rw [Inode.fileSize]
      omega
    have hcut : CanCut t free inum length.toInt.toNat := by
      unfold CanCut
      rwa [hlooked.same.inodeAt]
    obtain ⟨u, free', hshrink, -⟩ := shrinkTo_wholeTree ht hfollow hfile hlength hcut
    exact .of_cacheKept (writes_cacheKept.shrinkTo_within _ _ _) hleft hshrink

end Truncate

/-! ## Creating -/

section Create

variable {s s₁ t : FileSystem} {free : Multiset Int64} {names : List CString} {name : CString}
  {path parentPath : CString} {parentInum : Int64} {mode : UInt32} {k : Nat}

/-- Creating looks up the parent and changes the cache no further. -/
theorem createNewFile_cache {r : Except Int NewFile} (hparent : copyParentPath path = some parentPath)
    (hname : nameI parentPath s = some (parentInum, s₁))
    (hrun : createNewFile path mode s = some (r, t)) : t.cache = s₁.cache := by
  obtain ⟨created, u, hentry, hrest⟩ := bind_eq_some_iff.mp hrun
  have hcreated : u.cache = s₁.cache := by
    simp only [createEntry, hparent, bind_of_eq hname] at hentry
    refine (?_ : Within CacheKept _) _ _ _ hentry
    refine .ite (.pure _) (.bind (writes_cacheKept.reads.getInode_reads _) fun _ => ?_)
    refine .ite (.pure _) (.ite (.pure _) ?_)
    cases copyFileName path with
    | none => exact .pure _
    | some name =>
        refine .bind writes_cacheKept.allocateInode fun _ => .ite (.pure _) ?_
        exact .bind (writes_cacheKept.addDirectoryEntry_within _ _ _) fun _ => .pure _
  rw [← hcreated]
  refine (?_ : Within CacheKept _) _ _ _ hrest
  cases created with
  | error code => exact .pure _
  | ok created =>
      refine .ite (.bind (writes_cacheKept.freeInode _) fun _ => .pure _) ?_
      refine .bind writes_cacheKept.currentTime fun _ =>
        .bind (writes_cacheKept.writeInode _ _) fun _ => .ite (.pure _) ?_
      refine .bind (writes_cacheKept.reads.getInode_reads _) fun _ =>
        .bind (writes_cacheKept.writeInode _ _) fun _ => ?_
      exact .ite (.pure _) (.pure _)

theorem createNewFile_ends (h : WholeTree s free) (hcoherent : Coherent s)
    (hnames : ∀ other ∈ names ++ [name], IsComponent other)
    (hroomy : s.cache.Roomy ((pathOf names).length + k)) :
    Ends k (createNewFile (pathOf (names ++ [name])) mode) s := by
  have hname := hnames name (List.mem_append_right _ List.mem_cons_self)
  have hparent := @copyParentPath_pathOf _ names hname.ne_nil hname.slash_notMem
  have hfile := @copyFileName_pathOf _ names hname.ne_nil hname.slash_notMem
  have hfront : ∀ other ∈ names, IsComponent other := fun other hother =>
    hnames other (List.mem_append_left _ hother)
  -- a creation that is refused before the inode is allocated
  have hrefused : ∀ {code : Int} {u : FileSystem}, u.cache.Roomy k →
      createEntry (pathOf (names ++ [name])) s = some (.error code, u) →
      Ends k (createNewFile (pathOf (names ++ [name])) mode) s :=
    fun hroomy hentry => ⟨_, _, bind_of_eq hentry, hroomy⟩
  rcases h.lookup hcoherent hfront hroomy with ⟨s₁, hname₁, hroomy₁⟩ | ⟨parentInum, s₁, hlooked⟩
  · apply hrefused hroomy₁
    simp only [createEntry, hparent, bind_of_eq hname₁]
    rfl
  have h₁ := hlooked.same.wholeTree h
  have hvalid := hlooked.valid h
  have hread := getInode_run (hlooked.format h) hvalid
  have hroomy := hlooked.roomy
  cases hdir : (s₁.inodeAt (inumIndex parentInum)).isDir with
  | false =>
      apply hrefused hroomy
      simp only [createEntry, hparent, bind_of_eq hlooked.run, if_neg hlooked.found,
        bind_of_eq hread, hdir]
      rfl
  | true =>
  cases hwrite : (s₁.inodeAt (inumIndex parentInum)).canWrite with
  | false =>
      apply hrefused hroomy
      simp only [createEntry, hparent, bind_of_eq hlooked.run, if_neg hlooked.found,
        bind_of_eq hread, hdir, hwrite]
      rfl
  | true =>
      rcases h₁.allocate with ⟨hfull, hallocate⟩ | ⟨childInum, s₂, -, -, hchild⟩
      · apply hrefused hroomy
        rw [createEntry_run hparent hlooked.run h₁.toWellFormed hvalid hdir hwrite hfile,
          bind_of_eq hallocate]
        rfl
      · obtain ⟨contents, hcontents⟩ := h₁.dirs _ hvalid.index_lt hdir
        obtain ⟨r, t, hrun, -⟩ := @createNewFile_run _ s s₁ free parentInum _ _ name mode contents
          hparent hlooked.run h₁.toWellFormed hvalid hcontents hwrite hfile
          (by rw [← hchild.least]; exact hchild.valid.2)
        refine ⟨r, t, hrun, ?_⟩
        rw [createNewFile_cache hparent hlooked.run hrun]
        exact hroomy

/-- What is not found is not the root. -/
private theorem missing_concat (h : WholeTree s free) (hcoherent : Coherent s)
    (hnames : ∀ other ∈ names, IsComponent other)
    (hname : nameI (pathOf names) s = some (-1, t)) :
    WholeTree t free ∧ Coherent t ∧ ∃ front name, names = front ++ [name] ∧
      (pathOf front).length ≤ (pathOf names).length := by
  obtain ⟨hsame, hcoherent', hlookup⟩ := nameI_wholeTree h hcoherent hnames hname
  refine ⟨hsame.wholeTree h, hcoherent', ?_⟩
  cases names using List.reverseRecOn with
  | nil =>
      rcases hlookup with ⟨-, hnone⟩ | ⟨hne, -⟩
      · cases hnone
      · exact absurd rfl hne
  | append_singleton front name =>
      have hlast := hnames name (List.mem_append_right _ List.mem_cons_self)
      exact ⟨front, name, rfl, (length_copyParentPath (copyParentPath_pathOf hlast.ne_nil
        hlast.slash_notMem)).le⟩

theorem altfsMknod_ends (h : WholeTree s free) (hcoherent : Coherent s)
    (hnames : ∀ other ∈ names, IsComponent other)
    (hroomy : s.cache.Roomy ((pathOf names).length + ((pathOf names).length + k))) :
    Ends k (altfsMknod (pathOf names) mode) s := by
  refine Ends.nameI h hcoherent hnames hroomy (fun t hname hroomy₁ => ?_) fun inum t hlooked => ?_
  · rw [if_neg (not_not.mpr rfl)]
    obtain ⟨ht, hcoherent₁, front, name, rfl, hlength⟩ := missing_concat h hcoherent hnames hname
    have hroomy₂ := hroomy₁.mono (Nat.add_le_add_right hlength k)
    refine (createNewFile_ends ht hcoherent₁ hnames hroomy₂).then fun r u _ hroomy => ?_
    cases r with
    | error code => exact ⟨_, u, rfl, hroomy⟩
    | ok new => exact ⟨_, u, rfl, hroomy⟩
  · rw [if_pos hlooked.found]
    exact ends_pure (hlooked.roomy.mono (Nat.le_add_left _ _)) _

theorem altfsMkdir_ends (h : WholeTree s free) (hcoherent : Coherent s)
    (hnames : ∀ other ∈ names, IsComponent other)
    (hroomy : s.cache.Roomy ((pathOf names).length + ((pathOf names).length + k))) :
    Ends k (altfsMkdir (pathOf names) mode) s := by
  refine Ends.nameI h hcoherent hnames hroomy (fun t hname hroomy₁ => ?_) fun inum t hlooked => ?_
  · rw [if_neg (not_not.mpr rfl)]
    obtain ⟨ht, hcoherent₁, front, name, rfl, hlength⟩ := missing_concat h hcoherent hnames hname
    have hroomy₂ := hroomy₁.mono (Nat.add_le_add_right hlength k)
    refine (createNewFile_ends ht hcoherent₁ hnames hroomy₂).then fun r u hrun hroomy => ?_
    cases r with
    | error code => exact ⟨_, u, rfl, hroomy⟩
    | ok new =>
        obtain ⟨s₁, free', parentInum, name, contents, contents', -, -, -, -, hcreated, hnew⟩ :=
          createNewFile_ok ht.toWellFormed hcoherent₁ hrun
        have hnode : new.node = u.inodeAt (inumIndex new.childInodeNum) := by
          rw [hnew]
        have hdots := addDots_run hcreated.wellFormed hcreated.valid hcreated.emptyMap_child
          new.parentInum
        obtain ⟨added, node, v, hadd⟩ : ∃ added node v,
            addDots new.node new.childInodeNum new.parentInum u = some ((added, node), v) := by
          rw [hnode]
          rcases hdots with ⟨-, node', hadd⟩ | ⟨-, node₁, s₁, free', node₂, s₂, hadd, -⟩
          · exact ⟨_, _, _, hadd⟩
          · exact ⟨_, _, _, hadd⟩
        have hkept : Within CacheKept (addDots new.node new.childInodeNum new.parentInum) :=
          .bind (writes_cacheKept.addDirectoryEntry_within _ _ _) fun _ =>
            .ite (.pure _) (writes_cacheKept.addDirectoryEntry_within _ _ _)
        refine (Ends.of_cacheKept hkept hroomy hadd).then fun dir w _ hroomy => ?_
        obtain ⟨added, node⟩ := dir
        cases added with
        | false => exact ⟨_, w, rfl, hroomy⟩
        | true => exact writeInode_ends hroomy _ _
  · rw [if_pos hlooked.found]
    exact ends_pure (hlooked.roomy.mono (Nat.le_add_left _ _)) _

end Create

/-! ## Removing -/

section Remove

variable {s t : FileSystem} {free : Multiset Int64} {names : List CString} {name path : CString}
  {parentInum inum : Int64} {k : Nat}

omit [Config] in
theorem flushInodeCache_ends (hroomy : s.cache.Roomy k') (hk : k ≤ cacheCapacity) :
    Ends k (flushInodeCache true) s := by
  obtain ⟨nodes, hinv⟩ := hroomy.inv
  obtain ⟨cache, hfree⟩ := InodeCache.freeInodeCache_run hinv
  refine ⟨(), _, bind_of_eq (onCache_run hfree),
    ⟨[], InodeCache.createInodeCache_inv (by decide)⟩, ?_⟩
  change 0 + k ≤ cacheCapacity
  omega

omit [Config] in
theorem forgetPath_ends (hroomy : s.cache.Roomy k) (hk : k ≤ cacheCapacity)
    (hother : s.cache.nodes.length ≠ 1) : Ends k (forgetPath path) s := by
  obtain ⟨removed, cache, hremove, hroomy'⟩ := hroomy.removeCacheEntry path hother
  apply Ends.bind (onCache_run hremove)
  cases removed with
  | true => exact ⟨(), _, rfl, hroomy'⟩
  | false => exact flushInodeCache_ends (s := { s with cache := cache }) hroomy' hk

theorem unlinkEntry_ends (h : TreeFormed s free) (hchild : childOf s parentInum name = some inum)
    (hleaf : ∀ other, childOf s inum other = none) (hroomy : s.cache.Roomy k)
    (hk : k ≤ cacheCapacity) (hother : s.cache.nodes.length ≠ 1) :
    Ends k (unlinkEntry path name inum parentInum (s.inodeAt (inumIndex inum))
      (s.inodeAt (inumIndex parentInum))) s := by
  obtain ⟨t, hcache, hsteps⟩ := unlinkEntry_steps h hchild hleaf
  rw [Ends, hsteps]
  refine (forgetPath_ends ?_ hk ?_).then fun _ u _ hroomy' => ⟨0, u, rfl, hroomy'⟩
  · rw [hcache]
    exact hroomy
  · rw [hcache]
    exact hother

/-- The cache holds another path, or will when the parent has been looked up. -/
def KeepsOther (s : FileSystem) (path : CString) : Prop :=
  copyParentPath path ≠ some [slash] ∨ ∃ key, key ≠ path ∧ s.cache.Holds key

theorem altfsUnlink_ends (h : WholeTree s free) (hcoherent : Coherent s)
    (hnames : ∀ other ∈ names, IsComponent other)
    (hroomy : s.cache.Roomy ((pathOf names).length + ((pathOf names).length + k)))
    (hk : k ≤ cacheCapacity) (hother : KeepsOther s (pathOf names)) :
    Ends k (altfsUnlink (pathOf names)) s := by
  cases names using List.reverseRecOn with
  | nil =>
      change Ends k (altfsUnlink [slash]) s
      rw [altfsUnlink_slash]
      exact ends_pure (hroomy.mono (by omega)) _
  | append_singleton front name =>
      have hname := hnames name (List.mem_append_right _ List.mem_cons_self)
      have hfront : ∀ other ∈ front, IsComponent other := fun other hmem =>
        hnames other (List.mem_append_left _ hmem)
      have hparentPath := @copyParentPath_pathOf _ front hname.ne_nil hname.slash_notMem
      have hlength := length_copyParentPath hparentPath
      refine Ends.nameI h hcoherent hnames hroomy (fun t _ hroomy => ?_) fun inum t hlooked => ?_
      · exact ends_pure (hroomy.mono (Nat.le_add_left _ _)) _
      have hleft : t.cache.Roomy k := hlooked.roomy.mono (Nat.le_add_left _ _)
      have hfollow := hlooked.follow
      rw [follow_concat] at hfollow
      obtain ⟨parentInum, hparent, hchild⟩ := Option.bind_eq_some_iff.mp hfollow
      have hroot : inum ≠ rootInodeNum := fun heq =>
        h.tree.root_ne parentInum name (heq ▸ hchild)
      rw [if_neg hlooked.found, if_neg hroot]
      simp only [copyFileName_pathOf hname.ne_nil hname.slash_notMem, hparentPath]
      refine .bind (getInode_run (hlooked.format h) (hlooked.valid h)) ?_
      split
      · exact ends_pure hleft _
      next hempty =>
      refine Ends.nameI (hlooked.same.wholeTree h) hlooked.coherent hfront
        (hlooked.roomy.mono (by omega)) (fun u _ hroomy => ends_pure hroomy _)
        fun found u hlooked' => ?_
      have hsame := trans_of SameButCache hlooked.same hlooked'.same
      have hu := hsame.wholeTree h
      have hfound := hlooked'.follow
      rw [hlooked.same.childOf_eq, hparent] at hfound
      obtain rfl : parentInum = found := Option.some.inj hfound
      rw [if_neg hlooked'.found]
      refine .bind (getInode_run (hlooked'.format (hlooked.same.wholeTree h))
        (hlooked'.valid (hlooked.same.wholeTree h))) ?_
      rw [hlooked.same.inodeAt, ← hsame.inodeAt]
      apply unlinkEntry_ends hu.treeFormed
      · rw [hsame.childOf_eq]
        exact hchild
      · rw [hsame.childOf_eq]
        rw [hlooked.same.inodeAt] at hempty
        exact h.treeFormed.childOf_leaf (hlooked.valid h) (by simpa using hempty)
      · exact hlooked'.roomy
      · exact hk
      · have hpath := hlooked'.remembered.kept _ (hlooked.remembered.found hlooked.found
          (pathOf_concat_ne_root hname.ne_nil))
        rcases hother with hdeep | ⟨key, hne, hkey⟩
        · rw [hparentPath, Ne, Option.some_inj] at hdeep
          refine InodeCache.length_nodes_ne_one hpath
            (hlooked'.remembered.found hlooked'.found hdeep) fun heq => ?_
          have := congrArg List.length heq
          omega
        · exact InodeCache.length_nodes_ne_one hpath
            (hlooked'.remembered.kept _ (hlooked.remembered.kept _ hkey)) hne

end Remove

/-! ## Renaming -/

section Rename

variable {s t u : FileSystem} {free : Multiset Int64} {names toNames source target : List CString}
  {name toName : CString} {parentInum inum : Int64} {contents : List (List Entry)} {k : Nat}
  {P : CString → Prop} {currTime : Int64} {mayFail : Prop}

theorem removeSource_ends (h : Intact s) (hvalid : ValidInum parentInum)
    (hdir : DirContents s (s.inodeAt (inumIndex parentInum)) contents)
    (hunique : (contents.flatten.map Prod.fst).Nodup)
    (hlookup : contents.flatten.lookup name = some inum) (hname : IsComponent name)
    (hcoherent : CoherentOn P s) (hP : ∀ path parentPath, copyParentPath path = some parentPath →
      P path → P parentPath) (hpath : P (pathOf names))
    (hwalk : walk s (pathOf names) = some parentInum)
    (hroomy : s.cache.Roomy ((pathOf names).length + k)) (hk : k ≤ cacheCapacity) :
    Ends k (removeSource (pathOf (names ++ [name])) currTime) s := by
  obtain ⟨s₁, hnameI, hroomy₁, -⟩ := nameI_remembered hP hcoherent hpath hroomy hwalk
  have hsame := nameI_sameButCache hnameI
  have h₁ := hsame.intact h
  have hdir₁ := hsame.dirContents hdir
  rw [← hsame.inodeAt] at hdir₁
  obtain ⟨s₂, contents', hremove, hgone⟩ :=
    h₁.removeRecord hvalid.index_lt hdir₁ hunique hlookup
  simp only [removeSource, copyParentPath_pathOf hname.ne_nil hname.slash_notMem,
    copyFileName_pathOf hname.ne_nil hname.slash_notMem]
  apply Ends.bind hnameI
  rw [if_neg hvalid.ne_minusOne]
  refine .bind (getInode_run h₁.format hvalid) (.bind hremove ?_)
  have hroomy₂ : s₂.cache.Roomy k := by
    rw [hgone.cache]
    exact hroomy₁
  refine (writeInode_ends hroomy₂ _ _).then fun ok s₃ _ hroomy₃ => ?_
  cases ok with
  | false => exact ends_pure hroomy₃ _
  | true => exact (flushInodeCache_ends hroomy₃ hk).then fun _ v _ hroomy' => ends_pure hroomy' _

theorem moveEntry_ends (h : TargetAbsent toNames toName mayFail s)
    (hto : ∀ other ∈ toNames ++ [toName], IsComponent other)
    (hfrom : ∀ other ∈ names ++ [name], IsComponent other)
    (hparent : follow (childOf s) rootInodeNum names = some parentInum)
    (hdir : ∃ contents, DirContents s (s.inodeAt (inumIndex parentInum)) contents ∧
      (contents.flatten.map Prod.fst).Nodup)
    (hchild : childOf s parentInum name = some inum)
    (hout : Avoids (toNames ++ [toName]) (pathOf (names ++ [name])))
    (hroomy : s.cache.Roomy ((pathOf toNames).length +
      ((pathOf (names ++ [name])).length + ((pathOf names).length + k))))
    (hk : k ≤ cacheCapacity) :
    Ends k (moveEntry (pathOf (names ++ [name])) (pathOf (toNames ++ [toName]))) s := by
  have htoName := hto toName (List.mem_append_right _ List.mem_cons_self)
  have htoNames : ∀ other ∈ toNames, IsComponent other := fun other hother =>
    hto other (List.mem_append_left _ hother)
  have hname := hfrom name (List.mem_append_right _ List.mem_cons_self)
  have hnames : ∀ other ∈ names, IsComponent other := fun other hother =>
    hfrom other (List.mem_append_left _ hother)
  have hclosed : ∀ path parentPath, copyParentPath path = some parentPath →
      Avoids (toNames ++ [toName]) path → Avoids (toNames ++ [toName]) parentPath :=
    fun _ _ => Avoids.parent
  have htoPath : Avoids (toNames ++ [toName]) (pathOf toNames) := by
    refine ⟨toNames, htoNames, rfl, fun hinit => ?_⟩
    have hlength := hinit.length_le
    rw [List.length_append, List.length_singleton] at hlength
    omega
  have hpath := hout.parent (copyParentPath_pathOf hname.ne_nil hname.slash_notMem)
  simp only [moveEntry, copyParentPath_pathOf htoName.ne_nil htoName.slash_notMem,
    copyFileName_pathOf htoName.ne_nil htoName.slash_notMem]
  obtain ⟨s₁, hnameI, hroomy₁, -⟩ :=
    nameI_remembered hclosed h.coherent htoPath hroomy (h.walk_pathOf htoNames)
  have hsame₁ := nameI_sameButCache hnameI
  have hcoherent₁ := nameI_coherentOn hclosed h.coherent hnameI
  have h₁ := hsame₁.intact h.toIntact
  apply Ends.bind hnameI
  cases hfollow : follow (childOf s) rootInodeNum toNames with
  | none =>
      rw [Option.getD_none, if_pos rfl]
      exact ends_pure (hroomy₁.mono (by omega)) _
  | some toParentInum =>
      have htoValid := h.valid hfollow
      rw [Option.getD_some, if_neg htoValid.ne_minusOne]
      refine .bind (getInode_run h₁.format htoValid) ?_
      rw [hsame₁.inodeAt]
      split
      · exact ends_pure (hroomy₁.mono (by omega)) _
      next hisDir =>
      have hisDir : (s.inodeAt (inumIndex toParentInum)).isDir = true := by simpa using hisDir
      have hwalk : walk s₁ (pathOf (names ++ [name])) = some inum := by
        rw [hsame₁.walk_eq, h.walk_pathOf hfrom, follow_concat, hparent, Option.bind_some, hchild,
          Option.getD_some]
      obtain ⟨s₂, hnameI', hroomy₂, -⟩ :=
        nameI_remembered hclosed hcoherent₁ hout hroomy₁ hwalk
      have hsame₂ : SameButCache s s₂ := trans_of SameButCache hsame₁ (nameI_sameButCache hnameI')
      have hcoherent₂ := nameI_coherentOn hclosed hcoherent₁ hnameI'
      apply Ends.bind hnameI'
      rw [← hsame₂.inodeAt]
      cases h.add toParentInum hfollow hisDir s₂ hsame₂ inum with
      | refused hfail hadd hnothing =>
          refine .bind hadd ⟨_, _, rfl, ?_⟩
          have hcache := writes_cacheKept.addDirectoryEntry_within _ _ _ _ _ _ hadd
          rw [show _ = s₂.cache from hcache]
          exact hroomy₂.mono (by omega)
      | put hcontents hunique hnew hadd hput =>
          obtain ⟨u, hwrite, hadded⟩ := hput.write (hsame₂.intact h.toIntact) htoValid hcontents
            hunique hnew hadd
          obtain ⟨records, value, hrecords, hrecordsUnique, hvalue, hcoherent₃, hwalkSource⟩ :=
            h.sourceRecord hnames hparent hdir (.inr ⟨hchild, hout⟩) hpath hfollow hsame₂ hcoherent₂
              hadded
          refine .bind hadd (.bind rfl (.bind hwrite ?_))
          apply removeSource_ends hadded.intact (h.valid hparent) hrecords hrecordsUnique hvalue
            hname hcoherent₃ hclosed hpath hwalkSource _ hk
          rw [hadded.cache]
          exact hroomy₂

theorem unlinkTarget_ends (h : WholeTree s free) (hcoherent : Coherent s)
    (htarget : ∀ other ∈ target, IsComponent other)
    (hroomy : s.cache.Roomy (3 * (pathOf target).length + k)) (hk : k ≤ cacheCapacity)
    (hother : ∃ key, key ≠ pathOf target ∧ s.cache.Holds key) :
    Ends k (unlinkTarget (pathOf target)) s := by
  have hroomy' : s.cache.Roomy ((pathOf target).length + (2 * (pathOf target).length + k)) :=
    hroomy.mono (by omega)
  rcases h.lookup hcoherent htarget hroomy' with ⟨t, hname, hroomy₁⟩ | ⟨inum, t, hlooked⟩
  · refine Ends.bind (a := -enoent) (t := t) (bind_of_eq hname) ?_
    exact ends_pure (hroomy₁.mono (by omega)) _
  · have haccess : altfsAccess (pathOf target) s = some (0, t) := by
      rw [altfsAccess, bind_of_eq hlooked.run, if_neg hlooked.found]
      rfl
    apply Ends.bind haccess
    obtain ⟨key, hne, hkey⟩ := hother
    exact altfsUnlink_ends (hlooked.same.wholeTree h) hlooked.coherent htarget
      (hlooked.roomy.mono (by omega)) hk (.inr ⟨key, hne, hlooked.remembered.kept _ hkey⟩)

theorem altfsRename_ends (h : WholeTree s free) (hcoherent : Coherent s)
    (hsource : ∀ other ∈ source, IsComponent other) (htarget : ∀ other ∈ target, IsComponent other)
    (hbelow : ¬source <+: target)
    (hroomy : s.cache.Roomy (3 * (pathOf source).length + 4 * (pathOf target).length + k))
    (hk : 3 * (pathOf source).length + 4 * (pathOf target).length + k ≤ cacheCapacity) :
    Ends k (altfsRename (pathOf source) (pathOf target)) s := by
  obtain ⟨names, name, rfl⟩ := (List.eq_nil_or_concat source).resolve_left (by
    rintro rfl
    exact hbelow List.nil_prefix)
  rw [List.concat_eq_append] at *
  have hname := hsource name (List.mem_append_right _ List.mem_cons_self)
  have hlength := length_copyParentPath
    (@copyParentPath_pathOf _ names hname.ne_nil hname.slash_notMem)
  have hroomy' : s.cache.Roomy ((pathOf (names ++ [name])).length +
      (2 * (pathOf (names ++ [name])).length + 4 * (pathOf target).length + k)) :=
    hroomy.mono (by omega)
  rcases h.lookup hcoherent hsource hroomy' with ⟨s₁, hnameI, hroomy₁⟩ | ⟨inum, s₁, hlooked⟩
  · refine Ends.bind (a := -enoent) (t := s₁) (bind_of_eq hnameI) ?_
    rw [if_pos (by decide)]
    exact ends_pure (hroomy₁.mono (by omega)) _
  have haccess : altfsAccess (pathOf (names ++ [name])) s = some (0, s₁) := by
    rw [altfsAccess, bind_of_eq hlooked.run, if_neg hlooked.found]
    rfl
  have h₁ := hlooked.same.wholeTree h
  have hfollow := hlooked.follow
  rw [follow_concat] at hfollow
  obtain ⟨parentInum, hparent, hchild⟩ := Option.bind_eq_some_iff.mp hfollow
  rw [← hlooked.same.childOf_eq] at hparent hchild
  have hother : pathOf (names ++ [name]) ≠ pathOf target := by
    intro heq
    rw [pathOf_inj hsource htarget heq] at hbelow
    exact hbelow List.prefix_rfl
  apply Ends.bind haccess
  rw [if_neg (by decide)]
  refine (unlinkTarget_ends (k := 2 * (pathOf (names ++ [name])).length + (pathOf target).length + k)
    h₁ hlooked.coherent htarget (hlooked.roomy.mono (by omega)) (by omega) ⟨_, hother,
      hlooked.remembered.found hlooked.found (pathOf_concat_ne_root hname.ne_nil)⟩).then
    fun res u hunlink hroomy₂ => ?_
  rcases unlinkTarget_cases h₁.treeFormed hlooked.coherent htarget hunlink with
    ⟨hres, -⟩ | ⟨rfl, toNames, toName, rfl, hcase⟩
  · rw [if_pos hres]
    exact ends_pure (hroomy₂.mono (by omega)) _
  rw [if_neg (by decide)]
  have hcleared : ∃ mayFail, Cleared s₁ names name parentInum inum toNames toName mayFail u := by
    rcases hcase with ⟨hnone, hsame, hcoherent'⟩ |
      ⟨toParentInum, old, htoParent, hold, hunlinked, hcoherent'⟩
    · exact ⟨True, cleared_of_absent h₁.treeFormed htarget hsource hparent hchild hnone hsame
        hcoherent'⟩
    · exact ⟨False, cleared_of_unlinked h₁.treeFormed htarget hsource hparent hchild htoParent hold
        hunlinked hcoherent'⟩
  obtain ⟨mayFail, hcleared⟩ := hcleared
  have htoName := htarget toName (List.mem_append_right _ List.mem_cons_self)
  have htoLength := length_copyParentPath
    (@copyParentPath_pathOf _ toNames htoName.ne_nil htoName.slash_notMem)
  obtain ⟨hchild', hout⟩ := hcleared.source.resolve_left (by
    rintro ⟨rfl, rfl⟩
    exact hother rfl)
  exact moveEntry_ends hcleared.absent htarget hsource hcleared.parent hcleared.dir hchild' hout
    (hroomy₂.mono (by omega)) (by omega)

end Rename

/-! ## Every callback -/

/-- How many entries the lookups of a request may add to the cache. -/
def Request.cost : Request → Nat
  | access path | chmod path _ | getattr path | openFile path _ | read path _ _ | readdir path
  | write path _ _ => path.length
  | chown _ | utimens _ => 0
  | create path _ _ | mkdir path _ | mknod path _ | truncate path _ | rmdir path
  | unlink path => 2 * path.length
  | rename fromPath toPath => 3 * fromPath.length + 4 * toPath.length

/-- Removing the path leaves another one in the cache. -/
def Request.KeepsOther (s : FileSystem) : Request → Prop
  | rmdir path | unlink path => AltFs.KeepsOther s path
  | _ => True

theorem serve_ends {s : FileSystem} {free : Multiset Int64} {request : Request} {k : Nat}
    (h : Serving s free) (hallowed : request.Allowed s free) (hkeeps : request.KeepsOther s)
    (hroomy : s.cache.Roomy (request.cost + k)) (hk : request.cost + k ≤ cacheCapacity) :
    Ends k request.serve s := by
  have hcoherent := h.coherent
  have h := h.toWholeTree
  cases hallowed with
  | access hnames => exact (altfsAccess_ends h hcoherent hnames hroomy).map _
  | chown hnames => exact ends_pure (hroomy.mono (Nat.le_add_left _ _)) _
  | chmod hnames => exact (altfsChmod_ends h hcoherent hnames hroomy).map _
  | create hnames =>
      refine (altfsMknod_ends h hcoherent hnames (hroomy.mono ?_)).map _
      rw [Request.cost]
      omega
  | getattr hnames => exact (altfsGetattr_ends h hcoherent hnames hroomy).map _
  | openFile hnames hcreat htrunc =>
      exact (altfsOpen_ends h hcoherent hnames hroomy hcreat htrunc).map _
  | read hnames hregular => exact (altfsRead_ends h hcoherent hnames hroomy hregular).map _
  | readdir hnames => exact (altfsReaddir_ends h hcoherent hnames hroomy).map _
  | rmdir hnames =>
      refine (altfsUnlink_ends h hcoherent hnames (hroomy.mono ?_) (by omega) hkeeps).map _
      rw [Request.cost]
      omega
  | mkdir hnames =>
      refine (altfsMkdir_ends h hcoherent hnames (hroomy.mono ?_)).map _
      rw [Request.cost]
      omega
  | mknod hnames =>
      refine (altfsMknod_ends h hcoherent hnames (hroomy.mono ?_)).map _
      rw [Request.cost]
      omega
  | utimens hnames => exact ends_pure (hroomy.mono (Nat.le_add_left _ _)) _
  | truncate hnames hregular hsize =>
      refine (altfsTruncate_ends h hcoherent hnames (hroomy.mono ?_) hregular hsize).map _
      rw [Request.cost]
      omega
  | unlink hnames =>
      refine (altfsUnlink_ends h hcoherent hnames (hroomy.mono ?_) (by omega) hkeeps).map _
      rw [Request.cost]
      omega
  | write hnames hregular hroom =>
      exact (altfsWrite_ends h hcoherent hnames hroomy hregular hroom).map _
  | rename hsource htarget hbelow =>
      exact (altfsRename_ends h hcoherent hsource htarget hbelow hroomy hk).map _

end AltFs
