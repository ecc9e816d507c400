import AltFs.FreshFiles
import AltFs.OpenRuns

/-!
# Failed creations

`altfs_mkdir`, `altfs_mknod` and a creating `altfs_open` that fail.
-/

namespace AltFs

open Prog

variable [Config]

section NewFile

variable {s s₁ t : FileSystem} {free : Multiset Int64} {parentInum : Int64}
  {path name : CString} {mode : UInt32} {contents : List (List Entry)}

/-- `create_new_file` comes to adding a record for `name` to the directory `parentInum`. -/
structure Attempted (s : FileSystem) (path : CString) (parentInum : Int64) (name : CString) :
    Prop where
  file : copyFileName path = some name
  parent : ∃ parentPath, copyParentPath path = some parentPath ∧
    walk s parentPath = some parentInum
  valid : ValidInum parentInum
  isDir : (s.inodeAt (inumIndex parentInum)).isDir = true
  canWrite : (s.inodeAt (inumIndex parentInum)).canWrite = true
  vacant : s.superblock.sFirstIno.toInt < inodeCount

theorem Attempted.unique {parentInum' : Int64} {name' : CString}
    (h : Attempted s path parentInum name) (h' : Attempted s path parentInum' name') :
    parentInum' = parentInum ∧ name' = name := by
  obtain ⟨parentPath, hpath, hwalk⟩ := h.parent
  obtain ⟨parentPath', hpath', hwalk'⟩ := h'.parent
  obtain rfl : parentPath = parentPath' := by simpa [hpath] using hpath'
  have hfile := h'.file
  rw [h.file] at hfile
  rw [hwalk] at hwalk'
  cases hfile
  cases hwalk'
  exact ⟨rfl, rfl⟩

theorem SameButCache.attempted (hsame : SameButCache s t)
    (h : Attempted s path parentInum name) : Attempted t path parentInum name where
  file := h.file
  parent := by
    obtain ⟨parentPath, hpath, hwalk⟩ := h.parent
    exact ⟨parentPath, hpath, (hsame.walk_eq parentPath).trans hwalk⟩
  valid := h.valid
  isDir := by
    rw [hsame.inodeAt]
    exact h.isDir
  canWrite := by
    rw [hsame.inodeAt]
    exact h.canWrite
  vacant := by
    obtain ⟨cache, rfl⟩ := hsame
    exact h.vacant

omit [Config] in
theorem SameButCache.symm (h : SameButCache s t) : SameButCache t s := by
  obtain ⟨cache, rfl⟩ := h
  exact ⟨s.cache, rfl⟩

theorem SameButCache.sameBlocks (h : SameButCache s t) (hsound : Sound s free) :
    SameBlocks s free t where
  freeList := (h.sound hsound).owned.freeList
  tableBlocks := h.tableBlocks_eq
  vacant m hm := by
    rw [h.inodeAt]
    exact (hsound.inodes m hm).vacant

theorem createEntry_cases {r : Except Int CreatedEntry} (h : WellFormed s free)
    (hcoherent : Coherent s) (hrun : createEntry path s = some (r, t)) :
    ((∃ code < 0, r = .error code) ∧ SameButCache s t ∧ Coherent t ∧
      ∀ parentInum name, ¬Attempted s path parentInum name) ∨
    ∃ parentPath parentInum name s₁, copyParentPath path = some parentPath ∧
      nameI parentPath s = some (parentInum, s₁) ∧ Attempted s path parentInum name := by
  cases hparent : copyParentPath path with
  | none =>
      simp only [createEntry, hparent] at hrun
      cases hrun
      refine .inl ⟨⟨_, by decide, rfl⟩, refl_of SameButCache _, hcoherent, fun _ _ hattempted => ?_⟩
      obtain ⟨parentPath, hpath, -⟩ := hattempted.parent
      rw [hparent] at hpath
      cases hpath
  | some parentPath =>
      simp only [createEntry, hparent] at hrun
      obtain ⟨parentInum, s₁, hname, hrest⟩ := bind_eq_some_iff.mp hrun
      have hsame := nameI_sameButCache hname
      obtain ⟨hwalk, hcoherent₁⟩ := nameI_walk hcoherent hname
      have h₁ := hsame.wellFormed h
      -- an attempt is one at the directory that has been found
      have hfound : ∀ {parentInum' name'}, Attempted s path parentInum' name' →
          parentInum' = parentInum := by
        intro parentInum' name' hattempted
        obtain ⟨parentPath', hpath', hwalk'⟩ := hattempted.parent
        rw [hparent] at hpath'
        cases hpath'
        rw [hwalk] at hwalk'
        exact (Option.some.inj hwalk').symm
      split at hrest
      next hmissing =>
        cases hrest
        refine .inl ⟨⟨_, by decide, rfl⟩, hsame, hcoherent₁, fun _ _ hattempted => ?_⟩
        have hvalid := hattempted.valid
        rw [hfound hattempted, hmissing] at hvalid
        exact absurd hvalid.1 (by decide)
      obtain ⟨node, s₂, hread, hrest⟩ := bind_eq_some_iff.mp hrest
      obtain ⟨hvalid, rfl, rfl⟩ := h₁.validInum_of_getInode hread
      rw [hsame.inodeAt] at hrest
      split at hrest
      next hnotDir =>
        cases hrest
        refine .inl ⟨⟨_, by decide, rfl⟩, hsame, hcoherent₁, fun _ _ hattempted => ?_⟩
        have hisDir := hattempted.isDir
        rw [hfound hattempted] at hisDir
        rw [hisDir] at hnotDir
        cases hnotDir
      next hisDir =>
      split at hrest
      next hreadOnly =>
        cases hrest
        refine .inl ⟨⟨_, by decide, rfl⟩, hsame, hcoherent₁, fun _ _ hattempted => ?_⟩
        have hwrite := hattempted.canWrite
        rw [hfound hattempted] at hwrite
        rw [hwrite] at hreadOnly
        cases hreadOnly
      next hwrite =>
      cases hfile : copyFileName path with
      | none =>
          simp only [hfile] at hrest
          cases hrest
          refine .inl ⟨⟨_, by decide, rfl⟩, hsame, hcoherent₁, fun _ _ hattempted => ?_⟩
          have hname' := hattempted.file
          rw [hfile] at hname'
          cases hname'
      | some name =>
          simp only [hfile] at hrest
          rcases h₁.allocate with ⟨hfull, hallocate⟩ | ⟨childInum, s₃, -, -, halloc⟩
          · rw [bind_of_eq hallocate] at hrest
            cases hrest
            refine .inl ⟨⟨_, by decide, rfl⟩, hsame, hcoherent₁, fun _ _ hattempted => ?_⟩
            have hvacant := (hsame.attempted hattempted).vacant
            omega
          · refine .inr ⟨parentPath, parentInum, name, _, rfl, hname, hfile,
              ⟨parentPath, hparent, hwalk⟩, hvalid, ?_, ?_, ?_⟩
            · simpa using hisDir
            · simpa using hwrite
            · have hlt := halloc.valid.2
              rw [halloc.least] at hlt
              obtain ⟨cache, rfl⟩ := hsame
              exact hlt

/-- Without an attempt to add a record `create_new_file` changes nothing. -/
theorem createNewFile_steps {r : Except Int NewFile} (h : WellFormed s free)
    (hcoherent : Coherent s) (hrun : createNewFile path mode s = some (r, t)) :
    ((∃ code < 0, r = .error code) ∧ SameButCache s t ∧ Coherent t ∧
      ∀ parentInum name, ¬Attempted s path parentInum name) ∨
    ∃ parentInum name s₁, Attempted s path parentInum name ∧ SameButCache s s₁ ∧ Coherent s₁ ∧
      ∀ contents, DirContents s (s.inodeAt (inumIndex parentInum)) contents →
        CreateOutcome s₁ free parentInum name mode contents r t := by
  obtain ⟨result, u, hentry, hrest⟩ := bind_eq_some_iff.mp hrun
  rcases createEntry_cases h hcoherent hentry with
    ⟨⟨code, hcode, rfl⟩, hsame, hcoherent', hnone⟩ |
      ⟨parentPath, parentInum, name, s₁, hparent, hname, hattempted⟩
  · cases hrest
    exact .inl ⟨⟨code, hcode, rfl⟩, hsame, hcoherent', hnone⟩
  · have hsame := nameI_sameButCache hname
    have hattempted₁ := hsame.attempted hattempted
    refine .inr ⟨parentInum, name, s₁, hattempted, hsame, (nameI_walk hcoherent hname).2,
      fun contents hdir => ?_⟩
    rw [← hsame.inodeAt] at hdir
    obtain ⟨r', t', hrun', houtcome⟩ := @createNewFile_run _ _ _ _ _ _ _ _ mode _ hparent hname
      (hsame.wellFormed h) hattempted.valid (hsame.dirContents hdir) hattempted₁.canWrite
      hattempted.file hattempted₁.vacant
    rw [hrun] at hrun'
    cases hrun'
    exact houtcome

theorem createNewFile_cases {r : Except Int NewFile} (h : WellFormed s free)
    (hcoherent : Coherent s) (hrun : createNewFile path mode s = some (r, t)) :
    ((∃ code < 0, r = .error code) ∧ SameNamespace s t ∧ SameBlocks s free t ∧
      ∀ parentInum name, ¬Attempted s path parentInum name) ∨
    ∃ parentInum name s₁, Attempted s path parentInum name ∧ SameButCache s s₁ ∧ Coherent s₁ ∧
      ∀ contents, DirContents s (s.inodeAt (inumIndex parentInum)) contents →
        CreateOutcome s₁ free parentInum name mode contents r t := by
  rcases createNewFile_steps h hcoherent hrun with ⟨hcode, hsame, -, hnone⟩ | hattempt
  · exact .inl ⟨hcode, hsame.sameNamespace h, hsame.sameBlocks h.toSound, hnone⟩
  · exact .inr hattempt

theorem createNewFile_error {code : Int} (h : WellFormed s free) (hcoherent : Coherent s)
    (hrun : createNewFile path mode s = some (.error code, t)) : code < 0 ∧ SameNamespace s t := by
  rcases createNewFile_cases h hcoherent hrun with
    ⟨⟨code', hcode, heq⟩, hnamespace, -⟩ | ⟨parentInum, name, s₁, hattempted, hsame, -, houtcome⟩
  · cases heq
    exact ⟨hcode, hnamespace⟩
  · obtain ⟨contents, hcontents⟩ := h.dirs _ hattempted.valid.index_lt hattempted.isDir
    cases houtcome contents hcontents with
    | refused hroom hnamespace => exact ⟨by decide, (hsame.sameNamespace h).trans hnamespace⟩

theorem createNewFile_ok {new : NewFile} (h : WellFormed s free) (hcoherent : Coherent s)
    (hrun : createNewFile path mode s = some (.ok new, t)) :
    ∃ s₁ free' parentInum name contents contents', SameButCache s s₁ ∧ Coherent s₁ ∧
      Attempted s path parentInum name ∧
      DirContents s (s.inodeAt (inumIndex parentInum)) contents ∧
      Created s₁ free parentInum new.childInodeNum name mode contents t free' contents' ∧
      new = ⟨new.childInodeNum, t.inodeAt (inumIndex new.childInodeNum), parentInum⟩ := by
  rcases createNewFile_cases h hcoherent hrun with
    ⟨⟨code', hcode, heq⟩, -⟩ |
      ⟨parentInum, name, s₁, hattempted, hsame, hcoherent₁, houtcome⟩
  · cases heq
  · obtain ⟨contents, hcontents⟩ := h.dirs _ hattempted.valid.index_lt hattempted.isDir
    cases houtcome contents hcontents with
    | created hroom hcreated =>
        exact ⟨s₁, _, parentInum, name, contents, _, hsame, hcoherent₁, hattempted, hcontents,
          hcreated, rfl⟩

end NewFile

section Dots

variable {s : FileSystem} {free : Multiset Int64} {inum parentInum : Int64}

/-- The inode becomes a directory of one block when a block is free, and stays as it is otherwise. -/
theorem addDots_run (h : WellFormed s free) (hinum : ValidInum inum)
    (hempty : (s.inodeAt (inumIndex inum)).EmptyMap) (parentInum : Int64) :
    ((s.inodeAt (inumIndex inum)).isDir = false ∨ free = 0) ∧
      (∃ node', addDots (s.inodeAt (inumIndex inum)) inum parentInum s =
        some ((false, node'), s)) ∨
    ((s.inodeAt (inumIndex inum)).isDir = true ∧ free ≠ 0) ∧
      ∃ node₁ s₁ free' node₂ s₂,
        addDots (s.inodeAt (inumIndex inum)) inum parentInum s = some ((true, node₂), s₂) ∧
        EntryAdded ([dot], inum) (otherBlocks s (inumIndex inum)) free s
          (s.inodeAt (inumIndex inum)) [] true s₁ node₁ free' [[([dot], inum)]] ∧
        EntryAdded ([dot, dot], parentInum) (otherBlocks s (inumIndex inum)) free' s₁ node₁
          [[([dot], inum)]] true s₂ node₂ free' [dots inum parentInum] := by
  have hn := hinum.index_lt
  cases hdir : (s.inodeAt (inumIndex inum)).isDir with
  | false =>
      refine .inl ⟨.inl rfl, s.inodeAt (inumIndex inum), ?_⟩
      have hadd : addDirectoryEntry (s.inodeAt (inumIndex inum)) inum [dot] s =
          some ((false, s.inodeAt (inumIndex inum)), s) := by
        rw [addDirectoryEntry, hdir]
        rfl
      exact bind_of_eq hadd
  | true =>
      have hcontents : DirContents s (s.inodeAt (inumIndex inum)) [] := .nil hdir hempty
      by_cases hfree : free = 0
      · refine .inl ⟨.inr hfree, ?_⟩
        rcases h.addEntry hn hcontents ([dot], inum) with
          ⟨node', s', hadd, hrefused⟩ | ⟨node', s', free', contents', hadd, -, -, hadded⟩
        · obtain rfl : s' = s := by
            rcases hrefused.reason with ⟨-, hs⟩ | ⟨-, -, -, hs, -⟩
            · exact hs
            · exact hs hfree
          exact ⟨node', bind_of_eq hadd⟩
        · rcases hadded.room rfl with ⟨⟨entries, hmem, -⟩, -⟩ | ⟨-, -, hcard⟩
          · cases hmem
          · rw [hfree, Multiset.card_zero] at hcard
            omega
      · obtain ⟨node₁, s₁, free', node₂, s₂, hfirst, hadded, hsecond, hadded'⟩ :=
          @addDirectoryEntry_pair _ _ _ _ _ ([dot], inum) ([dot, dot], parentInum) hcontents
            (h.edit hn).owned hfree (Nat.le_of_ble_eq_true rfl) (Nat.le_of_ble_eq_true rfl)
        refine .inr ⟨⟨rfl, hfree⟩, node₁, s₁, free', node₂, s₂, ?_, hadded, hadded'⟩
        exact (bind_of_eq hfirst).trans hsecond

end Dots

section Runs

variable {s t : FileSystem} {free : Multiset Int64} {path : CString} {mode : UInt32}

/--
`altfs_mkdir` creates the inode and its record, and then there is no block
for `.` and `..`, or the mode does not make the inode a directory.
-/
def MkdirStrands (s : FileSystem) (free : Multiset Int64) (path : CString) (mode : UInt32) : Prop :=
  walk s path = some (-1) ∧ ∃ parentInum name contents, Attempted s path parentInum name ∧
    DirContents s (s.inodeAt (inumIndex parentInum)) contents ∧ HasRoom free contents name ∧
    ((sIfdir ||| mode) &&& 0xF000 ≠ sIfdir ∨
      (RecordFits contents (name, 0) ∧ free = 0) ∨
      (¬RecordFits contents (name, 0) ∧ free.card = 1 + blockCost contents.length))

theorem Created.allocated {free' : Multiset Int64} {parentInum childInum : Int64} {name : CString}
    {contents contents' : List (List Entry)}
    (h : Created s free parentInum childInum name mode contents t free' contents') :
    ¬SameNamespace s t := by
  intro hsame
  have hmark := hsame.allocated _ h.valid.index_lt
  obtain ⟨currTime, hchild⟩ := h.child
  rw [hchild, h.vacant] at hmark
  cases hmark

theorem Created.isDir_child {free' : Multiset Int64} {parentInum childInum : Int64}
    {name : CString} {contents contents' : List (List Entry)}
    (h : Created s free parentInum childInum name mode contents t free' contents') :
    (t.inodeAt (inumIndex childInum)).isDir = decide (mode &&& 0xF000 = sIfdir) := by
  obtain ⟨currTime, hchild⟩ := h.child
  rw [hchild]
  rfl

/-- A failed `altfs_mkdir` leaves no trace unless the new directory has no entries. -/
theorem altfsMkdir_false (h : WellFormed s free) (hcoherent : Coherent s)
    (hrun : altfsMkdir path mode s = some (false, t)) :
    SameNamespace s t ↔ ¬MkdirStrands s free path mode := by
  obtain ⟨inum, s₀, hname, hrest⟩ := bind_eq_some_iff.mp hrun
  have hsame₀ := nameI_sameButCache hname
  obtain ⟨hwalk, hcoherent₀⟩ := nameI_walk hcoherent hname
  have h₀ := hsame₀.wellFormed h
  split at hrest
  next hfound =>
    cases hrest
    refine iff_of_true (hsame₀.sameNamespace h) ?_
    rintro ⟨hmissing, -⟩
    rw [hwalk] at hmissing
    exact hfound (Option.some.inj hmissing)
  next hmissing =>
  obtain rfl : inum = -1 := not_not.mp hmissing
  obtain ⟨r, u, hcreate, hrest⟩ := bind_eq_some_iff.mp hrest
  rcases createNewFile_cases h₀ hcoherent₀ hcreate with
    ⟨⟨code, -, rfl⟩, hnamespace, -, hnone⟩ |
      ⟨parentInum, name, s₁, hattempted, hsame₁, -, houtcome⟩
  · cases hrest
    refine iff_of_true ((hsame₀.sameNamespace h).trans hnamespace) ?_
    rintro ⟨-, parentInum, name, contents, hattempted, -⟩
    exact hnone parentInum name (hsame₀.attempted hattempted)
  have hn := hattempted.valid.index_lt
  have hto₁ : SameButCache s s₁ := trans_of SameButCache hsame₀ hsame₁
  have hnamespace₁ := hto₁.sameNamespace h
  have hback := hsame₀.symm.attempted hattempted
  have houtcome' : ∀ contents, DirContents s (s.inodeAt (inumIndex parentInum)) contents →
      CreateOutcome s₁ free parentInum name (sIfdir ||| mode) contents r u := by
    intro contents hcontents
    rw [← hsame₀.inodeAt] at hcontents
    exact houtcome contents (hsame₀.dirContents hcontents)
  obtain ⟨contents, hcontents⟩ := h.dirs _ hn hback.isDir
  cases houtcome' contents hcontents with
  | refused hroom hnamespace =>
      cases hrest
      refine iff_of_true (hnamespace₁.trans hnamespace) ?_
      rintro ⟨-, parentInum', name', contents', hattempted', hcontents', hroom', -⟩
      obtain ⟨rfl, rfl⟩ := hback.unique hattempted'
      cases houtcome' contents' hcontents' with
      | refused hroom _ _ _ => exact hroom hroom'
  | @created childInum _ free' contents' hroom hcreated =>
      have hchild := hcreated.isDir_child
      obtain ⟨⟨added, dirInode⟩, v, hadd, hrest⟩ := bind_eq_some_iff.mp hrest
      rcases addDots_run hcreated.wellFormed hcreated.valid hcreated.emptyMap_child parentInum with
        ⟨hreason, node', hdots⟩ | ⟨-, node₁, s₂, free'', node₂, s₃, hdots, hadded, hadded'⟩
      · rw [hdots] at hadd
        cases hadd
        cases hrest
        have hchanged : ¬SameNamespace s t := fun hsame =>
          hcreated.allocated ((hto₁.symm.sameNamespace (hto₁.wellFormed h)).trans hsame)
        refine iff_of_false hchanged ?_
        rw [not_not]
        refine ⟨hwalk, parentInum, name, contents, hback, hcontents, hroom, ?_⟩
        rcases hreason with hnotDir | hfull
        · rw [hchild] at hnotDir
          exact .inl (of_decide_eq_false hnotDir)
        · rcases hcreated.room with ⟨hfits, hfree⟩ | ⟨hfits, -, hcard⟩
          · exact .inr (.inl ⟨hfits, hfree.symm.trans hfull⟩)
          · rw [hfull, Multiset.card_zero] at hcard
            exact .inr (.inr ⟨hfits, by omega⟩)
      · exfalso
        rw [hdots] at hadd
        cases hadd
        have hformat : TableFormat v :=
          hadded'.frame.format (hadded.frame.format hcreated.wellFormed.stored.toTableFormat)
        have hwrite := @writeInode_run _ v childInum dirInode hformat hcreated.valid
        have hfalse : writeInode childInum dirInode v = some (false, t) := hrest
        rw [hwrite] at hfalse
        cases hfalse

theorem altfsMknod_false (h : WellFormed s free) (hcoherent : Coherent s)
    (hrun : altfsMknod path mode s = some (false, t)) : SameNamespace s t := by
  obtain ⟨inum, s₀, hname, hrest⟩ := bind_eq_some_iff.mp hrun
  have hsame₀ := nameI_sameButCache hname
  have hnamespace₀ := hsame₀.sameNamespace h
  have hcoherent₀ := (nameI_walk hcoherent hname).2
  split at hrest
  · cases hrest
    exact hnamespace₀
  obtain ⟨r, u, hcreate, hrest⟩ := bind_eq_some_iff.mp hrest
  cases r with
  | ok created => cases hrest
  | error code =>
      cases hrest
      exact hnamespace₀.trans (createNewFile_error (hsame₀.wellFormed h) hcoherent₀ hcreate).2

/-- Truncating to nothing never returns -1. -/
theorem altfsTruncate_zero_ne {r : Int} (h : WellFormed s free)
    (hrun : altfsTruncate path 0 s = some (r, t)) : r ≠ -1 := by
  rintro rfl
  obtain ⟨inum, s₁, hname, hrest⟩ := bind_eq_some_iff.mp hrun
  have h₁ := (nameI_sameButCache hname).wellFormed h
  split at hrest
  · cases hrest
  obtain ⟨node, s₂, hread, hrest⟩ := bind_eq_some_iff.mp hrest
  obtain ⟨hvalid, rfl, rfl⟩ := h₁.validInum_of_getInode hread
  have hsize := (h₁.sizes _ hvalid.index_lt).nonneg
  split at hrest
  · cases hrest
  split at hrest
  · cases hrest
  split at hrest
  · cases hrest
  rw [if_neg (by rw [Int64.toInt_zero]; omega)] at hrest
  obtain ⟨node, s₃, -, hrest⟩ := bind_eq_some_iff.mp hrest
  rw [if_pos (by rfl)] at hrest
  obtain ⟨ok, s₄, -, hrest⟩ := bind_eq_some_iff.mp hrest
  cases hrest

theorem openInum_negative {inum : Int64} {created : Bool} {oflag : Int64} {r : Int}
    (h : WellFormed s free) (hrun : openInum path oflag inum created s = some (r, t)) (hr : r < 0) :
    t = s ∧ mayOpen oflag (s.inodeAt (inumIndex inum)) = false := by
  obtain ⟨node, s₁, hread, hrest⟩ := bind_eq_some_iff.mp hrun
  obtain ⟨hvalid, rfl, rfl⟩ := h.validInum_of_getInode hread
  have hnonneg : ¬inum.toInt < 0 := not_lt.mpr hvalid.1
  split at hrest
  next hdenied =>
    cases hrest
    exact ⟨rfl, by simpa using hdenied⟩
  split at hrest
  · obtain ⟨res, u, htruncate, hrest⟩ := bind_eq_some_iff.mp hrest
    rw [if_neg (altfsTruncate_zero_ne h htruncate)] at hrest
    split at hrest
    · obtain ⟨currTime, v, -, hrest⟩ := bind_eq_some_iff.mp hrest
      obtain ⟨ok, w, -, hrest⟩ := bind_eq_some_iff.mp hrest
      cases hrest
      exact absurd hr hnonneg
    · cases hrest
      exact absurd hr hnonneg
  · cases hrest
    exact absurd hr hnonneg

omit [Config] in
/-- The permissions of a new file allow every access. -/
theorem mayOpen_newFile (oflag currTime : Int64) :
    mayOpen oflag (Inode.zero.marked.fresh (sIfreg ||| defaultPermissions) currTime) = true := by
  have hread :
      (Inode.zero.marked.fresh (sIfreg ||| defaultPermissions) currTime).canRead = true := by
    change decide ((sIfreg ||| defaultPermissions) &&& 0x100 ≠ 0) = true
    decide
  have hwrite :
      (Inode.zero.marked.fresh (sIfreg ||| defaultPermissions) currTime).canWrite = true := by
    change decide ((sIfreg ||| defaultPermissions) &&& 0x80 ≠ 0) = true
    decide
  simp [mayOpen, hread, hwrite]

theorem altfsOpen_negative {oflag : Int64} {r : Int} (h : WellFormed s free)
    (hcoherent : Coherent s) (hrun : altfsOpen path oflag s = some (r, t)) (hr : r < 0) :
    SameNamespace s t := by
  obtain ⟨inum, s₀, hname, hrest⟩ := bind_eq_some_iff.mp hrun
  have hsame₀ := nameI_sameButCache hname
  have h₀ := hsame₀.wellFormed h
  have hnamespace₀ := hsame₀.sameNamespace h
  have hcoherent₀ := (nameI_walk hcoherent hname).2
  split at hrest
  next hmissing =>
    split at hrest
    · obtain ⟨result, u, hcreate, hrest⟩ := bind_eq_some_iff.mp hrest
      cases result with
      | error code =>
          cases hrest
          exact hnamespace₀.trans (createNewFile_error h₀ hcoherent₀ hcreate).2
      | ok created =>
          exfalso
          obtain ⟨s₁, free', parentInum, name, contents, contents', -, -, -, -, hcreated, -⟩ :=
            createNewFile_ok h₀ hcoherent₀ hcreate
          obtain ⟨-, hdenied⟩ := openInum_negative hcreated.wellFormed hrest hr
          obtain ⟨currTime, hchild⟩ := hcreated.child
          rw [hchild] at hdenied
          rw [mayOpen_newFile] at hdenied
          cases hdenied
    · cases hrest
      exact hnamespace₀
  next hfound =>
    obtain ⟨rfl, -⟩ := openInum_negative h₀ hrest hr
    exact hnamespace₀

/--
A creation that fails leaves no trace in the namespace, but for an
`altfs_mkdir` that cannot add `.` and `..` to the inode it has created.
-/
theorem failedCreation_noTrace (h : WellFormed s free) (hcoherent : Coherent s) :
    (∀ path mode t, altfsMkdir path mode s = some (false, t) →
      (SameNamespace s t ↔ ¬MkdirStrands s free path mode)) ∧
    (∀ path mode t, altfsMknod path mode s = some (false, t) → SameNamespace s t) ∧
    ∀ path oflag r t, altfsOpen path oflag s = some (r, t) → r < 0 → SameNamespace s t :=
  ⟨fun _ _ _ hrun => altfsMkdir_false h hcoherent hrun,
    fun _ _ _ hrun => altfsMknod_false h hcoherent hrun,
    fun _ _ _ _ hrun hr => altfsOpen_negative h hcoherent hrun hr⟩

end Runs

section Full

variable {s : FileSystem} {free : Multiset Int64} {entries : List Entry} {first k : Nat}
  {path name : CString}

/-- A creation in the root directory, up to what becomes of it. -/
private theorem RootHolds.createNewFile_run
    (h : RootHolds s free entries first (path.length + (1 + k)))
    (hparent : copyParentPath path = some [slash]) (hfile : copyFileName path = some name)
    (hroot : path ≠ [slash]) (hnew : entries.lookup name = none) (hfirst : first < inodeCount)
    (mode : UInt32) :
    ∃ s₁ s₂ r u, nameI path s = some (-1, s₁) ∧ createNewFile path mode s₁ = some (r, u) ∧
      RootHolds s₂ free entries first k ∧
      CreateOutcome s₂ free rootInodeNum name mode [entries] r u := by
  have hmissing : walk s path = some (-1) := by
    rw [h.walk_child hparent hfile hroot, hnew]
    rfl
  obtain ⟨s₁, hname, hsame, hready₁⟩ := nameI_run h.ready hmissing
  obtain ⟨s₂, hname₂, hsame₂, hready₂⟩ :=
    @nameI_run _ _ [slash] rootInodeNum _ hready₁ walk_root
  have h₂ := hsame₂.rootHolds (hsame.rootHolds h hready₁) hready₂
  have hvacant₂ : s₂.superblock.sFirstIno.toInt < inodeCount := by
    rw [h₂.sFirstIno]
    omega
  obtain ⟨r, u, hcreate, houtcome⟩ := @AltFs.createNewFile_run _ _ _ _ _ _ _ _ mode _
    hparent hname₂ h₂.wellFormed h₂.root h₂.dir h₂.canWrite hfile hvacant₂
  exact ⟨s₁, s₂, r, u, hname, hcreate, h₂, houtcome⟩

/-- `altfs_mkdir` on a full device whose root directory has room for the record. -/
theorem RootHolds.mkdir_full (h : RootHolds s 0 entries first (path.length + (1 + k)))
    (hparent : copyParentPath path = some [slash]) (hfile : copyFileName path = some name)
    (hroot : path ≠ [slash]) (hnew : entries.lookup name = none)
    (hshort : name.length ≤ maxFileNameLength)
    (hfits : recordsSize entries + recordSize (name, 0) ≤ blockSize) (hfirst : first < inodeCount)
    (mode : UInt32) :
    MkdirStrands s 0 path mode ∧ ∃ t, altfsMkdir path mode s = some (false, t) := by
  have hmissing : walk s path = some (-1) := by
    rw [h.walk_child hparent hfile hroot, hnew]
    rfl
  have hvacant : s.superblock.sFirstIno.toInt < inodeCount := by
    rw [h.sFirstIno]
    omega
  have hrecord : RecordFits [entries] (name, 0) := ⟨entries, by simp, hfits⟩
  have hattempted : Attempted s path rootInodeNum name :=
    ⟨hfile, ⟨[slash], hparent, walk_root⟩, h.root, h.dir.isDir, h.canWrite, hvacant⟩
  refine ⟨⟨hmissing, rootInodeNum, name, [entries], hattempted, h.dir, ⟨hshort, .inl hrecord⟩,
    .inr (.inl ⟨hrecord, rfl⟩)⟩, ?_⟩
  obtain ⟨s₁, s₂, r, u, hname, hcreate, h₂, houtcome⟩ :=
    h.createNewFile_run hparent hfile hroot hnew hfirst (sIfdir ||| mode)
  rw [altfsMkdir, bind_of_eq hname, if_neg (by simp), bind_of_eq hcreate]
  cases houtcome with
  | refused hroom => exact absurd ⟨hshort, .inl hrecord⟩ hroom
  | @created childInum _ free' contents' _ hcreated =>
      have hfree : free' = 0 := by
        rcases hcreated.room with ⟨-, hfree⟩ | ⟨hnone, -⟩
        · exact hfree
        · exact absurd ⟨entries, by simp, hfits⟩ hnone
      rcases addDots_run hcreated.wellFormed hcreated.valid hcreated.emptyMap_child rootInodeNum with
        ⟨-, node', hdots⟩ | ⟨⟨-, hne⟩, -⟩
      · refine ⟨u, ?_⟩
        change (addDots _ childInum rootInodeNum >>= _) u = _
        rw [bind_of_eq hdots]
        rfl
      · exact absurd hfree hne

/-- No operation creates a file under a name that is too long. -/
theorem RootHolds.create_long (h : RootHolds s free entries first (path.length + (1 + k)))
    (hparent : copyParentPath path = some [slash]) (hfile : copyFileName path = some name)
    (hroot : path ≠ [slash]) (hnew : entries.lookup name = none)
    (hlong : maxFileNameLength < name.length) (hfirst : first < inodeCount) (mode : UInt32) :
    (∃ t, altfsMkdir path mode s = some (false, t)) ∧
      (∃ t, altfsMknod path mode s = some (false, t)) ∧
      ∃ t, altfsOpen path oCreat s = some (-edquot, t) := by
  have hrefused : ∀ mode, ∃ s₁ u, nameI path s = some (-1, s₁) ∧
      createNewFile path mode s₁ = some (.error (-edquot), u) := by
    intro mode
    obtain ⟨s₁, s₂, r, u, hname, hcreate, -, houtcome⟩ :=
      h.createNewFile_run hparent hfile hroot hnew hfirst mode
    cases houtcome with
    | created hroom => exact absurd hroom.1 (not_le.mpr hlong)
    | refused => exact ⟨s₁, u, hname, hcreate⟩
  have hflag : hasFlag oCreat oCreat = true := by decide
  refine ⟨?_, ?_, ?_⟩
  · obtain ⟨s₁, u, hname, hcreate⟩ := hrefused (sIfdir ||| mode)
    refine ⟨u, ?_⟩
    rw [altfsMkdir, bind_of_eq hname, if_neg (by simp), bind_of_eq hcreate]
    rfl
  · obtain ⟨s₁, u, hname, hcreate⟩ := hrefused mode
    refine ⟨u, ?_⟩
    rw [altfsMknod, bind_of_eq hname, if_neg (by simp), bind_of_eq hcreate]
    rfl
  · obtain ⟨s₁, u, hname, hcreate⟩ := hrefused (sIfreg ||| defaultPermissions)
    refine ⟨u, ?_⟩
    rw [altfsOpen, bind_of_eq hname, if_pos rfl, if_pos hflag, bind_of_eq hcreate]
    rfl

end Full

omit [Config] in
/-- On a device without free blocks `altfs_mkdir` fails and leaves an inode and its record. -/
theorem altfsMkdir_strands_d :
    letI := Config.ofBlocks 67 (by decide)
    ∃ s t, WellFormed s 0 ∧ Coherent s ∧
      altfsMkdir [slash, letterD] defaultPermissions s = some (false, t) ∧
      ¬SameNamespace s t := by
  let _ := Config.ofBlocks 67 (by decide)
  obtain ⟨s₀, free, entries, hroot₀, hfile, hperm, hcard⟩ :=
    exists_emptyFile (by decide) (by decide)
  have hdata : numOfDataBlocks = 65 := by decide
  have hcost : appendCost 0 63 = 64 := by decide
  obtain ⟨r, s, -, hroot, hwalk⟩ := RootHolds.fill (k := 998) (m := 63) hroot₀ hfile (by decide)
    (by decide) (by decide) (by simp only [maxBlocksNum]; decide) (by omega)
  have hroot : RootHolds s 0 entries 4 (([slash, letterD] : CString).length + (1 + 995)) := hroot
  have hothers : ∀ entry ∈ ([letterF], 3) :: dots rootInodeNum rootInodeNum,
      entry.1 ≠ [letterD] := by decide
  have hnew : entries.lookup [letterD] = none :=
    lookup_eq_none_iff.mpr fun entry hentry => hothers entry (hperm.mem_iff.mp hentry)
  have hsize : recordsSize entries = recordsSize (([letterF], 3) :: dots rootInodeNum rootInodeNum) :=
    (hperm.map recordSize).sum_eq
  obtain ⟨hstrands, t, hrun⟩ := @RootHolds.mkdir_full _ _ _ _ _ _ [letterD] hroot rfl rfl
    (by decide) hnew (by decide) (by rw [hsize]; decide) (by decide) defaultPermissions
  refine ⟨s, t, hroot.wellFormed, hroot.ready.coherent, hrun, fun hsame => ?_⟩
  exact (altfsMkdir_false hroot.wellFormed hroot.ready.coherent hrun).mp hsame hstrands

omit [Config] in
/-- No name that is too long, by `altfs_mkdir`, by `altfs_mknod` or by `altfs_open`. -/
theorem failedCreation_noTrace_long :
    letI := Config.ofBlocks 67 (by decide)
    ∃ s t u v, altfsMkdir (pathOf [longName]) defaultPermissions s = some (false, t) ∧
      SameNamespace s t ∧ altfsMknod (pathOf [longName]) defaultPermissions s = some (false, u) ∧
      SameNamespace s u ∧ altfsOpen (pathOf [longName]) oCreat s = some (-edquot, v) ∧
      SameNamespace s v := by
  let _ := Config.ofBlocks 67 (by decide)
  obtain ⟨s, free, entries, hroot, -, hperm, -⟩ := exists_emptyFile (by decide) (by decide)
  have hparent := @copyParentPath_pathOf longName [] isComponent_longName.ne_nil
    isComponent_longName.slash_notMem
  have hfile := @copyFileName_pathOf longName [] isComponent_longName.ne_nil
    isComponent_longName.slash_notMem
  have hne := @pathOf_concat_ne_root longName [] isComponent_longName.ne_nil
  rw [List.nil_append] at hparent hfile hne
  have hlong := lt_length_longName
  have hothers : ∀ entry ∈ ([letterF], 3) :: dots rootInodeNum rootInodeNum,
      entry.1.length ≤ maxFileNameLength := by decide
  have hnew : entries.lookup longName = none := by
    refine lookup_eq_none_iff.mpr fun entry hentry heq => ?_
    have hshort := hothers entry (hperm.mem_iff.mp hentry)
    rw [heq] at hshort
    exact absurd hshort (not_le.mpr hlong)
  have hready : Ready s ((pathOf [longName]).length + (1 + 700)) :=
    hroot.ready.mono (by rw [length_pathOf_longName]; decide)
  have hroot' : RootHolds s free entries 4 ((pathOf [longName]).length + (1 + 700)) :=
    ⟨hroot.wellFormed, hready, hroot.dir, hroot.canWrite, hroot.root, hroot.sFirstIno, hroot.vacant⟩
  obtain ⟨⟨t, hmkdir⟩, ⟨u, hmknod⟩, v, hopen⟩ := @RootHolds.create_long _ s free entries 4 700
    (pathOf [longName]) longName hroot' hparent hfile
    hne hnew hlong (by decide) defaultPermissions
  obtain ⟨hdirs, hfiles, hopens⟩ :=
    failedCreation_noTrace hroot.wellFormed hroot.ready.coherent
  refine ⟨s, t, u, v, hmkdir, (hdirs _ _ t hmkdir).mpr ?_, hmknod, hfiles _ _ u hmknod, hopen,
    hopens _ _ _ v hopen (by decide)⟩
  rintro ⟨-, parentInum, name, contents, hattempted, -, hroom, -⟩
  have hname := hattempted.file
  rw [hfile, Option.some_inj] at hname
  rw [← hname] at hroom
  exact absurd hroom.1 (not_le.mpr hlong)

end AltFs
