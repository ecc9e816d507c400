import AltFs.Creation
import AltFs.Unlinking

/-!
# Moving a record

The second part of `altfs_rename`: a record is added in the directory of the
target, where nothing is any more, and then the record of the source is taken
out of its own directory.
-/

namespace AltFs

open Prog NamedTree

variable [Config]

/-! ## Adding the record -/

section Put

variable {s t : FileSystem} {free : Multiset Int64} {n : Nat} {inum parentInum : Int64}
  {name : CString} {node' : Inode} {contents contents' : List (List Entry)}

/-- The record of `entry` is in the copy `node'` of directory `n`, which is not written yet. -/
structure EntryPut (n : Nat) (entry : Entry) (contents : List (List Entry)) (s t : FileSystem)
    (node' : Inode) (contents' : List (List Entry)) : Prop where
  format : TableFormat t
  others : OthersKept n s t
  cache : t.cache = s.cache
  nodup : (node'.blocks t + otherBlocks s n).Nodup
  data : ∀ b ∈ node'.blocks t, DataBlock b
  dir : DirContents t node' contents'
  entries : contents'.flatten.Perm (entry :: contents.flatten)
  lookup : ∀ other, other ≠ entry.1 →
    contents'.flatten.lookup other = contents.flatten.lookup other
  kind : SameKind (s.inodeAt n) node'
  childNum : node'.iChildNum = (s.inodeAt n).iChildNum + 1

/-- In a block with room for it the record needs no free block. -/
theorem Intact.putRecord {entry : Entry} (h : Intact s) (hn : n < inodeCount)
    (hdir : DirContents s (s.inodeAt n) contents) (hshort : entry.1.length ≤ maxFileNameLength)
    (hfits : RecordFits contents entry) :
    ∃ node' t contents', addDirectoryEntry (s.inodeAt n) entry.2 entry.1 s =
        some ((true, node'), t) ∧ EntryPut n entry contents s t node' contents' := by
  obtain ⟨t, contents', hrun, hadded⟩ :=
    addDirectoryEntry_fits hdir (h.inode_data hn) (h.inode_nodup hn) hshort hfits
  obtain ⟨b, hmem, block, hindirect, ht⟩ := hadded.written
  obtain ⟨hintact, hothers, hat, hblocks⟩ :=
    @Intact.writeBlock _ _ _ _ _ h hn _ _ s.clock hmem hindirect ht hadded.dir
  have hsame : (s.inodeAt n).addChild.blocks t = (s.inodeAt n).blocks s :=
    (Inode.blocks_eq_of_withMap _ rfl).trans hblocks
  refine ⟨_, t, contents', hrun, hintact.format, hothers, by rw [ht]; rfl, ?_, ?_,
    hadded.dir.of_withMap rfl rfl, hadded.entries, hadded.lookup, ⟨rfl, rfl, rfl⟩, rfl⟩
  · rw [hsame]
    exact h.nodup_split hn
  · rw [hsame]
    exact h.inode_data hn

theorem EntryAdded.put {entry : Entry} {free' : Multiset Int64} (h : WellFormed s free)
    (hn : n < inodeCount) (hstored : Stored t)
    (hadded : EntryAdded entry (otherBlocks s n) free s (s.inodeAt n) contents true t node' free'
      contents') : EntryPut n entry contents s t node' contents' where
  format := hstored.toTableFormat
  others := (h.edit hn).othersKept hadded.frame
  cache := hadded.frame.cache
  nodup := hadded.owned.held_nodup
  data b hb := hadded.owned.data b (Multiset.mem_add.mpr (.inl hb))
  dir := hadded.dir
  entries := hadded.entries
  lookup := hadded.lookup
  kind := by
    rw [hadded.changed]
    exact ⟨rfl, rfl, rfl⟩
  childNum := hadded.childNum

/-- The changed copy of the directory is stamped with the time and written. -/
theorem EntryAdded.commit {entry : Entry} {free' : Multiset Int64} (h : WellFormed s free)
    (hn : n < inodeCount) (hdir : DirContents s (s.inodeAt n) contents) (hstored : Stored t)
    (hadded : EntryAdded entry (otherBlocks s n) free s (s.inodeAt n) contents true t node' free'
      contents') (currTime : Int64) :
    let u := { t with clock := t.clock + 1 }.setInode n (node'.entriesChanged currTime)
    WellFormed u free' ∧ free' + tableBlocks u = free + tableBlocks s := by
  intro u
  let node := node'.entriesChanged currTime
  let t₁ : FileSystem := { t with clock := t.clock + 1 }
  have hedit := h.edit hn
  have hframe : DataFrame (free + (s.inodeAt n).blocks s) s t₁ := { hadded.frame with }
  have hothers := hedit.othersKept hframe
  have hmap : node = node.withMap node' := rfl
  have hblocks : node.blocks t₁ = node'.blocks t := Inode.blocks_eq_of_withMap node' hmap
  have howned : Owned t₁ free' (node.blocks t₁ + otherBlocks s n) := by
    rw [hblocks]
    exact ⟨hadded.owned.freeList.frame rfl fun _ _ => rfl, hadded.owned.nodup, hadded.owned.data⟩
  have hedit₁ := hedit.step hframe (hstored.step (.memory t.cache (t.clock + 1))) howned
  have hkept : node'.Kept t t₁ := fun _ _ => rfl
  obtain ⟨hfilled, hsum⟩ := hadded.filled rfl (h.filled hn hdir)
  have hmark : node.iAllocated = (s.inodeAt n).iAllocated := by
    change node'.iAllocated = _
    rw [hadded.changed]
    rfl
  constructor
  · apply h.commit hn hedit₁ hothers hframe.sFirstIno
    · refine ⟨(hkept.mapped hadded.dir.mapped).of_withMap hmap,
        ⟨contents'.length, hadded.dir.blocksNum, (hkept.filled hfilled).of_withMap hmap⟩,
        fun hvacant => ?_⟩
      rw [hmark, h.isAllocated hn hdir.isDir] at hvacant
      cases hvacant
    · exact hmark
    · have hcopy : DirContents t₁ node' contents' := hadded.dir.of_disk_eq fun _ _ => rfl
      exact fun _ => ⟨contents', hcopy.of_withMap hmap rfl⟩
    · have hsize := hadded.fileSize (by rw [(h.sizes n hn).dir hdir.isDir, hdir.blocksNum])
      rw [← hadded.dir.blocksNum] at hsize
      refine ⟨?_, fun _ => hsize⟩
      change 0 ≤ node'.iFileSize.toInt
      rw [hsize, hadded.dir.blocksNum]
      exact Int.natCast_nonneg _
  · rw [tableBlocks_setInode hedit₁.owned le_rfl hn, hblocks, hothers.otherBlocks_eq, ← add_assoc,
      hsum, add_assoc, ← tableBlocks_split s hn]

/-- The directory `parentInum` has `inum` under `name`, and all else is as before. -/
structure EdgeAdded (parentInum : Int64) (name : CString) (inum : Int64) (s t : FileSystem) :
    Prop where
  isDir : (s.inodeAt (inumIndex parentInum)).isDir = true
  intact : Intact t
  outside : KeptOutside {inumIndex parentInum} s t
  cache : t.cache = s.cache
  found : lookupIn t parentInum name = some (some inum)
  other : ∀ i other, ¬(i = parentInum ∧ other = name) → lookupIn t i other = lookupIn s i other
  dir : ∃ contents, DirContents t (t.inodeAt (inumIndex parentInum)) contents ∧
    (contents.flatten.map Prod.fst).Nodup
  records : ∃ contents contents',
    DirContents s (s.inodeAt (inumIndex parentInum)) contents ∧
    DirContents t (t.inodeAt (inumIndex parentInum)) contents' ∧
    contents'.flatten.Perm ((name, inum) :: contents.flatten)
  kind : SameKind (s.inodeAt (inumIndex parentInum)) (t.inodeAt (inumIndex parentInum))
  childNum : (t.inodeAt (inumIndex parentInum)).iChildNum =
    (s.inodeAt (inumIndex parentInum)).iChildNum + 1
  wellFormed : ∀ free, WellFormed s free → ∃ free', WellFormed t free' ∧
    free' + tableBlocks t = free + tableBlocks s ∧
    ∀ contents, DirContents s (s.inodeAt (inumIndex parentInum)) contents →
      HasRoom free contents name

/-- The copy is stamped with the time and written. -/
theorem EntryPut.write (h : Intact s) (hvalid : ValidInum parentInum)
    (hdir : DirContents s (s.inodeAt (inumIndex parentInum)) contents)
    (hunique : (contents.flatten.map Prod.fst).Nodup) (hnew : contents.flatten.lookup name = none)
    (hrun : addDirectoryEntry (s.inodeAt (inumIndex parentInum)) inum name s =
      some ((true, node'), t))
    (hput : EntryPut (inumIndex parentInum) (name, inum) contents s t node' contents') :
    ∃ u, writeInode parentInum (node'.entriesChanged (Config.timeAt t.clock))
        { t with clock := t.clock + 1 } = some (true, u) ∧ EdgeAdded parentInum name inum s u := by
  have hn := hvalid.index_lt
  let node := node'.entriesChanged (Config.timeAt t.clock)
  let t₁ : FileSystem := { t with clock := t.clock + 1 }
  have hat : ∀ m, t₁.inodeAt m = t.inodeAt m := fun m => inodeAt_of_disk_eq rfl
  have hothers : OthersKept (inumIndex parentInum) s t₁ :=
    hput.others.trans ⟨fun m _ _ => hat m, fun _ _ => rfl⟩
  have hformat : TableFormat t₁ := ⟨hput.format.sInodesCount, hput.format.sNumOfInodesPerBlock⟩
  have hblocks : node.blocks t₁ = node'.blocks t :=
    (Inode.blocks_eq_of_withMap (s := t₁) node' rfl).trans (Inode.Kept.blocks fun _ _ => rfl)
  have hcopy : DirContents t₁ node contents' := by
    have hsame : DirContents t₁ node' contents' := hput.dir.of_disk_eq fun _ _ => rfl
    exact hsame.of_withMap rfl rfl
  obtain ⟨hintact, hothers', hdirs⟩ := hothers.commit h hn hformat (hblocks ▸ hput.nodup)
    (hblocks ▸ hput.data) fun _ => ⟨contents', hcopy⟩
  have hcontents : DirContents (t₁.setInode (inumIndex parentInum) node)
      ((t₁.setInode (inumIndex parentInum) node).inodeAt (inumIndex parentInum)) contents' := by
    rw [inodeAt_setInode_self]
    exact hdirs contents' hcopy
  refine ⟨_, writeInode_run hformat hvalid, hdir.isDir, hintact, hothers'.outside, hput.cache, ?_, ?_,
    ⟨contents', hcontents, ?_⟩, ⟨contents, contents', hdir, hcontents, hput.entries⟩, ?_, ?_,
    fun free hwell => ?_⟩
  · rw [hintact.lookupIn_dir hvalid hcontents, lookup_of_perm_cons hput.entries hnew]
  · intro i other hpair
    by_cases hi : i = parentInum
    · subst hi
      rw [hintact.lookupIn_dir hvalid hcontents, h.lookupIn_dir hvalid hdir]
      exact congrArg some (hput.lookup other fun heq => hpair ⟨rfl, heq⟩)
    · apply hothers'.outside.lookupIn_eq h hintact
      intro hother hmem
      exact hi (hother.eq_of_index hvalid (Finset.mem_singleton.mp hmem))
  · rw [(hput.entries.map Prod.fst).nodup_iff, List.map_cons, List.nodup_cons]
    refine ⟨fun hmem => ?_, hunique⟩
    obtain ⟨entry, hentry, heq⟩ := List.mem_map.mp hmem
    exact lookup_eq_none_iff.mp hnew entry hentry heq
  · rw [inodeAt_setInode_self]
    exact ⟨hput.kind.mode, hput.kind.mark, hput.kind.links⟩
  · rw [inodeAt_setInode_self]
    exact hput.childNum
  · rcases hwell.addEntry hn hdir (name, inum) with
      ⟨node₁, u, hadd, -⟩ | ⟨node₁, u, free', contents₁, hadd, hstored, hshort, hadded⟩
    · rw [hrun] at hadd
      cases hadd
    · rw [hrun] at hadd
      cases hadd
      obtain ⟨hwell', hconserved⟩ := hadded.commit hwell hn hdir hstored (Config.timeAt t.clock)
      refine ⟨free', hwell', hconserved, fun contents₂ hdir₂ => ⟨hshort, ?_⟩⟩
      obtain rfl := hdir.unique hdir₂
      rcases hadded.room rfl with ⟨hfits, -⟩ | ⟨-, hlength, hcost⟩
      · exact .inl hfits
      · exact .inr ⟨hlength, by omega⟩

end Put

/-! ## Removing the record of the source -/

section Source

variable {s t : FileSystem} {parentInum inum : Int64} {name : CString} {names : List CString}
  {contents : List (List Entry)} {P : CString → Prop} {currTime : Int64} {r : Int}

/-- The directory `parentInum` has nothing under `name`, and all else is as before. -/
structure EdgeRemoved (parentInum : Int64) (name : CString) (s t : FileSystem) : Prop where
  isDir : (s.inodeAt (inumIndex parentInum)).isDir = true
  intact : Intact t
  outside : KeptOutside {inumIndex parentInum} s t
  gone : lookupIn t parentInum name = some none
  other : ∀ i other, ¬(i = parentInum ∧ other = name) → lookupIn t i other = lookupIn s i other
  records : ∃ contents contents' removed,
    DirContents s (s.inodeAt (inumIndex parentInum)) contents ∧
    DirContents t (t.inodeAt (inumIndex parentInum)) contents' ∧
    contents.flatten.Perm ((name, removed) :: contents'.flatten)
  kind : SameKind (s.inodeAt (inumIndex parentInum)) (t.inodeAt (inumIndex parentInum))
  childNum : (t.inodeAt (inumIndex parentInum)).iChildNum =
    (s.inodeAt (inumIndex parentInum)).iChildNum - 1
  wellFormed : ∀ free, WellFormed s free → WellFormed t free ∧ tableBlocks t = tableBlocks s
  coherent : Coherent t

theorem removeSource_run (h : Intact s) (hvalid : ValidInum parentInum)
    (hdir : DirContents s (s.inodeAt (inumIndex parentInum)) contents)
    (hunique : (contents.flatten.map Prod.fst).Nodup)
    (hlookup : contents.flatten.lookup name = some inum) (hname : IsComponent name)
    (hcoherent : CoherentOn P s) (hP : ∀ path parentPath, copyParentPath path = some parentPath →
      P path → P parentPath) (hpath : P (pathOf names))
    (hwalk : walk s (pathOf names) = some parentInum)
    (hrun : removeSource (pathOf (names ++ [name])) currTime s = some (r, t)) :
    r = 0 ∧ EdgeRemoved parentInum name s t := by
  have hn := hvalid.index_lt
  simp only [removeSource, copyParentPath_pathOf hname.ne_nil hname.slash_notMem,
    copyFileName_pathOf hname.ne_nil hname.slash_notMem] at hrun
  obtain ⟨found, s₁, hnameI, hrest⟩ := bind_eq_some_iff.mp hrun
  have hsame := nameI_sameButCache hnameI
  have hfound : found = parentInum := by
    have hagree := (nameI_walkOn hP hcoherent hpath hnameI).1
    rw [hwalk] at hagree
    exact (Option.some.inj hagree).symm
  have h₁ := hsame.intact h
  have hdir₁ := hsame.dirContents hdir
  rw [← hsame.inodeAt] at hdir₁
  obtain ⟨s₂, contents', hremove, hgone⟩ := h₁.removeRecord hn hdir₁ hunique hlookup
  obtain ⟨s₃, hwrite, hwritten⟩ := @Intact.writeCopy _ s₂ parentInum
    (((s₁.inodeAt (inumIndex parentInum)).removeChild (Config.timeAt s₁.clock)).entriesChanged
      currTime) hgone.intact hvalid (by rw [hgone.inodeAt]; rfl) (by rw [hgone.inodeAt]; rfl)
  rw [hfound, if_neg hvalid.ne_minusOne, bind_of_eq (getInode_run h₁.format hvalid),
    bind_of_eq hremove] at hrest
  simp only [Bool.not_true, Bool.false_eq_true, if_false, bind_of_eq hwrite] at hrest
  obtain ⟨_, u, hflush, hlast⟩ := bind_eq_some_iff.mp hrest
  cases hlast
  obtain ⟨hsame₃, hcoherent'⟩ := flushInodeCache_run hflush
  have hdir₃ := hwritten.dir contents' hgone.dir
  have hat₃ : t.inodeAt (inumIndex parentInum) = ((s.inodeAt (inumIndex parentInum)).removeChild
      (Config.timeAt s₁.clock)).entriesChanged currTime := by
    rw [hsame₃.inodeAt, hwritten.inodeAt, hsame.inodeAt]
  refine ⟨rfl, hdir.isDir, hsame₃.intact hwritten.intact, ?_, ?_, ?_, ?_, ?_, ?_,
    fun free hwell => ?_, hcoherent'⟩
  · exact (hsame.outside _).trans (hgone.others.outside.trans
      (hwritten.others.outside.trans (hsame₃.outside _)))
  · rw [hsame₃.lookupIn_eq, hwritten.intact.lookupIn_dir hvalid hdir₃, hgone.gone]
  · intro i other hpair
    rw [hsame₃.lookupIn_eq, ← hsame.lookupIn_eq]
    by_cases hi : i = parentInum
    · subst hi
      rw [hwritten.intact.lookupIn_dir hvalid hdir₃, h₁.lookupIn_dir hvalid hdir₁]
      exact congrArg some (hgone.lookup other fun heq => hpair ⟨rfl, heq⟩)
    · rw [hwritten.lookup]
      apply hgone.others.outside.lookupIn_eq h₁ hgone.intact
      intro hother hmem
      exact hi (hother.eq_of_index hvalid (Finset.mem_singleton.mp hmem))
  · obtain ⟨removed, hentries⟩ := hgone.entries
    refine ⟨contents, contents', removed, hdir, ?_, hentries⟩
    rw [hsame₃.inodeAt]
    exact hsame₃.dirContents hdir₃
  · rw [hat₃]
    exact ⟨rfl, rfl, rfl⟩
  · rw [hat₃]
    rfl
  · have hwell₂ := hgone.wellFormed free (hsame.wellFormed hwell)
    have hmark : (s₁.inodeAt (inumIndex parentInum)).iAllocated = true :=
      (hsame.wellFormed hwell).isAllocated hn hdir₁.isDir
    let node := ((s₁.inodeAt (inumIndex parentInum)).removeChild
      (Config.timeAt s₁.clock)).entriesChanged currTime
    obtain ⟨hwell₃, htable⟩ := @WellFormed.writeCopy _ s₂ free node parentInum hwell₂ hvalid
      (by rw [hgone.inodeAt]; exact hmark) (by rw [hgone.inodeAt]; exact ⟨rfl, rfl, rfl, hmark⟩)
    have hstate := @writeInode_run _ s₂ parentInum node hwell₂.stored.toTableFormat hvalid
    rw [hwrite] at hstate
    cases hstate
    refine ⟨hsame₃.wellFormed hwell₃, ?_⟩
    rw [hsame₃.tableBlocks_eq, htable, hgone.table, hsame.tableBlocks_eq]

end Source

/-! ## From one directory to the other -/

/-- The inode of file `n` and its blocks are as before. -/
def SameFile (n : Nat) (s t : FileSystem) : Prop :=
  t.inodeAt n = s.inodeAt n ∧ ∀ b ∈ (s.inodeAt n).blocks s, t.disk b = s.disk b

/-- Every search finds what it found, and the files are as before. -/
structure NothingMoved (s t : FileSystem) : Prop where
  lookup : ∀ inum name, lookupIn t inum name = lookupIn s inum name
  files : ∀ n < inodeCount, (s.inodeAt n).isDir = false → SameFile n s t

section Move

variable {s t u : FileSystem} {free : Multiset Int64} {parentInum toParentInum inum : Int64}
  {name toName : CString} {names toNames : List CString} {mayFail : Prop} {r : Int}

theorem KeptOutside.sameFile {S : Finset Nat} {n : Nat} (h : KeptOutside S s t)
    (hn : n < inodeCount) (hnot : n ∉ S) : SameFile n s t :=
  ⟨h.inodeAt n hn hnot, h.disk n hn hnot⟩

omit [Config] in
theorem SameButCache.sameFile (hsame : SameButCache s t) (n : Nat) : SameFile n s t :=
  ⟨hsame.inodeAt n, fun b _ => congrFun hsame.disk_eq b⟩

omit [Config] in
theorem SameFile.trans {n : Nat} (h : SameFile n s t) (h' : SameFile n t u) : SameFile n s u := by
  have hkept : (s.inodeAt n).Kept s t := fun a ha =>
    h.2 a (Multiset.mem_of_le (indirect_le_blocks s _) ha)
  refine ⟨h'.1.trans h.1, fun b hb => ?_⟩
  rw [h'.2 b, h.2 b hb]
  rw [h.1, hkept.blocks]
  exact hb

theorem SameButCache.nothingMoved (hsame : SameButCache s t) : NothingMoved s t where
  lookup := hsame.lookupIn_eq
  files n _ _ := hsame.sameFile n

theorem NothingMoved.trans (h : NothingMoved s t) (h' : NothingMoved t u) : NothingMoved s u where
  lookup i other := (h'.lookup i other).trans (h.lookup i other)
  files n hn hfile := by
    have hfirst := h.files n hn hfile
    exact hfirst.trans (h'.files n hn (hfirst.1.symm ▸ hfile))

/-- What comes of adding a record: it fails, if it may, and then nothing has moved. -/
inductive AddOutcome (mayFail : Prop) (parentInum : Int64) (name : CString) (inum : Int64)
    (s : FileSystem) : Prop
  | put {node' : Inode} {t : FileSystem} {contents contents' : List (List Entry)}
      (hdir : DirContents s (s.inodeAt (inumIndex parentInum)) contents)
      (hunique : (contents.flatten.map Prod.fst).Nodup)
      (hnew : contents.flatten.lookup name = none)
      (hrun : addDirectoryEntry (s.inodeAt (inumIndex parentInum)) inum name s =
        some ((true, node'), t))
      (hput : EntryPut (inumIndex parentInum) (name, inum) contents s t node' contents') :
      AddOutcome mayFail parentInum name inum s
  | refused {node' : Inode} {t : FileSystem} (hfail : mayFail)
      (hrun : addDirectoryEntry (s.inodeAt (inumIndex parentInum)) inum name s =
        some ((false, node'), t))
      (hsame : NothingMoved s t) : AddOutcome mayFail parentInum name inum s

/-- Why no record is added at the target. -/
inductive MoveRefused (s : FileSystem) (toNames : List CString) (toName : CString)
    (t : FileSystem) : Int → Prop
  | noParent
      (hnone : ¬∃ parentInum, follow (childOf s) rootInodeNum toNames = some parentInum ∧
        (s.inodeAt (inumIndex parentInum)).isDir = true)
      (hsame : SameButCache s t) (hcoherent : Coherent s → Coherent t) :
      MoveRefused s toNames toName t (-1)
  | noRoom {parentInum inum : Int64} {node' : Inode} {s₁ : FileSystem}
      (hfollow : follow (childOf s) rootInodeNum toNames = some parentInum)
      (hdir : (s.inodeAt (inumIndex parentInum)).isDir = true)
      (hsame : SameButCache s s₁) (hcoherent : Coherent s → Coherent s₁)
      (hrun : addDirectoryEntry (s₁.inodeAt (inumIndex parentInum)) inum toName s₁ =
        some ((false, node'), t)) :
      MoveRefused s toNames toName t (-edquot)

/-- Nothing is at the target, and what the cache holds is right everywhere else. -/
structure TargetAbsent (toNames : List CString) (toName : CString) (mayFail : Prop)
    (s : FileSystem) : Prop extends Rooted s where
  tree : IsTree (childOf s) rootInodeNum
  coherent : CoherentOn (Avoids (toNames ++ [toName])) s
  directory : ¬mayFail → ∃ parentInum, follow (childOf s) rootInodeNum toNames = some parentInum ∧
    (s.inodeAt (inumIndex parentInum)).isDir = true
  add : ∀ parentInum, follow (childOf s) rootInodeNum toNames = some parentInum →
    (s.inodeAt (inumIndex parentInum)).isDir = true → ∀ t, SameButCache s t →
    ∀ inum, AddOutcome mayFail parentInum toName inum t

/-- The new record changes no path that is not at or below the target. -/
theorem EdgeAdded.walk_avoids (h : Rooted s) (htree : IsTree (childOf s) rootInodeNum)
    (hparent : follow (childOf s) rootInodeNum toNames = some parentInum)
    (hadded : EdgeAdded parentInum toName inum s t) {path : CString}
    (hpath : Avoids (toNames ++ [toName]) path) : walk t path = walk s path := by
  obtain ⟨names, hnames, rfl, hnot⟩ := hpath
  induction names using List.reverseRecOn with
  | nil => exact walk_root.trans walk_root.symm
  | append_singleton front name ih =>
      have hname := hnames name (List.mem_append_right _ List.mem_cons_self)
      have hfront : ∀ other ∈ front, IsComponent other := fun other hother =>
        hnames other (List.mem_append_left _ hother)
      have hroot := @pathOf_concat_ne_root name front hname.ne_nil
      have hparentPath := @copyParentPath_pathOf name front hname.ne_nil hname.slash_notMem
      rw [walk_step hroot hparentPath, walk_step hroot hparentPath,
        ih hfront fun hinit => hnot (hinit.trans (List.prefix_append _ _)),
        copyFileName_pathOf hname.ne_nil hname.slash_notMem, h.walk_pathOf hfront,
        Option.bind_some, Option.bind_some]
      cases hfollow : follow (childOf s) rootInodeNum front with
      | none => rfl
      | some found =>
          have hlookup := hadded.other found name (by
            rintro ⟨rfl, rfl⟩
            rw [htree.path_unique hparent hfollow] at hnot
            exact hnot List.prefix_rfl)
          simp only [Option.getD_some, hlookup]

/-- What the source's directory holds once the record is added. -/
theorem EdgeAdded.source (hvalid : ValidInum parentInum)
    (htoValid : ValidInum toParentInum)
    (hdir : ∃ contents, DirContents s (s.inodeAt (inumIndex parentInum)) contents ∧
      (contents.flatten.map Prod.fst).Nodup)
    (hadded : EdgeAdded toParentInum toName inum s t) :
    ∃ contents, DirContents t (t.inodeAt (inumIndex parentInum)) contents ∧
      (contents.flatten.map Prod.fst).Nodup := by
  by_cases hsame : parentInum = toParentInum
  · rw [hsame]
    exact hadded.dir
  · obtain ⟨contents, hcontents, hunique⟩ := hdir
    have hnot : inumIndex parentInum ∉ ({inumIndex toParentInum} : Finset Nat) := fun hmem =>
      hsame (hvalid.eq_of_index htoValid (Finset.mem_singleton.mp hmem))
    refine ⟨contents, ?_, hunique⟩
    rw [hadded.outside.inodeAt _ hvalid.index_lt hnot]
    exact hcontents.of_disk_eq (hadded.outside.disk _ hvalid.index_lt hnot)

/-- The record of the source is still there when the one of the target has been put. -/
theorem TargetAbsent.sourceRecord {s₂ : FileSystem} {moved : Int64}
    (h : TargetAbsent toNames toName mayFail s)
    (hnames : ∀ other ∈ names, IsComponent other)
    (hparent : follow (childOf s) rootInodeNum names = some parentInum)
    (hdir : ∃ contents, DirContents s (s.inodeAt (inumIndex parentInum)) contents ∧
      (contents.flatten.map Prod.fst).Nodup)
    (hsource : names = toNames ∧ name = toName ∨ childOf s parentInum name = some inum ∧
      Avoids (toNames ++ [toName]) (pathOf (names ++ [name])))
    (hpath : Avoids (toNames ++ [toName]) (pathOf names))
    (hfollow : follow (childOf s) rootInodeNum toNames = some toParentInum)
    (hsame : SameButCache s s₂) (hcoherent : CoherentOn (Avoids (toNames ++ [toName])) s₂)
    (hadded : EdgeAdded toParentInum toName moved s₂ u) :
    ∃ records value, DirContents u (u.inodeAt (inumIndex parentInum)) records ∧
      (records.flatten.map Prod.fst).Nodup ∧ records.flatten.lookup name = some value ∧
      CoherentOn (Avoids (toNames ++ [toName])) u ∧ walk u (pathOf names) = some parentInum := by
  have hvalid := h.valid hparent
  have hdir₂ : ∃ contents, DirContents s₂ (s₂.inodeAt (inumIndex parentInum)) contents ∧
      (contents.flatten.map Prod.fst).Nodup := by
    obtain ⟨contents, hcontents, hunique⟩ := hdir
    rw [hsame.inodeAt]
    exact ⟨contents, hsame.dirContents hcontents, hunique⟩
  obtain ⟨records, hrecords, hrecordsUnique⟩ := hadded.source hvalid (h.valid hfollow) hdir₂
  obtain ⟨value, hvalue⟩ : ∃ value, records.flatten.lookup name = some value := by
    rw [← Option.isSome_iff_exists]
    have hlookup := hadded.intact.lookupIn_dir hvalid hrecords name
    by_cases hsamePath : names = toNames ∧ name = toName
    · obtain ⟨rfl, rfl⟩ := hsamePath
      rw [hparent] at hfollow
      cases hfollow
      rw [hadded.found, Option.some_inj] at hlookup
      rw [← hlookup]
      rfl
    · have hchild := (hsource.resolve_left hsamePath).1
      have hother : ¬(parentInum = toParentInum ∧ name = toName) := by
        rintro ⟨rfl, rfl⟩
        exact hsamePath ⟨h.tree.path_unique hparent hfollow, rfl⟩
      rw [hadded.other _ _ hother, hsame.lookupIn_eq, (h.toRooted.directory hchild).2.2,
        Option.some_inj] at hlookup
      rw [← hlookup]
      rfl
  have hfollow₂ := hfollow
  rw [← hsame.childOf_eq] at hfollow₂
  have htree₂ := h.tree
  rw [← hsame.childOf_eq] at htree₂
  have hwalks : ∀ path, Avoids (toNames ++ [toName]) path → walk u path = walk s₂ path :=
    fun path hout => hadded.walk_avoids (hsame.rooted h.toRooted) htree₂ hfollow₂ hout
  refine ⟨records, value, hrecords, hrecordsUnique, hvalue, hcoherent.mono hadded.cache hwalks, ?_⟩
  rw [hwalks _ hpath, hsame.walk_eq]
  exact (h.walk_eq_some hnames hvalid.ne_minusOne).mpr hparent

/-- With nothing at the target, the record is moved, or nothing is. -/
theorem moveEntry_cases (h : TargetAbsent toNames toName mayFail s)
    (hto : ∀ other ∈ toNames ++ [toName], IsComponent other)
    (hfrom : ∀ other ∈ names ++ [name], IsComponent other)
    (hparent : follow (childOf s) rootInodeNum names = some parentInum)
    (hdir : ∃ contents, DirContents s (s.inodeAt (inumIndex parentInum)) contents ∧
      (contents.flatten.map Prod.fst).Nodup)
    (hsource : names = toNames ∧ name = toName ∨ childOf s parentInum name = some inum ∧
      Avoids (toNames ++ [toName]) (pathOf (names ++ [name])))
    (hpath : Avoids (toNames ++ [toName]) (pathOf names))
    (hrun : moveEntry (pathOf (names ++ [name])) (pathOf (toNames ++ [toName])) s = some (r, t)) :
    (r ≠ 0 ∧ mayFail ∧ NothingMoved s t ∧ MoveRefused s toNames toName t r) ∨
    r = 0 ∧ ∃ toParentInum found s' u,
      follow (childOf s) rootInodeNum toNames = some toParentInum ∧ SameButCache s s' ∧
      EdgeAdded toParentInum toName found s' u ∧ EdgeRemoved parentInum name u t ∧
      (¬(names = toNames ∧ name = toName) → found = inum) := by
  have htoName := hto toName (List.mem_append_right _ List.mem_cons_self)
  have htoNames : ∀ other ∈ toNames, IsComponent other := fun other hother =>
    hto other (List.mem_append_left _ hother)
  have hname := hfrom name (List.mem_append_right _ List.mem_cons_self)
  have hnames : ∀ other ∈ names, IsComponent other := fun other hother =>
    hfrom other (List.mem_append_left _ hother)
  have hvalid := h.valid hparent
  have htoPath : Avoids (toNames ++ [toName]) (pathOf toNames) := by
    refine ⟨toNames, htoNames, rfl, fun hinit => ?_⟩
    have hlength := hinit.length_le
    rw [List.length_append, List.length_singleton] at hlength
    omega
  have hclosed : ∀ path parentPath, copyParentPath path = some parentPath →
      Avoids (toNames ++ [toName]) path → Avoids (toNames ++ [toName]) parentPath :=
    fun _ _ => Avoids.parent
  simp only [moveEntry, copyParentPath_pathOf htoName.ne_nil htoName.slash_notMem,
    copyFileName_pathOf htoName.ne_nil htoName.slash_notMem] at hrun
  obtain ⟨found, s₁, hnameI, hrest⟩ := bind_eq_some_iff.mp hrun
  have hsame₁ := nameI_sameButCache hnameI
  obtain ⟨hwalk, hcoherent₁⟩ := nameI_walkOn hclosed h.coherent htoPath hnameI
  rw [h.walk_pathOf htoNames, Option.some_inj] at hwalk
  cases hfollow : follow (childOf s) rootInodeNum toNames with
  | none =>
      rw [hfollow] at hwalk
      have hminus : found = -1 := hwalk.symm
      rw [if_pos hminus] at hrest
      cases hrest
      have hnone : ¬∃ parentInum, follow (childOf s) rootInodeNum toNames = some parentInum ∧
          (s.inodeAt (inumIndex parentInum)).isDir = true := by
        rintro ⟨_, hsome, -⟩
        rw [hfollow] at hsome
        cases hsome
      refine .inl ⟨by decide, not_not.mp fun hnot => hnone (h.directory hnot), hsame₁.nothingMoved,
        .noParent hnone hsame₁ fun hall => (nameI_walk hall hnameI).2⟩
  | some toParentInum =>
      have htoValid := h.valid hfollow
      rw [hfollow] at hwalk
      obtain rfl : toParentInum = found := hwalk
      have h₁ := hsame₁.intact h.toIntact
      rw [if_neg htoValid.ne_minusOne, bind_of_eq (getInode_run h₁.format htoValid),
        hsame₁.inodeAt] at hrest
      split at hrest
      next hnotDir =>
        cases hrest
        have hnone : ¬∃ parentInum, follow (childOf s) rootInodeNum toNames = some parentInum ∧
            (s.inodeAt (inumIndex parentInum)).isDir = true := by
          rintro ⟨_, hsome, hisDir⟩
          rw [hfollow] at hsome
          cases hsome
          rw [hisDir] at hnotDir
          cases hnotDir
        refine .inl ⟨by decide, not_not.mp fun hnot => hnone (h.directory hnot),
          hsame₁.nothingMoved, .noParent hnone hsame₁ fun hall => (nameI_walk hall hnameI).2⟩
      next hisDir =>
      have hisDir : (s.inodeAt (inumIndex toParentInum)).isDir = true := by simpa using hisDir
      obtain ⟨moved, s₂, hnameI', hrest⟩ := bind_eq_some_iff.mp hrest
      have hsame₂ : SameButCache s s₂ := trans_of SameButCache hsame₁ (nameI_sameButCache hnameI')
      have hmoved : ¬(names = toNames ∧ name = toName) → moved = inum := by
        intro hne
        obtain ⟨hchild, hout⟩ := hsource.resolve_left hne
        have hagree := (nameI_walkOn hclosed hcoherent₁ hout hnameI').1
        have hreach : follow (childOf s) rootInodeNum (names ++ [name]) = some inum := by
          rw [follow_concat, hparent]
          exact hchild
        rw [hsame₁.walk_eq, h.walk_pathOf hfrom, hreach, Option.some_inj] at hagree
        exact hagree.symm
      have hcoherent₂ := nameI_coherentOn hclosed hcoherent₁ hnameI'
      have h₂ := hsame₂.intact h.toIntact
      rw [← hsame₂.inodeAt] at hrest
      cases h.add toParentInum hfollow hisDir s₂ hsame₂ moved with
      | refused hfail hadd hnothing =>
          rw [bind_of_eq hadd] at hrest
          cases hrest
          refine .inl ⟨by decide, hfail, hsame₂.nothingMoved.trans hnothing,
            .noRoom hfollow hisDir hsame₂ (fun hall => ?_) hadd⟩
          exact (nameI_walk (nameI_walk hall hnameI).2 hnameI').2
      | put hcontents hunique hnew hadd hput =>
          rw [bind_of_eq hadd] at hrest
          obtain ⟨u, hwrite, hadded⟩ := hput.write h₂ htoValid hcontents hunique hnew hadd
          obtain ⟨currTime, s₃, htime, hrest⟩ := bind_eq_some_iff.mp hrest
          cases htime
          rw [bind_of_eq hwrite] at hrest
          have hrest : removeSource (pathOf (names ++ [name])) _ u = some (r, t) := hrest
          obtain ⟨records, value, hrecords, hrecordsUnique, hvalue, hcoherent₃, hwalkSource⟩ :=
            h.sourceRecord hnames hparent hdir hsource hpath hfollow hsame₂ hcoherent₂ hadded
          obtain ⟨rfl, hremoved⟩ := removeSource_run hadded.intact hvalid hrecords hrecordsUnique
            hvalue hname hcoherent₃ hclosed hpath hwalkSource hrest
          exact .inr ⟨rfl, toParentInum, moved, s₂, u, rfl, hsame₂, hadded, hremoved, hmoved⟩

theorem EntryRefused.noRoom {entry : Entry} {contents : List (List Entry)} {n : Nat}
    (hrefused : EntryRefused s free n entry contents t) : ¬HasRoom free contents entry.1 := by
  rintro ⟨hshort, hroom⟩
  rcases hrefused.reason with ⟨hlong, -⟩ | ⟨-, hfits, hcost, -⟩
  · exact absurd hlong (not_lt.mpr hshort)
  · rcases hroom with hroom | ⟨hlength, hroom⟩
    · exact hfits hroom
    · exact absurd (hcost hlength) (not_le.mpr hroom)

theorem EntryRefused.nothingMoved {entry : Entry} {contents : List (List Entry)}
    (h : WellFormed s free) (hvalid : ValidInum parentInum)
    (hdir : DirContents s (s.inodeAt (inumIndex parentInum)) contents)
    (hrefused : EntryRefused s free (inumIndex parentInum) entry contents t) :
    NothingMoved s t := by
  have hn := hvalid.index_lt
  have hedit := h.edit hn
  have hothers := hedit.othersKept hrefused.frame
  have hat := hrefused.inodeAt_eq h hn hn
  have hdir' := hrefused.dir contents hdir
  rw [← hat] at hdir'
  have hintact : Intact t := by
    obtain ⟨free', howned⟩ := hrefused.owned
    rw [← hat] at howned
    refine h.intact.step hn hothers hrefused.stored.toTableFormat howned.held_nodup (fun b hb => ?_)
      fun _ => ⟨contents, hdir'⟩
    exact howned.data b (Multiset.mem_add.mpr (.inl hb))
  refine ⟨fun i other => ?_, fun m hm hfile => ?_⟩
  · by_cases hi : i = parentInum
    · subst hi
      rw [hintact.lookupIn_dir hvalid hdir', h.lookupIn_dir hvalid hdir]
    · apply hothers.outside.lookupIn_eq h.intact hintact
      intro hother hmem
      exact hi (hother.eq_of_index hvalid (Finset.mem_singleton.mp hmem))
  · apply hothers.outside.sameFile hm
    intro hmem
    rw [Finset.mem_singleton.mp hmem, hdir.isDir] at hfile
    cases hfile

/-- Nothing was there. -/
theorem TreeFormed.targetAbsent (h : TreeFormed s free) (hcoherent : Coherent s)
    (htoName : IsComponent toName)
    (hnone : follow (childOf s) rootInodeNum (toNames ++ [toName]) = none) :
    TargetAbsent toNames toName True s where
  toRooted := h.rooted
  tree := h.tree
  coherent := hcoherent.on _
  directory hnot := absurd trivial hnot
  add parentInum hparent hdir t hsame inum := by
    have hvalid := h.rooted.valid hparent
    have h' := hsame.treeFormed h
    rw [← hsame.inodeAt] at hdir
    obtain ⟨contents, hcontents, hrecords⟩ := h'.records _ hvalid.index_lt hdir
    rw [follow_concat, hparent, Option.bind_some, ← hsame.childOf_eq, childOf_eq htoName,
      h'.lookupIn_dir hvalid hcontents, Option.join_some] at hnone
    rcases h'.addEntry hvalid.index_lt hcontents (toName, inum) with
      ⟨node', u, hadd, hrefused⟩ | ⟨node', u, free', contents', hadd, hstored, -, hadded⟩
    · exact .refused trivial hadd (hrefused.nothingMoved h'.toWellFormed hvalid hcontents)
    · exact .put hcontents hrecords.unique hnone hadd
        (hadded.put h'.toWellFormed hvalid.index_lt hstored)

/-- What was there has been unlinked, and its record has left room for another one. -/
theorem Unlinked.targetAbsent (h : TreeFormed s free)
    (hparent : follow (childOf s) rootInodeNum toNames = some toParentInum)
    (htoName : IsComponent toName) (hunlinked : Unlinked s toParentInum toName inum t)
    (hcoherent : CoherentOn (Avoids (toNames ++ [toName])) t) :
    TargetAbsent toNames toName False t := by
  have hshort : ¬toNames ++ [toName] <+: toNames := by
    intro hinit
    have hlength := hinit.length_le
    rw [List.length_append, List.length_singleton] at hlength
    omega
  have hparent' : follow (childOf t) rootInodeNum toNames = some toParentInum := by
    rw [hunlinked.follow_other h hparent hshort]
    exact hparent
  obtain ⟨contents, hcontents, hunique, hlength, hfits⟩ := hunlinked.room
  have hvalid := h.rooted.valid hparent
  have hnew : contents.flatten.lookup toName = none := by
    have hgone := hunlinked.gone
    rw [childOf_eq htoName, hunlinked.rooted.lookupIn_dir hvalid hcontents] at hgone
    exact hgone
  refine ⟨hunlinked.rooted, h.tree.of_sub fun i other j hchild => ?_, hcoherent,
    fun _ => ⟨toParentInum, hparent', hcontents.isDir⟩, fun found hfound _ u hsame value => ?_⟩
  · by_cases hpair : i = toParentInum ∧ other = toName
    · obtain ⟨rfl, rfl⟩ := hpair
      rw [hunlinked.gone] at hchild
      cases hchild
    · rw [← hunlinked.other i other hpair]
      exact hchild
  · rw [hparent'] at hfound
    cases hfound
    have hcontents' := hsame.dirContents hcontents
    rw [← hsame.inodeAt] at hcontents'
    obtain ⟨node', v, contents', hadd, hput⟩ :=
      @Intact.putRecord _ _ _ _ (toName, value) (hsame.intact hunlinked.rooted.toIntact)
        hvalid.index_lt hcontents' hlength (hfits value)
    exact .put hcontents' hunique hnew hadd hput

end Move

end AltFs
