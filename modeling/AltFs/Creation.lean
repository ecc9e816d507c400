import AltFs.TableSteps

/-!
# Creating a file

`create_new_file` allocates an inode, adds a record to the copy of the parent
and writes both inodes.  When the record cannot be added, the inode is freed
again.
-/

namespace AltFs

open Prog

variable [Config]

section Table

variable {s t : FileSystem} {free : Multiset Int64} {n : Nat} {inum : Int64}

section Replace

variable (hsame : SameData s t) (hempty : (s.inodeAt n).EmptyMap) (hempty' : (t.inodeAt n).EmptyMap)
  (hother : ∀ m < inodeCount, m ≠ n → t.inodeAt m = s.inodeAt m)

include hsame hempty hempty' hother

theorem tableBlocks_replaceEmpty (howned : Owned s free (tableBlocks s)) :
    tableBlocks t = tableBlocks s := by
  refine Finset.sum_congr rfl fun m hm => ?_
  have hm := Finset.mem_range.mp hm
  by_cases hne : m = n
  · rw [hne, hempty.blocks_eq_zero, hempty'.blocks_eq_zero]
  · rw [hother m hm hne, hsame.blocks howned (blocks_le_tableBlocks hm)]

/-- An inode without blocks takes the place of another one. -/
theorem Sound.replaceEmpty (h : Sound s free) (hstored : Stored t)
    (hvacant : (t.inodeAt n).iAllocated = false → t.inodeAt n = Inode.zero) : Sound t free := by
  refine ⟨hstored, ?_, fun m hm => ?_⟩
  · rw [tableBlocks_replaceEmpty hsame hempty hempty' hother h.owned]
    exact hsame.owned h.owned
  · by_cases hne : m = n
    · rw [hne]
      exact hempty'.sound hvacant t
    · rw [hother m hm hne]
      exact (h.inodes m hm).kept (hsame.kept h.owned (blocks_le_tableBlocks hm))

end Replace

omit [Config] in
theorem emptyMap_marked : Inode.zero.marked.EmptyMap where
  blocksNum := rfl
  direct := Inode.emptyMap_zero.direct
  root := Inode.emptyMap_zero.root

/-- Inode `inum` has been allocated. -/
structure ChildAllocated (s : FileSystem) (free : Multiset Int64) (inum : Int64)
    (s' : FileSystem) : Prop where
  valid : ValidInum inum
  least : inum.toInt = s.superblock.sFirstIno.toInt
  vacant : s.inodeAt (inumIndex inum) = Inode.zero
  marked : s'.inodeAt (inumIndex inum) = Inode.zero.marked
  other : ∀ n < inodeCount, n ≠ inumIndex inum → s'.inodeAt n = s.inodeAt n
  wellFormed : WellFormed s' free
  data : SameData s s'
  table : tableBlocks s' = tableBlocks s
  cache : s'.cache = s.cache

theorem WellFormed.allocate (h : WellFormed s free) :
    s.superblock.sFirstIno.toInt = inodeCount ∧ allocateInode s = some (-1, s) ∨
    ∃ inum s', allocateInode s = some (inum, s') ∧ inum ≠ -1 ∧ ChildAllocated s free inum s' := by
  rcases h.first.allocate with hfull | ⟨inum, s', hrun, hleast, hfirst, hdata, hcache⟩
  · exact .inl hfull
  have hnonneg := h.first.nonneg
  have hvalue := hleast.value
  have hlt := hleast.lt_count
  have hvalid : ValidInum inum := by
    rw [inumIndex] at hlt
    exact ⟨by omega, by omega⟩
  have hne : inum ≠ -1 := by
    rintro rfl
    have hminus : (-1 : Int64).toInt = -1 := rfl
    omega
  have hvacant := (h.inodes _ hlt).vacant hleast.wasFree
  have hmarked := hleast.marked
  rw [hvacant] at hmarked
  have hstored : Stored s' := h.stored.path
    ((primitives_persists hvalid.inRange_zero).allocateInode _ _ _ hrun h.stored)
  have hempty : (s.inodeAt (inumIndex inum)).EmptyMap := by
    rw [hvacant]
    exact Inode.emptyMap_zero
  have hempty' : (s'.inodeAt (inumIndex inum)).EmptyMap := by
    rw [hmarked]
    exact emptyMap_marked
  have htable := tableBlocks_replaceEmpty hdata hempty hempty' hleast.other h.owned
  have hsound : Sound s' free := by
    refine Sound.replaceEmpty hdata hempty hempty' hleast.other h.toSound hstored ?_
    rw [hmarked]
    exact fun hmark => absurd hmark (by decide)
  refine .inr ⟨inum, s', hrun, hne, hvalid, hvalue, hvacant, hmarked, hleast.other,
    ⟨hsound, hfirst, fun n hn hdir => ?_, fun n hn => ?_⟩, hdata, htable, hcache⟩
  all_goals by_cases hself : n = inumIndex inum
  · rw [hself, hmarked] at hdir
    cases hdir
  · rw [hleast.other n hn hself] at hdir ⊢
    obtain ⟨contents, hcontents⟩ := h.dirs n hn hdir
    refine ⟨contents, hcontents.of_disk_eq fun b hb => hdata.disk b (h.owned.data b ?_)⟩
    exact Multiset.mem_of_le (blocks_le_tableBlocks hn) hb
  · rw [hself, hmarked]
    refine ⟨le_rfl, fun hdir => ?_⟩
    cases hdir
  · rw [hleast.other n hn hself]
    exact h.sizes n hn

/-- An inode without blocks is cleared, and nothing else is freed. -/
theorem freeInode_empty (h : TableFormat s) (hinum : ValidInum inum)
    (hempty : (s.inodeAt (inumIndex inum)).EmptyMap) :
    freeInode inum s = some (true, s.withInodeFreed (inumIndex inum)) := by
  apply freeInode_run h hinum (.refl s)
  have hdirect : freeDirectBlocks (s.inodeAt (inumIndex inum)) numOfDirectBlocks 0 s =
      some (true, s) := by
    rw [freeDirectBlocks, if_pos (hempty.direct 0)]
    rfl
  have hroots : ∀ d, freeIndirectIfSet ((s.inodeAt (inumIndex inum)).root d) d s =
      some (true, s) := by
    intro d
    rw [freeIndirectIfSet, if_pos (hempty.root d)]
    rfl
  have hsingle : freeIndirectIfSet (s.inodeAt (inumIndex inum)).iSingleIndirect 1 s =
      some (true, s) := hroots 1
  have hdouble : freeIndirectIfSet (s.inodeAt (inumIndex inum)).iDoubleIndirect 2 s =
      some (true, s) := hroots 2
  have htriple : freeIndirectIfSet (s.inodeAt (inumIndex inum)).iTripleIndirect 3 s =
      some (true, s) := hroots 3
  simp only [freeDataBlocksInInode, bind_of_eq hdirect, bind_of_eq hsingle, bind_of_eq hdouble,
    Bool.not_true, Bool.false_eq_true, if_false, htriple]

end Table

section Entry

variable {s : FileSystem} {free : Multiset Int64} {n : Nat} {contents : List (List Entry)}

/-- The record could not be added to directory `n`; the directory on disk has what it had. -/
structure EntryRefused (s : FileSystem) (free : Multiset Int64) (n : Nat) (entry : Entry)
    (contents : List (List Entry)) (s' : FileSystem) : Prop where
  stored : Stored s'
  frame : DataFrame (free + (s.inodeAt n).blocks s) s s'
  owned : ∃ free', Owned s' free' ((s.inodeAt n).blocks s' + otherBlocks s n)
  dir : ∀ contents, DirContents s (s.inodeAt n) contents → DirContents s' (s.inodeAt n) contents
  reason : maxFileNameLength < entry.1.length ∧ s' = s ∨
    entry.1.length ≤ maxFileNameLength ∧ ¬RecordFits contents entry ∧
      (contents.length < maxBlocksNum → free.card ≤ blockCost contents.length) ∧
      (free = 0 → s' = s) ∧
      (free ≠ 0 → ∃ b ∈ free, ∃ free',
        Owned s' free' (b ::ₘ ((s.inodeAt n).blocks s' + otherBlocks s n)))

section Refused

variable {s' : FileSystem} {entry : Entry} (hrefused : EntryRefused s free n entry contents s')
  (h : WellFormed s free) (hn : n < inodeCount)

include hrefused h hn

/-- The inode table is not written. -/
theorem EntryRefused.inodeAt_eq {m : Nat} (hm : m < inodeCount) :
    s'.inodeAt m = s.inodeAt m := by
  have hedit := h.edit hn
  apply hrefused.frame.inodeAt_eq _ hm
  intro b hb
  rcases Multiset.mem_add.mp hb with hb | hb
  · exact hedit.owned.freeList.data b hb
  · exact hedit.owned.data b (Multiset.mem_add.mpr (.inl hb))

theorem EntryRefused.tableBlocks_eq :
    tableBlocks s' = (s.inodeAt n).blocks s' + otherBlocks s n := by
  rw [tableBlocks_split s' hn, hrefused.inodeAt_eq h hn hn,
    ((h.edit hn).othersKept hrefused.frame).otherBlocks_eq]

end Refused

theorem WellFormed.filled (h : WellFormed s free) (hn : n < inodeCount)
    (hdir : DirContents s (s.inodeAt n) contents) : (s.inodeAt n).Filled s contents.length := by
  obtain ⟨count, hcount, hfilled⟩ := (h.inodes n hn).filled
  have hlength := hdir.blocksNum
  obtain rfl : count = contents.length := by omega
  exact hfilled

theorem WellFormed.addEntry (h : WellFormed s free) (hn : n < inodeCount)
    (hdir : DirContents s (s.inodeAt n) contents) (entry : Entry) :
    (∃ node' s', addDirectoryEntry (s.inodeAt n) entry.2 entry.1 s = some ((false, node'), s') ∧
      EntryRefused s free n entry contents s') ∨
    ∃ node' s' free' contents',
      addDirectoryEntry (s.inodeAt n) entry.2 entry.1 s = some ((true, node'), s') ∧ Stored s' ∧
      entry.1.length ≤ maxFileNameLength ∧
      EntryAdded entry (otherBlocks s n) free s (s.inodeAt n) contents true s' node' free'
        contents' := by
  have howned := (h.edit hn).owned
  have hzero : InRange 0 := by
    have hrange := inRange_inodeBlockOf hn
    have hlow := hrange.1
    have hhigh := hrange.2
    rw [InRange, Int64.toInt_zero]
    omega
  by_cases hshort : entry.1.length ≤ maxFileNameLength
  · obtain ⟨added, node', s', free', contents', hrun, hadded⟩ :=
      addDirectoryEntry_spec entry hdir howned hshort
    have hstored : Stored s' := h.stored.path
      ((primitives_persists hzero).writes.addDirectoryEntry_within _ _ _ _ _ _ hrun h.stored)
    cases added with
    | true => exact .inr ⟨node', s', free', contents', hrun, hstored, hshort, hadded⟩
    | false =>
        have hle := hadded.oldBlocks (h.filled hn hdir)
        refine .inl ⟨node', s', hrun, hstored, hadded.frame,
          ⟨free', hadded.owned.mono (Multiset.add_le_add_right hle)⟩, fun contents₁ hdir₁ => ?_,
          .inr ⟨hshort, hadded.noRoom rfl, hadded.failed rfl, fun hnone => (hadded.same rfl hnone).1,
            fun hsome => ?_⟩⟩
        · obtain ⟨added₁, node₁, s₁, free₁, contents₁', hrun₁, hadded₁⟩ :=
            addDirectoryEntry_spec entry hdir₁ howned hshort
          rw [hrun] at hrun₁
          cases hrun₁
          exact hadded₁.kept rfl
        · obtain ⟨b, hb, howned'⟩ := hadded.lost rfl hsome
          exact ⟨b, hb, free', howned'.mono
            (Multiset.cons_le_cons b (Multiset.add_le_add_right hle))⟩
  · refine .inl ⟨_, s, addDirectoryEntry_long (not_le.mp hshort), h.stored, DataFrame.refl _ _,
      ⟨free, howned⟩, fun _ hdir => hdir, .inl ⟨not_le.mp hshort, rfl⟩⟩

/-- The free list and the blocks of the inodes are the same. -/
structure SameBlocks (s : FileSystem) (free : Multiset Int64) (t : FileSystem) : Prop where
  freeList : FreeList t free
  tableBlocks : tableBlocks t = tableBlocks s
  vacant : ∀ m < inodeCount, (t.inodeAt m).iAllocated = false → t.inodeAt m = Inode.zero

/-- The inodes and their blocks are what they were. -/
structure Undone (s : FileSystem) (free : Multiset Int64) (t : FileSystem) : Prop where
  wellFormed : WellFormed t free
  inodeAt : ∀ m < inodeCount, t.inodeAt m = s.inodeAt m
  disk : ∀ b ∈ tableBlocks s, t.disk b = s.disk b
  cache : t.cache = s.cache

/-- An inode that has just been allocated is freed again. -/
theorem ChildAllocated.undo {s₁ : FileSystem} {childInum : Int64} (h : WellFormed s free)
    (halloc : ChildAllocated s free childInum s₁) :
    ∃ t, freeInode childInum s₁ = some (true, t) ∧ Undone s free t := by
  have hchild := halloc.valid.index_lt
  have hempty : (s₁.inodeAt (inumIndex childInum)).blocks s₁ = 0 := by
    rw [halloc.marked]
    exact emptyMap_marked.blocks_eq_zero s₁
  have hfixed : 3 ≤ childInum.toInt := by
    have hstart := h.first.least.start_le
    rw [halloc.least]
    omega
  obtain ⟨t, hrun, hreleased⟩ := halloc.wellFormed.release halloc.valid hfixed fun _ => hempty
  have hwell := hreleased.wellFormed
  rw [hempty, add_zero] at hwell
  refine ⟨t, hrun, hwell, fun m hm => ?_, fun b hb => ?_, hreleased.cache.trans halloc.cache⟩
  · by_cases hself : m = inumIndex childInum
    · rw [hself, hreleased.zero, halloc.vacant]
    · rw [hreleased.others.inodeAt m hm hself, halloc.other m hm hself]
  · have hsplit := tableBlocks_split s₁ hchild
    rw [hempty, zero_add, halloc.table] at hsplit
    rw [hreleased.others.disk b (hsplit ▸ hb), halloc.data.disk b (h.owned.data b hb)]

/-- A block that was free is neither free nor a block of an inode. -/
def BlockLost (free : Multiset Int64) (t : FileSystem) : Prop :=
  ∃ b ∈ free, ∃ free', Owned t free' (b ::ₘ tableBlocks t)

/-- The inode of the child is freed again, and nothing is left of it but a lost block. -/
theorem EntryRefused.undo {s₁ s₂ : FileSystem} {childInum : Int64} {entry : Entry}
    (h : WellFormed s free) (halloc : ChildAllocated s free childInum s₁) (hn : n < inodeCount)
    (hrefused : EntryRefused s₁ free n entry contents s₂) :
    ∃ t, freeInode childInum s₂ = some (true, t) ∧ SameNamespace s t ∧
      (maxFileNameLength < entry.1.length ∨ free = 0 → SameBlocks s free t) ∧
      (entry.1.length ≤ maxFileNameLength → free ≠ 0 → BlockLost free t) ∧
      (maxFileNameLength < entry.1.length ∨ free = 0 → Undone s free t) := by
  have hedit := halloc.wellFormed.edit hn
  have hother := hedit.othersKept hrefused.frame
  have hframe : ∀ m < inodeCount, s₂.inodeAt m = s₁.inodeAt m := fun m hm =>
    hrefused.inodeAt_eq halloc.wellFormed hn hm
  have hchild := halloc.valid.index_lt
  have hempty : (s₂.inodeAt (inumIndex childInum)).EmptyMap := by
    rw [hframe _ hchild, halloc.marked]
    exact emptyMap_marked
  have hrun := freeInode_empty hrefused.stored.toTableFormat halloc.valid hempty
  refine ⟨_, hrun, ?_⟩
  have hsameState : maxFileNameLength < entry.1.length ∨ free = 0 → s₂ = s₁ := by
    intro hreason
    rcases hrefused.reason with ⟨-, hs₂⟩ | ⟨hshort, -, -, hsame, -⟩
    · exact hs₂
    · exact hsame (hreason.resolve_left (by omega))
  generalize ht : s₂.withInodeFreed (inumIndex childInum) = t
  have hsame : SameData s₂ t := by
    rw [← ht]
    exact (SameData.setInode _ hchild).trans (.withFirstIno _)
  have hat : ∀ m < inodeCount, t.inodeAt m = s.inodeAt m := by
    intro m hm
    rw [← ht]
    by_cases hself : m = inumIndex childInum
    · rw [hself, inodeAt_withInodeFreed_self hchild, halloc.vacant]
    · rw [inodeAt_withInodeFreed_ne hchild hm hself, hframe m hm, halloc.other m hm hself]
  have hdirChild : ∀ m, (s.inodeAt m).isDir = true → m ≠ inumIndex childInum := by
    rintro m hdir rfl
    rw [halloc.vacant] at hdir
    cases hdir
  obtain ⟨free', howned⟩ := hrefused.owned
  have hblocks : ∀ m < inodeCount, (s₁.inodeAt m).blocks s₂ ≤
      (s₁.inodeAt n).blocks s₂ + otherBlocks s₁ n := by
    intro m hm
    by_cases hself : m = n
    · rw [hself]
      exact Multiset.le_add_right _ _
    · rw [(hother.kept hm hself).blocks]
      exact (blocks_le_otherBlocks hm hself).trans (Multiset.le_add_left _ _)
  have hdirs : ∀ m < inodeCount, ∀ contents, DirContents s₁ (s₁.inodeAt m) contents →
      DirContents t (s₁.inodeAt m) contents := by
    intro m hm contents hcontents
    have hcontents' : DirContents s₂ (s₁.inodeAt m) contents := by
      by_cases hself : m = n
      · rw [hself] at hcontents ⊢
        exact hrefused.dir contents hcontents
      · refine hcontents.of_disk_eq fun b hb => hother.disk b ?_
        exact Multiset.mem_of_le (blocks_le_otherBlocks hm hself) hb
    refine hcontents'.of_disk_eq fun b hb => hsame.disk b (howned.data b ?_)
    exact Multiset.mem_of_le (hblocks m hm) hb
  have hformat : TableFormat t := by
    rw [← ht]
    exact ⟨hrefused.stored.sInodesCount, hrefused.stored.sNumOfInodesPerBlock⟩
  have htable₂ := hrefused.tableBlocks_eq halloc.wellFormed hn
  have htable : tableBlocks t = tableBlocks s₂ := by
    have hempty' : (t.inodeAt (inumIndex childInum)).EmptyMap := by
      rw [hat _ hchild, halloc.vacant]
      exact Inode.emptyMap_zero
    refine tableBlocks_replaceEmpty hsame hempty hempty' (fun m hm hself => ?_) (htable₂ ▸ howned)
    rw [hat m hm, hframe m hm, halloc.other m hm hself]
  refine ⟨.of_records h hformat hat (fun m hm hdir => ?_) fun m hm contents hcontents => ?_, ?_, ?_,
    fun hreason => ?_⟩
  · have hold := halloc.other m hm (hdirChild m hdir)
    rw [← hold, hsame.blocks howned (hblocks m hm)]
    exact (howned.mono (hblocks m hm)).data
  · have hself := hdirChild m hcontents.isDir
    rw [← halloc.other m hm hself] at hcontents ⊢
    refine hdirs m hm contents (hcontents.of_disk_eq fun b hb => halloc.data.disk b ?_)
    refine h.owned.data b (Multiset.mem_of_le (blocks_le_tableBlocks hm) ?_)
    rwa [halloc.other m hm hself] at hb
  · intro hreason
    rw [hsameState hreason] at hsame htable
    refine ⟨(hsame.owned halloc.wellFormed.owned).freeList, by rw [htable, halloc.table], ?_⟩
    intro m hm
    rw [hat m hm]
    exact (h.inodes m hm).vacant
  · intro hshort hsome
    rcases hrefused.reason with ⟨hlong, -⟩ | ⟨-, -, -, -, hlost⟩
    · omega
    · obtain ⟨b, hb, free'', howned''⟩ := hlost hsome
      rw [← htable₂, ← htable] at howned''
      exact ⟨b, hb, free'', hsame.owned howned''⟩
  · obtain ⟨u, hundo, hundone⟩ := halloc.undo h
    rw [ht, hsameState hreason, hundo] at hrun
    cases hrun
    exact hundone

end Entry

section Created

variable {s s₁ s₂ : FileSystem} {free free' : Multiset Int64} {parentInum childInum : Int64}
  {name : CString} {contents contents' : List (List Entry)} {node' : Inode}

/--
The file `name` has been created in the directory `parentInum` with entries
`contents`; its inode is `childInum`.
-/
structure Created (s : FileSystem) (free : Multiset Int64) (parentInum childInum : Int64)
    (name : CString) (mode : UInt32) (contents : List (List Entry)) (s' : FileSystem)
    (free' : Multiset Int64) (contents' : List (List Entry)) : Prop where
  wellFormed : WellFormed s' free'
  validParent : ValidInum parentInum
  valid : ValidInum childInum
  least : childInum.toInt = s.superblock.sFirstIno.toInt
  vacant : s.inodeAt (inumIndex childInum) = Inode.zero
  child : ∃ currTime, s'.inodeAt (inumIndex childInum) = Inode.zero.marked.fresh mode currTime
  dir : DirContents s' (s'.inodeAt (inumIndex parentInum)) contents'
  entries : contents'.flatten.Perm ((name, childInum) :: contents.flatten)
  lookup : ∀ other, other ≠ name → contents'.flatten.lookup other = contents.flatten.lookup other
  length : contents'.length ≤ contents.length + 1
  lengthSame : RecordFits contents (name, childInum) → contents'.length = contents.length
  parent : ∃ node : Inode, s'.inodeAt (inumIndex parentInum) =
    { (s.inodeAt (inumIndex parentInum)).withMap node with
      iFileSize := node.iFileSize, iChildNum := (s.inodeAt (inumIndex parentInum)).iChildNum + 1
      iMtime := node.iMtime, iCtime := node.iCtime }
  other : ∀ n < inodeCount, n ≠ inumIndex parentInum → n ≠ inumIndex childInum →
    s'.inodeAt n = s.inodeAt n ∧ ∀ b ∈ (s.inodeAt n).blocks s, s'.disk b = s.disk b
  room : RecordFits contents (name, childInum) ∧ free' = free ∨
    ¬RecordFits contents (name, childInum) ∧ contents.length < maxBlocksNum ∧
      free.card = free'.card + 1 + blockCost contents.length
  conserved : free' + tableBlocks s' = free + tableBlocks s
  cache : s'.cache = s.cache

/-- Writing the two inodes completes the creation. -/
theorem finishCreate_run (h : WellFormed s free) (halloc : ChildAllocated s free childInum s₁)
    (hparent : ValidInum parentInum)
    (hdir : DirContents s₁ (s₁.inodeAt (inumIndex parentInum)) contents) (hstored : Stored s₂)
    (hadded : EntryAdded (name, childInum) (otherBlocks s₁ (inumIndex parentInum)) free s₁
      (s₁.inodeAt (inumIndex parentInum)) contents true s₂ node' free' contents')
    (mode : UInt32) : ∃ t, finishCreate ⟨parentInum, node', childInum, true⟩ mode s₂ =
        some (.ok ⟨childInum, t.inodeAt (inumIndex childInum), parentInum⟩, t) ∧
      Created s free parentInum childInum name mode contents t free' contents' := by
  have hn := hparent.index_lt
  have hc := halloc.valid.index_lt
  have hne : inumIndex childInum ≠ inumIndex parentInum := by
    intro heq
    have hparentDir := hdir.isDir
    rw [← heq, halloc.marked] at hparentDir
    cases hparentDir
  have hedit := halloc.wellFormed.edit hn
  let u : FileSystem := { s₂ with clock := s₂.clock + 1 }
  let node'' := node'.entriesChanged (Config.timeAt s₂.clock)
  have hmap : node'' = node''.withMap node' := rfl
  have hframe : DataFrame (free + (s₁.inodeAt (inumIndex parentInum)).blocks s₁) s₁ u :=
    { hadded.frame with }
  have hstoredU : Stored u := hstored.step (.memory s₂.cache (s₂.clock + 1))
  have hother := hedit.othersKept hframe
  have hblocks : node''.blocks u = node'.blocks s₂ := Inode.blocks_eq_of_withMap node' hmap
  have howned : Owned u free' (node''.blocks u + otherBlocks s₁ (inumIndex parentInum)) := by
    rw [hblocks]
    exact ⟨hadded.owned.freeList.frame rfl fun _ _ => rfl, hadded.owned.nodup, hadded.owned.data⟩
  have heditU : Editing u free' (inumIndex parentInum) node'' := hedit.step hframe hstoredU howned
  have hkept : node'.Kept s₂ u := fun _ _ => rfl
  obtain ⟨hfilled, hsum⟩ := hadded.filled rfl (halloc.wellFormed.filled hn hdir)
  have hmark : node''.iAllocated = true := by
    have hmarked := halloc.wellFormed.isAllocated hn hdir.isDir
    have hchanged : node''.iAllocated = (s₁.inodeAt (inumIndex parentInum)).iAllocated := by
      change node'.iAllocated = _
      rw [hadded.changed]
      rfl
    rw [hchanged, hmarked]
  have hnode : SoundInode u node'' :=
    ⟨(hkept.mapped hadded.dir.mapped).of_withMap hmap,
      ⟨contents'.length, hadded.dir.blocksNum, (hkept.filled hfilled).of_withMap hmap⟩,
      fun hnot => by rw [hmark] at hnot; cases hnot⟩
  let v := u.setInode (inumIndex parentInum) node''
  have hsoundV : Sound v free' := heditU.commit hn hnode
  have hchildV : v.inodeAt (inumIndex childInum) = Inode.zero.marked := by
    rw [inodeAt_setInode_ne hn hc hne, hother.inodeAt _ hc hne, halloc.marked]
  let child := Inode.zero.marked.fresh mode (Config.timeAt s₂.clock)
  have hemptyChild : child.EmptyMap := ⟨rfl, emptyMap_marked.direct, emptyMap_marked.root⟩
  let w := v.setInode (inumIndex childInum) child
  refine ⟨w, ?_, ?_⟩
  · have hformatU := hstoredU.toTableFormat
    have hformatV := hsoundV.stored.toTableFormat
    have htime : currentTime s₂ = some (Config.timeAt s₂.clock, u) := rfl
    have hwriteParent : writeInode parentInum node'' u = some (true, v) :=
      writeInode_run hformatU hparent
    have hread : getInode childInum v = some (Inode.zero.marked, v) := by
      rw [getInode_run hformatV halloc.valid, hchildV]
    have hwriteChild : writeInode childInum child v = some (true, w) :=
      writeInode_run hformatV halloc.valid
    have hchildW : w.inodeAt (inumIndex childInum) = child := inodeAt_setInode_self
    rw [hchildW, finishCreate, bind_of_eq htime]
    refine (bind_of_eq hwriteParent).trans ?_
    refine (bind_of_eq hread).trans ?_
    exact bind_of_eq hwriteChild
  have hparentW : w.inodeAt (inumIndex parentInum) = node'' :=
    (inodeAt_setInode_ne hc hn hne.symm).trans inodeAt_setInode_self
  have hchildW : w.inodeAt (inumIndex childInum) = child := inodeAt_setInode_self
  have hotherW : ∀ m < inodeCount, m ≠ inumIndex parentInum → m ≠ inumIndex childInum →
      w.inodeAt m = s₁.inodeAt m := by
    intro m hm hparentNe hchildNe
    rw [inodeAt_setInode_ne hc hm hchildNe, inodeAt_setInode_ne hn hm hparentNe,
      hother.inodeAt m hm hparentNe]
  have hsameW : SameData v w := .setInode _ hc
  have hsame : SameData u w := (SameData.setInode _ hn).trans hsameW
  have hemptyV : (v.inodeAt (inumIndex childInum)).EmptyMap := by
    rw [hchildV]
    exact emptyMap_marked
  have hemptyW : (w.inodeAt (inumIndex childInum)).EmptyMap := by
    rw [hchildW]
    exact hemptyChild
  have hatW : ∀ m < inodeCount, m ≠ inumIndex childInum → w.inodeAt m = v.inodeAt m :=
    fun m hm hself => inodeAt_setInode_ne hc hm hself
  have hsoundW : Sound w free' := by
    refine .replaceEmpty hsameW hemptyV hemptyW hatW hsoundV (hsoundV.stored.setInode hc child) ?_
    rw [hchildW]
    intro hnot
    cases hnot
  have hdirW : DirContents w node'' contents' := by
    refine (hadded.dir.of_withMap hmap rfl).of_disk_eq fun b hb => hsame.disk b ?_
    exact howned.data b (Multiset.mem_add.mpr (.inl hb))
  have hold : ∀ m < inodeCount, m ≠ inumIndex parentInum → m ≠ inumIndex childInum →
      w.inodeAt m = s.inodeAt m ∧ ∀ b ∈ (s.inodeAt m).blocks s, w.disk b = s.disk b := by
    intro m hm hparentNe hchildNe
    have hs₁ := halloc.other m hm hchildNe
    refine ⟨(hotherW m hm hparentNe hchildNe).trans hs₁, fun b hb => ?_⟩
    have hdata := h.owned.data b (Multiset.mem_of_le (blocks_le_tableBlocks hm) hb)
    have hmem : b ∈ otherBlocks s₁ (inumIndex parentInum) := by
      rw [← halloc.data.blocks h.owned (blocks_le_tableBlocks hm), ← hs₁] at hb
      exact Multiset.mem_of_le (blocks_le_otherBlocks hm hparentNe) hb
    rw [hsame.disk b hdata, hother.disk b hmem, halloc.data.disk b hdata]
  have hparentOld := halloc.other _ hn hne.symm
  have hchanged : node'' = { (s.inodeAt (inumIndex parentInum)).withMap node'' with
      iFileSize := node''.iFileSize, iChildNum := (s.inodeAt (inumIndex parentInum)).iChildNum + 1
      iMtime := node''.iMtime, iCtime := node''.iCtime } := by
    have hchildNum : node''.iChildNum = (s₁.inodeAt (inumIndex parentInum)).iChildNum + 1 :=
      hadded.childNum
    rw [← hparentOld, ← hchildNum]
    change node'.entriesChanged _ = _
    rw [hadded.changed]
    rfl
  have htable : tableBlocks w = node'.blocks s₂ + otherBlocks s₁ (inumIndex parentInum) := by
    rw [tableBlocks_replaceEmpty hsameW hemptyV hemptyW hatW hsoundV.owned,
      tableBlocks_setInode heditU.owned le_rfl hn, hother.otherBlocks_eq, hblocks]
  have hmarks : ∀ m < inodeCount, (w.inodeAt m).iAllocated = (s₁.inodeAt m).iAllocated := by
    intro m hm
    by_cases hparentEq : m = inumIndex parentInum
    · rw [hparentEq, hparentW, hmark, halloc.wellFormed.isAllocated hn hdir.isDir]
    by_cases hchildEq : m = inumIndex childInum
    · rw [hchildEq, hchildW, halloc.marked]
      rfl
    · rw [hotherW m hm hparentEq hchildEq]
  have hfirst : FirstIsLeast w :=
    halloc.wellFormed.first.congr hsoundW.stored.toTableFormat hsoundW.owned.headBeyond
      hframe.sFirstIno hmarks
  have hdirs : ∀ m < inodeCount, (w.inodeAt m).isDir = true →
      ∃ contents, DirContents w (w.inodeAt m) contents := by
    intro m hm hdirM
    by_cases hparentEq : m = inumIndex parentInum
    · rw [hparentEq, hparentW]
      exact ⟨contents', hdirW⟩
    by_cases hchildEq : m = inumIndex childInum
    · rw [hchildEq] at hdirM ⊢
      exact ⟨[], .nil hdirM hemptyW⟩
    · obtain ⟨hat, hdisk⟩ := hold m hm hparentEq hchildEq
      rw [hat] at hdirM ⊢
      obtain ⟨contents, hcontents⟩ := h.dirs m hm hdirM
      exact ⟨contents, hcontents.of_disk_eq hdisk⟩
  have hsizes : ∀ m < inodeCount, SizeFits (w.inodeAt m) := by
    intro m hm
    by_cases hparentEq : m = inumIndex parentInum
    · have hsize := hadded.fileSize (by
        rw [(halloc.wellFormed.sizes _ hn).dir hdir.isDir, hdir.blocksNum])
      rw [← hadded.dir.blocksNum] at hsize
      rw [hparentEq, hparentW]
      refine ⟨?_, fun _ => hsize⟩
      change 0 ≤ node'.iFileSize.toInt
      rw [hsize, hadded.dir.blocksNum]
      exact Int.natCast_nonneg _
    by_cases hchildEq : m = inumIndex childInum
    · rw [hchildEq, hchildW]
      exact ⟨le_rfl, fun _ => rfl⟩
    · rw [hotherW m hm hparentEq hchildEq]
      exact halloc.wellFormed.sizes m hm
  have hconserved : free' + tableBlocks w = free + tableBlocks s := by
    rw [htable, ← add_assoc, hsum, add_assoc, ← tableBlocks_split s₁ hn, halloc.table]
  refine ⟨⟨hsoundW, hfirst, hdirs, hsizes⟩, hparent, halloc.valid, halloc.least, halloc.vacant,
    ⟨_, hchildW⟩, ?_, hadded.entries, hadded.lookup, hadded.length, hadded.lengthSame,
    ⟨node'', ?_⟩, hold, hadded.room rfl, hconserved,
    hframe.cache.trans halloc.cache⟩
  · rw [hparentW]
    exact hdirW
  · rw [hparentW]
    exact hchanged

/-! ### What resolution sees of a creation -/

section Lookup

variable {t : FileSystem} {mode : UInt32}
  (hcreated : Created s free parentInum childInum name mode contents t free' contents')

include hcreated

theorem Created.emptyMap_child : (t.inodeAt (inumIndex childInum)).EmptyMap := by
  obtain ⟨currTime, hchild⟩ := hcreated.child
  rw [hchild]
  exact ⟨rfl, emptyMap_marked.direct, emptyMap_marked.root⟩

theorem Created.lookupIn_name (hnew : contents.flatten.lookup name = none) :
    lookupIn t parentInum name = some (some childInum) := by
  rw [hcreated.wellFormed.lookupIn_dir hcreated.validParent hcreated.dir]
  rw [lookup_of_perm_cons hcreated.entries hnew]

/-- In every other place the same is found as before. -/
theorem Created.lookupIn_other (h : WellFormed s free)
    (hdir : DirContents s (s.inodeAt (inumIndex parentInum)) contents) {inum : Int64}
    {other : CString} (hother : inum ≠ parentInum ∨ other ≠ name) :
    lookupIn t inum other = lookupIn s inum other := by
  have hformat := h.stored.toTableFormat
  have h' := hcreated.wellFormed
  have hformat' := h'.stored.toTableFormat
  by_cases hvalid : ValidInum inum
  swap
  · rw [lookupIn_invalid hformat hvalid, lookupIn_invalid hformat' hvalid]
  have hn := hvalid.index_lt
  by_cases hparent : inum = parentInum
  · subst hparent
    rw [h'.lookupIn_dir hvalid hcreated.dir, h.lookupIn_dir hvalid hdir,
      hcreated.lookup other (hother.resolve_left fun hne => hne rfl)]
  by_cases hchild : inum = childInum
  · subst hchild
    have hbefore : (s.inodeAt (inumIndex inum)).isDir = false := by
      rw [hcreated.vacant]
      rfl
    rw [lookupIn_notDir hformat hvalid hbefore]
    cases hafter : (t.inodeAt (inumIndex inum)).isDir with
    | true => exact h'.lookupIn_dir hvalid (.nil hafter hcreated.emptyMap_child) other
    | false => exact lookupIn_notDir hformat' hvalid hafter
  obtain ⟨hat, hdisk⟩ := hcreated.other _ hn
    (fun heq => hparent (hvalid.eq_of_index hcreated.validParent heq))
    (fun heq => hchild (hvalid.eq_of_index hcreated.valid heq))
  cases hisDir : (s.inodeAt (inumIndex inum)).isDir with
  | true =>
      obtain ⟨records, hrecords⟩ := h.dirs _ hn hisDir
      have hrecords' := hrecords.of_disk_eq hdisk
      rw [← hat] at hrecords'
      rw [h'.lookupIn_dir hvalid hrecords', h.lookupIn_dir hvalid hrecords]
  | false =>
      rw [lookupIn_notDir hformat hvalid hisDir]
      rw [← hat] at hisDir
      exact lookupIn_notDir hformat' hvalid hisDir

theorem Created.coherent (h : WellFormed s free)
    (hdir : DirContents s (s.inodeAt (inumIndex parentInum)) contents) (hcoherent : Coherent s)
    (hnew : contents.flatten.lookup name = none) : Coherent t := by
  refine hcoherent.mono hcreated.cache fun inum other value hfound => ?_
  rw [hcreated.lookupIn_other h hdir, hfound]
  by_contra hboth
  rw [not_or, not_not, not_not] at hboth
  obtain ⟨rfl, rfl⟩ := hboth
  rw [h.lookupIn_dir hcreated.validParent hdir, hnew] at hfound
  cases hfound

theorem Created.ready {k : Nat} (h : WellFormed s free)
    (hdir : DirContents s (s.inodeAt (inumIndex parentInum)) contents) (hready : Ready s k)
    (hnew : contents.flatten.lookup name = none) : Ready t k where
  coherent := hcreated.coherent h hdir hready.coherent hnew
  inv := by
    rw [hcreated.cache]
    exact hready.inv
  room := by
    rw [hcreated.cache]
    exact hready.room

end Lookup

end Created

/-- The entries `.` and `..` of a new directory. -/
def dots (inum parentInum : Int64) : List Entry := [([dot], inum), ([dot, dot], parentInum)]

section NewFile

variable {s s₁ t : FileSystem} {free : Multiset Int64} {parentInum : Int64}
  {path parentPath name : CString} {mode : UInt32} {contents : List (List Entry)}

/-- The record of a name fits into a directory, if need be in a new block. -/
def HasRoom (free : Multiset Int64) (contents : List (List Entry)) (name : CString) : Prop :=
  name.length ≤ maxFileNameLength ∧
    (RecordFits contents (name, 0) ∨
      contents.length < maxBlocksNum ∧ blockCost contents.length < free.card)

/-- `create_new_file` in a state in which it comes to adding the record. -/
inductive CreateOutcome (s : FileSystem) (free : Multiset Int64) (parentInum : Int64)
    (name : CString) (mode : UInt32) (contents : List (List Entry)) :
    Except Int NewFile → FileSystem → Prop
  | created {childInum : Int64} {s' : FileSystem} {free' : Multiset Int64}
      {contents' : List (List Entry)} (hroom : HasRoom free contents name)
      (hcreated : Created s free parentInum childInum name mode contents s' free' contents') :
      CreateOutcome s free parentInum name mode contents
        (.ok ⟨childInum, s'.inodeAt (inumIndex childInum), parentInum⟩) s'
  | refused {s' : FileSystem} (hroom : ¬HasRoom free contents name) (hsame : SameNamespace s s')
      (hblocks : maxFileNameLength < name.length ∨ free = 0 → SameBlocks s free s')
      (hlost : name.length ≤ maxFileNameLength → free ≠ 0 → BlockLost free s')
      (hundone : maxFileNameLength < name.length ∨ free = 0 → Undone s free s') :
      CreateOutcome s free parentInum name mode contents (.error (-edquot)) s'

theorem createEntry_run (hparent : copyParentPath path = some parentPath)
    (hname : nameI parentPath s = some (parentInum, s₁)) (h : WellFormed s₁ free)
    (hvalid : ValidInum parentInum) (hdir : (s₁.inodeAt (inumIndex parentInum)).isDir = true)
    (hwrite : (s₁.inodeAt (inumIndex parentInum)).canWrite = true)
    (hfile : copyFileName path = some name) :
    createEntry path s = (do
      let childInodeNum ← allocateInode
      if childInodeNum = -1 then pure (.error (-edquot)) else do
      let (added, parentInode) ←
        addDirectoryEntry (s₁.inodeAt (inumIndex parentInum)) childInodeNum name
      pure (.ok ⟨parentInum, parentInode, childInodeNum, added⟩) :
        Fs (Except Int CreatedEntry)) s₁ := by
  have hfound : parentInum ≠ -1 := by
    rintro rfl
    exact absurd hvalid.1 (by decide)
  simp only [createEntry, hparent, bind_of_eq hname, if_neg hfound,
    bind_of_eq (getInode_run h.stored.toTableFormat hvalid), hdir, hwrite, hfile, Bool.not_true,
    Bool.false_eq_true, if_false]

theorem createNewFile_run (hparent : copyParentPath path = some parentPath)
    (hname : nameI parentPath s = some (parentInum, s₁)) (h : WellFormed s₁ free)
    (hvalid : ValidInum parentInum)
    (hdir : DirContents s₁ (s₁.inodeAt (inumIndex parentInum)) contents)
    (hwrite : (s₁.inodeAt (inumIndex parentInum)).canWrite = true)
    (hfile : copyFileName path = some name)
    (hvacant : s₁.superblock.sFirstIno.toInt < inodeCount) :
    ∃ r t, createNewFile path mode s = some (r, t) ∧
      CreateOutcome s₁ free parentInum name mode contents r t := by
  have hentry := createEntry_run hparent hname h hvalid hdir.isDir hwrite hfile
  have hn := hvalid.index_lt
  rcases h.allocate with ⟨hfull, -⟩ | ⟨childInum, s₂, hrun, hne, halloc⟩
  · omega
  have hsame := halloc.other (inumIndex parentInum) hn (by
    rintro heq
    have hchild := hdir.isDir
    rw [heq, halloc.vacant] at hchild
    cases hchild)
  have hdir₂ : DirContents s₂ (s₂.inodeAt (inumIndex parentInum)) contents := by
    rw [hsame]
    exact hdir.of_disk_eq fun b hb =>
      halloc.data.disk b (h.owned.data b (Multiset.mem_of_le (blocks_le_tableBlocks hn) hb))
  rw [bind_of_eq hrun, if_neg hne, ← hsame] at hentry
  rcases halloc.wellFormed.addEntry hn hdir₂ (name, childInum) with
    ⟨node', s₃, hadd, hrefused⟩ | ⟨node', s₃, free', contents', hadd, hstored, hshort, hadded⟩
  · rw [bind_of_eq hadd] at hentry
    obtain ⟨t, hfree, hnamespace, hblocks, hlost, hundone⟩ := hrefused.undo h halloc hn
    refine ⟨_, t, ?_, .refused ?_ hnamespace hblocks hlost hundone⟩
    · rw [createNewFile, bind_of_eq hentry]
      exact bind_of_eq hfree
    · rintro ⟨hshort, hroom⟩
      rcases hrefused.reason with ⟨hlong, -⟩ | ⟨-, hfits, hcost, -⟩
      · exact absurd hlong (not_lt.mpr hshort)
      · rcases hroom with hroom | ⟨hlength, hroom⟩
        · exact hfits hroom
        · exact absurd (hcost hlength) (not_le.mpr hroom)
  · rw [bind_of_eq hadd] at hentry
    obtain ⟨t, hfinish, hcreated⟩ := finishCreate_run h halloc hvalid hdir₂ hstored hadded mode
    refine ⟨_, t, ?_, .created ⟨hshort, ?_⟩ hcreated⟩
    · rw [createNewFile, bind_of_eq hentry]
      exact hfinish
    · rcases hcreated.room with ⟨hfits, -⟩ | ⟨-, hlength, hcost⟩
      · exact .inl hfits
      · exact .inr ⟨hlength, by omega⟩

end NewFile

end AltFs
