import AltFs.FileRelease
import AltFs.Mounted
import AltFs.Paths
import AltFs.WriteRuns

/-!
# Files in the root directory

On a device that has just been mounted the root directory has one block.  Files
are created in it as long as their records fit, and written.
-/

namespace AltFs

open Prog

variable [Config]

/-! ## What a write keeps -/

section Write

variable {s s' : FileSystem} {free free' : Multiset Int64} {n m k offset : Nat} {buff : List UInt8}

theorem FileWritten.iAllocated {leak : Multiset Int64}
    (h : FileWritten n offset buff m k leak free s free' s') :
    (s'.inodeAt n).iAllocated = (s.inodeAt n).iAllocated := by
  obtain ⟨node, hnode⟩ := h.node
  rw [hnode]
  rfl

theorem FileWritten.iMode {leak : Multiset Int64}
    (h : FileWritten n offset buff m k leak free s free' s') :
    (s'.inodeAt n).iMode = (s.inodeAt n).iMode := by
  obtain ⟨node, hnode⟩ := h.node
  rw [hnode]
  rfl

/-- A write that loses no block keeps the file system sound. -/
theorem FileWritten.sound (h : FileWritten n offset buff m k 0 free s free' s') (hsound : Sound s free)
    (hmark : (s.inodeAt n).iAllocated = true) : Sound s' free' := by
  have howned := h.owned
  rw [zero_add] at howned
  refine ⟨h.stored, howned, fun i hi => ?_⟩
  by_cases hself : i = n
  · rw [hself]
    refine ⟨h.mapped, ⟨m + k, h.blocksNum, h.filled rfl⟩, fun hvacant => ?_⟩
    rw [h.iAllocated, hmark] at hvacant
    cases hvacant
  · rw [h.others.inodeAt i hi hself]
    exact (hsound.inodes i hi).kept (h.others.kept hi hself)

theorem FileWritten.dirContents {leak : Multiset Int64} {i : Nat} {contents : List (List Entry)}
    (h : FileWritten n offset buff m k leak free s free' s') (hreg : (s.inodeAt n).isDir = false)
    (hi : i < inodeCount) (hdir : DirContents s (s.inodeAt i) contents) :
    DirContents s' (s'.inodeAt i) contents := by
  have hself : i ≠ n := by
    rintro rfl
    have hisDir := hdir.isDir
    rw [hreg] at hisDir
    cases hisDir
  rw [h.others.inodeAt i hi hself]
  apply hdir.of_disk_eq
  intro b hb
  exact h.others.disk b (Multiset.mem_of_le (blocks_le_otherBlocks hi hself) hb)

theorem FileWritten.isDir {leak : Multiset Int64} {i : Nat}
    (h : FileWritten n offset buff m k leak free s free' s') (hi : i < inodeCount) :
    (s'.inodeAt i).isDir = (s.inodeAt i).isDir := by
  by_cases hself : i = n
  · rw [hself, Inode.isDir, Inode.isDir, h.iMode]
  · rw [h.others.inodeAt i hi hself]

theorem FileWritten.wellFormed (h : FileWritten n offset buff m k 0 free s free' s')
    (hwell : WellFormed s free) (hn : n < inodeCount) (hmark : (s.inodeAt n).iAllocated = true)
    (hreg : (s.inodeAt n).isDir = false) : WellFormed s' free' := by
  have hsound := h.sound hwell.toSound hmark
  refine ⟨hsound, ?_, fun i hi hdir => ?_, fun i hi => ?_⟩
  · apply hwell.first.congr hsound.stored.toTableFormat hsound.owned.headBeyond h.sFirstIno
    intro i hi
    by_cases hself : i = n
    · rw [hself]
      exact h.iAllocated
    · rw [h.others.inodeAt i hi hself]
  · rw [h.isDir hi] at hdir
    obtain ⟨contents, hcontents⟩ := hwell.dirs i hi hdir
    exact ⟨contents, h.dirContents hreg hi hcontents⟩
  · by_cases hself : i = n
    · rw [hself]
      refine ⟨?_, fun hdir => ?_⟩
      · have hold := (hwell.sizes n hn).nonneg
        rw [h.size]
        omega
      · rw [h.isDir hn, hreg] at hdir
        cases hdir
    · rw [h.others.inodeAt i hi hself]
      exact hwell.sizes i hi

theorem FileWritten.lookupIn_eq (h : FileWritten n offset buff m k 0 free s free' s')
    (hwell : WellFormed s free) (hwell' : WellFormed s' free') (hreg : (s.inodeAt n).isDir = false)
    (parentInum : Int64) (name : CString) :
    lookupIn s' parentInum name = lookupIn s parentInum name := by
  by_cases hvalid : ValidInum parentInum
  · have hi := hvalid.index_lt
    cases hdir : (s.inodeAt (inumIndex parentInum)).isDir with
    | true =>
        obtain ⟨contents, hcontents⟩ := hwell.dirs _ hi hdir
        rw [hwell.lookupIn_dir hvalid hcontents]
        exact hwell'.lookupIn_dir hvalid (h.dirContents hreg hi hcontents) name
    | false =>
        rw [lookupIn_notDir hwell.stored.toTableFormat hvalid hdir]
        rw [← h.isDir hi] at hdir
        exact lookupIn_notDir hwell'.stored.toTableFormat hvalid hdir
  · rw [lookupIn_invalid hwell.stored.toTableFormat hvalid,
      lookupIn_invalid hwell'.stored.toTableFormat hvalid]

end Write

/-! ## The root directory -/

/--
The root directory has one block with the records `entries`, the inodes from
`first` on are free, and the cache has room for `k` more paths.
-/
structure RootHolds (s : FileSystem) (free : Multiset Int64) (entries : List Entry)
    (first k : Nat) : Prop where
  wellFormed : WellFormed s free
  ready : Ready s k
  dir : DirContents s (s.inodeAt 2) [entries]
  canWrite : (s.inodeAt 2).canWrite = true
  root : ValidInum rootInodeNum
  sFirstIno : s.superblock.sFirstIno.toInt = first
  vacant : ∀ n < inodeCount, first ≤ n → (s.inodeAt n).iAllocated = false

theorem FreshRoot.rootHolds {s : FileSystem} {free : Multiset Int64} {root : Inode}
    (h : FreshRoot s free root) (hwell : WellFormed s free) (hready : Ready s cacheCapacity) :
    RootHolds s free (dots rootInodeNum rootInodeNum) 3 cacheCapacity := by
  refine ⟨hwell, hready, ?_, ?_, validInum_root h.hasInodes, ?_, fun n hn hle => ?_⟩
  · rw [h.rootAt]
    exact h.dir
  · rw [h.rootAt, Inode.canWrite, h.iMode]
    decide
  · rw [h.sFirstIno]
    rfl
  · rw [h.others n hn (by omega)]
    rfl

section Root

variable {s : FileSystem} {free : Multiset Int64} {entries : List Entry} {first k : Nat}
  {path name : CString}

/-- The path has one component, and the root directory is searched for it. -/
theorem RootHolds.walk_child (h : RootHolds s free entries first k)
    (hparent : copyParentPath path = some [slash]) (hfile : copyFileName path = some name)
    (hroot : path ≠ [slash]) : walk s path = some ((entries.lookup name).getD (-1)) := by
  have hlookup := h.wellFormed.lookupIn_dir h.root h.dir name
  rw [List.flatten_singleton] at hlookup
  rw [walk_step hroot hparent, walk_root, hfile, Option.bind_some, if_neg (by decide)]
  simp only [hlookup, Option.map_some]

/-- Inode `first` is the next one to be allocated. -/
private theorem sFirstIno_succ {t : FileSystem} (h : FirstIsLeast t) (hlow : 3 ≤ first)
    (hfirst : first < inodeCount) (hbefore : ∀ n, 3 ≤ n → n ≤ first → (t.inodeAt n).iAllocated = true)
    (hbehind : ∀ n < inodeCount, first + 1 ≤ n → (t.inodeAt n).iAllocated = false) :
    t.superblock.sFirstIno.toInt = (first + 1 : Nat) := by
  have hnonneg := h.nonneg
  have hleast := h.least
  have hcount := hleast.le_count
  have hstart := hleast.start_le
  generalize hvalue : t.superblock.sFirstIno.toInt.toNat = least at *
  rcases Nat.lt_trichotomy least (first + 1) with hlt | heq | hgt
  · have hfree := hleast.free (by omega)
    rw [hbefore least hstart (by omega)] at hfree
    cases hfree
  · omega
  · have hmark := hleast.allocated (first + 1) (by omega) hgt
    rw [hbehind (first + 1) (by omega) le_rfl] at hmark
    cases hmark

/-- `altfs_mknod` of a new name whose record fits. -/
theorem RootHolds.mknod (h : RootHolds s free entries first (path.length + (1 + k)))
    (hparent : copyParentPath path = some [slash]) (hfile : copyFileName path = some name)
    (hroot : path ≠ [slash]) (hnew : entries.lookup name = none)
    (hshort : name.length ≤ maxFileNameLength)
    (hfits : recordsSize entries + recordSize (name, 0) ≤ blockSize) (hfirst : first < inodeCount)
    (mode : UInt32) :
    ∃ t entries' currTime, altfsMknod path mode s = some (true, t) ∧
      RootHolds t free entries' (first + 1) k ∧
      entries'.Perm ((name, Int64.ofInt first) :: entries) ∧
      (∀ other, other ≠ name → entries'.lookup other = entries.lookup other) ∧
      walk t path = some (Int64.ofInt first) ∧
      t.inodeAt first = Inode.zero.marked.fresh mode currTime ∧
      ∀ n < inodeCount, n ≠ 2 → n ≠ first → t.inodeAt n = s.inodeAt n ∧
        ∀ b ∈ (s.inodeAt n).blocks s, t.disk b = s.disk b := by
  have hmissing : walk s path = some (-1) := by
    rw [h.walk_child hparent hfile hroot, hnew]
    rfl
  have hfitsIn : ∀ inum, RecordFits [entries] (name, inum) := fun _ => ⟨entries, by simp, hfits⟩
  have hvacant : s.superblock.sFirstIno.toInt < inodeCount := by
    rw [h.sFirstIno]
    omega
  obtain ⟨s₁, t, childInum, free', contents', hrun, hsame, -, hcreated, hready⟩ :=
    altfsMknod_run h.wellFormed (k := k) h.ready hmissing hparent walk_root h.root h.dir h.canWrite
      hfile (by rw [List.flatten_singleton, hnew]) hvacant ⟨hshort, .inl (hfitsIn 0)⟩ mode
  have hwell₁ := hsame.wellFormed h.wellFormed
  have hchildNum : childInum.toInt = first := by
    rw [hcreated.least]
    obtain ⟨cache, rfl⟩ := hsame
    exact h.sFirstIno
  have hindex : inumIndex childInum = first := by
    rw [inumIndex, hchildNum, Int.toNat_natCast]
  have hchildEq : childInum = Int64.ofInt first := by
    apply Int64.toInt_inj.mp
    rw [hchildNum, toInt_ofInt_inodeIndex hfirst.le]
  have hlow : 3 ≤ first := by
    have hstart := h.wellFormed.first.least.start_le
    rw [h.sFirstIno] at hstart
    exact hstart
  obtain ⟨currTime, hchild⟩ := hcreated.child
  rw [hindex] at hchild
  -- the record fits, so the directory still has one block and no block has been taken
  obtain rfl : free' = free := by
    rcases hcreated.room with ⟨-, hfree⟩ | ⟨hnone, -⟩
    · exact hfree
    · exact absurd (hfitsIn _) hnone
  obtain ⟨entries', rfl⟩ : ∃ entries', contents' = [entries'] :=
    List.length_eq_one_iff.mp (hcreated.lengthSame (hfitsIn _))
  have hperm := hcreated.entries
  have hlookup := hcreated.lookup
  simp only [List.flatten_singleton, hchildEq] at hperm hlookup
  have hother : ∀ n < inodeCount, n ≠ 2 → n ≠ first → t.inodeAt n = s.inodeAt n ∧
      ∀ b ∈ (s.inodeAt n).blocks s, t.disk b = s.disk b := by
    intro n hn htwo hne
    obtain ⟨hat, hdisk⟩ := hcreated.other n hn htwo (by rw [hindex]; exact hne)
    rw [hsame.inodeAt] at hat hdisk
    obtain ⟨cache, rfl⟩ := hsame
    exact ⟨hat, hdisk⟩
  have hparentMap : ∃ node : Inode, t.inodeAt 2 = { (s₁.inodeAt 2).withMap node with
      iFileSize := node.iFileSize, iChildNum := (s₁.inodeAt 2).iChildNum + 1
      iMtime := node.iMtime, iCtime := node.iCtime } := hcreated.parent
  obtain ⟨node, hnode⟩ := hparentMap
  have hvacant' : ∀ n < inodeCount, first + 1 ≤ n → (t.inodeAt n).iAllocated = false := by
    intro n hn hle
    rw [(hother n hn (by omega) (by omega)).1]
    exact h.vacant n hn (by omega)
  have hroot' : RootHolds t free' entries' (first + 1) k := by
    refine ⟨hcreated.wellFormed, hready, hcreated.dir, ?_, h.root, ?_, hvacant'⟩
    · have hold := h.canWrite
      rw [← hsame.inodeAt] at hold
      rw [hnode]
      exact hold
    · apply sFirstIno_succ hcreated.wellFormed.first hlow hfirst _ hvacant'
      intro n hlow' hle
      by_cases hne : n = first
      · rw [hne, hchild]
        rfl
      · rw [(hother n (by omega) (by omega) hne).1]
        have hleast := h.wellFormed.first.least
        rw [h.sFirstIno] at hleast
        exact hleast.allocated n hlow' (by omega)
  refine ⟨t, entries', currTime, hrun, hroot', hperm, hlookup, ?_, hchild, hother⟩
  rw [hroot'.walk_child hparent hfile hroot, lookup_of_perm_cons hperm hnew]
  rfl

theorem SameButCache.rootHolds {t : FileSystem} (hsame : SameButCache s t)
    (h : RootHolds s free entries first k) {k' : Nat} (hready : Ready t k') :
    RootHolds t free entries first k' := by
  refine ⟨hsame.wellFormed h.wellFormed, hready, ?_, ?_, h.root, ?_, fun n hn hle => ?_⟩
  · rw [hsame.inodeAt]
    exact hsame.dirContents h.dir
  · rw [hsame.inodeAt]
    exact h.canWrite
  · obtain ⟨cache, rfl⟩ := hsame
    exact h.sFirstIno
  · rw [hsame.inodeAt]
    exact h.vacant n hn hle

/-- `altfs_write` to a file of the root directory. -/
theorem RootHolds.write {inum : Int64} {buff : List UInt8} {offset : Int64} {m : Nat}
    (h : RootHolds s free entries first (path.length + k)) (hwalk : walk s path = some inum)
    (hvalid : ValidInum inum) (hlt : inumIndex inum < first) (hne : inumIndex inum ≠ 2)
    (hmark : (s.inodeAt (inumIndex inum)).iAllocated = true)
    (hreg : (s.inodeAt (inumIndex inum)).isDir = false)
    (hm : (s.inodeAt (inumIndex inum)).iBlocksNum.toInt = m) (hbuff : buff ≠ [])
    (hoffset : 0 ≤ offset.toInt) :
    ∃ s₁ c leak free' t, altfsWrite path buff offset s =
        some ((writtenUpTo offset.toInt.toNat buff.length (m + c) : Int), t) ∧
      SameButCache s s₁ ∧
      FileWritten (inumIndex inum) offset.toInt.toNat buff m c leak free s₁ free' t ∧
      (leak = 0 → RootHolds t free' entries first k ∧
        ∀ other, walk t other = walk s other) := by
  have hfound : inum ≠ -1 := by
    rintro rfl
    exact absurd hvalid.1 (by decide)
  obtain ⟨s₁, hname, hsame, hready⟩ := nameI_run h.ready hwalk
  have h₁ := hsame.rootHolds h hready
  rw [← hsame.inodeAt] at hm hmark hreg
  have hshort : offset.toInt.toNat < 2 ^ 63 := by
    have := offset.toInt_lt
    omega
  obtain ⟨c, leak, free', t, hwrite, hwritten⟩ :=
    writeInum_spec h₁.wellFormed.toSound hvalid hbuff hshort hm
  refine ⟨s₁, c, leak, free', t, ?_, hsame, hwritten, ?_⟩
  · have hlength : buff.length ≠ 0 := fun hzero => hbuff (List.length_eq_zero_iff.mp hzero)
    rw [altfsWrite, if_neg hlength, if_neg (not_lt.mpr hoffset), bind_of_eq hname, if_neg hfound]
    exact hwrite
  · rintro rfl
    have hwell := hwritten.wellFormed h₁.wellFormed hvalid.index_lt hmark hreg
    have hlookup := hwritten.lookupIn_eq h₁.wellFormed hwell hreg
    have hroot : t.inodeAt 2 = s₁.inodeAt 2 :=
      hwritten.others.inodeAt 2 h.root.index_lt hne.symm
    refine ⟨⟨hwell, ⟨?_, ?_, ?_⟩, ?_, ?_, h.root, ?_, fun n hn hle => ?_⟩, fun other => ?_⟩
    · exact h₁.ready.coherent.mono hwritten.cache fun _ _ _ hvalue => (hlookup _ _).trans hvalue
    · rw [hwritten.cache]
      exact h₁.ready.inv
    · rw [hwritten.cache]
      exact h₁.ready.room
    · exact hwritten.dirContents hreg h.root.index_lt h₁.dir
    · rw [hroot]
      exact h₁.canWrite
    · rw [hwritten.sFirstIno]
      exact h₁.sFirstIno
    · rw [hwritten.others.inodeAt n hn (by omega)]
      exact h₁.vacant n hn hle
    · exact (walk_congr hlookup other).trans (hsame.walk_eq other)

end Root

/-- A device that has been formatted and mounted. -/
theorem exists_rootHolds (hinodes : 0 < inodeBlockCount)
    (hrest : numOfDataBlocks % numOfAddressesPerBlock ≠ 0) :
    ∃ s free, RootHolds s free (dots rootInodeNum rootInodeNum) 3 cacheCapacity ∧
      (free.card : Int) = numOfDataBlocks - 1 := by
  obtain ⟨s, s', hmake, hsetup⟩ := makefs_setup_run FileSystem.blank hinodes hrest
  obtain ⟨free, root, hfresh, hwell, hready⟩ := mounted_of_makefs hmake hsetup
  exact ⟨s', free, hfresh.rootHolds hwell hready, hfresh.card_free⟩

omit [Config] in
theorem isDir_freshFile (currTime : Int64) :
    (Inode.zero.marked.fresh (sIfreg ||| defaultPermissions) currTime).isDir = false := by
  change decide ((sIfreg ||| defaultPermissions) &&& 0xF000 = sIfdir) = false
  decide

/-- An empty file at `path`, which anyone may read and write. -/
structure EmptyFile (s : FileSystem) (path : CString) (inum : Int64) : Prop where
  walk : walk s path = some inum
  valid : ValidInum inum
  node : ∃ currTime, s.inodeAt (inumIndex inum) =
    Inode.zero.marked.fresh (sIfreg ||| defaultPermissions) currTime

namespace EmptyFile

variable {s : FileSystem} {path : CString} {inum : Int64} (h : EmptyFile s path inum)

include h

theorem iAllocated : (s.inodeAt (inumIndex inum)).iAllocated = true := by
  obtain ⟨currTime, hnode⟩ := h.node
  rw [hnode]
  rfl

theorem isDir : (s.inodeAt (inumIndex inum)).isDir = false := by
  obtain ⟨currTime, hnode⟩ := h.node
  rw [hnode]
  exact isDir_freshFile currTime

theorem canWrite : (s.inodeAt (inumIndex inum)).canWrite = true := by
  obtain ⟨currTime, hnode⟩ := h.node
  rw [hnode]
  change decide ((sIfreg ||| defaultPermissions) &&& 0x80 ≠ 0) = true
  decide

theorem emptyMap : (s.inodeAt (inumIndex inum)).EmptyMap := by
  obtain ⟨currTime, hnode⟩ := h.node
  rw [hnode]
  exact ⟨rfl, emptyMap_marked.direct, emptyMap_marked.root⟩

theorem iFileSize : (s.inodeAt (inumIndex inum)).iFileSize = 0 := by
  obtain ⟨currTime, hnode⟩ := h.node
  rw [hnode]
  rfl

end EmptyFile

def letterD : CChar := ⟨100, by decide⟩

def letterF : CChar := ⟨102, by decide⟩

/-- A name that no record takes. -/
def longName : CString := List.replicate (maxFileNameLength + 1) letterF

omit [Config] in
theorem lt_length_longName : maxFileNameLength < longName.length := by
  rw [longName, List.length_replicate]
  exact Nat.lt_succ_self _

omit [Config] in
theorem eq_of_mem_longName {c : CChar} (h : c ∈ longName) : c = letterF :=
  List.eq_of_mem_replicate h

omit [Config] in
theorem isComponent_longName : IsComponent longName where
  ne_nil := List.length_pos_iff.mp (Nat.zero_lt_of_lt lt_length_longName)
  slash_notMem hmem := absurd (eq_of_mem_longName hmem) (by decide)
  ne_dot heq := absurd (eq_of_mem_longName (heq ▸ List.mem_cons_self)) (by decide)
  ne_dotDot heq := absurd (eq_of_mem_longName (heq ▸ List.mem_cons_self)) (by decide)

omit [Config] in
theorem length_pathOf_longName : (pathOf [longName]).length = 257 := by
  rw [pathOf, if_neg (List.cons_ne_nil _ _), joinNames, joinNames, List.append_nil,
    List.length_cons, longName, List.length_replicate]

/-- A device with one file, `/f`. -/
theorem exists_emptyFile (hinodes : 0 < inodeBlockCount)
    (hrest : numOfDataBlocks % numOfAddressesPerBlock ≠ 0) :
    ∃ s free entries, RootHolds s free entries 4 1000 ∧ EmptyFile s [slash, letterF] 3 ∧
      entries.Perm (([letterF], 3) :: dots rootInodeNum rootInodeNum) ∧
      (free.card : Int) = numOfDataBlocks - 1 := by
  obtain ⟨s, free, hroot, hcard⟩ := exists_rootHolds hinodes hrest
  have hcount := inodeCount_gt hinodes
  have hready : Ready s (([slash, letterF] : CString).length + (1 + 1000)) :=
    hroot.ready.mono (by decide)
  obtain ⟨t, entries, currTime, -, hroot', hperm, -, hwalk, hnode, -⟩ :=
    @RootHolds.mknod _ _ _ _ _ _ [slash, letterF] [letterF] { hroot with ready := hready } rfl rfl
      (by decide) rfl (by decide) (by decide) (by omega) (sIfreg ||| defaultPermissions)
  refine ⟨t, free, entries, hroot', ⟨hwalk, ⟨by decide, ?_⟩, currTime, hnode⟩, hperm, hcard⟩
  change (3 : Int) < inodeCount
  omega

/-- A file that takes all free blocks. -/
theorem RootHolds.fill {s : FileSystem} {free : Multiset Int64} {entries : List Entry}
    {first k m : Nat} {path : CString} {inum : Int64}
    (h : RootHolds s free entries first (path.length + k)) (hfile : EmptyFile s path inum)
    (hlt : inumIndex inum < first) (hne : inumIndex inum ≠ 2) (hm : 0 < m) (hmax : m < maxBlocksNum)
    (hcost : free.card = appendCost 0 m) :
    ∃ r t, altfsWrite path (List.replicate (blockSize * m) 0) 0 s = some (r, t) ∧
      RootHolds t 0 entries first k ∧ ∀ other, walk t other = walk s other := by
  have hempty : (s.inodeAt (inumIndex inum)).iBlocksNum.toInt = (0 : Nat) := by
    rw [hfile.emptyMap.blocksNum]
    rfl
  have hbuff : List.replicate (blockSize * m) (0 : UInt8) ≠ [] := by
    rw [ne_eq, List.replicate_eq_nil_iff]
    simp only [blockSize]
    omega
  obtain ⟨s₁, c, leak, free', t, hrun, -, hwritten, hroot⟩ := @RootHolds.write _ _ _ _ _ _ _ _ _ 0 _ h
    hfile.walk hfile.valid hlt hne hfile.iAllocated hfile.isDir hempty hbuff le_rfl
  have hlast : ((0 : Int64).toInt.toNat + (List.replicate (blockSize * m) (0 : UInt8)).length - 1) /
      blockSize = m - 1 := by
    rw [List.length_replicate]
    simp only [Int64.toInt_zero, Int.toNat_zero, blockSize]
    omega
  have hleaks := hwritten.leaks
  have hstopped := hwritten.stopped
  rw [hlast, zero_add] at hleaks hstopped
  have hlength : m ≤ c := by
    by_contra hshort
    rcases hstopped (by omega) with hfew | hlong
    · have hmono := appendCost_mono 0 (show c + 1 ≤ m by omega)
      omega
    · omega
  have hleak : leak = 0 := hleaks.mpr (.inl (by omega))
  obtain ⟨hroot, hwalk⟩ := hroot hleak
  have hsum := hwritten.cost hleak
  have hmono := appendCost_mono 0 hlength
  obtain rfl : free' = 0 := Multiset.card_eq_zero.mp (by omega)
  exact ⟨_, t, hrun, hroot, hwalk⟩

/-- The first byte of a file. -/
theorem RootHolds.writeByte {s : FileSystem} {free : Multiset Int64} {entries : List Entry}
    {first k : Nat} {path : CString} {inum : Int64}
    (h : RootHolds s free entries first (path.length + k)) (hfile : EmptyFile s path inum)
    (hlt : inumIndex inum < first) (hne : inumIndex inum ≠ 2) (hfree : free ≠ 0) :
    ∃ free' t, altfsWrite path [1] 0 s = some (1, t) ∧ RootHolds t free' entries first k ∧
      free.card = free'.card + 1 ∧ walk t path = some inum ∧
      (t.inodeAt (inumIndex inum)).iMode = (s.inodeAt (inumIndex inum)).iMode ∧
      (t.inodeAt (inumIndex inum)).iFileSize.toInt = 1 := by
  have hempty : (s.inodeAt (inumIndex inum)).iBlocksNum.toInt = (0 : Nat) := by
    rw [hfile.emptyMap.blocksNum]
    rfl
  obtain ⟨s₁, c, leak, free', t, hrun, hsame, hwritten, hroot⟩ :=
    @RootHolds.write _ _ _ _ _ _ _ _ [1] 0 _ h hfile.walk hfile.valid hlt hne hfile.iAllocated
      hfile.isDir hempty (by decide) le_rfl
  have hpos := Multiset.card_pos.mpr hfree
  have hone : appendCost 0 1 = 1 := by decide
  have hlast : ((0 : Int64).toInt.toNat + ([1] : List UInt8).length - 1) / blockSize = 0 := by decide
  have hstopped := hwritten.stopped
  have hleaks := hwritten.leaks
  have hle := hwritten.le
  rw [hlast] at hstopped hleaks hle
  obtain rfl : c = 1 := by
    by_contra hnot
    obtain rfl : c = 0 := by omega
    rcases hstopped le_rfl with hfew | hlong
    · rw [zero_add, hone] at hfew
      omega
    · simp only [maxBlocksNum] at hlong
      omega
  have hleak : leak = 0 := hleaks.mpr (.inl (by omega))
  obtain ⟨hroot', hwalk⟩ := hroot hleak
  have hcard := hwritten.cost hleak
  rw [hone] at hcard
  refine ⟨free', t, hrun, hroot', hcard, (hwalk path).trans hfile.walk, ?_, ?_⟩
  · rw [hwritten.iMode, hsame.inodeAt]
  · rw [hwritten.size, hsame.inodeAt, hfile.iFileSize]
    rfl

end AltFs
