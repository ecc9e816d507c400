import AltFs.PathChanges
import AltFs.ShortWrites

/-!
# Blocks lost by failed appends

When a block has been allocated and cannot be added to a file, it is given
back to nobody.
-/

namespace AltFs

open Prog NamedTree

variable [Config]

/-- Every data block is on the free list or belongs to an allocated inode. -/
def BlocksCovered (s : FileSystem) : Prop :=
  ∃ free, FreeList s free ∧ ∀ b, DataBlock b → b ∈ free ∨
    ∃ n < inodeCount, (s.inodeAt n).iAllocated = true ∧ b ∈ (s.inodeAt n).blocks s

section Covered

variable {s t : FileSystem} {free free' : Multiset Int64} {b : Int64}

theorem mem_tableBlocks : b ∈ tableBlocks s ↔ ∃ n < inodeCount, b ∈ (s.inodeAt n).blocks s := by
  rw [tableBlocks, Multiset.mem_sum]
  simp only [Finset.mem_range]

theorem BlocksCovered.mem (h : BlocksCovered s) (hfree : FreeList s free) (hb : DataBlock b) :
    b ∈ free + tableBlocks s := by
  obtain ⟨free', hfree', hcovered⟩ := h
  obtain rfl := hfree.unique hfree'
  rw [Multiset.mem_add, mem_tableBlocks]
  rcases hcovered b hb with hmem | ⟨n, hn, -, hmem⟩
  · exact .inl hmem
  · exact .inr ⟨n, hn, hmem⟩

/-- Inodes that are not in use have no blocks. -/
theorem BlocksCovered.of_mem (hfree : FreeList s free)
    (hvacant : ∀ n < inodeCount, (s.inodeAt n).iAllocated = false → s.inodeAt n = Inode.zero)
    (hmem : ∀ b, DataBlock b → b ∈ free + tableBlocks s) : BlocksCovered s := by
  refine ⟨free, hfree, fun b hb => ?_⟩
  rcases Multiset.mem_add.mp (hmem b hb) with hb | hb
  · exact .inl hb
  · obtain ⟨n, hn, hblock⟩ := mem_tableBlocks.mp hb
    refine .inr ⟨n, hn, ?_, hblock⟩
    by_contra hmark
    rw [hvacant n hn (by simpa using hmark), Inode.emptyMap_zero.blocks_eq_zero] at hblock
    exact absurd hblock (Multiset.notMem_zero b)

theorem BlockLost.not_covered (h : BlockLost free t) : ¬BlocksCovered t := by
  rintro hcovered
  obtain ⟨b, -, free', howned⟩ := h
  have hmem := hcovered.mem howned.freeList (howned.data b (Multiset.mem_cons_self _ _))
  rcases Multiset.mem_add.mp hmem with hfree | htable
  · exact howned.not_free (Multiset.mem_cons_self _ _) hfree
  · exact (Multiset.nodup_cons.mp howned.held_nodup).1 htable

theorem SameBlocks.covered (h : SameBlocks s free t) (hs : FreeList s free)
    (hcovered : BlocksCovered s) : BlocksCovered t := by
  apply BlocksCovered.of_mem h.freeList h.vacant
  intro b hb
  rw [h.tableBlocks]
  exact hcovered.mem hs hb

/-- A refused record loses the block that was allocated for it. -/
theorem EntryRefused.covered_iff {n : Nat} {entry : Entry} {contents : List (List Entry)}
    (hrefused : EntryRefused s free n entry contents t) (h : WellFormed s free)
    (hn : n < inodeCount) (hshort : entry.1.length ≤ maxFileNameLength)
    (hcovered : BlocksCovered s) : BlocksCovered t ↔ free = 0 := by
  rcases hrefused.reason with ⟨hlong, -⟩ | ⟨-, -, -, hsame, hlost⟩
  · exact absurd hlong (not_lt.mpr hshort)
  constructor
  · intro hafter
    by_contra hfree
    obtain ⟨b, hb, free', howned⟩ := hlost hfree
    rw [← hrefused.tableBlocks_eq h hn] at howned
    exact BlockLost.not_covered ⟨b, hb, free', howned⟩ hafter
  · intro hfree
    rw [hsame hfree]
    exact hcovered

theorem SameButCache.covered (hsame : SameButCache s t) (h : Sound s free)
    (hcovered : BlocksCovered s) : BlocksCovered t :=
  (hsame.sameBlocks h).covered h.owned.freeList hcovered

end Covered

section Write

variable {s t : FileSystem} {free free' leak : Multiset Int64} {n m k offset : Nat}
  {buff : List UInt8}

/-- After a write every block is covered when none has leaked. -/
theorem FileWritten.covered_iff (h : FileWritten n offset buff m k leak free s free' t)
    (hsound : Sound s free) (hmark : (s.inodeAt n).iAllocated = true)
    (hcovered : BlocksCovered s) : BlocksCovered t ↔ leak = 0 := by
  constructor
  · intro hafter
    by_contra hleak
    obtain ⟨b, hb⟩ := Multiset.exists_mem_of_ne_zero hleak
    have hheld : b ∈ leak + tableBlocks t := Multiset.mem_add.mpr (.inl hb)
    rcases Multiset.mem_add.mp (hafter.mem h.owned.freeList (h.owned.data b hheld)) with
      hfree | htable
    · exact h.owned.not_free hheld hfree
    · exact Multiset.disjoint_left.mp (Multiset.nodup_add.mp h.owned.held_nodup).2.2 hb htable
  · rintro rfl
    have hconserved := h.conserved
    rw [zero_add] at hconserved
    apply BlocksCovered.of_mem h.owned.freeList
    · intro i hi hvacant
      by_cases hself : i = n
      · rw [hself, h.iAllocated, hmark] at hvacant
        cases hvacant
      · rw [h.others.inodeAt i hi hself] at hvacant ⊢
        exact (hsound.inodes i hi).vacant hvacant
    · intro b hb
      rw [hconserved]
      exact hcovered.mem hsound.owned.freeList hb

/-- A write stops short without a leak when whole appends have used up the free blocks. -/
theorem FileWritten.leak_iff (h : FileWritten n offset buff m k leak free s free' t)
    (hshort : writtenUpTo offset buff.length (m + k) < buff.length) :
    leak = 0 ↔ ∃ count, m + count ≤ maxBlocksNum ∧ free.card = appendCost m count := by
  have hstop : m + k ≤ (offset + buff.length - 1) / blockSize := by
    simp only [writtenUpTo, blockSize] at *
    omega
  have hmax := h.count_le
  rw [h.leaks]
  constructor
  · rintro (hdone | hcost)
    · omega
    · exact ⟨k, hmax, hcost⟩
  · rintro ⟨count, hcount, hcost⟩
    right
    rcases Nat.lt_or_ge k count with hlt | hge
    · -- one more block would have been appended
      have hmore := appendCost_mono m (show k + 1 ≤ count from hlt)
      rcases h.stopped hstop with hfew | hfull
      · omega
      · omega
    · have hless := appendCost_mono m hge
      have henough := h.enough
      omega

end Write

/-- A record of directory `parentInum` needs a block, and none can be added. -/
structure RecordStarved (s : FileSystem) (free : Multiset Int64) (parentInum : Int64)
    (name : CString) (contents : List (List Entry)) : Prop where
  valid : ValidInum parentInum
  dir : DirContents s (s.inodeAt (inumIndex parentInum)) contents
  short : name.length ≤ maxFileNameLength
  noRoom : ¬HasRoom free contents name

section Calls

variable {s s₁ t : FileSystem} {free : Multiset Int64} {parentInum inum offset : Int64}
  {path fromPath toPath parentPath name : CString} {contents : List (List Entry)} {r : Int}
  {buff : List UInt8}

theorem altfsWrite_covered_iff (h : Consistent s free) (hcovered : BlocksCovered s)
    (hname : nameI path s = some (inum, s₁)) (hrun : altfsWrite path buff offset s = some (r, t))
    (hr : 0 ≤ r) (hshort : r < buff.length) :
    BlocksCovered t ↔ ∃ count,
      (s.inodeAt (inumIndex inum)).iBlocksNum.toInt.toNat + count ≤ maxBlocksNum ∧
      free.card = appendCost (s.inodeAt (inumIndex inum)).iBlocksNum.toInt.toNat count := by
  have hsame := nameI_sameButCache hname
  have hwalk := (nameI_walk h.coherent hname).1
  have hbuff : buff ≠ [] := by
    rintro rfl
    rw [List.length_nil] at hshort
    omega
  have hlength : buff.length ≠ 0 := fun hzero => hbuff (List.length_eq_zero_iff.mp hzero)
  rw [altfsWrite, if_neg hlength] at hrun
  split at hrun
  · cases hrun
    exact absurd hr (by decide)
  rw [bind_of_eq hname] at hrun
  split at hrun
  · cases hrun
    exact absurd hr (by decide)
  next hoffset hfound =>
  obtain ⟨hvalid, hmark⟩ := h.walk_allocated hwalk hfound
  have hsound := hsame.sound h.toSound
  obtain ⟨-, ⟨m, hm, -⟩, -⟩ := hsound.inodes _ hvalid.index_lt
  have hlt : offset.toInt.toNat < 2 ^ 63 := by
    have := offset.toInt_lt
    omega
  obtain ⟨k, leak, free', t', hwrite, hwritten⟩ := writeInum_spec hsound hvalid hbuff hlt hm
  rw [hwrite] at hrun
  cases hrun
  rw [← hsame.inodeAt] at hmark ⊢
  rw [hwritten.covered_iff hsound hmark (hsame.covered h.toSound hcovered), hm, Int.toNat_natCast]
  exact hwritten.leak_iff (by omega)

theorem altfsMknod_starved {mode : UInt32} {added : Bool} (h : Consistent s free)
    (hcovered : BlocksCovered s) (hmissing : walk s path = some (-1))
    (hattempted : Attempted s path parentInum name)
    (hstarved : RecordStarved s free parentInum name contents)
    (hrun : altfsMknod path mode s = some (added, t)) : BlocksCovered t ↔ free = 0 := by
  obtain ⟨inum, s₁, hname, hrest⟩ := bind_eq_some_iff.mp hrun
  have hsame := nameI_sameButCache hname
  obtain ⟨hwalk, hcoherent⟩ := nameI_walk h.coherent hname
  rw [hmissing] at hwalk
  cases hwalk
  rw [if_neg (not_not.mpr rfl)] at hrest
  obtain ⟨result, u, hcreate, hrest⟩ := bind_eq_some_iff.mp hrest
  have hattempted₁ := hsame.attempted hattempted
  rcases createNewFile_cases (hsame.wellFormed h.toWellFormed) hcoherent hcreate with
    ⟨-, -, -, hnone⟩ | ⟨parentInum', name', s₂, hattempted', hsame₂, -, houtcome⟩
  · exact absurd hattempted₁ (hnone parentInum name)
  obtain ⟨rfl, rfl⟩ := hattempted₁.unique hattempted'
  have hto₂ : SameButCache s s₂ := trans_of SameButCache hsame hsame₂
  have hdir := hsame.dirContents hstarved.dir
  rw [← hsame.inodeAt] at hdir
  cases houtcome contents hdir with
  | created hroom hcreated => exact absurd hroom hstarved.noRoom
  | refused hroom hnamespace hblocks hlost =>
      cases hrest
      constructor
      · intro hafter
        by_contra hfree
        exact (hlost hstarved.short hfree).not_covered hafter
      · intro hfree
        have h₂ := hto₂.sound h.toSound
        exact (hblocks (.inr hfree)).covered h₂.owned.freeList (hto₂.covered h.toSound hcovered)

theorem altfsAccess_eq (hcoherent : Coherent s) (hwalk : walk s path = some inum)
    (hrun : altfsAccess path s = some (r, t)) :
    r = (if inum = -1 then -enoent else 0) ∧ SameButCache s t ∧ Coherent t := by
  obtain ⟨found, u, hname, hrest⟩ := bind_eq_some_iff.mp hrun
  obtain ⟨hfound, hcoherent'⟩ := nameI_walk hcoherent hname
  rw [hwalk] at hfound
  cases hfound
  have hsame := nameI_sameButCache hname
  split at hrest
  next hmissing =>
    cases hrest
    exact ⟨(if_pos hmissing).symm, hsame, hcoherent'⟩
  next hfound =>
    cases hrest
    exact ⟨(if_neg hfound).symm, hsame, hcoherent'⟩

theorem altfsRename_starved (h : Consistent s free) (hcovered : BlocksCovered s)
    (hfrom : walk s fromPath = some inum) (hfound : inum ≠ -1) (hto : walk s toPath = some (-1))
    (hparentPath : copyParentPath toPath = some parentPath)
    (hparent : walk s parentPath = some parentInum) (hname : copyFileName toPath = some name)
    (hstarved : RecordStarved s free parentInum name contents)
    (hrun : altfsRename fromPath toPath s = some (r, t)) : BlocksCovered t ↔ free = 0 := by
  obtain ⟨code, s₁, haccess, hrest⟩ := bind_eq_some_iff.mp hrun
  obtain ⟨rfl, hsame₁, hcoherent₁⟩ := altfsAccess_eq h.coherent hfrom haccess
  rw [if_neg hfound, if_neg (not_not.mpr rfl)] at hrest
  obtain ⟨unlinkRes, s₂, htarget, hrest⟩ := bind_eq_some_iff.mp hrest
  obtain ⟨code', s₂', haccess', htarget⟩ := bind_eq_some_iff.mp htarget
  obtain ⟨rfl, hsame₂, hcoherent₂⟩ :=
    altfsAccess_eq hcoherent₁ ((hsame₁.walk_eq toPath).trans hto) haccess'
  cases htarget
  rw [if_neg (not_not.mpr rfl)] at hrest
  have hto₂ : SameButCache s s₂ := trans_of SameButCache hsame₁ hsame₂
  have hne := hstarved.valid.ne_minusOne
  simp only [moveEntry, hparentPath, hname] at hrest
  -- the directory of the target
  obtain ⟨found, s₃, hnameI, hrest⟩ := bind_eq_some_iff.mp hrest
  have hsame₃ : SameButCache s s₃ := trans_of SameButCache hto₂ (nameI_sameButCache hnameI)
  obtain ⟨hwalk, hcoherent₃⟩ := nameI_walk hcoherent₂ hnameI
  rw [hto₂.walk_eq, hparent] at hwalk
  cases hwalk
  have h₃ := hsame₃.wellFormed h.toWellFormed
  rw [if_neg hne, bind_of_eq (getInode_run h₃.stored.toTableFormat hstarved.valid), hsame₃.inodeAt,
    hstarved.dir.isDir, if_neg (by decide)] at hrest
  -- the record
  obtain ⟨moved, s₄, hnameI', hrest⟩ := bind_eq_some_iff.mp hrest
  have hsame₄ : SameButCache s s₄ := trans_of SameButCache hsame₃ (nameI_sameButCache hnameI')
  have h₄ := hsame₄.wellFormed h.toWellFormed
  have hdir := hsame₄.dirContents hstarved.dir
  rw [← hsame₄.inodeAt] at hdir hrest
  rcases h₄.addEntry hstarved.valid.index_lt hdir (name, moved) with
    ⟨node', s₅, hadd, hrefused⟩ | ⟨node', s₅, free', contents', hadd, -, -, hadded⟩
  · rw [bind_of_eq hadd] at hrest
    cases hrest
    exact hrefused.covered_iff h₄ hstarved.valid.index_lt hstarved.short
      (hsame₄.covered h.toSound hcovered)
  · exfalso
    apply hstarved.noRoom
    refine ⟨hstarved.short, ?_⟩
    rcases hadded.room rfl with ⟨hfits, -⟩ | ⟨-, hlength, hcost⟩
    · exact .inl hfits
    · exact .inr ⟨hlength, by omega⟩

/--
A block is lost by a failed append unless the free list was empty when the
first block of that append was asked for.  A rename onto an existing target
needs no block.
-/
theorem failedAppend_covered_iff (h : Consistent s free) (hcovered : BlocksCovered s) :
    (∀ path inum s₁ buff offset r t, nameI path s = some (inum, s₁) →
      altfsWrite path buff offset s = some (r, t) → 0 ≤ r → r < buff.length →
      (BlocksCovered t ↔ ∃ count,
        (s.inodeAt (inumIndex inum)).iBlocksNum.toInt.toNat + count ≤ maxBlocksNum ∧
        free.card = appendCost (s.inodeAt (inumIndex inum)).iBlocksNum.toInt.toNat count)) ∧
    (∀ path parentInum name contents mode added t, walk s path = some (-1) →
      Attempted s path parentInum name → RecordStarved s free parentInum name contents →
      altfsMknod path mode s = some (added, t) → (BlocksCovered t ↔ free = 0)) ∧
    (∀ fromPath toPath parentPath inum parentInum name contents r t,
      walk s fromPath = some inum → inum ≠ -1 → walk s toPath = some (-1) →
      copyParentPath toPath = some parentPath → walk s parentPath = some parentInum →
      copyFileName toPath = some name → RecordStarved s free parentInum name contents →
      altfsRename fromPath toPath s = some (r, t) → (BlocksCovered t ↔ free = 0)) ∧
    ∀ source target u v w r t, source ≠ [] → (∀ name ∈ source, IsComponent name) →
      (∀ name ∈ target, IsComponent name) → altfsAccess (pathOf source) s = some (0, u) →
      altfsAccess (pathOf target) u = some (0, v) → altfsUnlink (pathOf target) v = some (0, w) →
      moveEntry (pathOf source) (pathOf target) w = some (r, t) → r = 0 := by
  refine ⟨fun path inum s₁ buff offset r t hname hrun hr hshort => ?_,
    fun path parentInum name contents mode added t hmissing hattempted hstarved hrun => ?_,
    fun fromPath toPath parentPath inum parentInum name contents r t hfrom hfound hto hparentPath
      hparent hname hstarved hrun => ?_,
    fun source target u v w r t hroot hsource htarget hsourceRun htargetRun hunlink hmove => ?_⟩
  · exact altfsWrite_covered_iff h hcovered hname hrun hr hshort
  · exact altfsMknod_starved h hcovered hmissing hattempted hstarved hrun
  · exact altfsRename_starved h hcovered hfrom hfound hto hparentPath hparent hname hstarved hrun
  · obtain ⟨front, last, rfl⟩ := List.eq_nil_or_concat source |>.resolve_left hroot
    rw [List.concat_eq_append] at hsource hsourceRun hmove
    exact moveEntry_unlinked h.toTreeFormed h.coherent hsource htarget hsourceRun htargetRun hunlink
      hmove

end Calls

section OneFile

variable {s : FileSystem} {free : Multiset Int64} {inum : Int64} {entries : List Entry}
  {buff : List UInt8}

/-- The first write to the file. -/
theorem OneFile.write (h : OneFile s free inum entries) (hbuff : buff ≠ []) :
    ∃ s₁ count leak free' t, nameI (pathOf [[letterF]]) s = some (inum, s₁) ∧
      altfsWrite (pathOf [[letterF]]) buff 0 s =
        some ((writtenUpTo 0 buff.length (0 + count) : Int), t) ∧
      FileWritten (inumIndex inum) 0 buff 0 count leak free s₁ free' t := by
  have hready : Ready s ((pathOf [[letterF]]).length + 998) := h.ready
  obtain ⟨s₁, hname, hsame, -⟩ := nameI_run hready h.walk_f
  have hsound := hsame.sound h.tree.toSound
  have hempty : (s₁.inodeAt (inumIndex inum)).iBlocksNum.toInt = (0 : Nat) := by
    obtain ⟨currTime, hnode⟩ := h.node
    rw [hsame.inodeAt, hnode]
    rfl
  have hlength : buff.length ≠ 0 := fun hzero => hbuff (List.length_eq_zero_iff.mp hzero)
  obtain ⟨count, leak, free', t, hwrite, hwritten⟩ :=
    @writeInum_spec _ _ _ _ _ 0 _ hsound h.valid hbuff (by decide) hempty
  refine ⟨s₁, count, leak, free', t, hname, ?_, hwritten⟩
  rw [altfsWrite, if_neg hlength, if_neg (by decide), bind_of_eq hname, if_neg h.valid.ne_minusOne]
  exact hwrite

/-- More blocks are written than can be appended. -/
theorem OneFile.write_short {n : Nat} (h : OneFile s free inum entries)
    (hcost : free.card < appendCost 0 n) :
    ∃ s₁ r t, nameI (pathOf [[letterF]]) s = some (inum, s₁) ∧
      altfsWrite (pathOf [[letterF]]) (List.replicate (blockSize * n) 0) 0 s = some (r, t) ∧
      0 ≤ r ∧ r < (List.replicate (blockSize * n) (0 : UInt8)).length := by
  have hpos : n ≠ 0 := by
    rintro rfl
    rw [appendCost_zero] at hcost
    omega
  have hbuff : List.replicate (blockSize * n) (0 : UInt8) ≠ [] := by
    rw [ne_eq, List.replicate_eq_nil_iff]
    simp only [blockSize]
    omega
  obtain ⟨s₁, count, leak, free', t, hname, hrun, hwritten⟩ := h.write hbuff
  refine ⟨s₁, _, t, hname, hrun, Int.natCast_nonneg _, ?_⟩
  have hfew : count < n := by
    by_contra hlt
    have hmono := appendCost_mono 0 (show n ≤ count by omega)
    have henough := hwritten.enough
    omega
  rw [List.length_replicate]
  simp only [writtenUpTo, blockSize]
  omega

end OneFile

omit [Config] in
/-- A write of 64 blocks takes the 64 free blocks for 63 of them and an indirect block. -/
theorem failedAppend_covered_iff_f :
    letI := Config.ofBlocks 67 (by decide)
    ∃ s r t, altfsWrite (pathOf [[letterF]]) (List.replicate (blockSize * 64) 0) 0 s = some (r, t) ∧
      r < (blockSize * 64 : Nat) ∧ BlocksCovered t := by
  let _ := Config.ofBlocks 67 (by decide)
  obtain ⟨s, free, inum, entries, h, hone, hfull, hcard⟩ :=
    exists_consistentFile (by decide) (by decide)
  have hdata : numOfDataBlocks = 65 := by decide
  have hfit : appendCost 0 63 = 64 := by decide
  have hnext : appendCost 0 64 = 65 := by decide
  obtain ⟨s₁, r, t, hname, hrun, hr, hshort⟩ := @OneFile.write_short _ s free inum entries 64 hone
    (by omega)
  have hcovered : BlocksCovered s :=
    .of_mem h.owned.freeList (fun n hn => (h.inodes n hn).vacant) hfull
  obtain ⟨hwrite, -⟩ := failedAppend_covered_iff h hcovered
  have hiff := hwrite _ _ _ _ _ _ _ hname hrun hr hshort
  obtain ⟨currTime, hnode⟩ := hone.node
  rw [hnode] at hiff
  rw [List.length_replicate] at hshort
  refine ⟨s, r, t, hrun, hshort, hiff.mpr ⟨63, ?_, ?_⟩⟩
  · change 0 + 63 ≤ maxBlocksNum
    simp only [maxBlocksNum]
    decide
  · change free.card = appendCost 0 63
    omega

omit [Config] in
/--
A write of 525 blocks with 526 blocks free: the last block is allocated, and
then there is none for the double-indirect block.
-/
theorem failedAppend_lost_f :
    letI := Config.ofBlocks 536 (by decide)
    ∃ s free r t, Consistent s free ∧ BlocksCovered s ∧
      altfsWrite (pathOf [[letterF]]) (List.replicate (blockSize * 525) 0) 0 s = some (r, t) ∧
      0 ≤ r ∧ r < (blockSize * 525 : Nat) ∧ ¬BlocksCovered t := by
  let _ := Config.ofBlocks 536 (by decide)
  obtain ⟨s, free, inum, entries, h, hone, hfull, hcard⟩ :=
    exists_consistentFile (by decide) (by decide)
  have hdata : numOfDataBlocks = 527 := by decide
  have hfit : appendCost 0 524 = 525 := by decide +kernel
  have hnext : appendCost 0 525 = 528 := by decide +kernel
  obtain ⟨s₁, r, t, hname, hrun, hr, hshort⟩ := @OneFile.write_short _ s free inum entries 525 hone
    (by omega)
  have hcovered : BlocksCovered s :=
    .of_mem h.owned.freeList (fun n hn => (h.inodes n hn).vacant) hfull
  have hiff := altfsWrite_covered_iff h hcovered hname hrun hr hshort
  obtain ⟨currTime, hnode⟩ := hone.node
  rw [hnode] at hiff
  rw [List.length_replicate] at hshort
  refine ⟨s, free, r, t, h, hcovered, hrun, hr, hshort, fun hafter => ?_⟩
  obtain ⟨total, -, htotal⟩ := hiff.mp hafter
  change free.card = appendCost 0 total at htotal
  rcases Nat.lt_or_ge total 525 with hlt | hge
  · have hmono := appendCost_mono 0 (show total ≤ 524 by omega)
    omega
  · have hmono := appendCost_mono 0 hge
    omega

end AltFs
