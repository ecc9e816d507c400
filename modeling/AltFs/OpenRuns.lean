import AltFs.FreshFiles
import AltFs.KeptPositions

/-!
# Opening with `O_TRUNC`

`altfs_open` reads the inode, calls `altfs_truncate`, and then writes the inode
it has read first: what was on disk before the truncation is stored again.
-/

namespace AltFs

open Prog

variable [Config]

/-- File `n` of `s` is empty in `s'`, and its blocks have been given back. -/
structure Emptied (s s' : FileSystem) (n : Nat) : Prop where
  size : (s'.inodeAt n).iFileSize = 0
  map : (s'.inodeAt n).EmptyMap
  freed : ∃ free, FreeList s' free ∧ ∀ b ∈ (s.inodeAt n).blocks s, b ∈ free
  unused : ∀ m < inodeCount, (s'.inodeAt m).iAllocated = true →
    ∀ b ∈ (s.inodeAt n).blocks s, b ∉ (s'.inodeAt m).blocks s'

section

variable {s t : FileSystem} {free : Multiset Int64} {path : CString} {oflag inum : Int64}

/-- The last write of `altfs_open` stores the inode as it was, but for two times. -/
theorem openInum_stale {r : Int} (h : Sound s free)
    (hwrite : (s.inodeAt (inumIndex inum)).canWrite = true) (htrunc : hasFlag oflag oTrunc = true)
    (hrun : openInum path oflag inum false s = some (r, t)) (hr : 0 ≤ r) :
    ∃ res u currTime, ValidInum inum ∧ altfsTruncate path 0 s = some (res, u) ∧ Stored u ∧
      t = ({ u with clock := u.clock + 1 } : FileSystem).setInode (inumIndex inum)
        { s.inodeAt (inumIndex inum) with iCtime := currTime, iMtime := currTime } := by
  obtain ⟨node, s₁, hread, hrest⟩ := bind_eq_some_iff.mp hrun
  obtain ⟨hvalid, rfl, rfl⟩ := h.validInum_of_getInode hread
  split at hrest
  · cases hrest
    exact absurd hr (by decide)
  rw [if_pos (by rw [htrunc, hwrite]; rfl)] at hrest
  obtain ⟨res, u, htruncate, hrest⟩ := bind_eq_some_iff.mp hrest
  split at hrest
  · cases hrest
    exact absurd hr (by decide)
  have hpath := (primitives_persists hvalid.inRange_zero).operations.altfsTruncate_within trivial 0 _ _ _
    htruncate h.stored
  have hstored := h.stored.path hpath
  have htick : Stored { u with clock := u.clock + 1 } := hstored.step (.memory u.cache (u.clock + 1))
  refine ⟨res, u, Config.timeAt u.clock, hvalid, htruncate, hstored, ?_⟩
  rw [if_pos (by rfl)] at hrest
  obtain ⟨currTime, v, htime, hrest⟩ := bind_eq_some_iff.mp hrest
  cases htime
  rw [bind_of_eq (writeInode_run htick.toTableFormat hvalid)] at hrest
  cases hrest
  rfl

/-- Truncating an empty file to nothing leaves the disk alone. -/
theorem altfsTruncate_empty {res : Int} (h : Sound s free) (hcoherent : Coherent s)
    (hwalk : walk s path = some inum) (hfound : inum ≠ -1)
    (hwrite : (s.inodeAt (inumIndex inum)).canWrite = true)
    (hsize : (s.inodeAt (inumIndex inum)).iFileSize = 0)
    (hrun : altfsTruncate path 0 s = some (res, t)) : SameButCache s t := by
  obtain ⟨inum', u, hname, hrest⟩ := bind_eq_some_iff.mp hrun
  have hsame := nameI_sameButCache hname
  obtain ⟨hwalk', -⟩ := nameI_walk hcoherent hname
  obtain rfl : inum = inum' := by simpa [hwalk] using hwalk'
  rw [if_neg hfound] at hrest
  obtain ⟨node, v, hread, hrest⟩ := bind_eq_some_iff.mp hrest
  obtain ⟨-, rfl, rfl⟩ := (hsame.sound h).validInum_of_getInode hread
  rw [hsame.inodeAt, hwrite, hsize, if_neg (by decide), if_neg (by decide),
    if_pos ⟨rfl, rfl⟩] at hrest
  cases hrest
  exact hsame

/-- A file is truncated to nothing. -/
theorem altfsTruncate_zero_run {k : Nat} (h : Sound s free) (hne : free ≠ 0)
    (hready : Ready s (path.length + k)) (hwalk : walk s path = some inum) (hvalid : ValidInum inum)
    (hwrite : (s.inodeAt (inumIndex inum)).canWrite = true)
    (hsize : 0 ≤ (s.inodeAt (inumIndex inum)).iFileSize.toInt) :
    ∃ u, altfsTruncate path 0 s = some (0, u) := by
  have hn := hvalid.index_lt
  have hfound : inum ≠ -1 := by
    rintro rfl
    exact absurd hvalid.1 (by decide)
  obtain ⟨s₁, hname, hsame, -⟩ := nameI_run hready hwalk
  have h₁ := hsame.sound h
  rw [← hsame.inodeAt] at hwrite hsize
  have hread := getInode_run h₁.stored.toTableFormat hvalid
  have hgrows : ¬(0 : Int64).toInt > (s₁.inodeAt (inumIndex inum)).iFileSize.toInt := by
    rw [Int64.toInt_zero]
    omega
  have htruncate : altfsTruncate path 0 s =
      if (0 : Int64) = 0 ∧ (s₁.inodeAt (inumIndex inum)).iFileSize = 0 then some (0, s₁)
      else shrinkTo inum (s₁.inodeAt (inumIndex inum)) 0 s₁ := by
    rw [altfsTruncate, bind_of_eq hname, if_neg hfound, bind_of_eq hread, hwrite,
      if_neg (by decide), if_neg (by decide)]
    split
    · rfl
    · rfl
  rw [htruncate]
  split
  · exact ⟨s₁, rfl⟩
  obtain ⟨n, hwell⟩ := h₁.wellMapped hn
  have hcut : ∃ node u, cutBlocks (s₁.inodeAt (inumIndex inum)) (-1) s₁ = some (node, u) := by
    by_cases hzero : n = 0
    · refine ⟨s₁.inodeAt (inumIndex inum), s₁, ?_⟩
      rw [cutBlocks, hwell.blocksNum, hzero, if_neg (by decide)]
      rfl
    · have howned := h₁.owned
      rw [tableBlocks_split s₁ hn] at howned
      obtain ⟨u, free', hremove, -⟩ :=
        @removeFromDirect_keeps _ _ _ _ _ _ 0 hwell howned hne (Nat.zero_le _)
          (Nat.pos_of_ne_zero hzero)
      refine ⟨(s₁.inodeAt (inumIndex inum)).cut 0, u, ?_⟩
      rw [← removeDatablocksFromInode_direct hwell (Nat.pos_of_ne_zero hzero) (Nat.zero_le _)]
        at hremove
      rw [cutBlocks, hwell.blocksNum, if_pos (by omega)]
      exact bind_of_eq hremove
  obtain ⟨node, u, hcut⟩ := hcut
  have hpath := (primitives_persists hvalid.inRange_zero).writes.cutBlocks_within _ _ _ _ _ hcut h₁.stored
  have hstore := @writeInode_run _ _ _ { node with iFileSize := 0 }
    (h₁.stored.path hpath).toTableFormat hvalid
  refine ⟨u.setInode (inumIndex inum) { node with iFileSize := 0 }, ?_⟩
  rw [shrinkTo, if_pos rfl, bind_of_eq hcut, if_pos rfl]
  exact bind_of_eq hstore

theorem altfsOpen_truncate_run {k : Nat} (h : Sound s free) (hne : free ≠ 0)
    (hready : Ready s (path.length + (path.length + k))) (hwalk : walk s path = some inum)
    (hvalid : ValidInum inum) (hwrite : (s.inodeAt (inumIndex inum)).canWrite = true)
    (hmay : mayOpen oflag (s.inodeAt (inumIndex inum)) = true) (htrunc : hasFlag oflag oTrunc = true)
    (hsize : 0 ≤ (s.inodeAt (inumIndex inum)).iFileSize.toInt) :
    ∃ t, altfsOpen path oflag s = some (inum.toInt, t) := by
  have hfound : inum ≠ -1 := by
    rintro rfl
    exact absurd hvalid.1 (by decide)
  obtain ⟨s₁, hname, hsame, hready₁⟩ := nameI_run hready hwalk
  have h₁ := hsame.sound h
  rw [← hsame.inodeAt] at hwrite hmay hsize
  rw [← hsame.walk_eq] at hwalk
  obtain ⟨u, htruncate⟩ := altfsTruncate_zero_run h₁ hne hready₁ hwalk hvalid hwrite hsize
  have hpath := (primitives_persists hvalid.inRange_zero).operations.altfsTruncate_within trivial 0 _ _ _
    htruncate h₁.stored
  have htick : Stored { u with clock := u.clock + 1 } :=
    (h₁.stored.path hpath).step (.memory u.cache (u.clock + 1))
  rw [altfsOpen, bind_of_eq hname, if_neg hfound, openInum,
    bind_of_eq (getInode_run h₁.stored.toTableFormat hvalid), hmay, if_neg (by decide), htrunc, hwrite,
    if_pos (by rfl), bind_of_eq htruncate, if_neg (by decide), if_pos (by rfl)]
  exact ⟨_, bind_of_eq (writeInode_run htick.toTableFormat hvalid)⟩

/--
After a successful `altfs_open` with `O_TRUNC` on an existing file, the file is
empty exactly when it was empty before.
-/
theorem altfsOpen_truncate_empties {s₁ s' : FileSystem} {r : Int} (hsound : Sound s free)
    (hcoherent : Coherent s) (hname : nameI path s = some (inum, s₁)) (hfound : inum ≠ -1)
    (hwrite : (s.inodeAt (inumIndex inum)).canWrite = true) (htrunc : hasFlag oflag oTrunc = true)
    (hrun : altfsOpen path oflag s = some (r, s')) (hr : 0 ≤ r) :
    Emptied s s' (inumIndex inum) ↔
      (s.inodeAt (inumIndex inum)).iFileSize = 0 ∧ (s.inodeAt (inumIndex inum)).EmptyMap := by
  have hsame := nameI_sameButCache hname
  have hsound₁ := hsame.sound hsound
  obtain ⟨hwalk, hcoherent₁⟩ := nameI_walk hcoherent hname
  rw [altfsOpen, bind_of_eq hname, if_neg hfound] at hrun
  rw [← hsame.inodeAt] at hwrite ⊢
  obtain ⟨res, u, currTime, hvalid, htruncate, hstored, rfl⟩ :=
    openInum_stale hsound₁ hwrite htrunc hrun hr
  have hlt := hvalid.index_lt
  constructor
  · rintro ⟨hsize, hmap, -, -⟩
    rw [inodeAt_setInode_self] at hsize hmap
    exact ⟨hsize, hmap.blocksNum, hmap.direct, hmap.root⟩
  · rintro ⟨hsize, hmap⟩
    have hblocks : (s.inodeAt (inumIndex inum)).blocks s = 0 := by
      rw [← hsame.inodeAt]
      exact hmap.blocks_eq_zero s
    refine ⟨?_, ?_, ?_, ?_⟩
    · rw [inodeAt_setInode_self]
      exact hsize
    · rw [inodeAt_setInode_self]
      exact ⟨hmap.blocksNum, hmap.direct, hmap.root⟩
    · have hwalk₁ : walk s₁ path = some inum := (hsame.walk_eq path).trans hwalk
      have hkept := altfsTruncate_empty hsound₁ hcoherent₁ hwalk₁ hfound hwrite hsize htruncate
      have hlist := (hkept.sound hsound₁).owned.freeList
      refine ⟨free, hlist.frame rfl fun b hb => ?_, fun b hb => ?_⟩
      · exact disk_setInode_of_dataBlock (s := { u with clock := u.clock + 1 }) hlt
          (hlist.data b hb)
      · rw [hblocks] at hb
        exact absurd hb (Multiset.notMem_zero b)
    · intro m _ _ b hb
      rw [hblocks] at hb
      exact absurd hb (Multiset.notMem_zero b)

end

omit [Config] in
/-- An empty file is opened with `O_TRUNC`. -/
theorem altfsOpen_truncate_empties_f :
    letI := Config.ofBlocks 67 (by decide)
    ∃ s t, EmptyFile s [slash, letterF] 3 ∧
      altfsOpen [slash, letterF] (oWronly ||| oTrunc) s = some (3, t) ∧ Emptied s t 3 := by
  let _ := Config.ofBlocks 67 (by decide)
  obtain ⟨s, free, entries, hroot, hempty, -, hcard⟩ := exists_emptyFile (by decide) (by decide)
  have hdata : numOfDataBlocks = 65 := by decide
  have hne : free ≠ 0 := Multiset.card_pos.mp (by omega)
  have hready : Ready s (([slash, letterF] : CString).length +
      (([slash, letterF] : CString).length + 996)) := hroot.ready
  have hsize := hempty.iFileSize
  have hflags : hasFlag (oWronly ||| oTrunc) oRdwr = false := by decide
  have hmay : mayOpen (oWronly ||| oTrunc) (s.inodeAt (inumIndex 3)) = true := by
    rw [mayOpen, hflags, hempty.canWrite, Bool.false_and]
    decide
  obtain ⟨s₁, hname, -⟩ := nameI_run hready hempty.walk
  obtain ⟨t, hrun⟩ := altfsOpen_truncate_run hroot.wellFormed.toSound hne hready hempty.walk
    hempty.valid hempty.canWrite hmay (by decide) (by rw [hsize]; decide)
  exact ⟨s, t, hempty, hrun, (altfsOpen_truncate_empties hroot.wellFormed.toSound
    hroot.ready.coherent hname (by decide) hempty.canWrite (by decide) hrun (by decide)).mpr
      ⟨hsize, hempty.emptyMap⟩⟩

omit [Config] in
/-- A file of one byte still has its byte after it has been opened with `O_TRUNC`. -/
theorem altfsOpen_truncate_stale_f :
    letI := Config.ofBlocks 67 (by decide)
    ∃ s free t, WellFormed s free ∧ Coherent s ∧ walk s [slash, letterF] = some 3 ∧
      (s.inodeAt 3).iFileSize = 1 ∧
      altfsOpen [slash, letterF] (oWronly ||| oTrunc) s = some (3, t) ∧ ¬Emptied s t 3 := by
  let _ := Config.ofBlocks 67 (by decide)
  obtain ⟨s₀, free₀, entries, hroot₀, hempty, -, hcard₀⟩ :=
    exists_emptyFile (by decide) (by decide)
  have hdata : numOfDataBlocks = 65 := by decide
  obtain ⟨free, s, -, hroot, hcard, hwalk, hmode, hsize⟩ := RootHolds.writeByte (k := 998) hroot₀
    hempty (by decide) (by decide) (Multiset.card_pos.mp (by omega))
  have hne : free ≠ 0 := Multiset.card_pos.mp (by omega)
  have hready : Ready s (([slash, letterF] : CString).length +
      (([slash, letterF] : CString).length + 994)) := hroot.ready
  have hsize : (s.inodeAt (inumIndex 3)).iFileSize = 1 := Int64.toInt_inj.mp hsize
  have hwrite : (s.inodeAt (inumIndex 3)).canWrite = true := by
    rw [Inode.canWrite, hmode]
    exact hempty.canWrite
  have hflags : hasFlag (oWronly ||| oTrunc) oRdwr = false := by decide
  have hmay : mayOpen (oWronly ||| oTrunc) (s.inodeAt (inumIndex 3)) = true := by
    rw [mayOpen, hflags, hwrite, Bool.false_and]
    decide
  obtain ⟨t, hrun⟩ := altfsOpen_truncate_run hroot.wellFormed.toSound hne hready hwalk
    hempty.valid hwrite hmay (by decide) (by rw [hsize]; decide)
  refine ⟨s, free, t, hroot.wellFormed, hroot.ready.coherent, hwalk, hsize, hrun,
    fun hemptied => ?_⟩
  obtain ⟨s₁, hname, hsame, -⟩ := nameI_run hready hwalk
  rw [altfsOpen, bind_of_eq hname, if_neg (by decide)] at hrun
  rw [← hsame.inodeAt] at hwrite
  obtain ⟨res, u, currTime, -, -, -, rfl⟩ :=
    openInum_stale (hsame.sound hroot.wellFormed.toSound) hwrite (by decide) hrun (by decide)
  have hafter := hemptied.size
  rw [show (3 : Nat) = inumIndex 3 from rfl, inodeAt_setInode_self] at hafter
  change (s₁.inodeAt (inumIndex 3)).iFileSize = 0 at hafter
  rw [hsame.inodeAt, hsize] at hafter
  exact absurd hafter (by decide)

end AltFs
