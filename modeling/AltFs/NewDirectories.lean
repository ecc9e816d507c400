import AltFs.CreationRuns
import AltFs.TreeCreation

/-!
# New directories

`altfs_mkdir` creates an inode like `altfs_mknod` does, and then gives it one
block with `.` and `..`.
-/

namespace AltFs

open Prog NamedTree

variable [Config]

section Dots

variable {s t : FileSystem} {free free' : Multiset Int64} {inum parentInum : Int64}

/-- The inode has become a directory with `.` and `..`. -/
structure DotsWritten (s : FileSystem) (free : Multiset Int64) (inum parentInum : Int64)
    (t : FileSystem) (free' : Multiset Int64) : Prop where
  wellFormed : WellFormed t free'
  others : OthersKept (inumIndex inum) s t
  dir : DirContents t (t.inodeAt (inumIndex inum)) [dots inum parentInum]
  node : ∃ node : Inode, t.inodeAt (inumIndex inum) =
    { (s.inodeAt (inumIndex inum)).withMap node with
      iFileSize := node.iFileSize, iChildNum := (s.inodeAt (inumIndex inum)).iChildNum + 2 }
  fileSize : (t.inodeAt (inumIndex inum)).iFileSize.toInt = blockSize
  conserved : free' + tableBlocks t = free + tableBlocks s
  cache : t.cache = s.cache

theorem writeDots_run (h : WellFormed s free) (hinum : ValidInum inum)
    (hempty : (s.inodeAt (inumIndex inum)).EmptyMap)
    (hmark : (s.inodeAt (inumIndex inum)).iAllocated = true)
    (hsize : (s.inodeAt (inumIndex inum)).iFileSize = 0) {node : Inode} {u : FileSystem}
    (hrun : addDots (s.inodeAt (inumIndex inum)) inum parentInum s = some ((true, node), u)) :
    ∃ t free', writeInode inum node u = some (true, t) ∧ DotsWritten s free inum parentInum t free' := by
  have hn := hinum.index_lt
  rcases addDots_run h hinum hempty parentInum with
    ⟨-, node', hdots⟩ | ⟨-, node₁, s₁, free', node₂, s₂, hdots, hfirst, hsecond⟩
  · rw [hrun] at hdots
    cases hdots
  rw [hrun] at hdots
  cases hdots
  have hwrites := (primitives_persists hinum.inRange_zero).writes
  have hstored : Stored u := by
    apply h.stored.path
    have hwithin : Within Persists (addDots (s.inodeAt (inumIndex inum)) inum parentInum) := by
      refine .bind (hwrites.addDirectoryEntry_within _ _ _) fun _ => ?_
      exact .ite (.pure _) (hwrites.addDirectoryEntry_within _ _ _)
    exact hwithin _ _ _ hrun h.stored
  -- both records together, on the copy of the inode
  obtain ⟨hfilled₁, hconserved₁⟩ := hfirst.filled rfl (hempty.filled s)
  obtain ⟨hfilled, hconserved⟩ := hsecond.filled rfl hfilled₁
  have hsecondFrame := hsecond.frame
  rw [hconserved₁] at hsecondFrame
  have hframe := hfirst.frame.trans hsecondFrame
  have hedit := (h.edit hn).step hframe hstored hsecond.owned
  have hothers := (h.edit hn).othersKept hframe
  have hchildNum : node.iChildNum = (s.inodeAt (inumIndex inum)).iChildNum + 2 := by
    rw [hsecond.childNum, hfirst.childNum, if_pos rfl, UInt64.add_assoc]
    rfl
  have hchanged : node = { (s.inodeAt (inumIndex inum)).withMap node with
      iFileSize := node.iFileSize, iChildNum := (s.inodeAt (inumIndex inum)).iChildNum + 2 } := by
    calc node = { node₁.withMap node with
          iFileSize := node.iFileSize, iChildNum := node.iChildNum } := hsecond.changed
      _ = { (s.inodeAt (inumIndex inum)).withMap node with
          iFileSize := node.iFileSize, iChildNum := node.iChildNum } := by
        rw [hfirst.changed]
        rfl
      _ = _ := by rw [hchildNum]
  have hfileSize : node.iFileSize.toInt = blockSize := by
    rw [hsecond.fileSize (hfirst.fileSize (by rw [hsize]; rfl))]
    rfl
  have hmarked : node.iAllocated = true := by
    rw [hchanged, ← hmark]
    rfl
  have hwell : WellFormed (u.setInode (inumIndex inum) node) free' := by
    apply h.commit hn hedit hothers hframe.sFirstIno
    · refine ⟨hsecond.dir.mapped, ⟨1, hsecond.dir.blocksNum, hfilled⟩, fun hvacant => ?_⟩
      rw [hmarked] at hvacant
      cases hvacant
    · rw [hmarked, hmark]
    · exact fun _ => ⟨_, hsecond.dir⟩
    · refine ⟨?_, fun _ => ?_⟩
      · rw [hfileSize]
        exact Int.natCast_nonneg _
      · rw [hfileSize, hsecond.dir.blocksNum]
        rfl
  have hsame : SameData u (u.setInode (inumIndex inum) node) := .setInode node hn
  refine ⟨u.setInode (inumIndex inum) node, free', writeInode_run hstored.toTableFormat hinum, hwell,
    hothers.trans (othersKept_setInode hedit.owned le_rfl hn), ?_, ⟨node, ?_⟩, ?_, ?_,
    hframe.cache⟩
  · rw [inodeAt_setInode_self]
    refine hsecond.dir.of_disk_eq fun b hb => hsame.disk b ?_
    exact hedit.owned.data b (Multiset.mem_add.mpr (.inl hb))
  · rw [inodeAt_setInode_self]
    exact hchanged
  · rw [inodeAt_setInode_self]
    exact hfileSize
  · rw [tableBlocks_setInode hedit.owned le_rfl hn, hothers.otherBlocks_eq, ← add_assoc, hconserved,
      hconserved₁, add_assoc, ← tableBlocks_split s hn]

/-- `.` and `..` are no children. -/
theorem DotsWritten.childOf_eq (h : WellFormed s free) (hinum : ValidInum inum)
    (hempty : (s.inodeAt (inumIndex inum)).EmptyMap)
    (hdots : DotsWritten s free inum parentInum t free') :
    childOf t = childOf s := by
  funext i name
  by_cases hi : i = inum
  swap
  · apply childOf_congr
    apply hdots.others.outside.lookupIn_eq h.intact hdots.wellFormed.intact
    intro hvalid hmem
    exact hi (hvalid.eq_of_index hinum (Finset.mem_singleton.mp hmem))
  subst hi
  rw [childOf, childOf]
  split
  next => rfl
  next hname =>
  obtain ⟨hdot, hdotDot⟩ := not_or.mp hname
  have hafter : [dots i parentInum].flatten.lookup name = none := by
    rw [lookup_eq_none_iff]
    intro entry hentry heq
    simp only [dots, List.flatten_cons, List.flatten_nil, List.append_nil, List.mem_cons,
      List.not_mem_nil, or_false] at hentry
    rcases hentry with rfl | rfl
    · exact hdot heq.symm
    · exact hdotDot heq.symm
  rw [hdots.wellFormed.lookupIn_dir hinum hdots.dir, hafter]
  cases hisDir : (s.inodeAt (inumIndex i)).isDir with
  | true =>
      rw [h.lookupIn_dir hinum (.nil hisDir hempty)]
      rfl
  | false =>
      rw [lookupIn_notDir h.stored.toTableFormat hinum hisDir]

end Dots

section Runs

variable {s t : FileSystem} {free : Multiset Int64} {path : CString} {mode : UInt32}

theorem altfsMknod_true (h : WellFormed s free) (hcoherent : Coherent s)
    (hrun : altfsMknod path mode s = some (true, t)) :
    walk s path = some (-1) ∧ ∃ s₁ free' parentInum childInum name contents contents',
      SameButCache s s₁ ∧ Coherent s₁ ∧ Attempted s path parentInum name ∧
      DirContents s (s.inodeAt (inumIndex parentInum)) contents ∧
      Created s₁ free parentInum childInum name mode contents t free' contents' := by
  obtain ⟨inum, s₀, hname, hrest⟩ := bind_eq_some_iff.mp hrun
  have hsame := nameI_sameButCache hname
  obtain ⟨hwalk, hcoherent₀⟩ := nameI_walk hcoherent hname
  split at hrest
  next => cases hrest
  next hmissing =>
  obtain rfl : inum = -1 := not_not.mp hmissing
  obtain ⟨r, u, hcreate, hrest⟩ := bind_eq_some_iff.mp hrest
  cases r with
  | error code => cases hrest
  | ok new =>
      cases hrest
      obtain ⟨s₁, free', parentInum, name, contents, contents', hsame₁, hcoherent₁,
        hattempted, hcontents, hcreated, -⟩ := createNewFile_ok (hsame.wellFormed h) hcoherent₀ hcreate
      have hback := hsame.symm.attempted hattempted
      rw [hsame.inodeAt] at hcontents
      exact ⟨hwalk, s₁, free', parentInum, _, name, contents, contents',
        trans_of SameButCache hsame hsame₁, hcoherent₁, hback, hsame.symm.dirContents hcontents,
        hcreated⟩

theorem altfsMkdir_true (h : WellFormed s free) (hcoherent : Coherent s)
    (hrun : altfsMkdir path mode s = some (true, t)) :
    walk s path = some (-1) ∧ ∃ s₁ u free₁ free' parentInum childInum name contents contents',
      SameButCache s s₁ ∧ Coherent s₁ ∧ Attempted s path parentInum name ∧
      DirContents s (s.inodeAt (inumIndex parentInum)) contents ∧
      Created s₁ free parentInum childInum name (sIfdir ||| mode) contents u free₁ contents' ∧
      DotsWritten u free₁ childInum parentInum t free' := by
  obtain ⟨inum, s₀, hname, hrest⟩ := bind_eq_some_iff.mp hrun
  have hsame := nameI_sameButCache hname
  obtain ⟨hwalk, hcoherent₀⟩ := nameI_walk hcoherent hname
  split at hrest
  next => cases hrest
  next hmissing =>
  obtain rfl : inum = -1 := not_not.mp hmissing
  obtain ⟨r, u, hcreate, hrest⟩ := bind_eq_some_iff.mp hrest
  cases r with
  | error code => cases hrest
  | ok new =>
      obtain ⟨s₁, free₁, parentInum, name, contents, contents', hsame₁, hcoherent₁,
        hattempted, hcontents, hcreated, hnew⟩ := createNewFile_ok (hsame.wellFormed h) hcoherent₀ hcreate
      have hback := hsame.symm.attempted hattempted
      rw [hsame.inodeAt] at hcontents
      obtain ⟨⟨added, dirInode⟩, v, hadd, hrest⟩ := bind_eq_some_iff.mp hrest
      cases added with
      | false => cases hrest
      | true =>
          obtain ⟨currTime, hchild⟩ := hcreated.child
          rw [hnew] at hadd
          obtain ⟨t', free', hwrite, hdots⟩ := @writeDots_run _ _ _ _ _ hcreated.wellFormed hcreated.valid
            hcreated.emptyMap_child (by rw [hchild]; rfl) (by rw [hchild]; rfl) _ _ hadd
          obtain rfl : t' = t := by simpa [hwrite] using hrest
          exact ⟨hwalk, s₁, u, free₁, free', parentInum, _, name, contents, contents',
            trans_of SameButCache hsame hsame₁, hcoherent₁, hback,
            hsame.symm.dirContents hcontents, hcreated, hdots⟩

end Runs

end AltFs
