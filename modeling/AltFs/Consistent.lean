import AltFs.NewDirectories
import AltFs.Renames

/-!
# Consistent states

The state of a file system between two calls: the names form a tree, every
record names an allocated inode, and the cache is right.
-/

namespace AltFs

open Prog NamedTree

variable [Config]

/--
A tree of names in which every record names an allocated inode, every file has
one link, and the cache is right.
-/
structure Consistent (s : FileSystem) (free : Multiset Int64) : Prop extends TreeFormed s free where
  named : ∀ n < inodeCount, ∀ contents, DirContents s (s.inodeAt n) contents →
    ∀ entry ∈ contents.flatten,
      ValidInum entry.2 ∧ (s.inodeAt (inumIndex entry.2)).iAllocated = true
  links : SingleLinks s
  coherent : Coherent s

/-- Whatever a path leads to is allocated. -/
theorem Consistent.walk_allocated {s : FileSystem} {free : Multiset Int64} {path : CString}
    {inum : Int64} (h : Consistent s free) (hwalk : walk s path = some inum) (hinum : inum ≠ -1) :
    ValidInum inum ∧ (s.inodeAt (inumIndex inum)).iAllocated = true := by
  induction hlength : path.length using Nat.strong_induction_on generalizing path inum with
  | _ n ih =>
      by_cases hroot : path = [slash]
      · rw [hroot, walk_root] at hwalk
        cases hwalk
        exact ⟨h.root, h.isAllocated h.root.index_lt h.rootDir⟩
      cases hparent : copyParentPath path with
      | none =>
          rw [walk_noParent hroot hparent] at hwalk
          exact absurd (Option.some.inj hwalk).symm hinum
      | some parentPath =>
          rw [walk_step hroot hparent] at hwalk
          obtain ⟨parentInum, hparentWalk, hwalk⟩ := Option.bind_eq_some_iff.mp hwalk
          split at hwalk
          · exact absurd (Option.some.inj hwalk).symm hinum
          next hfound =>
          have hshorter := length_copyParentPath hparent
          obtain ⟨hvalid, -⟩ := ih parentPath.length (by omega) hparentWalk hfound rfl
          split at hwalk
          · exact absurd (Option.some.inj hwalk).symm hinum
          next name hname =>
          obtain ⟨found, hlookup, hvalue⟩ := Option.map_eq_some_iff.mp hwalk
          cases found with
          | none => exact absurd hvalue.symm hinum
          | some value =>
              obtain rfl : value = inum := hvalue
              cases hisDir : (s.inodeAt (inumIndex parentInum)).isDir with
              | false =>
                  rw [lookupIn_notDir h.stored.toTableFormat hvalid hisDir] at hlookup
                  cases hlookup
              | true =>
                  obtain ⟨contents, hcontents⟩ := h.dirs _ hvalid.index_lt hisDir
                  rw [h.lookupIn_dir hvalid hcontents, Option.some_inj] at hlookup
                  obtain ⟨front, back, heq, -⟩ := List.lookup_eq_some_iff.mp hlookup
                  have hmem : (name, value) ∈ contents.flatten := by
                    rw [heq]
                    exact List.mem_append_right _ List.mem_cons_self
                  exact h.named _ hvalid.index_lt contents hcontents _ hmem

theorem SameButCache.consistent {s t : FileSystem} {free : Multiset Int64}
    (hsame : SameButCache s t) (h : Consistent s free) (hcoherent : Coherent t) :
    Consistent t free where
  toTreeFormed := hsame.treeFormed h.toTreeFormed
  named n hn contents hcontents entry hentry := by
    rw [hsame.inodeAt] at hcontents ⊢
    exact h.named n hn contents (hsame.symm.dirContents hcontents) entry hentry
  links parentInum name inum hchild := by
    rw [hsame.childOf_eq] at hchild
    rw [hsame.inodeAt]
    exact h.links parentInum name inum hchild
  coherent := hcoherent

section Created

variable {s t : FileSystem} {free free' : Multiset Int64} {parentInum childInum : Int64}
  {name : CString} {mode : UInt32} {contents contents' : List (List Entry)}

theorem Created.kept_links
    (hcreated : Created s free parentInum childInum name mode contents t free' contents')
    {inum : Int64} (hinum : ValidInum inum)
    (hallocated : (s.inodeAt (inumIndex inum)).iAllocated = true) :
    (t.inodeAt (inumIndex inum)).iLinksCount = (s.inodeAt (inumIndex inum)).iLinksCount := by
  by_cases hparent : inumIndex inum = inumIndex parentInum
  · obtain ⟨node, hnode⟩ := hcreated.parent
    rw [hparent, hnode]
    rfl
  have hchild : inumIndex inum ≠ inumIndex childInum := by
    intro heq
    rw [heq, hcreated.vacant] at hallocated
    cases hallocated
  rw [(hcreated.other _ hinum.index_lt hparent hchild).1]

/-- A new file keeps the state consistent. -/
theorem Created.consistent (h : Consistent s free)
    (hcreated : Created s free parentInum childInum name mode contents t free' contents')
    (hdir : DirContents s (s.inodeAt (inumIndex parentInum)) contents)
    (hnew : contents.flatten.lookup name = none) (hname : IsComponent name)
    (hfile : (t.inodeAt (inumIndex childInum)).isDir = false) : Consistent t free' := by
  have hparentRecords : DirRecords (s.inodeAt (inumIndex parentInum)) contents.flatten := by
    obtain ⟨records, hrecords, hkept⟩ := h.records _ hcreated.validParent.index_lt hdir.isDir
    obtain rfl := hdir.unique hrecords
    exact hkept
  have hkept : ∀ {inum : Int64}, ValidInum inum ∧ (s.inodeAt (inumIndex inum)).iAllocated = true →
      ValidInum inum ∧ (t.inodeAt (inumIndex inum)).iAllocated = true :=
    fun ⟨hvalid, hmark⟩ => ⟨hvalid, (hcreated.kept_allocated h.toTreeFormed hdir hvalid hmark).1⟩
  refine ⟨hcreated.treeFormed h.toTreeFormed hdir hnew hname hparentRecords hfile, ?_, ?_,
    hcreated.coherent h.toWellFormed hdir h.coherent hnew⟩
  · intro n hn records hrecords entry hentry
    by_cases hparent : n = inumIndex parentInum
    · subst hparent
      obtain rfl := hrecords.unique hcreated.dir
      rcases List.mem_cons.mp (hcreated.entries.mem_iff.mp hentry) with rfl | hold
      · exact ⟨hcreated.valid, hcreated.allocated_child⟩
      · exact hkept (h.named _ hn contents hdir entry hold)
    by_cases hchild : n = inumIndex childInum
    · subst hchild
      rw [hrecords.isDir] at hfile
      cases hfile
    obtain ⟨hat, hdisk⟩ := hcreated.other n hn hparent hchild
    have hisDir := hrecords.isDir
    rw [hat] at hrecords hisDir
    obtain ⟨records', hrecords'⟩ := h.dirs n hn hisDir
    obtain rfl := hrecords.unique (hrecords'.of_disk_eq hdisk)
    exact hkept (h.named n hn records hrecords' entry hentry)
  · intro i other inum hchild
    by_cases hself : i = parentInum ∧ other = name
    · rw [hself.1, hself.2, hcreated.childOf_name hnew hname] at hchild
      cases hchild
      obtain ⟨currTime, hnode⟩ := hcreated.child
      rw [hnode]
      rfl
    · rw [hcreated.childOf_other h.toTreeFormed hdir i other hself] at hchild
      obtain ⟨hvalid, hmark⟩ := h.child hchild
      rw [hcreated.kept_links hvalid hmark]
      exact h.links i other inum hchild

end Created

section Fresh

variable {s : FileSystem} {free : Multiset Int64}

/-- On a fresh device every record is that of the root directory. -/
theorem FreshRoot.consistent {root : Inode} (h : FreshRoot s free root) (hwell : WellFormed s free)
    (hready : Ready s cacheCapacity) : Consistent s free where
  toTreeFormed := h.treeFormed hwell
  named n hn contents hcontents entry hentry := by
    have hroot : n = 2 := by
      by_contra hne
      have hisDir := hcontents.isDir
      rw [h.others n hn hne] at hisDir
      cases hisDir
    subst hroot
    obtain rfl := hcontents.unique h.dirRoot
    have hvalid := validInum_root h.hasInodes
    have hmark : (s.inodeAt (inumIndex rootInodeNum)).iAllocated = true := by
      change (s.inodeAt 2).iAllocated = true
      rw [h.rootAt]
      exact h.iAllocated
    simp only [dots, List.flatten_cons, List.flatten_nil, List.append_nil, List.mem_cons,
      List.not_mem_nil, or_false] at hentry
    rcases hentry with rfl | rfl
    · exact ⟨hvalid, hmark⟩
    · exact ⟨hvalid, hmark⟩
  links parentInum name inum hchild := by
    rw [h.childOf_eq_none hwell] at hchild
    cases hchild
  coherent := hready.coherent

/-- The first file of a fresh device. -/
theorem FreshRoot.consistentFile {root : Inode} (h : FreshRoot s free root)
    (hwell : WellFormed s free) (hready : Ready s cacheCapacity) :
    ∃ t inum entries,
      altfsMknod (pathOf [[letterF]]) (sIfreg ||| defaultPermissions) s = some (true, t) ∧
      Consistent t free ∧ OneFile t free inum entries ∧
      ∀ b, DataBlock b → b ∈ free + tableBlocks t := by
  obtain ⟨s₁, t, inum, entries, hrun, hsame, hcoherent₁, hcreated, hone⟩ :=
    h.oneFile_run hwell hready
  have h₁ := hsame.consistent (h.consistent hwell hready) hcoherent₁
  have hdir := hsame.dirContents h.dirRoot
  rw [← hsame.inodeAt] at hdir
  have hfile : (t.inodeAt (inumIndex inum)).isDir = false := by
    obtain ⟨currTime, hnode⟩ := hone.node
    rw [hnode]
    exact isDir_freshFile currTime
  refine ⟨t, inum, entries, hrun, hcreated.consistent h₁ hdir (by decide) isComponent_f hfile, hone,
    fun b hb => ?_⟩
  rw [hcreated.conserved, (hsame.sameBlocks hwell.toSound).tableBlocks, h.tableBlocks_eq]
  exact h.full b hb

/-- A device with one file, all data blocks but one of which are free. -/
theorem exists_consistentFile (hinodes : 0 < inodeBlockCount)
    (hrest : numOfDataBlocks % numOfAddressesPerBlock ≠ 0) :
    ∃ s free inum entries, Consistent s free ∧ OneFile s free inum entries ∧
      (∀ b, DataBlock b → b ∈ free + tableBlocks s) ∧ (free.card : Int) = numOfDataBlocks - 1 := by
  obtain ⟨s₀, s, hmake, hsetup⟩ := makefs_setup_run FileSystem.blank hinodes hrest
  obtain ⟨free, root, hfresh, hwell, hready⟩ := mounted_of_makefs hmake hsetup
  obtain ⟨t, inum, entries, -, hconsistent, hone, hfull⟩ := hfresh.consistentFile hwell hready
  exact ⟨t, free, inum, entries, hconsistent, hone, hfull, hfresh.card_free⟩

end Fresh

end AltFs
