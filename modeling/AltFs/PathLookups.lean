import AltFs.Lib.Runs
import AltFs.Namespace

/-!
# Paths that keep their meaning

What is found in a directory depends on its inode and its blocks only.
`Resolves P s`: however often paths of `P` are looked up from `s` on, each
leads where the directories say.
-/

namespace AltFs

open Prog

variable [Config]

section Directory

variable {s t : FileSystem} {free free' : Multiset Int64} {node : Inode} {name : CString} {n : Nat}

/-- The search of the blocks of a directory, in two states that agree on them. -/
private theorem findInBlocks_kept (hdata : ∀ b ∈ node.blocks s, DataBlock b)
    (hmapped : node.Mapped s) (hsame : ∀ b ∈ node.blocks s, t.disk b = s.disk b) {count i : Nat}
    {prev prev' : Int64} (hcount : (i + count : Nat) ≤ node.iBlocksNum.toInt)
    (hprev : PrevValid s node i prev) (hprev' : PrevValid t node i prev') :
    (findInBlocks name node count i prev' t).map Prod.fst =
      (findInBlocks name node count i prev s).map Prod.fst := by
  have hkept : node.Kept s t := fun a ha =>
    hsame a (Multiset.mem_of_le (indirect_le_blocks s node) ha)
  have hdata' := hdata
  rw [← hkept.blocks] at hdata'
  induction count generalizing i prev prev' with
  | zero => rfl
  | succ count ih =>
      have hi : (i : Int) < node.iBlocksNum.toInt := by omega
      have hmem := blockAt_mem_blocks (hmapped.blockAt_ne_zero i hi)
      have hpos := (hdata _ hmem).pos
      have hvalid : ¬(node.blockAt s i).toInt ≤ 0 := by omega
      obtain ⟨next, hlookup, hnext⟩ := getDiskBlockFromInodeBlock_run hdata hmapped hi hprev
      obtain ⟨next', hlookup', hnext'⟩ :=
        getDiskBlockFromInodeBlock_run hdata' (hkept.mapped hmapped) hi hprev'
      have hread := readDataBlockArray_run (s := s) (hdata _ hmem)
      have hread' := readDataBlockArray_run (s := t) (hdata _ hmem)
      rw [hkept.blockAt] at hlookup'
      rw [hsame _ hmem] at hread'
      have hrest := ih (by omega) hnext hnext'
      simp only [findInBlocks, bind_of_eq hlookup, bind_of_eq hlookup', if_neg hvalid,
        bind_of_eq hread, bind_of_eq hread']
      cases findRecord (s.disk (node.blockAt s i)) name blockSize 0 with
      | none => rfl
      | some found =>
          cases found with
          | none => exact hrest
          | some offset => rfl

/-- What is found in a directory whose inode and blocks are as before. -/
theorem lookupIn_kept {inum : Int64} (hformat : TableFormat s) (hformat' : TableFormat t)
    (hinum : ValidInum inum) (hat : t.inodeAt (inumIndex inum) = s.inodeAt (inumIndex inum))
    (hdata : ∀ b ∈ (s.inodeAt (inumIndex inum)).blocks s, DataBlock b)
    (hmapped : (s.inodeAt (inumIndex inum)).Mapped s)
    (hsame : ∀ b ∈ (s.inodeAt (inumIndex inum)).blocks s, t.disk b = s.disk b) (name : CString) :
    lookupIn t inum name = lookupIn s inum name := by
  have hsearch : (getFilePositionInDir name (s.inodeAt (inumIndex inum)) t).map Prod.fst =
      (getFilePositionInDir name (s.inodeAt (inumIndex inum)) s).map Prod.fst := by
    rw [getFilePositionInDir]
    split
    · rfl
    split
    · rfl
    have hcount := hmapped.nonneg
    exact findInBlocks_kept hdata hmapped hsame (by omega) (prevValid_zero s _ 0)
      (prevValid_zero t _ 0)
  rw [lookupIn, lookupIn, nameInDir, bind_of_eq (getInode_run hformat hinum),
    bind_of_eq (getInode_run hformat' hinum), hat, bind_apply, bind_apply]
  revert hsearch
  cases getFilePositionInDir name (s.inodeAt (inumIndex inum)) s with
  | none =>
      cases getFilePositionInDir name (s.inodeAt (inumIndex inum)) t with
      | none => exact fun _ => rfl
      | some r =>
          intro hsearch
          cases hsearch
  | some r =>
      cases getFilePositionInDir name (s.inodeAt (inumIndex inum)) t with
      | none =>
          intro hsearch
          cases hsearch
      | some r' =>
          intro hsearch
          obtain ⟨found, u⟩ := r
          obtain ⟨found', u'⟩ := r'
          obtain rfl : found' = found := Option.some.inj hsearch
          cases found' with
          | none => rfl
          | some filePos => rfl

/-- Work on a file that is no directory does not change what is found in any directory. -/
theorem OthersKept.lookupIn_eq (h : OthersKept n s t) (hs : Sound s free) (ht : Sound t free')
    (hdir : (s.inodeAt n).isDir = false) (hdir' : (t.inodeAt n).isDir = false) (inum : Int64)
    (name : CString) : lookupIn t inum name = lookupIn s inum name := by
  have hformat := hs.stored.toTableFormat
  have hformat' := ht.stored.toTableFormat
  by_cases hinum : ValidInum inum
  · have hn := hinum.index_lt
    by_cases hself : inumIndex inum = n
    · rw [← hself] at hdir hdir'
      rw [lookupIn_notDir hformat hinum hdir, lookupIn_notDir hformat' hinum hdir']
    · obtain ⟨count, hwell⟩ := hs.wellMapped hn
      refine lookupIn_kept hformat hformat' hinum (h.inodeAt _ hn hself) hwell.data hwell.mapped
        (fun b hb => h.disk b ?_) name
      exact Multiset.mem_of_le (blocks_le_otherBlocks hn hself) hb
  · rw [lookupIn_invalid hformat hinum, lookupIn_invalid hformat' hinum]

end Directory

/-! ## Lookups, any number of them -/

/-- `name_i` finds an inode number for the path. -/
def LookupStep (s : FileSystem) (path : CString) (t : FileSystem) : Prop :=
  ∃ inum, nameI path s = some (inum, t)

/-- Wherever lookups of paths of `P` lead, `name_i` returns for each what the walk finds. -/
def Resolves (P : CString → Prop) (s : FileSystem) : Prop :=
  ∀ t, Run LookupStep (fun _ path => P path) s t →
    ∀ path, P path → ∃ inum u, walk t path = some inum ∧ nameI path t = some (inum, u)

section Lookups

variable {P : CString → Prop} {s t : FileSystem} {path : CString} {inum : Int64}

theorem Resolves.nameI_run (h : Resolves P s) (hpath : P path) (hwalk : walk s path = some inum) :
    ∃ t, nameI path s = some (inum, t) ∧ SameButCache s t ∧ Resolves P t := by
  obtain ⟨found, t, hfound, hrun⟩ := h s .refl path hpath
  rw [hwalk] at hfound
  cases hfound
  refine ⟨t, hrun, nameI_sameButCache hrun, fun u hruns => ?_⟩
  exact h u ((Run.single path hpath ⟨inum, hrun⟩).trans hruns)

theorem Alike.symm (h : Alike s t) : Alike t s :=
  ⟨fun parentInum name => (h.lookup parentInum name).symm, h.cache.symm⟩

/-- Lookups in one of two states that are alike can be made in the other as well. -/
theorem Alike.run (h : Alike s t) {u : FileSystem}
    (hrun : Run LookupStep (fun _ path => P path) t u) :
    ∃ v, Run LookupStep (fun _ path => P path) s v ∧ Alike v u := by
  induction hrun with
  | refl => exact ⟨s, .refl, h⟩
  | tail path _ hpath hstep ih =>
      obtain ⟨v, hv, halike⟩ := ih
      obtain ⟨inum, hname⟩ := hstep
      obtain ⟨v', hname', halike'⟩ := halike.symm.nameI hname
      exact ⟨v', hv.tail path hpath ⟨inum, hname'⟩, halike'.symm⟩

theorem Alike.resolves (h : Alike s t) (hs : Resolves P s) : Resolves P t := by
  intro u hu path hpath
  obtain ⟨v, hv, halike⟩ := h.run hu
  obtain ⟨inum, v', hwalk, hname⟩ := hs v hv path hpath
  obtain ⟨u', hname', -⟩ := halike.nameI hname
  exact ⟨inum, u', (walk_congr halike.lookup path).trans hwalk, hname'⟩

end Lookups

end AltFs
