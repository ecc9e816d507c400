import AltFs.FreshFileSystem
import AltFs.InterfaceLayer
import AltFs.Lib.Runs

/-!
# Runs of the inode allocator

In every run of `allocate_inode`, `free_inode` and `write_inode` from a fresh
file system `s_first_ino` is the least free inode number from 3 on, and this
is the one that `allocate_inode` returns.
-/

namespace AltFs

inductive InodeCall where
  | allocate
  | free (inum : Int64)
  | write (inum : Int64) (node : Inode)

section

variable [Config]

/-- The inodes below 3 are not freed, and writing an inode keeps `i_allocated`. -/
def InodeCall.Allowed (s : FileSystem) : InodeCall → Prop
  | allocate => True
  | free inum => 3 ≤ inum.toInt
  | write inum node =>
      ValidInum inum → node.iAllocated = (s.inodeAt (inumIndex inum)).iAllocated

inductive InodeStep : FileSystem → InodeCall → FileSystem → Prop
  | allocate {s s' : FileSystem} {inum : Int64} (h : allocateInode s = some (inum, s')) :
      InodeStep s .allocate s'
  | free {s s' : FileSystem} {inum : Int64} {ok : Bool} (h : freeInode inum s = some (ok, s')) :
      InodeStep s (.free inum) s'
  | write {s s' : FileSystem} {inum : Int64} {node : Inode} {ok : Bool}
      (h : writeInode inum node s = some (ok, s')) : InodeStep s (.write inum node) s'

structure FirstIsLeast (s : FileSystem) : Prop where
  format : TableFormat s
  head : HeadBeyond s
  nonneg : 0 ≤ s.superblock.sFirstIno.toInt
  least : LeastFreeFrom s 3 s.superblock.sFirstIno.toInt.toNat

namespace LeastFreeFrom

variable {s t : FileSystem} {start least n : Nat}

/-- Only the marks of the inodes matter. -/
theorem congr (h : LeastFreeFrom s start least)
    (hmarks : ∀ i < inodeCount, (t.inodeAt i).iAllocated = (s.inodeAt i).iAllocated) :
    LeastFreeFrom t start least where
  start_le := h.start_le
  le_count := h.le_count
  free hlt := by
    rw [hmarks least hlt]
    exact h.free hlt
  allocated i hlow hhigh := by
    have hcount := h.le_count
    rw [hmarks i (by omega)]
    exact h.allocated i hlow hhigh

/-- A lower start, when the inodes in between are allocated. -/
theorem extend {first : Nat} (h : LeastFreeFrom s (first + 1) least) (hstart : start ≤ first)
    (hbelow : ∀ i, start ≤ i → i ≤ first → (s.inodeAt i).iAllocated = true) :
    LeastFreeFrom s start least where
  start_le := by
    have := h.start_le
    omega
  le_count := h.le_count
  free := h.free
  allocated i hlow hhigh := by
    by_cases hi : i ≤ first
    · exact hbelow i hlow hi
    · exact h.allocated i (by omega) hhigh

/-- Freeing inode `n` may lower the least free inode to `n`. -/
theorem freed (h : LeastFreeFrom s start least) (hn : start ≤ n) (hlt : n < inodeCount)
    (hself : (t.inodeAt n).iAllocated = false)
    (hother : ∀ i < inodeCount, i ≠ n → (t.inodeAt i).iAllocated = (s.inodeAt i).iAllocated) :
    LeastFreeFrom t start (min n least) where
  start_le := Nat.le_min.mpr ⟨hn, h.start_le⟩
  le_count := (Nat.min_le_left _ _).trans hlt.le
  free _ := by
    rcases Nat.le_total n least with hle | hle
    · rwa [Nat.min_eq_left hle]
    · rw [Nat.min_eq_right hle]
      by_cases hne : least = n
      · rwa [hne]
      · rw [hother least (by omega) hne]
        exact h.free (by omega)
  allocated i hlow hhigh := by
    have := h.le_count
    rw [hother i (by omega) (by omega)]
    exact h.allocated i hlow (by omega)

end LeastFreeFrom

section Steps

variable {s s' t : FileSystem} {inum : Int64} {ok : Bool} {node : Inode}

theorem toInt_sFirstIno_withFirstIno {n : Nat} (h : n ≤ inodeCount) :
    (s.withFirstIno (Int64.ofInt n)).superblock.sFirstIno.toInt = n :=
  toInt_ofInt_inodeIndex h

private theorem FirstIsLeast.withFirstIno {n : Nat} (hformat : TableFormat s)
    (hhead : HeadBeyond s) (h : LeastFreeFrom s 3 n) :
    FirstIsLeast (s.withFirstIno (Int64.ofInt n)) := by
  have hvalue := @toInt_sFirstIno_withFirstIno _ s n h.le_count
  refine ⟨⟨hformat.sInodesCount, hformat.sNumOfInodesPerBlock⟩, hhead, ?_, ?_⟩
  · rw [hvalue]
    exact Int.natCast_nonneg n
  · rw [hvalue, Int.toNat_natCast]
    exact h.congr fun i hi => by rw [inodeAt_withFirstIno _ hi]

/-- One call of `allocate_inode`. -/
structure AllocatedLeast (s : FileSystem) (inum : Int64) (s' : FileSystem) : Prop where
  value : inum.toInt = s.superblock.sFirstIno.toInt
  lt_count : inumIndex inum < inodeCount
  wasFree : (s.inodeAt (inumIndex inum)).iAllocated = false
  marked : s'.inodeAt (inumIndex inum) = (s.inodeAt (inumIndex inum)).marked
  other : ∀ n < inodeCount, n ≠ inumIndex inum → s'.inodeAt n = s.inodeAt n

/-- Only the superblock and the marks of the inodes matter. -/
theorem FirstIsLeast.congr (h : FirstIsLeast s) (hformat : TableFormat t) (hhead : HeadBeyond t)
    (hfirst : t.superblock.sFirstIno = s.superblock.sFirstIno)
    (hmarks : ∀ i < inodeCount, (t.inodeAt i).iAllocated = (s.inodeAt i).iAllocated) :
    FirstIsLeast t where
  format := hformat
  head := hhead
  nonneg := by
    rw [hfirst]
    exact h.nonneg
  least := by
    rw [hfirst]
    exact h.least.congr hmarks

theorem FirstIsLeast.allocate (h : FirstIsLeast s) :
    s.superblock.sFirstIno.toInt = inodeCount ∧ allocateInode s = some (-1, s) ∨
    ∃ inum s', allocateInode s = some (inum, s') ∧ AllocatedLeast s inum s' ∧ FirstIsLeast s' ∧
      SameData s s' ∧ s'.cache = s.cache := by
  have hfirst := Int.toNat_of_nonneg h.nonneg
  have hle := h.least.le_count
  rcases hle.lt_or_eq with hlt | heq
  · refine .inr ?_
    have hfree := h.least.free hlt
    obtain ⟨least, hleast, hrun⟩ := allocateInode_spec h.format hfirst.symm hlt hfree
    refine ⟨_, _, hrun, ?_, ?_, ?_, rfl⟩
    · refine ⟨rfl, hlt, hfree, ?_, fun n hn hne => ?_⟩
      · rw [inumIndex, inodeAt_withFirstIno _ hlt]
        exact inodeAt_setInode_self
      · rw [inodeAt_withFirstIno _ hn, inodeAt_setInode_ne hlt hn hne]
    · refine FirstIsLeast.withFirstIno (h.format.setInode _ _) h.head ?_
      refine hleast.extend h.least.start_le fun i hlow hhigh => ?_
      by_cases hi : i = s.superblock.sFirstIno.toInt.toNat
      · rw [hi, inodeAt_setInode_self]
        rfl
      · rw [inodeAt_setInode_ne hlt (by omega) hi]
        exact h.least.allocated i hlow (by omega)
    · exact (SameData.setInode _ hlt).trans (.withFirstIno _)
  · refine .inl ⟨by omega, allocateInode_full ?_⟩
    have hcount := h.format.sInodesCount
    exact Int64.toInt_inj.mp (by omega)

theorem FirstIsLeast.free (h : FirstIsLeast s) (hinum : 3 ≤ inum.toInt)
    (hrun : freeInode inum s = some (ok, s')) : FirstIsLeast s' := by
  by_cases hvalid : ValidInum inum
  · obtain ⟨t, hhead, hkept, rfl⟩ := freeInode_cases h.format hvalid h.head hrun
    have hlt := hvalid.index_lt
    have hindex := hvalid.index_eq
    have hleast : LeastFreeFrom t 3 t.superblock.sFirstIno.toInt.toNat := by
      rw [hkept.sFirstIno]
      exact h.least.congr fun i hi => by rw [hkept.inodeAt hi]
    have hnonneg := h.nonneg
    rw [← hkept.sFirstIno] at hnonneg
    cases ok with
    | false => exact ⟨hkept.format h.format, hhead, hnonneg, hleast⟩
    | true =>
        have hmin : min (inumIndex inum : Int) t.superblock.sFirstIno.toInt =
            ((min (inumIndex inum) t.superblock.sFirstIno.toInt.toNat : Nat) : Int) := by omega
        rw [if_pos rfl, FileSystem.withInodeFreed, hmin]
        refine .withFirstIno ((hkept.format h.format).setInode _ _) hhead ?_
        refine hleast.freed (by omega) hlt ?_ fun i hi hne => ?_
        · rw [inodeAt_setInode_self]
          rfl
        · rw [inodeAt_setInode_ne hlt hi hne]
  · rw [freeInode_invalid h.format hvalid] at hrun
    cases hrun
    exact h

private theorem FirstIsLeast.write (h : FirstIsLeast s)
    (hkeep : ValidInum inum → node.iAllocated = (s.inodeAt (inumIndex inum)).iAllocated)
    (hrun : writeInode inum node s = some (ok, s')) : FirstIsLeast s' := by
  by_cases hvalid : ValidInum inum
  · rw [writeInode_run h.format hvalid] at hrun
    cases hrun
    refine ⟨h.format.setInode _ _, h.head, h.nonneg, h.least.congr fun i hi => ?_⟩
    by_cases hne : i = inumIndex inum
    · rw [hne, inodeAt_setInode_self]
      exact hkeep hvalid
    · rw [inodeAt_setInode_ne hvalid.index_lt hi hne]
  · rw [writeInode_invalid h.format hvalid] at hrun
    cases hrun
    exact h

theorem FirstIsLeast.step {call : InodeCall} (h : FirstIsLeast s) (hallowed : call.Allowed s)
    (hstep : InodeStep s call s') : FirstIsLeast s' := by
  cases hstep with
  | allocate hrun =>
      rcases h.allocate with ⟨-, hfull⟩ | ⟨inum, t, hrun', -, hnext, -⟩
      · rw [hfull] at hrun
        cases hrun
        exact h
      · rw [hrun'] at hrun
        cases hrun
        exact hnext
  | free hrun => exact h.free hallowed hrun
  | write hrun => exact h.write hallowed hrun

theorem Owned.headBeyond {free held : Multiset Int64} (h : Owned s free held) : HeadBeyond s := by
  by_cases hzero : s.superblock.sFreelistHead = 0
  · exact .inl hzero
  · exact .inr (h.freeList.data _ (h.freeList.head_mem hzero)).1

theorem FreshRoot.firstIsLeast {free : Multiset Int64} {root : Inode} (h : FreshRoot s free root) :
    FirstIsLeast s := by
  have hcount := inodeCount_gt h.hasInodes
  have hfirst : s.superblock.sFirstIno.toInt = 3 := by
    rw [h.sFirstIno]
    rfl
  refine ⟨h.format, h.owned.headBeyond, by omega, ?_⟩
  rw [hfirst]
  refine ⟨le_rfl, ?_, fun _ => ?_, fun i hlow hhigh => ?_⟩
  · change 3 ≤ inodeCount
    omega
  · change (s.inodeAt 3).iAllocated = false
    rw [h.others 3 (by omega) (by decide)]
    rfl
  · have : i < 3 := hhigh
    omega

end Steps

/--
In every run `s_first_ino` is the least free inode number from 3 on, or the
number of inodes; `allocate_inode` returns it, and -1 only when it finds none.
-/
theorem allocateInode_returns_least {s₀ s₁ s₂ s : FileSystem}
    (hmake : altfsMakefs s₀ = some (true, s₁)) (hinit : altfsInit s₁ = some (true, s₂))
    (hrun : Run InodeStep InodeCall.Allowed s₂ s) :
    s.superblock.sInodesCount.toInt = inodeCount ∧
      (∃ first : Nat, s.superblock.sFirstIno.toInt = first ∧ LeastFreeFrom s 3 first) ∧
      ∃ inum s', allocateInode s = some (inum, s') ∧
        (inum = -1 ↔ ∀ n, 3 ≤ n → n < inodeCount → (s.inodeAt n).iAllocated = true) ∧
        (inum = -1 → s' = s) ∧
        (inum ≠ -1 → 3 ≤ inum.toInt ∧ AllocatedLeast s inum s') := by
  obtain ⟨free, root, hfresh⟩ := freshRoot_of_makefs hmake hinit
  have h : FirstIsLeast s := hrun.invariant hfresh.firstIsLeast
    fun t call u hleast hallowed hstep => hleast.step hallowed hstep
  have hfirst := Int.toNat_of_nonneg h.nonneg
  refine ⟨h.format.sInodesCount, ⟨_, hfirst.symm, h.least⟩, ?_⟩
  rcases h.allocate with ⟨hfull, hrun'⟩ | ⟨inum, s', hrun', hleast, -, -⟩
  · refine ⟨-1, s, hrun', ⟨fun _ n hlow hhigh => ?_, fun _ => rfl⟩, fun _ => rfl,
      fun hne => absurd rfl hne⟩
    exact h.least.allocated n hlow (by omega)
  · have hlow := h.least.start_le
    have hvalue := hleast.value
    have hne : inum ≠ -1 := by
      rintro rfl
      have hminus : (-1 : Int64).toInt = -1 := rfl
      omega
    refine ⟨inum, s', hrun', ⟨fun heq => absurd heq hne, fun hall => ?_⟩,
      fun heq => absurd heq hne, fun _ => ⟨by omega, hleast⟩⟩
    have hmarked := hall (inumIndex inum) (by rw [inumIndex]; omega) hleast.lt_count
    rw [hleast.wasFree] at hmarked
    cases hmarked

end

/-- After one allocation on a device of 519 blocks. -/
theorem allocateInode_returns_least_519 :
    letI := Config.ofBlocks 519 (by decide)
    ∃ s : FileSystem, s.superblock.sInodesCount.toInt = inodeCount ∧
      ∃ inum s', allocateInode s = some (inum, s') ∧
        (inum ≠ -1 → 3 ≤ inum.toInt ∧ AllocatedLeast s inum s') := by
  let _ := Config.ofBlocks 519 (by decide)
  obtain ⟨s₁, s₂, hmake, hinit⟩ := makefs_setup_run FileSystem.blank (by decide) (by decide)
  obtain ⟨-, -, inum, s, hrun, -⟩ := allocateInode_returns_least hmake hinit .refl
  obtain ⟨hcount, -, inum', s', hrun', -, -, hleast⟩ :=
    allocateInode_returns_least hmake hinit (.single .allocate trivial (.allocate hrun))
  exact ⟨s, hcount, inum', s', hrun', hleast⟩

end AltFs
