import AltFs.InodeTable
import AltFs.Lib.Within

/-!
# Allocating and freeing inodes

`allocate_inode` marks the inode `s_first_ino` and searches the rest of the
table for the next free one; `free_inode` clears an inode after it has freed
the blocks that it names, whatever these are.
-/

namespace AltFs

theorem nextFreeInBlock_spec (buffer : Block) (count offset : Nat) (visited : Int) :
    (∃ i < count, (inodeIn buffer (offset + i)).iAllocated = false ∧
      (∀ j < i, (inodeIn buffer (offset + j)).iAllocated = true) ∧
      nextFreeInBlock buffer count offset visited = (visited + i + 1, true)) ∨
    ((∀ i < count, (inodeIn buffer (offset + i)).iAllocated = true) ∧
      nextFreeInBlock buffer count offset visited = (visited + count, false)) := by
  induction count generalizing offset visited with
  | zero => exact .inr ⟨by simp, by simp [nextFreeInBlock]⟩
  | succ count ih =>
      rw [nextFreeInBlock]
      cases hfirst : (inodeIn buffer offset).iAllocated with
      | false =>
          refine .inl ⟨0, by omega, hfirst, by simp, ?_⟩
          simp
      | true =>
          have hstep : ∀ i, offset + 1 + i = offset + (i + 1) := fun i => by omega
          have hpred : ∀ i, (∀ j < i, (inodeIn buffer (offset + 1 + j)).iAllocated = true) →
              ∀ j < i + 1, (inodeIn buffer (offset + j)).iAllocated = true := by
            intro i hbefore j hj
            cases j with
            | zero => exact hfirst
            | succ j =>
                rw [← hstep]
                exact hbefore j (by omega)
          rcases ih (offset + 1) (visited + 1) with ⟨i, hi, hfree, hbefore, hrun⟩ | ⟨hall, hrun⟩
          · refine .inl ⟨i + 1, by omega, by rwa [← hstep], hpred i hbefore, ?_⟩
            simp only [Bool.not_true, Bool.false_eq_true, if_false, hrun, Prod.mk.injEq, and_true]
            omega
          · refine .inr ⟨hpred count hall, ?_⟩
            simp only [Bool.not_true, Bool.false_eq_true, if_false, hrun, Prod.mk.injEq, and_true]
            omega

theorem inodeIn_disk (s : FileSystem) (k : Nat) {offset : Nat} (h : offset < inodesPerBlock) :
    inodeIn (s.disk (Int64.ofInt (1 + k))) offset = s.inodeAt (inodesPerBlock * k + offset) := by
  rw [FileSystem.inodeAt, inodeBlockOf]
  simp only [inodesPerBlock] at *
  have hdiv : (18 * k + offset) / 18 = k := by omega
  have hmod : (18 * k + offset) % 18 = offset := by omega
  rw [hmod]
  congr 4
  omega

private theorem allocated_of_block {s : FileSystem} {k offset count : Nat}
    (h : ∀ j < count, (inodeIn (s.disk (Int64.ofInt (1 + k))) (offset + j)).iAllocated = true)
    (hfit : offset + count ≤ inodesPerBlock) {i : Nat} (hlow : inodesPerBlock * k + offset ≤ i)
    (hhigh : i < inodesPerBlock * k + offset + count) : (s.inodeAt i).iAllocated = true := by
  obtain ⟨j, rfl⟩ := Nat.exists_eq_add_of_le hlow
  have hj := h j (by omega)
  rwa [inodeIn_disk s k (by omega), ← Nat.add_assoc] at hj

variable [Config]

/-- The least free inode from `start` on, or the number of inodes when there is none. -/
structure LeastFreeFrom (s : FileSystem) (start least : Nat) : Prop where
  start_le : start ≤ least
  le_count : least ≤ inodeCount
  free : least < inodeCount → (s.inodeAt least).iAllocated = false
  allocated : ∀ i, start ≤ i → i < least → (s.inodeAt i).iAllocated = true

section Search

variable {s : FileSystem} {inodesLeft blockNum visited visited' : Int} {fuel offset : Nat}
  {buffer : Block}

private theorem searchFreeInode_found (h : TableFormat s) (hvisited : visited ≠ inodesLeft)
    (hrun : nextFreeInBlock buffer (inodesPerBlock - offset) offset visited = (visited', true)) :
    searchFreeInode inodesLeft (fuel + 1) buffer blockNum offset visited s =
      some (some visited', s) := by
  rw [searchFreeInode, if_neg hvisited, Prog.get_bind_apply, h.sNumOfInodesPerBlock,
    Int.toNat_natCast, hrun]
  rfl

private theorem searchFreeInode_last (h : TableFormat s) (hvisited : visited ≠ inodesLeft)
    (hrun : nextFreeInBlock buffer (inodesPerBlock - offset) offset visited = (visited', false))
    (hlast : blockNum + 1 > inodeBlockCount) :
    searchFreeInode inodesLeft (fuel + 1) buffer blockNum offset visited s = some (none, s) := by
  rw [searchFreeInode, if_neg hvisited, Prog.get_bind_apply, h.sNumOfInodesPerBlock,
    Int.toNat_natCast, hrun]
  simp only [if_pos hlast, Prog.pure_apply]

private theorem searchFreeInode_next (h : TableFormat s) (hvisited : visited ≠ inodesLeft)
    (hrun : nextFreeInBlock buffer (inodesPerBlock - offset) offset visited = (visited', false))
    (hlast : ¬blockNum + 1 > inodeBlockCount) (hrange : InRange (Int64.ofInt (blockNum + 1))) :
    searchFreeInode inodesLeft (fuel + 1) buffer blockNum offset visited s =
      searchFreeInode inodesLeft fuel (s.disk (Int64.ofInt (blockNum + 1))) (blockNum + 1) 0
        visited' s := by
  rw [searchFreeInode, if_neg hvisited, Prog.get_bind_apply, h.sNumOfInodesPerBlock,
    Int.toNat_natCast, hrun]
  simp only [if_neg hlast, Prog.bind_of_eq (altfsReadBlock_run hrange)]

end Search

/-- The search finds the least free inode from its starting point on. -/
theorem searchFreeInode_spec {s : FileSystem} (h : TableFormat s) {first k offset fuel : Nat}
    (hk : k < inodeBlockCount.toNat) (hoffset : offset ≤ inodesPerBlock)
    (hfuel : inodeBlockCount.toNat ≤ k + fuel) :
    ∃ least, LeastFreeFrom s (inodesPerBlock * k + offset) least ∧
      searchFreeInode ((inodeCount : Int) - first + 1) fuel (s.disk (Int64.ofInt (1 + k))) (1 + k)
        offset (((inodesPerBlock * k + offset : Nat) : Int) - first - 1) s =
      some (if least < inodeCount then some ((least : Int) - first) else none, s) := by
  induction fuel generalizing k offset with
  | zero => omega
  | succ fuel ih =>
      have hcount : inodeCount = 18 * inodeBlockCount.toNat := Nat.mul_comm _ _
      simp only [inodesPerBlock] at *
      have hvisited : ((18 * k + offset : Nat) : Int) - first - 1 ≠
          (inodeCount : Int) - first + 1 := by omega
      rcases nextFreeInBlock_spec (s.disk (Int64.ofInt (1 + k))) (18 - offset) offset
          (((18 * k + offset : Nat) : Int) - first - 1) with
        ⟨i, hi, hfree, hbefore, hrun⟩ | ⟨hall, hrun⟩
      · rw [inodeIn_disk s k (by simp only [inodesPerBlock]; omega)] at hfree
        refine ⟨18 * k + (offset + i), ⟨by omega, by omega, fun _ => hfree, ?_⟩, ?_⟩
        · intro j hlow hhigh
          exact allocated_of_block hbefore (by simp only [inodesPerBlock]; omega) hlow
            (by simp only [inodesPerBlock]; omega)
        · rw [searchFreeInode_found h hvisited hrun, if_pos (by omega)]
          congr 3
          omega
      · have hall' : ∀ j, 18 * k + offset ≤ j → j < 18 * (k + 1) →
            (s.inodeAt j).iAllocated = true := fun j hlow hhigh =>
          allocated_of_block hall (by simp only [inodesPerBlock]; omega) hlow
            (by simp only [inodesPerBlock]; omega)
        by_cases hlast : (1 + k : Int) + 1 > inodeBlockCount
        · refine ⟨inodeCount, ⟨by omega, le_rfl, by omega, fun j hlow hhigh => ?_⟩, ?_⟩
          · exact hall' j hlow (by omega)
          · rw [searchFreeInode_last h hvisited hrun hlast, if_neg (by omega)]
        · have hlt := inodeBlockCount_lt (by omega)
          have hblock : (1 + k : Int) + 1 = 1 + ((k + 1 : Nat) : Int) := by omega
          have hvisited' : ((18 * k + offset : Nat) : Int) - first - 1 + ((18 - offset : Nat) : Int) =
              ((18 * (k + 1) + 0 : Nat) : Int) - first - 1 := by omega
          obtain ⟨least, hleast, hnext⟩ :=
            ih (show k + 1 < inodeBlockCount.toNat by omega) (Nat.zero_le 18) (by omega)
          refine ⟨least, ⟨by have := hleast.start_le; omega, hleast.le_count, hleast.free, ?_⟩, ?_⟩
          · intro j hlow hhigh
            by_cases hj : j < 18 * (k + 1)
            · exact hall' j hlow hj
            · exact hleast.allocated j (by omega) hhigh
          · rw [searchFreeInode_next h hvisited hrun hlast (inRange_ofInt (by omega) (by omega)),
              hblock, hvisited', hnext]

/-! ## `allocate_inode` -/

def Inode.marked (node : Inode) : Inode :=
  { node with iAllocated := true, iLinksCount := 0 }

/-- The state after `s_first_ino` has been updated in memory and on disk. -/
def FileSystem.withFirstIno (s : FileSystem) (first : Int64) : FileSystem :=
  let superblock := { s.superblock with sFirstIno := first }
  { s with superblock := superblock }.writeDisk 0 superblock.encode

theorem setFirstIno_run {s : FileSystem} (h : InRange 0) (inum : Int) :
    setFirstIno inum s = some ((), s.withFirstIno (Int64.ofInt inum)) := by
  rw [setFirstIno, Prog.modify_bind_apply, Prog.bind_of_eq (altfsWriteSuperblock_run h)]
  rfl

theorem inodeAt_withFirstIno {s : FileSystem} {n : Nat} (first : Int64) (hn : n < inodeCount) :
    (s.withFirstIno first).inodeAt n = s.inodeAt n :=
  inodeAt_of_disk_eq (disk_writeDisk_ne (inodeBlockOf_ne_zero hn))

theorem toInt_ofInt_inodeIndex {n : Nat} (h : n ≤ inodeCount) : (Int64.ofInt n).toInt = n := by
  have hlt := blockCount_lt
  have hle := inodeBlockCount_le
  simp only [inodeCount, inodesPerBlock] at h
  exact Int64.toInt_ofInt_of_le (by omega) (by omega)

theorem allocateInode_full {s : FileSystem}
    (h : s.superblock.sFirstIno = s.superblock.sInodesCount) :
    allocateInode s = some (-1, s) := by
  simp [allocateInode, h]

theorem TableFormat.setInode {s : FileSystem} (h : TableFormat s) (n : Nat) (node : Inode) :
    TableFormat (s.setInode n node) :=
  ⟨h.sInodesCount, h.sNumOfInodesPerBlock⟩

/-- With a free inode left, `s_first_ino` is allocated and moves on to the next free one. -/
theorem allocateInode_spec {s : FileSystem} (h : TableFormat s) {first : Nat}
    (hfirst : s.superblock.sFirstIno.toInt = first) (hlt : first < inodeCount)
    (hfree : (s.inodeAt first).iAllocated = false) :
    ∃ least, LeastFreeFrom (s.setInode first (s.inodeAt first).marked) (first + 1) least ∧
      allocateInode s = some (s.superblock.sFirstIno,
        (s.setInode first (s.inodeAt first).marked).withFirstIno (Int64.ofInt least)) := by
  obtain ⟨inum, hinum⟩ : ∃ inum, s.superblock.sFirstIno = inum := ⟨_, rfl⟩
  rw [hinum] at hfirst ⊢
  have hvalid : ValidInum inum := ⟨by omega, by omega⟩
  have hindex : inumIndex inum = first := by rw [inumIndex, hfirst, Int.toNat_natCast]
  have hcount : inum ≠ s.superblock.sInodesCount := by
    intro heq
    have hvalue := h.sInodesCount
    rw [← heq, hfirst] at hvalue
    omega
  have hrange := inRange_inodeBlockOf hlt
  have hzero : InRange 0 := by
    have hlow := hrange.1
    have hhigh := hrange.2
    rw [InRange, Int64.toInt_zero]
    omega
  have hstart : inodesPerBlock * (first / inodesPerBlock) + (first % inodesPerBlock + 1) =
      first + 1 := by
    simp only [inodesPerBlock]
    omega
  obtain ⟨least, hleast, hsearch⟩ := @searchFreeInode_spec _ _
    (h.setInode first (s.inodeAt first).marked) first (first / inodesPerBlock)
    (first % inodesPerBlock + 1) (inodeBlockCount.toNat + 1)
    (by simp only [inodeCount, inodesPerBlock] at *; omega)
    (by simp only [inodesPerBlock]; omega) (by simp only [inodesPerBlock]; omega)
  have hvisited : ((first + 1 : Nat) : Int) - first - 1 = 0 := by omega
  rw [hstart] at hleast hsearch
  rw [hvisited, Int.natCast_ediv, FileSystem.setInode, inodeBlockOf, disk_writeDisk_self] at hsearch
  rw [inodeBlockOf] at hrange
  refine ⟨least, hleast, ?_⟩
  have hnode : inodeIn (s.disk (Int64.ofInt (1 + (first / inodesPerBlock : Int))))
      (first % inodesPerBlock) = s.inodeAt first := by
    rw [FileSystem.inodeAt, inodeBlockOf]
  simp only [allocateInode, Prog.get_bind_apply, hinum, if_neg hcount, Bool.not_true,
    (isValidInodeNumber_iff h).mpr hvalid, inumToBlockPos_eq h hvalid, hindex,
    Bool.false_eq_true, if_false, Prog.bind_of_eq (altfsReadBlock_run hrange), hnode, hfree,
    Prog.bind_of_eq (altfsWriteBlock_run hrange), h.sInodesCount, hfirst]
  refine (Prog.bind_of_eq hsearch).trans ?_
  have hle := hleast.le_count
  split_ifs with hmore
  · have hsum : (first : Int) + ((least : Int) - first) = least := by omega
    simp only [Prog.bind_of_eq (setFirstIno_run hzero _), hsum, Prog.pure_apply]
    rfl
  · have hend : inodeCount = least := by omega
    simp only [Prog.bind_of_eq (setFirstIno_run hzero _), hend, Prog.pure_apply]
    rfl

/-! ## `free_inode` -/

structure TableKept (s s' : FileSystem) : Prop where
  disk : ∀ n < inodeCount, s'.disk (inodeBlockOf n) = s.disk (inodeBlockOf n)
  sInodesCount : s'.superblock.sInodesCount = s.superblock.sInodesCount
  sFirstIno : s'.superblock.sFirstIno = s.superblock.sFirstIno
  sNumOfInodesPerBlock :
    s'.superblock.sNumOfInodesPerBlock = s.superblock.sNumOfInodesPerBlock

def HeadBeyond (s : FileSystem) : Prop :=
  s.superblock.sFreelistHead = 0 ∨ inodeBlockCount < s.superblock.sFreelistHead.toInt

/-- While the head of the free list lies past the inode table, the table is not touched. -/
def FreesBeyond (s s' : FileSystem) : Prop := HeadBeyond s → HeadBeyond s' ∧ TableKept s s'

instance : IsPreorder FileSystem FreesBeyond where
  refl s h := ⟨h, fun _ _ => rfl, rfl, rfl, rfl⟩
  trans s t u h h' hs := by
    obtain ⟨ht, hkept⟩ := h hs
    obtain ⟨hu, hkept'⟩ := h' ht
    exact ⟨hu, fun n hn => (hkept'.disk n hn).trans (hkept.disk n hn),
      hkept'.sInodesCount.trans hkept.sInodesCount, hkept'.sFirstIno.trans hkept.sFirstIno,
      hkept'.sNumOfInodesPerBlock.trans hkept.sNumOfInodesPerBlock⟩

theorem altfsWriteBlock_cases {b : Int64} {block : Block} {s s' : FileSystem} {ok : Bool}
    (h : altfsWriteBlock b block s = some (ok, s')) : s' = s ∨ s' = s.writeDisk b block := by
  rw [altfsWriteBlock] at h
  split at h
  · cases h
    exact .inl rfl
  · cases h
    exact .inr rfl

theorem altfsReadBlock_cases {b : Int64} {buffer : Option Block} {s s' : FileSystem}
    (h : altfsReadBlock b s = some (buffer, s')) : s' = s := by
  rw [altfsReadBlock] at h
  split at h
  · cases h
    rfl
  · cases h
    rfl

section Composite

open Prog

variable {R : FileSystem → FileSystem → Prop} [IsPreorder FileSystem R]

omit [Config] in
private theorem forAddresses_within {visit : Int64 → Fs Bool}
    (hvisit : ∀ b, Within R (visit b)) (buffer : Block) (count index : Nat) :
    Within R (forAddresses buffer visit count index) := by
  induction count generalizing index with
  | zero => exact .pure true
  | succ count ih =>
      exact .ite (.pure true) (.bind (hvisit _) fun _ => .ite (.pure false) (ih (index + 1)))

private theorem freeIndirectBlocks_within (hread : ∀ b, Within R (altfsReadBlock b))
    (hfree : ∀ b, Within R (freeDataBlock b)) (indirection : Nat) (b : Int64) :
    Within R (freeIndirectBlocks indirection b) := by
  induction indirection generalizing b with
  | zero => exact hfree b
  | succ indirection ih =>
      refine .bind (hread b) fun buffer => ?_
      cases buffer with
      | none => exact .pure false
      | some buffer =>
          refine .bind (forAddresses_within ih buffer _ _) fun _ => .ite (.pure false) ?_
          exact hfree b

private theorem freeDirectBlocks_within (hfree : ∀ b, Within R (freeDataBlock b)) (node : Inode)
    (count index : Nat) : Within R (freeDirectBlocks node count index) := by
  induction count generalizing index with
  | zero => exact .pure true
  | succ count ih =>
      exact .ite (.pure true) (.bind (hfree _) fun _ => .ite (.pure false) (ih (index + 1)))

/-- Freeing the blocks of an inode reads and frees blocks and does nothing else. -/
theorem freeDataBlocksInInode_within (hread : ∀ b, Within R (altfsReadBlock b))
    (hfree : ∀ b, Within R (freeDataBlock b)) (node : Inode) :
    Within R (freeDataBlocksInInode node) := by
  have hindirect : ∀ b indirection, Within R (freeIndirectIfSet b indirection) :=
    fun b indirection =>
      .ite (.pure true) (freeIndirectBlocks_within hread hfree indirection b)
  refine .bind (freeDirectBlocks_within hfree _ _ _) fun _ => .ite (.pure false) ?_
  refine .bind (hindirect _ _) fun _ => .ite (.pure false) ?_
  exact .bind (hindirect _ _) fun _ => .ite (.pure false) (hindirect _ _)

end Composite

section Freeing

open Prog

variable {s s' : FileSystem} {b index : Int64} {block : Block}

private theorem freesBeyond_writeDisk (hb : b = 0 ∨ inodeBlockCount < b.toInt) :
    FreesBeyond s (s.writeDisk b block) := by
  intro hhead
  refine ⟨hhead, fun n hn => disk_writeDisk_ne ?_, rfl, rfl, rfl⟩
  rintro rfl
  cases hb with
  | inl hzero => exact inodeBlockOf_ne_zero hn hzero
  | inr hlow =>
      have hle := inodeBlock_le hn
      rw [toInt_inodeBlockOf hn] at hlow
      omega

private theorem altfsWriteBlock_beyond (hb : b = 0 ∨ inodeBlockCount < b.toInt) :
    Within FreesBeyond (altfsWriteBlock b block) := by
  intro s ok s' hrun
  rcases altfsWriteBlock_cases hrun with rfl | rfl
  · exact refl_of FreesBeyond s'
  · exact freesBeyond_writeDisk hb

private theorem setHead_beyond (hb : inodeBlockCount < b.toInt) :
    Within FreesBeyond (Prog.modify fun s => s.setFreelistHead b) :=
  .modify fun _ _ => ⟨.inr hb, fun _ _ => rfl, rfl, rfl, rfl⟩

theorem altfsWriteSuperblock_beyond : Within FreesBeyond altfsWriteSuperblock :=
  .bind .get fun _ => altfsWriteBlock_beyond (.inl rfl)

theorem freeDataBlock_beyond (index : Int64) : Within FreesBeyond (freeDataBlock index) := by
  rw [freeDataBlock]
  split
  · exact .pure false
  · next hvalid =>
      have hindex : inodeBlockCount < index.toInt := by
        simp [isInvalidDataBlock] at hvalid
        omega
      refine .bind ?_ fun ok => .ite (.pure false) ?_
      · refine .bind .get fun s => .ite (.pure true) ?_
        exact .bind (setHead_beyond hindex) fun _ => altfsWriteSuperblock_beyond
      · intro s ok s' hrun hhead
        rw [get_bind_apply] at hrun
        obtain ⟨buffer, t, hread, hrest⟩ := bind_eq_some_iff.mp hrun
        obtain rfl := altfsReadBlock_cases hread
        cases buffer with
        | none =>
            cases hrest
            exact refl_of FreesBeyond _ hhead
        | some buffer =>
            cases hslot : firstSlot (· = 0) buffer with
            | some i =>
                simp only [hslot] at hrest
                exact altfsWriteBlock_beyond hhead t ok s' hrest hhead
            | none =>
                simp only [hslot] at hrest
                refine Within.bind (setHead_beyond hindex) (fun _ => ?_) t ok s' hrest hhead
                refine .bind altfsWriteSuperblock_beyond fun _ => .ite (.pure false) ?_
                exact altfsWriteBlock_beyond (.inr hindex)

theorem altfsReadBlock_beyond (b : Int64) : Within FreesBeyond (altfsReadBlock b) := by
  intro s buffer s' hrun
  obtain rfl := altfsReadBlock_cases hrun
  exact refl_of FreesBeyond s'

/-- Whatever an inode names, freeing it leaves the inode table as it is. -/
theorem freeDataBlocksInInode_beyond (node : Inode) :
    Within FreesBeyond (freeDataBlocksInInode node) :=
  freeDataBlocksInInode_within altfsReadBlock_beyond freeDataBlock_beyond node

end Freeing

theorem freeInode_invalid {s : FileSystem} {inum : Int64} (h : TableFormat s)
    (hinum : ¬ValidInum inum) : freeInode inum s = some (false, s) := by
  have hinvalid : isValidInodeNumber inum s = false := by
    simpa using (isValidInodeNumber_iff h).not.mpr hinum
  simp [freeInode, hinvalid]

/-- The state after inode `n` has been cleared and may be the first free one. -/
def FileSystem.withInodeFreed (s : FileSystem) (n : Nat) : FileSystem :=
  (s.setInode n Inode.zero).withFirstIno (Int64.ofInt (min n s.superblock.sFirstIno.toInt))

/-- `free_inode` clears the inode, unless one of its blocks cannot be freed. -/
theorem freeInode_cases {s s' : FileSystem} {inum : Int64} {ok : Bool} (h : TableFormat s)
    (hinum : ValidInum inum) (hhead : HeadBeyond s) (hrun : freeInode inum s = some (ok, s')) :
    ∃ t, HeadBeyond t ∧ TableKept s t ∧
      s' = if ok then t.withInodeFreed (inumIndex inum) else t := by
  have hrange := inRange_inodeBlockOf hinum.index_lt
  have hzero : InRange 0 := ⟨by decide, by
    have := hrange.1
    have := hrange.2
    simp only [Int64.toInt_zero]
    omega⟩
  simp only [freeInode, Prog.get_bind_apply, (isValidInodeNumber_iff h).mpr hinum, Bool.not_true,
    Bool.false_eq_true, if_false, inumToBlockPos_eq h hinum] at hrun
  rw [inodeBlockOf] at hrange
  rw [Prog.bind_of_eq (altfsReadBlock_run hrange)] at hrun
  obtain ⟨freed, t, hfree, hrest⟩ := Prog.bind_eq_some_iff.mp hrun
  obtain ⟨hheadt, hkept⟩ := freeDataBlocksInInode_beyond _ _ _ _ hfree hhead
  refine ⟨t, hheadt, hkept, ?_⟩
  cases freed with
  | false =>
      cases hrest
      rfl
  | true =>
      simp only [Bool.not_true, Bool.false_eq_true, if_false,
        Prog.bind_of_eq (altfsWriteBlock_run hrange), Prog.get_bind_apply,
        Prog.bind_of_eq (setFirstIno_run hzero _)] at hrest
      cases hrest
      have hdisk := hkept.disk _ hinum.index_lt
      rw [if_pos rfl, FileSystem.withInodeFreed, FileSystem.setInode, hdisk, inodeBlockOf,
        superblock_writeDisk, hinum.index_eq]

/-- Once the blocks of the inode are freed, `free_inode` clears it. -/
theorem freeInode_run {s t : FileSystem} {inum : Int64} (h : TableFormat s) (hinum : ValidInum inum)
    (hkept : TableKept s t)
    (hfree : freeDataBlocksInInode (s.inodeAt (inumIndex inum)) s = some (true, t)) :
    freeInode inum s = some (true, t.withInodeFreed (inumIndex inum)) := by
  have hrange := inRange_inodeBlockOf hinum.index_lt
  have hread := altfsReadBlock_run (s := s) hrange
  have hdisk := hkept.disk _ hinum.index_lt
  rw [FileSystem.inodeAt] at hfree
  rw [inodeBlockOf] at hread hfree hrange
  simp only [freeInode, Prog.get_bind_apply, (isValidInodeNumber_iff h).mpr hinum, Bool.not_true,
    Bool.false_eq_true, if_false, inumToBlockPos_eq h hinum, Prog.bind_of_eq hread,
    Prog.bind_of_eq hfree, Prog.bind_of_eq (altfsWriteBlock_run hrange),
    Prog.bind_of_eq (setFirstIno_run hinum.inRange_zero _), Prog.pure_apply]
  rw [FileSystem.withInodeFreed, FileSystem.setInode, hdisk, inodeBlockOf, superblock_writeDisk,
    hinum.index_eq]

theorem SameData.withFirstIno {s : FileSystem} (first : Int64) : SameData s (s.withFirstIno first) :=
  ⟨fun _ hb => disk_writeDisk_ne hb.ne_zero, rfl⟩

section Kept

variable {s t : FileSystem} {n m : Nat}

theorem SameData.withInodeFreed (hn : n < inodeCount) : SameData s (s.withInodeFreed n) :=
  (SameData.setInode _ hn).trans (.withFirstIno _)

theorem TableKept.refl (s : FileSystem) : TableKept s s := ⟨fun _ _ => rfl, rfl, rfl, rfl⟩

theorem DataFrame.tableKept {S : Multiset Int64} (h : DataFrame S s t)
    (hdata : ∀ b ∈ S, DataBlock b) : TableKept s t where
  disk _ hn := h.disk _ (inodeBlockOf_ne_zero hn) fun hmem =>
    not_dataBlock_inodeBlockOf hn (hdata _ hmem)
  sInodesCount := h.sInodesCount
  sFirstIno := h.sFirstIno
  sNumOfInodesPerBlock := h.sNumOfInodesPerBlock

theorem TableKept.inodeAt (h : TableKept s t) (hn : n < inodeCount) :
    t.inodeAt n = s.inodeAt n :=
  inodeAt_of_disk_eq (h.disk n hn)

theorem TableKept.format (h : TableKept s t) (hs : TableFormat s) : TableFormat t :=
  ⟨by rw [h.sInodesCount, hs.sInodesCount], by
    rw [h.sNumOfInodesPerBlock, hs.sNumOfInodesPerBlock]⟩

theorem inodeAt_withInodeFreed_self (hn : n < inodeCount) :
    (t.withInodeFreed n).inodeAt n = Inode.zero := by
  rw [FileSystem.withInodeFreed, inodeAt_withFirstIno _ hn, inodeAt_setInode_self]

theorem inodeAt_withInodeFreed_ne (hn : n < inodeCount) (hm : m < inodeCount) (h : m ≠ n) :
    (t.withInodeFreed n).inodeAt m = t.inodeAt m := by
  rw [FileSystem.withInodeFreed, inodeAt_withFirstIno _ hm, inodeAt_setInode_ne hn hm h]

end Kept

end AltFs
