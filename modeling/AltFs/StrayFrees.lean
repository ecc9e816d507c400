import AltFs.AllocatorRuns

/-!
# Freeing numbers that are no data blocks

`free_data_block` refuses every number outside the data blocks but one: its
range check lets `BLOCK_COUNT` pass, which `altfs_read_block` and
`altfs_write_block` refuse.
-/

namespace AltFs

open Prog

variable [Config]

section

variable {s t : FileSystem} {free : Multiset Int64} {index : Int64}

theorem inodeBlockCount_lt_blockCount (h : blockCount ≠ 0) : inodeBlockCount < blockCount := by
  have hnonneg := blockCount_nonneg
  simp only [inodeBlockCount]
  omega

theorem isInvalidDataBlock_of_not_dataBlock (hout : ¬DataBlock index)
    (hbound : index.toInt = blockCount → blockCount = 0) : isInvalidDataBlock index = true := by
  rw [isInvalidDataBlock, Bool.or_eq_true, decide_eq_true_eq, decide_eq_true_eq]
  by_contra hboth
  obtain ⟨hlow, hhigh⟩ := not_or.mp hboth
  have hnonneg := inodeBlockCount_nonneg
  by_cases heq : index.toInt = blockCount
  · have hzero := hbound heq
    omega
  · exact hout ⟨by omega, by omega⟩

theorem freeDataBlock_invalid (h : isInvalidDataBlock index = true) :
    freeDataBlock index s = some (false, s) := by
  rw [freeDataBlock, if_pos h]
  rfl

/-- The call fails and leaves the superblock and every block as they were. -/
def FreeRefused (s : FileSystem) (index : Int64) : Prop :=
  ∃ t, freeDataBlock index s = some (false, t) ∧ t.superblock = s.superblock ∧ t.disk = s.disk

section Bound

variable (hindex : index.toInt = blockCount) (hcount : blockCount ≠ 0)

include hindex hcount

private theorem bound_not_invalid : isInvalidDataBlock index = false := by
  have hlt := inodeBlockCount_lt_blockCount hcount
  rw [isInvalidDataBlock, Bool.or_eq_false_iff, decide_eq_false_iff_not, decide_eq_false_iff_not]
  omega

private theorem bound_ne_zero : index ≠ 0 := by
  rintro rfl
  exact hcount hindex.symm

omit hindex in
private theorem bound_zero_inRange : InRange 0 := by
  have hnonneg := blockCount_nonneg
  rw [InRange, Int64.toInt_zero]
  omega

omit hcount in
private theorem bound_read : altfsReadBlock index s = some (none, s) := by
  have hout : isBlockOutOfRange index = true := by
    rw [isBlockOutOfRange, Bool.or_eq_true, decide_eq_true_eq, decide_eq_true_eq]
    omega
  rw [altfsReadBlock, if_pos hout]
  rfl

omit hcount in
private theorem bound_write (buffer : Block) : altfsWriteBlock index buffer s = some (false, s) := by
  have hout : isBlockOutOfRange index = true := by
    rw [isBlockOutOfRange, Bool.or_eq_true, decide_eq_true_eq, decide_eq_true_eq]
    omega
  rw [altfsWriteBlock, if_pos hout]
  rfl

/-- On the empty list `BLOCK_COUNT` becomes the head before the first failure. -/
theorem freeDataBlock_bound_empty (hhead : s.superblock.sFreelistHead = 0) :
    freeDataBlock index s = some (false,
      (s.setFreelistHead index).writeDisk 0 (s.setFreelistHead index).superblock.encode) := by
  have hrestart : restartFreelist index s = some (true,
      (s.setFreelistHead index).writeDisk 0 (s.setFreelistHead index).superblock.encode) := by
    simp only [restartFreelist, get_bind_apply, hhead, ne_eq, not_true_eq_false, if_false,
      modify_bind_apply, altfsWriteSuperblock_run (bound_zero_inRange hcount)]
  simp only [freeDataBlock, bound_not_invalid hindex hcount, Bool.false_eq_true, if_false,
    bind_of_eq hrestart, Bool.not_true, get_bind_apply, superblock_writeDisk,
    head_setFreelistHead, bind_of_eq (bound_read hindex), pure_apply]

/-- With a spare slot in the head `BLOCK_COUNT` is put on the list. -/
theorem freeDataBlock_bound_slot {head : Int64} {i : Nat}
    (hhead : s.superblock.sFreelistHead = head) (hdata : DataBlock head)
    (hslot : firstSlot (· = 0) (s.disk head) = some i) :
    freeDataBlock index s = some (true, s.writeDisk head ((s.disk head).setWord i index)) := by
  have hrestart : restartFreelist index s = some (true, s) := by
    simp [restartFreelist, hhead, hdata.ne_zero]
  simp only [freeDataBlock, bound_not_invalid hindex hcount, Bool.false_eq_true, if_false,
    bind_of_eq hrestart, Bool.not_true, get_bind_apply, hhead,
    bind_of_eq (altfsReadBlock_run hdata.inRange), hslot, altfsWriteBlock_run hdata.inRange]

/-- With a full head `BLOCK_COUNT` becomes the head, and its link is not written. -/
theorem freeDataBlock_bound_push {head : Int64} (hhead : s.superblock.sFreelistHead = head)
    (hdata : DataBlock head) (hslot : firstSlot (· = 0) (s.disk head) = none) :
    freeDataBlock index s = some (false,
      (s.setFreelistHead index).writeDisk 0 (s.setFreelistHead index).superblock.encode) := by
  have hrestart : restartFreelist index s = some (true, s) := by
    simp [restartFreelist, hhead, hdata.ne_zero]
  simp only [freeDataBlock, bound_not_invalid hindex hcount, Bool.false_eq_true, if_false,
    bind_of_eq hrestart, Bool.not_true, get_bind_apply, hhead,
    bind_of_eq (altfsReadBlock_run hdata.inRange), hslot, modify_bind_apply,
    bind_of_eq (altfsWriteSuperblock_run (bound_zero_inRange hcount)),
    bound_write hindex]

theorem not_freeRefused_bound (hlist : FreeList s free) : ¬FreeRefused s index := by
  rintro ⟨t, hrun, hsuperblock, -⟩
  have hmoved : ∀ u : FileSystem, s.superblock.sFreelistHead ≠ index →
      t ≠ (s.setFreelistHead index).writeDisk 0 u.superblock.encode := by
    rintro u hne rfl
    exact hne (congrArg Superblock.sFreelistHead hsuperblock).symm
  by_cases hhead : s.superblock.sFreelistHead = 0
  · rw [freeDataBlock_bound_empty hindex hcount hhead] at hrun
    refine hmoved (s.setFreelistHead index) ?_ (congrArg Prod.snd (Option.some.inj hrun)).symm
    rw [hhead]
    exact (bound_ne_zero hindex hcount).symm
  have hdata := hlist.data _ (hlist.head_mem hhead)
  cases hslot : firstSlot (· = 0) (s.disk s.superblock.sFreelistHead) with
  | some i =>
      rw [freeDataBlock_bound_slot hindex hcount rfl hdata hslot] at hrun
      cases hrun
  | none =>
      rw [freeDataBlock_bound_push hindex hcount rfl hdata hslot] at hrun
      refine hmoved (s.setFreelistHead index) ?_ (congrArg Prod.snd (Option.some.inj hrun)).symm
      intro heq
      have hlt := hdata.2
      rw [heq, hindex] at hlt
      exact lt_irrefl _ hlt

end Bound

theorem freeRefused_iff (hlist : FreeList s free) (hout : ¬DataBlock index) :
    FreeRefused s index ↔ (index.toInt = blockCount → blockCount = 0) := by
  constructor
  · intro hrefused hindex
    by_contra hcount
    exact not_freeRefused_bound hindex hcount hlist hrefused
  · intro hbound
    exact ⟨s, freeDataBlock_invalid (isInvalidDataBlock_of_not_dataBlock hout hbound), rfl, rfl⟩

/-! ## Runs -/

/-- A call of a client, or a free of a number that is no data block. -/
inductive StrayStep : AllocatorClient → AllocatorCall → AllocatorClient → Prop
  | client {c c' : AllocatorClient} {call : AllocatorCall} (hstep : ClientStep c call c') :
      StrayStep c call c'
  | stray {c : AllocatorClient} {index : Int64} {ok : Bool} {s' : FileSystem}
      (hout : ¬DataBlock index) (hrun : freeDataBlock index c.fs = some (ok, s')) :
      StrayStep c (.free index) ⟨s', c.held⟩

/-- Data blocks are freed while the list is not empty, and `BLOCK_COUNT` is never freed. -/
def FreesWithin (c : AllocatorClient) : AllocatorCall → Prop
  | .free index => (DataBlock index → c.fs.superblock.sFreelistHead ≠ 0) ∧
      (index.toInt = blockCount → blockCount = 0)
  | _ => True

theorem ClientInv.strayStep {c c' : AllocatorClient} {call : AllocatorCall}
    (h : ClientInv c free) (hallowed : FreesWithin c call) (hstep : StrayStep c call c') :
    ∃ free', ClientInv c' free' := by
  cases hstep with
  | client hstep =>
      apply h.step ?_ hstep
      cases call with
      | allocate => trivial
      | write index buffer => trivial
      | free index =>
          cases hstep with
          | freed hheld hrun => exact hallowed.1 (h.held _ hheld).1
          | freeFailed hheld hrun => exact hallowed.1 (h.held _ hheld).1
  | stray hout hrun =>
      rw [freeDataBlock_invalid (isInvalidDataBlock_of_not_dataBlock hout hallowed.2)] at hrun
      cases hrun
      exact ⟨free, h⟩

/-- `altfs_read_block` and `altfs_write_block` accept the number. -/
def BlockAccepted (b : Int64) : Prop :=
  ∀ (u : FileSystem) (buffer : Block), altfsReadBlock b u = some (some (u.disk b), u) ∧
    altfsWriteBlock b buffer u = some (true, u.writeDisk b buffer)

/--
A number outside the data blocks is refused unless it is `BLOCK_COUNT`.  In
every run that never frees `BLOCK_COUNT`, and data blocks only while the list
is not empty, the allocator hands out numbers of blocks of the device.
-/
theorem freeDataBlock_outOfRange (hlist : FreeList s free) :
    (∀ index, ¬DataBlock index →
      (FreeRefused s index ↔ (index.toInt = blockCount → blockCount = 0))) ∧
    ∀ held : Finset Int64, (∀ b ∈ held, DataBlock b ∧ b ∉ free) →
      ∀ c, Run StrayStep FreesWithin ⟨s, held⟩ c →
        ∀ b t, allocateDataBlock c.fs = some (b, t) → b ≠ -1 → BlockAccepted b := by
  refine ⟨fun index hout => freeRefused_iff hlist hout, fun held hheld c hrun b t halloc hb => ?_⟩
  obtain ⟨free', hinv⟩ : ∃ free', ClientInv c free' := by
    refine hrun.invariant (I := fun c => ∃ free', ClientInv c free') ⟨free, hlist, hheld⟩ ?_
    rintro c call c' ⟨free', hinv⟩ hallowed hstep
    exact hinv.strayStep hallowed hstep
  have hdata := (hinv.allocatesUnheld b t halloc hb).1
  exact fun u buffer => ⟨altfsReadBlock_run hdata.inRange, altfsWriteBlock_run hdata.inRange⟩

end

/-! ## A device with one data block -/

/-- A cleared block as the only one of the list. -/
theorem freeList_singleton {s : FileSystem} {b : Int64} (hb : DataBlock b)
    (hhead : s.superblock.sFreelistHead = b) (hzero : s.disk b = Block.zero) : FreeList s {b} where
  chain := by
    have hwords : ∀ i, s.words b i = 0 := fun i => by rw [FileSystem.words, hzero, Block.word_zero]
    have hslots : slots freelistSlots s.words b = 0 := by
      rw [slots]
      apply Finset.sum_eq_zero
      intro i _
      rw [hwords, cell_zero]
    have hchain : FreeChain freelistSlots s.words b (b ::ₘ (slots freelistSlots s.words b + 0)) := by
      apply FreeChain.cons hb.ne_zero
      rw [hwords]
      exact .nil
    rw [hslots] at hchain
    rw [hhead]
    exact hchain
  nodup := Multiset.nodup_singleton b
  data a ha := by
    rw [Multiset.mem_singleton.mp ha]
    exact hb

omit [Config] in
/-- Block 1 is free, block 2 is behind the device: it is freed, handed out and cannot be read. -/
theorem freeDataBlock_blockCount :
    letI := Config.ofBlocks 2 (by decide)
    ∃ s free t u, FreeList s free ∧ ¬DataBlock 2 ∧ ¬FreeRefused s 2 ∧
      freeDataBlock 2 s = some (true, t) ∧ allocateDataBlock t = some (2, u) ∧
      ¬BlockAccepted 2 := by
  let _ := Config.ofBlocks 2 (by decide)
  let s : FileSystem := FileSystem.blank.setFreelistHead 1
  have hone : DataBlock 1 := ⟨by decide, by decide⟩
  have hlist : FreeList s {1} := freeList_singleton hone rfl rfl
  have hbound : (2 : Int64).toInt = blockCount := by decide
  have hcount : blockCount ≠ 0 := by decide
  have hslot : firstSlot (· = 0) (s.disk 1) = some 1 := firstSlot_of_first (by
    change decide (Block.zero.word 1 = 0) = true
    rw [Block.word_zero]
    rfl)
  let t : FileSystem := s.writeDisk 1 ((s.disk 1).setWord 1 2)
  have hfreed : freeDataBlock 2 s = some (true, t) :=
    freeDataBlock_bound_slot hbound hcount rfl hone hslot
  have hwrite : ∀ (u : FileSystem) buffer, altfsWriteBlock 2 buffer u = some (false, u) :=
    fun _ buffer => bound_write hbound buffer
  have halloc : allocateDataBlock t = some (2, t.writeDisk 1 ((t.disk 1).setWord 1 0)) := by
    have hhead : t.superblock.sFreelistHead = 1 := rfl
    have hword : (t.disk 1).word 1 = 2 := Block.word_setWord_self (by decide)
    have hused : firstSlot (· ≠ 0) (t.disk 1) = some 1 := by
      apply firstSlot_of_first
      rw [hword]
      decide
    simp only [allocateDataBlock, get_bind_apply, hhead, if_neg hone.ne_zero,
      bind_of_eq (altfsReadBlock_run hone.inRange), hused, hword,
      bind_of_eq (altfsWriteBlock_run hone.inRange), Bool.not_true, Bool.false_eq_true, if_false,
      bind_of_eq (hwrite _ _), pure_apply]
  refine ⟨s, {1}, t, _, hlist, fun hdata => absurd hdata.2 (by decide),
    not_freeRefused_bound hbound hcount hlist, hfreed, halloc, fun haccepted => ?_⟩
  have hrun := (haccepted s Block.zero).1
  rw [bound_read hbound] at hrun
  cases hrun

omit [Config] in
/-- Block 0 is refused, and then block 1 is handed out. -/
theorem freeDataBlock_outOfRange_zero :
    letI := Config.ofBlocks 2 (by decide)
    ∃ s t u b, FreeRefused s 0 ∧ freeDataBlock 0 s = some (false, t) ∧
      allocateDataBlock t = some (b, u) ∧ b ≠ -1 ∧ BlockAccepted b := by
  let _ := Config.ofBlocks 2 (by decide)
  let s : FileSystem := FileSystem.blank.setFreelistHead 1
  have hone : DataBlock 1 := ⟨by decide, by decide⟩
  have hlist : FreeList s {1} := freeList_singleton hone rfl rfl
  have hout : ¬DataBlock 0 := fun hdata => hdata.ne_zero rfl
  obtain ⟨hrefused, hruns⟩ := freeDataBlock_outOfRange hlist
  have hstray : freeDataBlock 0 s = some (false, s) :=
    freeDataBlock_invalid (by decide)
  obtain ⟨b, free', u, halloc, heq, -⟩ := allocateDataBlock_spec hlist (by decide)
  have hb : b ≠ -1 := (hlist.data b (heq ▸ Multiset.mem_cons_self b free')).ne_neg_one
  have hrun : Run StrayStep FreesWithin ⟨s, ∅⟩ ⟨s, ∅⟩ :=
    .single (.free 0) ⟨fun hdata => absurd hdata hout, by decide⟩ (.stray hout hstray)
  exact ⟨s, s, u, b, (hrefused 0 hout).mpr (by decide), hstray, halloc, hb,
    hruns ∅ (by simp) _ hrun b u halloc hb⟩

end AltFs
