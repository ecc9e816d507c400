import AltFs.Lib.FreeChain
import AltFs.DataBlockOps

/-!
# The allocator and its free list

`FreeList s free` says that the chain from `s_freelist_head` lists exactly the
blocks of `free`.  The two specifications below describe `allocate_data_block`
and `free_data_block` on a well-formed list; `DataFrame` is what they leave
alone.
-/

namespace AltFs

/-- The slots of a free-list block. -/
def freelistSlots : Nat := numOfAddressesPerBlock - 1

def FileSystem.words (s : FileSystem) (blockid : Int64) (index : Nat) : Int64 :=
  (s.disk blockid).word index

section DiskAccess

variable {s : FileSystem} {b : Int64} {block : Block}

@[simp] theorem disk_writeDisk_self : (s.writeDisk b block).disk b = block := by
  simp [FileSystem.writeDisk]

theorem disk_writeDisk_ne {b' : Int64} (h : b' ≠ b) :
    (s.writeDisk b block).disk b' = s.disk b' := by
  simp [FileSystem.writeDisk, h]

theorem writeDisk_same (h : s.disk b = block) : s.writeDisk b block = s := by
  have hdisk : (fun a => if a = b then block else s.disk a) = s.disk := by
    funext a
    split
    next heq => rw [heq, h]
    next => rfl
  rw [FileSystem.writeDisk, hdisk]

@[simp] theorem superblock_writeDisk : (s.writeDisk b block).superblock = s.superblock := rfl

@[simp] theorem cache_writeDisk : (s.writeDisk b block).cache = s.cache := rfl

@[simp] theorem disk_setFreelistHead : (s.setFreelistHead b).disk = s.disk := rfl

@[simp] theorem head_setFreelistHead :
    (s.setFreelistHead b).superblock.sFreelistHead = b := rfl

@[simp] theorem cache_setFreelistHead : (s.setFreelistHead b).cache = s.cache := rfl

end DiskAccess

/--
Between `s` and `s'` only the free-list head, block 0, the blocks of `S` and
the clock may have changed.
-/
structure DataFrame (S : Multiset Int64) (s s' : FileSystem) : Prop where
  disk : ∀ b, b ≠ 0 → b ∉ S → s'.disk b = s.disk b
  sInodesCount : s'.superblock.sInodesCount = s.superblock.sInodesCount
  sFirstIno : s'.superblock.sFirstIno = s.superblock.sFirstIno
  sNumOfInodesPerBlock :
    s'.superblock.sNumOfInodesPerBlock = s.superblock.sNumOfInodesPerBlock
  cache : s'.cache = s.cache

namespace DataFrame

variable {S T : Multiset Int64} {s s' s'' : FileSystem}

theorem refl (S : Multiset Int64) (s : FileSystem) : DataFrame S s s :=
  ⟨fun _ _ _ => rfl, rfl, rfl, rfl, rfl⟩

theorem trans (h : DataFrame S s s') (h' : DataFrame S s' s'') : DataFrame S s s'' where
  disk b hb hS := (h'.disk b hb hS).trans (h.disk b hb hS)
  sInodesCount := h'.sInodesCount.trans h.sInodesCount
  sFirstIno := h'.sFirstIno.trans h.sFirstIno
  sNumOfInodesPerBlock := h'.sNumOfInodesPerBlock.trans h.sNumOfInodesPerBlock
  cache := h'.cache.trans h.cache

theorem mono (h : DataFrame S s s') (hsub : S ⊆ T) : DataFrame T s s' :=
  { h with disk := fun b hb hT => h.disk b hb fun hS => hT (hsub hS) }

theorem writeDisk {b : Int64} {block : Block} (hb : b ∈ S) :
    DataFrame S s (s.writeDisk b block) :=
  { refl S s with
    disk := fun b' _ hS => disk_writeDisk_ne (by rintro rfl; exact hS hb) }

/-- Updating the head and the superblock on disk touches no data block. -/
theorem setHead (head : Int64) (block : Block) :
    DataFrame S s ((s.setFreelistHead head).writeDisk 0 block) :=
  { refl S s with
    disk := fun b' hb _ => by rw [disk_writeDisk_ne hb, disk_setFreelistHead] }

theorem words (h : DataFrame S s s') {b : Int64} (hb : b ≠ 0) (hS : b ∉ S) :
    s'.words b = s.words b := by
  funext i
  simp only [FileSystem.words, h.disk b hb hS]

end DataFrame

theorem firstSlot_eq_some {p : Int64 → Bool} {buffer : Block} {i : Nat}
    (h : firstSlot p buffer = some i) :
    p (buffer.word i) = true ∧ i < numOfAddressesPerBlock ∧
      ∃ slot < freelistSlots, i = slot + 1 := by
  have hmem := List.mem_of_find?_eq_some h
  have hp := List.find?_some h
  rw [List.mem_range'_1] at hmem
  simp only [freelistSlots, numOfAddressesPerBlock] at *
  exact ⟨hp, by omega, i - 1, by omega, by omega⟩

theorem firstSlot_eq_none {p : Int64 → Bool} {buffer : Block}
    (h : firstSlot p buffer = none) (slot : Nat) (hslot : slot < freelistSlots) :
    p (buffer.word (slot + 1)) = false := by
  have := List.find?_eq_none.mp h (slot + 1) (by
    rw [List.mem_range'_1]
    simp only [freelistSlots, numOfAddressesPerBlock] at *
    omega)
  simpa using this

theorem firstSlot_of_first {p : Int64 → Bool} {buffer : Block}
    (h : p (buffer.word 1) = true) : firstSlot p buffer = some 1 := by
  rw [firstSlot, show numOfAddressesPerBlock - 1 = 510 + 1 from rfl, List.range'_succ,
    List.find?_cons_of_pos (p := fun i => p (buffer.word i)) h]

theorem firstSlot_zero_eq_none : firstSlot (· ≠ 0) Block.zero = none := by
  simp [firstSlot]

variable [Config]

theorem blockCount_nonneg : 0 ≤ blockCount :=
  Int.ediv_nonneg (Int.natCast_nonneg _) (Int.natCast_nonneg _)

theorem blockCount_lt : blockCount < 2 ^ 51 := by
  have := Config.fsSize_lt
  simp only [blockCount, blockSize]
  omega

theorem inodeBlockCount_nonneg : 0 ≤ inodeBlockCount := by
  have := blockCount_nonneg
  simp only [inodeBlockCount]
  omega

theorem inodeBlockCount_le : inodeBlockCount ≤ blockCount := by
  have := blockCount_nonneg
  simp only [inodeBlockCount]
  omega

/-- The block numbers the allocator may hand out. -/
def DataBlock (b : Int64) : Prop :=
  inodeBlockCount < b.toInt ∧ b.toInt < blockCount

/-- The block numbers of the device. -/
def InRange (b : Int64) : Prop := 0 ≤ b.toInt ∧ b.toInt < blockCount

theorem DataBlock.inRange {b : Int64} (h : DataBlock b) : InRange b :=
  ⟨by have := inodeBlockCount_nonneg; have := h.1; omega, h.2⟩

theorem DataBlock.pos {b : Int64} (h : DataBlock b) : 0 < b.toInt := by
  have := inodeBlockCount_nonneg
  have := h.1
  omega

theorem DataBlock.ne_zero {b : Int64} (h : DataBlock b) : b ≠ 0 := by
  rintro rfl
  exact absurd h.pos (by decide)

theorem DataBlock.ne_neg_one {b : Int64} (h : DataBlock b) : b ≠ -1 := by
  rintro rfl
  exact absurd h.pos (by decide)

theorem DataBlock.zero_inRange {b : Int64} (h : DataBlock b) : InRange 0 :=
  ⟨by decide, by have := h.pos; have := h.2; simp only [Int64.toInt_zero]; omega⟩

theorem InRange.isBlockOutOfRange {b : Int64} (h : InRange b) : isBlockOutOfRange b = false := by
  simp only [AltFs.isBlockOutOfRange, Bool.or_eq_false_iff, decide_eq_false_iff_not]
  exact ⟨by have := h.1; omega, by have := h.2; omega⟩

theorem DataBlock.isInvalidDataBlock {b : Int64} (h : DataBlock b) :
    isInvalidDataBlock b = false := by
  simp only [AltFs.isInvalidDataBlock, Bool.or_eq_false_iff, decide_eq_false_iff_not]
  exact ⟨by have := h.1; omega, by have := h.2; omega⟩

section DiskAccess

variable {s : FileSystem} {b : Int64} {block : Block}

theorem altfsReadBlock_run (h : InRange b) :
    altfsReadBlock b s = some (some (s.disk b), s) := by
  simp [altfsReadBlock, h.isBlockOutOfRange]

theorem altfsWriteBlock_run (h : InRange b) :
    altfsWriteBlock b block s = some (true, s.writeDisk b block) := by
  simp [altfsWriteBlock, h.isBlockOutOfRange]

theorem altfsWriteSuperblock_run (h : InRange 0) :
    altfsWriteSuperblock s = some (true, s.writeDisk 0 s.superblock.encode) := by
  simp [altfsWriteSuperblock, altfsWriteBlock_run h]

theorem readDataBlock_run (h : DataBlock b) :
    readDataBlock b s = some (some (s.disk b), s) := by
  simp [readDataBlock, h.isInvalidDataBlock, altfsReadBlock_run h.inRange]

theorem readDataBlockArray_run (h : DataBlock b) :
    readDataBlockArray b s = some (s.disk b, s) := by
  simp [readDataBlockArray, Prog.bind_of_eq (readDataBlock_run h)]

theorem writeDataBlock_run (h : DataBlock b) :
    writeDataBlock b block s = some (true, s.writeDisk b block) := by
  simp [writeDataBlock, h.isInvalidDataBlock, altfsWriteBlock_run h.inRange]

end DiskAccess

/-- `free` is the set of free blocks, each listed once by the chain from the head. -/
structure FreeList (s : FileSystem) (free : Multiset Int64) : Prop where
  chain : FreeChain freelistSlots s.words s.superblock.sFreelistHead free
  nodup : free.Nodup
  data : ∀ b ∈ free, DataBlock b

namespace FreeList

variable {s s' : FileSystem} {free : Multiset Int64}

theorem unique {free' : Multiset Int64} (h : FreeList s free) (h' : FreeList s free') :
    free' = free := h.chain.unique h'.chain

theorem head_mem (h : FreeList s free) (hne : s.superblock.sFreelistHead ≠ 0) :
    s.superblock.sFreelistHead ∈ free := h.chain.head_mem hne

theorem head_eq_zero_iff (h : FreeList s free) :
    s.superblock.sFreelistHead = 0 ↔ free = 0 := h.chain.eq_zero_iff

/-- A free list survives every change outside its own blocks. -/
theorem frame (h : FreeList s free)
    (hhead : s'.superblock.sFreelistHead = s.superblock.sFreelistHead)
    (hdisk : ∀ b ∈ free, s'.disk b = s.disk b) : FreeList s' free where
  chain := by
    rw [hhead]
    refine h.chain.congr fun b hb i => ?_
    simp only [FileSystem.words, hdisk b hb]
  nodup := h.nodup
  data := h.data

/-- Taking a block off a list leaves a list. -/
theorem of_cons {b : Int64} (h : FreeList s (b ::ₘ free))
    (hchain : FreeChain freelistSlots s'.words s'.superblock.sFreelistHead free) :
    FreeList s' free where
  chain := hchain
  nodup := (Multiset.nodup_cons.mp h.nodup).2
  data a ha := h.data a (Multiset.mem_cons_of_mem ha)

end FreeList

/-! ## Allocation -/

theorem allocateDataBlock_empty {s : FileSystem} (h : s.superblock.sFreelistHead = 0) :
    allocateDataBlock s = some (-1, s) := by
  simp [allocateDataBlock, h]

theorem allocateDataBlock_slot {s : FileSystem} (head : Int64) {b : Int64} {i : Nat}
    (hhead : s.superblock.sFreelistHead = head) (hdata : DataBlock head)
    (hslot : firstSlot (· ≠ 0) (s.disk head) = some i)
    (hb : (s.disk head).word i = b) (hbdata : DataBlock b) :
    allocateDataBlock s =
      some (b, (s.writeDisk head ((s.disk head).setWord i 0)).writeDisk b Block.zero) := by
  simp only [allocateDataBlock, Prog.get_bind_apply, hhead, if_neg hdata.ne_zero,
    Prog.bind_of_eq (altfsReadBlock_run hdata.inRange), hslot, hb,
    Prog.bind_of_eq (altfsWriteBlock_run hdata.inRange), Bool.not_true, Bool.false_eq_true,
    if_false, Prog.bind_of_eq (altfsWriteBlock_run hbdata.inRange), Prog.pure_apply]

theorem allocateDataBlock_head {s : FileSystem} (head : Int64)
    (hhead : s.superblock.sFreelistHead = head) (hdata : DataBlock head)
    (hslot : firstSlot (· ≠ 0) (s.disk head) = none) :
    allocateDataBlock s =
      some (head, (((s.setFreelistHead ((s.disk head).word 0)).writeDisk 0
        (s.setFreelistHead ((s.disk head).word 0)).superblock.encode).writeDisk head
          ((s.disk head).setWord 0 0)).writeDisk head Block.zero) := by
  simp only [allocateDataBlock, Prog.get_bind_apply, hhead, if_neg hdata.ne_zero,
    Prog.bind_of_eq (altfsReadBlock_run hdata.inRange), hslot, Prog.modify_bind_apply,
    Prog.bind_of_eq (altfsWriteSuperblock_run hdata.zero_inRange),
    Prog.bind_of_eq (altfsWriteBlock_run hdata.inRange), Bool.not_true, Bool.false_eq_true,
    if_false, Prog.pure_apply]

/-- On a non-empty list the allocator returns a free block, cleared, and drops it from the list. -/
theorem allocateDataBlock_spec {s : FileSystem} {free : Multiset Int64}
    (hfree : FreeList s free) (hne : s.superblock.sFreelistHead ≠ 0) :
    ∃ b free' s', allocateDataBlock s = some (b, s') ∧ free = b ::ₘ free' ∧
      FreeList s' free' ∧ s'.disk b = Block.zero ∧ DataFrame free s s' := by
  have hmem := hfree.head_mem hne
  have hhead := hfree.data _ hmem
  have hchain := hfree.chain
  obtain ⟨head, hheadEq⟩ : ∃ head, s.superblock.sFreelistHead = head := ⟨_, rfl⟩
  rw [hheadEq] at hne hmem hhead hchain
  cases hslot : firstSlot (· ≠ 0) (s.disk head) with
  | some i =>
      obtain ⟨hused, hindex, slot, hlt, rfl⟩ := firstSlot_eq_some hslot
      have hused : s.words head (slot + 1) ≠ 0 := by simpa [FileSystem.words] using hused
      have hbmem := hchain.slot_mem hne hlt hused
      have hbne := hchain.slot_ne_head hne hfree.nodup hlt hused
      obtain ⟨b, hb⟩ : ∃ b, s.words head (slot + 1) = b := ⟨_, rfl⟩
      rw [hb] at hbmem hbne
      let s' := (s.writeDisk head ((s.disk head).setWord (slot + 1) 0)).writeDisk b Block.zero
      have hheadWords : ∀ i, s'.words head i =
          if i = slot + 1 then 0 else s.words head i := by
        intro i
        simp only [s', FileSystem.words, disk_writeDisk_ne hbne.symm, disk_writeDisk_self,
          Block.word_setWord hindex]
      obtain ⟨free', hfreeEq, hchain'⟩ := hchain.takeSlot s'.words hne hfree.nodup hlt
        hused (by rw [hheadWords, if_pos rfl])
        (fun i hi => by rw [hheadWords, if_neg hi])
        (fun a _ hane hab i => by
          rw [hb] at hab
          simp only [s', FileSystem.words, disk_writeDisk_ne hab, disk_writeDisk_ne hane])
      rw [hb] at hfreeEq
      refine ⟨b, free', s', allocateDataBlock_slot head hheadEq hhead hslot hb (hfree.data b hbmem),
        hfreeEq, ?_, disk_writeDisk_self,
        (DataFrame.writeDisk hmem).trans (DataFrame.writeDisk hbmem)⟩
      subst hfreeEq
      exact hfree.of_cons (by rw [← hheadEq] at hchain'; exact hchain')
  | none =>
      let s' := (((s.setFreelistHead ((s.disk head).word 0)).writeDisk 0
        (s.setFreelistHead ((s.disk head).word 0)).superblock.encode).writeDisk head
          ((s.disk head).setWord 0 0)).writeDisk head Block.zero
      obtain ⟨free', hfreeEq, hchain'⟩ := hchain.takeHead s'.words hne hfree.nodup
        (fun i hi => by simpa [FileSystem.words] using firstSlot_eq_none hslot i hi)
        (fun a ha hane i => by
          simp only [s', FileSystem.words, disk_writeDisk_ne hane,
            disk_writeDisk_ne (hfree.data a ha).ne_zero, disk_setFreelistHead])
      refine ⟨head, free', s', allocateDataBlock_head head hheadEq hhead hslot, hfreeEq, ?_,
        disk_writeDisk_self,
        ((DataFrame.setHead _ _).trans (DataFrame.writeDisk hmem)).trans
          (DataFrame.writeDisk hmem)⟩
      subst hfreeEq
      exact hfree.of_cons hchain'

/-! ## Freeing -/

theorem freeDataBlock_slot {s : FileSystem} {head b : Int64} {i : Nat}
    (hhead : s.superblock.sFreelistHead = head) (hdata : DataBlock head) (hb : DataBlock b)
    (hslot : firstSlot (· = 0) (s.disk head) = some i) :
    freeDataBlock b s = some (true, s.writeDisk head ((s.disk head).setWord i b)) := by
  have hrestart : restartFreelist b s = some (true, s) := by
    simp [restartFreelist, hhead, hdata.ne_zero]
  simp only [freeDataBlock, hb.isInvalidDataBlock, Bool.false_eq_true, if_false,
    Prog.bind_of_eq hrestart, Bool.not_true, Prog.get_bind_apply, hhead,
    Prog.bind_of_eq (altfsReadBlock_run hdata.inRange), hslot,
    altfsWriteBlock_run hdata.inRange]

theorem freeDataBlock_push {s : FileSystem} {head b : Int64}
    (hhead : s.superblock.sFreelistHead = head) (hdata : DataBlock head) (hb : DataBlock b)
    (hslot : firstSlot (· = 0) (s.disk head) = none) :
    freeDataBlock b s =
      some (true, ((s.setFreelistHead b).writeDisk 0
        (s.setFreelistHead b).superblock.encode).writeDisk b (Block.zero.setWord 0 head)) := by
  have hrestart : restartFreelist b s = some (true, s) := by
    simp [restartFreelist, hhead, hdata.ne_zero]
  simp only [freeDataBlock, hb.isInvalidDataBlock, Bool.false_eq_true, if_false,
    Prog.bind_of_eq hrestart, Bool.not_true, Prog.get_bind_apply, hhead,
    Prog.bind_of_eq (altfsReadBlock_run hdata.inRange), hslot, Prog.modify_bind_apply,
    Prog.bind_of_eq (altfsWriteSuperblock_run hdata.zero_inRange),
    altfsWriteBlock_run hb.inRange]

/-- Whatever the list looks like, a free changes only its head and the freed block. -/
theorem freeDataBlock_total {s : FileSystem} {b : Int64}
    (hhead : s.superblock.sFreelistHead = 0 ∨ DataBlock s.superblock.sFreelistHead)
    (hb : DataBlock b) :
    ∃ s', freeDataBlock b s = some (true, s') ∧ DataBlock s'.superblock.sFreelistHead ∧
      (s'.superblock.sFreelistHead = s.superblock.sFreelistHead ∨
        s'.superblock.sFreelistHead = b) ∧
      ∀ a, a ≠ 0 → a ≠ s.superblock.sFreelistHead → a ≠ b → s'.disk a = s.disk a := by
  have hlist : ∀ s : FileSystem, DataBlock s.superblock.sFreelistHead →
      ∃ s', freeDataBlock b s = some (true, s') ∧ DataBlock s'.superblock.sFreelistHead ∧
        (s'.superblock.sFreelistHead = s.superblock.sFreelistHead ∨
          s'.superblock.sFreelistHead = b) ∧
        ∀ a, a ≠ 0 → a ≠ s.superblock.sFreelistHead → a ≠ b → s'.disk a = s.disk a := by
    intro s hhead
    cases hslot : firstSlot (· = 0) (s.disk s.superblock.sFreelistHead) with
    | some i =>
        exact ⟨_, freeDataBlock_slot rfl hhead hb hslot, hhead, .inl rfl,
          fun a _ ha _ => disk_writeDisk_ne ha⟩
    | none =>
        refine ⟨_, freeDataBlock_push rfl hhead hb hslot, hb, .inr rfl, fun a hzero _ ha => ?_⟩
        rw [disk_writeDisk_ne ha, disk_writeDisk_ne hzero, disk_setFreelistHead]
  cases hhead with
  | inr hhead => exact hlist s hhead
  | inl hhead =>
      obtain ⟨s', hrun, hhead', hmem, hdisk⟩ :=
        hlist ((s.setFreelistHead b).writeDisk 0 (s.setFreelistHead b).superblock.encode) hb
      refine ⟨s', ?_, hhead', .inr (or_self_iff.mp hmem), fun a hzero _ ha => ?_⟩
      · rw [← hrun]
        simp only [freeDataBlock, hb.isInvalidDataBlock, Bool.false_eq_true, if_false,
          restartFreelist, Prog.bind_apply, Prog.get_apply, Prog.modify_apply, hhead, ne_eq,
          not_true_eq_false, altfsWriteSuperblock_run hb.zero_inRange, superblock_writeDisk,
          head_setFreelistHead, hb.ne_zero, not_false_eq_true, if_true, Prog.pure_apply]
      · rw [hdisk a hzero ha ha, disk_writeDisk_ne hzero, disk_setFreelistHead]

/-- On a non-empty list a freed block joins the free blocks. -/
theorem freeDataBlock_spec {s : FileSystem} {free : Multiset Int64} {b : Int64}
    (hfree : FreeList s free) (hne : s.superblock.sFreelistHead ≠ 0)
    (hb : DataBlock b) (hnew : b ∉ free) :
    ∃ s', freeDataBlock b s = some (true, s') ∧ FreeList s' (b ::ₘ free) ∧
      s'.superblock.sFreelistHead ≠ 0 ∧ DataFrame (b ::ₘ free) s s' := by
  have hmem := hfree.head_mem hne
  have hhead := hfree.data _ hmem
  have hchain := hfree.chain
  have hnodup : (b ::ₘ free).Nodup := Multiset.nodup_cons.mpr ⟨hnew, hfree.nodup⟩
  have hdata : ∀ a ∈ b ::ₘ free, DataBlock a := by
    intro a ha
    rcases Multiset.mem_cons.mp ha with rfl | ha
    · exact hb
    · exact hfree.data a ha
  obtain ⟨head, hheadEq⟩ : ∃ head, s.superblock.sFreelistHead = head := ⟨_, rfl⟩
  rw [hheadEq] at hne hmem hhead hchain
  cases hslot : firstSlot (· = 0) (s.disk head) with
  | some i =>
      obtain ⟨hunused, hindex, slot, hlt, rfl⟩ := firstSlot_eq_some hslot
      let s' := s.writeDisk head ((s.disk head).setWord (slot + 1) b)
      have hheadWords : ∀ i, s'.words head i =
          if i = slot + 1 then b else s.words head i := by
        intro i
        simp only [s', FileSystem.words, disk_writeDisk_self, Block.word_setWord hindex]
      have hchain' := hchain.putSlot s'.words hne hfree.nodup hlt
        hb.ne_zero (by simpa [FileSystem.words] using hunused)
        (by rw [hheadWords, if_pos rfl])
        (fun i hi => by rw [hheadWords, if_neg hi])
        (fun a _ hane i => by simp only [s', FileSystem.words, disk_writeDisk_ne hane])
      have hhead' : s'.superblock.sFreelistHead = head := hheadEq
      refine ⟨s', freeDataBlock_slot hheadEq hhead hb hslot, ⟨?_, hnodup, hdata⟩,
        by rw [hhead']; exact hne, DataFrame.writeDisk (Multiset.mem_cons_of_mem hmem)⟩
      rw [hhead']
      exact hchain'
  | none =>
      let s' := ((s.setFreelistHead b).writeDisk 0
        (s.setFreelistHead b).superblock.encode).writeDisk b (Block.zero.setWord 0 head)
      have hwords : ∀ i, s'.words b i = if i = 0 then head else 0 := by
        intro i
        simp only [s', FileSystem.words, disk_writeDisk_self,
          Block.word_setWord (show 0 < numOfAddressesPerBlock by decide), Block.word_zero]
      have hchain' := hchain.pushHead s'.words hb.ne_zero
        (by rw [hwords, if_pos rfl])
        (fun i _ => by rw [hwords, if_neg (by omega)])
        (fun a ha i => by
          have hane : a ≠ b := by
            rintro rfl
            exact hnew ha
          simp only [s', FileSystem.words, disk_writeDisk_ne hane,
            disk_writeDisk_ne (hfree.data a ha).ne_zero, disk_setFreelistHead])
      exact ⟨s', freeDataBlock_push hheadEq hhead hb hslot, ⟨hchain', hnodup, hdata⟩,
        hb.ne_zero,
        (DataFrame.setHead _ _).trans (DataFrame.writeDisk (Multiset.mem_cons_self _ _))⟩

end AltFs
