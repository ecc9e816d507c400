import AltFs.FreshFreelist
import AltFs.Release
import AltFs.Lib.Runs

/-!
# Clients of the allocator

A client allocates blocks, and frees and overwrites blocks it holds.  The
blocks it holds and the free blocks stay disjoint as long as it frees nothing
while the free list is empty: `free_data_block` then makes the freed block the
head of the list and also stores it in one of its own slots.
-/

namespace AltFs

inductive AllocatorCall where
  | allocate
  | free (index : Int64)
  | write (index : Int64) (buffer : Block)

structure AllocatorClient where
  fs : FileSystem
  held : Finset Int64

section

variable [Config]

/-- One call of the client; it frees and writes only what it holds. -/
inductive ClientStep : AllocatorClient → AllocatorCall → AllocatorClient → Prop
  | allocated {c : AllocatorClient} {b : Int64} {s' : FileSystem}
      (hrun : allocateDataBlock c.fs = some (b, s')) (hb : b ≠ -1) :
      ClientStep c .allocate ⟨s', insert b c.held⟩
  | exhausted {c : AllocatorClient} {s' : FileSystem}
      (hrun : allocateDataBlock c.fs = some (-1, s')) :
      ClientStep c .allocate ⟨s', c.held⟩
  | freed {c : AllocatorClient} {b : Int64} {s' : FileSystem} (hheld : b ∈ c.held)
      (hrun : freeDataBlock b c.fs = some (true, s')) :
      ClientStep c (.free b) ⟨s', c.held.erase b⟩
  | freeFailed {c : AllocatorClient} {b : Int64} {s' : FileSystem} (hheld : b ∈ c.held)
      (hrun : freeDataBlock b c.fs = some (false, s')) :
      ClientStep c (.free b) ⟨s', c.held⟩
  | wrote {c : AllocatorClient} {b : Int64} {buffer : Block} {ok : Bool} {s' : FileSystem}
      (hheld : b ∈ c.held) (hrun : writeDataBlock b buffer c.fs = some (ok, s')) :
      ClientStep c (.write b buffer) ⟨s', c.held⟩

/-- The next successful allocation returns a data block that is not held. -/
def AllocatesUnheld (c : AllocatorClient) : Prop :=
  ∀ b s', allocateDataBlock c.fs = some (b, s') → b ≠ -1 → DataBlock b ∧ b ∉ c.held

/-- Blocks are freed only while the free list is not empty. -/
def FreesOntoList (c : AllocatorClient) : AllocatorCall → Prop
  | .free _ => c.fs.superblock.sFreelistHead ≠ 0
  | _ => True

/-- Free and held blocks are data blocks, and no block is both or free twice. -/
structure ClientInv (c : AllocatorClient) (free : Multiset Int64) : Prop where
  freeList : FreeList c.fs free
  held : ∀ b ∈ c.held, DataBlock b ∧ b ∉ free

namespace ClientInv

variable {c c' : AllocatorClient} {free : Multiset Int64}

private theorem allocateDataBlock_cases {b : Int64} {s' : FileSystem}
    (h : ClientInv c free) (hrun : allocateDataBlock c.fs = some (b, s')) :
    (b = -1 ∧ s' = c.fs) ∨
      ∃ free', free = b ::ₘ free' ∧ FreeList s' free' := by
  by_cases hhead : c.fs.superblock.sFreelistHead = 0
  · rw [allocateDataBlock_empty hhead] at hrun
    obtain ⟨rfl, rfl⟩ : -1 = b ∧ c.fs = s' := by simpa using hrun
    exact .inl ⟨rfl, rfl⟩
  · obtain ⟨b', free', t, hrun', hfree, hlist, -⟩ := allocateDataBlock_spec h.freeList hhead
    obtain ⟨rfl, rfl⟩ : b' = b ∧ t = s' := by simpa [hrun'] using hrun
    exact .inr ⟨free', hfree, hlist⟩

theorem allocatesUnheld (h : ClientInv c free) : AllocatesUnheld c := by
  intro b s' hrun hb
  rcases h.allocateDataBlock_cases hrun with ⟨rfl, -⟩ | ⟨free', rfl, -⟩
  · exact absurd rfl hb
  · have hmem := Multiset.mem_cons_self b free'
    exact ⟨h.freeList.data b hmem, fun hheld => (h.held b hheld).2 hmem⟩

/-- Every call but a free onto the empty list keeps the invariant. -/
theorem step {call : AllocatorCall} (h : ClientInv c free) (hallowed : FreesOntoList c call)
    (hstep : ClientStep c call c') : ∃ free', ClientInv c' free' := by
  cases hstep with
  | @allocated b s' hrun hb =>
      rcases h.allocateDataBlock_cases hrun with ⟨rfl, -⟩ | ⟨free', rfl, hlist⟩
      · exact absurd rfl hb
      · refine ⟨free', hlist, fun a ha => ?_⟩
        have hnodup := Multiset.nodup_cons.mp h.freeList.nodup
        rcases Finset.mem_insert.mp ha with rfl | ha
        · exact ⟨h.freeList.data a (Multiset.mem_cons_self _ _), hnodup.1⟩
        · exact ⟨(h.held a ha).1, fun hmem => (h.held a ha).2 (Multiset.mem_cons_of_mem hmem)⟩
  | exhausted hrun =>
      rcases h.allocateDataBlock_cases hrun with ⟨-, rfl⟩ | ⟨free', rfl, -⟩
      · exact ⟨free, h⟩
      · exact absurd rfl (h.freeList.data (-1) (Multiset.mem_cons_self _ _)).ne_neg_one
  | @freed b s' hheld hrun =>
      obtain ⟨hdata, hfresh⟩ := h.held b hheld
      obtain ⟨t, hrun', hlist, -⟩ := freeDataBlock_spec h.freeList hallowed hdata hfresh
      obtain rfl : t = s' := by simpa [hrun'] using hrun
      refine ⟨b ::ₘ free, hlist, fun a ha => ?_⟩
      obtain ⟨hne, ha⟩ := Finset.mem_erase.mp ha
      refine ⟨(h.held a ha).1, fun hmem => ?_⟩
      rcases Multiset.mem_cons.mp hmem with rfl | hmem
      · exact hne rfl
      · exact (h.held a ha).2 hmem
  | @freeFailed b s' hheld hrun =>
      obtain ⟨hdata, hfresh⟩ := h.held b hheld
      obtain ⟨t, hrun', -⟩ := freeDataBlock_spec h.freeList hallowed hdata hfresh
      simp [hrun'] at hrun
  | @wrote b buffer ok s' hheld hrun =>
      obtain ⟨hdata, hfresh⟩ := h.held b hheld
      rw [writeDataBlock_run hdata] at hrun
      obtain rfl : c.fs.writeDisk b buffer = s' := by simpa using (And.right (by simpa using hrun))
      refine ⟨free, h.freeList.frame rfl fun a ha => ?_, h.held⟩
      refine disk_writeDisk_ne ?_
      rintro rfl
      exact hfresh ha

end ClientInv

variable {s s₀ : FileSystem}

/--
From a fresh free list the allocator never hands out a held block, in any run
that frees only while the free list is not empty.
-/
theorem allocateDataBlock_unheld (hhead : FreelistHeadSet s₀) (hpos : 1 ≤ numOfDataBlocks)
    (hfresh : altfsCreateFreelist s₀ = some (true, s)) {c : AllocatorClient}
    (hrun : Run ClientStep FreesOntoList ⟨s, ∅⟩ c) : AllocatesUnheld c := by
  obtain ⟨free, hinv⟩ : ∃ free, ClientInv c free := by
    refine hrun.invariant (I := fun c => ∃ free, ClientInv c free) ?_ ?_
    · have hrest : numOfDataBlocks % numOfAddressesPerBlock ≠ 0 := by
        intro hrest
        obtain ⟨t, hfail⟩ := altfsCreateFreelist_fails hhead (by omega) hrest
        simp [hfail] at hfresh
      obtain ⟨t, free, hrun', hfull, -⟩ := altfsCreateFreelist_spec hhead hpos hrest
      obtain rfl : t = s := by simpa [hrun'] using hfresh
      exact ⟨free, hfull.toFreeList, by simp⟩
    · rintro c call c' ⟨free, hinv⟩ hallowed hstep
      exact hinv.step hallowed hstep
  exact hinv.allocatesUnheld

/-! ## Freeing and allocating again -/

/--
Distinct data blocks freed onto a non-empty list all join it; the allocations
after that return each block of the list once, cleared, and then -1.  No call
writes any other block but block 0.
-/
theorem freed_reallocated {free : Multiset Int64} {bs : List Int64} (hfree : FreeList s free)
    (hhead : s.superblock.sFreelistHead ≠ 0) (hdistinct : bs.Nodup)
    (hdata : ∀ b ∈ bs, DataBlock b ∧ b ∉ free) :
    (∀ count ≤ bs.length, ∃ s', freeAll (bs.take count) s = some (true, s') ∧
      DataFrame ((bs : Multiset Int64) + free) s s') ∧
    ∃ s₁, freeAll bs s = some (true, s₁) ∧
      ∃ blocks : List Int64, (blocks : Multiset Int64) = (bs : Multiset Int64) + free ∧
        ∀ count ≤ blocks.length, ∃ s₂,
          allocateAll count s₁ =
            some ((blocks.take count).map fun b => (b, some Block.zero), s₂) ∧
          DataFrame ((bs : Multiset Int64) + free) s₁ s₂ ∧
          (count = blocks.length → allocateDataBlock s₂ = some (-1, s₂)) := by
  have hne : free ≠ 0 := fun hzero => hhead (hfree.head_eq_zero_iff.mpr hzero)
  have hall : ∀ taken : List Int64, taken.Nodup → (∀ b ∈ taken, b ∈ bs) →
      ∃ s', freeAll taken s = some (true, s') ∧ FreeList s' ((taken : Multiset Int64) + free) ∧
        DataFrame ((taken : Multiset Int64) + free) s s' := by
    intro taken hnodup hsub
    have howned : Owned s free ((taken : Multiset Int64) + 0) := by
      rw [add_zero]
      refine ⟨hfree, Multiset.nodup_add.mpr ⟨hfree.nodup, Multiset.coe_nodup.mpr hnodup, ?_⟩,
        fun b hb => (hdata b (hsub b (Multiset.mem_coe.mp hb))).1⟩
      rw [Multiset.disjoint_right]
      exact fun hb => (hdata _ (hsub _ (Multiset.mem_coe.mp hb))).2
    obtain ⟨s', hrun, howned', hframe⟩ := howned.releaseAll hne
    exact ⟨s', hrun, howned'.freeList, hframe⟩
  constructor
  · intro count _
    obtain ⟨s', hrun, -, hframe⟩ := hall (bs.take count)
      (hdistinct.sublist (List.take_sublist _ _)) fun b hb => List.mem_of_mem_take hb
    refine ⟨s', hrun, hframe.mono fun a ha => ?_⟩
    rcases Multiset.mem_add.mp ha with ha | ha
    · exact Multiset.mem_add.mpr (.inl (List.mem_of_mem_take ha))
    · exact Multiset.mem_add.mpr (.inr ha)
  · obtain ⟨s₁, hrun, hlist, -⟩ := hall bs hdistinct fun b hb => hb
    exact ⟨s₁, hrun, allocateAll_spec hlist⟩

/-! ## Freeing onto the empty list -/

/-- A zeroed block freed onto the empty list becomes the head and its own first slot. -/
private theorem freeDataBlock_restart {b : Int64} (hhead : s.superblock.sFreelistHead = 0)
    (hb : DataBlock b) (hzero : s.disk b = Block.zero) :
    freeDataBlock b s =
      some (true, ((s.setFreelistHead b).writeDisk 0
        (s.setFreelistHead b).superblock.encode).writeDisk b (Block.zero.setWord 1 b)) := by
  have hslot : firstSlot (· = 0) Block.zero = some 1 := firstSlot_of_first (by simp)
  have hrestart : restartFreelist b s =
      some (true, (s.setFreelistHead b).writeDisk 0 (s.setFreelistHead b).superblock.encode) := by
    simp only [restartFreelist, Prog.get_bind_apply, hhead, ne_eq, not_true_eq_false, if_false,
      Prog.modify_bind_apply, altfsWriteSuperblock_run hb.zero_inRange]
  simp only [freeDataBlock, hb.isInvalidDataBlock, Bool.false_eq_true, if_false,
    Prog.bind_of_eq hrestart, Bool.not_true, Prog.get_bind_apply, superblock_writeDisk,
    head_setFreelistHead, Prog.bind_of_eq (altfsReadBlock_run hb.inRange),
    disk_writeDisk_ne hb.ne_zero, disk_setFreelistHead, hzero, hslot,
    altfsWriteBlock_run hb.inRange]

/-- Such a block is handed out twice in a row. -/
theorem freeDataBlock_onto_empty {b : Int64} (hhead : s.superblock.sFreelistHead = 0)
    (hb : DataBlock b) (hzero : s.disk b = Block.zero) :
    ∃ s₁ s₂ s₃, freeDataBlock b s = some (true, s₁) ∧
      allocateDataBlock s₁ = some (b, s₂) ∧ allocateDataBlock s₂ = some (b, s₃) := by
  have hone : firstSlot (· ≠ 0) (Block.zero.setWord 1 b) = some 1 := by
    refine firstSlot_of_first ?_
    rw [Block.word_setWord_self (by decide)]
    simpa using hb.ne_zero
  refine ⟨_, _, _, freeDataBlock_restart hhead hb hzero,
    allocateDataBlock_slot b rfl hb (by rw [disk_writeDisk_self]; exact hone)
      (by rw [disk_writeDisk_self, Block.word_setWord_self (by decide)]) hb,
    allocateDataBlock_head b rfl hb ?_⟩
  rw [disk_writeDisk_self]
  exact firstSlot_zero_eq_none

end

/-! ## A device with a single data block -/

private theorem oneDataBlock {b : Int64} :
    letI := Config.ofBlocks 2 (by decide)
    DataBlock b ↔ b = 1 := by
  let _ := Config.ofBlocks 2 (by decide)
  have hlow : inodeBlockCount = 0 := by decide
  have hhigh : blockCount = 2 := by decide
  rw [DataBlock, hlow, hhigh]
  constructor
  · intro h
    have hb : b.toInt = (1 : Int64).toInt := by
      simp only [Int64.toInt_one]
      omega
    exact Int64.toInt_inj.mp hb
  · rintro rfl
    decide

/-- Freshly formatted, the device hands out block 1 and is then full. -/
private theorem oneDataBlock_allocate :
    letI := Config.ofBlocks 2 (by decide)
    ∃ s s', altfsCreateFreelist FileSystem.beforeFreelist = some (true, s) ∧
      allocateDataBlock s = some (1, s') ∧ s'.superblock.sFreelistHead = 0 ∧
      s'.disk 1 = Block.zero := by
  let _ := Config.ofBlocks 2 (by decide)
  obtain ⟨s, free, hcreate, hfull, -⟩ :=
    altfsCreateFreelist_spec freelistHeadSet_beforeFreelist (by decide) (by decide)
  have hone : (1 : Int64) ∈ free := hfull.full 1 (oneDataBlock.mpr rfl)
  have hhead : s.superblock.sFreelistHead ≠ 0 := by
    rw [Ne, hfull.head_eq_zero_iff]
    rintro rfl
    simp at hone
  obtain ⟨b, free', s', halloc, rfl, hlist, hzero, -⟩ :=
    allocateDataBlock_spec hfull.toFreeList hhead
  obtain rfl := oneDataBlock.mp (hfull.data b (Multiset.mem_cons_self _ _))
  have hempty : free' = 0 := by
    refine Multiset.eq_zero_of_forall_notMem fun a ha => ?_
    obtain rfl := oneDataBlock.mp (hlist.data a ha)
    exact (Multiset.nodup_cons.mp hfull.nodup).1 ha
  exact ⟨s, s', hcreate, halloc, hlist.head_eq_zero_iff.mpr hempty, hzero⟩

/-- A list that is not empty has a block to hand out. -/
private theorem FreeList.exists_allocate [Config] {s : FileSystem} {free : Multiset Int64}
    (h : FreeList s free) (hpos : 0 < free.card) :
    ∃ b free' s', allocateDataBlock s = some (b, s') ∧ b ≠ -1 ∧ free = b ::ₘ free' ∧
      FreeList s' free' := by
  have hhead : s.superblock.sFreelistHead ≠ 0 := by
    rw [Ne, h.head_eq_zero_iff]
    exact Multiset.card_pos.mp hpos
  obtain ⟨b, free', s', halloc, hfree, hlist, -⟩ := allocateDataBlock_spec h hhead
  refine ⟨b, free', s', halloc, ?_, hfree, hlist⟩
  exact (h.data b (by rw [hfree]; exact Multiset.mem_cons_self _ _)).ne_neg_one

/-- On a device with 519 blocks the first block is allocated, freed and found again. -/
theorem freed_reallocated_one :
    letI := Config.ofBlocks 519 (by decide)
    ∃ s b s₁, ∃ blocks : List Int64, freeAll [b] s = some (true, s₁) ∧ b ∈ blocks ∧ ∃ s₂,
      allocateAll blocks.length s₁ =
        some (blocks.map fun b => (b, some Block.zero), s₂) ∧
      allocateDataBlock s₂ = some (-1, s₂) := by
  let _ := Config.ofBlocks 519 (by decide)
  obtain ⟨s₀, free₀, -, hfull, -⟩ :=
    altfsCreateFreelist_spec freelistHeadSet_beforeFreelist (by decide) (by decide)
  have hhead₀ : s₀.superblock.sFreelistHead ≠ 0 := by
    rw [hfull.head]
    decide
  obtain ⟨b, free, s, -, rfl, hlist, -⟩ := allocateDataBlock_spec hfull.toFreeList hhead₀
  have hhead : s.superblock.sFreelistHead ≠ 0 := by
    rw [Ne, hlist.head_eq_zero_iff]
    rintro rfl
    have h8 := hfull.full 8 ⟨by decide, by decide⟩
    have h9 := hfull.full 9 ⟨by decide, by decide⟩
    simp only [Multiset.cons_zero, Multiset.mem_singleton] at h8 h9
    rw [← h9] at h8
    exact absurd h8 (by decide)
  obtain ⟨-, s₁, hfreed, blocks, hblocks, hall⟩ := freed_reallocated hlist hhead
    (List.nodup_singleton b) fun a ha => by
      obtain rfl := List.mem_singleton.mp ha
      exact ⟨hfull.data a (Multiset.mem_cons_self _ _),
        (Multiset.nodup_cons.mp hfull.nodup).1⟩
  obtain ⟨s₂, hrun, -, hlast⟩ := hall blocks.length le_rfl
  rw [List.take_length] at hrun
  refine ⟨s, b, s₁, blocks, hfreed, ?_, s₂, hrun, hlast rfl⟩
  rw [← Multiset.mem_coe, hblocks]
  simp

/-- With three data blocks, two are allocated, the first one is freed and one more allocated. -/
theorem allocateDataBlock_unheld_reused :
    letI := Config.ofBlocks 4 (by decide)
    ∃ s a b c s₁ s₂ s₃ s₄, altfsCreateFreelist FileSystem.beforeFreelist = some (true, s) ∧
      allocateDataBlock s = some (a, s₁) ∧ allocateDataBlock s₁ = some (b, s₂) ∧
      freeDataBlock a s₂ = some (true, s₃) ∧ allocateDataBlock s₃ = some (c, s₄) ∧
      a ≠ -1 ∧ b ≠ -1 ∧ c ≠ -1 ∧
      AllocatesUnheld ⟨s₄, insert c (({b, a} : Finset Int64).erase a)⟩ := by
  let _ := Config.ofBlocks 4 (by decide)
  obtain ⟨s, free, hcreate, hfull, -⟩ :=
    altfsCreateFreelist_spec freelistHeadSet_beforeFreelist (by decide) (by decide)
  have hcard := hfull.card (by decide)
  have hdata : numOfDataBlocks = 3 := by decide
  obtain ⟨a, free₁, s₁, halloc, ha, rfl, hlist₁⟩ := hfull.toFreeList.exists_allocate (by omega)
  rw [Multiset.card_cons] at hcard
  obtain ⟨b, free₂, s₂, halloc₁, hb, rfl, hlist₂⟩ := hlist₁.exists_allocate (by omega)
  rw [Multiset.card_cons] at hcard
  have hfresh : a ∉ free₂ := fun hmem =>
    (Multiset.nodup_cons.mp hfull.nodup).1 (Multiset.mem_cons_of_mem hmem)
  have hhead : s₂.superblock.sFreelistHead ≠ 0 := by
    rw [Ne, hlist₂.head_eq_zero_iff, ← Multiset.card_eq_zero]
    omega
  obtain ⟨s₃, hfree, hlist₃, -⟩ :=
    freeDataBlock_spec hlist₂ hhead (hfull.data a (Multiset.mem_cons_self _ _)) hfresh
  obtain ⟨c, free₄, s₄, halloc₃, hc, -, -⟩ := hlist₃.exists_allocate (by simp)
  refine ⟨s, a, b, c, s₁, s₂, s₃, s₄, hcreate, halloc, halloc₁, hfree, halloc₃, ha, hb, hc, ?_⟩
  apply allocateDataBlock_unheld freelistHeadSet_beforeFreelist (by decide) hcreate
  refine .tail .allocate (.tail (.free a) (.tail .allocate (.tail .allocate .refl trivial
    (.allocated halloc ha)) trivial (.allocated halloc₁ hb)) hhead (.freed ?_ hfree)) trivial
    (.allocated halloc₃ hc)
  simp

/--
The client allocates the only block, frees it and allocates it again: the next
allocation returns the block it holds.
-/
theorem allocateDataBlock_held :
    letI := Config.ofBlocks 2 (by decide)
    ∃ s c, altfsCreateFreelist FileSystem.beforeFreelist = some (true, s) ∧
      Run ClientStep (fun _ _ => True) ⟨s, ∅⟩ c ∧ ¬AllocatesUnheld c := by
  let _ := Config.ofBlocks 2 (by decide)
  obtain ⟨s, s', hcreate, halloc, hhead, hzero⟩ := oneDataBlock_allocate
  obtain ⟨s₁, s₂, s₃, hfree, hfirst, hsecond⟩ :=
    freeDataBlock_onto_empty hhead (oneDataBlock.mpr rfl) hzero
  refine ⟨s, ⟨s₂, {1}⟩, hcreate, ?_, ?_⟩
  · refine .tail .allocate (.tail (.free 1) (.tail .allocate .refl trivial
      (.allocated halloc (by decide))) trivial (.freed (by simp) hfree)) trivial ?_
    exact .allocated hfirst (by decide)
  · intro h
    exact (h 1 s₃ hsecond (by decide)).2 (by simp)

end AltFs
