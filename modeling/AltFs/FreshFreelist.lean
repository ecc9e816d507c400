import Mathlib.Data.Int.Interval
import AltFs.FreeList

/-!
# The free list that formatting creates

`altfs_create_freelist` writes `NUM_OF_FREE_LIST_BLOCKS` list blocks, every
512th data block from the first on.  The count is one too many exactly when
512 divides the number of data blocks: the last list block then lies past the
end of the device.
-/

namespace AltFs

/-- The state in which `s_freelist_head` names the first data block. -/
def FreelistHeadSet [Config] (s : FileSystem) : Prop :=
  s.superblock.sFreelistHead = Int64.ofInt (inodeBlockCount + 1)

section

variable [Config]

theorem word_fillSlots {count slot index : Nat} {blocknum : Int} {buffer : Block}
    (hfit : slot + count ≤ numOfAddressesPerBlock) :
    (fillSlots count slot blocknum buffer).word index =
      if slot ≤ index ∧ index < slot + count
      then freelistAddress (blocknum + (index - slot : Nat) + 1)
      else buffer.word index := by
  induction count generalizing slot blocknum buffer with
  | zero => rw [fillSlots, if_neg (by omega)]
  | succ count ih =>
      rw [fillSlots, ih (by omega), Block.word_setWord (by omega)]
      by_cases hself : index = slot
      · subst hself
        rw [if_neg (by omega), if_pos rfl, if_pos (by omega)]
        simp
      · by_cases hin : slot + 1 ≤ index ∧ index < slot + 1 + count
        · rw [if_pos hin, if_pos (by omega)]
          congr 1
          omega
        · rw [if_neg hin, if_neg hself, if_neg (by omega)]

theorem word_freelistBlock {blocknum : Int} {index : Nat}
    (hindex : index < numOfAddressesPerBlock) :
    (freelistBlock blocknum).word index =
      freelistAddress (blocknum + if index = 0 then numOfAddressesPerBlock else index) := by
  rw [freelistBlock, Block.word_setWord (by decide)]
  by_cases hzero : index = 0
  · rw [if_pos hzero, if_pos hzero]
  · rw [if_neg hzero, if_neg hzero, word_fillSlots (by decide), if_pos (by omega)]
    congr 1
    omega

theorem toInt_ofInt_of_inRange {x : Int} (hlow : 0 ≤ x) (hhigh : x ≤ blockCount) :
    (Int64.ofInt x).toInt = x := by
  have := blockCount_lt
  exact Int64.toInt_ofInt_of_le (by omega) (by omega)

theorem inRange_ofInt {x : Int} (hlow : 0 ≤ x) (hhigh : x < blockCount) :
    InRange (Int64.ofInt x) := by
  rw [InRange, toInt_ofInt_of_inRange hlow (by omega)]
  exact ⟨hlow, hhigh⟩

theorem ofInt_inj_of_inRange {x y : Int} (hx : 0 ≤ x) (hx' : x ≤ blockCount)
    (hy : 0 ≤ y) (hy' : y ≤ blockCount) (h : Int64.ofInt x = Int64.ofInt y) : x = y := by
  rw [← toInt_ofInt_of_inRange hx hx', h, toInt_ofInt_of_inRange hy hy']

theorem freelistAddress_of_lt {x : Int} (h : x < blockCount) :
    freelistAddress x = Int64.ofInt x := by
  simp [freelistAddress, h]

theorem freelistAddress_of_ge {x : Int} (h : blockCount ≤ x) : freelistAddress x = 0 := by
  simp [freelistAddress, h]

theorem freelistAddress_ne_zero {x : Int} (hpos : 0 < x) :
    freelistAddress x ≠ 0 ↔ x < blockCount := by
  constructor
  · intro h
    by_contra hge
    exact h (freelistAddress_of_ge (by omega))
  · intro h heq
    rw [freelistAddress_of_lt h] at heq
    have hx := toInt_ofInt_of_inRange (x := x) (by omega) (by omega)
    rw [heq] at hx
    exact absurd hx (by simp only [Int64.toInt_zero]; omega)

/-! ## Writing the list blocks -/

private theorem createFreelistFrom_succ {count : Nat} {blocknum : Int} {s : FileSystem}
    (h : InRange (Int64.ofInt blocknum)) :
    createFreelistFrom (count + 1) blocknum s =
      createFreelistFrom count (blocknum + numOfAddressesPerBlock)
        (s.writeDisk (Int64.ofInt blocknum) (freelistBlock blocknum)) := by
  simp only [createFreelistFrom, Prog.bind_of_eq (altfsWriteBlock_run h), if_true]

/-- When all list blocks are in range they are all written, and nothing else is. -/
theorem createFreelistFrom_run (count : Nat) (blocknum : Int) (s : FileSystem)
    (hlow : 0 ≤ blocknum)
    (hhigh : ∀ k < count, blocknum + numOfAddressesPerBlock * k < blockCount) :
    ∃ s', createFreelistFrom count blocknum s = some (true, s') ∧
      s'.superblock = s.superblock ∧ s'.cache = s.cache ∧
      (∀ k < count, s'.disk (Int64.ofInt (blocknum + numOfAddressesPerBlock * k)) =
        freelistBlock (blocknum + numOfAddressesPerBlock * k)) ∧
      (∀ b : Int64, b.toInt < blocknum → s'.disk b = s.disk b) := by
  induction count generalizing blocknum s with
  | zero => exact ⟨s, rfl, rfl, rfl, fun k hk => absurd hk (by omega), fun _ _ => rfl⟩
  | succ count ih =>
      have hfirst := hhigh 0 (by omega)
      simp only [numOfAddressesPerBlock] at hhigh hfirst ih ⊢
      have hrange := inRange_ofInt hlow (by omega)
      have hself := toInt_ofInt_of_inRange (x := blocknum) hlow (by omega)
      obtain ⟨s', hrun, hsuper, hcache, hblocks, hframe⟩ :=
        ih (blocknum + 512) (s.writeDisk (Int64.ofInt blocknum) (freelistBlock blocknum))
          (by omega)
          (fun k hk => by have := hhigh (k + 1) (by omega); omega)
      refine ⟨s', by rw [createFreelistFrom_succ hrange]; exact hrun, hsuper, hcache,
        fun k hk => ?_, fun b hb => ?_⟩
      · cases k with
        | zero =>
            simp only [mul_zero, add_zero, Nat.cast_zero]
            rw [hframe _ (by omega), disk_writeDisk_self]
        | succ k =>
            have := hblocks k (by omega)
            rw [show blocknum + 512 + ((512 : Nat) : Int) * k =
              blocknum + ((512 : Nat) : Int) * ((k + 1 : Nat) : Int) by omega] at this
            exact this
      · rw [hframe b (by omega), disk_writeDisk_ne]
        rintro rfl
        omega

/-- The write of a list block past the end of the device fails. -/
theorem createFreelistFrom_fails (count : Nat) (blocknum : Int) (s : FileSystem)
    (hlow : 0 ≤ blocknum)
    (hhigh : ∀ k < count, blocknum + numOfAddressesPerBlock * k < blockCount)
    (hend : blocknum + numOfAddressesPerBlock * count = blockCount) :
    ∃ s', createFreelistFrom (count + 1) blocknum s = some (false, s') := by
  induction count generalizing blocknum s with
  | zero =>
      simp only [Nat.cast_zero, mul_zero, add_zero] at hend
      have hvalue := toInt_ofInt_of_inRange (x := blocknum) hlow (by omega)
      have hout : isBlockOutOfRange (Int64.ofInt blocknum) = true := by
        simp only [isBlockOutOfRange, hvalue, Bool.or_eq_true, decide_eq_true_eq]
        omega
      exact ⟨s, by simp [createFreelistFrom, altfsWriteBlock, hout]⟩
  | succ count ih =>
      have hfirst := hhigh 0 (by omega)
      simp only [numOfAddressesPerBlock] at hhigh hfirst hend ih ⊢
      rw [createFreelistFrom_succ (inRange_ofInt hlow (by omega))]
      exact ih (blocknum + 512) _ (by omega)
        (fun k hk => by have := hhigh (k + 1) (by omega); omega) (by omega)

/-! ## The chain they form -/

/-- The addresses of the `count` blocks from `blocknum` on that the device has. -/
def addressRange (blocknum : Int) (count : Nat) : Multiset Int64 :=
  ∑ i ∈ Finset.range count, cell (freelistAddress (blocknum + i))

theorem mem_addressRange {blocknum : Int} {count : Nat} {b : Int64} (hpos : 0 < blocknum) :
    b ∈ addressRange blocknum count ↔
      blocknum ≤ b.toInt ∧ b.toInt < blocknum + count ∧ b.toInt < blockCount := by
  rw [addressRange, mem_sum_cell]
  constructor
  · rintro ⟨hne, i, hi, rfl⟩
    have hlt := (freelistAddress_ne_zero (by omega)).mp hne
    rw [freelistAddress_of_lt hlt, toInt_ofInt_of_inRange (by omega) (by omega)]
    omega
  · rintro ⟨hlow, hcount, hhigh⟩
    have hb : freelistAddress b.toInt = b := by
      rw [freelistAddress_of_lt hhigh, Int64.ofInt_toInt]
    refine ⟨?_, (b.toInt - blocknum).toNat, by omega, ?_⟩
    · rw [← hb]
      exact (freelistAddress_ne_zero (by omega)).mpr hhigh
    · rw [show blocknum + ((b.toInt - blocknum).toNat : Int) = b.toInt by omega]
      exact hb

theorem nodup_addressRange {blocknum : Int} {count : Nat} (hpos : 0 < blocknum) :
    (addressRange blocknum count).Nodup := by
  refine nodup_sum_cell fun i _ j _ hne heq => ?_
  have hi := (freelistAddress_ne_zero (by omega)).mp hne
  have hj := (freelistAddress_ne_zero (x := blocknum + j) (by omega)).mp (heq ▸ hne)
  rw [freelistAddress_of_lt hi, freelistAddress_of_lt hj] at heq
  have := ofInt_inj_of_inRange (by omega) (by omega) (by omega) (by omega) heq
  omega

/-- A list block, its slots and the blocks after them make up one range. -/
theorem addressRange_split {blocknum : Int} {count : Nat} (hpos : 0 < blocknum)
    (h : blocknum < blockCount) :
    addressRange blocknum (numOfAddressesPerBlock + count) =
      Int64.ofInt blocknum ::ₘ
        (∑ i ∈ Finset.range freelistSlots, cell (freelistAddress (blocknum + (i + 1 : Nat))) +
          addressRange (blocknum + numOfAddressesPerBlock) count) := by
  have hsucc : numOfAddressesPerBlock = freelistSlots + 1 := rfl
  rw [addressRange, Finset.sum_range_add, hsucc, Finset.sum_range_succ', ← hsucc]
  simp only [Nat.cast_zero, add_zero]
  rw [cell_of_ne ((freelistAddress_ne_zero hpos).mpr h), freelistAddress_of_lt h,
    add_comm _ {_}, add_assoc, Multiset.singleton_add]
  congr 2
  refine Finset.sum_congr rfl fun i _ => ?_
  congr 2
  push_cast
  ring

private theorem addressRange_zero (blocknum : Int) : addressRange blocknum 0 = 0 := by
  simp [addressRange]

/-- The list blocks written from `blocknum` on form a chain over all blocks up to the end. -/
theorem freeChain_addressRange {words : Int64 → Nat → Int64} {count : Nat} {blocknum : Int}
    (hpos : 0 < blocknum)
    (hhigh : ∀ k < count, blocknum + numOfAddressesPerBlock * k < blockCount)
    (hend : blockCount ≤ blocknum + numOfAddressesPerBlock * count)
    (hwords : ∀ k < count, words (Int64.ofInt (blocknum + numOfAddressesPerBlock * k)) =
      (freelistBlock (blocknum + numOfAddressesPerBlock * k)).word) :
    FreeChain freelistSlots words (freelistAddress blocknum)
      (addressRange blocknum (numOfAddressesPerBlock * count)) := by
  induction count generalizing blocknum with
  | zero =>
      rw [freelistAddress_of_ge (by simpa using hend), mul_zero, addressRange_zero]
      exact .nil
  | succ count ih =>
      have hfirst : blocknum < blockCount := by simpa using hhigh 0 (by omega)
      have hself : words (Int64.ofInt blocknum) = (freelistBlock blocknum).word := by
        simpa using hwords 0 (by omega)
      have hshift : ∀ k : Nat, blocknum + numOfAddressesPerBlock + numOfAddressesPerBlock * k =
          blocknum + numOfAddressesPerBlock * ((k + 1 : Nat) : Int) := by
        intro k
        push_cast
        ring
      have hrest := @ih (blocknum + numOfAddressesPerBlock)
        (by simp only [numOfAddressesPerBlock]; omega)
        (fun k hk => by rw [hshift]; exact hhigh (k + 1) (by omega))
        (by rw [hshift]; exact hend)
        (fun k hk => by rw [hshift]; exact hwords (k + 1) (by omega))
      have hslots : slots freelistSlots words (Int64.ofInt blocknum) =
          ∑ i ∈ Finset.range freelistSlots,
            cell (freelistAddress (blocknum + (i + 1 : Nat))) := by
        refine Finset.sum_congr rfl fun i hi => ?_
        have hi := Finset.mem_range.mp hi
        rw [hself, word_freelistBlock (by
          simp only [freelistSlots, numOfAddressesPerBlock] at *; omega), if_neg (by omega)]
      rw [Nat.mul_succ, Nat.add_comm, addressRange_split hpos hfirst, ← hslots,
        freelistAddress_of_lt hfirst]
      refine .cons ?_ ?_
      · rw [← freelistAddress_of_lt hfirst]
        exact (freelistAddress_ne_zero hpos).mpr hfirst
      · rw [hself, word_freelistBlock (by decide), if_pos rfl]
        exact hrest

/-- The free list holds every data block. -/
structure FullFreelist (s : FileSystem) (free : Multiset Int64) : Prop
    extends FreeList s free where
  head : FreelistHeadSet s
  full : ∀ b, DataBlock b → b ∈ free

/-- A set that holds every data block has as many members as there are data blocks. -/
theorem card_dataBlocks {bs : Multiset Int64} (hnodup : bs.Nodup) (hdata : ∀ b ∈ bs, DataBlock b)
    (hfull : ∀ b, DataBlock b → b ∈ bs) (hnonneg : 0 ≤ numOfDataBlocks) :
    (bs.card : Int) = numOfDataBlocks := by
  have hlow := inodeBlockCount_nonneg
  have hvalues : (bs.map Int64.toInt).Nodup := hnodup.map fun _ _ heq => Int64.toInt_inj.mp heq
  have hmem : (bs.map Int64.toInt).toFinset = Finset.Ioo inodeBlockCount blockCount := by
    ext i
    rw [Multiset.mem_toFinset, Multiset.mem_map, Finset.mem_Ioo]
    constructor
    · rintro ⟨b, hb, rfl⟩
      exact hdata b hb
    · rintro ⟨hfirst, hlast⟩
      have hvalue : (Int64.ofInt i).toInt = i := toInt_ofInt_of_inRange (by omega) hlast.le
      refine ⟨Int64.ofInt i, hfull _ ?_, hvalue⟩
      rw [DataBlock, hvalue]
      exact ⟨hfirst, hlast⟩
  have hcard := Multiset.toFinset_card_of_nodup hvalues
  rw [hmem, Int.card_Ioo, Multiset.card_map] at hcard
  rw [← hcard]
  simp only [numOfDataBlocks] at *
  omega

theorem FullFreelist.card {s : FileSystem} {free : Multiset Int64} (h : FullFreelist s free)
    (hnonneg : 0 ≤ numOfDataBlocks) : (free.card : Int) = numOfDataBlocks :=
  card_dataBlocks h.nodup h.data h.full hnonneg

section Formatting

variable {s : FileSystem}

private theorem altfsCreateFreelist_run (hhead : FreelistHeadSet s)
    (hnonneg : 0 ≤ numOfDataBlocks) :
    altfsCreateFreelist s =
      createFreelistFrom numOfFreeListBlocks.toNat (inodeBlockCount + 1) s := by
  have hlow := inodeBlockCount_nonneg
  have hvalue : (Int64.ofInt (inodeBlockCount + 1)).toInt = inodeBlockCount + 1 :=
    toInt_ofInt_of_inRange (by omega) (by simp only [numOfDataBlocks] at hnonneg; omega)
  rw [FreelistHeadSet] at hhead
  simp only [altfsCreateFreelist, Prog.get_bind_apply, hhead, hvalue]

private theorem numOfFreeListBlocks_eq (hnonneg : 0 ≤ numOfDataBlocks) :
    numOfFreeListBlocks = numOfDataBlocks / numOfAddressesPerBlock + 1 := by
  rw [numOfFreeListBlocks, Int.tdiv_eq_ediv_of_nonneg hnonneg]

/-- The list block `k` lies on the device unless it is the last one and 512 divides the rest. -/
private theorem listBlock_lt (hnonneg : 0 ≤ numOfDataBlocks)
    (hrest : numOfDataBlocks % numOfAddressesPerBlock ≠ 0)
    {k : Nat} (hk : k < numOfFreeListBlocks.toNat) :
    inodeBlockCount + 1 + numOfAddressesPerBlock * k < blockCount := by
  rw [numOfFreeListBlocks_eq hnonneg] at hk
  simp only [numOfAddressesPerBlock, numOfDataBlocks] at *
  omega

/-- Formatting lists every data block once when 512 does not divide their number. -/
theorem altfsCreateFreelist_spec (hhead : FreelistHeadSet s) (hpos : 1 ≤ numOfDataBlocks)
    (hrest : numOfDataBlocks % numOfAddressesPerBlock ≠ 0) :
    ∃ s' free, altfsCreateFreelist s = some (true, s') ∧ FullFreelist s' free ∧
      s'.superblock = s.superblock ∧ s'.cache = s.cache ∧
      ∀ b : Int64, b.toInt ≤ inodeBlockCount → s'.disk b = s.disk b := by
  have hlow := inodeBlockCount_nonneg
  obtain ⟨s', hrun, hsuper, hcache, hblocks, hframe⟩ :=
    createFreelistFrom_run numOfFreeListBlocks.toNat (inodeBlockCount + 1) s
      (by omega) (fun k hk => listBlock_lt (by omega) hrest hk)
  have hend : blockCount ≤
      inodeBlockCount + 1 + numOfAddressesPerBlock * numOfFreeListBlocks.toNat := by
    rw [numOfFreeListBlocks_eq (by omega)]
    simp only [numOfAddressesPerBlock, numOfDataBlocks] at *
    omega
  have hfirst : inodeBlockCount + 1 < blockCount := by
    simp only [numOfDataBlocks] at hpos
    omega
  have hhead' : s'.superblock.sFreelistHead = freelistAddress (inodeBlockCount + 1) := by
    rw [hsuper, freelistAddress_of_lt hfirst]
    exact hhead
  have hmem : ∀ b, b ∈ addressRange (inodeBlockCount + 1)
      (numOfAddressesPerBlock * numOfFreeListBlocks.toNat) ↔ DataBlock b := by
    intro b
    rw [mem_addressRange (by omega), DataBlock, Nat.cast_mul]
    omega
  refine ⟨s', _, by rw [altfsCreateFreelist_run hhead (by omega)]; exact hrun,
    { chain := ?_
      nodup := nodup_addressRange (by omega)
      data := fun b => (hmem b).mp
      head := by rw [FreelistHeadSet, hsuper]; exact hhead
      full := fun b => (hmem b).mpr }, hsuper, hcache, fun b hb => hframe b (by omega)⟩
  rw [hhead']
  refine freeChain_addressRange (by omega) (fun k hk => listBlock_lt (by omega) hrest hk) hend ?_
  intro k hk
  funext i
  simp only [FileSystem.words, hblocks k hk]

/-- When 512 divides the number of data blocks, the last list block cannot be written. -/
theorem altfsCreateFreelist_fails (hhead : FreelistHeadSet s) (hnonneg : 0 ≤ numOfDataBlocks)
    (hrest : numOfDataBlocks % numOfAddressesPerBlock = 0) :
    ∃ s', altfsCreateFreelist s = some (false, s') := by
  have hlow := inodeBlockCount_nonneg
  have hblocks := numOfFreeListBlocks_eq hnonneg
  obtain ⟨count, hcount⟩ : ∃ count, numOfFreeListBlocks.toNat = count + 1 :=
    ⟨_, (Nat.succ_pred_eq_of_pos (by simp only [numOfAddressesPerBlock] at *; omega)).symm⟩
  rw [altfsCreateFreelist_run hhead hnonneg, hcount]
  refine createFreelistFrom_fails _ _ _ (by omega) (fun k hk => ?_) ?_ <;>
  · simp only [numOfAddressesPerBlock, numOfDataBlocks] at *
    omega

/--
Formatting covers every data block exactly once, unless 512 divides the number
of data blocks: then the last list block is one past the end of the device.
-/
theorem altfsCreateFreelist_full_iff (hhead : FreelistHeadSet s) (hpos : 1 ≤ numOfDataBlocks) :
    (∃ s' free, altfsCreateFreelist s = some (true, s') ∧ FullFreelist s' free) ↔
      numOfDataBlocks % numOfAddressesPerBlock ≠ 0 := by
  constructor
  · rintro ⟨s', free, hrun, -⟩ hrest
    obtain ⟨t, hfail⟩ := altfsCreateFreelist_fails hhead (by omega) hrest
    rw [hfail] at hrun
    simp at hrun
  · intro hrest
    obtain ⟨s', free, hrun, hfull, -⟩ := altfsCreateFreelist_spec hhead hpos hrest
    exact ⟨s', free, hrun, hfull⟩

end Formatting

/-- The state in which the free list is created. -/
def FileSystem.beforeFreelist : FileSystem :=
  FileSystem.blank.setFreelistHead (Int64.ofInt (inodeBlockCount + 1))

theorem freelistHeadSet_beforeFreelist : FreelistHeadSet FileSystem.beforeFreelist := rfl

end

/-! ## Two devices -/

/-- On a device of 519 blocks there are 511 data blocks, and all are listed. -/
theorem altfsCreateFreelist_519 :
    letI := Config.ofBlocks 519 (by decide)
    ∃ s' free, altfsCreateFreelist FileSystem.beforeFreelist = some (true, s') ∧
      FullFreelist s' free :=
  let _ := Config.ofBlocks 519 (by decide)
  (altfsCreateFreelist_full_iff freelistHeadSet_beforeFreelist (by decide)).mpr (by decide)

/-- On a device of 520 blocks there are 512 data blocks, and formatting fails. -/
theorem altfsCreateFreelist_520 :
    letI := Config.ofBlocks 520 (by decide)
    FreelistHeadSet FileSystem.beforeFreelist ∧ 1 ≤ numOfDataBlocks ∧
      ¬∃ s' free, altfsCreateFreelist FileSystem.beforeFreelist = some (true, s') ∧
        FullFreelist s' free := by
  let _ := Config.ofBlocks 520 (by decide)
  refine ⟨freelistHeadSet_beforeFreelist, by decide, ?_⟩
  rintro ⟨s', free, hrun, -⟩
  obtain ⟨t, hfail⟩ := altfsCreateFreelist_fails freelistHeadSet_beforeFreelist
    (by decide) (by decide)
  rw [hfail] at hrun
  simp at hrun

end AltFs
