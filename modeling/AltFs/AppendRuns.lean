import AltFs.BlockLookup
import AltFs.FreshFreelist

/-!
# Appending blocks to an empty file

The block map after any number of successful calls of `allocate_data_block`
and `add_datablock_to_inode`: every position is found again, nothing is stored
past the end, and no block serves twice.
-/

namespace AltFs

section

variable [Config]

/-- The blocks `bs` have been allocated one by one and appended to the file `node₀` of `s₀`. -/
inductive Appended (s₀ : FileSystem) (node₀ : Inode) : List Int64 → FileSystem → Inode → Prop
  | nil : Appended s₀ node₀ [] s₀ node₀
  | snoc {bs : List Int64} {s s₁ s₂ : FileSystem} {node node' : Inode} {b : Int64}
      (h : Appended s₀ node₀ bs s node) (halloc : allocateDataBlock s = some (b, s₁))
      (hb : b ≠ -1) (hadd : addDatablockToInode node b s₁ = some ((true, node'), s₂)) :
      Appended s₀ node₀ (bs ++ [b]) s₂ node'

/-- The file consists of the blocks `bs`, in this order. -/
structure ConsistsOf (s : FileSystem) (node : Inode) (bs : List Int64) (free : Multiset Int64) :
    Prop where
  owned : Owned s free (node.blocks s)
  blocksNum : node.iBlocksNum.toInt = bs.length
  blockAt : ∀ i (h : i < bs.length), node.blockAt s i = bs[i]
  data : ∀ b ∈ bs, DataBlock b
  filled : node.Filled s bs.length

namespace ConsistsOf

variable {s s₀ : FileSystem} {node node₀ : Inode} {bs : List Int64} {free : Multiset Int64}

theorem empty (hfree : FreeList s free) (h : node.EmptyMap) : ConsistsOf s node [] free := by
  have hblocks := h.blocks_eq_zero s
  refine ⟨⟨hfree, by simpa [hblocks] using hfree.nodup, by simp [hblocks]⟩, ?_,
    fun i hi => absurd hi (by simp), by simp, h.filled s⟩
  rw [h.blocksNum]
  rfl

theorem mapped (h : ConsistsOf s node bs free) : node.Mapped s where
  nonneg := by rw [h.blocksNum]; exact Int.natCast_nonneg _
  blockAt_ne_zero i hi := by
    have hi : i < bs.length := by
      have := h.blocksNum
      omega
    rw [h.blockAt i hi]
    exact (h.data _ (List.getElem_mem hi)).ne_zero

theorem wellMapped (h : ConsistsOf s node bs free) : node.WellMapped s bs.length where
  blocksNum := h.blocksNum
  bound := by
    by_contra hgt
    refine h.mapped.blockAt_ne_zero maxBlocksNum ?_ (Inode.blockAt_of_ge le_rfl)
    rw [h.blocksNum]
    omega
  filled := h.filled
  nodup := h.owned.held_nodup
  data := h.owned.data

/-- One more block. -/
theorem snoc (h : ConsistsOf s node bs free) {b : Int64} {s₁ s₂ : FileSystem} {node' : Inode}
    (halloc : allocateDataBlock s = some (b, s₁)) (hb : b ≠ -1)
    (hadd : addDatablockToInode node b s₁ = some ((true, node'), s₂)) :
    ∃ free', ConsistsOf s₂ node' (bs ++ [b]) free' ∧
      free.card = free'.card + 1 + blockCost bs.length ∧ ∃ S, DataFrame S s s₂ := by
  have hfree : free ≠ 0 := by
    rintro rfl
    rw [h.owned.allocate_empty] at halloc
    obtain ⟨rfl, -⟩ : -1 = b ∧ s = s₁ := by simpa using halloc
    exact hb rfl
  obtain ⟨b', free', t, hrun, rfl, howned, -, hframe⟩ := h.owned.allocate hfree
  obtain ⟨rfl, rfl⟩ : b' = b ∧ t = s₁ := by simpa [hrun] using halloc
  have hkept : node.Kept s t := h.owned.kept le_rfl hframe fun a ha hmem =>
    h.owned.not_free (Multiset.mem_of_le (indirect_le_blocks s node) ha) hmem
  rw [← hkept.blocks, ← add_zero (node.blocks t)] at howned
  obtain ⟨added, node'', s', free'', hrun', hadded⟩ :=
    addDatablockToInode_spec howned (hkept.mapped h.mapped)
  obtain ⟨⟨rfl, rfl⟩, rfl⟩ : (added = true ∧ node'' = node') ∧ s' = s₂ := by
    simpa [hrun'] using hadd
  have hlength : (bs.length : Int) = node.iBlocksNum.toInt := h.blocksNum.symm
  refine ⟨free'', ⟨by simpa using hadded.owned, ?_, fun i hi => ?_, fun c hc => ?_, ?_⟩, ?_, _,
    (hframe.mono (Multiset.subset_of_le (Multiset.le_add_right _ _))).trans
      (hadded.frame.mono (Multiset.subset_of_le (Multiset.le_add_left _ _)))⟩
  · rw [hadded.blocksNum, h.blocksNum, List.length_append]
    simp
  · rw [List.length_append, List.length_singleton] at hi
    by_cases hlast : i = bs.length
    · subst hlast
      rw [hadded.blockAt_new rfl _ hlength]
      simp
    · rw [hadded.blockAt_lt i (by omega), hkept.blockAt, h.blockAt i (by omega),
        List.getElem_append_left (by omega)]
  · rcases List.mem_append.mp hc with hc | hc
    · exact h.data c hc
    · rw [List.mem_singleton.mp hc]
      exact howned.data b' (Multiset.mem_cons_self _ _)
  · rw [List.length_append, List.length_singleton]
    exact hadded.filled rfl _ hlength (hkept.filled h.filled)
  · have hcost := hadded.cost bs.length hlength
    rw [if_pos rfl] at hcost
    rw [Multiset.card_cons]
    omega

/-- With four free blocks another block can be appended. -/
theorem exists_snoc (h : ConsistsOf s node bs free) (hfree : 4 ≤ free.card)
    (hlength : bs.length < maxBlocksNum) :
    ∃ b s₁ s₂ node', allocateDataBlock s = some (b, s₁) ∧ b ≠ -1 ∧
      addDatablockToInode node b s₁ = some ((true, node'), s₂) := by
  have hne : free ≠ 0 := by
    rintro rfl
    simp at hfree
  obtain ⟨b, free', s₁, halloc, rfl, howned, -, hframe⟩ := h.owned.allocate hne
  have hkept : node.Kept s s₁ := h.owned.kept le_rfl hframe fun a ha hmem =>
    h.owned.not_free (Multiset.mem_of_le (indirect_le_blocks s node) ha) hmem
  rw [← hkept.blocks, ← add_zero (node.blocks s₁)] at howned
  obtain ⟨added, node', s₂, free'', hadd, hadded⟩ :=
    addDatablockToInode_spec howned (hkept.mapped h.mapped)
  have hb : b ≠ -1 := (howned.data b (Multiset.mem_cons_self _ _)).ne_neg_one
  cases added with
  | true => exact ⟨b, s₁, s₂, node', halloc, hb, hadd⟩
  | false =>
      -- A refused block means that the at most three indirect blocks were missing.
      have hcost := hadded.cost bs.length h.blocksNum.symm
      rw [if_neg Bool.false_ne_true] at hcost
      have hbound := blockCost_le bs.length
      rw [Multiset.card_cons] at hfree
      have := (hcost hlength).2
      omega

end ConsistsOf

/-- The block map of a file to which `bs` have been appended. -/
theorem Appended.consistsOf {s₀ s : FileSystem} {node₀ node : Inode} {bs : List Int64}
    {free₀ : Multiset Int64} (h : Appended s₀ node₀ bs s node) (hfree : FreeList s₀ free₀)
    (hempty : node₀.EmptyMap) : ∃ free, ConsistsOf s node bs free := by
  induction h with
  | nil => exact ⟨free₀, .empty hfree hempty⟩
  | snoc _ halloc hb hadd ih =>
      obtain ⟨free, hconsists⟩ := ih
      obtain ⟨free', hconsists', -⟩ := hconsists.snoc halloc hb hadd
      exact ⟨free', hconsists'⟩

theorem Appended.frame {s₀ s : FileSystem} {node₀ node : Inode} {bs : List Int64}
    {free₀ : Multiset Int64} (h : Appended s₀ node₀ bs s node) (hfree : FreeList s₀ free₀)
    (hempty : node₀.EmptyMap) : ∃ S, DataFrame S s₀ s := by
  induction h with
  | nil => exact ⟨0, .refl _ _⟩
  | snoc happended halloc hb hadd ih =>
      obtain ⟨S, hframe⟩ := ih
      obtain ⟨free, hconsists⟩ := happended.consistsOf hfree hempty
      obtain ⟨free', -, -, T, hlast⟩ := hconsists.snoc halloc hb hadd
      exact ⟨S + T, (hframe.mono (Multiset.subset_of_le (Multiset.le_add_right _ _))).trans
        (hlast.mono (Multiset.subset_of_le (Multiset.le_add_left _ _)))⟩

/-- A file of `k` blocks can be built when four blocks are free for each of them. -/
theorem exists_appended {s₀ : FileSystem} {node₀ : Inode} {free₀ : Multiset Int64}
    (hfree : FreeList s₀ free₀) (hempty : node₀.EmptyMap) {k : Nat} (hk : k ≤ maxBlocksNum)
    (hcard : 4 * k ≤ free₀.card) :
    ∃ bs s node free, Appended s₀ node₀ bs s node ∧ ConsistsOf s node bs free ∧ bs.length = k ∧
      free₀.card ≤ free.card + 4 * k := by
  induction k with
  | zero => exact ⟨[], s₀, node₀, free₀, .nil, .empty hfree hempty, rfl, le_rfl⟩
  | succ k ih =>
      obtain ⟨bs, s, node, free, happended, hconsists, hlength, hleft⟩ := ih (by omega) (by omega)
      obtain ⟨b, s₁, s₂, node', halloc, hb, hadd⟩ :=
        hconsists.exists_snoc (by omega) (by omega)
      obtain ⟨free', hconsists', hcost, -⟩ := hconsists.snoc halloc hb hadd
      have hbound := blockCost_le bs.length
      refine ⟨bs ++ [b], s₂, node', free', happended.snoc halloc hb hadd, hconsists', ?_, ?_⟩
      · rw [List.length_append, List.length_singleton, hlength]
      · omega

section Conclusions

variable {s s₀ : FileSystem} {node node₀ : Inode} {bs : List Int64} {free free₀ : Multiset Int64}

namespace ConsistsOf

theorem lookup (h : ConsistsOf s node bs free) (i : Nat) (hi : i < bs.length) :
    ∃ prev, getDiskBlockFromInodeBlock node i 0 s = some ((bs[i], prev), s) := by
  have hcount : (i : Int) < node.iBlocksNum.toInt := by
    rw [h.blocksNum]
    omega
  obtain ⟨prev, hrun, -⟩ := getDiskBlockFromInodeBlock_spec h.owned le_rfl h.mapped hcount
    (prevValid_zero s node i)
  rw [h.blockAt i hi] at hrun
  exact ⟨prev, hrun⟩

theorem direct_eq_zero (h : ConsistsOf s node bs free) (i : Nat) (hi : bs.length ≤ i) :
    node.direct i = 0 := by
  by_cases hdirect : i < numOfDirectBlocks
  · by_contra hne
    have := (h.filled.direct i hdirect).mp hne
    omega
  · have hdirect : ¬i < 12 := hdirect
    simp [Inode.direct, hdirect]

theorem root_ne_zero (h : ConsistsOf s node bs free) (d : Nat) (hlow : 1 ≤ d) (hhigh : d ≤ 3) :
    node.root d ≠ 0 ↔ levelStart d < bs.length := by
  have hpos : 0 < numOfAddressesPerBlock ^ d := Nat.pow_pos (by decide)
  have hroot := h.filled.tree d hlow hhigh d le_rfl 0 hpos
  rw [PointerTree.nodeAt_top le_rfl, Nat.zero_div, Nat.zero_mul] at hroot
  rw [hroot]
  omega

/-- Slots of indirect blocks that belong to positions past the end are zero. -/
theorem slot_eq_zero (h : ConsistsOf s node bs free) (d k i : Nat) (hlow : 1 ≤ d) (hhigh : d ≤ 3)
    (hk : k < d) (hi : i < numOfAddressesPerBlock ^ d)
    (hparent : treeNode s d (k + 1) (node.root d) i ≠ 0)
    (hpast : bs.length ≤
      levelStart d + i / numOfAddressesPerBlock ^ k * numOfAddressesPerBlock ^ k) :
    (s.disk (treeNode s d (k + 1) (node.root d) i)).word
      (i / numOfAddressesPerBlock ^ k % numOfAddressesPerBlock) = 0 := by
  rw [treeNode_step hk hi hparent]
  by_contra hne
  have := (h.filled.tree d hlow hhigh k hk.le i hi).mp hne
  omega

theorem distinct (h : ConsistsOf s node bs free) :
    (node.indirect s + (bs : Multiset Int64)).Nodup := by
  have hnodup := h.owned.held_nodup
  refine Multiset.nodup_add.mpr
    ⟨Multiset.nodup_of_le (indirect_le_blocks s node) hnodup, ?_, ?_⟩
  · rw [Multiset.coe_nodup, List.nodup_iff_injective_get]
    intro i j heq
    have heq : bs[i.val] = bs[j.val] := heq
    have hne := (h.data _ (List.getElem_mem i.isLt)).ne_zero
    rw [← h.blockAt i.val i.isLt, ← h.blockAt j.val j.isLt] at heq
    rw [← h.blockAt i.val i.isLt] at hne
    exact Fin.ext (blockAt_inj hnodup hne heq)
  · rw [Multiset.disjoint_right]
    intro b hb hmem
    obtain ⟨i, hi, rfl⟩ := List.mem_iff_getElem.mp (Multiset.mem_coe.mp hb)
    have hne := (h.data _ hb).ne_zero
    rw [← h.blockAt i hi] at hne hmem
    exact blockAt_notMem_indirect hnodup hne hmem

end ConsistsOf

/--
The block map round trip: after appending the blocks `bs` to an empty file,
each position is found again, every slot past the end is zero, an indirect
pointer is set exactly when the file reaches its level, and the blocks of the
file and its indirect blocks are all different.
-/
theorem blockMap_roundTrip (hfree : FreeList s₀ free₀) (hempty : node₀.EmptyMap)
    (h : Appended s₀ node₀ bs s node) :
    node.iBlocksNum.toInt = bs.length ∧
      (∀ i (hi : i < bs.length),
        ∃ prev, getDiskBlockFromInodeBlock node i 0 s = some ((bs[i], prev), s)) ∧
      (∀ i, bs.length ≤ i → node.direct i = 0) ∧
      (∀ d k i, 1 ≤ d → d ≤ 3 → k < d → i < numOfAddressesPerBlock ^ d →
        treeNode s d (k + 1) (node.root d) i ≠ 0 →
        bs.length ≤ levelStart d + i / numOfAddressesPerBlock ^ k * numOfAddressesPerBlock ^ k →
        (s.disk (treeNode s d (k + 1) (node.root d) i)).word
          (i / numOfAddressesPerBlock ^ k % numOfAddressesPerBlock) = 0) ∧
      (node.iSingleIndirect ≠ 0 ↔ 12 < bs.length) ∧
      (node.iDoubleIndirect ≠ 0 ↔ 12 + 512 < bs.length) ∧
      (node.iTripleIndirect ≠ 0 ↔ 12 + 512 + 512 ^ 2 < bs.length) ∧
      (node.indirect s + (bs : Multiset Int64)).Nodup := by
  obtain ⟨free, hfile⟩ := h.consistsOf hfree hempty
  exact ⟨hfile.blocksNum, hfile.lookup, hfile.direct_eq_zero, hfile.slot_eq_zero,
    hfile.root_ne_zero 1 (by omega) (by omega), hfile.root_ne_zero 2 (by omega) (by omega),
    hfile.root_ne_zero 3 (by omega) (by omega), hfile.distinct⟩

end Conclusions

end

theorem zero_emptyMap : Inode.zero.EmptyMap where
  blocksNum := rfl
  direct i := by simp [Inode.direct, Inode.zero]
  root d := by
    unfold Inode.root
    split <;> rfl

/-- On a freshly formatted device a file of `k` blocks can be built. -/
theorem exists_file [Config] {k : Nat} (hpos : 1 ≤ numOfDataBlocks)
    (hrest : numOfDataBlocks % numOfAddressesPerBlock ≠ 0) (hbound : k ≤ maxBlocksNum)
    (hroom : (4 * k : Int) ≤ numOfDataBlocks) :
    ∃ s₀ free₀ bs s node free, FreeList s₀ free₀ ∧ Appended s₀ Inode.zero bs s node ∧
      ConsistsOf s node bs free ∧ bs.length = k ∧ node.WellMapped s k ∧
      numOfDataBlocks ≤ (free.card : Int) + 4 * k := by
  obtain ⟨s₀, free₀, -, hfull, -⟩ :=
    altfsCreateFreelist_spec freelistHeadSet_beforeFreelist hpos hrest
  have hcard := hfull.card (by omega)
  obtain ⟨bs, s, node, free, happended, hfile, hlength, hleft⟩ :=
    exists_appended hfull.toFreeList zero_emptyMap hbound (by omega)
  have hwell := hfile.wellMapped
  rw [hlength] at hwell
  exact ⟨s₀, free₀, bs, s, node, free, hfull.toFreeList, happended, hfile, hlength, hwell,
    by omega⟩

/-- A file of 600 blocks: the double-indirect level is in use, the next one is not. -/
theorem blockMap_roundTrip_600 :
    letI := Config.ofBlocks 4000 (by decide)
    ∃ s₀ bs s node, Appended s₀ Inode.zero bs s node ∧ bs.length = 600 ∧
      node.iDoubleIndirect ≠ 0 ∧ node.iTripleIndirect = 0 ∧
      (node.indirect s + (bs : Multiset Int64)).Nodup ∧
      ∀ i (hi : i < bs.length),
        ∃ prev, getDiskBlockFromInodeBlock node i 0 s = some ((bs[i], prev), s) := by
  let _ := Config.ofBlocks 4000 (by decide)
  obtain ⟨s₀, free₀, bs, s, node, -, hfree, happended, -, hlength, -⟩ :=
    @exists_file _ 600 (by decide) (by decide) (by simp only [maxBlocksNum]; omega) (by decide)
  obtain ⟨-, hlookup, -, -, -, hdouble, htriple, hdistinct⟩ :=
    blockMap_roundTrip hfree zero_emptyMap happended
  refine ⟨s₀, bs, s, node, happended, hlength, hdouble.mpr (by omega), ?_, hdistinct, hlookup⟩
  by_contra hne
  have := htriple.mp hne
  omega

end AltFs
