import AltFs.FileContents

/-!
# The two loops of `altfs_write`

The first loop stores the bytes that fall into blocks which the file has.  The
second one appends blocks until the buffer is stored or the device is full.
-/

namespace AltFs

variable [Config]

section Overwrite

variable {s : FileSystem} {node : Inode} {free held : Multiset Int64} {buff : List UInt8}
  {offset count i n : Nat} {prev : Int64}

/-- The blocks of the file from `i` on have been overwritten. -/
structure Overwritten (free held : Multiset Int64) (offset : Nat) (buff : List UInt8) (i n : Nat)
    (node : Inode) (s s' : FileSystem) : Prop where
  owned : Owned s' free held
  frame : DataFrame (node.blocks s) s s'
  kept : node.Kept s s'
  fileByte : ∀ j < blockSize * n, fileByte s' node j =
    if i ≤ j / blockSize then spliced (fileByte s node) offset buff j else fileByte s node j

omit [Config] in
private theorem spliced_block {j : Nat} {block : Block} (hj : j / blockSize = i)
    (hblock : s.disk (node.blockAt s i) = block) :
    spliced (fun q => block.byteAt (q - blockSize * i)) offset buff
      (blockSize * i + j % blockSize) = spliced (fileByte s node) offset buff j := by
  subst hj
  have hsum : blockSize * (j / blockSize) + j % blockSize = j := Nat.div_add_mod _ _
  rw [hsum, spliced, spliced, fileByte, hblock, ← Nat.mod_eq_sub_mul_div]

/-- One round of the loop. -/
private theorem overwriteBlocks_succ {span : Span} {bytesWritten length : Nat} {b prev' : Int64}
    {contents : Block} (hlookup : getDiskBlockFromInodeBlock node i prev s = some ((b, prev'), s))
    (hdata : DataBlock b)
    (hresult : span.overwrite buff bytesWritten i (s.disk b) = (contents, length)) :
    overwriteBlocks node buff span (count + 1) i prev bytesWritten s =
      (if i = span.endIBlock then pure (true, bytesWritten + length)
        else overwriteBlocks node buff span count (i + 1) prev' (bytesWritten + length))
        (s.writeDisk b contents) := by
  have hpos : ¬b.toInt ≤ 0 := by
    have := hdata.pos
    omega
  have hwrite : writeDataBlock b contents s = some (true, s.writeDisk b contents) :=
    writeDataBlock_run hdata
  by_cases hmiddle : i ≠ span.startIBlock ∧ i ≠ span.endIBlock
  · have hzero : span.overwrite buff bytesWritten i Block.zero = (contents, length) := by
      rw [Span.overwrite, if_pos hmiddle] at hresult ⊢
      exact hresult
    simp only [overwriteBlocks, Prog.bind_of_eq hlookup, if_neg hpos, if_pos hmiddle,
      Prog.pure_bind_apply, hzero, Prog.bind_of_eq hwrite, Bool.not_true, Bool.false_eq_true,
      if_false]
  · simp only [overwriteBlocks, Prog.bind_of_eq hlookup, if_neg hpos, if_neg hmiddle,
      Prog.bind_of_eq (readDataBlock_run hdata), hresult, Prog.bind_of_eq hwrite, Bool.not_true,
      Bool.false_eq_true, if_false]

theorem overwriteBlocks_spec (hbuff : buff ≠ []) (howned : Owned s free held)
    (hle : node.blocks s ≤ held) (hmapped : node.Mapped s) (hn : node.iBlocksNum.toInt = n)
    (hlow : offset / blockSize ≤ i)
    (hhigh : count ≠ 0 → i ≤ (offset + buff.length - 1) / blockSize)
    (hcount : i + count = n) (hprev : PrevValid s node i prev) :
    ∃ s', overwriteBlocks node buff (Span.ofRange offset buff.length) count i prev
        (writtenUpTo offset buff.length i) s =
          some ((true, writtenUpTo offset buff.length n), s') ∧
      Overwritten free held offset buff i n node s s' := by
  induction count generalizing i s prev with
  | zero =>
      obtain rfl : i = n := by omega
      refine ⟨s, rfl, howned, DataFrame.refl _ _, fun _ _ => rfl, fun j hj => ?_⟩
      rw [if_neg]
      simp only [blockSize] at *
      omega
  | succ count ih =>
      have hhigh := hhigh (by omega)
      have hspan : (Span.ofRange offset buff.length).endIBlock =
          (offset + buff.length - 1) / blockSize := rfl
      have hnodup : (node.blocks s).Nodup := Multiset.nodup_of_le hle howned.held_nodup
      have hne := hmapped.blockAt_ne_zero i (by omega)
      have hmem := blockAt_mem_blocks hne
      have hdata := howned.data _ (Multiset.mem_of_le hle hmem)
      obtain ⟨prev', hlookup, hprev'⟩ := getDiskBlockFromInodeBlock_spec howned hle hmapped
        (i := i) (by omega) hprev
      obtain ⟨contents, length, hresult⟩ : ∃ contents length,
          (Span.ofRange offset buff.length).overwrite buff (writtenUpTo offset buff.length i) i
            (s.disk (node.blockAt s i)) = (contents, length) := ⟨_, _, rfl⟩
      obtain ⟨hlength, hcontents⟩ := Span.overwrite_spec hbuff hlow hhigh hresult
      have hround := @overwriteBlocks_succ _ s node buff count i prev _ _ _ _ _ _ hlookup hdata
        hresult
      rw [hlength] at hround
      generalize hs₁ : s.writeDisk (node.blockAt s i) contents = s₁ at hround
      have hkept : node.Kept s s₁ := by
        intro a ha
        rw [← hs₁]
        exact disk_writeDisk_ne fun heq => blockAt_notMem_indirect hnodup hne (heq ▸ ha)
      have howned₁ : Owned s₁ free held := by
        rw [← hs₁]
        exact howned.write _ (Multiset.mem_of_le hle hmem)
      have hframe : DataFrame (node.blocks s) s s₁ := by
        rw [← hs₁]
        exact .writeDisk hmem
      have hbyte : ∀ j < blockSize * n, fileByte s₁ node j =
          if j / blockSize = i then spliced (fileByte s node) offset buff j
          else fileByte s node j := by
        intro j hj
        have hj' : node.blockAt s (j / blockSize) ≠ 0 := by
          apply hmapped.blockAt_ne_zero
          rw [hn]
          simp only [blockSize] at *
          omega
        rw [← hs₁, fileByte_writeDisk hnodup hne hj']
        split
        next heq =>
          rw [hcontents _ (Nat.mod_lt _ (by decide))]
          exact spliced_block heq rfl
        next => rfl
      rw [hround]
      by_cases hlast : i = (Span.ofRange offset buff.length).endIBlock
      · rw [if_pos hlast]
        rw [hspan] at hlast
        have hfull : writtenUpTo offset buff.length (i + 1) = writtenUpTo offset buff.length n := by
          simp only [writtenUpTo, blockSize] at *
          omega
        refine ⟨s₁, by rw [hfull, Prog.pure_apply], howned₁, hframe, hkept, fun j hj => ?_⟩
        rw [hbyte j hj]
        by_cases heq : j / blockSize = i
        · rw [if_pos heq, if_pos heq.ge]
        · rw [if_neg heq]
          split
          next hge =>
            rw [spliced_outside]
            simp only [blockSize] at *
            omega
          next => rfl
      · rw [if_neg hlast]
        rw [hspan] at hlast
        have hle₁ : node.blocks s₁ ≤ held := by
          rw [hkept.blocks]
          exact hle
        obtain ⟨s', hrun, hrest⟩ := ih howned₁ hle₁ (hkept.mapped hmapped) (by omega)
          (fun _ => by omega) (by omega) (hprev'.kept hkept)
        have hframe' := hrest.frame
        rw [hkept.blocks] at hframe'
        refine ⟨s', hrun, hrest.owned, hframe.trans hframe', fun a ha => ?_, fun j hj => ?_⟩
        · have ha' : a ∈ node.indirect s₁ := by
            rw [hkept.indirect]
            exact ha
          exact (hrest.kept a ha').trans (hkept a ha)
        · rw [hrest.fileByte j hj]
          by_cases heq : j / blockSize = i
          · rw [if_neg (by omega), if_pos heq.ge, hbyte j hj, if_pos heq]
          · by_cases hge : i + 1 ≤ j / blockSize
            · rw [if_pos hge, if_pos (by omega), spliced, spliced, hbyte j hj, if_neg heq]
            · rw [if_neg hge, if_neg (by omega), hbyte j hj, if_neg heq]

/-- The first loop as `altfs_write` starts it. -/
theorem overwriteBlocks_run (hbuff : buff ≠ []) (howned : Owned s free held)
    (hle : node.blocks s ≤ held) (hmapped : node.Mapped s) (hn : node.iBlocksNum.toInt = n) :
    ∃ s', overwriteBlocks node buff (Span.ofRange offset buff.length)
        ((n : Int) - (offset / blockSize : Nat)).toNat (offset / blockSize) 0 0 s =
          some ((true, writtenUpTo offset buff.length n), s') ∧
      Owned s' free held ∧ DataFrame (node.blocks s) s s' ∧ node.Kept s s' ∧
      ∀ j < blockSize * n, AltFs.fileByte s' node j = spliced (AltFs.fileByte s node) offset buff j := by
  have hpos : 0 < buff.length := List.length_pos_iff.mpr hbuff
  by_cases hstart : n ≤ offset / blockSize
  · have hcount : ((n : Int) - (offset / blockSize : Nat)).toNat = 0 := by omega
    have hzero : writtenUpTo offset buff.length n = 0 := by
      simp only [writtenUpTo, blockSize] at *
      omega
    refine ⟨s, by rw [hcount, hzero]; rfl, howned, DataFrame.refl _ _, fun _ _ => rfl,
      fun j hj => ?_⟩
    rw [spliced_outside]
    simp only [blockSize] at *
    omega
  · have hzero : writtenUpTo offset buff.length (offset / blockSize) = 0 := by
      simp only [writtenUpTo, blockSize] at *
      omega
    have hhigh : offset / blockSize ≤ (offset + buff.length - 1) / blockSize := by
      simp only [blockSize] at *
      omega
    have hcount : offset / blockSize + ((n : Int) - (offset / blockSize : Nat)).toNat = n := by
      omega
    obtain ⟨s', hrun, hdone⟩ := overwriteBlocks_spec hbuff howned hle hmapped hn le_rfl
      (fun _ => hhigh) hcount (prevValid_zero s node _)
    rw [hzero] at hrun
    refine ⟨s', hrun, hdone.owned, hdone.frame, hdone.kept, fun j hj => ?_⟩
    rw [hdone.fileByte j hj]
    split
    next => rfl
    next hlow =>
      rw [spliced_outside]
      simp only [blockSize] at *
      omega

end Overwrite

/-- How many blocks it takes to make a file of `m` blocks `k` blocks longer. -/
def appendCost (m k : Nat) : Nat := ∑ j ∈ Finset.range k, (1 + blockCost (m + j))

omit [Config] in
@[simp] theorem appendCost_zero (m : Nat) : appendCost m 0 = 0 := rfl

omit [Config] in
theorem appendCost_mono (m : Nat) : Monotone (appendCost m) :=
  monotone_nat_of_le_succ fun k => by
    rw [appendCost, appendCost, Finset.sum_range_succ]
    exact Nat.le_add_right _ _

omit [Config] in
theorem appendCost_succ (m k : Nat) :
    appendCost m (k + 1) = 1 + blockCost m + appendCost (m + 1) k := by
  rw [appendCost, Finset.sum_range_succ', add_comm, appendCost]
  congr 1
  refine Finset.sum_congr rfl fun j _ => ?_
  rw [add_right_comm m 1 j, add_assoc m j 1]

section Append

variable {s s₀ : FileSystem} {node node₀ : Inode} {free free₀ rest : Multiset Int64}
  {buff : List UInt8} {offset count i m k : Nat}

/--
The second loop has appended `k` of `count` blocks to the file `node₀` of `m`
blocks; `leak` is the block that could not be added.
-/
structure BlocksAppended (rest free₀ : Multiset Int64) (s₀ : FileSystem) (node₀ : Inode)
    (offset : Nat) (buff : List UInt8) (m count k : Nat) (leak : Multiset Int64) (s : FileSystem)
    (node : Inode) (free : Multiset Int64) : Prop where
  le : k ≤ count
  owned : Owned s free (leak + (node.blocks s + rest))
  frame : DataFrame (free₀ + node₀.blocks s₀) s₀ s
  withMap : node = node₀.withMap node
  blocksNum : node.iBlocksNum.toInt = (m + k : Nat)
  mapped : node.Mapped s
  filled : leak = 0 → node.Filled s (m + k)
  fileByte : ∀ j < blockSize * (m + k), fileByte s node j =
    if j < blockSize * m then fileByte s₀ node₀ j else spliced (fun _ => 0) offset buff j
  conserved : free + (leak + node.blocks s) = free₀ + node₀.blocks s₀
  cost : leak = 0 → free₀.card = free.card + appendCost m k
  enough : appendCost m k ≤ free₀.card
  stopped : k < count → free₀.card < appendCost m (k + 1) ∨ maxBlocksNum ≤ m + k
  leaks : leak = 0 ↔ k = count ∨ free₀.card = appendCost m k

theorem BlocksAppended.none (howned : Owned s free (node.blocks s + rest))
    (hfilled : node.Filled s m) (hm : node.iBlocksNum.toInt = m) (hmapped : node.Mapped s)
    (hstop : count ≠ 0 → free = 0) :
    BlocksAppended rest free s node offset buff m count 0 0 s node free where
  le := Nat.zero_le _
  owned := by
    rw [zero_add]
    exact howned
  frame := DataFrame.refl _ _
  withMap := rfl
  blocksNum := hm
  mapped := hmapped
  filled _ := hfilled
  fileByte j hj := by
    rw [add_zero] at hj
    rw [if_pos hj]
  conserved := by rw [zero_add]
  cost _ := rfl
  enough := Nat.zero_le _
  stopped hlt := by
    rw [hstop (by omega), Multiset.card_zero, appendCost_succ]
    exact .inl (by omega)
  leaks := by
    refine ⟨fun _ => ?_, fun _ => rfl⟩
    by_cases hcount : count = 0
    · exact .inl hcount.symm
    · rw [hstop hcount]
      exact .inr rfl

omit [Config] in
private theorem withMap_trans {node' node'' : Inode} (h : node' = node.withMap node')
    (h' : node'' = node'.withMap node'') : node'' = node.withMap node'' := by
  rw [h] at h'
  exact h'

/-- What one more block of the file leaves as it is. -/
private theorem BlockAdded.fileByte_old {b : Int64} {added : Bool} {s' : FileSystem}
    {node' : Inode} {free' : Multiset Int64} (howned : Owned s free (b ::ₘ (node.blocks s + rest)))
    (hmapped : node.Mapped s) (h : BlockAdded b rest free s node added s' node' free') {j : Nat}
    (hj : ((j / blockSize : Nat) : Int) < node.iBlocksNum.toInt) :
    fileByte s' node' j = fileByte s node j := by
  have hne := hmapped.blockAt_ne_zero _ hj
  have hheld : node.blockAt s (j / blockSize) ∈ b ::ₘ (node.blocks s + rest) :=
    Multiset.mem_cons_of_mem (Multiset.mem_add.mpr (.inl (blockAt_mem_blocks hne)))
  have hnodup := (Multiset.nodup_add.mp (Multiset.nodup_cons.mp howned.held_nodup).2).1
  have hdisk : s'.disk (node.blockAt s (j / blockSize)) = s.disk (node.blockAt s (j / blockSize)) := by
    refine howned.disk_eq h.frame hheld fun hmem => ?_
    rcases Multiset.mem_add.mp hmem with hfree | hindirect
    · exact howned.not_free hheld hfree
    · exact blockAt_notMem_indirect hnodup hne hindirect
  rw [fileByte, fileByte, h.blockAt_lt _ hj, hdisk]

/-- One block has been appended, and then further ones. -/
theorem BlocksAppended.trans {s₁ : FileSystem} {node₁ : Inode} {free₁ leak : Multiset Int64}
    (h : BlocksAppended rest free₀ s₀ node₀ offset buff m 1 1 0 s₁ node₁ free₁)
    (h' : BlocksAppended rest free₁ s₁ node₁ offset buff (m + 1) count k leak s node free) :
    BlocksAppended rest free₀ s₀ node₀ offset buff m (count + 1) (k + 1) leak s node free := by
  have hsum : m + 1 + k = m + (k + 1) := by omega
  have hblocks : free₁ + node₁.blocks s₁ = free₀ + node₀.blocks s₀ := by
    have := h.conserved
    rwa [zero_add] at this
  have hcost := h.cost rfl
  have hone : appendCost m 1 = 1 + blockCost m := by rw [appendCost_succ, appendCost_zero, add_zero]
  have hmore : ∀ k, appendCost m (k + 1) = 1 + blockCost m + appendCost (m + 1) k :=
    appendCost_succ m
  refine ⟨Nat.succ_le_succ h'.le, h'.owned, ?_, withMap_trans h.withMap h'.withMap, ?_, h'.mapped,
    fun hleak => ?_, fun j hj => ?_, h'.conserved.trans hblocks, fun hleak => ?_, ?_, fun hlt => ?_,
    ?_⟩
  · have hframe := h'.frame
    rw [hblocks] at hframe
    exact h.frame.trans hframe
  · rw [h'.blocksNum, hsum]
  · rw [← hsum]
    exact h'.filled hleak
  · rw [h'.fileByte j (by rwa [hsum])]
    by_cases hold : j < blockSize * (m + 1)
    · rw [if_pos hold, h.fileByte j hold]
    · rw [if_neg hold, if_neg (by simp only [blockSize] at *; omega)]
  · rw [hcost, h'.cost hleak, hone, hmore]
    omega
  · have := h'.enough
    rw [hcost, hone, hmore]
    omega
  · rw [hcost, hone, hmore]
    rcases h'.stopped (by omega) with hlow | hmax
    · exact .inl (by omega)
    · exact .inr (by omega)
  · rw [h'.leaks, hcost, hone, hmore]
    omega

section Round

variable {b : Int64} {s₁ s₂ : FileSystem} {node' : Inode} {free₁ free₂ : Multiset Int64} {added : Bool}
  (howned : Owned s (b ::ₘ free₁) (node.blocks s + rest)) (hmapped : node.Mapped s)
  (hframe : DataFrame (b ::ₘ free₁) s s₁)

include howned hframe

private theorem kept_allocate : node.Kept s s₁ :=
  howned.kept (Multiset.le_add_right _ _) hframe fun _ ha =>
    howned.not_free (Multiset.mem_add.mpr
      (.inl (Multiset.mem_of_le (indirect_le_blocks s node) ha)))

private theorem frame_round (h : BlockAdded b rest free₁ s₁ node added s₂ node' free₂) :
    DataFrame (b ::ₘ free₁ + node.blocks s) s s₂ := by
  have hkept := kept_allocate howned hframe
  refine (hframe.mono (Multiset.subset_of_le (Multiset.le_add_right _ _))).trans
    (h.frame.mono fun a ha => ?_)
  rcases Multiset.mem_add.mp ha with ha | ha
  · exact Multiset.mem_add.mpr (.inl (Multiset.mem_cons_of_mem ha))
  · rw [hkept.indirect] at ha
    exact Multiset.mem_add.mpr (.inr (Multiset.mem_of_le (indirect_le_blocks s node) ha))

include hmapped

private theorem fileByte_round (hm : node.iBlocksNum.toInt = m)
    (howned₁ : Owned s₁ free₁ (b ::ₘ (node.blocks s + rest)))
    (h : BlockAdded b rest free₁ s₁ node added s₂ node' free₂) {j : Nat} (hj : j < blockSize * m) :
    fileByte s₂ node' j = fileByte s node j := by
  have hkept := kept_allocate howned hframe
  have hposition : ((j / blockSize : Nat) : Int) < node.iBlocksNum.toInt := by
    rw [hm]
    simp only [blockSize] at *
    omega
  have hheld : node.blockAt s (j / blockSize) ∈ node.blocks s + rest :=
    Multiset.mem_add.mpr (.inl (blockAt_mem_blocks (hmapped.blockAt_ne_zero _ hposition)))
  rw [← hkept.blocks] at howned₁
  rw [h.fileByte_old howned₁ (hkept.mapped hmapped) hposition]
  exact fileByte_eq (hkept.blockAt _) (howned.disk_eq hframe hheld (howned.not_free hheld))

/-- The block cannot be added. -/
private theorem BlocksAppended.failed (hfilled : node.Filled s m) (hm : node.iBlocksNum.toInt = m)
    (howned₁ : Owned s₁ free₁ (b ::ₘ (node.blocks s + rest)))
    (h : BlockAdded b rest free₁ s₁ node false s₂ node' free₂) :
    BlocksAppended rest (b ::ₘ free₁) s node offset buff m (count + 1) 0 {b} s₂ node' free₂ := by
  have hkept := kept_allocate howned hframe
  have hnum : node'.iBlocksNum.toInt = m := by
    rw [h.blocksNum, hm]
    exact add_zero _
  refine ⟨Nat.zero_le _, h.owned, frame_round howned hframe h, h.withMap, hnum, ?_, fun hleak => ?_,
    fun j hj => ?_, ?_, fun hleak => ?_, Nat.zero_le _, fun _ => ?_, ?_⟩
  · refine ⟨by rw [hnum]; exact Int.natCast_nonneg m, fun i hi => ?_⟩
    rw [hnum] at hi
    rw [h.blockAt_lt i (by omega), hkept.blockAt]
    exact hmapped.blockAt_ne_zero i (by omega)
  · exact absurd hleak (Multiset.singleton_ne_zero b)
  · rw [add_zero] at hj
    rw [if_pos hj]
    exact fileByte_round howned hmapped hframe hm howned₁ h hj
  · have hsum := h.conserved m hm.symm (hkept.filled hfilled)
    rw [hkept.blocks, if_neg (by decide), add_zero] at hsum
    rw [add_left_comm, hsum, ← add_assoc, Multiset.singleton_add]
  · exact absurd hleak (Multiset.singleton_ne_zero b)
  · rw [Multiset.card_cons, appendCost_succ, appendCost_zero]
    by_cases hmax : m < maxBlocksNum
    · have := (h.cost m hm.symm hmax).2
      exact .inl (by omega)
    · exact .inr (by omega)
  · rw [Multiset.card_cons, appendCost_zero]
    refine ⟨fun hleak => absurd hleak (Multiset.singleton_ne_zero b), fun hend => ?_⟩
    omega

/-- The block is added, and `contents` is stored in it. -/
private theorem BlocksAppended.one (hfilled : node.Filled s m) (hm : node.iBlocksNum.toInt = m)
    (howned₁ : Owned s₁ free₁ (b ::ₘ (node.blocks s + rest)))
    (h : BlockAdded b rest free₁ s₁ node true s₂ node' free₂) {contents : Block}
    (hcontents : ∀ p < blockSize, contents.byteAt p =
      spliced (fun _ => 0) offset buff (blockSize * m + p)) :
    BlocksAppended rest (b ::ₘ free₁) s node offset buff m 1 1 0 (s₂.writeDisk b contents) node'
      free₂ := by
  have hkept := kept_allocate howned hframe
  have hnum : node'.iBlocksNum.toInt = (m + 1 : Nat) := by
    rw [h.blocksNum, hm]
    rfl
  have hnew : node'.blockAt s₂ m = b := h.blockAt_new rfl m hm.symm
  have hb : b ≠ 0 := (howned₁.data b (Multiset.mem_cons_self _ _)).ne_zero
  have howned₂ : Owned s₂ free₂ (node'.blocks s₂ + rest) := by
    have := h.owned
    rwa [if_pos rfl, zero_add] at this
  have hnodup := (Multiset.nodup_add.mp howned₂.held_nodup).1
  have hmem : b ∈ node'.blocks s₂ := by
    rw [← hnew] at hb ⊢
    exact blockAt_mem_blocks hb
  have hmapped₂ : node'.Mapped s₂ := by
    refine ⟨by rw [hnum]; exact Int.natCast_nonneg _, fun i hi => ?_⟩
    rw [hnum] at hi
    by_cases hlast : i = m
    · rw [hlast, hnew]
      exact hb
    · rw [h.blockAt_lt i (by omega), hkept.blockAt]
      exact hmapped.blockAt_ne_zero i (by omega)
  have hkept₂ : node'.Kept s₂ (s₂.writeDisk b contents) := by
    intro a ha
    refine disk_writeDisk_ne fun heq => ?_
    rw [heq, ← hnew] at ha
    exact blockAt_notMem_indirect hnodup (by rwa [hnew]) ha
  have hsum := h.conserved m hm.symm (hkept.filled hfilled)
  rw [hkept.blocks, if_pos rfl] at hsum
  have hcost := h.cost m hm.symm
  rw [if_pos rfl] at hcost
  refine ⟨le_rfl, ?_, ?_, h.withMap, hnum, hkept₂.mapped hmapped₂, fun _ => ?_, fun j hj => ?_, ?_,
    fun _ => ?_, ?_, fun hlt => absurd hlt (lt_irrefl 1), by simp⟩
  · rw [zero_add, hkept₂.blocks]
    exact howned₂.write _ (Multiset.mem_add.mpr (.inl hmem))
  · refine (frame_round howned hframe h).trans (.writeDisk ?_)
    exact Multiset.mem_add.mpr (.inl (Multiset.mem_cons_self _ _))
  · exact hkept₂.filled (h.filled rfl m hm.symm (hkept.filled hfilled))
  · have hposition : node'.blockAt s₂ (j / blockSize) ≠ 0 := by
      apply hmapped₂.blockAt_ne_zero
      rw [hnum]
      simp only [blockSize] at *
      omega
    have hwrite := fileByte_writeDisk hnodup (by rwa [hnew]) hposition contents
    rw [hnew] at hwrite
    rw [hwrite]
    by_cases hold : j < blockSize * m
    · rw [if_neg (by simp only [blockSize] at *; omega), if_pos hold]
      exact fileByte_round howned hmapped hframe hm howned₁ h hold
    · have heq : j / blockSize = m := by
        simp only [blockSize] at *
        omega
      have hdiv : blockSize * m + j % blockSize = j := by
        rw [← heq]
        exact Nat.div_add_mod _ _
      rw [if_pos heq, if_neg hold, hcontents _ (Nat.mod_lt _ (by decide)), hdiv]
  · rw [zero_add, hkept₂.blocks, hsum, add_right_comm, add_comm free₁, Multiset.singleton_add]
  · rw [Multiset.card_cons, hcost, appendCost_succ, appendCost_zero]
    omega
  · rw [Multiset.card_cons, hcost, appendCost_succ, appendCost_zero]
    omega

end Round

/-- The block is written when some of the buffer falls into it; otherwise it is zero already. -/
private theorem storeNew_bind {α : Type} {f : Bool → Fs α} {b : Int64} {contents : Block}
    {cond : Prop} [Decidable cond] (hdata : DataBlock b) (hzero : s.disk b = Block.zero)
    (h : ¬cond → contents = Block.zero) :
    (if cond then writeDataBlock b contents >>= f else pure true >>= f) s =
      f true (s.writeDisk b contents) := by
  split
  next => rw [Prog.bind_of_eq (writeDataBlock_run hdata)]
  next hcond => rw [h hcond, writeDisk_same hzero, Prog.pure_bind_apply]

theorem appendBlocks_spec {n : Int} (hbuff : buff ≠ [])
    (howned : Owned s free (node.blocks s + rest)) (hfilled : node.Filled s m)
    (hm : node.iBlocksNum.toInt = m) (hmapped : node.Mapped s) (hi : 1 ≤ i)
    (hposition : (m : Int) = n + i - 1)
    (hend : count ≠ 0 → m + count = (offset + buff.length - 1) / blockSize + 1) :
    ∃ k leak node' s' free', appendBlocks buff (Span.ofRange offset buff.length)
        (((offset + buff.length - 1) / blockSize : Nat) - n + 1)
        ((offset / blockSize : Nat) - n + 1) count i node (writtenUpTo offset buff.length m) s =
          some ((node', writtenUpTo offset buff.length (m + k)), s') ∧
      BlocksAppended rest free s node offset buff m count k leak s' node' free' := by
  induction count generalizing i m s node free with
  | zero => exact ⟨0, 0, node, s, free, rfl, .none howned hfilled hm hmapped (by simp)⟩
  | succ count ih =>
      by_cases hfree : free = 0
      · subst hfree
        refine ⟨0, 0, node, s, 0, ?_, .none howned hfilled hm hmapped fun _ => rfl⟩
        simp only [appendBlocks, Prog.bind_of_eq howned.allocate_empty]
        rfl
      obtain ⟨b, free₁, s₁, halloc, rfl, howned₁, hzero, hframe⟩ := howned.allocate hfree
      have hkept := kept_allocate howned hframe
      have hdata : DataBlock b := howned₁.data b (Multiset.mem_cons_self _ _)
      have hpos : ¬b.toInt ≤ 0 := by
        have := hdata.pos
        omega
      have howned₂ := howned₁
      rw [← hkept.blocks] at howned₂
      obtain ⟨added, node', s₂, free₂, hadd, hadded⟩ :=
        addDatablockToInode_spec howned₂ (hkept.mapped hmapped)
      cases added with
      | false =>
          refine ⟨0, {b}, node', s₂, free₂, ?_,
            .failed howned hmapped hframe hfilled hm howned₁ hadded⟩
          simp only [appendBlocks, Prog.bind_of_eq halloc, if_neg hpos, Prog.bind_of_eq hadd]
          rfl
      | true =>
          have hend := hend (by omega)
          obtain ⟨contents, length, hresult⟩ : ∃ contents length,
              (Span.ofRange offset buff.length).append buff (writtenUpTo offset buff.length m)
                (((offset + buff.length - 1) / blockSize : Nat) - n + 1)
                ((offset / blockSize : Nat) - n + 1) i = (contents, length) := ⟨_, _, rfl⟩
          obtain ⟨hlength, hbytes, hhole⟩ :=
            Span.append_spec hbuff hi hposition (by omega) hresult
          have hstill : s₂.disk b = Block.zero := by
            have hheld : b ∈ b ::ₘ (node.blocks s₁ + rest) := Multiset.mem_cons_self _ _
            rw [← hzero]
            refine howned₂.disk_eq hadded.frame hheld fun hmem => ?_
            rcases Multiset.mem_add.mp hmem with hmem | hmem
            · exact howned₂.not_free hheld hmem
            · exact (Multiset.nodup_cons.mp howned₂.held_nodup).1 (Multiset.mem_add.mpr
                (.inl (Multiset.mem_of_le (indirect_le_blocks s₁ node) hmem)))
          have hone := BlocksAppended.one howned hmapped hframe hfilled hm howned₁ hadded hbytes
          have howned₃ := hone.owned
          rw [zero_add] at howned₃
          obtain ⟨k, leak, node'', s', free', hrun, hrest⟩ := ih howned₃ (hone.filled rfl)
            hone.blocksNum hone.mapped (i := i + 1) (by omega) (by push_cast; omega) (by omega)
          rw [← hlength] at hrun
          refine ⟨k + 1, leak, node'', s', free', ?_, hone.trans hrest⟩
          simp only [appendBlocks, Prog.bind_of_eq halloc, if_neg hpos, Prog.bind_of_eq hadd,
            Bool.not_true, Bool.false_eq_true, if_false, hresult]
          rw [show m + (k + 1) = m + 1 + k by omega, ← hrun]
          exact storeNew_bind hdata hstill fun hlt => hhole (not_le.mp hlt)

end Append

end AltFs
