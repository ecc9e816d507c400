import AltFs.Shrinking

/-!
# Shrinking a file keeps its first blocks

`remove_datablocks_from_inode` on a file of `n` blocks, from position `last`
on: whatever it frees behind that position, the positions before it keep their
blocks.
-/

namespace AltFs

variable [Config]

namespace Keeps

variable {s₀ t s : FileSystem} {held rest free : Multiset Int64} {bs : List Int64}

theorem releaseAll (h : Keeps t ((bs : Multiset Int64) + rest) s free) :
    ∃ s', freeAll bs s = some (true, s') ∧ Keeps t rest s' ((bs : Multiset Int64) + free) := by
  obtain ⟨s', hrun, howned, hframe⟩ := h.owned.releaseAll h.ne_zero
  refine ⟨s', hrun, howned, fun hzero => h.ne_zero (add_eq_zero.mp hzero).2, fun a ha => ?_,
    h.only.trans ⟨_, howned.freeList.data, hframe⟩⟩
  rw [hframe.disk a (howned.data a ha).ne_zero (howned.not_free ha)]
  exact h.disk a (Multiset.mem_add.mpr (.inr ha))

theorem untouched (h : Keeps t held s free) {avoid : Multiset Int64} (hle : avoid ≤ held)
    (hsame : ∀ a ∈ avoid, t.disk a = s₀.disk a) : Untouched s₀ avoid s where
  head := h.owned.freeList.head_cases
  head_notMem hmem := by
    have hmem := Multiset.mem_of_le hle hmem
    exact h.owned.not_free hmem (h.owned.freeList.head_mem (h.owned.data _ hmem).ne_zero)
  disk a ha := by
    have hmem := Multiset.mem_of_le hle ha
    exact ⟨(h.owned.data a hmem).ne_zero, (h.disk a hmem).trans (hsame a ha)⟩

end Keeps

/--
The direct blocks and the first `d` trees of `node` are those of `node'`, which
has at least `last` blocks.
-/
structure Inode.KeepsRoots (node : Inode) (last d : Nat) (node' : Inode) : Prop where
  direct : ∀ i, node'.direct i = node.direct i
  root : ∀ e ≤ d, node'.root e = node.root e
  blocksNum : (last : Int) ≤ node'.iBlocksNum.toInt

section Rest

variable {s₀ t s : FileSystem} {node : Inode} {rest free : Multiset Int64} {n last : Nat}

omit [Config] in
private theorem toInt_withBlocksNum (hlast : last < maxBlocksNum) :
    (node.withBlocksNum last).iBlocksNum.toInt = last := by
  simp only [maxBlocksNum] at hlast
  rw [Inode.withBlocksNum]
  exact Int64.toInt_ofInt_of_le (by omega) (by omega)

/-- A whole tree is given up, or nothing when there is none. -/
private theorem removeTree_keeps {d : Nat} (h : node.WellMapped s₀ n) (hlow : 1 ≤ d) (hhigh : d ≤ 3)
    (hsame : ∀ a ∈ treeCells s₀ d (node.root d), t.disk a = s₀.disk a)
    (hkeeps : Keeps t (treeCells s₀ d (node.root d) + rest) s free) :
    ∃ done s' free', removeDatablocksUtility d (node.root d) s = some (done, s') ∧
      Keeps t rest s' free' := by
  by_cases hle : n ≤ levelStart d
  · rw [(h.root_eq_zero_iff hlow hhigh).mpr hle]
    obtain ⟨e, rfl⟩ : ∃ e, d = e + 1 := ⟨d - 1, by omega⟩
    exact ⟨false, s, free, rfl, hkeeps.mono (Multiset.le_add_left _ _)⟩
  · have hinner : treeInner s₀ d (node.root d) ≤ treeCells s₀ d (node.root d) :=
      PointerTree.inner_le_cells _ _
    have huntouched := hkeeps.untouched (hinner.trans (Multiset.le_add_right _ _)) fun a ha =>
      hsame a (Multiset.mem_of_le hinner ha)
    rw [← h.coe_levelOrder hlow hhigh] at hkeeps
    obtain ⟨s', hrun, hkeeps'⟩ := hkeeps.releaseAll
    exact ⟨true, s', _, removeTree_run h hlow hhigh (by omega) huntouched hrun, hkeeps'⟩

private theorem removeTripleRest_keeps (h : node.WellMapped s₀ n) (hlast : last < n)
    (hsame : ∀ a ∈ treeCells s₀ 3 (node.root 3), t.disk a = s₀.disk a)
    (hkeeps : Keeps t (treeCells s₀ 3 (node.root 3) + rest) s free) (left : Int) :
    ∃ done node' s' free', removeTripleRest node last left s = some ((done, node'), s') ∧
      Keeps t rest s' free' ∧ node.KeepsRoots last 2 node' := by
  have hbound := hlast.trans_le h.bound
  by_cases hle : left ≤ numOfDoubleIndirectBlockAddr
  · refine ⟨true, node.withBlocksNum last, s, free, ?_, hkeeps.mono (Multiset.le_add_left _ _),
      fun _ => rfl, fun _ _ => rfl, (toInt_withBlocksNum hbound).ge⟩
    rw [removeTripleRest, if_pos hle]
    rfl
  · obtain ⟨done, s', free', hrun, hkeeps'⟩ := removeTree_keeps h (by omega) (by omega) hsame hkeeps
    have hrun : removeDatablocksUtility 3 node.iTripleIndirect s = some (done, s') := hrun
    cases done with
    | false =>
        refine ⟨false, node, s', free', ?_, hkeeps', fun _ => rfl, fun _ _ => rfl, ?_⟩
        · rw [removeTripleRest, if_neg hle, Prog.bind_of_eq hrun]
          rfl
        · rw [h.blocksNum]
          omega
    | true =>
        refine ⟨true, { node with iTripleIndirect := 0 }.withBlocksNum last, s', free', ?_, hkeeps',
          fun _ => rfl, fun e he => ?_, (toInt_withBlocksNum hbound).ge⟩
        · rw [removeTripleRest, if_neg hle, Prog.bind_of_eq hrun]
          rfl
        · obtain rfl | rfl | rfl : e = 0 ∨ e = 1 ∨ e = 2 := by omega
          all_goals rfl

end Rest

/-! ## The cut in a tree -/

/-- How many entries are freed in the address block of position `last`, of tree `d`. -/
def cutCount (n last d : Nat) : Nat :=
  entryCount ((last - levelStart d) % numOfAddressesPerBlock)
    ((n - levelStart d : Nat) -
      numOfAddressesPerBlock * ((last - levelStart d) / numOfAddressesPerBlock : Nat))

/-- The state once the entries from position `last` on are cleared in their address block. -/
def Inode.cutState (s : FileSystem) (node : Inode) (n last d : Nat) : FileSystem :=
  clearedState s d (node.root d) (last - levelStart d) (cutCount n last d)

section Cut

variable {s : FileSystem} {node : Inode} {free rest : Multiset Int64} {n last d i : Nat}

omit [Config] in
private theorem cutCount_fits : (last - levelStart d) % numOfAddressesPerBlock + cutCount n last d ≤
    numOfAddressesPerBlock := by
  rw [cutCount, entryCount]
  simp only [numOfAddressesPerBlock]
  omega

omit [Config] in
private theorem lt_of_lt_cutCount {j : Nat} (hj : j < cutCount n last d) :
    last - levelStart d + j < n - levelStart d := by
  rw [cutCount, entryCount] at hj
  simp only [numOfAddressesPerBlock] at hj
  omega

/-- The positions of the file in a tree. -/
private theorem leaf_ne_zero (h : node.WellMapped s n) (hlow : 1 ≤ d) (hhigh : d ≤ 3)
    (hi : i < numOfAddressesPerBlock ^ d) (hlt : i < n - levelStart d) (k : Nat) (hk : k ≤ d) :
    treeNode s d k (node.root d) i ≠ 0 :=
  (h.filled.tree d hlow hhigh).node_ne_zero hk hi hlt

theorem cut_cleared (h : node.WellMapped s n) (hlow : 1 ≤ d) (hhigh : d ≤ 3)
    (hd : levelStart d ≤ last) (hd' : last < levelStart (d + 1)) (hlast : last < n) :
    PointerTree.Cleared numOfAddressesPerBlock s.words (node.cutState s n last d).words d
      (node.root d) (last - levelStart d) (cutCount n last d) := by
  rw [levelStart_succ hlow hhigh] at hd'
  exact clearedState_cleared hlow (by omega) cutCount_fits
    (leaf_ne_zero h hlow hhigh (by omega) (by omega) 1 hlow)

/-- The first step: the entries behind the cut that share its address block. -/
theorem cut_run (h : node.WellMapped s n) (howned : Owned s free (node.blocks s + rest))
    (hne : free ≠ 0) (hlow : 1 ≤ d) (hhigh : d ≤ 3) (hd : levelStart d ≤ last)
    (hd' : last < levelStart (d + 1)) (hlast : last < n) :
    ∃ arr s₁ s₂, removeEntries (cutCount n last d)
        ((last - levelStart d) % numOfAddressesPerBlock)
        (s.disk (treeNode s d 1 (node.root d) (last - levelStart d))) s =
        some ((true, arr), s₁) ∧
      writeDataBlock (treeNode s d 1 (node.root d) (last - levelStart d)) arr s₁ = some (true, s₂) ∧
      Keeps (node.cutState s n last d)
        (treeCells (node.cutState s n last d) d (node.root d) + (node.blocksExcept s d + rest)) s₂
        (((List.range' (last - levelStart d) (cutCount n last d)).map
          (treeNode s d 0 (node.root d)) : List Int64) + free) ∧
      treeCells (node.cutState s n last d) d (node.root d) +
        ((List.range' (last - levelStart d) (cutCount n last d)).map
          (treeNode s d 0 (node.root d)) : List Int64) = treeCells s d (node.root d) := by
  rw [levelStart_succ hlow hhigh] at hd'
  rw [blocks_split hlow hhigh, add_assoc] at howned
  have hm : last - levelStart d < numOfAddressesPerBlock ^ d := by omega
  apply clearCut_run howned hne hlow hm cutCount_fits
    (leaf_ne_zero h hlow hhigh hm (by omega) 1 hlow)
  intro j hj
  have hfits := @cutCount_fits n last d
  exact leaf_ne_zero h hlow hhigh (PointerTree.add_lt_pow hlow hm (by omega))
    (lt_of_lt_cutCount hj) 0 (Nat.zero_le d)

end Cut

/-- The direct blocks and the trees below tree `d`. -/
def Inode.blocksBelow (s : FileSystem) (node : Inode) : Nat → Multiset Int64
  | 0 => ∑ i ∈ Finset.range numOfDirectBlocks, cell (node.direct i)
  | d + 1 => blocksBelow s node d + treeCells s d (node.root d)

section Levels

variable {s : FileSystem} {node : Inode}

omit [Config] in
private theorem blocksBelow_succ (d : Nat) :
    node.blocksBelow s (d + 1) = node.blocksBelow s d + treeCells s d (node.root d) := rfl

omit [Config] in
private theorem blocks_eq_below : node.blocks s = node.blocksBelow s 4 := by
  have hnone : treeCells s 0 (node.root 0) = 0 := treeCells_zero s 0
  have htrees : ∑ j ∈ Finset.range 3, treeCells s (j + 1) (node.root (j + 1)) =
      treeCells s 1 (node.root 1) + treeCells s 2 (node.root 2) + treeCells s 3 (node.root 3) := by
    rw [Finset.sum_range_succ, Finset.sum_range_succ, Finset.sum_range_one]
  rw [Inode.blocks, htrees, blocksBelow_succ, blocksBelow_succ, blocksBelow_succ, blocksBelow_succ,
    hnone, add_zero, add_assoc, add_assoc, add_assoc]
  rfl

omit [Config] in
theorem blocksExcept_one : node.blocksExcept s 1 =
    treeCells s 2 (node.root 2) + (treeCells s 3 (node.root 3) + node.blocksBelow s 1) := by
  have hsplit := @blocks_split s node 1 (by omega) (by omega)
  rw [blocks_eq_below, blocksBelow_succ, blocksBelow_succ, blocksBelow_succ] at hsplit
  refine add_left_cancel (a := treeCells s 1 (node.root 1)) (hsplit.symm.trans ?_)
  ac_rfl

omit [Config] in
theorem blocksExcept_two : node.blocksExcept s 2 =
    treeCells s 3 (node.root 3) + node.blocksBelow s 2 := by
  have hsplit := @blocks_split s node 2 (by omega) (by omega)
  rw [blocks_eq_below, blocksBelow_succ, blocksBelow_succ] at hsplit
  refine add_left_cancel (a := treeCells s 2 (node.root 2)) (hsplit.symm.trans ?_)
  ac_rfl

omit [Config] in
theorem blocksExcept_three : node.blocksExcept s 3 = node.blocksBelow s 3 := by
  have hsplit := @blocks_split s node 3 (by omega) (by omega)
  rw [blocks_eq_below, blocksBelow_succ] at hsplit
  refine add_left_cancel (a := treeCells s 3 (node.root 3)) (hsplit.symm.trans ?_)
  ac_rfl

end Levels

/-! ## The double-indirect level -/

section Double

variable {s : FileSystem} {node : Inode} {free : Multiset Int64} {n last : Nat}

/-- What is known of the positions behind the cut, once its address block is cleared. -/
private theorem cutLeaves_ne_zero {d i : Nat} (h : node.WellMapped s n) (hlow : 1 ≤ d)
    (hhigh : d ≤ 3) (hd : levelStart d ≤ last) (hd' : last < levelStart (d + 1)) (hlast : last < n)
    (hi : i < numOfAddressesPerBlock ^ d) (hlt : i < n - levelStart d)
    (hbehind : (last - levelStart d) / numOfAddressesPerBlock < i / numOfAddressesPerBlock) :
    treeNode (node.cutState s n last d) d 0 (node.root d) i ≠ 0 := by
  have hcleared := cut_cleared h hlow hhigh hd hd' hlast
  have hnodup := Multiset.nodup_of_le (treeCells_le_blocks hlow hhigh) h.nodup
  obtain ⟨-, -, hnode⟩ := hcleared.spec
    (Multiset.nodup_of_le (PointerTree.inner_le_cells _ _) hnodup)
  have hsame := hnode 0 i hi
  have hfits := @cutCount_fits n last d
  have hout : ¬(0 = 0 ∧ last - levelStart d ≤ i ∧
      i < last - levelStart d + cutCount n last d) := by
    rintro ⟨-, -, hhigh⟩
    simp only [numOfAddressesPerBlock] at *
    omega
  rw [if_neg hout] at hsame
  rw [treeNode, hsame]
  exact leaf_ne_zero h hlow hhigh hi hlt 0 (Nat.zero_le d)

/-- The first round of the loop clears the address block of the cut. -/
private theorem removeDoubleLoop_first {arr : Block} {q : Int64} {c inner k : Nat}
    {ending : Int} {s₁ s₂ : FileSystem} {arr' : Block} (hq : arr.word c = q) (hdata : DataBlock q)
    (hentries : removeEntries (entryCount inner ending) inner (s.disk q) s =
      some ((true, arr'), s₁))
    (hwrite : writeDataBlock q arr' s₁ = some (true, s₂))
    (hpos : 0 < inner + entryCount inner ending) :
    removeDoubleLoop arr c inner (k + 1) c ending s =
      if ((inner + entryCount inner ending : Nat) : Int) = ending then some ((true, ending), s₂)
      else removeDoubleLoop arr c inner k (c + 1) (ending - numOfAddressesPerBlock) s₂ := by
  have hvalid : ¬q.toInt ≤ 0 := by
    have := hdata.pos
    omega
  have hread := readDataBlockArray_run (s := s) hdata
  split
  next hend =>
    simp only [removeDoubleLoop, hq, hvalid, if_true, if_false, Prog.bind_of_eq hread,
      Prog.bind_of_eq hentries, Bool.not_true, Bool.false_eq_true, Prog.bind_of_eq hwrite, hend,
      Prog.pure_apply]
  next hend =>
    simp only [removeDoubleLoop, hq, hvalid, if_true, if_false, Prog.bind_of_eq hread,
      Prog.bind_of_eq hentries, Bool.not_true, Bool.false_eq_true, Prog.bind_of_eq hwrite, hend,
      hpos, and_self]

/-- The path to the cut consists of data blocks, and clearing its end leaves the rest of it. -/
theorem cutPath {d : Nat} (h : node.WellMapped s n) (hlow : 1 ≤ d) (hhigh : d ≤ 3)
    (hd : levelStart d ≤ last) (hd' : last < levelStart (d + 1)) (hlast : last < n) :
    (∀ k, DataBlock (treeNode s d k (node.root d) (last - levelStart d))) ∧
      ∀ a, a ≠ treeNode s d 1 (node.root d) (last - levelStart d) →
        (node.cutState s n last d).disk a = s.disk a := by
  have hm := (cut_cleared h hlow hhigh hd hd' hlast).leaf
  refine ⟨treeNode_dataBlock h.data hlow hhigh hm
    (leaf_ne_zero h hlow hhigh hm (by omega) 0 (Nat.zero_le d)), fun a ha => ?_⟩
  rw [Inode.cutState, clearedState, disk_writeDisk_ne ha]

omit [Config] in
/-- What is behind the cut, as the loop visits it. -/
private theorem children_le_beyond {t : FileSystem} {p : Int64} {m : Nat} (hp : p ≠ 0)
    (hm : m < numOfAddressesPerBlock ^ 2) :
    treeChildren t 1 p (m / numOfAddressesPerBlock + 1)
        (numOfAddressesPerBlock - (m / numOfAddressesPerBlock + 1)) +
      PointerTree.upTo numOfAddressesPerBlock t.words 2 p m ≤ treeCells t 2 p := by
  rw [treeCells, ← PointerTree.upTo_add_beyond hm, PointerTree.beyond_succ hp, pow_one, add_comm]
  exact Multiset.add_le_add_left (Multiset.le_add_left _ _)

omit [Config] in
/-- The words of a child of the root are leaves of a tree of depth 2. -/
private theorem treeNode_grandchild {t : FileSystem} {p : Int64} {c j : Nat} (hp : p ≠ 0)
    (hq : t.words p c ≠ 0) (hj : j < numOfAddressesPerBlock) :
    treeNode t 2 0 p (c * numOfAddressesPerBlock + j) = t.words (t.words p c) j := by
  have hchild : treeNode t 2 0 p (c * numOfAddressesPerBlock ^ 1 + j) =
      treeNode t 1 0 (t.words p c) j := PointerTree.nodeAt_child (Nat.zero_le 1) hp
        (show j < numOfAddressesPerBlock ^ 1 from hj)
  rw [pow_one] at hchild
  rw [hchild, treeNode, PointerTree.nodeAt_one hq]

private theorem removeDoubleLoop_cut (h : node.WellMapped s n)
    (howned : Owned s free (node.blocks s)) (hne : free ≠ 0) (hd : levelStart 2 < last)
    (hd' : last < levelStart 3) (hlast : last < n) :
    ∃ result s' free', removeDoubleLoop (s.disk (node.root 2))
        ((last - levelStart 2) / numOfAddressesPerBlock)
        ((last - levelStart 2) % numOfAddressesPerBlock)
        (numOfAddressesPerBlock - (last - levelStart 2) / numOfAddressesPerBlock)
        ((last - levelStart 2) / numOfAddressesPerBlock)
        ((n - levelStart 2 : Nat) -
          numOfAddressesPerBlock * ((last - levelStart 2) / numOfAddressesPerBlock : Nat)) s =
        some (result, s') ∧
      Keeps (node.cutState s n last 2) (PointerTree.upTo numOfAddressesPerBlock
        (node.cutState s n last 2).words 2 (node.root 2) (last - levelStart 2) +
          node.blocksExcept s 2) s' free' := by
  obtain ⟨arr, s₁, s₂, hentries, hwrite, hkeeps, -⟩ :=
    cut_run h (by rwa [add_zero]) hne (d := 2) (by omega) (by omega) hd.le hd' hlast
  rw [add_zero] at hkeeps
  have hm := (cut_cleared h (d := 2) (by omega) (by omega) hd.le hd' hlast).leaf
  have hbehind := @cutLeaves_ne_zero _ s node n last 2
  obtain ⟨hdata, hdisk⟩ := cutPath h (d := 2) (by omega) (by omega) hd.le hd' hlast
  have htop : treeNode s 2 2 (node.root 2) (last - levelStart 2) = node.root 2 :=
    PointerTree.nodeAt_top le_rfl _ _
  have hroot := (hdata 2).ne_zero
  have hword := treeNode_step (s := s) (d := 2) (k := 1) (by omega) hm (hdata 2).ne_zero
  rw [htop] at hroot hword
  have hpos : 0 < (last - levelStart 2) % numOfAddressesPerBlock + cutCount n last 2 := by
    rw [cutCount, entryCount]
    simp only [numOfAddressesPerBlock]
    omega
  have hc : (last - levelStart 2) / numOfAddressesPerBlock < numOfAddressesPerBlock := by
    rw [pow_two] at hm
    exact Nat.div_lt_of_lt_mul hm
  rw [pow_one, Nat.mod_eq_of_lt hc] at hword
  have hcount : numOfAddressesPerBlock - (last - levelStart 2) / numOfAddressesPerBlock =
      numOfAddressesPerBlock - ((last - levelStart 2) / numOfAddressesPerBlock + 1) + 1 := by omega
  have hfirst := removeDoubleLoop_first
    (k := numOfAddressesPerBlock - ((last - levelStart 2) / numOfAddressesPerBlock + 1))
    hword (hdata 1) hentries hwrite hpos
  rw [hcount, hfirst]
  have hle := add_le_add (children_le_beyond (t := node.cutState s n last 2) hroot hm)
    (le_refl (node.blocksExcept s 2))
  have hrest := hkeeps.mono hle
  rw [add_assoc] at hrest
  split
  next hend => exact ⟨_, s₂, _, rfl, hrest.mono (Multiset.le_add_left _ _)⟩
  next hend =>
    have harr : (node.cutState s n last 2).disk (node.root 2) = s.disk (node.root 2) := by
      have hnodup := Multiset.nodup_of_le
        (treeCells_le_blocks (d := 2) (by omega) (by omega)) h.nodup
      have hother := PointerTree.nodeAt_ne_of_lt hnodup (show 1 < 2 by omega) le_rfl hm
        (hdata 1).ne_zero
      rw [PointerTree.nodeAt_top le_rfl] at hother
      exact hdisk _ hother
    rw [← harr]
    apply removeDoubleLoop_keeps (Nat.lt_succ_self _) hrest
    intro k hk hq j hj hleft
    have hleaf := hbehind
      (i := ((last - levelStart 2) / numOfAddressesPerBlock + 1 + k) * numOfAddressesPerBlock + j)
      h (by omega) (by omega) hd.le hd' hlast (by simp only [numOfAddressesPerBlock] at *; omega)
      (by simp only [numOfAddressesPerBlock] at *; omega)
      (by simp only [numOfAddressesPerBlock] at *; omega)
    have hchild := treeNode_grandchild (t := node.cutState s n last 2)
      (c := (last - levelStart 2) / numOfAddressesPerBlock + 1 + k) hroot hq hj
    rwa [hchild] at hleaf

/-- The cut changes nothing outside its tree. -/
theorem cutState_disk_of_except {d : Nat} (h : node.WellMapped s n) (hlow : 1 ≤ d)
    (hhigh : d ≤ 3) (hd : levelStart d ≤ last) (hd' : last < levelStart (d + 1)) (hlast : last < n)
    {a : Int64} (ha : a ∈ node.blocksExcept s d) : (node.cutState s n last d).disk a = s.disk a := by
  obtain ⟨hdata, hdisk⟩ := cutPath h hlow hhigh hd hd' hlast
  have hm := (cut_cleared h hlow hhigh hd hd' hlast).leaf
  have hnodup := h.nodup
  rw [blocks_split hlow hhigh, Multiset.nodup_add] at hnodup
  apply hdisk
  rintro rfl
  exact Multiset.disjoint_left.mp hnodup.2.2
    (PointerTree.nodeAt_mem_cells hm (hdata 1).ne_zero) ha

/-- Removal from a position of the double-indirect level on. -/
theorem removeFromDouble_keeps (h : node.WellMapped s n) (howned : Owned s free (node.blocks s))
    (hne : free ≠ 0) (hd : levelStart 2 < last) (hd' : last < levelStart 3) (hlast : last < n) :
    ∃ done node' s' free', removeFromDouble node last (last - levelStart 2) s =
        some ((done, node'), s') ∧
      Keeps (node.cutState s n last 2) (PointerTree.upTo numOfAddressesPerBlock
        (node.cutState s n last 2).words 2 (node.root 2) (last - levelStart 2) +
          node.blocksBelow s 2) s' free' ∧ node.KeepsRoots last 2 node' := by
  obtain ⟨⟨done, left⟩, s₁, free₁, hloop, hkeeps⟩ :=
    removeDoubleLoop_cut h howned hne hd hd' hlast
  obtain ⟨hdata, -⟩ := cutPath h (d := 2) (by omega) (by omega) hd.le hd' hlast
  have htop : treeNode s 2 2 (node.root 2) (last - levelStart 2) = node.root 2 :=
    PointerTree.nodeAt_top le_rfl _ _
  have hroot := hdata 2
  rw [htop] at hroot
  have hread := readDataBlockArray_run (s := s) hroot
  have hending : node.iBlocksNum.toInt - (numOfAddressesPerBlock + numOfDirectBlocks) =
      ((n - levelStart 2 : Nat) : Int) := by
    rw [h.blocksNum]
    simp only [numOfAddressesPerBlock, numOfDirectBlocks, levelStart] at *
    omega
  have hpointer : node.iDoubleIndirect = node.root 2 := rfl
  have hset : ¬node.root 2 = 0 := hroot.ne_zero
  rw [blocksExcept_two, add_left_comm] at hkeeps
  cases done with
  | false =>
      refine ⟨false, node, s₁, free₁, ?_, hkeeps.mono (Multiset.le_add_left _ _), fun _ => rfl,
        fun _ _ => rfl, ?_⟩
      · simp only [removeFromDouble, hpointer, hset, if_false, Prog.bind_of_eq hread, hending,
          Prog.bind_of_eq hloop, Bool.not_false, if_true, Prog.pure_apply]
      · rw [h.blocksNum]
        omega
  | true =>
      obtain ⟨done, node', s', free', hrun, hkeeps', hroots⟩ :=
        removeTripleRest_keeps h hlast (fun a ha => cutState_disk_of_except h (d := 2) (by omega)
          (by omega) hd.le hd' hlast (by
            rw [blocksExcept_two]
            exact Multiset.mem_add.mpr (.inl ha))) hkeeps left
      refine ⟨done, node', s', free', ?_, hkeeps', hroots⟩
      simp only [removeFromDouble, hpointer, hset, if_false, Prog.bind_of_eq hread, hending,
        Prog.bind_of_eq hloop, Bool.not_true, Bool.false_eq_true, hrun]

end Double

/-- Removal from the first position behind the double-indirect level on. -/
theorem removeFromDouble_end (h : node.WellMapped s n) (howned : Owned s free (node.blocks s))
    (hne : free ≠ 0) (hlast : levelStart 3 < n) :
    ∃ done node' s' free', removeFromDouble node (levelStart 3) (levelStart 3 - levelStart 2) s =
        some ((done, node'), s') ∧
      Keeps s (treeCells s 2 (node.root 2) + node.blocksBelow s 2) s' free' ∧
      node.KeepsRoots (levelStart 3) 2 node' := by
  have hleaf : treeNode s 2 0 (node.root 2) 0 ≠ 0 := by
    apply leaf_ne_zero h (by omega) (by omega) (by decide) _ 0 (by omega)
    simp only [levelStart] at *
    omega
  have hroot := treeNode_dataBlock h.data (d := 2) (by omega) (by omega) (by decide) hleaf 2
  have htop : treeNode s 2 2 (node.root 2) 0 = node.iDoubleIndirect :=
    PointerTree.nodeAt_top le_rfl _ _
  rw [htop] at hroot
  have hread := readDataBlockArray_run (s := s) hroot
  have hindex : (levelStart 3 - levelStart 2) / numOfAddressesPerBlock = numOfAddressesPerBlock := by
    simp only [levelStart, numOfAddressesPerBlock]
  have hkeeps : Keeps s (treeCells s 3 (node.root 3) + (treeCells s 2 (node.root 2) +
      node.blocksBelow s 2)) s free := by
    rw [blocks_split (d := 2) (by omega) (by omega), blocksExcept_two, add_left_comm] at howned
    exact .start howned hne
  obtain ⟨done, node', s', free', hrun, hkeeps', hroots⟩ :=
    removeTripleRest_keeps h hlast (fun _ _ => rfl) hkeeps (node.iBlocksNum.toInt -
      (numOfAddressesPerBlock + numOfDirectBlocks) - numOfAddressesPerBlock * numOfAddressesPerBlock)
  refine ⟨done, node', s', free', ?_, hkeeps', hroots⟩
  simp only [removeFromDouble, hroot.ne_zero, if_false, Prog.bind_of_eq hread, hindex,
    Nat.sub_self, removeDoubleLoop, Prog.pure_bind_apply, Bool.not_true, Bool.false_eq_true, hrun]

/-! ## The single-indirect level -/

section Single

variable {s t u : FileSystem} {node : Inode} {rest free : Multiset Int64} {n last : Nat}

/-- Behind the single-indirect level everything is given up. -/
private theorem removeDoubleRest_keeps (h : node.WellMapped s n) (last : Nat)
    (hsame : ∀ a ∈ treeCells s 2 (node.root 2) + treeCells s 3 (node.root 3), t.disk a = s.disk a)
    (hkeeps : Keeps t (treeCells s 2 (node.root 2) + (treeCells s 3 (node.root 3) + rest)) u free) :
    ∃ s', removeDoubleRest node last (node.iBlocksNum.toInt - numOfDirectBlocks) u =
        some ((true, { node with iDoubleIndirect := 0, iTripleIndirect := 0 }.withBlocksNum last),
          s') ∧
      Keeps t rest s' (treeCells s 2 (node.root 2) + treeCells s 3 (node.root 3) + free) := by
  have hinner : treeInner s 2 (node.root 2) + treeInner s 3 (node.root 3) ≤
      treeCells s 2 (node.root 2) + treeCells s 3 (node.root 3) :=
    add_le_add (PointerTree.inner_le_cells _ _) (PointerTree.inner_le_cells _ _)
  rw [← add_assoc] at hkeeps
  have huntouched := hkeeps.untouched (hinner.trans (Multiset.le_add_right _ _)) fun a ha =>
    hsame a (Multiset.mem_of_le hinner ha)
  have horder : ((node.levelOrder s n 2 ++ node.levelOrder s n 3 : List Int64) : Multiset Int64) =
      treeCells s 2 (node.root 2) + treeCells s 3 (node.root 3) := by
    rw [← Multiset.coe_add, h.coe_levelOrder (by omega) (by omega),
      h.coe_levelOrder (by omega) (by omega)]
  rw [← horder] at hkeeps ⊢
  obtain ⟨s', hrun, hkeeps'⟩ := hkeeps.releaseAll
  refine ⟨s', removeDoubleRest_run h rfl rfl ?_ huntouched hrun, hkeeps'⟩
  rw [h.blocksNum]

omit [Config] in
private theorem cut_single (hd : levelStart 1 < last)
    (hend : last ≤ levelStart 2) :
    ({ node with iDoubleIndirect := 0, iTripleIndirect := 0 } : Inode).withBlocksNum last =
      node.cut last := by
  have hsize : levelStart 1 = 12 := rfl
  have hsize' : levelStart 2 = 524 := rfl
  have hsize'' : levelStart 3 = 262668 := rfl
  have hdirect : (fun i : Fin numOfDirectBlocks => if i.val < last then node.iDirectBlocks i else 0) =
      node.iDirectBlocks := by
    funext i
    have := i.isLt
    simp only [numOfDirectBlocks] at this
    rw [if_pos (by omega)]
  simp only [Inode.cut, Inode.withBlocksNum]
  rw [hdirect, if_pos hd, if_neg (by omega), if_neg (by omega)]

/-- Removal from a position inside the single-indirect level on. -/
theorem removeFromSingle_cut (h : node.WellMapped s n)
    (howned : Owned s free (node.blocks s + rest)) (hne : free ≠ 0) (hd : levelStart 1 < last)
    (hd' : last < levelStart 2) (hlast : last < n) :
    ∃ s' free', removeFromSingle node last (last - levelStart 1) s =
        some ((true, node.cut last), s') ∧
      Keeps (node.cutState s n last 1) (treeCells (node.cutState s n last 1) 1 (node.root 1) +
        (node.blocksBelow s 1 + rest)) s' free' ∧
      free' + treeCells (node.cutState s n last 1) 1 (node.root 1) + node.blocksBelow s 1 =
        free + node.blocks s := by
  obtain ⟨arr, s₁, s₂, hentries, hwrite, hkeeps, hcells⟩ :=
    cut_run h howned hne (d := 1) (by omega) (by omega) hd.le hd' hlast
  obtain ⟨hdata, -⟩ := cutPath h (d := 1) (by omega) (by omega) hd.le hd' hlast
  have hm : last - levelStart 1 < numOfAddressesPerBlock := by
    simp only [levelStart, numOfAddressesPerBlock] at *
    omega
  have htop : treeNode s 1 1 (node.root 1) (last - levelStart 1) = node.iSingleIndirect :=
    PointerTree.nodeAt_top le_rfl _ _
  have hroot := hdata 1
  have hcount : cutCount n last 1 = entryCount (last - levelStart 1)
      (node.iBlocksNum.toInt - numOfDirectBlocks) := by
    rw [cutCount, Nat.mod_eq_of_lt hm, Nat.div_eq_of_lt hm, h.blocksNum, Nat.cast_zero, mul_zero,
      sub_zero]
    congr 1
    simp only [levelStart, numOfDirectBlocks] at *
    omega
  rw [htop] at hroot hentries hwrite
  rw [Nat.mod_eq_of_lt hm, hcount] at hentries
  have hread := readDataBlockArray_run (s := s) hroot
  rw [blocksExcept_one, add_assoc, add_assoc, add_left_comm,
    add_left_comm (treeCells _ 1 _)] at hkeeps
  obtain ⟨s', hrest, hkeeps'⟩ := removeDoubleRest_keeps h last (fun a ha => cutState_disk_of_except h
    (d := 1) (by omega) (by omega) hd.le hd' hlast (by
      rw [blocksExcept_one, ← add_assoc]
      exact Multiset.mem_add.mpr (.inl ha))) hkeeps
  refine ⟨s', _, ?_, hkeeps', ?_⟩
  · rw [← cut_single hd hd'.le]
    simp only [removeFromSingle, hroot.ne_zero, if_false, Prog.bind_of_eq hread,
      Prog.bind_of_eq hentries, Bool.not_true, Bool.false_eq_true, Prog.bind_of_eq hwrite, hrest]
  · rw [blocks_split (d := 1) (by omega) (by omega), blocksExcept_one, ← hcells]
    ac_rfl

/-- Removal from the first position behind the single-indirect level on. -/
theorem removeFromSingle_end (h : node.WellMapped s n)
    (howned : Owned s free (node.blocks s + rest)) (hne : free ≠ 0) (hlast : levelStart 2 < n) :
    ∃ s' free', removeFromSingle node (levelStart 2) (levelStart 2 - levelStart 1) s =
        some ((true, node.cut (levelStart 2)), s') ∧
      Keeps s (treeCells s 1 (node.root 1) + (node.blocksBelow s 1 + rest)) s' free' ∧
      free' + treeCells s 1 (node.root 1) + node.blocksBelow s 1 = free + node.blocks s := by
  have hleaf : treeNode s 1 0 (node.root 1) 0 ≠ 0 := by
    apply leaf_ne_zero h (by omega) (by omega) (by decide) _ 0 (by omega)
    simp only [levelStart] at *
    omega
  have hroot := treeNode_dataBlock h.data (d := 1) (by omega) (by omega) (by decide) hleaf 1
  have htop : treeNode s 1 1 (node.root 1) 0 = node.iSingleIndirect :=
    PointerTree.nodeAt_top le_rfl _ _
  rw [htop] at hroot
  have hread := readDataBlockArray_run (s := s) hroot
  have hwrite : writeDataBlock node.iSingleIndirect (s.disk node.iSingleIndirect) s =
      some (true, s) := by
    rw [writeDataBlock_run hroot, writeDisk_same rfl]
  have hcount : entryCount (levelStart 2 - levelStart 1)
      (node.iBlocksNum.toInt - numOfDirectBlocks) = 0 := by
    rw [entryCount]
    simp only [levelStart, numOfAddressesPerBlock]
    omega
  have hkeeps : Keeps s (treeCells s 2 (node.root 2) + (treeCells s 3 (node.root 3) +
      (treeCells s 1 (node.root 1) + (node.blocksBelow s 1 + rest)))) s free := by
    rw [blocks_split (d := 1) (by omega) (by omega), blocksExcept_one, add_assoc, add_assoc,
      add_assoc, add_left_comm, add_left_comm (treeCells _ 1 _)] at howned
    exact .start howned hne
  obtain ⟨s', hrest, hkeeps'⟩ := removeDoubleRest_keeps h (levelStart 2) (fun _ _ => rfl) hkeeps
  refine ⟨s', _, ?_, hkeeps', ?_⟩
  · rw [← cut_single (by decide) le_rfl]
    simp only [removeFromSingle, hroot.ne_zero, if_false, Prog.bind_of_eq hread, hcount,
      removeEntries, Prog.pure_bind_apply, Bool.not_true, Bool.false_eq_true,
      Prog.bind_of_eq hwrite, hrest]
  · rw [blocks_split (d := 1) (by omega) (by omega), blocksExcept_one]
    ac_rfl

end Single

/-! ## The triple-indirect level -/

section Triple

variable {s : FileSystem} {node : Inode} {free : Multiset Int64} {n last : Nat}

/-- The first round of the inner loop clears the address block of the cut, which it never frees. -/
private theorem removeTripleInner_first {arr : Block} {q : Int64} {c inner k : Nat}
    {ending : Int} {s₁ s₂ : FileSystem} {arr' : Block} (hq : arr.word c = q) (hdata : DataBlock q)
    (hentries : removeEntries (entryCount inner ending) inner (s.disk q) s =
      some ((true, arr'), s₁))
    (hwrite : writeDataBlock q arr' s₁ = some (true, s₂)) :
    removeTripleInner arr c inner (k + 1) c ending s =
      if ((inner + entryCount inner ending : Nat) : Int) = ending
      then some ((true, true, ending), s₂)
      else removeTripleInner arr c inner k (c + 1) (ending - numOfAddressesPerBlock) s₂ := by
  have hvalid : ¬q.toInt ≤ 0 := by
    have := hdata.pos
    omega
  have hread := readDataBlockArray_run (s := s) hdata
  split
  next hend =>
    simp only [removeTripleInner, hq, hvalid, if_true, if_false, Prog.bind_of_eq hread,
      Prog.bind_of_eq hentries, Bool.not_true, Bool.false_eq_true, Prog.bind_of_eq hwrite, hend,
      Prog.pure_apply]
  next hend =>
    simp only [removeTripleInner, hq, hvalid, if_true, if_false, Prog.bind_of_eq hread,
      Prog.bind_of_eq hentries, Bool.not_true, Bool.false_eq_true, Prog.bind_of_eq hwrite, hend]

/-- The first round of the outer loop never frees its double-indirect block. -/
private theorem removeTripleLoop_first {arr : Block} {q : Int64} {t₀ j₀ inner k : Nat}
    {ending left : Int} {s₁ : FileSystem} {done reached : Bool} (hq : arr.word t₀ = q)
    (hdata : DataBlock q)
    (hinner : removeTripleInner (s.disk q) j₀ inner (numOfAddressesPerBlock - j₀) j₀ ending s =
      some ((done, reached, left), s₁)) :
    removeTripleLoop arr t₀ j₀ inner (k + 1) t₀ ending s =
      if !done then some (false, s₁)
      else if reached then some (true, s₁)
      else removeTripleLoop arr t₀ j₀ inner k (t₀ + 1) left s₁ := by
  have hvalid : ¬q.toInt ≤ 0 := by
    have := hdata.pos
    omega
  have hread := readDataBlockArray_run (s := s) hdata
  cases done with
  | false =>
      simp only [removeTripleLoop, hq, hvalid, if_true, if_false, Prog.bind_of_eq hread,
        Prog.bind_of_eq hinner, Bool.not_false, Prog.pure_apply]
  | true =>
      cases reached with
      | true =>
          simp only [removeTripleLoop, hq, hvalid, if_true, if_false, Prog.bind_of_eq hread,
            Prog.bind_of_eq hinner, Bool.not_true, Bool.false_eq_true, Prog.pure_apply]
      | false =>
          simp only [removeTripleLoop, hq, hvalid, if_true, if_false, Prog.bind_of_eq hread,
            Prog.bind_of_eq hinner, Bool.not_true, Bool.false_eq_true]

omit [Config] in
private theorem treeNode_greatgrandchild {t : FileSystem} {p : Int64} {a c j : Nat} (hp : p ≠ 0)
    (ha : t.words p a ≠ 0) (hq : t.words (t.words p a) c ≠ 0) (hc : c < numOfAddressesPerBlock)
    (hj : j < numOfAddressesPerBlock) :
    treeNode t 3 0 p ((a * numOfAddressesPerBlock + c) * numOfAddressesPerBlock + j) =
      t.words (t.words (t.words p a) c) j := by
  have hchild : treeNode t 3 0 p (a * numOfAddressesPerBlock ^ 2 + (c * numOfAddressesPerBlock + j)) =
      treeNode t 2 0 (t.words p a) (c * numOfAddressesPerBlock + j) :=
    PointerTree.nodeAt_child (Nat.zero_le 2) hp (by
      simp only [numOfAddressesPerBlock] at *
      omega)
  have hindex : (a * numOfAddressesPerBlock + c) * numOfAddressesPerBlock + j =
      a * numOfAddressesPerBlock ^ 2 + (c * numOfAddressesPerBlock + j) := by ring
  rw [hindex, hchild, treeNode_grandchild ha hq hj]

omit [Config] in
/-- What is behind the cut, as the two loops visit it. -/
private theorem grandchildren_le_beyond {t : FileSystem} {p : Int64} {m : Nat} (hp : p ≠ 0)
    (hq : t.words p (m / numOfDoubleIndirectBlockAddr) ≠ 0)
    (hm : m < numOfAddressesPerBlock ^ 3) :
    treeChildren t 1 (t.words p (m / numOfDoubleIndirectBlockAddr))
        (m / numOfAddressesPerBlock % numOfAddressesPerBlock + 1)
        (numOfAddressesPerBlock - (m / numOfAddressesPerBlock % numOfAddressesPerBlock + 1)) +
      (treeChildren t 2 p (m / numOfDoubleIndirectBlockAddr + 1)
        (numOfAddressesPerBlock - (m / numOfDoubleIndirectBlockAddr + 1)) +
          PointerTree.upTo numOfAddressesPerBlock t.words 3 p m) ≤ treeCells t 3 p := by
  have hsquare : numOfAddressesPerBlock ^ 2 = numOfDoubleIndirectBlockAddr := rfl
  have hmod : m % numOfDoubleIndirectBlockAddr / numOfAddressesPerBlock =
      m / numOfAddressesPerBlock % numOfAddressesPerBlock := by
    simp only [numOfDoubleIndirectBlockAddr, numOfAddressesPerBlock]
    omega
  have hcells := @PointerTree.upTo_add_beyond _ _ _ _ t.words _ _ p hm
  rw [PointerTree.beyond_succ hp, hsquare, PointerTree.beyond_succ hq, pow_one, hmod] at hcells
  rw [treeCells, ← hcells, ← add_assoc, add_comm]
  apply Multiset.add_le_add_left
  rw [add_assoc]
  exact Multiset.le_add_left _ _

omit [Config] in
/-- A leaf below a later child of the double-indirect block of the cut `m`. -/
private theorem leaf_behind_child {m size k x : Nat} (hm : m < numOfAddressesPerBlock ^ 3)
    (hk : k < numOfAddressesPerBlock - (m / numOfAddressesPerBlock % numOfAddressesPerBlock + 1))
    (hx : x < numOfAddressesPerBlock)
    (hleft : (x : Int) < size - numOfAddressesPerBlock * (m / numOfAddressesPerBlock : Nat) -
      numOfAddressesPerBlock - numOfAddressesPerBlock * k) :
    (m / numOfDoubleIndirectBlockAddr * numOfAddressesPerBlock +
        (m / numOfAddressesPerBlock % numOfAddressesPerBlock + 1 + k)) * numOfAddressesPerBlock + x <
        numOfAddressesPerBlock ^ 3 ∧
      (m / numOfDoubleIndirectBlockAddr * numOfAddressesPerBlock +
        (m / numOfAddressesPerBlock % numOfAddressesPerBlock + 1 + k)) * numOfAddressesPerBlock + x <
        size ∧
      m / numOfAddressesPerBlock < ((m / numOfDoubleIndirectBlockAddr * numOfAddressesPerBlock +
        (m / numOfAddressesPerBlock % numOfAddressesPerBlock + 1 + k)) * numOfAddressesPerBlock +
          x) / numOfAddressesPerBlock := by
  simp only [numOfAddressesPerBlock, numOfDoubleIndirectBlockAddr] at *
  omega

omit [Config] in
/-- A leaf below a later double-indirect block. -/
private theorem leaf_behind_subtree {m size k c x : Nat} {left : Int}
    (hk : k < numOfAddressesPerBlock - (m / numOfDoubleIndirectBlockAddr + 1))
    (hc : c < numOfAddressesPerBlock) (hx : x < numOfAddressesPerBlock)
    (hleft : left = size - numOfAddressesPerBlock * (m / numOfAddressesPerBlock : Nat) -
      numOfAddressesPerBlock - numOfAddressesPerBlock * (numOfAddressesPerBlock -
        (m / numOfAddressesPerBlock % numOfAddressesPerBlock + 1) : Nat))
    (hreach : (x : Int) < left - numOfDoubleIndirectBlockAddr * k - numOfAddressesPerBlock * c) :
    ((m / numOfDoubleIndirectBlockAddr + 1 + k) * numOfAddressesPerBlock + c) *
        numOfAddressesPerBlock + x < numOfAddressesPerBlock ^ 3 ∧
      ((m / numOfDoubleIndirectBlockAddr + 1 + k) * numOfAddressesPerBlock + c) *
        numOfAddressesPerBlock + x < size ∧
      m / numOfAddressesPerBlock < (((m / numOfDoubleIndirectBlockAddr + 1 + k) *
        numOfAddressesPerBlock + c) * numOfAddressesPerBlock + x) / numOfAddressesPerBlock := by
  simp only [numOfAddressesPerBlock, numOfDoubleIndirectBlockAddr] at *
  omega

private theorem removeTripleLoop_cut (h : node.WellMapped s n)
    (howned : Owned s free (node.blocks s)) (hne : free ≠ 0) (hd : levelStart 3 ≤ last)
    (hlast : last < n) :
    ∃ done s' free', removeTripleLoop (s.disk (node.root 3))
        ((last - levelStart 3) / numOfDoubleIndirectBlockAddr)
        ((last - levelStart 3) / numOfAddressesPerBlock % numOfAddressesPerBlock)
        ((last - levelStart 3) % numOfAddressesPerBlock)
        (numOfAddressesPerBlock - (last - levelStart 3) / numOfDoubleIndirectBlockAddr)
        ((last - levelStart 3) / numOfDoubleIndirectBlockAddr)
        ((n - levelStart 3 : Nat) -
          numOfAddressesPerBlock * ((last - levelStart 3) / numOfAddressesPerBlock : Nat)) s =
        some (done, s') ∧
      Keeps (node.cutState s n last 3) (PointerTree.upTo numOfAddressesPerBlock
        (node.cutState s n last 3).words 3 (node.root 3) (last - levelStart 3) +
          node.blocksBelow s 3) s' free' := by
  have hd' : last < levelStart 4 := by
    have hmax := hlast.trans_le h.bound
    simp only [maxBlocksNum] at hmax
    simp only [levelStart]
    omega
  obtain ⟨arr, s₁, s₂, hentries, hwrite, hkeeps, -⟩ :=
    cut_run h (by rwa [add_zero]) hne (d := 3) (by omega) (by omega) hd hd' hlast
  rw [add_zero] at hkeeps
  have hm := (cut_cleared h (d := 3) (by omega) (by omega) hd hd' hlast).leaf
  have hbehind := @cutLeaves_ne_zero _ s node n last 3
  obtain ⟨hdata, hdisk⟩ := cutPath h (d := 3) (by omega) (by omega) hd hd' hlast
  rw [blocksExcept_three] at hkeeps
  have htop : treeNode s 3 3 (node.root 3) (last - levelStart 3) = node.root 3 :=
    PointerTree.nodeAt_top le_rfl _ _
  have hroot := (hdata 3).ne_zero
  have hword₂ := treeNode_step (s := s) (d := 3) (k := 2) (by omega) hm (hdata 3).ne_zero
  have hword₁ := treeNode_step (s := s) (d := 3) (k := 1) (by omega) hm (hdata 2).ne_zero
  rw [htop] at hroot hword₂
  have ht : (last - levelStart 3) / numOfAddressesPerBlock ^ 2 < numOfAddressesPerBlock :=
    Nat.div_lt_of_lt_mul hm
  rw [Nat.mod_eq_of_lt ht] at hword₂
  have hsquare : numOfAddressesPerBlock ^ 2 = numOfDoubleIndirectBlockAddr := rfl
  rw [hsquare] at hword₂ ht
  rw [pow_one] at hword₁
  have hnodup := Multiset.nodup_of_le
    (treeCells_le_blocks (d := 3) (by omega) (by omega)) h.nodup
  have harr₃ : (node.cutState s n last 3).disk (node.root 3) = s.disk (node.root 3) := by
    refine hdisk _ ?_
    have hother := PointerTree.nodeAt_ne_of_lt hnodup (show 1 < 3 by omega) le_rfl hm
      (hdata 1).ne_zero
    rwa [PointerTree.nodeAt_top le_rfl] at hother
  have harr₂ := hdisk _ (PointerTree.nodeAt_ne_of_lt hnodup (show 1 < 2 by omega)
    (show 2 ≤ 3 by omega) hm (hdata 1).ne_zero)
  have hj : (last - levelStart 3) / numOfAddressesPerBlock % numOfAddressesPerBlock <
      numOfAddressesPerBlock := Nat.mod_lt _ (by decide)
  have hchild : (node.cutState s n last 3).words (node.root 3)
      ((last - levelStart 3) / numOfDoubleIndirectBlockAddr) =
        treeNode s 3 2 (node.root 3) (last - levelStart 3) := by
    rw [FileSystem.words, harr₃]
    exact hword₂
  have hset : (node.cutState s n last 3).words (node.root 3)
      ((last - levelStart 3) / numOfDoubleIndirectBlockAddr) ≠ 0 := by
    rw [hchild]
    exact (hdata 2).ne_zero
  have hrest := hkeeps.mono (add_le_add (grandchildren_le_beyond hroot hset hm)
    (le_refl (node.blocksBelow s 3)))
  have hfirst := removeTripleInner_first
    (k := numOfAddressesPerBlock - ((last - levelStart 3) / numOfAddressesPerBlock %
      numOfAddressesPerBlock + 1)) hword₁ (hdata 1) hentries hwrite
  have hcount₁ : numOfAddressesPerBlock -
      (last - levelStart 3) / numOfAddressesPerBlock % numOfAddressesPerBlock =
        numOfAddressesPerBlock -
          ((last - levelStart 3) / numOfAddressesPerBlock % numOfAddressesPerBlock + 1) + 1 := by
    omega
  have hcount₂ : numOfAddressesPerBlock - (last - levelStart 3) / numOfDoubleIndirectBlockAddr =
      numOfAddressesPerBlock - ((last - levelStart 3) / numOfDoubleIndirectBlockAddr + 1) + 1 := by
    omega
  rw [← hcount₁] at hfirst
  rw [hcount₂]
  rw [hchild, add_assoc, add_assoc] at hrest
  split at hfirst
  next hend =>
    refine ⟨true, s₂, _, ?_, hrest.mono ((Multiset.le_add_left _ _).trans
      (Multiset.le_add_left _ _))⟩
    rw [removeTripleLoop_first hword₂ (hdata 2) hfirst, Bool.not_true, if_neg Bool.false_ne_true,
      if_pos rfl]
  next hend =>
    have hinner := (Nat.mod_lt (last - levelStart 3) (show 0 < numOfAddressesPerBlock by decide)).le
    have hleaves : ∀ k < numOfAddressesPerBlock -
        ((last - levelStart 3) / numOfAddressesPerBlock % numOfAddressesPerBlock + 1),
        LeavesSet (node.cutState s n last 3)
          ((node.cutState s n last 3).words (treeNode s 3 2 (node.root 3) (last - levelStart 3))
            ((last - levelStart 3) / numOfAddressesPerBlock % numOfAddressesPerBlock + 1 + k))
          ((n - levelStart 3 : Nat) - numOfAddressesPerBlock *
            ((last - levelStart 3) / numOfAddressesPerBlock : Nat) - numOfAddressesPerBlock -
            numOfAddressesPerBlock * k) := by
      intro k hk hq x hx hleft
      obtain ⟨hsize, hlt, hgroup⟩ := leaf_behind_child hm hk hx hleft
      have hleaf := hbehind h (by omega) (by omega) hd hd' hlast hsize hlt hgroup
      have hc : (last - levelStart 3) / numOfAddressesPerBlock % numOfAddressesPerBlock + 1 + k <
          numOfAddressesPerBlock := by omega
      rw [← hchild] at hq ⊢
      rwa [treeNode_greatgrandchild hroot hset hq hc hx] at hleaf
    obtain ⟨done, reached, left, s₃, free₃, hloop, hkeeps₃, hleft⟩ :=
      removeTripleInner_keeps hinner hrest hleaves
    rw [harr₂] at hloop
    rw [removeTripleLoop_first hword₂ (hdata 2) (hfirst.trans hloop)]
    cases done with
    | false => exact ⟨false, s₃, free₃, if_pos rfl, hkeeps₃.mono (Multiset.le_add_left _ _)⟩
    | true =>
        rw [Bool.not_true, if_neg Bool.false_ne_true]
        cases reached with
        | true => exact ⟨true, s₃, free₃, if_pos rfl, hkeeps₃.mono (Multiset.le_add_left _ _)⟩
        | false =>
            rw [← harr₃, if_neg Bool.false_ne_true]
            apply removeTripleLoop_keeps (Nat.lt_succ_self _) hinner hkeeps₃
            intro k hk hne c hc hq x hx hreach
            obtain ⟨hsize, hlt, hgroup⟩ := leaf_behind_subtree hk hc hx (hleft rfl rfl) hreach
            have hleaf := hbehind h (by omega) (by omega) hd hd' hlast hsize hlt hgroup
            rwa [treeNode_greatgrandchild hroot hne hq hc hx] at hleaf

/-- Removal from a position of the triple-indirect level on. -/
theorem removeFromTriple_keeps (h : node.WellMapped s n) (howned : Owned s free (node.blocks s))
    (hne : free ≠ 0) (hd : levelStart 3 < last) (hlast : last < n) :
    ∃ done node' s' free', removeFromTriple node last (last - levelStart 3) s =
        some ((done, node'), s') ∧
      Keeps (node.cutState s n last 3) (PointerTree.upTo numOfAddressesPerBlock
        (node.cutState s n last 3).words 3 (node.root 3) (last - levelStart 3) +
          node.blocksBelow s 3) s' free' ∧ node.KeepsRoots last 3 node' := by
  have hbound := hlast.trans_le h.bound
  have hd' : last < levelStart 4 := by
    simp only [maxBlocksNum] at hbound
    simp only [levelStart]
    omega
  obtain ⟨done, s', free', hloop, hkeeps⟩ := removeTripleLoop_cut h howned hne hd.le hlast
  obtain ⟨hdata, -⟩ := cutPath h (d := 3) (by omega) (by omega) hd.le hd' hlast
  have htop : treeNode s 3 3 (node.root 3) (last - levelStart 3) = node.root 3 :=
    PointerTree.nodeAt_top le_rfl _ _
  have hroot := hdata 3
  rw [htop] at hroot
  have hread := readDataBlockArray_run (s := s) hroot
  have hpointer : node.iTripleIndirect = node.root 3 := rfl
  have hset : ¬node.root 3 = 0 := hroot.ne_zero
  have hending : node.iBlocksNum.toInt -
      (numOfDoubleIndirectBlockAddr + numOfAddressesPerBlock + numOfDirectBlocks) -
      (numOfDoubleIndirectBlockAddr * ((last - levelStart 3) / numOfDoubleIndirectBlockAddr : Nat) +
        numOfAddressesPerBlock *
          ((last - levelStart 3) / numOfAddressesPerBlock % numOfAddressesPerBlock : Nat)) =
      (n - levelStart 3 : Nat) -
        numOfAddressesPerBlock * ((last - levelStart 3) / numOfAddressesPerBlock : Nat) := by
    rw [h.blocksNum]
    simp only [numOfDoubleIndirectBlockAddr, numOfAddressesPerBlock, numOfDirectBlocks, levelStart]
      at *
    omega
  cases done with
  | false =>
      refine ⟨false, node, s', free', ?_, hkeeps, fun _ => rfl, fun _ _ => rfl, ?_⟩
      · simp only [removeFromTriple, hpointer, hset, if_false, Prog.bind_of_eq hread, hending,
          Prog.bind_of_eq hloop, Bool.not_false, if_true, Prog.pure_apply]
      · rw [h.blocksNum]
        omega
  | true =>
      refine ⟨true, node.withBlocksNum last, s', free', ?_, hkeeps, fun _ => rfl, fun _ _ => rfl,
        (toInt_withBlocksNum hbound).ge⟩
      simp only [removeFromTriple, hpointer, hset, if_false, Prog.bind_of_eq hread, hending,
        Prog.bind_of_eq hloop, Bool.not_true, Bool.false_eq_true, Prog.pure_apply]

end Triple

end AltFs
