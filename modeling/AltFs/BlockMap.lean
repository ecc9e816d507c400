import AltFs.Lib.PointerTree
import AltFs.Ownership
import AltFs.InodeDataBlockOps

/-!
# The block map of an inode as trees of pointers

The twelve direct blocks and the three trees of an inode, the block at a
position of the file, and what `add_datablock_to_inode` does to them.
-/

namespace AltFs

/-- A pointer tree whose cells are blocks. -/
abbrev treeCells (s : FileSystem) (d : Nat) (p : Int64) : Multiset Int64 :=
  PointerTree.cells numOfAddressesPerBlock s.words d p

/-- The indirect blocks of a tree. -/
abbrev treeInner (s : FileSystem) (d : Nat) (p : Int64) : Multiset Int64 :=
  PointerTree.inner numOfAddressesPerBlock s.words d p

/-- The block of height `k` on the path to position `i` of a tree. -/
abbrev treeNode (s : FileSystem) (d k : Nat) (p : Int64) (i : Nat) : Int64 :=
  PointerTree.nodeAt numOfAddressesPerBlock s.words d k p i

/-- How many indirect blocks the first `d` levels need for a branch at position `m`. -/
def branchCost : Nat → Nat → Nat
  | 0, _ => 0
  | d + 1, m => branchCost d m + if m % numOfAddressesPerBlock ^ (d + 1) = 0 then 1 else 0

theorem branchCost_le (d m : Nat) : branchCost d m ≤ d := by
  induction d with
  | zero => exact Nat.zero_le 0
  | succ d ih =>
      unfold branchCost
      split <;> omega

/-- Every position below `m` of a tree has a block. -/
def TreeMapped (s : FileSystem) (d : Nat) (p : Int64) (m : Nat) : Prop :=
  ∀ i < numOfAddressesPerBlock ^ d, i < m → treeNode s d 0 p i ≠ 0

section Helpers

variable {s s' : FileSystem} {d : Nat} {p b : Int64}

theorem words_blank (h : s.disk b = Block.zero) (i : Nat) : s.words b i = 0 := by
  simp [FileSystem.words, h]

/-- A tree whose indirect blocks do not change keeps its cells. -/
theorem treeCells_eq {S : Multiset Int64} (hframe : DataFrame S s s')
    (hin : ∀ a ∈ treeInner s d p, a ≠ 0 ∧ a ∉ S) : treeCells s' d p = treeCells s d p :=
  PointerTree.gather_congr fun a ha i _ => by
    rw [hframe.words (hin a ha).1 (hin a ha).2]

/-- Writing one word of an address block. -/
theorem words_setWord {a : Int64} {slot : Nat} (hslot : slot < numOfAddressesPerBlock)
    (b' : Int64) (i : Nat) :
    (s.writeDisk a ((s.disk a).setWord slot b)).words b' i =
      if b' = a ∧ i = slot then b else s.words b' i := by
  simp only [FileSystem.words]
  by_cases hb' : b' = a
  · subst hb'
    simp [disk_writeDisk_self, Block.word_setWord hslot]
  · simp [disk_writeDisk_ne hb', hb']

/-- The slot of height `k` above position `m` is written. -/
theorem stored_setWord {k m : Nat} (hnodup : (treeInner s d p).Nodup) (hk : k < d)
    (hm : m < numOfAddressesPerBlock ^ d) (hparent : treeNode s d (k + 1) p m ≠ 0) (b : Int64) :
    PointerTree.Stored numOfAddressesPerBlock s.words
      (s.writeDisk (treeNode s d (k + 1) p m) ((s.disk (treeNode s d (k + 1) p m)).setWord
        (m / numOfAddressesPerBlock ^ k % numOfAddressesPerBlock) b)).words d p k m b := by
  have hslot : m / numOfAddressesPerBlock ^ k % numOfAddressesPerBlock < numOfAddressesPerBlock :=
    Nat.mod_lt _ (by decide)
  exact
    { nodup := hnodup
      height := hk
      leaf := hm
      parent := hparent
      set := by rw [words_setWord hslot, if_pos ⟨rfl, rfl⟩]
      same := fun b' _ i _ hne => by
        rw [words_setWord hslot,
          if_neg fun hcond => hne.elim (fun h => h hcond.1) fun h => h hcond.2] }

theorem treeCells_zero (s : FileSystem) (d : Nat) : treeCells s d 0 = 0 :=
  PointerTree.cells_zero d

theorem mem_treeCells_of_mem_treeInner {a : Int64} (h : a ∈ treeInner s d p) :
    a ∈ treeCells s d p :=
  Multiset.mem_of_le (PointerTree.inner_le_cells d p) h

end Helpers

variable [Config]

/-!
## Growing a tree

A branch is built in steps, from its top down.  `Growing` relates the state
after some steps to the state `s₀` before the first; `S` are the blocks that
the steps may change.
-/

structure Growing (S : Multiset Int64) (d : Nat) (rest : Multiset Int64) (s₀ s : FileSystem)
    (p : Int64) (free pending : Multiset Int64) : Prop where
  owned : Owned s free (pending + (treeCells s d p + rest))
  free_mem : ∀ a ∈ free, a ∈ S
  inner_mem : ∀ a ∈ treeInner s d p, a ∈ S
  frame : DataFrame S s₀ s

namespace Growing

variable {S rest free pending : Multiset Int64} {d k m : Nat} {s₀ s : FileSystem} {p b : Int64}

omit [Config] in
theorem mem_held (pending rest : Multiset Int64) {a : Int64} (ha : a ∈ treeInner s d p) :
    a ∈ pending + (treeCells s d p + rest) :=
  Multiset.mem_add.mpr (.inr (Multiset.mem_add.mpr (.inl (mem_treeCells_of_mem_treeInner ha))))

theorem inner_nodup (h : Growing S d rest s₀ s p free pending) : (treeInner s d p).Nodup := by
  have hcells := (Multiset.nodup_add.mp (Multiset.nodup_add.mp h.owned.held_nodup).2.1).1
  exact Multiset.nodup_of_le (PointerTree.inner_le_cells d p) hcells

/-- A fresh block becomes the root; the old tree is given up. -/
theorem plant (h : Growing S d rest s₀ s p free pending) (hne : free ≠ 0) :
    ∃ v free' s', allocateDataBlock s = some (v, s') ∧ free = v ::ₘ free' ∧ DataBlock v ∧
      s'.disk v = Block.zero ∧ treeCells s' d v = {v} ∧
      Growing S d rest s₀ s' v free' pending := by
  obtain ⟨v, free', s', hrun, rfl, howned, hzero, hframe⟩ := h.owned.allocate hne
  have hv := howned.data v (Multiset.mem_cons_self _ _)
  have hmem := h.free_mem v (Multiset.mem_cons_self _ _)
  have hcells : treeCells s' d v = {v} :=
    PointerTree.cells_blank hv.ne_zero fun i _ => words_blank hzero i
  refine ⟨v, free', s', hrun, rfl, hv, hzero, hcells, howned.mono ?_,
    fun a ha => h.free_mem a (Multiset.mem_cons_of_mem ha), fun a ha => ?_,
    h.frame.trans (hframe.mono h.free_mem)⟩
  · rw [hcells, Multiset.le_iff_count]
    intro a
    simp only [← Multiset.singleton_add, Multiset.count_add]
    omega
  · have := mem_treeCells_of_mem_treeInner ha
    rw [hcells, Multiset.mem_singleton] at this
    rwa [this]

/-- Writing the number of a pending block into an indirect block. -/
theorem store (h : Growing S d rest s₀ s p free (b ::ₘ pending)) (hk : k < d)
    (hm : m < numOfAddressesPerBlock ^ d) (hparent : treeNode s d (k + 1) p m ≠ 0)
    (hblank : k = 0 ∨ s.disk b = Block.zero ∧ b ∈ S) :
    let a := treeNode s d (k + 1) p m
    let s' := s.writeDisk a
      ((s.disk a).setWord (m / numOfAddressesPerBlock ^ k % numOfAddressesPerBlock) b)
    Growing S d rest s₀ s' p free pending ∧
      PointerTree.Stored numOfAddressesPerBlock s.words s'.words d p k m b ∧
      treeCells s' d p + treeCells s k (treeNode s d k p m) = treeCells s d p + {b} := by
  intro a s'
  have hinner : a ∈ treeInner s d p := PointerTree.nodeAt_mem_inner hm hk hparent
  have hheld := mem_held pending rest hinner
  have hslot : m / numOfAddressesPerBlock ^ k % numOfAddressesPerBlock < numOfAddressesPerBlock :=
    Nat.mod_lt _ (by decide)
  have hwords := fun b' i => @words_setWord s b a _ hslot b' i
  have hstored : PointerTree.Stored numOfAddressesPerBlock s.words s'.words d p k m b :=
    stored_setWord h.inner_nodup hk hm hparent b
  have hba : b ≠ a := by
    rintro rfl
    have := h.owned.held_nodup
    rw [Multiset.cons_add] at this
    exact (Multiset.nodup_cons.mp this).1 hheld
  have hbzero : b ≠ 0 := (h.owned.data b (by simp)).ne_zero
  have hcell : treeCells s' k b = {b} := by
    rcases hblank with rfl | ⟨hblank, -⟩
    · exact cell_of_ne hbzero
    · refine PointerTree.cells_blank hbzero fun i _ => ?_
      rw [hwords, if_neg fun hcond => hba hcond.1, words_blank hblank]
  have hcells : treeCells s' d p + treeCells s k (treeNode s d k p m) =
      treeCells s d p + {b} := hcell ▸ PointerTree.gather_store hstored
  have hinners := PointerTree.gather_store (f := fun _ => 0) hstored
  refine ⟨⟨(h.owned.write _ (Multiset.mem_add.mpr ?_)).mono ?_, h.free_mem, fun c hc => ?_,
    h.frame.trans (DataFrame.writeDisk (h.inner_mem a hinner))⟩, hstored, hcells⟩
  · exact .inr (Multiset.mem_add.mpr (.inl (mem_treeCells_of_mem_treeInner hinner)))
  · rw [Multiset.le_iff_count]
    intro c
    have hcount := congrArg (Multiset.count c) hcells
    simp only [← Multiset.singleton_add, Multiset.count_add] at hcount ⊢
    omega
  · have hmem : c ∈ treeInner s d p + treeInner s' k b :=
      hinners ▸ Multiset.mem_add.mpr (.inl hc)
    rcases Multiset.mem_add.mp hmem with hc | hc
    · exact h.inner_mem c hc
    · rcases hblank with rfl | ⟨-, hmem⟩
      · exact absurd hc (Multiset.notMem_zero c)
      · have := mem_treeCells_of_mem_treeInner hc
        rw [hcell, Multiset.mem_singleton] at this
        rwa [this]

/-- A fresh block is stored in the tree. -/
theorem branch (h : Growing S d rest s₀ s p free pending) (hne : free ≠ 0) (hk : k < d)
    (hm : m < numOfAddressesPerBlock ^ d) (hparent : treeNode s d (k + 1) p m ≠ 0) :
    let a := treeNode s d (k + 1) p m
    ∃ v free' s₁, allocateDataBlock s = some (v, s₁) ∧ free = v ::ₘ free' ∧ DataBlock v ∧
      let s' := s₁.writeDisk a
        ((s.disk a).setWord (m / numOfAddressesPerBlock ^ k % numOfAddressesPerBlock) v)
      s'.disk v = Block.zero ∧ Growing S d rest s₀ s' p free' pending ∧
      PointerTree.Stored numOfAddressesPerBlock s.words s'.words d p k m v ∧
      treeCells s' d p + treeCells s₁ k (treeNode s d k p m) = treeCells s d p + {v} := by
  intro a
  obtain ⟨v, free', s₁, hrun, rfl, howned, hzero, hframe⟩ := h.owned.allocate hne
  have hv := howned.data v (Multiset.mem_cons_self _ _)
  have hvS := h.free_mem v (Multiset.mem_cons_self _ _)
  have hkeep : ∀ c ∈ treeInner s d p, s₁.disk c = s.disk c := fun c hc =>
    h.owned.disk_eq hframe (mem_held pending rest hc) (h.owned.not_free (mem_held pending rest hc))
  have hwords : ∀ c ∈ treeInner s d p, ∀ i < numOfAddressesPerBlock,
      s₁.words c i = s.words c i := fun c hc i _ => by
    simp only [FileSystem.words, hkeep c hc]
  have hcells : treeCells s₁ d p = treeCells s d p := PointerTree.gather_congr hwords
  have hinner : treeInner s₁ d p = treeInner s d p := PointerTree.gather_congr hwords
  have hnode : ∀ l, treeNode s₁ d l p m = treeNode s d l p m := fun l =>
    PointerTree.nodeAt_congr hm hwords
  have hgrow : Growing S d rest s₀ s₁ p free' (v ::ₘ pending) :=
    { owned := by rwa [hcells, Multiset.cons_add]
      free_mem := fun c hc => h.free_mem c (Multiset.mem_cons_of_mem hc)
      inner_mem := fun c hc => h.inner_mem c (hinner ▸ hc)
      frame := h.frame.trans (hframe.mono h.free_mem) }
  have hamem : a ∈ treeInner s d p := PointerTree.nodeAt_mem_inner hm hk hparent
  obtain ⟨hgrow', hstored, hsum⟩ := hgrow.store hk hm (by rw [hnode]; exact hparent)
    (.inr ⟨hzero, hvS⟩)
  rw [hnode, hkeep a hamem] at hgrow' hstored
  rw [hnode, hnode, hkeep a hamem, hcells] at hsum
  refine ⟨v, free', s₁, hrun, rfl, hv, ?_, hgrow', hstored.of_eq hwords, hsum⟩
  rw [disk_writeDisk_ne, hzero]
  rintro rfl
  exact (Multiset.nodup_cons.mp howned.held_nodup).1 (mem_held pending rest hamem)

end Growing

/-! ## One branch -/

/-- The state when the branch for position `m` has come down to height `k`. -/
structure BranchAt (d m k : Nat) (b : Int64) (rest free₀ : Multiset Int64) (s₀ : FileSystem)
    (p₀ : Int64) (s : FileSystem) (p : Int64) (free : Multiset Int64) : Prop where
  growing : Growing (free₀ + treeInner s₀ d p₀) d rest s₀ s p free {b}
  node : treeNode s d k p m ≠ 0
  root : m ≠ 0 → p = p₀
  grafted : s = s₀ ∧ p = p₀ ∨
    ∃ top ≤ d, k ≤ top ∧ numOfAddressesPerBlock ^ top ∣ m ∧
      (top < d → treeNode s₀ d (top + 1) p₀ m ≠ 0) ∧
      PointerTree.Grafted numOfAddressesPerBlock s₀.words s.words d top k m p₀ p
  cost : free₀.card + branchCost (k - 1) m = free.card + branchCost d m
  conserved : PointerTree.Filled numOfAddressesPerBlock s₀.words d p₀ m →
    free + treeCells s d p = free₀ + treeCells s₀ d p₀

/-- The outcome of adding block `b` at position `m` to the tree `p₀` of `s₀`. -/
structure BranchAdded (d m : Nat) (b : Int64) (rest free₀ : Multiset Int64) (s₀ : FileSystem)
    (p₀ : Int64) (added : Bool) (s : FileSystem) (p : Int64) (free : Multiset Int64) :
    Prop where
  growing : Growing (free₀ + treeInner s₀ d p₀) d rest s₀ s p free (if added then 0 else {b})
  root : m ≠ 0 → p = p₀
  leaf_lt : ∀ i < numOfAddressesPerBlock ^ d, i < m → treeNode s d 0 p i = treeNode s₀ d 0 p₀ i
  leaf : added = true → treeNode s d 0 p m = b
  filled : added = true → PointerTree.Filled numOfAddressesPerBlock s₀.words d p₀ m →
    PointerTree.Filled numOfAddressesPerBlock s.words d p (m + 1)
  cost : if added then free₀.card = free.card + branchCost d m
    else free = 0 ∧ free₀.card < branchCost d m
  conserved : PointerTree.Filled numOfAddressesPerBlock s₀.words d p₀ m →
    free + treeCells s d p = free₀ + treeCells s₀ d p₀ + if added then {b} else 0

section Branch

variable {d m k : Nat} {b : Int64} {rest free₀ free : Multiset Int64} {s₀ s : FileSystem}
  {p₀ p : Int64}

omit [Config] in
/-- A position inside a group has the nodes of the position before it. -/
theorem TreeMapped.node_ne_zero (h : TreeMapped s d p m) (hk : k ≤ d)
    (hm : m < numOfAddressesPerBlock ^ d) (hrest : m % numOfAddressesPerBlock ^ k ≠ 0) :
    treeNode s d k p m ≠ 0 := by
  cases m with
  | zero => simp at hrest
  | succ m =>
      have hleaf := h m (by omega) (by omega)
      have hgroup : m / numOfAddressesPerBlock ^ k = (m + 1) / numOfAddressesPerBlock ^ k := by
        rw [Nat.succ_div, if_neg fun hdvd => hrest (Nat.mod_eq_zero_of_dvd hdvd), add_zero]
      rw [treeNode, ← PointerTree.nodeAt_eq_of_div_eq hk hgroup]
      exact PointerTree.nodeAt_ne_zero_mono (Nat.zero_le k) hleaf

theorem Growing.start (h : Owned s free (b ::ₘ (treeCells s d p + rest))) :
    Growing (free + treeInner s d p) d rest s s p free {b} where
  owned := by rwa [Multiset.singleton_add]
  free_mem a ha := Multiset.mem_add.mpr (.inl ha)
  inner_mem a ha := Multiset.mem_add.mpr (.inr ha)
  frame := DataFrame.refl _ _

/-- Nothing is left to allocate a block from. -/
theorem BranchAdded.failed (hgrow : Growing (free₀ + treeInner s₀ d p₀) d rest s₀ s p 0 {b})
    (hroot : m ≠ 0 → p = p₀)
    (hleaf : ∀ i < numOfAddressesPerBlock ^ d, i < m →
      treeNode s d 0 p i = treeNode s₀ d 0 p₀ i)
    (hcost : free₀.card < branchCost d m)
    (hconserved : PointerTree.Filled numOfAddressesPerBlock s₀.words d p₀ m →
      0 + treeCells s d p = free₀ + treeCells s₀ d p₀) :
    BranchAdded d m b rest free₀ s₀ p₀ false s p 0 where
  growing := hgrow
  root := hroot
  leaf_lt := hleaf
  leaf h := absurd h (by simp)
  filled h := absurd h (by simp)
  cost := by simpa using hcost
  conserved := by simpa using hconserved

omit [Config] in
private theorem branchCost_of_dvd (hk : 1 ≤ k) (h : m % numOfAddressesPerBlock ^ k = 0) :
    branchCost k m = branchCost (k - 1) m + 1 := by
  obtain ⟨j, rfl⟩ : ∃ j, k = j + 1 := ⟨k - 1, by omega⟩
  rw [branchCost, if_pos h, Nat.add_sub_cancel]

omit [Config] in
private theorem branchCost_of_not_dvd (hk : 1 ≤ k) (h : m % numOfAddressesPerBlock ^ k ≠ 0) :
    branchCost k m = branchCost (k - 1) m := by
  obtain ⟨j, rfl⟩ : ∃ j, k = j + 1 := ⟨k - 1, by omega⟩
  rw [branchCost, if_neg h, Nat.add_sub_cancel, add_zero]

namespace BranchAt

/-- The first position of a tree gets a new root. -/
theorem root_new (h : Owned s free (b ::ₘ (treeCells s d p + rest))) (hd : 1 ≤ d)
    (hne : free ≠ 0) :
    ∃ v free' s', allocateDataBlock s = some (v, s') ∧ DataBlock v ∧
      s'.disk v = Block.zero ∧ BranchAt d 0 d b rest free s p s' v free' := by
  obtain ⟨v, free', s', hrun, rfl, hv, hzero, hcells, hgrow⟩ := (Growing.start h).plant hne
  have hm : 0 < numOfAddressesPerBlock ^ d := Nat.pow_pos (by decide)
  refine ⟨v, free', s', hrun, hv, hzero, hgrow, ?_, fun hne => absurd rfl hne,
    .inr ⟨d, le_rfl, le_rfl, dvd_zero _, ?_, ?_⟩, ?_, fun hfilled => ?_⟩
  · rw [treeNode, PointerTree.nodeAt_top le_rfl]
    exact hv.ne_zero
  · exact fun hlt => absurd hlt (by omega)
  · exact PointerTree.Grafted.root hm hv.ne_zero fun i _ => words_blank hzero i
  · rw [branchCost_of_dvd hd (Nat.zero_mod _), Multiset.card_cons]
    omega
  · rw [hcells, hfilled.root_eq_zero (by decide), treeCells_zero, add_zero, add_comm,
      Multiset.singleton_add]

/-- Without a free block there is no root. -/
theorem root_none (h : Owned s 0 (b ::ₘ (treeCells s d p + rest))) (hd : 1 ≤ d) :
    BranchAdded d 0 b rest 0 s p false s p 0 := by
  refine .failed (Growing.start h) (fun _ => rfl) (fun _ _ _ => rfl) ?_ fun _ => rfl
  rw [branchCost_of_dvd hd (Nat.zero_mod _), Multiset.card_zero]
  omega

/-- At other positions the root is there. -/
theorem root_old (h : Owned s free (b ::ₘ (treeCells s d p + rest))) (hd : 1 ≤ d)
    (hmapped : TreeMapped s d p m) (hm : m < numOfAddressesPerBlock ^ d) (hne : m ≠ 0) :
    BranchAt d m d b rest free s p s p free where
  growing := Growing.start h
  node := hmapped.node_ne_zero le_rfl hm (by rwa [Nat.mod_eq_of_lt hm])
  root _ := rfl
  grafted := .inl ⟨rfl, rfl⟩
  cost := by rw [branchCost_of_not_dvd hd (by rwa [Nat.mod_eq_of_lt hm])]
  conserved _ := rfl

/-- The branch continues in the block `v`, just stored. -/
private theorem grafted_store (h : BranchAt d m (k + 1) b rest free₀ s₀ p₀ s p free)
    {s' : FileSystem} {v : Int64} (hdvd : m % numOfAddressesPerBlock ^ k = 0) (hv : v ≠ 0)
    (hblank : k = 0 ∨ s'.disk v = Block.zero)
    (hstored : PointerTree.Stored numOfAddressesPerBlock s.words s'.words d p k m v) :
    ∃ top ≤ d, k ≤ top ∧ numOfAddressesPerBlock ^ top ∣ m ∧
      (top < d → treeNode s₀ d (top + 1) p₀ m ≠ 0) ∧
      PointerTree.Grafted numOfAddressesPerBlock s₀.words s'.words d top k m p₀ p := by
  have hblank' : k = 0 ∨ ∀ i < numOfAddressesPerBlock, s'.words v i = 0 :=
    hblank.imp_right fun hzero i _ => words_blank hzero i
  rcases h.grafted with ⟨rfl, rfl⟩ | ⟨top, htop, hktop, htopDvd, hparent, hgraft⟩
  · exact ⟨k, hstored.height.le, le_rfl, Nat.dvd_of_mod_eq_zero hdvd, fun _ => h.node,
      PointerTree.Grafted.start hstored hv hblank'⟩
  · exact ⟨top, htop, by omega, htopDvd, hparent,
      hgraft.step (by omega) hstored hv hblank'⟩

omit [Config] in
/-- In a filled tree the place of the next block is empty. -/
private theorem node_eq_zero (hgrafted : s = s₀ ∧ p = p₀ ∨
      ∃ top ≤ d, k + 1 ≤ top ∧ numOfAddressesPerBlock ^ top ∣ m ∧
        (top < d → treeNode s₀ d (top + 1) p₀ m ≠ 0) ∧
        PointerTree.Grafted numOfAddressesPerBlock s₀.words s.words d top (k + 1) m p₀ p)
    (hfilled : PointerTree.Filled numOfAddressesPerBlock s₀.words d p₀ m) (hk : k ≤ d)
    (hm : m < numOfAddressesPerBlock ^ d) (hdvd : m % numOfAddressesPerBlock ^ k = 0) :
    treeNode s d k p m = 0 := by
  by_contra hne
  rcases hgrafted with ⟨rfl, rfl⟩ | ⟨top, -, hktop, -, -, hgraft⟩
  · have hlt := (hfilled k hk m hm).mp hne
    rw [Nat.div_mul_cancel (Nat.dvd_of_mod_eq_zero hdvd)] at hlt
    exact absurd hlt (lt_irrefl m)
  · have hle := ((hgraft.branch k (by omega) m hm rfl).mp hne).1
    omega

/-- A group that starts at `m` gets a new block. -/
theorem down_new (h : BranchAt d m (k + 1) b rest free₀ s₀ p₀ s p free) (hk : 1 ≤ k)
    (hkd : k < d) (hm : m < numOfAddressesPerBlock ^ d)
    (hdvd : m % numOfAddressesPerBlock ^ k = 0) (hne : free ≠ 0) :
    let a := treeNode s d (k + 1) p m
    ∃ v free' s₁, allocateDataBlock s = some (v, s₁) ∧ DataBlock v ∧
      let s' := s₁.writeDisk a
        ((s.disk a).setWord (m / numOfAddressesPerBlock ^ k % numOfAddressesPerBlock) v)
      s'.disk v = Block.zero ∧ treeNode s' d k p m = v ∧
      BranchAt d m k b rest free₀ s₀ p₀ s' p free' := by
  intro a
  obtain ⟨v, free', s₁, hrun, rfl, hv, hzero, hgrow, hstored, hsum⟩ :=
    h.growing.branch hne hkd hm h.node
  refine ⟨v, free', s₁, hrun, hv, hzero, hstored.node_eq, hgrow, ?_, h.root,
    .inr (h.grafted_store hdvd hv.ne_zero (.inr hzero) hstored), ?_, fun hfilled => ?_⟩
  · rw [treeNode, hstored.node_eq]
    exact hv.ne_zero
  · have hcost := h.cost
    rw [Nat.add_sub_cancel, branchCost_of_dvd hk hdvd, Multiset.card_cons] at hcost
    omega
  · rw [node_eq_zero h.grafted hfilled hkd.le hm hdvd, treeCells_zero, add_zero] at hsum
    rw [← h.conserved hfilled, hsum, ← Multiset.singleton_add, add_comm (treeCells s d p),
      ← add_assoc, add_comm free']

/-- At other positions the block is there. -/
theorem down_old (h : BranchAt d m (k + 1) b rest free₀ s₀ p₀ s p free) (hk : 1 ≤ k)
    (hkd : k < d) (hm : m < numOfAddressesPerBlock ^ d)
    (hrest : m % numOfAddressesPerBlock ^ k ≠ 0) (hmapped : TreeMapped s₀ d p₀ m) :
    BranchAt d m k b rest free₀ s₀ p₀ s p free := by
  have hcost := h.cost
  rw [Nat.add_sub_cancel, branchCost_of_not_dvd hk hrest] at hcost
  rcases h.grafted with ⟨rfl, rfl⟩ | ⟨top, -, hktop, htopDvd, -⟩
  · exact ⟨h.growing, hmapped.node_ne_zero hkd.le hm hrest, fun _ => rfl, .inl ⟨rfl, rfl⟩, hcost,
      h.conserved⟩
  · exact absurd (Nat.mod_eq_zero_of_dvd ((pow_dvd_pow _ (by omega)).trans htopDvd)) hrest

omit [Config] in
private theorem leaf_lt (hgrafted : s = s₀ ∧ p = p₀ ∨
      ∃ top ≤ d, k ≤ top ∧ numOfAddressesPerBlock ^ top ∣ m ∧
        (top < d → treeNode s₀ d (top + 1) p₀ m ≠ 0) ∧
        PointerTree.Grafted numOfAddressesPerBlock s₀.words s.words d top k m p₀ p) :
    ∀ i < numOfAddressesPerBlock ^ d, i < m →
      treeNode s d 0 p i = treeNode s₀ d 0 p₀ i := by
  intro i hi hlt
  rcases hgrafted with ⟨rfl, rfl⟩ | ⟨top, -, -, htop, -, hgraft⟩
  · rfl
  · exact hgraft.leaf_of_lt htop hi hlt

/-- A branch that needs a block while none is free stops. -/
theorem stop (h : BranchAt d m (k + 1) b rest free₀ s₀ p₀ s p 0) (hk : 1 ≤ k)
    (hdvd : m % numOfAddressesPerBlock ^ k = 0) :
    BranchAdded d m b rest free₀ s₀ p₀ false s p 0 := by
  refine .failed h.growing h.root (leaf_lt h.grafted) ?_ h.conserved
  have hcost := h.cost
  rw [Nat.add_sub_cancel, branchCost_of_dvd hk hdvd, Multiset.card_zero] at hcost
  omega

/-- At height 1 the block is stored. -/
theorem finish (h : BranchAt d m 1 b rest free₀ s₀ p₀ s p free) (hd : 1 ≤ d)
    (hm : m < numOfAddressesPerBlock ^ d) (hb : b ≠ 0) :
    let a := treeNode s d 1 p m
    BranchAdded d m b rest free₀ s₀ p₀ true
      (s.writeDisk a ((s.disk a).setWord (m % numOfAddressesPerBlock) b)) p free := by
  intro a
  have hgrow : Growing (free₀ + treeInner s₀ d p₀) d rest s₀ s p free (b ::ₘ 0) := h.growing
  obtain ⟨hgrow, hstored, hsum⟩ := hgrow.store hd hm h.node (.inl rfl)
  rw [pow_zero, Nat.div_one] at hgrow hstored hsum
  have hgrafted := h.grafted_store (Nat.mod_one m) hb (.inl rfl) hstored
  refine ⟨hgrow, h.root, leaf_lt (.inr hgrafted), fun _ => hstored.node_eq, fun _ hfilled => ?_,
    ?_, fun hfilled => ?_⟩
  · obtain ⟨top, -, -, htop, hparent, hgraft⟩ := hgrafted
    exact hfilled.graft hgraft htop hparent hm
  · simpa [branchCost] using h.cost
  · rw [node_eq_zero h.grafted hfilled (Nat.zero_le d) hm (Nat.mod_one m), treeCells_zero,
      add_zero] at hsum
    rw [hsum, ← add_assoc, h.conserved hfilled, if_pos rfl]

theorem node_dataBlock (h : BranchAt d m (k + 1) b rest free₀ s₀ p₀ s p free) (hk : k < d)
    (hm : m < numOfAddressesPerBlock ^ d) : DataBlock (treeNode s d (k + 1) p m) :=
  h.growing.owned.data _ (Growing.mem_held {b} rest (PointerTree.nodeAt_mem_inner hm hk h.node))

end BranchAt

end Branch

theorem storeAddress_run {s : FileSystem} {blockNum value : Int64} {index : Nat}
    (h : DataBlock blockNum) (hindex : index < numOfAddressesPerBlock) :
    storeAddress blockNum index value s =
      some (true, s.writeDisk blockNum ((s.disk blockNum).setWord index value)) := by
  have hrequire : (Prog.require (index < numOfAddressesPerBlock) : Fs Unit) s = some ((), s) := by
    rw [Prog.require_apply, if_pos hindex]
  simp only [storeAddress, Prog.bind_of_eq (readDataBlockArray_run h),
    Prog.bind_of_eq hrequire, writeDataBlock_run h]

section AddBlock

variable {s : FileSystem} {free rest : Multiset Int64} {node : Inode} {m : Nat} {b : Int64}

theorem addToSingle_spec
    (h : Owned s free (b ::ₘ (treeCells s 1 node.iSingleIndirect + rest)))
    (hmapped : TreeMapped s 1 node.iSingleIndirect m) (hm : m < numOfAddressesPerBlock) :
    ∃ added p s' free',
      addToSingle node m b s =
        some ((added,
          if added then { node with iSingleIndirect := p }.blockAdded
          else { node with iSingleIndirect := p }), s') ∧
      BranchAdded 1 m b rest free s node.iSingleIndirect added s' p free' := by
  have hbne := (h.data b (Multiset.mem_cons_self _ _)).ne_zero
  have hm' : m < numOfAddressesPerBlock ^ 1 := by rwa [pow_one]
  have hfinish : ∀ p s₁ free₁, BranchAt 1 m 1 b rest free s node.iSingleIndirect s₁ p free₁ →
      ∃ s', storeAddress p m b s₁ = some (true, s') ∧
        BranchAdded 1 m b rest free s node.iSingleIndirect true s' p free₁ := by
    intro p s₁ free₁ hat
    have hdata := hat.node_dataBlock (by omega) hm'
    have hadded := hat.finish le_rfl hm' hbne
    rw [treeNode, PointerTree.nodeAt_top le_rfl] at hdata hadded
    rw [Nat.mod_eq_of_lt hm] at hadded
    exact ⟨_, storeAddress_run hdata hm, hadded⟩
  by_cases hzero : m = 0
  · subst hzero
    by_cases hfree : free = 0
    · subst hfree
      refine ⟨false, node.iSingleIndirect, s, 0, ?_, BranchAt.root_none h le_rfl⟩
      simp only [addToSingle, if_pos, Prog.bind_of_eq h.allocate_empty, and_self,
        Prog.pure_apply, Bool.false_eq_true, if_false]
    · obtain ⟨v, free', s', hrun, hv, -, hat⟩ := BranchAt.root_new h le_rfl hfree
      obtain ⟨s'', hstore, hadded⟩ := hfinish _ _ _ hat
      refine ⟨true, v, s'', free', ?_, hadded⟩
      simp only [addToSingle, if_pos, Prog.bind_of_eq hrun, true_and, hv.ne_neg_one, if_false,
        Prog.bind_of_eq hstore, Bool.not_true, Bool.false_eq_true, Prog.pure_apply]
  · obtain ⟨s'', hstore, hadded⟩ :=
      hfinish _ _ _ (BranchAt.root_old h le_rfl hmapped hm' hzero)
    refine ⟨true, node.iSingleIndirect, s'', free, ?_, hadded⟩
    simp only [addToSingle, Prog.pure_bind_apply, hzero, false_and, if_false,
      Prog.bind_of_eq hstore, Bool.not_true, Bool.false_eq_true, Prog.pure_apply, if_true]

omit [Config] in
/-- Words of an indirect block are the nodes one height below. -/
theorem treeNode_step {d k : Nat} {p : Int64} (hk : k < d) (hm : m < numOfAddressesPerBlock ^ d)
    (hne : treeNode s d (k + 1) p m ≠ 0) :
    (s.disk (treeNode s d (k + 1) p m)).word
      (m / numOfAddressesPerBlock ^ k % numOfAddressesPerBlock) = treeNode s d k p m :=
  (PointerTree.nodeAt_step hk hm hne).symm

section Tail

variable {d : Nat} {free₀ : Multiset Int64} {s₀ : FileSystem} {p₀ p : Int64} (node)

theorem addToAddressBlock_spec (h : BranchAt d m 1 b rest free₀ s₀ p₀ s p free) (hd : 1 ≤ d)
    (hm : m < numOfAddressesPerBlock ^ d) (hb : b ≠ 0) :
    ∃ s', addToAddressBlock node (treeNode s d 1 p m) (m % numOfAddressesPerBlock) b s =
        some ((true, node.blockAdded), s') ∧
      BranchAdded d m b rest free₀ s₀ p₀ true s' p free := by
  have hdata : DataBlock (treeNode s d 1 p m) := h.node_dataBlock hd hm
  have hpos : ¬(treeNode s d 1 p m).toInt ≤ 0 := by
    have := hdata.pos
    omega
  refine ⟨_, ?_, h.finish hd hm hb⟩
  simp only [addToAddressBlock, if_neg hpos,
    Prog.bind_of_eq (storeAddress_run hdata (Nat.mod_lt m (by decide))), Bool.not_true,
    Bool.false_eq_true, if_false, Prog.pure_apply]

theorem addToDoubleBlock_spec (h : BranchAt d m 2 b rest free₀ s₀ p₀ s p free) (hd : 2 ≤ d)
    (hm : m < numOfAddressesPerBlock ^ d) (hb : b ≠ 0) (hmapped : TreeMapped s₀ d p₀ m) :
    ∃ added s' free',
      addToDoubleBlock node (treeNode s d 2 p m)
          (m / numOfAddressesPerBlock % numOfAddressesPerBlock) (m % numOfAddressesPerBlock) b s =
        some ((added, if added then node.blockAdded else node), s') ∧
      BranchAdded d m b rest free₀ s₀ p₀ added s' p free' := by
  have hdata : DataBlock (treeNode s d 2 p m) := h.node_dataBlock hd hm
  by_cases hzero : m % numOfAddressesPerBlock = 0
  · have hdvd : m % numOfAddressesPerBlock ^ 1 = 0 := by rwa [pow_one]
    by_cases hfree : free = 0
    · subst hfree
      refine ⟨false, s, 0, ?_, h.stop le_rfl hdvd⟩
      simp only [addToDoubleBlock, Prog.bind_of_eq (readDataBlockArray_run hdata), hzero, if_true,
        Prog.bind_of_eq h.growing.owned.allocate_empty, Prog.pure_apply, Bool.false_eq_true,
        if_false]
    · obtain ⟨v, free', s₁, hrun, hv, -, hnode, hat⟩ := h.down_new le_rfl (by omega) hm hdvd hfree
      obtain ⟨s', hstore, hadded⟩ := addToAddressBlock_spec node hat (by omega) hm hb
      rw [hnode] at hstore
      rw [pow_one] at hstore
      refine ⟨true, s', free', ?_, hadded⟩
      rw [hzero] at hstore
      simp only [addToDoubleBlock, Prog.bind_of_eq (readDataBlockArray_run hdata), hzero, if_true,
        Prog.bind_of_eq hrun, hv.ne_neg_one, if_false, Prog.bind_of_eq (writeDataBlock_run hdata),
        Bool.not_true, Bool.false_eq_true, hstore]
  · have hrest : m % numOfAddressesPerBlock ^ 1 ≠ 0 := by rwa [pow_one]
    have hat := h.down_old le_rfl (by omega) hm hrest hmapped
    obtain ⟨s', hstore, hadded⟩ := addToAddressBlock_spec node hat (by omega) hm hb
    have hword := treeNode_step (by omega) hm h.node
    rw [pow_one] at hword
    refine ⟨true, s', free, ?_, hadded⟩
    simp only [addToDoubleBlock, Prog.bind_of_eq (readDataBlockArray_run hdata), hzero, if_false,
      hword, hstore, if_true]

theorem addToTripleBlock_spec (h : BranchAt 3 m 3 b rest free₀ s₀ p₀ s p free)
    (hm : m < numOfAddressesPerBlock ^ 3) (hb : b ≠ 0) (hmapped : TreeMapped s₀ 3 p₀ m) :
    ∃ added s' free',
      addToTripleBlock node p m b s =
        some ((added, if added then node.blockAdded else node), s') ∧
      BranchAdded 3 m b rest free₀ s₀ p₀ added s' p free' := by
  have hdata : DataBlock p := by
    have := h.node_dataBlock (by omega) hm
    rwa [treeNode, PointerTree.nodeAt_top le_rfl] at this
  have hindex : m / numOfAddressesPerBlock ^ 2 % numOfAddressesPerBlock =
      m / numOfDoubleIndirectBlockAddr :=
    Nat.mod_eq_of_lt (Nat.div_lt_of_lt_mul hm)
  by_cases hzero : m % numOfDoubleIndirectBlockAddr = 0
  · have hdvd : m % numOfAddressesPerBlock ^ 2 = 0 := hzero
    by_cases hfree : free = 0
    · subst hfree
      refine ⟨false, s, 0, ?_, h.stop (by omega) hdvd⟩
      simp only [addToTripleBlock, Prog.bind_of_eq (readDataBlockArray_run hdata), hzero, if_true,
        Prog.bind_of_eq h.growing.owned.allocate_empty, Prog.pure_apply, Bool.false_eq_true,
        if_false]
    · obtain ⟨v, free', s₁, hrun, hv, -, hnode, hat⟩ :=
        h.down_new (by omega) (by omega) hm hdvd hfree
      obtain ⟨added, s', free'', hstore, hadded⟩ :=
        addToDoubleBlock_spec node hat (by omega) hm hb hmapped
      rw [hnode, hindex, treeNode, PointerTree.nodeAt_top le_rfl] at hstore
      refine ⟨added, s', free'', ?_, hadded⟩
      simp only [addToTripleBlock, Prog.bind_of_eq (readDataBlockArray_run hdata), hzero, if_true,
        Prog.bind_of_eq hrun, hv.ne_neg_one, if_false, Prog.bind_of_eq (writeDataBlock_run hdata),
        Bool.not_true, Bool.false_eq_true, hstore]
  · have hrest : m % numOfAddressesPerBlock ^ 2 ≠ 0 := hzero
    obtain ⟨added, s', free'', hstore, hadded⟩ := addToDoubleBlock_spec node
      (h.down_old (by omega) (by omega) hm hrest hmapped) (by omega) hm hb hmapped
    have hword := treeNode_step (by omega) hm h.node
    rw [treeNode, PointerTree.nodeAt_top le_rfl, hindex] at hword
    refine ⟨added, s', free'', ?_, hadded⟩
    simp only [addToTripleBlock, Prog.bind_of_eq (readDataBlockArray_run hdata), hzero, if_false,
      hword, hstore]

end Tail

theorem addToDouble_spec
    (h : Owned s free (b ::ₘ (treeCells s 2 node.iDoubleIndirect + rest)))
    (hmapped : TreeMapped s 2 node.iDoubleIndirect m)
    (hm : m < numOfDoubleIndirectBlockAddr) :
    ∃ added p s' free',
      addToDouble node m b s =
        some ((added,
          if added then { node with iDoubleIndirect := p }.blockAdded
          else { node with iDoubleIndirect := p }), s') ∧
      BranchAdded 2 m b rest free s node.iDoubleIndirect added s' p free' := by
  have hbne := (h.data b (Multiset.mem_cons_self _ _)).ne_zero
  have hm' : m < numOfAddressesPerBlock ^ 2 := hm
  have hindex : m / numOfAddressesPerBlock % numOfAddressesPerBlock = m / numOfAddressesPerBlock :=
    Nat.mod_eq_of_lt (Nat.div_lt_of_lt_mul hm)
  have hfinish : ∀ p s₁ free₁, BranchAt 2 m 2 b rest free s node.iDoubleIndirect s₁ p free₁ →
      ∃ added s' free',
        addToDoubleBlock { node with iDoubleIndirect := p } p (m / numOfAddressesPerBlock)
            (m % numOfAddressesPerBlock) b s₁ =
          some ((added,
            if added then { node with iDoubleIndirect := p }.blockAdded
            else { node with iDoubleIndirect := p }), s') ∧
        BranchAdded 2 m b rest free s node.iDoubleIndirect added s' p free' := by
    intro p s₁ free₁ hat
    obtain ⟨added, s', free', hrun, hadded⟩ := addToDoubleBlock_spec
      { node with iDoubleIndirect := p } hat le_rfl hm' hbne hmapped
    rw [treeNode, PointerTree.nodeAt_top le_rfl, hindex] at hrun
    exact ⟨added, s', free', hrun, hadded⟩
  by_cases hzero : m = 0
  · subst hzero
    by_cases hfree : free = 0
    · subst hfree
      refine ⟨false, node.iDoubleIndirect, s, 0, ?_, BranchAt.root_none h (by omega)⟩
      simp only [addToDouble, if_pos, Prog.bind_of_eq h.allocate_empty, and_self,
        Prog.pure_apply, Bool.false_eq_true, if_false]
    · obtain ⟨v, free', s', hrun, hv, -, hat⟩ := BranchAt.root_new h (by omega) hfree
      obtain ⟨added, s'', free'', hstore, hadded⟩ := hfinish _ _ _ hat
      refine ⟨added, v, s'', free'', ?_, hadded⟩
      simp only [addToDouble, if_pos, Prog.bind_of_eq hrun, true_and, hv.ne_neg_one, if_false,
        hstore]
  · obtain ⟨added, s'', free'', hstore, hadded⟩ :=
      hfinish _ _ _ (BranchAt.root_old h (by omega) hmapped hm' hzero)
    refine ⟨added, node.iDoubleIndirect, s'', free'', ?_, hadded⟩
    simp only [addToDouble, Prog.pure_bind_apply, hzero, false_and, if_false, hstore]

theorem addToTriple_spec
    (h : Owned s free (b ::ₘ (treeCells s 3 node.iTripleIndirect + rest)))
    (hmapped : TreeMapped s 3 node.iTripleIndirect m)
    (hm : m < numOfTripleIndirectBlockAddr) :
    ∃ added p s' free',
      addToTriple node m b s =
        some ((added,
          if added then { node with iTripleIndirect := p }.blockAdded
          else { node with iTripleIndirect := p }), s') ∧
      BranchAdded 3 m b rest free s node.iTripleIndirect added s' p free' := by
  have hbne := (h.data b (Multiset.mem_cons_self _ _)).ne_zero
  have hm' : m < numOfAddressesPerBlock ^ 3 := hm
  by_cases hzero : m = 0
  · subst hzero
    by_cases hfree : free = 0
    · subst hfree
      refine ⟨false, node.iTripleIndirect, s, 0, ?_, BranchAt.root_none h (by omega)⟩
      simp only [addToTriple, if_pos, Prog.bind_of_eq h.allocate_empty, and_self,
        Prog.pure_apply, Bool.false_eq_true, if_false]
    · obtain ⟨v, free', s', hrun, hv, -, hat⟩ := BranchAt.root_new h (by omega) hfree
      obtain ⟨added, s'', free'', hstore, hadded⟩ := addToTripleBlock_spec
        { node with iTripleIndirect := v } hat hm' hbne hmapped
      refine ⟨added, v, s'', free'', ?_, hadded⟩
      simp only [addToTriple, if_pos, Prog.bind_of_eq hrun, true_and, hv.ne_neg_one, if_false,
        hstore]
  · obtain ⟨added, s'', free'', hstore, hadded⟩ := addToTripleBlock_spec node
      (BranchAt.root_old h (by omega) hmapped hm' hzero) hm' hbne hmapped
    refine ⟨added, node.iTripleIndirect, s'', free'', ?_, hadded⟩
    simp only [addToTriple, Prog.pure_bind_apply, hzero, false_and, if_false, hstore]

end AddBlock

end AltFs
