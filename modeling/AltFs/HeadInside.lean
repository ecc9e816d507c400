import AltFs.FileRelease
import AltFs.StrayFrees

/-!
# A file that holds the head of the free list

The two releases of a whole file part where the head of the free list is an
indirect block of the file: what is freed first is listed in this block and then
taken for an address block.  `free_data_blocks_in_inode` stops at the first
refused number, `remove_datablocks_from_inode` passes it over.
-/

namespace AltFs

section

variable [Config]

/-- The block `root` was the head of the list when `first` was freed, and lists it. -/
structure HeadInside (s₀ : FileSystem) (root first : Int64) (s : FileSystem) : Prop where
  head : DataBlock s.superblock.sFreelistHead
  head_ne : s.superblock.sFreelistHead ≠ first
  listed : s.words root 1 = first
  link : s.words root 0 = s₀.words root 0
  words : ∀ i < numOfAddressesPerBlock, s.words root i ≠ 0 → DataBlock (s.words root i)
  first : s.disk first = s₀.disk first

namespace HeadInside

variable {s₀ s : FileSystem} {root first b : Int64} {bs : List Int64}

private theorem of_disk (h : HeadInside s₀ root first s) {t : FileSystem}
    (hhead : DataBlock t.superblock.sFreelistHead)
    (hmem : t.superblock.sFreelistHead = s.superblock.sFreelistHead ∨
      t.superblock.sFreelistHead = b) (hfirst : b ≠ first)
    (hroot : t.disk root = s.disk root) (hdisk : t.disk first = s.disk first) :
    HeadInside s₀ root first t where
  head := hhead
  head_ne := by
    rcases hmem with hmem | hmem
    · rw [hmem]
      exact h.head_ne
    · rw [hmem]
      exact hfirst
  listed := by
    rw [FileSystem.words, hroot]
    exact h.listed
  link := by
    rw [FileSystem.words, hroot]
    exact h.link
  words i hi hne := by
    rw [FileSystem.words, hroot] at hne ⊢
    exact h.words i hi hne
  first := hdisk.trans h.first

section

variable (hroot : DataBlock root) (hfirst : DataBlock first) (hne : first ≠ root)

include hroot hfirst hne

/-- The first free puts the freed block into the second word. -/
theorem start (hhead : s.superblock.sFreelistHead = root) (hunused : s.words root 1 = 0)
    (hwords : ∀ i < numOfAddressesPerBlock, s.words root i ≠ 0 → DataBlock (s.words root i)) :
    ∃ t, freeDataBlock first s = some (true, t) ∧ HeadInside s root first t := by
  have hslot : firstSlot (· = 0) (s.disk root) = some 1 :=
    firstSlot_of_first (decide_eq_true hunused)
  have hword : ∀ j, (s.writeDisk root ((s.disk root).setWord 1 first)).words root j =
      if j = 1 then first else s.words root j := by
    intro j
    rw [words_setWord (by decide)]
    simp only [true_and]
  refine ⟨_, freeDataBlock_slot hhead hroot hfirst hslot, ?_, ?_, ?_, ?_, ?_, ?_⟩
  · rw [superblock_writeDisk, hhead]
    exact hroot
  · rw [superblock_writeDisk, hhead]
    exact hne.symm
  · rw [hword, if_pos rfl]
  · rw [hword, if_neg (by decide)]
  · intro j hj hjne
    rw [hword] at hjne ⊢
    split
    · exact hfirst
    · next hji =>
        rw [if_neg hji] at hjne
        exact hwords j hj hjne
  · rw [disk_writeDisk_ne hne]

/-- Nothing that is freed later changes the second word. -/
theorem free (h : HeadInside s₀ root first s) (hb : DataBlock b) (hbroot : b ≠ root)
    (hbfirst : b ≠ first) :
    ∃ t, freeDataBlock b s = some (true, t) ∧ HeadInside s₀ root first t := by
  by_cases hhead : s.superblock.sFreelistHead = root
  · cases hslot : firstSlot (· = 0) (s.disk root) with
    | some i =>
        obtain ⟨hunused, hindex, slot, -, hi⟩ := firstSlot_eq_some hslot
        have hunused : s.words root i = 0 := of_decide_eq_true hunused
        have hword : ∀ j, (s.writeDisk root ((s.disk root).setWord i b)).words root j =
            if j = i then b else s.words root j := by
          intro j
          rw [words_setWord hindex]
          simp only [true_and]
        have hother : i ≠ 1 := by
          rintro rfl
          exact hfirst.ne_zero (h.listed.symm.trans hunused)
        refine ⟨_, freeDataBlock_slot hhead hroot hb hslot, h.head, h.head_ne, ?_, ?_, ?_, ?_⟩
        · rw [hword, if_neg hother.symm]
          exact h.listed
        · rw [hword, if_neg (by omega)]
          exact h.link
        · intro j hj hjne
          rw [hword] at hjne ⊢
          split
          · exact hb
          · next hji =>
              rw [if_neg hji] at hjne
              exact h.words j hj hjne
        · rw [disk_writeDisk_ne hne]
          exact h.first
    | none =>
        refine ⟨_, freeDataBlock_push hhead hroot hb hslot, h.of_disk hb (.inr rfl) hbfirst ?_ ?_⟩
        · rw [disk_writeDisk_ne hbroot.symm, disk_writeDisk_ne hroot.ne_zero, disk_setFreelistHead]
        · rw [disk_writeDisk_ne hbfirst.symm, disk_writeDisk_ne hfirst.ne_zero,
            disk_setFreelistHead]
  · obtain ⟨t, hrun, hhead', hmem, hdisk⟩ := freeDataBlock_total (.inr h.head) hb
    exact ⟨t, hrun, h.of_disk hhead' hmem hbfirst
      (hdisk _ hroot.ne_zero (Ne.symm hhead) hbroot.symm)
      (hdisk _ hfirst.ne_zero h.head_ne.symm hbfirst.symm)⟩

theorem freeAll (h : HeadInside s₀ root first s)
    (hbs : ∀ b ∈ bs, DataBlock b ∧ b ≠ root ∧ b ≠ first) :
    ∃ t, freeAll bs s = some (true, t) ∧ HeadInside s₀ root first t := by
  induction bs generalizing s with
  | nil => exact ⟨s, rfl, h⟩
  | cons b bs ih =>
      obtain ⟨hb, hbroot, hbfirst⟩ := hbs b List.mem_cons_self
      obtain ⟨t, hfree, ht⟩ := h.free hroot hfirst hne hb hbroot hbfirst
      obtain ⟨u, hrun, hu⟩ := ih ht fun b hb => hbs b (List.mem_cons_of_mem _ hb)
      refine ⟨u, ?_, hu⟩
      rw [AltFs.freeAll, Prog.bind_of_eq hfree]
      exact hrun

end

end HeadInside

/-! ## Up to the root of the tree that heads the list -/

section Release

variable {s : FileSystem} {node : Inode} {n d e i : Nat}

section Visits

variable {buffer : Block} {visit : Int64 → Fs Bool} {count index : Nat} {t : FileSystem}

omit [Config] in
theorem forAddresses_next (hne : buffer.word index ≠ 0)
    (hvisit : visit (buffer.word index) s = some (true, t)) :
    forAddresses buffer visit (count + 1) index s = forAddresses buffer visit count (index + 1) t := by
  rw [forAddresses, if_neg hne, Prog.bind_of_eq hvisit]
  rfl

omit [Config] in
theorem forAddresses_stop (hcount : 0 < count) (hne : buffer.word index ≠ 0)
    (hvisit : visit (buffer.word index) s = some (false, t)) :
    forAddresses buffer visit count index s = some (false, t) := by
  obtain ⟨count, rfl⟩ := Nat.exists_eq_add_of_le' hcount
  rw [forAddresses, if_neg hne, Prog.bind_of_eq hvisit]
  rfl

end Visits

omit [Config] in
theorem directOrder_cons (hn : 0 < n) :
    ∃ bs, node.directOrder 0 n = node.direct 0 :: bs := by
  have hlength : min n numOfDirectBlocks - 0 = min n numOfDirectBlocks - 1 + 1 := by
    simp only [numOfDirectBlocks]
    omega
  exact ⟨_, by rw [Inode.directOrder, hlength, List.range'_succ, List.map_cons]⟩

omit [Config] in
theorem treeInner_add_le_indirect (hlow : 1 ≤ d) (hhigh : d ≤ 3) (hlow' : 1 ≤ e) (hhigh' : e ≤ 3)
    (hne : d ≠ e) :
    treeInner s d (node.root d) + treeInner s e (node.root e) ≤ node.indirect s := by
  obtain ⟨j, rfl⟩ : ∃ j, d = j + 1 := ⟨d - 1, by omega⟩
  obtain ⟨k, rfl⟩ : ∃ k, e = k + 1 := ⟨e - 1, by omega⟩
  exact Finset.add_le_sum (f := fun j => treeInner s (j + 1) (node.root (j + 1)))
    (fun _ _ => Multiset.zero_le _) (Finset.mem_range.mpr (by omega))
    (Finset.mem_range.mpr (by omega)) (by omega)

omit [Config] in
theorem child_inner_le (he : e = d + 1) (hp : node.root e ≠ 0) (hi : i < numOfAddressesPerBlock) :
    treeInner s d (s.words (node.root e) i) ≤ treeInner s e (node.root e) := by
  subst he
  exact PointerTree.inner_child_le hp hi

namespace Inode.WellMapped

variable (h : node.WellMapped s n)

include h

theorem releaseOrder_nodup : (node.releaseOrder s 0 n).Nodup := by
  rw [← Multiset.coe_nodup, h.coe_releaseOrder]
  exact h.nodup

theorem first_notMem (hn : 0 < n) (hlow : 1 ≤ d) (hhigh : d ≤ 3) :
    node.direct 0 ∉ node.levelOrder s n d := by
  obtain ⟨bs, hbs⟩ : ∃ bs, node.directOrder 0 n = node.direct 0 :: bs := directOrder_cons hn
  have hnodup := h.releaseOrder_nodup
  rw [Inode.releaseOrder, hbs, List.cons_append, List.nodup_cons] at hnodup
  intro hmem
  apply hnodup.1
  rw [List.mem_append, List.mem_append, List.mem_append]
  obtain rfl | rfl | rfl : d = 1 ∨ d = 2 ∨ d = 3 := by omega
  · exact .inr (.inl hmem)
  · exact .inr (.inr (.inl hmem))
  · exact .inr (.inr (.inr hmem))

theorem root_dataBlock (hlow : 1 ≤ e) (hhigh : e ≤ 3) (hp : node.root e ≠ 0) :
    DataBlock (node.root e) :=
  h.data _ (Multiset.mem_of_le (treeCells_le_blocks hlow hhigh) (PointerTree.mem_cells_root hp))

section Subtree

variable (he : e = d + 1) (hhigh : e ≤ 3) (hp : node.root e ≠ 0) (hi : i < numOfAddressesPerBlock)
  (hne : s.words (node.root e) i ≠ 0)

include he hhigh hp hi

omit [Config] h in
theorem subtree_le : treeCells s d (s.words (node.root e) i) ≤ treeCells s e (node.root e) := by
  subst he
  exact PointerTree.child_le hp hi

include hne

theorem word_dataBlock : DataBlock (s.words (node.root e) i) :=
  h.data _ (Multiset.mem_of_le ((subtree_le he hhigh hp hi).trans
    (treeCells_le_blocks (by omega) hhigh)) (PointerTree.mem_cells_root hne))

/-- What is freed with a subtree. -/
theorem subtree_order (hn : 0 < n) {a : Int64} (ha : a ∈ treeOrder s d (s.words (node.root e) i)) :
    DataBlock a ∧ a ≠ node.root e ∧ a ≠ node.direct 0 := by
  have hfilled := h.filled.tree e (by omega) hhigh
  have hle : treeCells s e (node.root e) ≤ node.blocks s := treeCells_le_blocks (by omega) hhigh
  have hchild : a ∈ treeCells s d (s.words (node.root e) i) := by
    subst he
    have hpos := (hfilled.word_ne_zero_iff hp hi).mp hne
    rw [treeCells, ← PointerTree.coe_postorder (hfilled.child hp hi) (by decide) (by omega)]
    exact Multiset.mem_coe.mpr ha
  have hmem := Multiset.mem_of_le (subtree_le he hhigh hp hi) hchild
  refine ⟨h.data a (Multiset.mem_of_le hle hmem), ?_, ?_⟩
  · subst he
    rintro rfl
    exact PointerTree.root_notMem_child (Multiset.nodup_of_le hle h.nodup) hp hi hchild
  · rintro rfl
    apply h.first_notMem hn (d := e) (by omega) hhigh
    rwa [← Multiset.mem_coe, h.coe_levelOrder (by omega) hhigh]

theorem subtree_frees :
    Frees s (treeInner s d (s.words (node.root e) i)) (treeOrder s d (s.words (node.root e) i))
      (freeIndirectBlocks d (s.words (node.root e) i)) := by
  have hfilled := h.filled.tree e (by omega) hhigh
  have hle : treeCells s d (s.words (node.root e) i) ≤ node.blocks s :=
    (subtree_le he hhigh hp hi).trans (treeCells_le_blocks (by omega) hhigh)
  subst he
  have hpos := (hfilled.word_ne_zero_iff hp hi).mp hne
  exact freeIndirectBlocks_frees (hfilled.child hp hi) (by omega)
    (Multiset.nodup_of_le hle h.nodup) fun b hb => h.data b (Multiset.mem_of_le hle hb)

omit hne in
theorem root_notMem_inner {f : Nat} (hlow : 1 ≤ f) (hhigh' : f ≤ 3) (hother : f ≠ e) :
    node.root e ∉ treeInner s f (node.root f) + treeInner s d (s.words (node.root e) i) := by
  have hblocks := h.nodup
  rw [blocks_split (d := e) (by omega) hhigh, Multiset.nodup_add] at hblocks
  intro hmem
  rcases Multiset.mem_add.mp hmem with hmem | hmem
  · exact Multiset.disjoint_left.mp hblocks.2.2 (PointerTree.mem_cells_root hp)
      (Multiset.mem_of_le (treeInner_le_blocksExcept s node hlow hhigh' hother (by omega)) hmem)
  · subst he
    exact PointerTree.root_notMem_child hblocks.1 hp hi
      (Multiset.mem_of_le (PointerTree.inner_le_cells _ _) hmem)

end Subtree

theorem untouched_of_le {avoid : Multiset Int64} (hdata : DataBlock s.superblock.sFreelistHead)
    (hnot : s.superblock.sFreelistHead ∉ avoid) (hle : avoid ≤ node.indirect s) :
    Untouched s avoid s where
  head := .inr hdata
  head_notMem := hnot
  disk a ha := ⟨(h.data a (Multiset.mem_of_le (hle.trans (indirect_le_blocks s node)) ha)).ne_zero,
    rfl⟩

theorem first_ne_root (hn : 0 < n) (hlow : 1 ≤ e) (hhigh : e ≤ 3) (hp : node.root e ≠ 0) :
    node.direct 0 ≠ node.root e := by
  intro heq
  apply h.first_notMem hn hlow hhigh
  rw [← Multiset.mem_coe, h.coe_levelOrder hlow hhigh, heq]
  exact PointerTree.mem_cells_root hp

section Root

variable (hd : d = 1) (he : e = 2) (hn : levelStart e < n)

include hd he hn

/-- What is freed between the first block and the double-indirect tree. -/
theorem before_root {bs : List Int64} (hbs : node.directOrder 0 n = node.direct 0 :: bs) {a : Int64}
    (ha : a ∈ bs ++ node.levelOrder s n d) :
    DataBlock a ∧ a ≠ node.root e ∧ a ≠ node.direct 0 := by
  have hp : node.root e ≠ 0 := by
    rw [Ne, h.root_eq_zero_iff (by omega) (by omega)]
    omega
  have hroot : node.root e ∈ node.levelOrder s n e := by
    rw [← Multiset.mem_coe, h.coe_levelOrder (by omega) (by omega)]
    exact PointerTree.mem_cells_root hp
  have hmem : a ∈ node.releaseOrder s 0 n := by
    subst hd he
    rw [Inode.releaseOrder, hbs, List.cons_append, ← List.append_assoc]
    exact List.mem_cons_of_mem _ (List.mem_append_left _ ha)
  have hnodup := h.releaseOrder_nodup
  subst hd he
  rw [Inode.releaseOrder, hbs, List.cons_append, List.nodup_cons, ← List.append_assoc,
    List.nodup_append] at hnodup
  obtain ⟨hfirst, -, -, hdisjoint⟩ := hnodup
  refine ⟨?_, hdisjoint a ha _ (List.mem_append_left _ hroot), ?_⟩
  · apply h.data
    rwa [← h.coe_releaseOrder, Multiset.mem_coe]
  · rintro rfl
    exact hfirst (List.mem_append_left _ ha)

/-- The direct blocks and the first tree are freed; then the root lists the first block. -/
theorem reach_root (hhead : s.superblock.sFreelistHead = node.root e)
    (hunused : s.words (node.root e) 1 = 0) : ∃ t u,
    freeDirectBlocks node numOfDirectBlocks 0 s = some (true, t) ∧
      AltFs.freeAll (node.directOrder 0 n) s = some (true, t) ∧
      freeIndirectIfSet (node.root d) d t = some (true, u) ∧
      AltFs.freeAll (node.levelOrder s n d) t = some (true, u) ∧
      Untouched s (treeInner s d (node.root d)) t ∧
      Untouched s (treeInner s d (s.words (node.root e) 0)) u ∧
      HeadInside s (node.root e) (node.direct 0) u := by
  have hp : node.root e ≠ 0 := by
    rw [Ne, h.root_eq_zero_iff (by omega) (by omega)]
    omega
  have hpos : 0 < n := by omega
  have hroot := h.root_dataBlock (by omega) (by omega) hp
  have hdirect := h.direct_dataBlock (i := 0) (by decide) hpos
  have hne := h.first_ne_root hpos (e := e) (by omega) (by omega) hp
  obtain ⟨bs, hbs⟩ : ∃ bs, node.directOrder 0 n = node.direct 0 :: bs := directOrder_cons hpos
  obtain ⟨s₁, hfirst, h₁⟩ := HeadInside.start hroot hdirect hne hhead hunused fun i hi hword =>
    h.word_dataBlock (d := d) (by omega) (by omega) hp hi hword
  obtain ⟨t, hrest, ht⟩ := h₁.freeAll hroot hdirect hne fun b hb =>
    h.before_root hd he hn hbs (List.mem_append_left _ hb)
  obtain ⟨u, hlevel, hu⟩ := ht.freeAll hroot hdirect hne fun b hb =>
    h.before_root hd he hn hbs (List.mem_append_right _ hb)
  have hall : AltFs.freeAll (node.directOrder 0 n) s = some (true, t) := by
    rw [hbs, AltFs.freeAll, Prog.bind_of_eq hfirst]
    exact hrest
  -- The address blocks that are read before the root stay as they are.
  have hle : treeInner s d (s.words (node.root e) 0) ≤ treeInner s e (node.root e) :=
    child_inner_le (by omega) hp (by decide)
  have hinner : treeInner s d (node.root d) + treeInner s d (s.words (node.root e) 0) ≤
      node.indirect s :=
    (Multiset.add_le_add_left hle).trans
      (treeInner_add_le_indirect (by omega) (by omega) (by omega) (by omega) (by omega))
  have hstart : Untouched s (treeInner s d (node.root d) + treeInner s d (s.words (node.root e) 0))
      s := by
    apply h.untouched_of_le ?_ ?_ hinner
    · rw [hhead]
      exact hroot
    · rw [hhead]
      exact h.root_notMem_inner (by omega) (by omega) hp (by decide) (by omega) (by omega) (by omega)
  obtain ⟨-, htouch⟩ := hstart.freed (fun a ha => ⟨(h.directOrder_mem ha).1, fun hmem =>
    (h.directOrder_mem ha).2 (Multiset.mem_of_le hinner hmem)⟩) hall
  obtain ⟨-, htouch'⟩ := (htouch.mono (Multiset.le_add_left _ _)).freed (fun a ha =>
    ⟨(h.levelOrder_mem (e := e) (by omega) (by omega) (by omega) (by omega) (by omega) ha).1,
      fun hmem => (h.levelOrder_mem (by omega) (by omega) (by omega) (by omega) (by omega) ha).2
        (Multiset.mem_of_le hle hmem)⟩) hlevel
  refine ⟨t, u, ?_, hall, ?_, hlevel, htouch.mono (Multiset.le_add_right _ _), htouch', hu⟩
  · rw [freeDirectBlocks_frees h (zero_add _) s (hstart.mono (Multiset.zero_le _)), hall]
  · rw [freeIndirectIfSet_frees h (by omega) (by omega) t
      (htouch.mono (Multiset.le_add_right _ _)), hlevel]

end Root

end Inode.WellMapped

end Release

/-! ## Outcomes of the two releases -/

section Outcomes

open Prog

variable {s : FileSystem} {node : Inode} {n : Nat} {b : Int64}

theorem altfsReadBlock_defined (b : Int64) : Defined (altfsReadBlock b) :=
  .ite (.pure _) (.bind .get fun _ => .pure _)

theorem altfsWriteBlock_defined (b : Int64) (buffer : Block) :
    Defined (altfsWriteBlock b buffer) :=
  .ite (.pure _) (.bind (.modify _) fun _ => .pure _)

theorem altfsWriteSuperblock_defined : Defined altfsWriteSuperblock :=
  .bind .get fun _ => altfsWriteBlock_defined _ _

theorem freeDataBlock_defined (b : Int64) : Defined (freeDataBlock b) := by
  refine .ite (.pure _) (.bind ?_ fun _ => .ite (.pure _) (.bind .get fun _ =>
    .bind (altfsReadBlock_defined _) fun contents => ?_))
  · exact .bind .get fun _ => .ite (.pure _) (.bind (.modify _) fun _ =>
      altfsWriteSuperblock_defined)
  · split
    · exact .pure _
    · split
      · exact altfsWriteBlock_defined _ _
      · exact .bind (.modify _) fun _ => .bind altfsWriteSuperblock_defined fun _ =>
          .ite (.pure _) (altfsWriteBlock_defined _ _)

omit [Config] in
theorem forEachAddress_defined {buffer : Block} {visit : Int64 → Fs Unit} {count index : Nat}
    (hvisit : ∀ i, i < index + count → buffer.word i ≠ 0 → Defined (visit (buffer.word i))) :
    Defined (forEachAddress buffer visit count index) := by
  induction count generalizing index with
  | zero => exact .pure _
  | succ count ih =>
      rw [forEachAddress]
      by_cases hzero : buffer.word index = 0
      · rw [if_pos hzero]
        exact .pure _
      · rw [if_neg hzero]
        exact .bind (hvisit index (by omega) hzero) fun _ =>
          ih fun i hi => hvisit i (by omega)

theorem readDataBlockArray_bind {β : Type} (hb : DataBlock b) {f : Block → Fs β}
    (hf : ∀ buffer, Defined (f buffer)) : Defined (readDataBlockArray b >>= f) := by
  intro s
  rw [bind_of_eq (readDataBlockArray_run hb)]
  exact hf _ s

/-- The utility takes every data block for an address block. -/
theorem removeDatablocksUtility_defined {d : Nat} (hb : DataBlock b)
    (hvisit : ∀ q, Defined (removeDatablocksUtility d q)) :
    Defined (removeDatablocksUtility (d + 1) b) := by
  unfold removeDatablocksUtility
  refine .ite (.pure _) (readDataBlockArray_bind hb fun buffer => ?_)
  refine .bind ?_ fun _ => .bind (freeDataBlock_defined b) fun _ => .pure true
  exact forEachAddress_defined fun i _ _ => .bind (hvisit _) fun _ => .pure ()

section Visits

variable {d : Nat} {t u : FileSystem}

/-- The first address that cannot be freed ends the recursion. -/
theorem freeIndirectBlocks_first (hb : DataBlock b) (hne : s.words b 0 ≠ 0)
    (hrun : freeIndirectBlocks d (s.words b 0) s = some (false, t)) :
    freeIndirectBlocks (d + 1) b s = some (false, t) := by
  have hloop : forAddresses (s.disk b) (freeIndirectBlocks d) numOfAddressesPerBlock 0 s =
      some (false, t) := forAddresses_stop (by decide) hne hrun
  rw [freeIndirectBlocks, bind_of_eq (altfsReadBlock_run hb.inRange)]
  exact bind_of_eq hloop

theorem freeIndirectBlocks_second (hb : DataBlock b) (hne : s.words b 0 ≠ 0)
    (hfirst : freeIndirectBlocks d (s.words b 0) s = some (true, u)) (hne' : s.words b 1 ≠ 0)
    (hsecond : freeIndirectBlocks d (s.words b 1) u = some (false, t)) :
    freeIndirectBlocks (d + 1) b s = some (false, t) := by
  obtain ⟨count, hcount⟩ : ∃ count, numOfAddressesPerBlock = count + 2 := ⟨510, rfl⟩
  have hloop : forAddresses (s.disk b) (freeIndirectBlocks d) numOfAddressesPerBlock 0 s =
      some (false, t) := by
    rw [hcount]
    exact (forAddresses_next hne hfirst).trans
      (forAddresses_stop (Nat.succ_pos _) hne' hsecond)
  rw [freeIndirectBlocks, bind_of_eq (altfsReadBlock_run hb.inRange)]
  exact bind_of_eq hloop

end Visits

variable (h : node.WellMapped s n) (hn : levelStart 2 < n)
  (hhead : s.superblock.sFreelistHead = node.root 2) (hunused : s.words (node.root 2) 1 = 0)

include h

/-- The utility passes over what it cannot free. -/
theorem removeDoubleIndirect_headInside {u : FileSystem}
    (hp : node.root 2 ≠ 0) (hu : HeadInside s (node.root 2) (node.direct 0) u) :
    ∃ v, removeDatablocksUtility 2 node.iDoubleIndirect u = some (true, v) := by
  have hroot := h.root_dataBlock (by omega) (by omega) hp
  have hpos : ¬(node.root 2).toInt ≤ 0 := not_le.mpr hroot.pos
  obtain ⟨_, v, hvisits⟩ := @forEachAddress_defined (u.disk (node.root 2))
    (fun q => do
      let _ ← removeDatablocksUtility 1 q
      pure ()) numOfAddressesPerBlock 0 (fun i hi hne =>
        .bind (removeDatablocksUtility_defined (hu.words i (by omega) hne)
          freeDataBlock_defined) fun _ => .pure ()) u
  obtain ⟨freed, w, hlast⟩ := freeDataBlock_defined (node.root 2) v
  refine ⟨w, ?_⟩
  change removeDatablocksUtility 2 (node.root 2) u = _
  rw [removeDatablocksUtility, if_neg hpos, bind_of_eq (readDataBlockArray_run hroot)]
  exact (bind_of_eq hvisits).trans (bind_of_eq hlast)

include hn hhead hunused

/-- A first block that begins with a refused number ends the release of the file. -/
theorem freeDataBlocksInInode_headInside (hne : s.words (node.direct 0) 0 ≠ 0)
    (hinvalid : isInvalidDataBlock (s.words (node.direct 0) 0) = true) :
    ∃ t, freeDataBlocksInInode node s = some (false, t) := by
  have hp : node.root 2 ≠ 0 := by
    rw [Ne, h.root_eq_zero_iff (by omega) (by omega)]
    omega
  obtain ⟨t, u, hdirect, -, hsingle, -, -, htouch, hu⟩ := h.reach_root rfl rfl hn hhead hunused
  have hroot := h.root_dataBlock (by omega) (by omega) hp
  have hfirst := h.direct_dataBlock (i := 0) (by decide) (by omega)
  have hword : s.words (node.root 2) 0 ≠ 0 :=
    ((h.filled.tree 2 (by omega) (by omega)).word_ne_zero_iff (d := 1) hp (by decide)).mpr
      (by omega)
  obtain ⟨v, hsub, hv⟩ := hu.freeAll hroot hfirst
    (h.first_ne_root (by omega) (by omega) (by omega) hp) fun b hb =>
      h.subtree_order (d := 1) (e := 2) rfl (by omega) hp (by decide) hword (by omega) hb
  have hvisit : freeIndirectBlocks 1 (u.words (node.root 2) 0) u = some (true, v) := by
    rw [hu.link, h.subtree_frees (d := 1) (e := 2) rfl (by omega) hp (by decide) hword u htouch,
      hsub]
  have hsame : v.words (node.direct 0) 0 = s.words (node.direct 0) 0 := by
    rw [FileSystem.words, hv.first, FileSystem.words]
  have hbad : freeIndirectBlocks 1 (u.words (node.root 2) 1) v = some (false, v) := by
    rw [hu.listed]
    apply freeIndirectBlocks_first (d := 0) hfirst
    · rw [hsame]
      exact hne
    · rw [hsame]
      exact freeDataBlock_invalid hinvalid
  have htree : freeIndirectIfSet (node.root 2) 2 u = some (false, v) := by
    rw [freeIndirectIfSet, if_neg hp]
    refine freeIndirectBlocks_second (d := 1) hroot ?_ hvisit ?_ hbad
    · rw [hu.link]
      exact hword
    · rw [hu.listed]
      exact hfirst.ne_zero
  refine ⟨v, ?_⟩
  rw [freeDataBlocksInInode, bind_of_eq hdirect]
  exact (bind_of_eq hsingle).trans (bind_of_eq htree)

theorem removeDatablocksFromInode_headInside (hbelow : n ≤ levelStart 3) :
    ∃ node' t, removeDatablocksFromInode node 0 s = some ((true, node'), t) := by
  have hp : node.root 2 ≠ 0 := by
    rw [Ne, h.root_eq_zero_iff (by omega) (by omega)]
    omega
  have hsize : levelStart 1 = 12 := rfl
  have hsize' : levelStart 2 = 524 := rfl
  have hsize'' : levelStart 3 = 262668 := rfl
  obtain ⟨t, u, -, hdirect, -, hsingle, htouch, -, hu⟩ := h.reach_root rfl rfl hn hhead hunused
  have htree := removeTree_run h (d := 1) (by omega) (by omega) (by omega) htouch hsingle
  obtain ⟨v, hdouble⟩ := removeDoubleIndirect_headInside h hp hu
  have hcount : ¬((0 : Nat) : Int) ≥ node.iBlocksNum.toInt := by
    rw [h.blocksNum]
    omega
  have hloop : (min node.iBlocksNum.toInt (numOfDirectBlocks : Int) - (0 : Nat)).toNat =
      min n numOfDirectBlocks - 0 := by
    rw [h.blocksNum]
    omega
  have hsecond : ¬node.iBlocksNum.toInt ≤ (numOfDirectBlocks : Int) := by
    rw [h.blocksNum]
    simp only [numOfDirectBlocks]
    omega
  have hthird : ¬node.iBlocksNum.toInt - (numOfDirectBlocks : Int) ≤
      (numOfAddressesPerBlock : Int) := by
    rw [h.blocksNum]
    simp only [numOfDirectBlocks, numOfAddressesPerBlock]
    omega
  have hlast : node.iBlocksNum.toInt - (numOfDirectBlocks : Int) -
      (numOfAddressesPerBlock : Int) ≤ (numOfDoubleIndirectBlockAddr : Int) := by
    rw [h.blocksNum]
    simp only [numOfDirectBlocks, numOfAddressesPerBlock, numOfDoubleIndirectBlockAddr]
    omega
  have hrest : ∀ node' : Inode, node'.iDoubleIndirect = node.iDoubleIndirect → ∃ kept,
      removeDoubleRest node' 0 (node.iBlocksNum.toInt - numOfDirectBlocks) u =
        some ((true, kept), v) := by
    intro node' hsame
    rw [removeDoubleRest, if_neg hthird, hsame, bind_of_eq hdouble]
    simp only [Bool.not_true, Bool.false_eq_true, if_false, removeTripleRest, if_pos hlast]
    exact ⟨_, rfl⟩
  obtain ⟨kept, hkept⟩ := hrest
    { node.clearDirect 0 (min n numOfDirectBlocks - 0) with iSingleIndirect := 0 } rfl
  refine ⟨kept, v, ?_⟩
  rw [removeDatablocksFromInode, if_neg hcount]
  change removeFromDirect node 0 s = _
  rw [removeFromDirect, hloop, bind_of_eq (removeDirect_run hdirect)]
  simp only [Bool.not_true, Bool.false_eq_true, if_false, if_neg hsecond]
  exact (bind_of_eq htree).trans hkept

end Outcomes

/-! ## Such a file -/

section Built

variable {s : FileSystem} {node : Inode} {n d e i : Nat}

omit [Config] in
theorem mem_treeInner {p : Int64} (hlow : 1 ≤ d) (hp : p ≠ 0) : p ∈ treeInner s d p := by
  obtain ⟨k, rfl⟩ := Nat.exists_eq_add_of_le' hlow
  exact PointerTree.mem_inner_root hp

omit [Config] in
theorem root_mem_indirect (hlow : 1 ≤ e) (hhigh : e ≤ 3) (hp : node.root e ≠ 0) :
    node.root e ∈ node.indirect s :=
  Multiset.mem_of_le (treeInner_le_indirect hlow hhigh) (mem_treeInner hlow hp)

omit [Config] in
theorem word_mem_indirect (he : e = d + 1) (hlow : 1 ≤ d) (hhigh : e ≤ 3) (hp : node.root e ≠ 0)
    (hi : i < numOfAddressesPerBlock) (hne : s.words (node.root e) i ≠ 0) :
    s.words (node.root e) i ∈ node.indirect s :=
  Multiset.mem_of_le ((child_inner_le he hp hi).trans (treeInner_le_indirect (by omega) hhigh))
    (mem_treeInner hlow hne)

theorem root_ne_word (h : node.WellMapped s n) (he : e = d + 1) (hhigh : e ≤ 3)
    (hp : node.root e ≠ 0) (hi : i < numOfAddressesPerBlock)
    (hne : s.words (node.root e) i ≠ 0) : node.root e ≠ s.words (node.root e) i := by
  subst he
  have hnodup := Multiset.nodup_of_le (treeCells_le_blocks (by omega) hhigh) h.nodup
  exact (ne_of_mem_of_not_mem (PointerTree.mem_cells_root hne)
    (PointerTree.root_notMem_child hnodup hp hi)).symm

omit [Config] in
/-- Only the first subtree is in use. -/
theorem word_eq_zero {p : Int64} {m : Nat}
    (h : PointerTree.Filled numOfAddressesPerBlock s.words (d + 1) p m) (hp : p ≠ 0)
    (hm : m ≤ numOfAddressesPerBlock ^ d) (hi : i < freelistSlots) :
    s.words p (i + 1) = 0 := by
  have hindex : i + 1 < numOfAddressesPerBlock := by
    rw [freelistSlots] at hi
    omega
  by_contra hset
  have hlt := (h.word_ne_zero_iff hp hindex).mp hset
  rw [Nat.succ_mul] at hlt
  omega

/-- `head` heads the free list, `first` begins with the number 1 and `last` is empty. -/
def FileSystem.headedBy (s : FileSystem) (head first last : Int64) : FileSystem :=
  ((s.setFreelistHead head).writeDisk first (Block.zero.setWord 0 1)).writeDisk last Block.zero

section HeadedBy

variable {head next first last b : Int64}

omit [Config] in
theorem words_headedBy (hb : b ≠ first) (hb' : b ≠ last) :
    (s.headedBy head first last).words b = s.words b := by
  funext i
  rw [FileSystem.words, FileSystem.headedBy, disk_writeDisk_ne hb', disk_writeDisk_ne hb,
    disk_setFreelistHead, FileSystem.words]

/-- The list goes from `head` over `next` to `last`. -/
theorem freeList_headedBy (hhead : DataBlock head) (hnext : DataBlock next) (hlast : DataBlock last)
    (hdistinct : [head, next, last].Nodup) (hfirst : head ≠ first) (hfirst' : next ≠ first)
    (hlink : s.words head 0 = next) (hlink' : s.words next 0 = last)
    (hunused : ∀ i < freelistSlots, s.words head (i + 1) = 0)
    (hunused' : ∀ i < freelistSlots, s.words next (i + 1) = 0) :
    FreeList (s.headedBy head first last) ([head, next, last] : List Int64) := by
  have hzero : ∀ i, (s.headedBy head first last).words last i = 0 := by
    intro i
    rw [FileSystem.words, FileSystem.headedBy, disk_writeDisk_self]
    exact Block.word_zero i
  have hne : head ≠ next ∧ head ≠ last ∧ next ≠ last := by
    simpa [and_assoc] using hdistinct
  have hwords := @words_headedBy s head first last head hfirst hne.2.1
  have hwords' := @words_headedBy s head first last next hfirst' hne.2.2
  have hend : FreeChain freelistSlots (s.headedBy head first last).words last (last ::ₘ 0) := by
    refine FreeChain.cons_unused hlast.ne_zero (fun i _ => hzero (i + 1)) ?_
    rw [hzero]
    exact .nil
  have hrest : FreeChain freelistSlots (s.headedBy head first last).words next
      (next ::ₘ last ::ₘ 0) := by
    refine FreeChain.cons_unused hnext.ne_zero ?_ ?_
    · rw [hwords']
      exact hunused'
    · rw [hwords', hlink']
      exact hend
  have hchain : FreeChain freelistSlots (s.headedBy head first last).words head
      (head ::ₘ next ::ₘ last ::ₘ 0) := by
    refine FreeChain.cons_unused hhead.ne_zero ?_ ?_
    · rw [hwords]
      exact hunused
    · rw [hwords, hlink]
      exact hrest
  refine ⟨hchain, Multiset.coe_nodup.mpr hdistinct, fun b hb => ?_⟩
  simp only [Multiset.mem_coe, List.mem_cons, List.not_mem_nil, or_false] at hb
  obtain rfl | rfl | rfl := hb
  · exact hhead
  · exact hnext
  · exact hlast

end HeadedBy

/--
A file of 525 blocks whose double-indirect tree makes up the free list: the list
goes from the root over the one address block to the last block of the file.
-/
theorem exists_headInside (h : node.WellMapped s 525) :
    ∃ t free, node.WellMapped t 525 ∧ FreeList t free ∧
      t.superblock.sFreelistHead = node.root 2 ∧ t.words (node.root 2) 1 = 0 ∧
      t.words (node.direct 0) 0 = 1 := by
  have hstart : levelStart 2 = 524 := rfl
  have hp : node.root 2 ≠ 0 := by
    rw [Ne, h.root_eq_zero_iff (by omega) (by omega)]
    omega
  have hfilled := h.filled.tree 2 (by omega) (by omega)
  have hc : s.words (node.root 2) 0 ≠ 0 :=
    (hfilled.word_ne_zero_iff (d := 1) hp (by decide)).mpr (by omega)
  have hunused := fun i => word_eq_zero (d := 1) (i := i) hfilled hp (by decide)
  have hunused' := fun i => word_eq_zero (d := 0) (i := i)
    (hfilled.child (d := 1) hp (j := 0) (by decide)) hc (by decide)
  have hlast : s.words (s.words (node.root 2) 0) 0 = node.blockAt s 524 := by
    rw [Inode.blockAt_tree (d := 2) (by omega) (by omega) (by omega) (by decide), hstart,
      Nat.sub_self, treeNode, PointerTree.nodeAt_succ (by omega) hp, Nat.zero_div, Nat.zero_mod,
      PointerTree.nodeAt_succ (by omega) hc, Nat.zero_div, Nat.zero_mod, PointerTree.nodeAt]
  have hne : ∀ i < 525, node.blockAt s i ≠ 0 := fun i hi =>
    h.filled.blockAt_ne_zero hi (by simp only [maxBlocksNum]; omega)
  have hout : ∀ i < 525, ∀ b ∈ node.indirect s, b ≠ node.blockAt s i := fun i hi b hb =>
    ne_of_mem_of_not_mem hb (blockAt_notMem_indirect h.nodup (hne i hi))
  have hdata : ∀ b ∈ node.indirect s, DataBlock b := fun b hb =>
    h.data b (Multiset.mem_of_le (indirect_le_blocks s node) hb)
  have hroot := root_mem_indirect (s := s) (by omega) (by omega) hp
  have hnext := word_mem_indirect (d := 1) (by omega) (by omega) (by omega) hp (by decide) hc
  have hdistinct := root_ne_word h (d := 1) (by omega) (by omega) hp (by decide) hc
  have hwords := @words_headedBy s (node.root 2) (node.blockAt s 0) (node.blockAt s 524)
  rw [← Inode.blockAt_direct (s := s) (by decide)]
  refine ⟨s.headedBy (node.root 2) (node.blockAt s 0) (node.blockAt s 524), _, h.kept ?_,
    freeList_headedBy (hdata _ hroot) (hdata _ hnext)
      (h.data _ (blockAt_mem_blocks (hne 524 (by omega)))) ?_ (hout 0 (by omega) _ hroot)
      (hout 0 (by omega) _ hnext) rfl hlast hunused hunused', rfl, ?_, ?_⟩
  · intro b hb
    rw [FileSystem.headedBy, disk_writeDisk_ne (hout 524 (by omega) b hb),
      disk_writeDisk_ne (hout 0 (by omega) b hb), disk_setFreelistHead]
  · simp [hdistinct, hout 524 (by omega) _ hroot, hout 524 (by omega) _ hnext]
  · rw [hwords (hout 0 (by omega) _ hroot) (hout 524 (by omega) _ hroot)]
    exact hunused 0 (by decide)
  · have hother : node.blockAt s 0 ≠ node.blockAt s 524 := fun heq =>
      absurd (blockAt_inj h.nodup (hne 0 (by omega)) heq) (by omega)
    rw [FileSystem.words, FileSystem.headedBy, disk_writeDisk_ne hother, disk_writeDisk_self]
    decide

end Built

end

/--
A file of 525 blocks whose double-indirect block is the head of the free list:
`free_data_blocks_in_inode` fails and `remove_datablocks_from_inode` succeeds.
-/
theorem releases_disagree :
    letI := Config.ofBlocks 2200 (by decide)
    ∃ s node free, node.WellMapped s 525 ∧ FreeList s free ∧
      s.superblock.sFreelistHead = node.iDoubleIndirect ∧
      (∃ t, freeDataBlocksInInode node s = some (false, t)) ∧
      ∃ node' t, removeDatablocksFromInode node 0 s = some ((true, node'), t) := by
  let _ := Config.ofBlocks 2200 (by decide)
  obtain ⟨_, _, _, s, node, _, -, -, -, -, hwell, -⟩ :=
    @exists_file _ 525 (by decide) (by decide) (by simp only [maxBlocksNum]; omega) (by decide)
  obtain ⟨t, free, hwell, hfree, hhead, hunused, hword⟩ := exists_headInside hwell
  have hlevel : levelStart 2 < 525 := by decide
  refine ⟨t, node, free, hwell, hfree, hhead, ?_, ?_⟩
  · apply freeDataBlocksInInode_headInside hwell hlevel hhead hunused
    · rw [hword]
      decide
    · rw [hword]
      decide
  · exact removeDatablocksFromInode_headInside hwell hlevel hhead hunused (by decide)

end AltFs
