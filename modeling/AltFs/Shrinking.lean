import AltFs.FileRelease
import AltFs.Lib.TreeCuts

/-!
# The loops that shrink a file

`remove_datablocks_from_inode` frees entries of address blocks and clears them,
and may free an address block that it has emptied.  `Keeps s₀ held s free`:
beside the free list the blocks of `held` are in use, with the contents they
have in `s₀`.  Each loop is specified by the blocks that it gives up.
-/

namespace AltFs

/-- Clear `count` words from `index` on, one after the other. -/
def Block.clearWords : Nat → Nat → Block → Block
  | 0, _, block => block
  | count + 1, index, block => clearWords count (index + 1) (block.setWord index 0)

theorem Block.word_clearWords {count index : Nat} {block : Block}
    (hfit : index + count ≤ numOfAddressesPerBlock) (j : Nat) :
    (block.clearWords count index).word j =
      if index ≤ j ∧ j < index + count then 0 else block.word j := by
  induction count generalizing index block with
  | zero => rw [Block.clearWords, if_neg (by omega)]
  | succ count ih =>
      rw [Block.clearWords, ih (by omega), Block.word_setWord (by omega)]
      by_cases hj : j = index
      · rw [if_neg (by omega), if_pos hj, if_pos (by omega)]
      · rw [if_neg hj]
        have hrange : index + 1 ≤ j ∧ j < index + 1 + count ↔
            index ≤ j ∧ j < index + (count + 1) := by omega
        simp only [hrange]

variable [Config]

/-- Only data blocks and the head of the free list have changed. -/
def DataOnly (s s' : FileSystem) : Prop :=
  ∃ S : Multiset Int64, (∀ b ∈ S, DataBlock b) ∧ DataFrame S s s'

namespace DataOnly

variable {s t u : FileSystem} {S : Multiset Int64} {q : Int64}

theorem refl (s : FileSystem) : DataOnly s s :=
  ⟨0, fun _ hb => absurd hb (Multiset.notMem_zero _), .refl 0 s⟩

theorem symm (h : DataOnly s t) : DataOnly t s := by
  obtain ⟨S, hdata, hframe⟩ := h
  refine ⟨S, hdata, fun b hb hS => (hframe.disk b hb hS).symm, hframe.sInodesCount.symm,
    hframe.sFirstIno.symm, hframe.sNumOfInodesPerBlock.symm, hframe.cache.symm⟩

theorem trans (h : DataOnly s t) (h' : DataOnly t u) : DataOnly s u := by
  obtain ⟨S, hdata, hframe⟩ := h
  obtain ⟨S', hdata', hframe'⟩ := h'
  refine ⟨S + S', fun b hb => ?_, (hframe.mono fun b hb => ?_).trans (hframe'.mono fun b hb => ?_)⟩
  · rcases Multiset.mem_add.mp hb with hS | hS'
    · exact hdata b hS
    · exact hdata' b hS'
  · exact Multiset.mem_add.mpr (.inl hb)
  · exact Multiset.mem_add.mpr (.inr hb)

theorem writeDisk (hq : DataBlock q) (block : Block) : DataOnly s (s.writeDisk q block) :=
  ⟨{q}, fun _ hb => Multiset.mem_singleton.mp hb ▸ hq, .writeDisk (Multiset.mem_singleton_self q)⟩

end DataOnly

section Entries

variable {s s' : FileSystem} {free rest : Multiset Int64} {arr : Block} {q : Int64}
  {count index : Nat}

theorem removeEntries_run (hfit : index + count ≤ numOfAddressesPerBlock)
    (hrun : freeAll ((List.range' index count).map arr.word) s = some (true, s')) :
    removeEntries count index arr s = some ((true, arr.clearWords count index), s') := by
  induction count generalizing index arr s with
  | zero =>
      cases hrun
      rfl
  | succ count ih =>
      rw [List.range'_succ, List.map_cons, freeAll] at hrun
      obtain ⟨freed, t, hfree, hrest⟩ := Prog.bind_eq_some_iff.mp hrun
      cases freed with
      | false => cases hrest
      | true =>
          have hsame : (List.range' (index + 1) count).map (arr.setWord index 0).word =
              (List.range' (index + 1) count).map arr.word := by
            apply List.map_congr_left
            intro j hj
            rw [List.mem_range'_1] at hj
            exact Block.word_setWord_ne (by omega)
          rw [removeEntries, Prog.bind_of_eq hfree]
          apply ih (by omega)
          rw [hsame]
          exact hrest

/-- Entries of an address block are freed and the block is written with the entries cleared. -/
theorem clearEntries_run (hfit : index + count ≤ numOfAddressesPerBlock)
    (howned : Owned s free
      (((List.range' index count).map (s.words q) : List Int64) + rest))
    (hne : free ≠ 0) (hq : q ∈ rest) :
    ∃ arr s₁ s₂, removeEntries count index (s.disk q) s = some ((true, arr), s₁) ∧
      writeDataBlock q arr s₁ = some (true, s₂) ∧
      Owned s₂ (((List.range' index count).map (s.words q) : List Int64) + free) rest ∧
      (∀ a ∈ rest, a ≠ q → s₂.disk a = s.disk a) ∧
      s₂.disk q = (s.disk q).clearWords count index ∧ DataOnly s s₂ := by
  obtain ⟨s₁, hrun, howned₁, hframe⟩ := howned.releaseAll hne
  have hentries := @removeEntries_run _ _ _ (s.disk q) _ _ hfit hrun
  have hwrite := @writeDataBlock_run _ s₁ q ((s.disk q).clearWords count index)
    (howned₁.data q hq)
  have honly : DataOnly s s₁ := ⟨_, howned₁.freeList.data, hframe⟩
  refine ⟨_, s₁, _, hentries, hwrite, howned₁.write _ hq, fun a ha hother => ?_,
    disk_writeDisk_self, honly.trans (.writeDisk (howned₁.data q hq) _)⟩
  rw [disk_writeDisk_ne hother]
  exact hframe.disk a (howned₁.data a ha).ne_zero (howned₁.not_free ha)

end Entries

/-- The blocks of `held` are in use and have the contents they have in `s₀`. -/
structure Keeps (s₀ : FileSystem) (held : Multiset Int64) (s : FileSystem) (free : Multiset Int64) :
    Prop where
  owned : Owned s free held
  ne_zero : free ≠ 0
  disk : ∀ a ∈ held, s.disk a = s₀.disk a
  only : DataOnly s₀ s

namespace Keeps

variable {s₀ s : FileSystem} {held held' free : Multiset Int64} {q : Int64}

theorem mono (h : Keeps s₀ held s free) (hle : held' ≤ held) : Keeps s₀ held' s free where
  owned := h.owned.mono hle
  ne_zero := h.ne_zero
  disk a ha := h.disk a (Multiset.mem_of_le hle ha)
  only := h.only

theorem start (howned : Owned s free held) (hne : free ≠ 0) : Keeps s held s free :=
  ⟨howned, hne, fun _ _ => rfl, .refl s⟩

theorem read (h : Keeps s₀ (q ::ₘ held) s free) :
    readDataBlockArray q s = some (s₀.disk q, s) := by
  rw [readDataBlockArray_run (h.owned.data q (Multiset.mem_cons_self _ _)),
    h.disk q (Multiset.mem_cons_self _ _)]

/-- A held block goes back to the free list. -/
theorem release (howned : Owned s free (q ::ₘ held)) (hne : free ≠ 0)
    (hdisk : ∀ a ∈ held, s.disk a = s₀.disk a) (honly : DataOnly s₀ s) :
    ∃ s', freeDataBlock q s = some (true, s') ∧ Keeps s₀ held s' (q ::ₘ free) := by
  obtain ⟨s', hrun, howned', hframe⟩ := howned.release hne
  refine ⟨s', hrun, howned', Multiset.cons_ne_zero, fun a ha => ?_,
    honly.trans ⟨_, howned'.freeList.data, hframe⟩⟩
  rw [hframe.disk a (howned'.data a ha).ne_zero (howned'.not_free ha)]
  exact hdisk a ha

end Keeps

/-- As far as the file reaches, the words of an address block with `left` leaves are set. -/
def LeavesSet (s : FileSystem) (q : Int64) (left : Int) : Prop :=
  q ≠ 0 → ∀ j < numOfAddressesPerBlock, (j : Int) < left → s.words q j ≠ 0

section Children

variable {s₀ s : FileSystem} {rest free : Multiset Int64} {q : Int64} {start : Nat} {left : Int}

omit [Config] in
private theorem start_add_entryCount_le (hstart : start ≤ numOfAddressesPerBlock) :
    start + entryCount start left ≤ numOfAddressesPerBlock := by
  rw [entryCount]
  omega

omit [Config] in
private theorem lt_of_lt_entryCount {j : Nat} (hj : j < entryCount start left) :
    ((start + j : Nat) : Int) < left := by
  rw [entryCount] at hj
  omega

omit [Config] in
/-- The address block and the leaves that are freed, apart from the other leaves. -/
private theorem exists_rest (hq : q ≠ 0) (hleaves : LeavesSet s₀ q left)
    (hstart : start ≤ numOfAddressesPerBlock) :
    ∃ others, treeCells s₀ 1 q =
      (((List.range' start (entryCount start left)).map (s₀.words q) : List Int64) +
        q ::ₘ others) := by
  have hfit := @start_add_entryCount_le start left hstart
  obtain ⟨others, hsum⟩ := exists_sum_cell_eq (f := s₀.words q) hfit fun j hj =>
    hleaves hq _ (by omega) (lt_of_lt_entryCount hj)
  refine ⟨others, ?_⟩
  rw [treeCells, PointerTree.cells_succ hq, Multiset.add_cons, ← hsum]
  rfl

/-- A child of a tree is emptied from entry `start` on, as far as the file reaches. -/
theorem Keeps.clearChild (h : Keeps s₀ (treeCells s₀ 1 q + rest) s free) (hq : q ≠ 0)
    (hleaves : LeavesSet s₀ q left) (hstart : start ≤ numOfAddressesPerBlock) :
    ∃ arr s₁ s₂ free₂, readDataBlockArray q s = some (s₀.disk q, s) ∧
      removeEntries (entryCount start left) start (s₀.disk q) s = some ((true, arr), s₁) ∧
      writeDataBlock q arr s₁ = some (true, s₂) ∧ Keeps s₀ rest s₂ free₂ ∧
      ∃ s₃, freeDataBlock q s₂ = some (true, s₃) ∧ Keeps s₀ rest s₃ (q ::ₘ free₂) := by
  obtain ⟨others, hsplit⟩ := exists_rest hq hleaves hstart
  rw [hsplit, add_assoc, Multiset.cons_add] at h
  have hmem : q ∈ ((List.range' start (entryCount start left)).map (s₀.words q) : List Int64) +
      q ::ₘ (others + rest) := by simp
  have hqdisk := h.disk q hmem
  have howned := h.owned
  have hwords : s.words q = s₀.words q := by
    funext j
    rw [FileSystem.words, hqdisk, FileSystem.words]
  rw [← hwords] at howned
  obtain ⟨arr, s₁, s₂, hentries, hwrite, howned₂, hdisk, -, honly⟩ :=
    clearEntries_run (start_add_entryCount_le hstart) howned h.ne_zero (Multiset.mem_cons_self _ _)
  have hread := readDataBlockArray_run (s := s) (h.owned.data q hmem)
  rw [hqdisk] at hentries hread
  have hne₂ : ((List.range' start (entryCount start left)).map (s.words q) : List Int64) + free ≠
      0 := by
    intro hzero
    exact h.ne_zero (add_eq_zero.mp hzero).2
  have hqrest : q ∉ others + rest := (Multiset.nodup_cons.mp howned₂.held_nodup).1
  have hrest : ∀ a ∈ rest, s₂.disk a = s₀.disk a := by
    intro a ha
    have ha' : a ∈ others + rest := Multiset.mem_add.mpr (.inr ha)
    rw [hdisk a (Multiset.mem_cons_of_mem ha') (ne_of_mem_of_not_mem ha' hqrest)]
    exact h.disk a (Multiset.mem_add.mpr (.inr (Multiset.mem_cons_of_mem ha')))
  have hle : q ::ₘ rest ≤ q ::ₘ (others + rest) :=
    Multiset.cons_le_cons q (Multiset.le_add_left _ _)
  have howned₃ := howned₂.mono hle
  exact ⟨arr, s₁, s₂, _, hread, hentries, hwrite,
    ⟨howned₃.mono (Multiset.le_cons_self _ _), hne₂, hrest, h.only.trans honly⟩,
    Keeps.release howned₃ hne₂ hrest (h.only.trans honly)⟩

end Children

/-- The blocks of `count` subtrees of an address block. -/
abbrev treeChildren (s : FileSystem) (d : Nat) (p : Int64) (i count : Nat) : Multiset Int64 :=
  PointerTree.childCells numOfAddressesPerBlock s.words d p i count

section Loops

variable {s₀ s : FileSystem} {rest free : Multiset Int64} {p : Int64}
  {doubleIIdx innerIdx tripleIIdx count i : Nat} {ending : Int}

private theorem pos_of_held {d : Nat} {q : Int64} (h : Keeps s₀ (treeCells s₀ d q + rest) s free)
    (hq : q ≠ 0) : ¬q.toInt ≤ 0 := by
  have hmem : q ∈ treeCells s₀ d q := PointerTree.mem_cells_root hq
  have := (h.owned.data _ (Multiset.mem_add.mpr (.inl hmem))).pos
  omega

omit [Config] in
private theorem leavesSet_succ
    (h : ∀ k < count + 1,
      LeavesSet s₀ (s₀.words p (i + k)) (ending - numOfAddressesPerBlock * k)) :
    LeavesSet s₀ (s₀.words p i) ending ∧ ∀ k < count, LeavesSet s₀ (s₀.words p (i + 1 + k))
      (ending - numOfAddressesPerBlock - numOfAddressesPerBlock * k) := by
  constructor
  · have hfirst := h 0 (by omega)
    rwa [Nat.add_zero, Nat.cast_zero, mul_zero, sub_zero] at hfirst
  · intro k hk
    have hchild := h (k + 1) (by omega)
    rw [← Nat.add_assoc, Nat.add_right_comm] at hchild
    have hleft : ending - numOfAddressesPerBlock * ((k + 1 : Nat) : Int) =
        ending - numOfAddressesPerBlock - numOfAddressesPerBlock * k := by
      rw [Nat.cast_add, Nat.cast_one]
      ring
    rwa [hleft] at hchild

/-- Behind its first address block the loop gives up the blocks of the children it visits. -/
theorem removeDoubleLoop_keeps (hi : doubleIIdx < i)
    (h : Keeps s₀ (treeChildren s₀ 1 p i count + rest) s free)
    (hleaves : ∀ k < count,
      LeavesSet s₀ (s₀.words p (i + k)) (ending - numOfAddressesPerBlock * k)) :
    ∃ result s' free', removeDoubleLoop (s₀.disk p) doubleIIdx innerIdx count i ending s =
      some (result, s') ∧ Keeps s₀ rest s' free' := by
  induction count generalizing i ending s free with
  | zero => exact ⟨_, s, free, rfl, h.mono (Multiset.le_add_left _ _)⟩
  | succ count ih =>
      rw [treeChildren, PointerTree.childCells_succ, add_assoc] at h
      obtain ⟨hfirst, hnext⟩ := leavesSet_succ hleaves
      have hstart : ¬i = doubleIIdx := by omega
      have hword : (s₀.disk p).word i = s₀.words p i := rfl
      by_cases hq : s₀.words p i = 0
      · refine ⟨(false, ending), s, free, ?_, ?_⟩
        · rw [removeDoubleLoop, hword, hq]
          rfl
        · exact h.mono ((Multiset.le_add_left _ _).trans (Multiset.le_add_left _ _))
      have hpos := pos_of_held h hq
      obtain ⟨arr, s₁, s₂, free₂, hread, hentries, hwrite, hkeeps, s₃, hfree, hkeeps'⟩ :=
        h.clearChild hq hfirst (Nat.zero_le _)
      by_cases hend : ((0 + entryCount 0 ending : Nat) : Int) = ending
      · refine ⟨(true, ending), s₂, free₂, ?_, hkeeps.mono (Multiset.le_add_left _ _)⟩
        simp only [removeDoubleLoop, hword, hstart, hpos, if_false, Prog.bind_of_eq hread,
          Prog.bind_of_eq hentries, Bool.not_true, Bool.false_eq_true, Prog.bind_of_eq hwrite,
          hend, if_true, Prog.pure_apply]
      · obtain ⟨result, s', free', hrun, hkeeps''⟩ := ih (by omega) hkeeps' hnext
        refine ⟨result, s', free', ?_, hkeeps''⟩
        simp only [removeDoubleLoop, hword, hstart, hpos, if_false, Prog.bind_of_eq hread,
          Prog.bind_of_eq hentries, Bool.not_true, Bool.false_eq_true, Prog.bind_of_eq hwrite,
          hend, false_and, Prog.bind_of_eq hfree, hrun]

/-- So does the inner loop of the triple-indirect level. -/
theorem removeTripleInner_keeps {q : Int64} (hinner : innerIdx ≤ numOfAddressesPerBlock)
    (h : Keeps s₀ (treeChildren s₀ 1 q i count + rest) s free)
    (hleaves : ∀ k < count,
      LeavesSet s₀ (s₀.words q (i + k)) (ending - numOfAddressesPerBlock * k)) :
    ∃ done reached left s' free',
      removeTripleInner (s₀.disk q) doubleIIdx innerIdx count i ending s =
        some ((done, reached, left), s') ∧ Keeps s₀ rest s' free' ∧
      (done = true → reached = false → left = ending - numOfAddressesPerBlock * count) := by
  induction count generalizing i ending s free with
  | zero =>
      refine ⟨true, false, ending, s, free, rfl, h.mono (Multiset.le_add_left _ _), fun _ _ => ?_⟩
      rw [Nat.cast_zero, mul_zero, sub_zero]
  | succ count ih =>
      rw [treeChildren, PointerTree.childCells_succ, add_assoc] at h
      obtain ⟨hfirst, hnext⟩ := leavesSet_succ hleaves
      have hword : (s₀.disk q).word i = s₀.words q i := rfl
      by_cases hq : s₀.words q i = 0
      · refine ⟨false, false, ending, s, free, ?_, ?_, fun hdone => by cases hdone⟩
        · rw [removeTripleInner, hword, hq]
          rfl
        · exact h.mono ((Multiset.le_add_left _ _).trans (Multiset.le_add_left _ _))
      have hpos := pos_of_held h hq
      have hstart : (if i = doubleIIdx then innerIdx else 0) ≤ numOfAddressesPerBlock := by
        split <;> omega
      generalize hfrom : (if i = doubleIIdx then innerIdx else 0) = start at hstart
      obtain ⟨arr, s₁, s₂, free₂, hread, hentries, hwrite, hkeeps, s₃, hfree, hkeeps'⟩ :=
        h.clearChild hq hfirst hstart
      have hleft : ending - numOfAddressesPerBlock - numOfAddressesPerBlock * (count : Int) =
          ending - numOfAddressesPerBlock * ((count + 1 : Nat) : Int) := by
        rw [Nat.cast_add, Nat.cast_one]
        ring
      by_cases hend : ((start + entryCount start ending : Nat) : Int) = ending
      · refine ⟨true, true, ending, s₂, free₂, ?_, hkeeps.mono (Multiset.le_add_left _ _),
          fun _ hreached => by cases hreached⟩
        simp only [removeTripleInner, hword, hpos, hfrom, if_false, Prog.bind_of_eq hread,
          Prog.bind_of_eq hentries, Bool.not_true, Bool.false_eq_true, Prog.bind_of_eq hwrite,
          hend, if_true, Prog.pure_apply]
      by_cases hkept : start = innerIdx
      · subst hkept
        obtain ⟨done, reached, left, s', free', hrun, hkeeps'', hlast⟩ := ih hkeeps hnext
        refine ⟨done, reached, left, s', free', ?_, hkeeps'', hleft ▸ hlast⟩
        simp only [removeTripleInner, hword, hpos, hfrom, if_false, Prog.bind_of_eq hread,
          Prog.bind_of_eq hentries, Bool.not_true, Bool.false_eq_true, Prog.bind_of_eq hwrite,
          hend, if_true, hrun]
      · obtain ⟨done, reached, left, s', free', hrun, hkeeps'', hlast⟩ := ih hkeeps' hnext
        refine ⟨done, reached, left, s', free', ?_, hkeeps'', hleft ▸ hlast⟩
        simp only [removeTripleInner, hword, hpos, hfrom, if_false, Prog.bind_of_eq hread,
          Prog.bind_of_eq hentries, Bool.not_true, Bool.false_eq_true, Prog.bind_of_eq hwrite,
          hend, hkept, Prog.bind_of_eq hfree, hrun]

/-- Behind its first double-indirect block the outer loop gives up the subtrees it visits. -/
theorem removeTripleLoop_keeps (hi : tripleIIdx < i) (hinner : innerIdx ≤ numOfAddressesPerBlock)
    (h : Keeps s₀ (treeChildren s₀ 2 p i count + rest) s free)
    (hleaves : ∀ k < count, s₀.words p (i + k) ≠ 0 → ∀ j < numOfAddressesPerBlock,
      LeavesSet s₀ (s₀.words (s₀.words p (i + k)) j)
        (ending - numOfDoubleIndirectBlockAddr * k - numOfAddressesPerBlock * j)) :
    ∃ done s' free', removeTripleLoop (s₀.disk p) tripleIIdx doubleIIdx innerIdx count i ending s =
      some (done, s') ∧ Keeps s₀ rest s' free' := by
  induction count generalizing i ending s free with
  | zero => exact ⟨_, s, free, rfl, h.mono (Multiset.le_add_left _ _)⟩
  | succ count ih =>
      rw [treeChildren, PointerTree.childCells_succ, add_assoc] at h
      have hstart : ¬i = tripleIIdx := by omega
      have hword : (s₀.disk p).word i = s₀.words p i := rfl
      by_cases hq : s₀.words p i = 0
      · refine ⟨false, s, free, ?_, ?_⟩
        · rw [removeTripleLoop, hword, hq]
          rfl
        · exact h.mono ((Multiset.le_add_left _ _).trans (Multiset.le_add_left _ _))
      have hpos := pos_of_held h hq
      rw [PointerTree.cells_eq_childCells hq, Multiset.cons_add] at h
      have hread := h.read
      rw [← Multiset.add_cons] at h
      have hfirst : ∀ j < numOfAddressesPerBlock, LeavesSet s₀ (s₀.words (s₀.words p i) (0 + j))
          (ending - numOfAddressesPerBlock * j) := by
        intro j hj
        have hchild := hleaves 0 (by omega) hq j hj
        rw [Nat.add_zero, Nat.cast_zero, mul_zero, sub_zero] at hchild
        rwa [Nat.zero_add]
      obtain ⟨done, reached, left, s₁, free₁, hloop, hkeeps, hleft⟩ :=
        @removeTripleInner_keeps _ s₀ s _ free doubleIIdx innerIdx _ 0 ending _ hinner h hfirst
      have hdrop := hkeeps.mono (Multiset.le_cons_self _ _)
      cases done with
      | false =>
          refine ⟨false, s₁, free₁, ?_, hdrop.mono (Multiset.le_add_left _ _)⟩
          simp only [removeTripleLoop, hword, hpos, hstart, if_false, Prog.bind_of_eq hread,
            Nat.sub_zero, Prog.bind_of_eq hloop, Bool.not_false, if_true, Prog.pure_apply]
      | true =>
          cases reached with
          | true =>
              refine ⟨true, s₁, free₁, ?_, hdrop.mono (Multiset.le_add_left _ _)⟩
              simp only [removeTripleLoop, hword, hpos, hstart, if_false, Prog.bind_of_eq hread,
                Nat.sub_zero, Prog.bind_of_eq hloop, Bool.not_true, Bool.false_eq_true, if_true,
                Prog.pure_apply]
          | false =>
              have hnext : ∀ k < count, s₀.words p (i + 1 + k) ≠ 0 →
                  ∀ j < numOfAddressesPerBlock,
                  LeavesSet s₀ (s₀.words (s₀.words p (i + 1 + k)) j)
                    (left - numOfDoubleIndirectBlockAddr * k - numOfAddressesPerBlock * j) := by
                intro k hk hne j hj
                have hchild := hleaves (k + 1) (by omega)
                rw [← Nat.add_assoc, Nat.add_right_comm] at hchild
                have hchild := hchild hne j hj
                have hshift : ending - numOfDoubleIndirectBlockAddr * ((k + 1 : Nat) : Int) =
                    left - numOfDoubleIndirectBlockAddr * k := by
                  rw [hleft rfl rfl, Nat.cast_add, Nat.cast_one]
                  simp only [numOfDoubleIndirectBlockAddr, numOfAddressesPerBlock]
                  omega
                rwa [hshift] at hchild
              by_cases hkept : 0 = doubleIIdx
              · subst hkept
                obtain ⟨done, s', free', hrun, hkeeps'⟩ := ih (by omega) hdrop hnext
                refine ⟨done, s', free', ?_, hkeeps'⟩
                simp only [removeTripleLoop, hword, hpos, hstart, if_false, Prog.bind_of_eq hread,
                  Nat.sub_zero, Prog.bind_of_eq hloop, Bool.not_true, Bool.false_eq_true, if_true,
                  hrun]
              · obtain ⟨s₂, hfree, hkeeps₂⟩ :=
                  Keeps.release hkeeps.owned hkeeps.ne_zero hdrop.disk hdrop.only
                obtain ⟨done, s', free', hrun, hkeeps'⟩ := ih (by omega) hkeeps₂ hnext
                refine ⟨done, s', free', ?_, hkeeps'⟩
                simp only [removeTripleLoop, hword, hpos, hstart, if_false, Prog.bind_of_eq hread,
                  Nat.sub_zero, Prog.bind_of_eq hloop, Bool.not_true, Bool.false_eq_true, hkept,
                  Prog.bind_of_eq hfree, hrun]

end Loops

/-! ## The address block of the cut -/

section Cut

variable {s : FileSystem} {free rest : Multiset Int64} {p : Int64} {d m count : Nat}

/-- The state in which `count` leaves from `m` on are cleared in their address block. -/
def clearedState (s : FileSystem) (d : Nat) (p : Int64) (m count : Nat) : FileSystem :=
  s.writeDisk (treeNode s d 1 p m) ((s.disk (treeNode s d 1 p m)).clearWords count
    (m % numOfAddressesPerBlock))

omit [Config] in
theorem clearedState_cleared (hlow : 1 ≤ d) (hm : m < numOfAddressesPerBlock ^ d)
    (hfit : m % numOfAddressesPerBlock + count ≤ numOfAddressesPerBlock)
    (hq : treeNode s d 1 p m ≠ 0) :
    PointerTree.Cleared numOfAddressesPerBlock s.words (clearedState s d p m count).words d p m
      count where
  height := hlow
  leaf := hm
  fits := hfit
  parent := hq
  set j _ := by
    rw [FileSystem.words, clearedState, disk_writeDisk_self, Block.word_clearWords hfit]
    rfl
  same b _ hne j _ := by
    rw [FileSystem.words, clearedState, disk_writeDisk_ne hne]
    rfl

omit [Config] in
/-- The entries of the address block are the leaves from `m` on. -/
private theorem entries_eq_leaves (hlow : 1 ≤ d) (hm : m < numOfAddressesPerBlock ^ d)
    (hfit : m % numOfAddressesPerBlock + count ≤ numOfAddressesPerBlock)
    (hq : treeNode s d 1 p m ≠ 0) {j : Nat} (hj : j < count) :
    s.words (treeNode s d 1 p m) (m % numOfAddressesPerBlock + j) = treeNode s d 0 p (m + j) := by
  have hgroup : (m + j) / numOfAddressesPerBlock ^ 1 = m / numOfAddressesPerBlock ^ 1 := by
    simp only [numOfAddressesPerBlock, pow_one] at *
    omega
  have hslot : (m + j) % numOfAddressesPerBlock = m % numOfAddressesPerBlock + j := by
    simp only [numOfAddressesPerBlock] at *
    omega
  have hlt := PointerTree.add_lt_pow hlow hm (show m % numOfAddressesPerBlock + j < _ by omega)
  have hnode : treeNode s d 1 p (m + j) = treeNode s d 1 p m :=
    PointerTree.nodeAt_eq_of_div_eq hlow hgroup
  have hstep := treeNode_step (s := s) (k := 0) (by omega) hlt (by rwa [Nat.zero_add, hnode])
  rw [Nat.zero_add, hnode, pow_zero, Nat.div_one, hslot] at hstep
  exact hstep

/-- The leaves from the cut on that share its address block are freed and cleared. -/
theorem clearCut_run (howned : Owned s free (treeCells s d p + rest)) (hne : free ≠ 0)
    (hlow : 1 ≤ d) (hm : m < numOfAddressesPerBlock ^ d)
    (hfit : m % numOfAddressesPerBlock + count ≤ numOfAddressesPerBlock)
    (hq : treeNode s d 1 p m ≠ 0) (hleaves : ∀ j < count, treeNode s d 0 p (m + j) ≠ 0) :
    ∃ arr s₁ s₂, removeEntries count (m % numOfAddressesPerBlock) (s.disk (treeNode s d 1 p m)) s =
        some ((true, arr), s₁) ∧
      writeDataBlock (treeNode s d 1 p m) arr s₁ = some (true, s₂) ∧
      Keeps (clearedState s d p m count)
        (treeCells (clearedState s d p m count) d p + rest) s₂
        (((List.range' m count).map (treeNode s d 0 p) : List Int64) + free) ∧
      treeCells (clearedState s d p m count) d p +
        ((List.range' m count).map (treeNode s d 0 p) : List Int64) = treeCells s d p := by
  have hcleared := clearedState_cleared hlow hm hfit hq
  have hnodup : (treeInner s d p).Nodup :=
    Multiset.nodup_of_le (PointerTree.inner_le_cells _ _)
      (Multiset.nodup_add.mp howned.held_nodup).1
  obtain ⟨-, hcells, hnode⟩ := hcleared.spec hnodup
  have hentries : (List.range' (m % numOfAddressesPerBlock) count).map
      (s.words (treeNode s d 1 p m)) = (List.range' m count).map (treeNode s d 0 p) := by
    rw [List.range'_eq_map_range, List.range'_eq_map_range, List.map_map, List.map_map]
    apply List.map_congr_left
    intro j hj
    exact entries_eq_leaves hlow hm hfit hq (List.mem_range.mp hj)
  have hsum : ∑ t ∈ Finset.range count, cell (treeNode s d 0 p (m + t)) =
      ((List.range' m count).map (treeNode s d 0 p) : List Int64) := by
    rw [sum_cell_eq_map (f := fun t => treeNode s d 0 p (m + t)) le_rfl fun j hj =>
      ⟨fun _ => hj, fun _ => hleaves j hj⟩, List.range'_eq_map_range, List.map_map]
    rfl
  rw [hsum] at hcells
  have hmem : treeNode s d 1 p m ∈ treeCells (clearedState s d p m count) d p := by
    have hself : treeNode (clearedState s d p m count) d 1 p m = treeNode s d 1 p m :=
      (hnode 1 m hm).trans (if_neg (by omega))
    rw [← hself] at hq
    have hmem : treeNode (clearedState s d p m count) d 1 p m ∈
        treeCells (clearedState s d p m count) d p := PointerTree.nodeAt_mem_cells hm hq
    rwa [hself] at hmem
  have hsplit := howned
  rw [treeCells, ← hcells, add_comm (PointerTree.cells _ _ _ _), add_assoc, ← hentries] at hsplit
  obtain ⟨arr, s₁, s₂, hrun, hwrite, howned₂, hdisk, hself, honly⟩ :=
    clearEntries_run hfit hsplit hne (Multiset.mem_add.mpr (.inl hmem))
  rw [hentries] at howned₂
  have hdata := howned₂.data _ (Multiset.mem_add.mpr (.inl hmem))
  refine ⟨arr, s₁, s₂, hrun, hwrite, ⟨howned₂, ?_, fun a ha => ?_,
    (DataOnly.writeDisk hdata _).symm.trans honly⟩, hcells⟩
  · intro hzero
    exact hne (add_eq_zero.mp hzero).2
  · by_cases hq' : a = treeNode s d 1 p m
    · rw [hq', hself, clearedState, disk_writeDisk_self]
    · rw [hdisk a ha hq', clearedState, disk_writeDisk_ne hq']

end Cut

end AltFs
