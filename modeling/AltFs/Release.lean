import AltFs.BlockLookup

/-!
# Releasing blocks

A list of blocks freed one after the other, and the lists that the recursions
over the trees of an inode free.
-/

namespace AltFs

variable [Config]

/-- Free the blocks of a list in turn, up to the first failure. -/
def freeAll : List Int64 → Fs Bool
  | [] => pure true
  | b :: bs => do
      if !(← freeDataBlock b) then pure false else
      freeAll bs

/-- Allocate `count` times and read each block right after it is returned. -/
def allocateAll : Nat → Fs (List (Int64 × Option Block))
  | 0 => pure []
  | count + 1 => do
      let b ← allocateDataBlock
      let contents ← readDataBlock b
      let rest ← allocateAll count
      pure ((b, contents) :: rest)

section Lists

variable {s : FileSystem} {free rest : Multiset Int64} {bs : List Int64}

theorem freeAll_append (as bs : List Int64) :
    freeAll (as ++ bs) =
      (do if !(← freeAll as) then pure false else freeAll bs : Fs Bool) := by
  induction as with
  | nil => rfl
  | cons a as ih =>
      funext s
      simp only [List.cons_append, freeAll, ih, Prog.bind_apply]
      cases hfree : freeDataBlock a s with
      | none => rfl
      | some r =>
          obtain ⟨freed, t⟩ := r
          cases freed with
          | false => rfl
          | true => simp [Prog.bind_apply]

/-- Held blocks freed onto a non-empty list all join it. -/
theorem Owned.releaseAll (h : Owned s free ((bs : Multiset Int64) + rest)) (hne : free ≠ 0) :
    ∃ s', freeAll bs s = some (true, s') ∧ Owned s' ((bs : Multiset Int64) + free) rest ∧
      DataFrame ((bs : Multiset Int64) + free) s s' := by
  induction bs generalizing s free with
  | nil =>
      refine ⟨s, rfl, ?_, DataFrame.refl _ _⟩
      simpa using h
  | cons b bs ih =>
      rw [← Multiset.cons_coe, Multiset.cons_add] at h
      obtain ⟨t, hfree, howned, hframe⟩ := h.release hne
      obtain ⟨s', hrun, howned', hframe'⟩ := ih howned (Multiset.cons_ne_zero)
      have heq : (bs : Multiset Int64) + b ::ₘ free =
          ((b :: bs : List Int64) : Multiset Int64) + free := by
        rw [Multiset.add_cons, ← Multiset.cons_coe, Multiset.cons_add]
      rw [heq] at howned' hframe'
      refine ⟨s', ?_, howned', (hframe.mono fun a ha => ?_).trans hframe'⟩
      · rw [freeAll, Prog.bind_of_eq hfree]
        exact hrun
      · rw [← heq]
        exact Multiset.mem_add.mpr (.inr ha)

/-- The allocator returns every free block once, cleared, and then fails. -/
theorem allocateAll_spec (h : FreeList s free) :
    ∃ blocks : List Int64, (blocks : Multiset Int64) = free ∧ ∀ count ≤ blocks.length,
      ∃ s', allocateAll count s =
          some ((blocks.take count).map fun b => (b, some Block.zero), s') ∧
        DataFrame free s s' ∧ (count = blocks.length → allocateDataBlock s' = some (-1, s')) := by
  induction hcard : free.card generalizing s free with
  | zero =>
      obtain rfl := Multiset.card_eq_zero.mp hcard
      have hempty := allocateDataBlock_empty (h.head_eq_zero_iff.mpr rfl)
      refine ⟨[], rfl, fun count hcount => ⟨s, ?_, DataFrame.refl _ _, fun _ => hempty⟩⟩
      obtain rfl : count = 0 := by simpa using hcount
      rfl
  | succ n ih =>
      have hhead : s.superblock.sFreelistHead ≠ 0 := by
        rw [Ne, h.head_eq_zero_iff]
        rintro rfl
        simp at hcard
      obtain ⟨b, free', t, halloc, rfl, hlist, hzero, hframe⟩ := allocateDataBlock_spec h hhead
      have hb := h.data b (Multiset.mem_cons_self _ _)
      obtain ⟨blocks, hblocks, hall⟩ := ih hlist (by simpa using hcard)
      refine ⟨b :: blocks, by rw [← hblocks, Multiset.cons_coe], fun count hcount => ?_⟩
      cases count with
      | zero => exact ⟨s, rfl, DataFrame.refl _ _, fun hlast => absurd hlast (by simp)⟩
      | succ count =>
          obtain ⟨s', hrun, hframe', hlast⟩ := hall count (by simpa using hcount)
          refine ⟨s', ?_, hframe.trans (hframe'.mono fun a ha => Multiset.mem_cons_of_mem ha),
            fun hcount => hlast (by simpa using hcount)⟩
          have hread := readDataBlock_run (s := t) hb
          rw [hzero] at hread
          rw [allocateAll, Prog.bind_of_eq halloc, Prog.bind_of_eq hread, Prog.bind_of_eq hrun]
          rfl

end Lists

/-!
## Recursive releases

While blocks are freed, the head of the free list and the freed blocks change.
A release that reads only the blocks of `avoid` frees the same list in every
state in which those are as in `s₀`.
-/

structure Untouched (s₀ : FileSystem) (avoid : Multiset Int64) (s : FileSystem) : Prop where
  head : s.superblock.sFreelistHead = 0 ∨ DataBlock s.superblock.sFreelistHead
  head_notMem : s.superblock.sFreelistHead ∉ avoid
  disk : ∀ a ∈ avoid, a ≠ 0 ∧ s.disk a = s₀.disk a

def Frees (s₀ : FileSystem) (avoid : Multiset Int64) (bs : List Int64) (x : Fs Bool) : Prop :=
  ∀ s, Untouched s₀ avoid s → x s = freeAll bs s

namespace Untouched

variable {s₀ s : FileSystem} {avoid avoid' : Multiset Int64} {bs : List Int64} {b : Int64}

theorem mono (h : Untouched s₀ avoid s) (hle : avoid' ≤ avoid) : Untouched s₀ avoid' s where
  head := h.head
  head_notMem hmem := h.head_notMem (Multiset.mem_of_le hle hmem)
  disk a ha := h.disk a (Multiset.mem_of_le hle ha)

theorem free (h : Untouched s₀ avoid s) (hb : DataBlock b) (hnot : b ∉ avoid) :
    ∃ s', freeDataBlock b s = some (true, s') ∧ Untouched s₀ avoid s' := by
  obtain ⟨s', hrun, hhead, hmem, hdisk⟩ := freeDataBlock_total h.head hb
  refine ⟨s', hrun, .inr hhead, ?_, fun a ha => ⟨(h.disk a ha).1, ?_⟩⟩
  · rcases hmem with hmem | hmem
    · rw [hmem]
      exact h.head_notMem
    · rwa [hmem]
  · rw [hdisk a (h.disk a ha).1 (ne_of_mem_of_not_mem ha h.head_notMem)
      (ne_of_mem_of_not_mem ha hnot)]
    exact (h.disk a ha).2

theorem freeAll (h : Untouched s₀ avoid s) (hbs : ∀ b ∈ bs, DataBlock b ∧ b ∉ avoid) :
    ∃ s', freeAll bs s = some (true, s') ∧ Untouched s₀ avoid s' := by
  induction bs generalizing s with
  | nil => exact ⟨s, rfl, h⟩
  | cons b bs ih =>
      obtain ⟨hb, hnot⟩ := hbs b (by simp)
      obtain ⟨t, hfree, ht⟩ := h.free hb hnot
      obtain ⟨s', hrun, hs'⟩ := ih ht fun a ha => hbs a (by simp [ha])
      refine ⟨s', ?_, hs'⟩
      rw [AltFs.freeAll, Prog.bind_of_eq hfree]
      exact hrun

theorem freed {freed : Bool} {s' : FileSystem} (h : Untouched s₀ avoid s)
    (hbs : ∀ b ∈ bs, DataBlock b ∧ b ∉ avoid) (hrun : AltFs.freeAll bs s = some (freed, s')) :
    freed = true ∧ Untouched s₀ avoid s' := by
  obtain ⟨t, hrun', ht⟩ := h.freeAll hbs
  rw [hrun'] at hrun
  cases hrun
  exact ⟨rfl, ht⟩

end Untouched

namespace Frees

variable {s₀ : FileSystem} {avoid avoid' : Multiset Int64} {as bs : List Int64} {x y : Fs Bool}
  {b : Int64}

theorem nil : Frees s₀ avoid [] (pure true) := fun _ _ => rfl

theorem free (b : Int64) : Frees s₀ 0 [b] (freeDataBlock b) := by
  intro s _
  simp only [freeAll, Prog.bind_apply]
  cases hfree : freeDataBlock b s with
  | none => rfl
  | some r =>
      obtain ⟨freed, t⟩ := r
      cases freed <;> rfl

/-- One release after another that leaves alone what the second reads. -/
theorem seq (hx : Frees s₀ avoid as x) (hy : Frees s₀ avoid' bs y)
    (has : ∀ a ∈ as, DataBlock a ∧ a ∉ avoid') :
    Frees s₀ (avoid + avoid') (as ++ bs) (do if !(← x) then pure false else y) := by
  intro s hs
  have hfirst := hx s (hs.mono (Multiset.le_add_right _ _))
  obtain ⟨t, hrun, ht⟩ := (hs.mono (Multiset.le_add_left _ _)).freeAll has
  rw [hrun] at hfirst
  rw [freeAll_append, Prog.bind_of_eq hrun, Prog.bind_of_eq hfirst]
  exact hy t ht

/-- Reading a block before anything is freed. -/
theorem read {p : Int64} {k : Option Block → Fs Bool} (hp : DataBlock p)
    (hk : Frees s₀ avoid bs (k (some (s₀.disk p)))) :
    Frees s₀ (p ::ₘ avoid) bs (altfsReadBlock p >>= k) := by
  intro s hs
  have hread := altfsReadBlock_run (s := s) hp.inRange
  rw [(hs.disk p (Multiset.mem_cons_self _ _)).2] at hread
  rw [Prog.bind_of_eq hread]
  exact hk s (hs.mono (Multiset.le_cons_self _ _))

end Frees

/-- The blocks of a tree in the order in which they are freed. -/
abbrev treeOrder (s : FileSystem) (d : Nat) (p : Int64) : List Int64 :=
  PointerTree.postorder numOfAddressesPerBlock s.words d p

/-- A loop over the words of an address block. -/
private theorem forAddresses_frees {s₀ : FileSystem} {d : Nat} {p : Int64}
    {visit : Int64 → Fs Bool} {count index : Nat}
    (hvisit : ∀ i, index ≤ i → i < index + count → s₀.words p i ≠ 0 →
      Frees s₀ (treeInner s₀ d (s₀.words p i)) (treeOrder s₀ d (s₀.words p i))
        (visit (s₀.words p i)))
    (hdata : ∀ i, index ≤ i → i < index + count → s₀.words p i ≠ 0 →
      ∀ a ∈ treeOrder s₀ d (s₀.words p i), DataBlock a)
    (hdisjoint : ∀ i j, index ≤ i → i < j → j < index + count → s₀.words p i ≠ 0 →
      ∀ a ∈ treeOrder s₀ d (s₀.words p i), a ∉ treeInner s₀ d (s₀.words p j)) :
    Frees s₀ (∑ i ∈ Finset.range count, treeInner s₀ d (s₀.words p (index + i)))
      ((((List.range' index count).map (s₀.words p)).takeWhile (· ≠ 0)).flatMap
        (treeOrder s₀ d)) (forAddresses (s₀.disk p) visit count index) := by
  induction count generalizing index with
  | zero => exact Frees.nil
  | succ count ih =>
      rw [Finset.sum_range_succ', Nat.add_zero, add_comm, List.range'_succ, List.map_cons,
        forAddresses]
      change Frees _ _ _ (if s₀.words p index = 0 then _ else _)
      by_cases hzero : s₀.words p index = 0
      · rw [List.takeWhile_cons_of_neg (by simp [hzero]), if_pos hzero]
        exact Frees.nil
      · rw [List.takeWhile_cons_of_pos (by simp [hzero]), List.flatMap_cons, if_neg hzero]
        have hrest := @ih (index + 1) (fun i hi hlt => hvisit i (by omega) (by omega))
          (fun i hi hlt => hdata i (by omega) (by omega))
          (fun i j hi hij hlt => hdisjoint i j (by omega) hij (by omega))
        simp only [Nat.add_assoc, Nat.add_comm 1] at hrest
        refine (hvisit index le_rfl (by omega) hzero).seq hrest fun a ha =>
          ⟨hdata index le_rfl (by omega) hzero a ha, fun hmem => ?_⟩
        obtain ⟨i, hi, hmem⟩ := Multiset.mem_sum.mp hmem
        have hi := Finset.mem_range.mp hi
        exact hdisjoint index _ le_rfl (by omega) (by omega) hzero a ha hmem

/-- `free_indirect_blocks` frees a tree children first. -/
theorem freeIndirectBlocks_frees {s₀ : FileSystem} {d m : Nat} {p : Int64}
    (hfilled : PointerTree.Filled numOfAddressesPerBlock s₀.words d p m) (hm : 0 < m)
    (hnodup : (treeCells s₀ d p).Nodup) (hdata : ∀ b ∈ treeCells s₀ d p, DataBlock b) :
    Frees s₀ (treeInner s₀ d p) (treeOrder s₀ d p) (freeIndirectBlocks d p) := by
  induction d generalizing p m with
  | zero => exact Frees.free p
  | succ d ih =>
      have hp := hfilled.root_ne_zero (by decide) hm
      have hall := PointerTree.coe_postorder hfilled (by decide) hm
      have hword : ∀ i < numOfAddressesPerBlock, s₀.words p i ≠ 0 →
          0 < m - i * numOfAddressesPerBlock ^ d := by
        intro i hi hne
        have := (hfilled.word_ne_zero_iff hp hi).mp hne
        omega
      have hsub : ∀ i < numOfAddressesPerBlock,
          treeCells s₀ d (s₀.words p i) ≤ treeCells s₀ (d + 1) p :=
        fun i hi => PointerTree.child_le hp hi
      have horder : ∀ i < numOfAddressesPerBlock, s₀.words p i ≠ 0 →
          ∀ a ∈ treeOrder s₀ d (s₀.words p i), a ∈ treeCells s₀ d (s₀.words p i) := by
        intro i hi hne a ha
        rw [treeCells, ← PointerTree.coe_postorder (hfilled.child hp hi) (by decide) (hword i hi hne)]
        exact Multiset.mem_coe.mpr ha
      have hloop := @forAddresses_frees _ s₀ d p (freeIndirectBlocks d) numOfAddressesPerBlock 0
        (fun i _ hi hne => ih (hfilled.child hp (by omega)) (hword i (by omega) hne)
          (Multiset.nodup_of_le (hsub i (by omega)) hnodup) fun b hb =>
            hdata b (Multiset.mem_of_le (hsub i (by omega)) hb))
        (fun i _ hi hne a ha =>
          hdata a (Multiset.mem_of_le (hsub i (by omega)) (horder i (by omega) hne a ha)))
        (fun i j _ hij hj hne a ha hmem =>
          PointerTree.notMem_child hnodup hp (show i < _ by omega) (show j < _ by omega)
            (by omega) (horder i (by omega) hne a ha)
            (Multiset.mem_of_le (PointerTree.inner_le_cells _ _) hmem))
      have hlast := hloop.seq (Frees.free p) fun a ha =>
        ⟨hdata a ?_, Multiset.notMem_zero a⟩
      · rw [treeInner, PointerTree.inner_succ hp]
        refine Frees.read (hdata p (PointerTree.mem_cells_root hp)) ?_
        simp only [Nat.zero_add, add_zero] at hlast
        exact hlast
      · rw [treeCells, ← hall]
        exact Multiset.mem_coe.mpr (List.mem_append_left _ ha)

/-! ## The utility of `remove_datablocks_from_inode` -/

omit [Config] in
private theorem forEachAddress_of_forAddresses {buffer : Block} {visit : Int64 → Fs Bool}
    {visit' : Int64 → Fs Unit}
    (hvisit : ∀ q s s', visit q s = some (true, s') → visit' q s = some ((), s'))
    {count index : Nat} {s s' : FileSystem}
    (hrun : forAddresses buffer visit count index s = some (true, s')) :
    forEachAddress buffer visit' count index s = some ((), s') := by
  induction count generalizing index s with
  | zero =>
      cases hrun
      rfl
  | succ count ih =>
      rw [forAddresses] at hrun
      rw [forEachAddress]
      by_cases hzero : buffer.word index = 0
      · rw [if_pos hzero] at hrun ⊢
        cases hrun
        rfl
      · rw [if_neg hzero] at hrun ⊢
        obtain ⟨visited, t, hfirst, hrest⟩ := Prog.bind_eq_some_iff.mp hrun
        cases visited with
        | false => cases hrest
        | true =>
            rw [Prog.bind_of_eq (hvisit _ _ _ hfirst)]
            exact ih hrest

/-- Where `free_indirect_blocks` succeeds, the utility does the same. -/
theorem removeDatablocksUtility_of_freed {d : Nat} {p : Int64} {s s' : FileSystem}
    (hrun : freeIndirectBlocks d p s = some (true, s')) :
    removeDatablocksUtility d p s = some (true, s') := by
  induction d generalizing p s s' with
  | zero => exact hrun
  | succ d ih =>
      obtain ⟨contents, s₁, hread, hrest⟩ := Prog.bind_eq_some_iff.mp hrun
      cases contents with
      | none => cases hrest
      | some buffer =>
          obtain ⟨visited, t, hloop, hlast⟩ := Prog.bind_eq_some_iff.mp hrest
          cases visited with
          | false => cases hlast
          | true =>
              have hfree : freeDataBlock p t = some (true, s') := hlast
              have hvalid : isInvalidDataBlock p = false := by
                cases hinvalid : isInvalidDataBlock p with
                | false => rfl
                | true =>
                    rw [freeDataBlock, hinvalid] at hfree
                    cases hfree
              have hpos : ¬p.toInt ≤ 0 := by
                simp only [isInvalidDataBlock, Bool.or_eq_false_iff, decide_eq_false_iff_not]
                  at hvalid
                have := inodeBlockCount_nonneg
                omega
              have hbuffer : readDataBlockArray p s = some (buffer, s₁) := by
                rw [readDataBlockArray, readDataBlock, hvalid]
                exact Prog.bind_of_eq hread
              have heach : forEachAddress buffer (fun q => do
                  let _ ← removeDatablocksUtility d q
                  pure ()) numOfAddressesPerBlock 0 s₁ = some ((), t) := by
                refine forEachAddress_of_forAddresses (fun q s s' hvisit => ?_) hloop
                rw [Prog.bind_of_eq (ih hvisit)]
                rfl
              rw [removeDatablocksUtility, if_neg hpos, Prog.bind_of_eq hbuffer,
                Prog.bind_of_eq heach, Prog.bind_of_eq hfree]
              rfl

end AltFs
