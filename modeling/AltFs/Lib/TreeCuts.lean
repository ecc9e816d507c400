import AltFs.Lib.PointerTree

/-!
# Cutting a tree of pointers

A tree is cut at a leaf `m`: the leaves behind `m` that share its last inner
node are cleared in that node, and the cells of the tree fall into those that
the leaves before `m` need and those behind.
-/

namespace AltFs

namespace PointerTree

variable {A : Type} [DecidableEq A] [Zero A] {width : Nat} {words words' : A → Nat → A}

/-- The paths through the subtree at word `c`. -/
theorem nodeAt_child {d k c i : Nat} {p : A} (hk : k ≤ d) (hp : p ≠ 0) (hi : i < width ^ d) :
    nodeAt width words (d + 1) k p (c * width ^ d + i) = nodeAt width words d k (words p c) i := by
  have hpos : 0 < width ^ d := by omega
  rw [nodeAt_succ hk hp, Nat.add_comm, Nat.add_mul_div_right _ _ hpos, Nat.div_eq_of_lt hi,
    Nat.zero_add, Nat.add_mul_mod_self_right, Nat.mod_eq_of_lt hi]

theorem nodeAt_one {p : A} (hp : p ≠ 0) (j : Nat) : nodeAt width words 1 0 p j = words p j := by
  rw [nodeAt_succ le_rfl hp, pow_zero, Nat.div_one, nodeAt]

/-- In a tree without sharing the nodes of a path are different. -/
theorem nodeAt_ne_of_lt {d k l i : Nat} {p : A} (h : (cells width words d p).Nodup) (hkl : k < l)
    (hl : l ≤ d) (hi : i < width ^ d) (hne : nodeAt width words d k p i ≠ 0) :
    nodeAt width words d l p i ≠ nodeAt width words d k p i := by
  induction d generalizing p i with
  | zero => omega
  | succ d ih =>
      have hp : p ≠ 0 := by
        rintro rfl
        exact hne (nodeAt_zero _ _ _)
      rw [nodeAt_succ (k := k) (by omega) hp] at hne ⊢
      by_cases htop : l = d + 1
      · rw [nodeAt_top htop.ge]
        rw [cells_succ hp, Multiset.nodup_cons] at h
        have hmem := nodeAt_mem_cells (mod_pow_lt hi) hne
        intro heq
        rw [← heq] at hmem
        exact h.1 (Multiset.mem_sum.mpr ⟨_, Finset.mem_range.mpr (div_pow_lt hi), hmem⟩)
      · rw [nodeAt_succ (by omega) hp]
        exact ih (Multiset.nodup_of_le (child_le hp (div_pow_lt hi)) h) (by omega) (mod_pow_lt hi)
          hne

/-- Leaves that share the last node of `m` are leaves of the same tree. -/
theorem add_lt_pow {d m j : Nat} (hd : 1 ≤ d) (hm : m < width ^ d) (hj : m % width + j < width) :
    m + j < width ^ d := by
  obtain ⟨e, rfl⟩ : ∃ e, d = e + 1 := ⟨d - 1, by omega⟩
  rw [pow_succ] at hm ⊢
  have hlt := Nat.div_lt_of_lt_mul (by rwa [Nat.mul_comm] at hm : m < width * width ^ e)
  calc m + j = m / width * width + (m % width + j) := by
        have := Nat.div_add_mod' m width
        omega
    _ < m / width * width + width := by omega
    _ = (m / width + 1) * width := by rw [Nat.succ_mul]
    _ ≤ width ^ e * width := Nat.mul_le_mul_right _ hlt

/-! ## Clearing leaves that share their last node -/

/-- Between two memories, `count` leaves from `m` on are cleared in the node above them. -/
structure Cleared (width : Nat) (words words' : A → Nat → A) (d : Nat) (p : A) (m count : Nat) :
    Prop where
  height : 1 ≤ d
  leaf : m < width ^ d
  fits : m % width + count ≤ width
  parent : nodeAt width words d 1 p m ≠ 0
  set : ∀ j < width, words' (nodeAt width words d 1 p m) j =
    if m % width ≤ j ∧ j < m % width + count then 0 else words (nodeAt width words d 1 p m) j
  same : ∀ b ∈ inner width words d p, b ≠ nodeAt width words d 1 p m →
    ∀ j < width, words' b j = words b j

namespace Cleared

variable {d m count : Nat} {p : A}

/-- The memory in which one leaf less is cleared. -/
private def before (words : A → Nat → A) (q : A) (first last : Nat) : A → Nat → A :=
  fun b j => if b = q ∧ first ≤ j ∧ j < last then 0 else words b j

private theorem of_before (h : Cleared width words words' d p m (count + 1)) :
    Cleared width words
      (before words (nodeAt width words d 1 p m) (m % width) (m % width + count)) d p m count where
  height := h.height
  leaf := h.leaf
  fits := by
    have := h.fits
    omega
  parent := h.parent
  set j _ := by simp [before]
  same b _ hne j _ := by simp [before, hne]

private theorem add_lt (h : Cleared width words words' d p m (count + 1)) :
    m + count < width ^ d :=
  add_lt_pow h.height h.leaf (by have := h.fits; omega)

/-- The last leaf is stored over. -/
private theorem stored (h : Cleared width words words' d p m (count + 1))
    (hnodup : (inner width words d p).Nodup)
    (hinner : inner width
      (before words (nodeAt width words d 1 p m) (m % width) (m % width + count)) d p =
        inner width words d p)
    (hnode : ∀ l i, 1 ≤ l → i < width ^ d → nodeAt width
      (before words (nodeAt width words d 1 p m) (m % width) (m % width + count)) d l p i =
        nodeAt width words d l p i) :
    Stored width (before words (nodeAt width words d 1 p m) (m % width) (m % width + count))
      words' d p 0 (m + count) 0 := by
  have hfits := h.fits
  have hslot : (m + count) % width = m % width + count := by
    rw [Nat.add_mod, Nat.mod_eq_of_lt (show count < width by omega), Nat.mod_eq_of_lt (by omega)]
  have hgroup : (m + count) / width ^ 1 = m / width ^ 1 := by
    rw [pow_one, Nat.div_eq_iff (by omega)]
    have := Nat.div_add_mod' m width
    constructor <;> omega
  have hparent : nodeAt width words d 1 p (m + count) = nodeAt width words d 1 p m :=
    nodeAt_eq_of_div_eq h.height hgroup
  refine
    { nodup := by rwa [hinner]
      height := h.height
      leaf := h.add_lt
      parent := ?_
      set := ?_
      same := fun b hb j hj hne => ?_ }
  · rw [Nat.zero_add, hnode 1 _ le_rfl h.add_lt, hparent]
    exact h.parent
  · rw [Nat.zero_add, hnode 1 _ le_rfl h.add_lt, hparent, pow_zero, Nat.div_one, hslot,
      h.set _ (by omega), if_pos (by omega)]
  · rw [Nat.zero_add, hnode 1 _ le_rfl h.add_lt, hparent, pow_zero, Nat.div_one, hslot] at hne
    rw [hinner] at hb
    by_cases hq : b = nodeAt width words d 1 p m
    · have hne := hne.resolve_left fun hother => hother hq
      rw [hq, h.set j hj, before]
      have hrange : m % width ≤ j ∧ j < m % width + (count + 1) ↔
          m % width ≤ j ∧ j < m % width + count := by omega
      simp only [hrange, true_and]
    · rw [h.same b hb hq j hj, before, if_neg fun hcond => hq hcond.1]

/-- Only the cleared leaves go. -/
theorem spec (h : Cleared width words words' d p m count)
    (hnodup : (inner width words d p).Nodup) :
    inner width words' d p = inner width words d p ∧
      cells width words' d p +
        ∑ t ∈ Finset.range count, cell (nodeAt width words d 0 p (m + t)) =
          cells width words d p ∧
      ∀ l, ∀ i < width ^ d, nodeAt width words' d l p i =
        if l = 0 ∧ m ≤ i ∧ i < m + count then 0 else nodeAt width words d l p i := by
  induction count generalizing words' with
  | zero =>
      have hsame : ∀ b ∈ inner width words d p, ∀ j < width, words' b j = words b j := by
        intro b hb j hj
        by_cases hq : b = nodeAt width words d 1 p m
        · rw [hq, h.set j hj, if_neg (by omega)]
        · exact h.same b hb hq j hj
      refine ⟨gather_congr hsame, ?_, fun l i hi => ?_⟩
      · rw [Finset.sum_range_zero, add_zero]
        exact gather_congr hsame
      · rw [nodeAt_congr hi hsame, if_neg (by omega)]
  | succ count ih =>
      obtain ⟨hinner, hcells, hnode⟩ := ih h.of_before
      have hstored := h.stored hnodup hinner fun l i hl hi => by
        rw [hnode l i hi, if_neg (by omega)]
      have hgather := gather_store (f := fun _ => (0 : Multiset A)) hstored
      have hgather' : cells width words' d p + cell (nodeAt width
          (before words (nodeAt width words d 1 p m) (m % width) (m % width + count)) d 0 p
          (m + count)) = cells width
          (before words (nodeAt width words d 1 p m) (m % width) (m % width + count)) d p +
            cell 0 := gather_store hstored
      refine ⟨?_, ?_, fun l i hi => ?_⟩
      · rw [← hinner]
        exact add_right_cancel hgather
      · rw [hnode 0 _ h.add_lt, if_neg (by omega)] at hgather'
        rw [← hcells, Finset.sum_range_succ, ← add_assoc, add_right_comm]
        congr 1
        rwa [cell_zero, add_zero] at hgather'
      · have hstore := nodeAt_store (l := l) hstored hi
        simp only [pow_zero, Nat.div_one, Nat.le_zero, nodeAt_zero] at hstore
        rw [hstore]
        by_cases hlast : l = 0 ∧ i = m + count
        · rw [if_pos hlast, if_pos (by omega)]
        · rw [if_neg hlast, hnode l i hi]
          have hrange : l = 0 ∧ m ≤ i ∧ i < m + (count + 1) ↔ l = 0 ∧ m ≤ i ∧ i < m + count := by
            omega
          simp only [hrange]

end Cleared

/-! ## Before and behind a leaf -/

section

variable (width : Nat) (words : A → Nat → A)

/-- The cells of `count` subtrees of `p`, from word `i` on. -/
def childCells (d : Nat) (p : A) (i count : Nat) : Multiset A :=
  ∑ j ∈ Finset.range count, cells width words d (words p (i + j))

/-- The inner nodes on the path to leaf `m` and the cells before it. -/
def upTo : Nat → A → Nat → Multiset A
  | 0, _, _ => 0
  | d + 1, p, m =>
      if p = 0 then 0 else
      p ::ₘ (childCells width words d p 0 (m / width ^ d) +
        upTo d (words p (m / width ^ d)) (m % width ^ d))

/-- Leaf `m` and the cells behind it that are not on the path to it. -/
def beyond : Nat → A → Nat → Multiset A
  | 0, p, _ => cell p
  | d + 1, p, m =>
      if p = 0 then 0 else
      beyond d (words p (m / width ^ d)) (m % width ^ d) +
        childCells width words d p (m / width ^ d + 1) (width - (m / width ^ d + 1))

end

section Cut

variable {d k m i : Nat} {p : A}

@[simp] theorem childCells_zero : childCells width words d p i 0 = 0 := rfl

theorem childCells_succ (count : Nat) : childCells width words d p i (count + 1) =
    cells width words d (words p i) + childCells width words d p (i + 1) count := by
  rw [childCells, childCells, Finset.sum_range_succ', add_comm, Nat.add_zero]
  congr 1
  apply Finset.sum_congr rfl
  intro j _
  rw [Nat.add_right_comm, Nat.add_assoc]

theorem childCells_add (m n : Nat) : childCells width words d p i (m + n) =
    childCells width words d p i m + childCells width words d p (i + m) n := by
  rw [childCells, childCells, childCells, Finset.sum_range_add]
  simp only [Nat.add_assoc]

theorem cells_eq_childCells (hp : p ≠ 0) :
    cells width words (d + 1) p = p ::ₘ childCells width words d p 0 width := by
  rw [cells_succ hp, childCells]
  simp only [Nat.zero_add]

theorem mem_childCells {a : A} {count j : Nat} (hj : j < count)
    (ha : a ∈ cells width words d (words p (i + j))) : a ∈ childCells width words d p i count :=
  Multiset.mem_sum.mpr ⟨j, Finset.mem_range.mpr hj, ha⟩

theorem upTo_succ (hp : p ≠ 0) : upTo width words (d + 1) p m =
    p ::ₘ (childCells width words d p 0 (m / width ^ d) +
      upTo width words d (words p (m / width ^ d)) (m % width ^ d)) := by
  rw [upTo, if_neg hp]

theorem beyond_succ (hp : p ≠ 0) : beyond width words (d + 1) p m =
    beyond width words d (words p (m / width ^ d)) (m % width ^ d) +
      childCells width words d p (m / width ^ d + 1) (width - (m / width ^ d + 1)) := by
  rw [beyond, if_neg hp]

/-- A leaf cuts the tree in two. -/
theorem upTo_add_beyond (hm : m < width ^ d) :
    upTo width words d p m + beyond width words d p m = cells width words d p := by
  induction d generalizing p m with
  | zero => exact zero_add _
  | succ d ih =>
      by_cases hp : p = 0
      · rw [upTo, beyond, if_pos hp, if_pos hp, hp, cells_zero, add_zero]
      have hslot := div_pow_lt hm
      have hone := @childCells_succ _ _ _ width words d (m / width ^ d) p 0
      have hsum := @childCells_add _ _ _ width words d 0 p (m / width ^ d)
        (1 + (width - (m / width ^ d + 1)))
      have hwidth : m / width ^ d + (1 + (width - (m / width ^ d + 1))) = width := by omega
      rw [hwidth, childCells_add, Nat.zero_add] at hsum
      rw [childCells_zero, add_zero] at hone
      rw [upTo_succ hp, beyond_succ hp, cells_eq_childCells hp, hsum, hone, ← ih (mod_pow_lt hm),
        Multiset.cons_add]
      congr 1
      rw [add_assoc, add_assoc]

private theorem mod_lt_of_div_eq {c : Nat} (hi : i < m) (h : i / c = m / c) : i % c < m % c := by
  have hidiv := Nat.div_add_mod i c
  have hmdiv := Nat.div_add_mod m c
  rw [h] at hidiv
  omega

/-- The leaves before the cut. -/
theorem leaf_mem_upTo (hm : m < width ^ d) (hi : i < m) (hne : nodeAt width words d 0 p i ≠ 0) :
    nodeAt width words d 0 p i ∈ upTo width words d p m := by
  induction d generalizing p m i with
  | zero =>
      rw [pow_zero] at hm
      omega
  | succ d ih =>
      have hp : p ≠ 0 := by
        rintro rfl
        exact hne (nodeAt_zero _ _ _)
      rw [nodeAt_succ (Nat.zero_le d) hp] at hne ⊢
      rw [upTo_succ hp]
      apply Multiset.mem_cons_of_mem
      rw [Multiset.mem_add]
      by_cases hsame : i / width ^ d = m / width ^ d
      · right
        rw [hsame] at hne ⊢
        exact ih (mod_pow_lt hm) (mod_lt_of_div_eq hi hsame) hne
      · left
        have hle := Nat.div_le_div_right (c := width ^ d) hi.le
        apply mem_childCells (j := i / width ^ d) (by omega)
        rw [Nat.zero_add]
        exact nodeAt_mem_cells (mod_pow_lt (hi.trans hm)) hne

/-- The path to a leaf before the cut needs only what is kept. -/
theorem nodeAt_upTo (hm : m < width ^ d) (hi : i < m)
    (hsame : ∀ a ∈ upTo width words d p m, ∀ j < width, words' a j = words a j) :
    nodeAt width words' d k p i = nodeAt width words d k p i := by
  induction d generalizing p m i with
  | zero => rfl
  | succ d ih =>
      by_cases hp : p = 0
      · rw [hp, nodeAt_zero, nodeAt_zero]
      by_cases hk : d + 1 ≤ k
      · rw [nodeAt_top hk, nodeAt_top hk]
      rw [upTo_succ hp] at hsame
      rw [nodeAt_succ (by omega) hp, nodeAt_succ (by omega) hp,
        hsame p (Multiset.mem_cons_self _ _) _ (div_pow_lt (hi.trans hm))]
      by_cases hchild : i / width ^ d = m / width ^ d
      · rw [hchild]
        apply ih (mod_pow_lt hm) (mod_lt_of_div_eq hi hchild)
        intro a ha
        exact hsame a (Multiset.mem_cons_of_mem (Multiset.mem_add.mpr (.inr ha)))
      · have hle := Nat.div_le_div_right (c := width ^ d) hi.le
        apply nodeAt_congr (mod_pow_lt (hi.trans hm))
        intro a ha
        apply hsame a (Multiset.mem_cons_of_mem (Multiset.mem_add.mpr (.inl _)))
        apply mem_childCells (j := i / width ^ d) (by omega)
        rw [Nat.zero_add]
        exact Multiset.mem_of_le (inner_le_cells _ _) ha

end Cut

end PointerTree

end AltFs
