import AltFs.Lib.FreeChain
import Mathlib.Algebra.Order.BigOperators.Group.Finset

/-!
# Trees of pointers stored in memory

A memory gives every address an array of words.  A tree of depth `d` hangs at
an address `p`: at depth 0 the address is a leaf, at depth `d + 1` the first
`width` words of its cell are trees of depth `d`.  The address `0` is the empty
tree of every depth.  A leaf has an index below `width ^ d`; the path to it
goes through one node of every height.
-/

namespace AltFs

namespace PointerTree

variable {A : Type} [DecidableEq A] [Zero A]

section

variable (width : Nat) (words : A → Nat → A)

/-- The inner nodes of a tree, together with what `f` makes of its leaves. -/
def gather (f : A → Multiset A) : Nat → A → Multiset A
  | 0, p => f p
  | d + 1, p =>
      if p = 0 then 0 else p ::ₘ ∑ i ∈ Finset.range width, gather f d (words p i)

/-- All cells of a tree. -/
def cells : Nat → A → Multiset A := gather width words cell

/-- The cells that hold pointers. -/
def inner : Nat → A → Multiset A := gather width words fun _ => 0

/-- The node of height `k` on the path to the leaf `i`, 0 where the path ends early. -/
def nodeAt : (d k : Nat) → A → Nat → A
  | 0, _, p, _ => p
  | d + 1, k, p, i =>
      if d + 1 ≤ k then p else
      if p = 0 then 0 else nodeAt d k (words p (i / width ^ d)) (i % width ^ d)

end

variable {width : Nat} {words words' : A → Nat → A}

theorem gather_succ (f : A → Multiset A) {d : Nat} {p : A} (hp : p ≠ 0) :
    gather width words f (d + 1) p =
      p ::ₘ ∑ i ∈ Finset.range width, gather width words f d (words p i) := by
  rw [gather, if_neg hp]

theorem gather_zero {f : A → Multiset A} (hf : f 0 = 0) (d : Nat) :
    gather width words f d 0 = 0 := by
  cases d with
  | zero => exact hf
  | succ d => rw [gather, if_pos rfl]

@[simp] theorem cells_zero (d : Nat) : cells width words d 0 = 0 := gather_zero cell_zero d

@[simp] theorem inner_zero (d : Nat) : inner width words d 0 = 0 := gather_zero rfl d

@[simp] theorem cells_leaf (p : A) : cells width words 0 p = cell p := rfl

@[simp] theorem inner_leaf (p : A) : inner width words 0 p = 0 := rfl

theorem cells_succ {d : Nat} {p : A} (hp : p ≠ 0) :
    cells width words (d + 1) p =
      p ::ₘ ∑ i ∈ Finset.range width, cells width words d (words p i) := gather_succ cell hp

theorem inner_succ {d : Nat} {p : A} (hp : p ≠ 0) :
    inner width words (d + 1) p =
      p ::ₘ ∑ i ∈ Finset.range width, inner width words d (words p i) := gather_succ _ hp

theorem inner_le_cells (d : Nat) (p : A) : inner width words d p ≤ cells width words d p := by
  induction d generalizing p with
  | zero => exact Multiset.zero_le _
  | succ d ih =>
      by_cases hp : p = 0
      · simp [hp]
      · rw [inner_succ hp, cells_succ hp]
        exact Multiset.cons_le_cons p (Finset.sum_le_sum fun i _ => ih (words p i))

theorem mem_cells_root {d : Nat} {p : A} (hp : p ≠ 0) : p ∈ cells width words d p := by
  cases d with
  | zero => simp [cell_of_ne hp]
  | succ d =>
      rw [cells_succ hp]
      exact Multiset.mem_cons_self _ _

theorem child_le {d i : Nat} {p : A} (hp : p ≠ 0) (hi : i < width) :
    cells width words d (words p i) ≤ cells width words (d + 1) p := by
  rw [cells_succ hp]
  exact (Finset.single_le_sum (f := fun i => cells width words d (words p i))
    (fun _ _ => Multiset.zero_le _) (Finset.mem_range.mpr hi)).trans (Multiset.le_cons_self _ _)

theorem mem_inner_root {d : Nat} {p : A} (hp : p ≠ 0) : p ∈ inner width words (d + 1) p := by
  rw [inner_succ hp]
  exact Multiset.mem_cons_self _ _

/-- A root is in none of the subtrees. -/
theorem root_notMem_child {d i : Nat} {p : A} (h : (cells width words (d + 1) p).Nodup)
    (hp : p ≠ 0) (hi : i < width) : p ∉ cells width words d (words p i) := by
  rw [cells_succ hp, Multiset.nodup_cons] at h
  exact fun hmem => h.1 (Multiset.mem_sum.mpr ⟨i, Finset.mem_range.mpr hi, hmem⟩)

theorem inner_child_le {d i : Nat} {p : A} (hp : p ≠ 0) (hi : i < width) :
    inner width words d (words p i) ≤ inner width words (d + 1) p := by
  rw [inner_succ hp]
  exact (Finset.single_le_sum (f := fun i => inner width words d (words p i))
    (fun _ _ => Multiset.zero_le _) (Finset.mem_range.mpr hi)).trans (Multiset.le_cons_self _ _)

theorem mem_inner_child {d i : Nat} {p a : A} (hp : p ≠ 0) (hi : i < width)
    (h : a ∈ inner width words d (words p i)) : a ∈ inner width words (d + 1) p := by
  rw [inner_succ hp]
  exact Multiset.mem_cons_of_mem (Multiset.mem_sum.mpr ⟨i, Finset.mem_range.mpr hi, h⟩)

/-! ## Paths -/

theorem nodeAt_top {d k : Nat} (h : d ≤ k) (p : A) (i : Nat) :
    nodeAt width words d k p i = p := by
  cases d with
  | zero => rfl
  | succ d => rw [nodeAt, if_pos h]

theorem nodeAt_succ {d k : Nat} {p : A} (h : k ≤ d) (hp : p ≠ 0) (i : Nat) :
    nodeAt width words (d + 1) k p i =
      nodeAt width words d k (words p (i / width ^ d)) (i % width ^ d) := by
  rw [nodeAt, if_neg (by omega), if_neg hp]

@[simp] theorem nodeAt_zero (d k i : Nat) : nodeAt width words d k 0 i = 0 := by
  cases d with
  | zero => rfl
  | succ d => simp [nodeAt]

theorem div_pow_lt {d i : Nat} (hi : i < width ^ (d + 1)) : i / width ^ d < width :=
  Nat.div_lt_of_lt_mul (by rwa [pow_succ] at hi)

theorem mod_pow_lt {d i : Nat} (hi : i < width ^ (d + 1)) : i % width ^ d < width ^ d := by
  refine Nat.mod_lt _ (Nat.pos_of_ne_zero fun hzero => ?_)
  rw [pow_succ, hzero, Nat.zero_mul] at hi
  omega

/-- The digit `k` of a number is also that of its last `d` digits. -/
private theorem mod_pow_div_pow_mod {d k i : Nat} (hk : k < d) :
    i % width ^ d / width ^ k % width = i / width ^ k % width := by
  obtain ⟨e, rfl⟩ := Nat.exists_eq_add_of_lt hk
  rw [show k + e + 1 = k + (e + 1) by omega, pow_add, Nat.mod_mul_right_div_self,
    Nat.mod_mod_of_dvd _ (dvd_pow_self width (by omega))]

theorem div_pow_of_div_pow {d k i m : Nat} (hk : k ≤ d)
    (h : i / width ^ k = m / width ^ k) : i / width ^ d = m / width ^ d := by
  obtain ⟨e, rfl⟩ := Nat.exists_eq_add_of_le hk
  rw [pow_add, ← Nat.div_div_eq_div_mul, ← Nat.div_div_eq_div_mul, h]

theorem mod_pow_div_pow_inj {d k i m : Nat} (hk : k ≤ d)
    (h : i / width ^ d = m / width ^ d) :
    i % width ^ d / width ^ k = m % width ^ d / width ^ k ↔
      i / width ^ k = m / width ^ k := by
  obtain ⟨e, rfl⟩ := Nat.exists_eq_add_of_le hk
  have hsplit : ∀ x, x / width ^ k =
      width ^ e * (x / width ^ (k + e)) + x % width ^ (k + e) / width ^ k := by
    intro x
    rw [pow_add, Nat.mod_mul_right_div_self, ← Nat.div_div_eq_div_mul, Nat.div_add_mod]
  rw [hsplit i, hsplit m, h]
  omega

theorem gather_nodeAt_le {f : A → Multiset A} (hf : f 0 = 0) {d k i : Nat} {p : A}
    (hi : i < width ^ d) :
    gather width words f (min k d) (nodeAt width words d k p i) ≤ gather width words f d p := by
  induction d generalizing p i with
  | zero => simp [nodeAt]
  | succ d ih =>
      by_cases hp : p = 0
      · simp [hp, gather_zero hf]
      by_cases hk : d + 1 ≤ k
      · rw [nodeAt_top hk, min_eq_right hk]
      · rw [nodeAt_succ (by omega) hp, gather_succ f hp, show min k (d + 1) = min k d by omega]
        have hchild := Finset.single_le_sum (f := fun i => gather width words f d (words p i))
          (fun _ _ => Multiset.zero_le _) (Finset.mem_range.mpr (div_pow_lt hi))
        exact (ih (mod_pow_lt hi)).trans (hchild.trans (Multiset.le_cons_self _ _))

theorem nodeAt_mem_cells {d k i : Nat} {p : A} (hi : i < width ^ d)
    (hne : nodeAt width words d k p i ≠ 0) : nodeAt width words d k p i ∈ cells width words d p :=
  Multiset.mem_of_le (gather_nodeAt_le cell_zero hi) (mem_cells_root hne)

theorem nodeAt_mem_inner {d k i : Nat} {p : A} (hi : i < width ^ d) (hk : k < d)
    (hne : nodeAt width words d (k + 1) p i ≠ 0) :
    nodeAt width words d (k + 1) p i ∈ inner width words d p := by
  refine Multiset.mem_of_le (gather_nodeAt_le (f := fun _ => 0) (k := k + 1) rfl hi) ?_
  rw [min_eq_left (by omega), gather_succ _ hne]
  exact Multiset.mem_cons_self _ _

/-- Nodes of height `k` are shared by the leaves of one group of `width ^ k`. -/
theorem nodeAt_eq_of_div_eq {d k i j : Nat} {p : A} (hk : k ≤ d)
    (h : i / width ^ k = j / width ^ k) :
    nodeAt width words d k p i = nodeAt width words d k p j := by
  induction d generalizing p i j with
  | zero => rfl
  | succ d ih =>
      by_cases hp : p = 0
      · simp [hp]
      by_cases hkd : k = d + 1
      · rw [nodeAt_top hkd.ge, nodeAt_top hkd.ge]
      · have hchild := div_pow_of_div_pow (d := d) (by omega) h
        rw [nodeAt_succ (by omega) hp, nodeAt_succ (by omega) hp, hchild]
        exact ih (by omega) ((mod_pow_div_pow_inj (by omega) hchild).mpr h)

/-- A path that reaches a node passes through nodes of all greater heights. -/
theorem nodeAt_ne_zero_mono {d k l i : Nat} {p : A} (hkl : k ≤ l)
    (h : nodeAt width words d k p i ≠ 0) : nodeAt width words d l p i ≠ 0 := by
  induction d generalizing p i with
  | zero => exact h
  | succ d ih =>
      have hp : p ≠ 0 := by
        rintro rfl
        exact h (nodeAt_zero _ _ _)
      by_cases hl : d + 1 ≤ l
      · rwa [nodeAt_top hl]
      · rw [nodeAt_succ (by omega) hp] at h ⊢
        exact ih h

/-- The children of the nodes on a path are again on the path. -/
theorem nodeAt_step {d k i : Nat} {p : A} (hk : k < d) (hi : i < width ^ d)
    (hne : nodeAt width words d (k + 1) p i ≠ 0) :
    nodeAt width words d k p i =
      words (nodeAt width words d (k + 1) p i) (i / width ^ k % width) := by
  induction d generalizing p i with
  | zero => omega
  | succ d ih =>
      have hp : p ≠ 0 := by
        rintro rfl
        simp at hne
      rw [nodeAt_succ (by omega) hp]
      by_cases hkd : k = d
      · subst hkd
        rw [nodeAt_top le_rfl, nodeAt_top le_rfl, Nat.mod_eq_of_lt (div_pow_lt hi)]
      · rw [nodeAt_succ (by omega) hp] at hne ⊢
        rw [ih (by omega) (mod_pow_lt hi) hne]
        congr 1
        exact mod_pow_div_pow_mod (by omega)

omit [DecidableEq A] [Zero A] in
private theorem sum_range_mul (m n : Nat) (f : Nat → Multiset A) :
    ∑ i ∈ Finset.range (m * n), f i =
      ∑ j ∈ Finset.range m, ∑ i ∈ Finset.range n, f (j * n + i) := by
  induction m with
  | zero => simp
  | succ m ih => rw [Nat.succ_mul, Finset.sum_range_add, ih, Finset.sum_range_succ]

/-- The cells of a tree are its inner nodes and its leaves. -/
theorem cells_eq (d : Nat) (p : A) :
    cells width words d p =
      inner width words d p + ∑ i ∈ Finset.range (width ^ d), cell (nodeAt width words d 0 p i) := by
  induction d generalizing p with
  | zero =>
      rw [cells_leaf, inner_leaf, zero_add, pow_zero, Finset.sum_range_one, nodeAt]
  | succ d ih =>
      by_cases hp : p = 0
      · simp [hp]
      · rw [cells_succ hp, inner_succ hp, Nat.pow_succ', sum_range_mul, Multiset.cons_add,
          ← Finset.sum_add_distrib]
        congr 1
        refine Finset.sum_congr rfl fun j hj => ?_
        rw [ih]
        congr 1
        refine Finset.sum_congr rfl fun i hi => ?_
        have hi := Finset.mem_range.mp hi
        have hpos : 0 < width ^ d := by omega
        rw [nodeAt_succ (Nat.zero_le d) hp, Nat.add_comm, Nat.add_mul_div_right _ _ hpos,
          Nat.div_eq_of_lt hi, Nat.zero_add, Nat.add_mul_mod_self_right, Nat.mod_eq_of_lt hi]

/-! ## Changes of the memory -/

/-- A tree depends only on the words of its inner nodes. -/
theorem gather_congr {f : A → Multiset A} {d : Nat} {p : A}
    (h : ∀ a ∈ inner width words d p, ∀ i < width, words' a i = words a i) :
    gather width words' f d p = gather width words f d p := by
  induction d generalizing p with
  | zero => rfl
  | succ d ih =>
      by_cases hp : p = 0
      · simp only [gather, if_pos hp]
      · rw [gather_succ f hp, gather_succ f hp]
        congr 1
        refine Finset.sum_congr rfl fun i hi => ?_
        have hi := Finset.mem_range.mp hi
        have hroot : p ∈ inner width words (d + 1) p := by
          rw [inner_succ hp]
          exact Multiset.mem_cons_self _ _
        rw [h p hroot i hi]
        exact ih fun a ha => h a (mem_inner_child hp hi ha)

theorem nodeAt_congr {d k i : Nat} {p : A} (hi : i < width ^ d)
    (h : ∀ a ∈ inner width words d p, ∀ i < width, words' a i = words a i) :
    nodeAt width words' d k p i = nodeAt width words d k p i := by
  induction d generalizing p i with
  | zero => rfl
  | succ d ih =>
      by_cases hp : p = 0
      · simp [hp]
      by_cases hk : d + 1 ≤ k
      · rw [nodeAt_top hk, nodeAt_top hk]
      · rw [nodeAt_succ (by omega) hp, nodeAt_succ (by omega) hp]
        have hroot : p ∈ inner width words (d + 1) p := by
          rw [inner_succ hp]
          exact Multiset.mem_cons_self _ _
        rw [h p hroot _ (div_pow_lt hi)]
        exact ih (mod_pow_lt hi) fun a ha => h a (mem_inner_child hp (div_pow_lt hi) ha)

omit [DecidableEq A] [Zero A] in
private theorem notMem_of_nodup_sum {n i j : Nat} {f : Nat → Multiset A} {a : A}
    (h : (∑ i ∈ Finset.range n, f i).Nodup) (hi : i < n) (hj : j < n) (hij : i ≠ j)
    (ha : a ∈ f i) : a ∉ f j := by
  rw [← Finset.add_sum_erase _ f (Finset.mem_range.mpr hi)] at h
  intro haj
  refine Multiset.disjoint_left.mp (Multiset.nodup_add.mp h).2.2 ha (Multiset.mem_sum.mpr ?_)
  exact ⟨j, Finset.mem_erase.mpr ⟨hij.symm, Finset.mem_range.mpr hj⟩, haj⟩

/-- Different subtrees of a node share no cell. -/
theorem notMem_child {d i j : Nat} {p a : A} (h : (cells width words (d + 1) p).Nodup)
    (hp : p ≠ 0) (hi : i < width) (hj : j < width) (hij : i ≠ j)
    (ha : a ∈ cells width words d (words p i)) : a ∉ cells width words d (words p j) := by
  rw [cells_succ hp, Multiset.nodup_cons] at h
  exact notMem_of_nodup_sum (f := fun i => cells width words d (words p i)) h.2 hi hj hij ha

omit [DecidableEq A] [Zero A] in
private theorem nodup_of_nodup_sum {n i : Nat} {f : Nat → Multiset A}
    (h : (∑ i ∈ Finset.range n, f i).Nodup) (hi : i < n) : (f i).Nodup := by
  rw [← Finset.add_sum_erase _ f (Finset.mem_range.mpr hi)] at h
  exact (Multiset.nodup_add.mp h).1

omit [DecidableEq A] [Zero A] in
/-- Exchanging a part of a part exchanges it in the whole. -/
private theorem exchange_trans {whole whole' part part' old new : Multiset A}
    (hwhole : whole' + part = whole + part') (hpart : part' + old = part + new) :
    whole' + old = whole + new := by
  refine add_right_cancel (b := part) ?_
  calc whole' + old + part = whole' + part + old := add_right_comm _ _ _
    _ = whole + (part' + old) := by rw [hwhole, add_assoc]
    _ = whole + new + part := by rw [hpart, add_comm part, add_assoc]

/--
Between two memories, `v` is stored in the slot of height `k` on the path to
`m`, in a tree without sharing.
-/
structure Stored (width : Nat) (words words' : A → Nat → A) (d : Nat) (p : A) (k m : Nat)
    (v : A) : Prop where
  nodup : (inner width words d p).Nodup
  height : k < d
  leaf : m < width ^ d
  parent : nodeAt width words d (k + 1) p m ≠ 0
  set : words' (nodeAt width words d (k + 1) p m) (m / width ^ k % width) = v
  same : ∀ b ∈ inner width words d p, ∀ i < width,
    b ≠ nodeAt width words d (k + 1) p m ∨ i ≠ m / width ^ k % width → words' b i = words b i

section Store

variable {f : A → Multiset A} {d k m : Nat} {p v : A}

/-- Of the memory before the store only the inner nodes matter. -/
theorem Stored.of_eq {before : A → Nat → A} (h : Stored width words words' d p k m v)
    (heq : ∀ a ∈ inner width before d p, ∀ i < width, words a i = before a i) :
    Stored width before words' d p k m v := by
  have hinner : inner width words d p = inner width before d p := gather_congr heq
  have hnode := nodeAt_congr (k := k + 1) h.leaf heq
  refine ⟨hinner ▸ h.nodup, h.height, h.leaf, hnode ▸ h.parent, hnode ▸ h.set, fun b hb i hi => ?_⟩
  rw [← heq b hb i hi, ← hnode]
  exact h.same b (hinner ▸ hb) i hi

/-- A store below the root is a store in one of its subtrees. -/
theorem Stored.child (h : Stored width words words' (d + 1) p k m v) (hk : k < d) :
    p ≠ 0 ∧ m / width ^ d < width ∧
      Stored width words words' d (words p (m / width ^ d)) k (m % width ^ d) v ∧
      (∀ i < width, words' p i = words p i) ∧
      ∀ i < width, i ≠ m / width ^ d →
        ∀ a ∈ inner width words d (words p i), ∀ j < width, words' a j = words a j := by
  have hp : p ≠ 0 := by
    rintro rfl
    exact h.parent (nodeAt_zero _ _ _)
  have hslot := div_pow_lt h.leaf
  have hrest := h.nodup
  rw [inner_succ hp, Multiset.nodup_cons] at hrest
  obtain ⟨hroot, hrest⟩ := hrest
  have hparent := h.parent
  have hset := h.set
  have hsame := h.same
  rw [nodeAt_succ hk hp] at hparent hset hsame
  have hpath := nodeAt_mem_inner (mod_pow_lt h.leaf) hk hparent
  refine ⟨hp, hslot, ⟨nodup_of_nodup_sum hrest hslot, hk, mod_pow_lt h.leaf, hparent, ?_, ?_⟩,
    fun i hi => hsame p ?_ i hi (.inl ?_), fun i hi hne a ha j hj =>
      hsame a (mem_inner_child hp hi ha) j hj (.inl ?_)⟩
  · rw [mod_pow_div_pow_mod hk]
    exact hset
  · intro b hb i hi hother
    rw [mod_pow_div_pow_mod hk] at hother
    exact hsame b (mem_inner_child hp hslot hb) i hi hother
  · rw [inner_succ hp]
    exact Multiset.mem_cons_self _ _
  · intro heq
    rw [← heq] at hpath
    exact hroot (Multiset.mem_sum.mpr ⟨_, Finset.mem_range.mpr hslot, hpath⟩)
  · rintro rfl
    exact notMem_of_nodup_sum hrest hi hslot hne ha hpath

/-- A store in the root. -/
theorem Stored.at_root (h : Stored width words words' (d + 1) p d m v) :
    p ≠ 0 ∧ m / width ^ d < width ∧ words' p (m / width ^ d) = v ∧
      ∀ i < width, (i ≠ m / width ^ d → words' p i = words p i) ∧
        ∀ a ∈ inner width words d (words p i), ∀ j < width, words' a j = words a j := by
  have hp : p ≠ 0 := by
    rintro rfl
    exact h.parent (nodeAt_zero _ _ _)
  have hslot := div_pow_lt h.leaf
  have hroot := h.nodup
  rw [inner_succ hp, Multiset.nodup_cons] at hroot
  have hset := h.set
  have hsame := h.same
  rw [nodeAt_top le_rfl, Nat.mod_eq_of_lt hslot] at hset hsame
  refine ⟨hp, hslot, hset, fun i hi => ⟨fun hne => hsame p ?_ i hi (.inr hne),
    fun a ha j hj => hsame a (mem_inner_child hp hi ha) j hj (.inl ?_)⟩⟩
  · rw [inner_succ hp]
    exact Multiset.mem_cons_self _ _
  · rintro rfl
    exact hroot.1 (Multiset.mem_sum.mpr ⟨i, Finset.mem_range.mpr hi, ha⟩)

/--
Storing `v` in the slot of height `k` on the path to `m` exchanges the subtree
that was there for the tree at `v`.
-/
theorem gather_store (h : Stored width words words' d p k m v) :
    gather width words' f d p + gather width words f k (nodeAt width words d k p m) =
      gather width words f d p + gather width words' f k v := by
  induction d generalizing p m with
  | zero => exact absurd h.height (by omega)
  | succ d ih =>
      by_cases hkd : k = d
      · subst hkd
        obtain ⟨hp, hslot, hset, hsame⟩ := h.at_root
        rw [gather_succ f hp, gather_succ f hp, Multiset.cons_add, Multiset.cons_add,
          nodeAt_succ le_rfl hp, nodeAt_top le_rfl, ← hset]
        congr 1
        refine sum_add_of_eq_off (f := fun i => gather width words f k (words p i))
          (g := fun i => gather width words' f k (words' p i))
          (Finset.mem_range.mpr hslot) fun i hi hne => ?_
        have hi := Finset.mem_range.mp hi
        show gather width words' f k (words' p i) = gather width words f k (words p i)
        rw [(hsame i hi).1 hne]
        exact gather_congr (hsame i hi).2
      · have hkd : k < d := by
          have := h.height
          omega
        obtain ⟨hp, hslot, hchild, hroot, hothers⟩ := h.child hkd
        have hsum := sum_add_of_eq_off (s := Finset.range width)
          (f := fun i => gather width words f d (words p i))
          (g := fun i => gather width words' f d (words' p i))
          (Finset.mem_range.mpr hslot) fun i hi hne => by
            have hi := Finset.mem_range.mp hi
            show gather width words' f d (words' p i) = gather width words f d (words p i)
            rw [hroot i hi]
            exact gather_congr (hothers i hi hne)
        rw [hroot _ hslot] at hsum
        rw [gather_succ f hp, gather_succ f hp, Multiset.cons_add, Multiset.cons_add,
          nodeAt_succ hkd.le hp]
        congr 1
        exact exchange_trans hsum (ih hchild)

/-- The nodes after the store: the subtree at `v` takes the place of the old one. -/
theorem nodeAt_store (h : Stored width words words' d p k m v) {l i : Nat}
    (hi : i < width ^ d) :
    nodeAt width words' d l p i =
      if l ≤ k ∧ i / width ^ k = m / width ^ k then nodeAt width words' k l v (i % width ^ k)
      else nodeAt width words d l p i := by
  induction d generalizing p m i with
  | zero => exact absurd h.height (by omega)
  | succ d ih =>
      have hk := h.height
      by_cases hl : d + 1 ≤ l
      · rw [nodeAt_top hl, nodeAt_top hl, if_neg (by omega)]
      have hslot' := div_pow_lt hi
      by_cases hkd : k = d
      · subst hkd
        obtain ⟨hp, hslot, hset, hsame⟩ := h.at_root
        rw [nodeAt_succ (by omega) hp, nodeAt_succ (by omega) hp]
        by_cases hpath : i / width ^ k = m / width ^ k
        · rw [if_pos ⟨by omega, hpath⟩, hpath, hset]
        · rw [if_neg (by simp [hpath]), (hsame _ hslot').1 hpath]
          exact nodeAt_congr (mod_pow_lt hi) (hsame _ hslot').2
      · have hkd : k < d := by omega
        obtain ⟨hp, hslot, hchild, hroot, hothers⟩ := h.child hkd
        rw [nodeAt_succ (by omega) hp, nodeAt_succ (by omega) hp, hroot _ hslot']
        by_cases hsub : i / width ^ d = m / width ^ d
        · rw [hsub, ih hchild (mod_pow_lt hi), Nat.mod_mod_of_dvd _ (pow_dvd_pow width hkd.le)]
          simp only [mod_pow_div_pow_inj hkd.le hsub]
        · rw [nodeAt_congr (mod_pow_lt hi) (hothers _ hslot' hsub),
            if_neg fun hcond => hsub (div_pow_of_div_pow hkd.le hcond.2)]

/-- What was stored is found again. -/
theorem Stored.node_eq (h : Stored width words words' d p k m v) :
    nodeAt width words' d k p m = v := by
  rw [nodeAt_store h h.leaf, if_pos ⟨le_rfl, rfl⟩, nodeAt_top le_rfl]

end Store

/-! ## A cell without pointers -/

section Blank

variable {d k i : Nat} {p : A}

theorem gather_blank {f : A → Multiset A} (hf : f 0 = 0) (hp : p ≠ 0)
    (hblank : ∀ i < width, words p i = 0) :
    gather width words f d p = if d = 0 then f p else {p} := by
  cases d with
  | zero => rfl
  | succ d =>
      rw [gather_succ f hp, Finset.sum_eq_zero, if_neg (by omega)]
      · simp
      · intro i hi
        rw [hblank i (Finset.mem_range.mp hi), gather_zero hf]

theorem cells_blank (hp : p ≠ 0) (hblank : ∀ i < width, words p i = 0) :
    cells width words d p = {p} := by
  rw [cells, gather_blank cell_zero hp hblank, cell_of_ne hp, ite_self]

theorem nodeAt_blank (hi : i < width ^ d) (hp : p ≠ 0) (hblank : ∀ i < width, words p i = 0) :
    nodeAt width words d k p i = if d ≤ k then p else 0 := by
  by_cases hk : d ≤ k
  · rw [if_pos hk, nodeAt_top hk]
  · cases d with
    | zero => omega
    | succ d =>
        rw [if_neg hk, nodeAt_succ (by omega) hp, hblank _ (div_pow_lt hi), nodeAt_zero]

end Blank

/-! ## Growing a branch -/

/--
The tree at `p'` is the tree at `p` with a new branch for the leaf `m`.  The
branch replaces the subtree of height `top` and reaches down to height `k`.
-/
structure Grafted (width : Nat) (words words' : A → Nat → A) (d top k m : Nat) (p p' : A) :
    Prop where
  other : ∀ l ≤ d, ∀ i < width ^ d, ¬(l ≤ top ∧ i / width ^ top = m / width ^ top) →
    nodeAt width words' d l p' i = nodeAt width words d l p i
  branch : ∀ l ≤ top, ∀ i < width ^ d, i / width ^ top = m / width ^ top →
    (nodeAt width words' d l p' i ≠ 0 ↔ k ≤ l ∧ i / width ^ l = m / width ^ l)

namespace Grafted

variable {words'' : A → Nat → A} {d top k m : Nat} {p p' v : A}

/-- A blank cell becomes the root. -/
theorem root (hm : m < width ^ d) (hp' : p' ≠ 0) (hblank : ∀ i < width, words' p' i = 0) :
    Grafted width words words' d d d m p p' where
  other l hl i hi h := by
    refine absurd ⟨hl, ?_⟩ h
    rw [Nat.div_eq_of_lt hi, Nat.div_eq_of_lt hm]
  branch l hl i hi h := by
    rw [nodeAt_blank hi hp' hblank]
    by_cases hd : d ≤ l
    · obtain rfl : l = d := by omega
      simp [hp', h]
    · simp [hd]

private theorem nodeAt_slot {l i : Nat} (hk : k < d) (hm : m < width ^ d)
    (hv : v ≠ 0) (hblank : k = 0 ∨ ∀ i < width, words' v i = 0) :
    nodeAt width words' k l v (i % width ^ k) = if k ≤ l then v else 0 := by
  rcases hblank with rfl | hblank
  · simp [nodeAt]
  · have hwidth : 0 < width := Nat.pos_of_ne_zero fun hzero => by
      rw [hzero, Nat.zero_pow (by omega)] at hm
      omega
    exact nodeAt_blank (Nat.mod_lt _ (Nat.pow_pos hwidth)) hv hblank

/-- The branch begins: its first cell is stored in the tree at height `k`. -/
theorem start (h : Stored width words words' d p k m v) (hv : v ≠ 0)
    (hblank : k = 0 ∨ ∀ i < width, words' v i = 0) :
    Grafted width words words' d k k m p p where
  other l hl i hi hpath := by
    rw [nodeAt_store h hi, if_neg hpath]
  branch l hl i hi hpath := by
    rw [nodeAt_store h hi, if_pos ⟨hl, hpath⟩, nodeAt_slot h.height h.leaf hv hblank]
    by_cases hkl : k ≤ l
    · obtain rfl : l = k := by omega
      simp [hv, hpath]
    · simp [hkl]

/-- The branch grows by one cell. -/
theorem step (h : Grafted width words words' d top (k + 1) m p p') (hk : k < top)
    (hstore : Stored width words' words'' d p' k m v) (hv : v ≠ 0)
    (hblank : k = 0 ∨ ∀ i < width, words'' v i = 0) :
    Grafted width words words'' d top k m p p' := by
  have hnode : ∀ l, ∀ i < width ^ d, nodeAt width words'' d l p' i =
      if l ≤ k ∧ i / width ^ k = m / width ^ k then (if k ≤ l then v else 0)
      else nodeAt width words' d l p' i := by
    intro l i hi
    rw [nodeAt_store hstore hi, nodeAt_slot hstore.height hstore.leaf hv hblank]
  constructor
  · intro l hl i hi hother
    rw [hnode l i hi, if_neg fun hcond =>
      hother ⟨by omega, div_pow_of_div_pow hk.le hcond.2⟩]
    exact h.other l hl i hi hother
  · intro l hl i hi hpath
    rw [hnode l i hi]
    by_cases hcond : l ≤ k ∧ i / width ^ k = m / width ^ k
    · rw [if_pos hcond]
      by_cases hkl : k ≤ l
      · obtain rfl : l = k := by omega
        simp [hv, hcond.2]
      · simp [hkl]
    · rw [if_neg hcond, h.branch l hl i hi hpath]
      constructor
      · rintro ⟨hkl, heq⟩
        exact ⟨by omega, heq⟩
      · rintro ⟨hkl, heq⟩
        refine ⟨Nat.lt_of_le_of_ne hkl ?_, heq⟩
        rintro rfl
        exact hcond ⟨le_rfl, heq⟩

/-- Leaves before a branch that starts at `m` stay. -/
theorem leaf_of_lt (h : Grafted width words words' d top k m p p')
    (hstart : width ^ top ∣ m) {i : Nat} (hi : i < width ^ d) (hlt : i < m) :
    nodeAt width words' d 0 p' i = nodeAt width words d 0 p i := by
  refine h.other 0 (Nat.zero_le _) i hi fun hcond => ?_
  obtain ⟨q, rfl⟩ := hstart
  have hpos : 0 < width ^ top := Nat.pos_of_ne_zero fun hzero => by simp [hzero] at hlt
  rw [Nat.mul_div_cancel_left _ hpos] at hcond
  have := Nat.div_mul_le_self i (width ^ top)
  rw [hcond.2, Nat.mul_comm] at this
  omega

end Grafted

/-! ## Full trees -/

/-- The nodes present are those on the paths to the first `n` leaves. -/
def Filled (width : Nat) (words : A → Nat → A) (d : Nat) (p : A) (n : Nat) : Prop :=
  ∀ k ≤ d, ∀ i < width ^ d,
    nodeAt width words d k p i ≠ 0 ↔ i / width ^ k * width ^ k < n

namespace Filled

variable {d m : Nat} {p p' : A}

theorem empty (d : Nat) : Filled width words d 0 0 := by
  intro k hk i hi
  simp

theorem root_eq_zero (h : Filled width words d p 0) (hwidth : 0 < width) : p = 0 := by
  by_contra hp
  have htop := h d le_rfl 0 (Nat.pow_pos hwidth)
  rw [nodeAt_top le_rfl, Nat.zero_div, Nat.zero_mul] at htop
  exact absurd (htop.mp hp) (lt_irrefl 0)

theorem node_ne_zero {k : Nat} (h : Filled width words d p m) (hk : k ≤ d) {i : Nat}
    (hi : i < width ^ d) (hlt : i < m) : nodeAt width words d k p i ≠ 0 :=
  (h k hk i hi).mpr (Nat.lt_of_le_of_lt (Nat.div_mul_le_self i _) hlt)

theorem congr {words' : A → Nat → A} (h : Filled width words d p m)
    (heq : ∀ a ∈ inner width words d p, ∀ i < width, words' a i = words a i) :
    Filled width words' d p m := by
  intro k hk i hi
  rw [nodeAt_congr hi heq]
  exact h k hk i hi

/-- A full tree is full for every bound. -/
theorem of_full {m' : Nat} (h : Filled width words d p m) (hm : width ^ d ≤ m)
    (hm' : width ^ d ≤ m') : Filled width words d p m' := by
  intro k hk i hi
  have := Nat.div_mul_le_self i (width ^ k)
  exact (h k hk i hi).trans ⟨fun _ => by omega, fun _ => by omega⟩

/-- The new branch for the next leaf starts at a multiple of its size. -/
theorem graft {top : Nat} (h : Filled width words d p m)
    (hgraft : Grafted width words words' d top 0 m p p') (htop : width ^ top ∣ m)
    (hparent : top < d → nodeAt width words d (top + 1) p m ≠ 0) (hm : m < width ^ d) :
    Filled width words' d p' (m + 1) := by
  intro l hl i hi
  have hpos : 0 < width ^ l := Nat.pos_of_ne_zero fun hzero => by
    have := Nat.eq_zero_of_zero_dvd (hzero ▸ pow_dvd_pow width hl)
    omega
  by_cases hcond : l ≤ top ∧ i / width ^ top = m / width ^ top
  · rw [hgraft.branch l hcond.1 i hi hcond.2, Nat.lt_succ_iff]
    have hge : m / width ^ l ≤ i / width ^ l := by
      refine Nat.div_le_div_right ?_
      calc m = m / width ^ top * width ^ top := (Nat.div_mul_cancel htop).symm
        _ = i / width ^ top * width ^ top := by rw [hcond.2]
        _ ≤ i := Nat.div_mul_le_self _ _
    constructor
    · rintro ⟨-, heq⟩
      rw [heq]
      exact Nat.div_mul_le_self _ _
    · intro hle
      exact ⟨Nat.zero_le _, Nat.le_antisymm ((Nat.le_div_iff_mul_le hpos).mpr hle) hge⟩
  · rw [hgraft.other l hl i hi hcond, h l hl i hi, Nat.lt_succ_iff]
    have hne : i / width ^ l * width ^ l ≠ m := by
      intro heq
      have hdvd : width ^ l ∣ m := ⟨_, by rw [← heq, Nat.mul_comm]⟩
      by_cases hlt : l ≤ top
      · refine hcond ⟨hlt, div_pow_of_div_pow hlt ?_⟩
        rw [← heq, Nat.mul_div_cancel _ hpos]
      · have hfull := (h (top + 1) (by omega) m hm).mp (hparent (by omega))
        rw [Nat.div_mul_cancel ((pow_dvd_pow width (by omega)).trans hdvd)] at hfull
        omega
    omega

/-- The subtree at word `j` has the leaves from `j * width ^ d` on. -/
theorem child (h : Filled width words (d + 1) p m) (hp : p ≠ 0) {j : Nat} (hj : j < width) :
    Filled width words d (words p j) (m - j * width ^ d) := by
  intro k hk i hi
  have hpos : 0 < width ^ d := Nat.lt_of_le_of_lt (Nat.zero_le i) hi
  have hleaf : i + j * width ^ d < width ^ (d + 1) := by
    calc i + j * width ^ d < (j + 1) * width ^ d := by rw [Nat.succ_mul]; omega
      _ ≤ width ^ (d + 1) := by rw [Nat.pow_succ']; exact Nat.mul_le_mul_right _ hj
  have hnode := h k (by omega) (i + j * width ^ d) hleaf
  rw [nodeAt_succ hk hp, Nat.add_mul_div_right _ _ hpos, Nat.div_eq_of_lt hi, Nat.zero_add,
    Nat.add_mul_mod_self_right, Nat.mod_eq_of_lt hi] at hnode
  rw [hnode]
  obtain ⟨q, hq⟩ := pow_dvd_pow width hk
  have hk : 0 < width ^ k := Nat.pos_of_mul_pos_right (hq ▸ hpos)
  rw [hq, Nat.mul_left_comm j, Nat.add_mul_div_left _ _ hk,
    Nat.add_mul, Nat.mul_comm (j * q)]
  omega

theorem word_ne_zero_iff (h : Filled width words (d + 1) p m) (hp : p ≠ 0) {j : Nat}
    (hj : j < width) : words p j ≠ 0 ↔ j * width ^ d < m := by
  have hwidth : 0 < width := by omega
  have hroot := h.child hp hj d le_rfl 0 (Nat.pow_pos hwidth)
  rw [nodeAt_top le_rfl, Nat.zero_div, Nat.zero_mul] at hroot
  rw [hroot]
  omega

theorem root_ne_zero (h : Filled width words d p m) (hwidth : 0 < width) (hm : 0 < m) : p ≠ 0 := by
  have htop := h.node_ne_zero le_rfl (Nat.pow_pos hwidth) hm
  rwa [nodeAt_top le_rfl] at htop

end Filled

/-! ## The order of a recursive walk -/

section

variable (width : Nat) (words : A → Nat → A)

/-- A tree, children before their parent; the words of a node count up to the first zero. -/
def postorder : Nat → A → List A
  | 0, p => [p]
  | d + 1, p =>
      (((List.range' 0 width).map (words p)).takeWhile (· ≠ 0)).flatMap (postorder d) ++ [p]

end

private theorem coe_flatMap_takeWhile {order : A → List A} {gathered : A → Multiset A}
    (f : Nat → A) (hzero : gathered 0 = 0) {count index : Nat}
    (hstop : ∀ i j, index ≤ i → i ≤ j → j < index + count → f i = 0 → f j = 0)
    (hsame : ∀ i, index ≤ i → i < index + count → f i ≠ 0 →
      (order (f i) : Multiset A) = gathered (f i)) :
    (((((List.range' index count).map f).takeWhile (· ≠ 0)).flatMap order : List A) :
        Multiset A) = ∑ i ∈ Finset.range count, gathered (f (index + i)) := by
  induction count generalizing index with
  | zero => rfl
  | succ count ih =>
      rw [List.range'_succ, List.map_cons]
      by_cases hf : f index = 0
      · rw [List.takeWhile_cons_of_neg (by simp [hf]), Finset.sum_eq_zero]
        · rfl
        · intro i hi
          have hi := Finset.mem_range.mp hi
          rw [hstop index (index + i) le_rfl (by omega) (by omega) hf, hzero]
      · rw [List.takeWhile_cons_of_pos (by simp [hf]), List.flatMap_cons, ← Multiset.coe_add,
          ih (fun i j hi hij hj => hstop i j (by omega) hij (by omega))
            (fun i hi hlt => hsame i (by omega) (by omega)),
          hsame index le_rfl (by omega) hf, Finset.sum_range_succ', Nat.add_zero, add_comm]
        simp only [Nat.add_assoc, Nat.add_comm 1]
        rfl

/-- In a tree without gaps the walk meets every cell. -/
theorem coe_postorder {d m : Nat} {p : A} (h : Filled width words d p m) (hwidth : 0 < width)
    (hm : 0 < m) : (postorder width words d p : Multiset A) = cells width words d p := by
  induction d generalizing p m with
  | zero =>
      rw [postorder, cells_leaf, cell_of_ne (h.root_ne_zero hwidth hm)]
      rfl
  | succ d ih =>
      have hp := h.root_ne_zero hwidth hm
      rw [postorder, ← Multiset.coe_add, cells_succ hp,
        coe_flatMap_takeWhile (words p) (cells_zero d)]
      · simp only [Nat.zero_add]
        rw [add_comm]
        rfl
      · intro i j _ hij hj hzero
        by_contra hne
        have hlt := (h.word_ne_zero_iff hp (by omega)).mp hne
        exact (h.word_ne_zero_iff hp (by omega)).mpr
          (Nat.lt_of_le_of_lt (Nat.mul_le_mul_right _ hij) hlt) hzero
      · intro i _ hi hne
        have hlt := (h.word_ne_zero_iff hp (by omega)).mp hne
        exact ih (h.child hp (by omega)) (by omega)

end PointerTree

end AltFs
