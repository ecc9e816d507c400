import Mathlib.Algebra.BigOperators.Group.Finset.Basic
import Mathlib.Algebra.Order.Group.Multiset

/-!
# Free lists that are stored in the free cells themselves

A memory gives every address an array of words; the address `0` is the null
link.  A chain cell keeps the next chain cell in word 0 and up to `capacity`
further free addresses in the words after it.  `FreeChain` relates the first
chain cell to the multiset of all free addresses.
-/

namespace AltFs

variable {A : Type} [DecidableEq A] [Zero A]

/-- The addresses an address stands for: itself, or none for the null link. -/
def cell (address : A) : Multiset A := if address = 0 then 0 else {address}

@[simp] theorem cell_zero : cell (0 : A) = 0 := by simp [cell]

theorem cell_of_ne {address : A} (h : address ≠ 0) : cell address = {address} := by
  simp [cell, h]

theorem mem_cell {a address : A} : a ∈ cell address ↔ address ≠ 0 ∧ a = address := by
  by_cases h : address = 0 <;> simp [cell, h]

/-- Changing one summand changes the sum by that summand. -/
theorem sum_add_of_eq_off {ι M : Type} [DecidableEq ι] [AddCommMonoid M] {s : Finset ι}
    {f g : ι → M} {j : ι} (hj : j ∈ s) (h : ∀ i ∈ s, i ≠ j → g i = f i) :
    ∑ i ∈ s, g i + f j = ∑ i ∈ s, f i + g j := by
  rw [← Finset.add_sum_erase s f hj, ← Finset.add_sum_erase s g hj]
  have hrest : ∑ i ∈ s.erase j, g i = ∑ i ∈ s.erase j, f i :=
    Finset.sum_congr rfl fun i hi =>
      h i (Finset.mem_of_mem_erase hi) (Finset.ne_of_mem_erase hi)
  rw [hrest, add_right_comm, add_comm (g j) (f j), add_right_comm]

theorem mem_sum_cell {n : Nat} {f : Nat → A} {a : A} :
    a ∈ ∑ i ∈ Finset.range n, cell (f i) ↔ a ≠ 0 ∧ ∃ i < n, f i = a := by
  simp only [Multiset.mem_sum, Finset.mem_range, mem_cell]
  constructor
  · rintro ⟨i, hi, hne, rfl⟩
    exact ⟨hne, i, hi, rfl⟩
  · rintro ⟨hne, i, hi, rfl⟩
    exact ⟨i, hi, hne, rfl⟩

/-- Cells whose first `k` addresses are set and whose others are null. -/
theorem sum_cell_eq_map {k n : Nat} {f : Nat → A} (hk : k ≤ n) (h : ∀ i < n, f i ≠ 0 ↔ i < k) :
    ∑ i ∈ Finset.range n, cell (f i) = ((List.range k).map f : List A) := by
  induction n generalizing k with
  | zero =>
      obtain rfl : k = 0 := by omega
      rfl
  | succ n ih =>
      rw [Finset.sum_range_succ]
      by_cases hlast : k ≤ n
      · have hzero : f n = 0 := by
          by_contra hne
          have := (h n (by omega)).mp hne
          omega
        rw [hzero, cell_zero, add_zero]
        exact ih hlast fun i hi => h i (by omega)
      · obtain rfl : k = n + 1 := by omega
        have hne := (h n (by omega)).mpr (by omega)
        rw [ih le_rfl fun i hi => ⟨fun _ => hi, fun _ => (h i (by omega)).mpr (by omega)⟩,
          cell_of_ne hne, List.range_succ, List.map_append, ← Multiset.coe_add]
        rfl

/-- Addresses in a row that are set, apart from the others. -/
theorem exists_sum_cell_eq {start count n : Nat} {f : Nat → A} (hfit : start + count ≤ n)
    (h : ∀ j < count, f (start + j) ≠ 0) :
    ∃ others, ∑ i ∈ Finset.range n, cell (f i) =
      (((List.range' start count).map f : List A) : Multiset A) + others := by
  have hmap := sum_cell_eq_map (f := fun j => f (start + j)) (le_refl count) fun j hj =>
    ⟨fun _ => hj, fun _ => h j hj⟩
  have hlist : (List.range count).map (fun j => f (start + j)) = (List.range' start count).map f := by
    rw [List.range'_eq_map_range, List.map_map]
    rfl
  rw [hlist] at hmap
  obtain ⟨extra, rfl⟩ := Nat.exists_eq_add_of_le hfit
  refine ⟨∑ i ∈ Finset.range start, cell (f i) +
    ∑ i ∈ Finset.range extra, cell (f (start + count + i)), ?_⟩
  rw [Finset.sum_range_add, Finset.sum_range_add, hmap, add_assoc, add_left_comm]

/-- Cells that repeat no address but the null link. -/
theorem nodup_sum_cell {n : Nat} {f : Nat → A}
    (h : ∀ i < n, ∀ j < n, f i ≠ 0 → f i = f j → i = j) :
    (∑ i ∈ Finset.range n, cell (f i)).Nodup := by
  induction n with
  | zero => simp
  | succ n ih =>
      rw [Finset.sum_range_succ]
      refine Multiset.nodup_add.mpr
        ⟨ih fun i hi j hj => h i (by omega) j (by omega), ?_, ?_⟩
      · by_cases hzero : f n = 0
        · simp [hzero]
        · simp [cell_of_ne hzero]
      · rw [Multiset.disjoint_left]
        intro a ha hcell
        obtain ⟨hne, i, hi, rfl⟩ := mem_sum_cell.mp ha
        have heq := (mem_cell.mp hcell).2
        exact absurd (h i (by omega) n (by omega) hne heq) (by omega)

theorem eq_of_nodup_sum_cell {n i j : Nat} {f : Nat → A}
    (h : (∑ i ∈ Finset.range n, cell (f i)).Nodup) (hi : i < n) (hj : j < n) (hne : f i ≠ 0)
    (heq : f i = f j) : i = j := by
  by_contra hij
  rw [← Finset.add_sum_erase _ _ (Finset.mem_range.mpr hi)] at h
  have hmem : f i ∈ ∑ k ∈ (Finset.range n).erase i, cell (f k) :=
    Multiset.mem_sum.mpr ⟨j, Finset.mem_erase.mpr ⟨fun h => hij h.symm, Finset.mem_range.mpr hj⟩,
      mem_cell.mpr ⟨heq ▸ hne, heq⟩⟩
  exact Multiset.disjoint_left.mp (Multiset.nodup_add.mp h).2.2 (mem_cell.mpr ⟨hne, rfl⟩) hmem

/-- The free addresses in the slots `1, …, capacity` of a chain cell. -/
def slots (capacity : Nat) (words : A → Nat → A) (head : A) : Multiset A :=
  ∑ i ∈ Finset.range capacity, cell (words head (i + 1))

inductive FreeChain (capacity : Nat) (words : A → Nat → A) : A → Multiset A → Prop
  | nil : FreeChain capacity words 0 0
  | cons {head : A} {rest : Multiset A} (hhead : head ≠ 0)
      (hrest : FreeChain capacity words (words head 0) rest) :
      FreeChain capacity words head (head ::ₘ (slots capacity words head + rest))

namespace FreeChain

variable {capacity : Nat} {words words' : A → Nat → A} {head : A} {free : Multiset A}

theorem eq_zero_iff (h : FreeChain capacity words head free) : head = 0 ↔ free = 0 := by
  cases h with
  | nil => simp
  | cons hhead _ => simp [hhead]

theorem slots_congr (h : ∀ i, words' head i = words head i) :
    slots capacity words' head = slots capacity words head := by
  simp [slots, h]

/-- A chain depends only on the words of its own cells. -/
theorem congr (h : FreeChain capacity words head free)
    (hwords : ∀ a ∈ free, ∀ i, words' a i = words a i) :
    FreeChain capacity words' head free := by
  induction h with
  | nil => exact .nil
  | @cons head rest hhead hrest ih =>
      have hself : ∀ i, words' head i = words head i :=
        fun i => hwords head (Multiset.mem_cons_self _ _) i
      rw [← slots_congr hself]
      refine .cons hhead ?_
      rw [hself 0]
      exact ih fun a ha => hwords a (Multiset.mem_cons_of_mem (Multiset.mem_add.mpr (.inr ha)))

/-- A cell without a free address is a link only. -/
theorem cons_unused {rest : Multiset A} (hhead : head ≠ 0)
    (hslots : ∀ i < capacity, words head (i + 1) = 0)
    (hrest : FreeChain capacity words (words head 0) rest) :
    FreeChain capacity words head (head ::ₘ rest) := by
  have hnone : slots capacity words head = 0 := by
    refine Finset.sum_eq_zero fun i hi => ?_
    rw [hslots i (Finset.mem_range.mp hi), cell_zero]
  have hchain := FreeChain.cons hhead hrest
  rwa [hnone, zero_add] at hchain

theorem unique {free' : Multiset A} (h : FreeChain capacity words head free)
    (h' : FreeChain capacity words head free') : free' = free := by
  induction h generalizing free' with
  | nil =>
      cases h' with
      | nil => rfl
      | cons hhead _ => exact absurd rfl hhead
  | cons hhead _ ih =>
      cases h' with
      | nil => exact absurd rfl hhead
      | cons _ hrest' => rw [ih hrest']

theorem cons_inv (h : FreeChain capacity words head free) (hhead : head ≠ 0) :
    ∃ rest, FreeChain capacity words (words head 0) rest ∧
      free = head ::ₘ (slots capacity words head + rest) := by
  cases h with
  | nil => exact absurd rfl hhead
  | cons _ hrest => exact ⟨_, hrest, rfl⟩

theorem head_mem (h : FreeChain capacity words head free) (hhead : head ≠ 0) :
    head ∈ free := by
  obtain ⟨rest, -, rfl⟩ := h.cons_inv hhead
  exact Multiset.mem_cons_self _ _

theorem mem_slots {slot : Nat} (hslot : slot < capacity) (hused : words head (slot + 1) ≠ 0) :
    words head (slot + 1) ∈ slots capacity words head := by
  rw [slots, Multiset.mem_sum]
  exact ⟨slot, Finset.mem_range.mpr hslot, mem_cell.mpr ⟨hused, rfl⟩⟩

theorem slot_mem (h : FreeChain capacity words head free) (hhead : head ≠ 0) {slot : Nat}
    (hslot : slot < capacity) (hused : words head (slot + 1) ≠ 0) :
    words head (slot + 1) ∈ free := by
  obtain ⟨rest, -, rfl⟩ := h.cons_inv hhead
  exact Multiset.mem_cons_of_mem (Multiset.mem_add.mpr (.inl (mem_slots hslot hused)))

theorem slot_ne_head (h : FreeChain capacity words head free) (hhead : head ≠ 0)
    (hnodup : free.Nodup) {slot : Nat} (hslot : slot < capacity)
    (hused : words head (slot + 1) ≠ 0) : words head (slot + 1) ≠ head := by
  obtain ⟨rest, -, rfl⟩ := h.cons_inv hhead
  intro heq
  refine (Multiset.nodup_cons.mp hnodup).1 (Multiset.mem_add.mpr (.inl ?_))
  have hmem := mem_slots hslot hused
  rwa [heq] at hmem

/-- Replace the words of the head cell; the rest of the chain stays. -/
theorem replace_head (h : FreeChain capacity words head free) (hhead : head ≠ 0)
    (hnodup : free.Nodup) (hlink : words' head 0 = words head 0)
    (hframe : ∀ a ∈ free, a ≠ head → ∀ i, words' a i = words a i) :
    ∃ rest, free = head ::ₘ (slots capacity words head + rest) ∧
      FreeChain capacity words' head (head ::ₘ (slots capacity words' head + rest)) := by
  obtain ⟨rest, hrest, rfl⟩ := h.cons_inv hhead
  refine ⟨rest, rfl, .cons hhead ?_⟩
  rw [hlink]
  refine hrest.congr fun a ha => ?_
  have hmem : a ∈ slots capacity words head + rest := Multiset.mem_add.mpr (.inr ha)
  refine hframe a (Multiset.mem_cons_of_mem hmem) ?_
  rintro rfl
  exact (Multiset.nodup_cons.mp hnodup).1 hmem

theorem slots_set (words' : A → Nat → A) {slot : Nat} {value : A} (hslot : slot < capacity)
    (hset : words' head (slot + 1) = value)
    (hothers : ∀ i, i ≠ slot + 1 → words' head i = words head i) :
    slots capacity words' head + cell (words head (slot + 1)) =
      slots capacity words head + cell value := by
  have h := sum_add_of_eq_off (s := Finset.range capacity)
    (f := fun i => cell (words head (i + 1))) (g := fun i => cell (words' head (i + 1)))
    (Finset.mem_range.mpr hslot) (fun i _ hi => by
      show cell _ = cell _
      rw [hothers (i + 1) (by omega)])
  rwa [hset] at h

/-- Taking the address out of a non-empty slot of the head. -/
theorem takeSlot (words' : A → Nat → A) (h : FreeChain capacity words head free) (hhead : head ≠ 0)
    (hnodup : free.Nodup) {slot : Nat} (hslot : slot < capacity)
    (hused : words head (slot + 1) ≠ 0) (hset : words' head (slot + 1) = 0)
    (hothers : ∀ i, i ≠ slot + 1 → words' head i = words head i)
    (hframe : ∀ a ∈ free, a ≠ head → a ≠ words head (slot + 1) →
      ∀ i, words' a i = words a i) :
    ∃ free', free = words head (slot + 1) ::ₘ free' ∧
      FreeChain capacity words' head free' := by
  obtain ⟨rest, hrest, rfl⟩ := h.cons_inv hhead
  have hslots := slots_set words' hslot hset hothers
  rw [cell_zero, add_zero, cell_of_ne hused] at hslots
  refine ⟨head ::ₘ (slots capacity words' head + rest), ?_, .cons hhead ?_⟩
  · rw [← hslots, Multiset.cons_swap]
    congr 1
    rw [← Multiset.singleton_add, ← add_assoc, add_comm {_}]
  · rw [hothers 0 (by omega)]
    refine hrest.congr fun a ha => ?_
    have hmem : a ∈ slots capacity words head + rest := Multiset.mem_add.mpr (.inr ha)
    refine hframe a (Multiset.mem_cons_of_mem hmem) ?_ ?_
    · rintro rfl
      exact (Multiset.nodup_cons.mp hnodup).1 hmem
    · rintro rfl
      have htail := (Multiset.nodup_cons.mp hnodup).2
      rw [← hslots] at htail
      have hdisjoint := (Multiset.nodup_add.mp htail).2.2
      exact Multiset.disjoint_left.mp hdisjoint
        (Multiset.mem_add.mpr (.inr (Multiset.mem_singleton_self _))) ha

/-- Taking the head itself when its slots are empty. -/
theorem takeHead (words' : A → Nat → A) (h : FreeChain capacity words head free) (hhead : head ≠ 0)
    (hnodup : free.Nodup) (hempty : ∀ i < capacity, words head (i + 1) = 0)
    (hframe : ∀ a ∈ free, a ≠ head → ∀ i, words' a i = words a i) :
    ∃ free', free = head ::ₘ free' ∧
      FreeChain capacity words' (words head 0) free' := by
  obtain ⟨rest, hrest, rfl⟩ := h.cons_inv hhead
  have hslots : slots capacity words head = 0 := by
    rw [slots, Finset.sum_eq_zero]
    intro i hi
    rw [hempty i (Finset.mem_range.mp hi), cell_zero]
  rw [hslots, zero_add] at hnodup hframe ⊢
  refine ⟨rest, rfl, hrest.congr fun a ha => ?_⟩
  refine hframe a (Multiset.mem_cons_of_mem ha) ?_
  rintro rfl
  exact (Multiset.nodup_cons.mp hnodup).1 ha

/-- Storing a new address in an empty slot of the head. -/
theorem putSlot (words' : A → Nat → A) (h : FreeChain capacity words head free) (hhead : head ≠ 0)
    (hnodup : free.Nodup) {slot : Nat} {value : A} (hslot : slot < capacity)
    (hvalue : value ≠ 0) (hunused : words head (slot + 1) = 0)
    (hset : words' head (slot + 1) = value)
    (hothers : ∀ i, i ≠ slot + 1 → words' head i = words head i)
    (hframe : ∀ a ∈ free, a ≠ head → ∀ i, words' a i = words a i) :
    FreeChain capacity words' head (value ::ₘ free) := by
  obtain ⟨rest, rfl, hchain⟩ :=
    h.replace_head hhead hnodup (hothers 0 (by omega)) hframe
  have hslots := slots_set words' hslot hset hothers
  rw [hunused, cell_zero, add_zero, cell_of_ne hvalue] at hslots
  rw [hslots] at hchain
  convert hchain using 1
  rw [Multiset.cons_swap]
  congr 1
  rw [← Multiset.singleton_add, ← add_assoc, add_comm {_}]

/-- A new head without slots in front of the chain. -/
theorem pushHead (words' : A → Nat → A) (h : FreeChain capacity words head free) {value : A}
    (hvalue : value ≠ 0)
    (hlink : words' value 0 = head) (hempty : ∀ i < capacity, words' value (i + 1) = 0)
    (hframe : ∀ a ∈ free, ∀ i, words' a i = words a i) :
    FreeChain capacity words' value (value ::ₘ free) := by
  have hslots : slots capacity words' value = 0 := by
    rw [slots, Finset.sum_eq_zero]
    intro i hi
    rw [hempty i (Finset.mem_range.mp hi), cell_zero]
  have hchain := @FreeChain.cons _ _ _ capacity words' _ free hvalue
    (by rw [hlink]; exact h.congr hframe)
  rwa [hslots, zero_add] at hchain

end FreeChain

end AltFs
