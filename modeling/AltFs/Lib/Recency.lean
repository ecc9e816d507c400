import Mathlib.Data.Finset.Card
import Mathlib.Data.Finset.Dedup
import Mathlib.Data.List.Nodup
import Mathlib.Data.Set.Insert

/-!
# Least-recently-used lists

`usedKey capacity keys key` is the list of the `capacity` most recently used
keys after a use of `key`; `since key` are the other keys used since the last
use of `key`.  A key that is no longer on the list has seen `capacity` others.
-/

namespace AltFs

variable {κ : Type} [DecidableEq κ]

/-- The keys used since, after a use of `key`. -/
def touched (since : κ → Finset κ) (key : κ) : κ → Finset κ := fun other =>
  if other = key then ∅ else insert key (since other)

def usedKey (capacity : Nat) (keys : List κ) (key : κ) : List κ :=
  (key :: keys.erase key).take capacity

variable {capacity : Nat} {keys first rest : List κ} {since : κ → Finset κ} {key other : κ}
  {held : Set κ}

theorem touched_of_ne (hne : other ≠ key) : touched since key other = insert key (since other) :=
  if_neg hne

theorem usedKey_middle (hfirst : key ∉ first) (hlength : (first ++ key :: rest).length ≤ capacity) :
    usedKey capacity (first ++ key :: rest) key = key :: (first ++ rest) := by
  rw [usedKey, List.erase_append_right _ hfirst, List.erase_cons_head]
  apply List.take_of_length_le
  simpa [Nat.add_assoc] using hlength

theorem usedKey_roomy (hkey : key ∉ keys) (hlength : keys.length < capacity) :
    usedKey capacity keys key = key :: keys := by
  rw [usedKey, List.erase_of_not_mem hkey]
  apply List.take_of_length_le
  rw [List.length_cons]
  omega

theorem usedKey_full (hkey : key ∉ keys) (hpos : 0 < capacity) (hlength : keys.length = capacity) :
    usedKey capacity keys key = key :: keys.dropLast := by
  cases capacity with
  | zero => cases hpos
  | succ capacity =>
      rw [usedKey, List.erase_of_not_mem hkey, List.take_succ_cons, List.dropLast_eq_take, hlength,
        Nat.add_sub_cancel]

/-- The keys in front of a key on the list are among those used since. -/
structure RecencyList (capacity : Nat) (keys : List κ) (since : κ → Finset κ) (held : Set κ) :
    Prop where
  nodup : keys.Nodup
  ahead : keys.Pairwise fun first later => first ∈ since later
  held : ∀ key ∈ held, key ∈ keys ∨ capacity ≤ (since key).card

/-- A key that does not fit any more has as many others in front of it as the list holds. -/
theorem mem_take_or_le_card (hnodup : keys.Nodup)
    (hahead : keys.Pairwise fun first later => first ∈ since later) (hkey : key ∈ keys) :
    key ∈ keys.take capacity ∨ capacity ≤ (since key).card := by
  by_cases hkept : key ∈ keys.take capacity
  · exact .inl hkept
  · right
    have hdropped : key ∈ keys.drop capacity := by
      rw [← List.take_append_drop capacity keys] at hkey
      exact (List.mem_append.mp hkey).resolve_left hkept
    have hlength : capacity ≤ keys.length := by
      have := List.length_pos_of_mem hdropped
      rw [List.length_drop] at this
      omega
    have hsubset : (keys.take capacity).toFinset ⊆ since key := by
      intro first hfirst
      rw [← List.take_append_drop capacity keys] at hahead
      exact (List.pairwise_append.mp hahead).2.2 first (List.mem_toFinset.mp hfirst) key hdropped
    calc capacity = (keys.take capacity).toFinset.card := by
          rw [List.toFinset_card_of_nodup (hnodup.sublist (List.take_sublist _ _)), List.length_take,
            Nat.min_eq_left hlength]
      _ ≤ (since key).card := Finset.card_le_card hsubset

theorem pairwise_touched (hnodup : keys.Nodup)
    (hahead : keys.Pairwise fun first later => first ∈ since later) (key : κ) :
    (key :: keys.erase key).Pairwise fun first later => first ∈ touched since key later := by
  apply List.pairwise_cons.mpr
  constructor
  · intro later hlater
    rw [touched_of_ne (hnodup.mem_erase_iff.mp hlater).1]
    exact Finset.mem_insert_self _ _
  · have herased := hahead.sublist (List.erase_sublist (a := key))
    apply herased.imp_of_mem
    intro first later _ hlater hmem
    rw [touched_of_ne (hnodup.mem_erase_iff.mp hlater).1]
    exact Finset.mem_insert_of_mem hmem

namespace RecencyList

/-- Every use keeps the invariant; the key used is held from then on. -/
theorem use (h : RecencyList capacity keys since held) (key : κ) :
    RecencyList capacity (usedKey capacity keys key) (touched since key) (insert key held) := by
  have hnodup : (key :: keys.erase key).Nodup :=
    List.nodup_cons.mpr ⟨h.nodup.not_mem_erase, h.nodup.erase key⟩
  have hahead := pairwise_touched h.nodup h.ahead key
  refine ⟨hnodup.sublist (List.take_sublist _ _), hahead.sublist (List.take_sublist _ _), ?_⟩
  intro other hother
  have hmem : other ∈ key :: keys.erase key ∨ capacity ≤ (touched since key other).card := by
    by_cases hne : other = key
    · exact .inl (by simp [hne])
    · rcases h.held other (hother.resolve_left hne) with hmem | hcard
      · exact .inl (List.mem_cons_of_mem _ ((List.mem_erase_of_ne hne).mpr hmem))
      · right
        rw [touched_of_ne hne]
        exact hcard.trans (Finset.card_le_card (Finset.subset_insert _ _))
  rcases hmem with hmem | hcard
  · exact mem_take_or_le_card hnodup hahead hmem
  · exact .inr hcard

omit [DecidableEq κ] in
theorem mono {held' : Set κ} (h : RecencyList capacity keys since held) (hle : held' ⊆ held) :
    RecencyList capacity keys since held' where
  nodup := h.nodup
  ahead := h.ahead
  held := fun key hkey => h.held key (hle hkey)

omit [DecidableEq κ] in
theorem mem_of_card_lt (h : RecencyList capacity keys since held) (hkey : key ∈ held)
    (hcard : (since key).card < capacity) : key ∈ keys :=
  (h.held key hkey).resolve_right (by omega)

end RecencyList

end AltFs
