import Mathlib.Data.List.Perm.Basic
import Mathlib.Data.Set.Card

/-!
# Association lists that represent finite maps

`Represents entries map`: no key occurs twice in `entries`, and looking a key
up in them is applying `map`.
-/

namespace AltFs

variable {κ α : Type} [BEq κ] [LawfulBEq κ]

structure Represents (entries : List (κ × α)) (map : κ → Option α) : Prop where
  nodup : (entries.map Prod.fst).Nodup
  lookup : ∀ key, entries.lookup key = map key

theorem lookup_eq_none_iff {entries : List (κ × α)} {key : κ} :
    entries.lookup key = none ↔ ∀ entry ∈ entries, entry.1 ≠ key := by
  rw [List.lookup_eq_none_iff]
  simp only [bne_iff_ne, ne_comm]

theorem lookup_eq_some_iff {entries : List (κ × α)} (h : (entries.map Prod.fst).Nodup) {key : κ}
    {value : α} : entries.lookup key = some value ↔ (key, value) ∈ entries := by
  induction entries with
  | nil => simp
  | cons entry rest ih =>
      obtain ⟨first, stored⟩ := entry
      rw [List.map_cons, List.nodup_cons] at h
      rw [List.lookup_cons, List.mem_cons]
      by_cases hkey : key = first
      · subst hkey
        have hmem : (key, value) ∉ rest := fun hmem =>
          h.1 (List.mem_map.mpr ⟨_, hmem, rfl⟩)
        simp [hmem, eq_comm]
      · have hbeq : (key == first) = false := by simpa using hkey
        simp [hbeq, ih h.2, hkey]

theorem lookup_append_ne (entries : List (κ × α)) {entry : κ × α} {key : κ} (hne : key ≠ entry.1) :
    (entries ++ [entry]).lookup key = entries.lookup key := by
  have hbeq : (key == entry.1) = false := by simpa using hne
  rw [List.lookup_append, List.lookup_cons, hbeq, List.lookup_nil, Option.or_none]

theorem lookup_eraseP_ne [DecidableEq κ] (entries : List (κ × α)) {name key : κ}
    (hne : key ≠ name) :
    (entries.eraseP fun entry => entry.1 = name).lookup key = entries.lookup key := by
  induction entries with
  | nil => rfl
  | cons entry rest ih =>
      by_cases hname : entry.1 = name
      · have hbeq : (key == entry.1) = false := by simpa [hname] using hne
        rw [List.eraseP_cons_of_pos (by simpa using hname), List.lookup_cons, hbeq]
      · rw [List.eraseP_cons_of_neg (by simpa using hname), List.lookup_cons, List.lookup_cons, ih]

/-- An entry whose key is new is found wherever it stands. -/
theorem lookup_of_perm_cons {entries entries' : List (κ × α)} {key : κ} {value : α}
    (hperm : entries'.Perm ((key, value) :: entries)) (hnew : entries.lookup key = none) :
    entries'.lookup key = some value := by
  cases hfound : entries'.lookup key with
  | none =>
      have hmem : (key, value) ∈ entries' := hperm.mem_iff.mpr List.mem_cons_self
      exact absurd rfl (lookup_eq_none_iff.mp hfound _ hmem)
  | some found =>
      obtain ⟨front, back, heq, -⟩ := List.lookup_eq_some_iff.mp hfound
      have hmem : (key, found) ∈ entries' := by simp [heq]
      rcases List.mem_cons.mp (hperm.mem_iff.mp hmem) with hsame | hold
      · cases hsame
        rfl
      · exact absurd rfl (lookup_eq_none_iff.mp hnew _ hold)

namespace Represents

variable {entries entries' : List (κ × α)} {map : κ → Option α} {key : κ} {value : α}

omit [LawfulBEq κ] in
theorem nil : Represents ([] : List (κ × α)) fun _ => none :=
  ⟨List.nodup_nil, fun _ => rfl⟩

theorem mem_iff (h : Represents entries map) : (key, value) ∈ entries ↔ map key = some value := by
  rw [← h.lookup, lookup_eq_some_iff h.nodup]

/-- The order of the entries does not matter. -/
theorem perm (h : Represents entries map) (hperm : entries'.Perm entries) :
    Represents entries' map := by
  have hnodup := (hperm.map Prod.fst).nodup_iff.mpr h.nodup
  refine ⟨hnodup, fun key => ?_⟩
  rw [← h.lookup, Option.ext_iff]
  intro value
  rw [lookup_eq_some_iff hnodup, lookup_eq_some_iff h.nodup, hperm.mem_iff]

section Update

variable [DecidableEq κ]

theorem cons (h : Represents entries map) (hkey : map key = none) :
    Represents ((key, value) :: entries) (Function.update map key (some value)) := by
  have hnew : ∀ entry ∈ entries, entry.1 ≠ key := by
    rw [← lookup_eq_none_iff, h.lookup, hkey]
  refine ⟨List.nodup_cons.mpr ⟨fun hmem => ?_, h.nodup⟩, fun other => ?_⟩
  · obtain ⟨entry, hentry, heq⟩ := List.mem_map.mp hmem
    exact hnew entry hentry heq
  · rw [List.lookup_cons, Function.update_apply, h.lookup]
    by_cases heq : other = key
    · simp [heq]
    · have hbeq : (other == key) = false := by simpa using heq
      simp [heq, hbeq]

theorem tail (h : Represents ((key, value) :: entries) map) :
    Represents entries (Function.update map key none) := by
  have hnodup := List.nodup_cons.mp h.nodup
  refine ⟨hnodup.2, fun other => ?_⟩
  rw [Function.update_apply]
  split
  · next heq =>
      rw [heq, lookup_eq_none_iff]
      exact fun entry hentry hsame => hnodup.1 (List.mem_map.mpr ⟨entry, hentry, hsame⟩)
  · next hne =>
      have hbeq : (other == key) = false := by simpa using hne
      rw [← h.lookup, List.lookup_cons, hbeq]

end Update

theorem isSome_iff (h : Represents entries map) (key : κ) :
    (map key).isSome = true ↔ key ∈ entries.map Prod.fst := by
  simp [Option.isSome_iff_exists, h.mem_iff]

/-- A key with a value stands once among the entries, any other key not at all. -/
theorem count_key (h : Represents entries map) (key : κ) :
    (entries.map Prod.fst).count key = if (map key).isSome then 1 else 0 := by
  rw [h.nodup.count]
  simp only [h.isSome_iff]

/-- As many entries as there are keys with a value. -/
theorem ncard_keys (h : Represents entries map) :
    {key | (map key).isSome}.ncard = entries.length := by
  classical
  have hset : {key | (map key).isSome} = ((entries.map Prod.fst).toFinset : Set κ) := by
    ext key
    simp only [Set.mem_ofPred_eq, Option.isSome_iff_exists, ← h.mem_iff, List.coe_toFinset,
      List.mem_map, Prod.exists, exists_and_right, exists_eq_right]
  rw [hset, Set.ncard_coe_finset, List.toFinset_card_of_nodup h.nodup, List.length_map]

end Represents

/-! ## Lists of lists -/

section Flatten

variable {β : Type} {parts : List (List β)} {i : Nat} {part : List β} {b : β}

theorem flatten_perm_eraseIdx (parts : List (List β)) (hi : i < parts.length) :
    parts.flatten.Perm (parts[i] ++ (parts.eraseIdx i).flatten) := by
  induction parts generalizing i with
  | nil => simp at hi
  | cons first rest ih =>
      cases i with
      | zero => simp
      | succ i =>
          have hrest := ih (i := i) (by simpa using hi)
          simp only [List.flatten_cons, List.getElem_cons_succ, List.eraseIdx_cons_succ]
          exact (hrest.append_left first).trans (by
            rw [← List.append_assoc, ← List.append_assoc]
            exact List.perm_append_comm.append_right _)

theorem flatten_set_perm (hi : i < parts.length) :
    (parts.set i part).flatten.Perm (part ++ (parts.eraseIdx i).flatten) := by
  have := flatten_perm_eraseIdx (parts.set i part) (i := i) (by simpa using hi)
  rwa [List.getElem_set_self, List.eraseIdx_set_eq] at this

/-- One more element in one of the lists. -/
theorem flatten_set_insert (hi : i < parts.length) (hpart : part.Perm (b :: parts[i])) :
    (parts.set i part).flatten.Perm (b :: parts.flatten) :=
  (flatten_set_perm hi).trans
    ((hpart.append_right _).trans ((flatten_perm_eraseIdx parts hi).symm.cons b))

/-- One element less in one of the lists. -/
theorem flatten_set_remove (hi : i < parts.length) (hpart : parts[i].Perm (b :: part)) :
    parts.flatten.Perm (b :: (parts.set i part).flatten) :=
  (flatten_perm_eraseIdx parts hi).trans
    ((hpart.append_right _).trans ((flatten_set_perm hi).symm.cons b))

omit [LawfulBEq κ] in
/-- A list that says the same about a key takes the place of another one. -/
theorem lookup_flatten_set {parts : List (List (κ × α))} {part : List (κ × α)} {key : κ}
    (hi : i < parts.length) (hpart : part.lookup key = parts[i].lookup key) :
    (parts.set i part).flatten.lookup key = parts.flatten.lookup key := by
  induction parts generalizing i with
  | nil => simp at hi
  | cons first rest ih =>
      cases i with
      | zero =>
          rw [List.set_cons_zero, List.flatten_cons, List.flatten_cons, List.lookup_append,
            List.lookup_append, hpart, List.getElem_cons_zero]
      | succ i =>
          rw [List.set_cons_succ, List.flatten_cons, List.flatten_cons, List.lookup_append,
            List.lookup_append, ih (by simpa using hi) hpart]

end Flatten

end AltFs
