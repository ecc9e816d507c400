import Mathlib.Data.List.GetD

/-!
# Sequences that are read and written in ranges

`put fill content offset items` is `content` with `items` put in at `offset`,
where a gap behind the end is filled up, and `slice` is a range of a sequence
as far as there is one.
-/

namespace AltFs

variable {α : Type}

def put (fill : α) (content : List α) (offset : Nat) (items : List α) : List α :=
  content.take offset ++ List.replicate (offset - content.length) fill ++ items ++
    content.drop (offset + items.length)

def slice (content : List α) (offset length : Nat) : List α := (content.drop offset).take length

section

variable {fill : α} {content items : List α} {offset length i : Nat}

theorem length_put (h : items ≠ []) :
    (put fill content offset items).length = max content.length (offset + items.length) := by
  have hpos := List.length_pos_iff.mpr h
  simp only [put, List.length_append, List.length_take, List.length_replicate, List.length_drop]
  omega

/-- What stands at a position: an item, or what stood there before, or the filling. -/
theorem getD_put : (put fill content offset items).getD i fill =
    if offset ≤ i ∧ i < offset + items.length then items.getD (i - offset) fill
    else content.getD i fill := by
  have hlength : (content.take offset ++ List.replicate (offset - content.length) fill).length =
      offset := by
    rw [List.length_append, List.length_take, List.length_replicate]
    omega
  rw [put, List.append_assoc]
  rcases Nat.lt_or_ge i offset with hlow | hlow
  · rw [List.getD_append _ _ _ _ (by omega), if_neg (by omega)]
    by_cases hold : i < content.length
    · rw [List.getD_append _ _ _ _ (by rw [List.length_take]; omega), List.getD_eq_getElem?_getD,
        List.getElem?_take_of_lt hlow, List.getD_eq_getElem?_getD]
    · rw [List.getD_append_right _ _ _ _ (by rw [List.length_take]; omega),
        List.getD_eq_default content _ (by omega), List.getD_eq_getElem?_getD,
        List.getElem?_replicate]
      split
      · rfl
      · rfl
  · rw [List.getD_append_right _ _ _ _ (by omega), hlength]
    by_cases hin : i - offset < items.length
    · rw [List.getD_append _ _ _ _ hin, if_pos (by omega)]
    · rw [List.getD_append_right _ _ _ _ (by omega), if_neg (by omega),
        List.getD_eq_getElem?_getD, List.getElem?_drop, List.getD_eq_getElem?_getD]
      congr 2
      omega

theorem length_slice : (slice content offset length).length = min length (content.length - offset) := by
  rw [slice, List.length_take, List.length_drop]

theorem getD_slice (hi : i < length) :
    (slice content offset length).getD i fill = content.getD (offset + i) fill := by
  rw [slice, List.getD_eq_getElem?_getD, List.getElem?_take_of_lt hi, List.getElem?_drop,
    List.getD_eq_getElem?_getD]

/-- Two sequences of one length with the same items at each position are equal. -/
theorem eq_of_getD {first second : List α} (fill : α) (hlength : first.length = second.length)
    (h : ∀ i < first.length, first.getD i fill = second.getD i fill) : first = second := by
  apply List.ext_getElem hlength
  intro i hi hi'
  have hsame := h i hi
  rwa [List.getD_eq_getElem _ _ hi, List.getD_eq_getElem _ _ hi'] at hsame

/-- Items that are put in behind one another. -/
theorem put_put {more : List α} (h : items ≠ []) (hmore : more ≠ []) :
    put fill (put fill content offset items) (offset + items.length) more =
      put fill content offset (items ++ more) := by
  have hboth : items ++ more ≠ [] := fun heq => h (List.append_eq_nil_iff.mp heq).1
  apply eq_of_getD fill
  · rw [length_put hmore, length_put h, length_put hboth, List.length_append]
    omega
  · intro i _
    rw [getD_put, getD_put, getD_put, List.length_append]
    by_cases hback : offset + items.length ≤ i ∧ i < offset + items.length + more.length
    · rw [if_pos hback, if_pos (by omega), List.getD_append_right _ _ _ _ (by omega)]
      congr 1
      omega
    · rw [if_neg hback]
      by_cases hfront : offset ≤ i ∧ i < offset + items.length
      · rw [if_pos hfront, if_pos (by omega), List.getD_append _ _ _ _ (by omega)]
      · rw [if_neg hfront, if_neg (by omega)]

/-- What has been put in is read back. -/
theorem slice_put {start : Nat} (hlow : offset ≤ start)
    (hhigh : start + length ≤ offset + items.length) :
    slice (put fill content offset items) start length = slice items (start - offset) length := by
  by_cases hitems : items = []
  · rw [hitems, List.length_nil] at hhigh
    obtain rfl : length = 0 := by omega
    rfl
  · apply eq_of_getD fill
    · rw [length_slice, length_slice, length_put hitems]
      omega
    · intro i hi
      rw [length_slice] at hi
      rw [getD_slice (by omega), getD_slice (by omega), getD_put, if_pos (by omega)]
      congr 1
      omega

end

end AltFs
