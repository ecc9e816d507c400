import AltFs.DirectoryOps

/-!
# The records of a directory block

`RecordsAt buffer position entries`: from `position` on the block holds
exactly one record for each entry, without gaps, and then zeros.
-/

namespace AltFs

/-- A name and the inode number it stands for. -/
abbrev Entry : Type := CString × Int64

def recordSize (entry : Entry) : Nat := recordFixedLen + entry.1.length + 1

structure RecordAt (buffer : Block) (position : Nat) (entry : Entry) : Prop where
  len : recordLen buffer position = recordSize entry
  inum : recordInum buffer position = entry.2
  name : ∀ i (h : i < entry.1.length),
    buffer.byteAt (position + recordFixedLen + i) = entry.1[i].val
  terminator : buffer.byteAt (position + recordFixedLen + entry.1.length) = 0
  short : entry.1.length ≤ maxFileNameLength

def RecordsAt (buffer : Block) : Nat → List Entry → Prop
  | position, [] => position ≤ blockSize ∧ ∀ i, position ≤ i → buffer.byteAt i = 0
  | position, entry :: rest =>
      RecordAt buffer position entry ∧ RecordsAt buffer (position + recordSize entry) rest

/-- The length of the records of the entries. -/
def recordsSize (entries : List Entry) : Nat := (entries.map recordSize).sum

/-- The position of the first record with the name. -/
def recordPosition (name : CString) : Nat → List Entry → Option Nat
  | _, [] => none
  | position, entry :: rest =>
      if entry.1 = name then some position
      else recordPosition name (position + recordSize entry) rest

@[simp] theorem recordsSize_nil : recordsSize [] = 0 := rfl

@[simp] theorem recordsSize_cons (entry : Entry) (rest : List Entry) :
    recordsSize (entry :: rest) = recordSize entry + recordsSize rest := rfl

theorem recordSize_pos (entry : Entry) : recordFixedLen < recordSize entry := by
  simp only [recordSize]
  omega

theorem length_le_recordsSize (entries : List Entry) :
    11 * entries.length ≤ recordsSize entries := by
  induction entries with
  | nil => rfl
  | cons entry rest ih =>
      simp only [recordsSize_cons, recordSize, recordFixedLen, List.length_cons]
      omega

section Layout

variable {buffer buffer' : Block} {position position' : Nat} {entries : List Entry}
  {entry : Entry} {name : CString}

/-- A record moves with its bytes. -/
theorem RecordAt.shift (h : RecordAt buffer position entry)
    (hbytes : ∀ i < recordSize entry,
      buffer'.byteAt (position' + i) = buffer.byteAt (position + i)) :
    RecordAt buffer' position' entry := by
  have hsize : recordSize entry = 10 + entry.1.length + 1 := rfl
  refine ⟨?_, ?_, fun i hi => ?_, ?_, h.short⟩
  · rw [← h.len]
    exact Block.readLe_shift fun i hi => hbytes i (by omega)
  · rw [← h.inum]
    refine Block.ssizeAt_shift fun i hi => ?_
    rw [Nat.add_assoc, Nat.add_assoc]
    exact hbytes (2 + i) (by omega)
  · rw [← h.name i hi, Nat.add_assoc, Nat.add_assoc]
    exact hbytes (10 + i) (by omega)
  · rw [← h.terminator, Nat.add_assoc, Nat.add_assoc]
    exact hbytes (10 + entry.1.length) (by omega)

theorem RecordsAt.shift (h : RecordsAt buffer position entries) (hle : position' ≤ position)
    (hbytes : ∀ i, buffer'.byteAt (position' + i) = buffer.byteAt (position + i)) :
    RecordsAt buffer' position' entries := by
  induction entries generalizing position position' with
  | nil =>
      refine ⟨hle.trans h.1, fun i hi => ?_⟩
      have := hbytes (i - position')
      rw [Nat.add_sub_cancel' hi] at this
      rw [this]
      exact h.2 _ (Nat.le_add_right _ _)
  | cons entry rest ih =>
      refine ⟨h.1.shift fun i _ => hbytes i, ih h.2 (by omega) fun i => ?_⟩
      rw [Nat.add_assoc, Nat.add_assoc]
      exact hbytes _

theorem RecordsAt.end_le (h : RecordsAt buffer position entries) :
    position + recordsSize entries ≤ blockSize := by
  induction entries generalizing position with
  | nil => exact h.1
  | cons entry rest ih =>
      have := ih h.2
      rw [recordsSize_cons]
      omega

theorem RecordsAt.zero : RecordsAt Block.zero 0 [] :=
  ⟨Nat.zero_le _, fun _ _ => Block.byteAt_zero _⟩

/-- No more records fit in a block than its fixed parts allow. -/
theorem RecordsAt.length_le (h : RecordsAt buffer position entries) : entries.length ≤ 372 := by
  have := h.end_le
  have := length_le_recordsSize entries
  simp only [blockSize] at *
  omega

theorem RecordsAt.short (h : RecordsAt buffer position entries) (hentry : entry ∈ entries) :
    entry.1.length ≤ maxFileNameLength := by
  induction entries generalizing position with
  | nil => simp at hentry
  | cons first rest ih =>
      rcases List.mem_cons.mp hentry with rfl | hentry
      · exact h.1.short
      · exact ih h.2 hentry

/-! ## Searching -/

theorem recordLen_zero (h : ∀ i, position ≤ i → buffer.byteAt i = 0) :
    recordLen buffer position = 0 := by
  simp [recordLen, Block.readLe, h position le_rfl, h (position + 1) (by omega)]

/-- The bytes of a record determine its entry. -/
theorem RecordAt.unique {entry' : Entry} (h : RecordAt buffer position entry)
    (h' : RecordAt buffer position entry') : entry = entry' := by
  have hlength : entry.1.length = entry'.1.length := by
    have hlen := h.len.symm.trans h'.len
    simp only [recordSize] at hlen
    omega
  refine Prod.ext (List.ext_getElem hlength fun i hi hi' => ?_) (h.inum.symm.trans h'.inum)
  exact Subtype.ext ((h.name i hi).symm.trans (h'.name i hi'))

/-- The bytes of a block determine its entries. -/
theorem RecordsAt.unique {entries' : List Entry} (h : RecordsAt buffer position entries)
    (h' : RecordsAt buffer position entries') : entries = entries' := by
  -- a record is not empty
  have hne : ∀ {position : Nat} {entry : Entry}, RecordAt buffer position entry →
      ¬∀ i, position ≤ i → buffer.byteAt i = 0 := by
    intro position entry hrecord hzero
    have hlen := hrecord.len
    have hpos := recordSize_pos entry
    rw [recordLen_zero hzero] at hlen
    omega
  induction entries generalizing position entries' with
  | nil =>
      cases entries' with
      | nil => rfl
      | cons entry' rest' => exact absurd h.2 (hne h'.1)
  | cons entry rest ih =>
      cases entries' with
      | nil => exact absurd h'.2 (hne h.1)
      | cons entry' rest' =>
          obtain rfl := h.1.unique h'.1
          rw [ih h.2 h'.2]

theorem namesMatch_spec {stored : CString} (hlength : stored.length = name.length)
    (hfit : position + stored.length ≤ blockSize)
    (hbytes : ∀ i (h : i < stored.length), buffer.byteAt (position + i) = stored[i].val) :
    namesMatch buffer position name = some (decide (stored = name)) := by
  induction name generalizing position stored with
  | nil =>
      rw [List.length_nil, List.length_eq_zero_iff] at hlength
      simp [namesMatch, hlength]
  | cons c name ih =>
      match stored, hlength with
      | d :: stored, hlength =>
          have hhead := hbytes 0 (by simp)
          rw [List.length_cons] at hfit
          rw [add_zero, List.getElem_cons_zero] at hhead
          have htail := ih (by simpa using hlength)
            (show position + 1 + stored.length ≤ blockSize by omega)
            fun i hi => by
              have := hbytes (i + 1) (by simpa using hi)
              rw [List.getElem_cons_succ] at this
              rw [← this, Nat.add_assoc, Nat.add_comm 1 i]
          rw [namesMatch, if_neg (by omega), hhead, htail]
          by_cases hcd : d = c
          · simp [hcd]
          · simp [hcd, Subtype.ext_iff.not.mp hcd]

/-- The search of a block finds the first record with the name, if there is one. -/
theorem findRecord_spec (h : RecordsAt buffer position entries) {fuel : Nat}
    (hfuel : entries.length < fuel) :
    findRecord buffer name fuel position = some (recordPosition name position entries) := by
  induction entries generalizing position fuel with
  | nil =>
      obtain ⟨fuel, rfl⟩ : ∃ n, fuel = n + 1 := ⟨fuel - 1, by simp at hfuel; omega⟩
      rw [findRecord, recordLen_zero h.2, recordPosition]
      simp
  | cons entry rest ih =>
      obtain ⟨fuel, rfl⟩ : ∃ n, fuel = n + 1 := ⟨fuel - 1, by simp at hfuel; omega⟩
      have hend := h.end_le
      have hshort := h.1.short
      have hsize : recordSize entry = 10 + entry.1.length + 1 := rfl
      rw [recordsSize_cons] at hend
      simp only [blockSize, maxFileNameLength] at hend hshort
      have hrest := ih h.2 (show rest.length < fuel by simpa using hfuel)
      rw [findRecord, if_neg (by simp only [lastPossibleRecord]; omega), h.1.len,
        if_neg (by omega), recordPosition, hrest]
      have hlength : (recordSize entry + 65536 - (recordFixedLen + 1)) % 65536 =
          entry.1.length := by
        simp only [recordFixedLen]
        omega
      rw [hlength]
      by_cases hname : entry.1.length = name.length
      · rw [if_pos hname, namesMatch_spec hname
          (by simp only [blockSize, recordFixedLen]; omega) h.1.name]
        by_cases heq : entry.1 = name <;> simp [heq]
      · rw [if_neg hname, if_neg fun heq => hname (congrArg List.length heq)]

theorem recordPosition_eq_none : recordPosition name position entries = none ↔
    ∀ entry ∈ entries, entry.1 ≠ name := by
  induction entries generalizing position with
  | nil => simp [recordPosition]
  | cons entry rest ih =>
      rw [recordPosition]
      by_cases heq : entry.1 = name <;> simp [heq, ih]

theorem recordPosition_recordAt (h : RecordsAt buffer position entries) {found : Nat}
    (hfound : recordPosition name position entries = some found) :
    RecordAt buffer found (name, recordInum buffer found) := by
  induction entries generalizing position with
  | nil => simp [recordPosition] at hfound
  | cons entry rest ih =>
      rw [recordPosition] at hfound
      split at hfound
      · next heq =>
          obtain rfl : position = found := by simpa using hfound
          rw [h.1.inum, ← heq]
          exact h.1
      · exact ih h.2 hfound

/-- The record found is that of the first entry with the name. -/
theorem recordPosition_lookup (h : RecordsAt buffer position entries) {found : Nat}
    (hfound : recordPosition name position entries = some found) :
    entries.lookup name = some (recordInum buffer found) := by
  induction entries generalizing position with
  | nil => simp [recordPosition] at hfound
  | cons entry rest ih =>
      obtain ⟨stored, inum⟩ := entry
      rw [recordPosition] at hfound
      split at hfound
      · next heq =>
          obtain rfl : position = found := by simpa using hfound
          obtain rfl : stored = name := heq
          rw [List.lookup_cons_self, h.1.inum]
      · next hne =>
          have hne : (name == stored) = false := by simpa using Ne.symm hne
          rw [List.lookup_cons, hne]
          exact ih h.2 hfound

/-- The end of the records, where another one could still start. -/
theorem recordsEnd_spec (h : RecordsAt buffer position entries) {fuel : Nat}
    (hfuel : entries.length < fuel) :
    recordsEnd buffer fuel position =
      if position + recordsSize entries ≤ lastPossibleRecord
      then some (position + recordsSize entries) else none := by
  induction entries generalizing position fuel with
  | nil =>
      obtain ⟨fuel, rfl⟩ : ∃ n, fuel = n + 1 := ⟨fuel - 1, by simp at hfuel; omega⟩
      rw [recordsEnd, recordLen_zero h.2, recordsSize_nil, add_zero]
      by_cases hlast : position ≤ lastPossibleRecord
      · rw [if_neg (by omega), if_pos rfl, if_pos hlast]
      · rw [if_pos (by omega), if_neg hlast]
  | cons entry rest ih =>
      obtain ⟨fuel, rfl⟩ : ∃ n, fuel = n + 1 := ⟨fuel - 1, by simp at hfuel; omega⟩
      have hend := h.end_le
      have hsize := recordSize_pos entry
      have hrest := ih h.2 (show rest.length < fuel by simpa using hfuel)
      rw [recordsSize_cons, ← Nat.add_assoc] at hend ⊢
      rw [recordsEnd, h.1.len, hrest]
      simp only [lastPossibleRecord, blockSize, recordFixedLen] at hend hsize ⊢
      have hfirst : ¬position > 4086 := by omega
      have hlen : recordSize entry ≠ 0 := by omega
      rw [if_neg hfirst, if_neg hlen]

theorem spaceFor_spec (entry : Entry) (h : RecordsAt buffer 0 entries) :
    spaceFor buffer entry.1.length =
      if recordsSize entries + recordSize entry ≤ blockSize then some (recordsSize entries)
      else none := by
  have hlength := h.length_le
  have hsize : recordSize entry = 10 + entry.1.length + 1 := rfl
  rw [spaceFor,
    recordsEnd_spec h (show entries.length < blockSize by simp only [blockSize]; omega), zero_add,
    hsize]
  simp only [lastPossibleRecord, blockSize, recordFixedLen]
  by_cases hfit : recordsSize entries + (10 + entry.1.length + 1) ≤ 4096
  · rw [if_pos (by omega), if_pos hfit, Option.filter_some, if_pos (by simp; omega)]
  · rw [if_neg hfit]
    by_cases hlast : recordsSize entries ≤ 4086
    · rw [if_pos hlast, Option.filter_some, if_neg (by simp; omega)]
    · rw [if_neg hlast, Option.filter_none]

/-! ## Adding and removing -/

theorem byteAt_putRecord_of_not_mem {i : Nat}
    (h : i < position ∨ position + recordSize entry ≤ i) :
    (putRecord buffer position entry.2 entry.1).byteAt i = buffer.byteAt i := by
  have hsize : recordSize entry = 10 + entry.1.length + 1 := rfl
  by_cases hi : i < blockSize
  · rw [putRecord, Block.byteAt_splice _ _ _ hi, if_neg, Block.putSsize,
      Block.byteAt_writeLe_of_not_mem (by omega), Block.byteAt_writeLe_of_not_mem (by omega)]
    simp only [recordFixedLen, List.length_append, List.length_map, List.length_singleton]
    omega
  · rw [Block.byteAt_of_ge (by omega), Block.byteAt_of_ge (by omega)]

theorem recordAt_putRecord (hfit : position + recordSize entry ≤ blockSize)
    (hshort : entry.1.length ≤ maxFileNameLength) :
    RecordAt (putRecord buffer position entry.2 entry.1) position entry := by
  have hsize : recordSize entry = 10 + entry.1.length + 1 := rfl
  simp only [blockSize, maxFileNameLength] at hfit hshort
  have hbytes : ∀ i, i < 4096 → (i < position + 10) →
      (putRecord buffer position entry.2 entry.1).byteAt i =
        ((buffer.writeLe position 2 (recordFixedLen + entry.1.length + 1)).putSsize
          (position + 2) entry.2).byteAt i := by
    intro i hi hlt
    rw [putRecord, Block.byteAt_splice _ _ _ hi, if_neg]
    simp only [recordFixedLen]
    omega
  have hname : ∀ i, i ≤ entry.1.length →
      (putRecord buffer position entry.2 entry.1).byteAt (position + recordFixedLen + i) =
        (entry.1.map Subtype.val ++ [0]).getD i 0 := by
    intro i hi
    rw [putRecord, Block.byteAt_splice _ _ _ (by simp only [blockSize, recordFixedLen]; omega), if_pos,
      Nat.add_sub_cancel_left]
    simp only [recordFixedLen, List.length_append, List.length_map, List.length_singleton]
    omega
  refine ⟨?_, ?_, fun i hi => ?_, ?_, hshort⟩
  · have hlen : ∀ i, position ≤ i → i < position + 2 →
        (putRecord buffer position entry.2 entry.1).byteAt i =
          (buffer.writeLe position 2 (recordFixedLen + entry.1.length + 1)).byteAt i := by
      intro i _ hi
      rw [hbytes i (by omega) (by omega), Block.putSsize,
        Block.byteAt_writeLe_of_not_mem (by omega)]
    rw [recordLen, Block.readLe_congr hlen,
      Block.readLe_writeLe (by simp only [blockSize]; omega)]
    exact Nat.mod_eq_of_lt (by simp only [recordFixedLen]; omega)
  · rw [recordInum, Block.ssizeAt_congr fun i _ hi => hbytes i (by omega) (by omega),
      Block.ssizeAt_putSsize (by simp only [blockSize]; omega)]
  · rw [hname i (by omega), List.getD_eq_getElem?_getD,
      List.getElem?_append_left (by simpa using hi)]
    simp [hi]
  · rw [hname _ le_rfl, List.getD_eq_getElem?_getD, List.getElem?_append_right (by simp)]
    simp

/-- A record put behind the others. -/
theorem recordsAt_putRecord (entry : Entry) (h : RecordsAt buffer position entries)
    (hfit : position + recordsSize entries + recordSize entry ≤ blockSize)
    (hshort : entry.1.length ≤ maxFileNameLength) :
    RecordsAt (putRecord buffer (position + recordsSize entries) entry.2 entry.1) position
      (entries ++ [entry]) := by
  induction entries generalizing position with
  | nil =>
      rw [recordsSize_nil, add_zero] at hfit ⊢
      refine ⟨recordAt_putRecord hfit hshort, hfit, fun i hi => ?_⟩
      rw [byteAt_putRecord_of_not_mem (.inr hi)]
      exact h.2 i (by omega)
  | cons first rest ih =>
      rw [recordsSize_cons, ← Nat.add_assoc] at hfit ⊢
      refine ⟨h.1.shift fun i hi => byteAt_putRecord_of_not_mem (.inl (by omega)), ih h.2 hfit⟩

theorem recordPosition_perm {found : Nat}
    (hfound : recordPosition name position entries = some found) :
    ∃ entry, entry.1 = name ∧
      entries.Perm (entry :: entries.eraseP fun entry => entry.1 = name) := by
  have hexists : ∃ entry ∈ entries, entry.1 = name := by
    by_contra hnone
    rw [recordPosition_eq_none.mpr fun entry hentry heq => hnone ⟨entry, hentry, heq⟩] at hfound
    simp at hfound
  obtain ⟨entry, hentry, hname⟩ := hexists
  obtain ⟨first, before, after, -, heq, hentries, herase⟩ :=
    List.exists_of_eraseP (p := fun entry : Entry => decide (entry.1 = name)) hentry
      (by simpa using hname)
  refine ⟨first, by simpa using heq, ?_⟩
  rw [herase, hentries]
  exact List.perm_middle

/-- Without the record found, the block holds the other entries. -/
theorem recordsAt_removeRecord (h : RecordsAt buffer position entries) {found : Nat}
    (hfound : recordPosition name position entries = some found) :
    position ≤ found ∧ RecordsAt (removeRecord buffer found) position
      (entries.eraseP fun entry => entry.1 = name) := by
  induction entries generalizing position with
  | nil => simp [recordPosition] at hfound
  | cons entry rest ih =>
      rw [recordPosition] at hfound
      split at hfound
      · next heq =>
          obtain rfl : position = found := by simpa using hfound
          refine ⟨le_rfl, ?_⟩
          rw [List.eraseP_cons_of_pos (by simpa using heq)]
          refine h.2.shift (by omega) fun i => ?_
          rw [removeRecord, Block.byteAt_ofFn, h.1.len]
          split
          · rw [if_neg (by omega), Nat.add_right_comm]
          · exact (Block.byteAt_of_ge (by omega)).symm
      · next hne =>
          obtain ⟨hle, hrest⟩ := ih h.2 hfound
          have hend := h.2.end_le
          refine ⟨by omega, ?_⟩
          rw [List.eraseP_cons_of_neg (by simpa using hne)]
          refine ⟨h.1.shift fun i hi => ?_, hrest⟩
          rw [removeRecord, Block.byteAt_ofFn_of_lt (by omega), if_pos (by omega)]

end Layout

end AltFs
