import AltFs.FileContents

/-!
# Reading from a file

`altfs_read` copies the blocks of the range one by one, with a path of its own
for a range inside one block.
-/

namespace AltFs

open Prog

/-- `length` bytes of the file from `position` on. -/
def bytesAt (s : FileSystem) (node : Inode) (position length : Nat) : List UInt8 :=
  (List.range length).map fun k => fileByte s node (position + k)

section

variable {s : FileSystem} {node : Inode}

@[simp] theorem length_bytesAt (position length : Nat) :
    (bytesAt s node position length).length = length := by
  rw [bytesAt, List.length_map, List.length_range]

theorem bytesAt_append (position first second : Nat) :
    bytesAt s node position first ++ bytesAt s node (position + first) second =
      bytesAt s node position (first + second) := by
  rw [bytesAt, bytesAt, bytesAt, List.range_add, List.map_append, List.map_map]
  congr 1
  refine List.map_congr_left fun k _ => ?_
  rw [Function.comp_apply, add_assoc]

/-- A part of one block of the file. -/
theorem slice_blockAt {i start length : Nat} (hfit : start + length ≤ blockSize) :
    (s.disk (node.blockAt s i)).slice start length =
      bytesAt s node (blockSize * i + start) length := by
  rw [Block.slice, bytesAt]
  refine List.map_congr_left fun k hk => ?_
  have hk := List.mem_range.mp hk
  have hdiv : (blockSize * i + start + k) / blockSize = i := by
    simp only [blockSize] at *
    omega
  have hmod : (blockSize * i + start + k) % blockSize = start + k := by
    simp only [blockSize] at *
    omega
  rw [fileByte, hdiv, hmod]

/-- What is copied out of the `i`-th block of a range over several blocks. -/
theorem Span.readPart_spec {offset nbytes i position : Nat} (hpos : 0 < nbytes)
    (hmany : offset / blockSize < (offset + nbytes - 1) / blockSize)
    (hi : offset / blockSize + i ≤ (offset + nbytes - 1) / blockSize)
    (hposition : position = if i = 0 then offset else blockSize * (offset / blockSize + i)) :
    (Span.ofRange offset nbytes).readPart
      ((offset + nbytes - 1) / blockSize - offset / blockSize + 1) i
      (s.disk (node.blockAt s (offset / blockSize + i))) =
        bytesAt s node position
          (min (offset + nbytes) (blockSize * (offset / blockSize + i + 1)) - position) := by
  have hstart : (Span.ofRange offset nbytes).startBlockOffset = offset % blockSize := rfl
  have hend : (Span.ofRange offset nbytes).endBlockOffset = (offset + nbytes - 1) % blockSize := rfl
  rw [Span.readPart, hstart, hend]
  split_ifs at hposition ⊢ with hfirst hlast
  · rw [slice_blockAt (by simp only [blockSize]; omega)]
    subst hfirst
    congr 1
    · simp only [blockSize] at *
      omega
    · simp only [blockSize] at *
      omega
  · rw [slice_blockAt (by simp only [blockSize]; omega), hposition, add_zero]
    congr 1
    simp only [blockSize] at *
    omega
  · rw [slice_blockAt (by simp only [blockSize]; omega), hposition, add_zero]
    congr 1
    simp only [blockSize] at *
    omega

end

section

variable [Config] {s : FileSystem} {node : Inode} {free held : Multiset Int64}
  {m offset nbytes : Nat}

/-- One block of the file is looked up and read. -/
private theorem readPosition (howned : Owned s free held) (hle : node.blocks s ≤ held)
    (hmapped : node.Mapped s) {i : Nat} (hi : (i : Int) < node.iBlocksNum.toInt) :
    ¬(node.blockAt s i).toInt ≤ 0 ∧
      readDataBlock (node.blockAt s i) s = some (some (s.disk (node.blockAt s i)), s) := by
  have hdata := howned.data _ (Multiset.mem_of_le hle
    (blockAt_mem_blocks (hmapped.blockAt_ne_zero i hi)))
  have hpos := hdata.pos
  exact ⟨by omega, readDataBlock_run hdata⟩

theorem readBlocks_spec (howned : Owned s free held) (hle : node.blocks s ≤ held)
    (hmapped : node.Mapped s) (hm : node.iBlocksNum.toInt = m)
    (hfit : offset + nbytes ≤ blockSize * m) (hpos : 0 < nbytes)
    (hmany : offset / blockSize < (offset + nbytes - 1) / blockSize) {count i : Nat} {prev : Int64}
    (hcount : i + count = (offset + nbytes - 1) / blockSize - offset / blockSize + 1)
    (hprev : PrevValid s node (offset / blockSize + i) prev) {position : Nat}
    (hposition : position = if i = 0 then offset else blockSize * (offset / blockSize + i)) :
    readBlocks node (Span.ofRange offset nbytes)
      ((offset + nbytes - 1) / blockSize - offset / blockSize + 1) count i prev s =
        some ((true, bytesAt s node position (offset + nbytes - position)), s) := by
  induction count generalizing i prev position with
  | zero =>
      have hend : offset + nbytes - position = 0 := by
        rw [if_neg (by omega)] at hposition
        simp only [blockSize] at *
        omega
      rw [hend]
      rfl
  | succ count ih =>
      have hi : ((offset / blockSize + i : Nat) : Int) < node.iBlocksNum.toInt := by
        rw [hm]
        simp only [blockSize] at *
        omega
      obtain ⟨hne, hread⟩ := readPosition howned hle hmapped hi
      obtain ⟨prev', hlookup, hprev'⟩ := getDiskBlockFromInodeBlock_spec howned hle hmapped hi hprev
      have hrest := ih (i := i + 1) (by omega) hprev' rfl
      have hspan : (Span.ofRange offset nbytes).startIBlock = offset / blockSize := rfl
      simp only [readBlocks, hspan, bind_of_eq hlookup, if_neg hne, bind_of_eq hread,
        bind_of_eq hrest, pure_apply]
      have hpart := @Span.readPart_spec s node offset nbytes i position hpos hmany (by omega)
        hposition
      rw [if_neg (Nat.succ_ne_zero i), ← add_assoc, hpart]
      congr 3
      by_cases hlast : offset + nbytes ≤ blockSize * (offset / blockSize + i + 1)
      · have hnone : offset + nbytes - blockSize * (offset / blockSize + i + 1) = 0 := by omega
        rw [min_eq_left hlast, hnone]
        exact List.append_nil _
      · have hle : position ≤ blockSize * (offset / blockSize + i + 1) := by
          rw [hposition]
          split
          next => simp only [blockSize] at *; omega
          next => simp only [blockSize] at *; omega
        have hnext : blockSize * (offset / blockSize + i + 1) =
            position + (blockSize * (offset / blockSize + i + 1) - position) := by omega
        rw [min_eq_right (by omega)]
        nth_rewrite 2 [hnext]
        rw [bytesAt_append, show (blockSize * (offset / blockSize + i + 1) - position) +
          (offset + nbytes - blockSize * (offset / blockSize + i + 1)) =
            offset + nbytes - position by omega]

/-- The bytes of the range are read when the file has all its blocks. -/
theorem readRange_spec (howned : Owned s free held) (hle : node.blocks s ≤ held)
    (hmapped : node.Mapped s) (hm : node.iBlocksNum.toInt = m)
    (hfit : offset + nbytes ≤ blockSize * m) (hpos : 0 < nbytes) :
    readRange node offset nbytes s = some ((true, bytesAt s node offset nbytes), s) := by
  have hstart : (Span.ofRange offset nbytes).startIBlock = offset / blockSize := rfl
  have hend : (Span.ofRange offset nbytes).endIBlock = (offset + nbytes - 1) / blockSize := rfl
  have hi : ((offset / blockSize : Nat) : Int) < node.iBlocksNum.toInt := by
    rw [hm]
    simp only [blockSize] at *
    omega
  by_cases hone : (offset + nbytes - 1) / blockSize = offset / blockSize
  · obtain ⟨hne, hread⟩ := readPosition howned hle hmapped hi
    obtain ⟨prev, hlookup, -⟩ := getDiskBlockFromInodeBlock_spec howned hle hmapped hi
      (prevValid_zero s node _)
    have hslice : (s.disk (node.blockAt s (offset / blockSize))).slice (offset % blockSize) nbytes =
        bytesAt s node offset nbytes := by
      rw [slice_blockAt (by simp only [blockSize] at *; omega), Nat.div_add_mod]
    simp only [readRange, hstart, hend, hone, Nat.sub_self, zero_add, if_true,
      bind_of_eq hlookup, if_neg hne, bind_of_eq hread, pure_apply]
    rw [← hslice]
    rfl
  · have hle' : offset / blockSize ≤ (offset + nbytes - 1) / blockSize := by
      simp only [blockSize]
      omega
    have hblocks := readBlocks_spec howned hle hmapped hm hfit hpos (by omega)
      (show 0 + _ = _ from Nat.zero_add _) (prevValid_zero s node _)
      (show offset = if 0 = 0 then offset else _ from (if_pos rfl).symm)
    rw [Nat.add_sub_cancel_left] at hblocks
    rw [← hblocks]
    simp only [readRange, hstart, hend]
    rw [if_neg (by omega)]

end

end AltFs
