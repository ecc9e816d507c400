import AltFs.BlockLookup
import AltFs.FileDataOps

/-!
# The contents of a file

Byte `j` of a file lies in the block at position `j / 4096`.  A write of a
buffer at an offset exchanges the bytes that the buffer covers; each block that
`altfs_write` stores is described by them.
-/

namespace AltFs

/-- Byte `j` of the blocks of the file. -/
def fileByte (s : FileSystem) (node : Inode) (j : Nat) : UInt8 :=
  (s.disk (node.blockAt s (j / blockSize))).byteAt (j % blockSize)

/-- The bytes of `old` with the buffer put in at `offset`. -/
def spliced (old : Nat → UInt8) (offset : Nat) (buff : List UInt8) (j : Nat) : UInt8 :=
  if offset ≤ j ∧ j < offset + buff.length then buff.getD (j - offset) 0 else old j

/-- How much of a buffer of `length` bytes lies in the first `m` blocks of the file. -/
def writtenUpTo (offset length m : Nat) : Nat := min length (blockSize * m - offset)

theorem spliced_covered {old : Nat → UInt8} {offset j : Nat} {buff : List UInt8}
    (h : offset ≤ j ∧ j < offset + buff.length) :
    spliced old offset buff j = buff.getD (j - offset) 0 := by
  rw [spliced, if_pos h]

theorem spliced_outside {old : Nat → UInt8} {offset j : Nat} {buff : List UInt8}
    (h : ¬(offset ≤ j ∧ j < offset + buff.length)) : spliced old offset buff j = old j := by
  rw [spliced, if_neg h]

section Bytes

variable {s s' : FileSystem} {node : Inode} {n i j : Nat}

theorem fileByte_eq (hblock : node.blockAt s' (j / blockSize) = node.blockAt s (j / blockSize))
    (hdisk : s'.disk (node.blockAt s (j / blockSize)) = s.disk (node.blockAt s (j / blockSize))) :
    fileByte s' node j = fileByte s node j := by
  rw [fileByte, fileByte, hblock, hdisk]

/-- Storing one block of the file. -/
theorem fileByte_writeDisk (hnodup : (node.blocks s).Nodup) (hi : node.blockAt s i ≠ 0)
    (hj : node.blockAt s (j / blockSize) ≠ 0) (contents : Block) :
    fileByte (s.writeDisk (node.blockAt s i) contents) node j =
      if j / blockSize = i then contents.byteAt (j % blockSize) else fileByte s node j := by
  have hkept : node.Kept s (s.writeDisk (node.blockAt s i) contents) := fun a ha =>
    disk_writeDisk_ne fun heq => blockAt_notMem_indirect hnodup hi (heq ▸ ha)
  split
  next heq => rw [fileByte, hkept.blockAt, heq, disk_writeDisk_self]
  next hne =>
    apply fileByte_eq (hkept.blockAt _)
    exact disk_writeDisk_ne fun heq => hne (blockAt_inj hnodup hj heq)

end Bytes

section Buffer

variable {buff : List UInt8} {position length k : Nat}

theorem length_bytesFrom : (bytesFrom buff position length).length =
    min length (buff.length - position) := by
  rw [bytesFrom, List.length_take, List.length_drop]

theorem getD_bytesFrom (h : k < length) :
    (bytesFrom buff position length).getD k 0 = buff.getD (position + k) 0 := by
  rw [bytesFrom, List.getD_eq_getElem?_getD, List.getD_eq_getElem?_getD,
    List.getElem?_take_of_lt h, List.getElem?_drop]

end Buffer

section Blocks

variable {buff : List UInt8} {block : Block} {offset i p : Nat}

/-- Storing a part of the buffer, from byte `start` of block `i` on. -/
private theorem byteAt_splice_bytesFrom {start position length : Nat}
    (hp : p < blockSize) (hlength : position + length ≤ buff.length)
    (hcover : ∀ q < blockSize, (start ≤ q ∧ q < start + length) ↔
      (offset ≤ blockSize * i + q ∧ blockSize * i + q < offset + buff.length))
    (hposition : start ≤ p → p < start + length →
      position + (p - start) = blockSize * i + p - offset) :
    (block.splice start (bytesFrom buff position length)).byteAt p =
      spliced (fun j => block.byteAt (j - blockSize * i)) offset buff (blockSize * i + p) := by
  rw [Block.byteAt_splice _ _ _ hp, length_bytesFrom, Nat.min_eq_left (by omega), spliced,
    Nat.add_sub_cancel_left]
  by_cases hin : start ≤ p ∧ p < start + length
  · rw [if_pos hin, if_pos ((hcover p hp).mp hin), getD_bytesFrom (by omega),
      hposition hin.1 hin.2]
  · rw [if_neg hin, if_neg fun h => hin ((hcover p hp).mpr h)]

variable (hbuff : buff ≠ [])

include hbuff

private theorem length_pos_of_ne : 0 < buff.length := List.length_pos_iff.mpr hbuff

/-- The first block of a write, from the offset on. -/
private theorem firstBlock (block : Block) (hi : i = offset / blockSize) (hp : p < blockSize) :
    (block.splice (offset % blockSize)
      (bytesFrom buff 0 ((Span.ofRange offset buff.length).toWrite buff.length))).byteAt p =
      spliced (fun j => block.byteAt (j - blockSize * i)) offset buff (blockSize * i + p) := by
  have hlength := length_pos_of_ne hbuff
  subst hi
  have hwrite : (Span.ofRange offset buff.length).toWrite buff.length =
      min buff.length (blockSize - offset % blockSize) := by
    rw [Span.toWrite, Span.ofRange]
    simp only [blockSize]
    split <;> omega
  rw [hwrite]
  simp only [blockSize] at hp ⊢
  apply byteAt_splice_bytesFrom hp
  · omega
  · intro q hq
    simp only [blockSize] at hq ⊢
    omega
  · intro _ _
    simp only [blockSize]
    omega

/-- A later block of a write, from its start on. -/
private theorem laterBlock (block : Block) {length : Nat} (hi : offset / blockSize < i)
    (hlength : length = min blockSize (offset + buff.length - blockSize * i)) (hp : p < blockSize) :
    (block.splice 0
      (bytesFrom buff (writtenUpTo offset buff.length i) length)).byteAt p =
      spliced (fun j => block.byteAt (j - blockSize * i)) offset buff (blockSize * i + p) := by
  have hpos := length_pos_of_ne hbuff
  rw [writtenUpTo]
  simp only [blockSize] at hi hlength hp ⊢
  by_cases hend : offset + buff.length ≤ 4096 * i
  · obtain rfl : length = 0 := by omega
    rw [Block.byteAt_splice _ _ _ hp, length_bytesFrom, if_neg (by omega), spliced,
      Nat.add_sub_cancel_left, if_neg (by omega)]
  · apply byteAt_splice_bytesFrom hp
    · omega
    · intro q hq
      simp only [blockSize] at hq ⊢
      omega
    · intro _ _
      simp only [blockSize]
      omega

/-- A block of the write that the file has already. -/
theorem Span.overwrite_spec (hlow : offset / blockSize ≤ i)
    (hhigh : i ≤ (offset + buff.length - 1) / blockSize) {contents : Block} {length : Nat}
    (hresult : (Span.ofRange offset buff.length).overwrite buff
      (writtenUpTo offset buff.length i) i block = (contents, length)) :
    writtenUpTo offset buff.length i + length = writtenUpTo offset buff.length (i + 1) ∧
      ∀ p < blockSize, contents.byteAt p =
        spliced (fun j => block.byteAt (j - blockSize * i)) offset buff (blockSize * i + p) := by
  have hpos := length_pos_of_ne hbuff
  have hspan : (Span.ofRange offset buff.length).startIBlock = offset / blockSize ∧
      (Span.ofRange offset buff.length).startBlockOffset = offset % blockSize ∧
      (Span.ofRange offset buff.length).endIBlock = (offset + buff.length - 1) / blockSize ∧
      (Span.ofRange offset buff.length).endBlockOffset =
        (offset + buff.length - 1) % blockSize := ⟨rfl, rfl, rfl, rfl⟩
  obtain ⟨hstart, hstartOffset, hend, hendOffset⟩ := hspan
  rw [Span.overwrite, hstart, hstartOffset, hend, hendOffset] at hresult
  split_ifs at hresult with hmiddle hfirst
  · cases hresult
    refine ⟨?_, fun p hp => ?_⟩
    · simp only [writtenUpTo, blockSize] at *
      omega
    · have hcovered : offset ≤ blockSize * i + p ∧ blockSize * i + p < offset + buff.length := by
        simp only [blockSize] at *
        omega
      rw [laterBlock hbuff _ (by omega) (by simp only [blockSize] at *; omega) hp,
        spliced_covered hcovered, spliced_covered hcovered]
  · cases hresult
    refine ⟨?_, fun p hp => firstBlock hbuff _ hfirst hp⟩
    rw [Span.toWrite, hstartOffset]
    simp only [writtenUpTo, blockSize] at *
    split <;> omega
  · cases hresult
    refine ⟨?_, fun p hp => laterBlock hbuff _ (by omega) ?_ hp⟩
    · simp only [writtenUpTo, blockSize] at *
      omega
    · simp only [blockSize] at *
      omega

/-- A new block of the file, at position `m`; it is the `i`-th one. -/
theorem Span.append_spec {m : Nat} {n : Int} (hi : 1 ≤ i) (hm : (m : Int) = n + i - 1)
    (hhigh : m ≤ (offset + buff.length - 1) / blockSize) {contents : Block} {length : Nat}
    (hresult : (Span.ofRange offset buff.length).append buff (writtenUpTo offset buff.length m)
      (((offset + buff.length - 1) / blockSize : Nat) - n + 1)
      ((offset / blockSize : Nat) - n + 1) i = (contents, length)) :
    writtenUpTo offset buff.length m + length = writtenUpTo offset buff.length (m + 1) ∧
      (∀ p < blockSize, contents.byteAt p =
        spliced (fun _ => 0) offset buff (blockSize * m + p)) ∧
      ((i : Int) < (offset / blockSize : Nat) - n + 1 → contents = Block.zero) := by
  have hpos := length_pos_of_ne hbuff
  have hstartOffset : (Span.ofRange offset buff.length).startBlockOffset = offset % blockSize := rfl
  have hendOffset : (Span.ofRange offset buff.length).endBlockOffset =
      (offset + buff.length - 1) % blockSize := rfl
  rw [Span.append, hstartOffset, hendOffset] at hresult
  split_ifs at hresult with hfirst hlast hmiddle
  · cases hresult
    have hm' : m = offset / blockSize := by omega
    refine ⟨?_, fun p hp => ?_, fun hlt => by omega⟩
    · rw [Span.toWrite, hstartOffset]
      simp only [writtenUpTo, blockSize] at *
      split <;> omega
    · have := firstBlock hbuff Block.zero hm' hp
      simpa only [Block.byteAt_zero] using this
  · cases hresult
    have hm' : offset / blockSize < m := by
      simp only [blockSize] at *
      omega
    refine ⟨?_, fun p hp => ?_, fun hlt => by omega⟩
    · simp only [hendOffset, writtenUpTo, blockSize] at *
      omega
    · have hlength : (offset + buff.length - 1) % blockSize + 1 =
          min blockSize (offset + buff.length - blockSize * m) := by
        simp only [blockSize] at *
        omega
      have := laterBlock hbuff Block.zero hm' hlength hp
      simpa only [Block.byteAt_zero] using this
  · cases hresult
    have hm' : offset / blockSize < m := by omega
    refine ⟨?_, fun p hp => ?_, fun hlt => by omega⟩
    · simp only [writtenUpTo, blockSize] at *
      omega
    · have hlength : blockSize = min blockSize (offset + buff.length - blockSize * m) := by
        simp only [blockSize] at *
        omega
      have := laterBlock hbuff Block.zero hm' hlength hp
      simpa only [Block.byteAt_zero] using this
  · cases hresult
    have hm' : m < offset / blockSize := by omega
    have hout : ∀ p < blockSize, ¬(offset ≤ blockSize * m + p ∧
        blockSize * m + p < offset + buff.length) := by
      intro p hp
      simp only [blockSize] at *
      omega
    refine ⟨?_, fun p hp => ?_, fun _ => rfl⟩
    · simp only [writtenUpTo, blockSize] at *
      omega
    · rw [spliced_outside (hout p hp), Block.byteAt_zero]

end Blocks

end AltFs
