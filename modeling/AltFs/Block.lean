import Mathlib.Tactic.Ring

/-!
# Blocks of bytes and the integers stored in them

A block is the contents of one `char buffer[BLOCK_SIZE]`.  Integers are laid
out little endian, as the source does when it casts a buffer to `ssize_t*` or
`unsigned short*`.  Every access of a `Block` goes through `byteAt`; every
block is built with `ofFn`.
-/

namespace AltFs

/-- `BLOCK_SIZE` -/
abbrev blockSize : Nat := 4096

/-- `ADDRESS_SIZE` -/
abbrev addressSize : Nat := 8

/-- `NUM_OF_ADDRESSES_PER_BLOCK`, also `NUM_OF_SINGLE_INDIRECT_BLOCK_ADDR`. -/
abbrev numOfAddressesPerBlock : Nat := 512

def Block : Type := Fin blockSize → UInt8

namespace Block

def byteAt (block : Block) (position : Nat) : UInt8 :=
  if h : position < blockSize then block ⟨position, h⟩ else 0

def ofFn (f : Nat → UInt8) : Block := fun position => f position.val

theorem byteAt_ofFn (f : Nat → UInt8) (position : Nat) :
    (ofFn f).byteAt position = if position < blockSize then f position else 0 := by
  simp [byteAt, ofFn]

theorem byteAt_ofFn_of_lt {f : Nat → UInt8} {position : Nat}
    (h : position < blockSize) : (ofFn f).byteAt position = f position := by
  simp [byteAt_ofFn, h]

theorem byteAt_of_ge {block : Block} {position : Nat}
    (h : blockSize ≤ position) : block.byteAt position = 0 := by
  simp [byteAt, Nat.not_lt.mpr h]

theorem ext_byteAt {first second : Block}
    (h : ∀ position < blockSize, first.byteAt position = second.byteAt position) :
    first = second := by
  funext position
  have := h position.val position.isLt
  simpa [byteAt, position.isLt] using this

/-- `memset(buffer, 0, BLOCK_SIZE)` -/
def zero : Block := ofFn fun _ => 0

@[simp] theorem byteAt_zero (position : Nat) : zero.byteAt position = 0 := by
  simp [zero, byteAt_ofFn]

/-- `memcmp(first, second, BLOCK_SIZE) == 0` -/
def sameBytes (first second : Block) : Bool :=
  (List.range blockSize).all fun position =>
    first.byteAt position == second.byteAt position

theorem sameBytes_iff {first second : Block} :
    sameBytes first second = true ↔ first = second := by
  constructor
  · intro h
    apply ext_byteAt
    simpa [sameBytes] using h
  · rintro rfl
    simp [sameBytes]

/-! ## Little-endian integers -/

/-- The unsigned integer in the `width` bytes from `offset` on. -/
def readLe (block : Block) (offset : Nat) : Nat → Nat
  | 0 => 0
  | width + 1 =>
      (block.byteAt offset).toNat + 256 * readLe block (offset + 1) width

def writeLe (block : Block) (offset width value : Nat) : Block :=
  ofFn fun position =>
    if offset ≤ position ∧ position < offset + width
    then UInt8.ofNat (value / 256 ^ (position - offset))
    else block.byteAt position

theorem readLe_shift {first second : Block} {offset offset' width : Nat}
    (h : ∀ i < width, first.byteAt (offset + i) = second.byteAt (offset' + i)) :
    first.readLe offset width = second.readLe offset' width := by
  induction width generalizing offset offset' with
  | zero => rfl
  | succ width ih =>
      have hhead := h 0 (by omega)
      rw [add_zero, add_zero] at hhead
      rw [readLe, readLe, hhead, ih fun i hi => ?_]
      rw [Nat.add_assoc, Nat.add_assoc]
      exact h (1 + i) (by omega)

theorem readLe_congr {first second : Block} {offset width : Nat}
    (h : ∀ position, offset ≤ position → position < offset + width →
      first.byteAt position = second.byteAt position) :
    first.readLe offset width = second.readLe offset width :=
  readLe_shift fun i _ => h (offset + i) (by omega) (by omega)

theorem byteAt_writeLe_of_not_mem {block : Block} {offset width value position : Nat}
    (h : position < offset ∨ offset + width ≤ position) :
    (block.writeLe offset width value).byteAt position = block.byteAt position := by
  rw [writeLe, byteAt_ofFn]
  split
  · rw [if_neg (by omega)]
  · rw [byteAt_of_ge (by omega)]

theorem readLe_writeLe_disjoint {block : Block} {offset width value offset' width' : Nat}
    (h : offset' + width' ≤ offset ∨ offset + width ≤ offset') :
    (block.writeLe offset width value).readLe offset' width' =
      block.readLe offset' width' :=
  readLe_congr fun _ _ _ => byteAt_writeLe_of_not_mem (by omega)

private theorem readLe_writeLe_tail (block : Block) (value : Nat) {offset width : Nat}
    (hfit : offset + width ≤ blockSize) (skip count : Nat)
    (hcount : skip + count = width) :
    (block.writeLe offset width value).readLe (offset + skip) count =
      value / 256 ^ skip % 256 ^ count := by
  induction count generalizing skip with
  | zero => simp [readLe, Nat.mod_one]
  | succ count ih =>
      have hbyte : (block.writeLe offset width value).byteAt (offset + skip) =
          UInt8.ofNat (value / 256 ^ skip) := by
        rw [writeLe, byteAt_ofFn_of_lt (by omega), if_pos (by omega)]
        congr 3
        omega
      rw [readLe, hbyte, Nat.add_assoc, ih (skip + 1) (by omega)]
      rw [pow_succ 256 skip, ← Nat.div_div_eq_div_mul, Nat.pow_succ',
        Nat.mod_mul]
      simp

theorem readLe_writeLe {block : Block} {offset width value : Nat}
    (hfit : offset + width ≤ blockSize) :
    (block.writeLe offset width value).readLe offset width = value % 256 ^ width := by
  simpa using readLe_writeLe_tail block value hfit 0 width (by omega)

@[simp] theorem readLe_zero (offset width : Nat) : zero.readLe offset width = 0 := by
  induction width generalizing offset with
  | zero => rfl
  | succ width ih => simp [readLe, ih]

/-! ## `ssize_t` values -/

/-- `*((ssize_t*)(block + offset))` -/
def ssizeAt (block : Block) (offset : Nat) : Int64 :=
  (UInt64.ofNat (block.readLe offset 8)).toInt64

def putSsize (block : Block) (offset : Nat) (value : Int64) : Block :=
  block.writeLe offset 8 value.toUInt64.toNat

theorem ssizeAt_putSsize {block : Block} {offset : Nat} {value : Int64}
    (hfit : offset + 8 ≤ blockSize) :
    (block.putSsize offset value).ssizeAt offset = value := by
  rw [ssizeAt, putSsize, readLe_writeLe hfit]
  have hvalue : value.toUInt64.toNat % 256 ^ 8 = value.toUInt64.toNat :=
    Nat.mod_eq_of_lt value.toUInt64.toNat_lt
  rw [hvalue, UInt64.ofNat_toNat, Int64.toInt64_toUInt64]

theorem ssizeAt_shift {first second : Block} {offset offset' : Nat}
    (h : ∀ i < 8, first.byteAt (offset + i) = second.byteAt (offset' + i)) :
    first.ssizeAt offset = second.ssizeAt offset' := by
  rw [ssizeAt, ssizeAt, readLe_shift h]

theorem ssizeAt_congr {first second : Block} {offset : Nat}
    (h : ∀ position, offset ≤ position → position < offset + 8 →
      first.byteAt position = second.byteAt position) :
    first.ssizeAt offset = second.ssizeAt offset :=
  ssizeAt_shift fun i _ => h (offset + i) (by omega) (by omega)

theorem ssizeAt_writeLe_disjoint {block : Block} {offset width value offset' : Nat}
    (h : offset' + 8 ≤ offset ∨ offset + width ≤ offset') :
    (block.writeLe offset width value).ssizeAt offset' = block.ssizeAt offset' := by
  rw [ssizeAt, readLe_writeLe_disjoint h, ssizeAt]

theorem ssizeAt_putSsize_disjoint {block : Block} {offset offset' : Nat} {value : Int64}
    (h : offset' + 8 ≤ offset ∨ offset + 8 ≤ offset') :
    (block.putSsize offset value).ssizeAt offset' = block.ssizeAt offset' :=
  ssizeAt_writeLe_disjoint h

@[simp] theorem ssizeAt_zero (offset : Nat) : zero.ssizeAt offset = 0 := by
  simp [ssizeAt]

/-! ## A block as an array of 512 addresses -/

/-- `((ssize_t*)block)[index]` -/
def word (block : Block) (index : Nat) : Int64 := block.ssizeAt (8 * index)

def setWord (block : Block) (index : Nat) (value : Int64) : Block :=
  block.putSsize (8 * index) value

@[simp] theorem word_zero (index : Nat) : zero.word index = 0 := by simp [word]

theorem word_setWord_self {block : Block} {index : Nat} {value : Int64}
    (h : index < numOfAddressesPerBlock) :
    (block.setWord index value).word index = value :=
  ssizeAt_putSsize (by simp only [numOfAddressesPerBlock, blockSize] at *; omega)

theorem word_setWord_ne {block : Block} {index index' : Nat} {value : Int64}
    (h : index' ≠ index) :
    (block.setWord index value).word index' = block.word index' :=
  ssizeAt_putSsize_disjoint (by omega)

theorem word_setWord {block : Block} {index index' : Nat} {value : Int64}
    (h : index < numOfAddressesPerBlock) :
    (block.setWord index value).word index' =
      if index' = index then value else block.word index' := by
  split
  · next heq => rw [heq, word_setWord_self h]
  · next hne => exact word_setWord_ne hne

/-! ## Runs of bytes -/

/-- `memcpy` of `length` bytes out of the block. -/
def slice (block : Block) (offset length : Nat) : List UInt8 :=
  (List.range length).map fun index => block.byteAt (offset + index)

/-- `memcpy(block + offset, bytes, |bytes|)` -/
def splice (block : Block) (offset : Nat) (bytes : List UInt8) : Block :=
  ofFn fun position =>
    if offset ≤ position ∧ position < offset + bytes.length
    then bytes.getD (position - offset) 0
    else block.byteAt position

@[simp] theorem length_slice (block : Block) (offset length : Nat) :
    (block.slice offset length).length = length := by
  simp [slice]

theorem byteAt_splice (block : Block) (offset : Nat) (bytes : List UInt8) {position : Nat}
    (h : position < blockSize) :
    (block.splice offset bytes).byteAt position =
      if offset ≤ position ∧ position < offset + bytes.length
      then bytes.getD (position - offset) 0
      else block.byteAt position := by
  rw [splice, byteAt_ofFn_of_lt h]

end Block

end AltFs
