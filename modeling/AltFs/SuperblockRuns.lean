import AltFs.FreshFileSystem
import AltFs.Lib.Runs
import AltFs.Preserved
import Mathlib.Logic.Relation

/-!
# The superblock on disk

Every operation is a sequence of writes of which those to block 0 store the
superblock in memory.  So block 0 is never behind, and a superblock that is
loaded again is the one that was in memory.
-/

namespace AltFs

open Prog

/-- One write to the device or one change in memory, as the operations make them. -/
inductive SuperblockStep : FileSystem → FileSystem → Prop
  | block {s : FileSystem} {b : Int64} (block : Block) (hb : b ≠ 0) :
      SuperblockStep s (s.writeDisk b block)
  | superblock {s : FileSystem} {sb : Superblock}
      (hcount : sb.sInodesCount = s.superblock.sInodesCount)
      (hper : sb.sNumOfInodesPerBlock = s.superblock.sNumOfInodesPerBlock) :
      SuperblockStep s ({ s with superblock := sb }.writeDisk 0 sb.encode)
  | memory {s : FileSystem} (cache : InodeCache) (clock : Nat) :
      SuperblockStep s { s with cache := cache, clock := clock }

abbrev SuperblockPath : FileSystem → FileSystem → Prop := Relation.ReflTransGen SuperblockStep

section

variable [Config]

/-- The superblock in memory has the formatted counts and is the one on disk. -/
structure Stored (s : FileSystem) : Prop extends TableFormat s where
  stored : s.disk 0 = s.superblock.encode

def Persists (s t : FileSystem) : Prop := Stored s → SuperblockPath s t

section Steps

variable {s t : FileSystem} {b inum : Int64} {block : Block}

theorem Stored.step (h : Stored s) (hstep : SuperblockStep s t) : Stored t := by
  cases hstep with
  | block block hb =>
      refine ⟨⟨h.sInodesCount, h.sNumOfInodesPerBlock⟩, ?_⟩
      rw [disk_writeDisk_ne hb.symm]
      exact h.stored
  | superblock hcount hper =>
      refine ⟨⟨?_, ?_⟩, disk_writeDisk_self⟩
      · rw [← h.sInodesCount, ← hcount]
        rfl
      · rw [← h.sNumOfInodesPerBlock, ← hper]
        rfl
  | memory cache clock => exact ⟨⟨h.sInodesCount, h.sNumOfInodesPerBlock⟩, h.stored⟩

theorem Stored.path (h : Stored s) (hpath : SuperblockPath s t) : Stored t := by
  induction hpath with
  | refl => exact h
  | tail _ hstep ih => exact ih.step hstep

instance : IsPreorder FileSystem Persists where
  refl _ _ := .refl
  trans _ _ _ h h' hs := (h hs).trans (h' (hs.path (h hs)))

theorem altfsReadBlock_persists (b : Int64) : Within Persists (altfsReadBlock b) := by
  intro s buffer t hrun
  obtain rfl := altfsReadBlock_cases hrun
  exact refl_of Persists t

theorem altfsWriteBlock_persists (hb : b ≠ 0) : Within Persists (altfsWriteBlock b block) := by
  intro s ok t hrun _
  rcases altfsWriteBlock_cases hrun with rfl | rfl
  · exact .refl
  · exact .single (.block block hb)

theorem altfsWriteSuperblock_persists : Within Persists altfsWriteSuperblock := by
  intro s ok t hrun _
  rw [altfsWriteSuperblock, get_bind_apply] at hrun
  rcases altfsWriteBlock_cases hrun with rfl | rfl
  · exact .refl
  · exact .single (.superblock rfl rfl)

/-- The superblock is written right after it has been changed. -/
theorem updateSuperblock_persists {α : Type} (hzero : InRange 0) (change : Superblock → Superblock)
    (hcount : ∀ sb, (change sb).sInodesCount = sb.sInodesCount)
    (hper : ∀ sb, (change sb).sNumOfInodesPerBlock = sb.sNumOfInodesPerBlock)
    {rest : Bool → Fs α} (hrest : ∀ ok, Within Persists (rest ok)) :
    Within Persists (do
      Prog.modify fun s => { s with superblock := change s.superblock }
      let ok ← altfsWriteSuperblock
      rest ok) := by
  intro s a t hrun hs
  rw [modify_bind_apply, bind_of_eq (altfsWriteSuperblock_run hzero)] at hrun
  have hstep : SuperblockStep s ({ s with superblock := change s.superblock }.writeDisk 0
      (change s.superblock).encode) := .superblock (hcount _) (hper _)
  exact .head hstep (hrest true _ a t hrun (hs.step hstep))

theorem updateSuperblock_persists' (hzero : InRange 0) (change : Superblock → Superblock)
    (hcount : ∀ sb, (change sb).sInodesCount = sb.sInodesCount)
    (hper : ∀ sb, (change sb).sNumOfInodesPerBlock = sb.sNumOfInodesPerBlock) :
    Within Persists (do
      Prog.modify fun s => { s with superblock := change s.superblock }
      altfsWriteSuperblock) := by
  intro s a t hrun hs
  rw [modify_bind_apply, altfsWriteSuperblock_run hzero] at hrun
  cases hrun
  exact .single (.superblock (hcount _) (hper _))

/-! ## The primitives -/

private theorem ne_zero_of_not_invalid (h : ¬isInvalidDataBlock b = true) : b ≠ 0 := by
  have hnonneg := inodeBlockCount_nonneg
  rintro rfl
  simp [isInvalidDataBlock] at h
  omega

theorem allocateDataBlock_persists (hzero : InRange 0) : Within Persists allocateDataBlock := by
  refine .bind .get fun s => ?_
  dsimp only
  split
  · exact .pure _
  next hhead =>
    refine .bind (altfsReadBlock_persists _) fun buffer => ?_
    cases buffer with
    | none => exact .pure _
    | some buffer =>
        cases hslot : firstSlot (· ≠ 0) buffer with
        | some i =>
            have hused : buffer.word i ≠ 0 := by simpa using (firstSlot_eq_some hslot).1
            simp only [hslot]
            refine .bind (altfsWriteBlock_persists hhead) fun _ => .ite (.pure _) ?_
            exact .bind (altfsWriteBlock_persists hused) fun _ => .pure _
        | none =>
            simp only [hslot]
            refine updateSuperblock_persists hzero (fun sb =>
              { sb with sFreelistHead := buffer.word 0 }) (fun _ => rfl) (fun _ => rfl) fun _ => ?_
            refine .ite (.pure _) (.bind (altfsWriteBlock_persists hhead) fun _ => ?_)
            exact .ite (.pure _) (.bind (altfsWriteBlock_persists hhead) fun _ => .pure _)

theorem writeDataBlock_persists (b : Int64) (block : Block) :
    Within Persists (writeDataBlock b block) := by
  rw [writeDataBlock]
  split
  · exact .pure _
  next hvalid => exact altfsWriteBlock_persists (ne_zero_of_not_invalid hvalid)

theorem restartFreelist_persists (hzero : InRange 0) (index : Int64) :
    Within Persists (restartFreelist index) := by
  refine .bind .get fun s => .ite (.pure _) ?_
  exact updateSuperblock_persists' hzero (fun sb => { sb with sFreelistHead := index })
    (fun _ => rfl) fun _ => rfl

/-- After the restart the free list has a head. -/
theorem head_restartFreelist {ok : Bool} (hzero : InRange 0) (hb : b ≠ 0)
    (hrun : restartFreelist b s = some (ok, t)) : t.superblock.sFreelistHead ≠ 0 := by
  rw [restartFreelist, get_bind_apply] at hrun
  split at hrun
  next hhead =>
    cases hrun
    exact hhead
  next =>
    rw [modify_bind_apply, altfsWriteSuperblock_run hzero] at hrun
    cases hrun
    exact hb

theorem freeDataBlock_persists (hzero : InRange 0) (b : Int64) :
    Within Persists (freeDataBlock b) := by
  rw [freeDataBlock]
  split
  · exact .pure _
  next hvalid =>
    have hb := ne_zero_of_not_invalid hvalid
    intro s ok t hrun
    obtain ⟨restarted, u, hrestart, hrest⟩ := bind_eq_some_iff.mp hrun
    have hhead := head_restartFreelist hzero hb hrestart
    refine trans_of Persists (restartFreelist_persists hzero b s _ u hrestart) ?_
    cases restarted with
    | false =>
        cases hrest
        exact refl_of Persists _
    | true =>
        rw [Bool.not_true, if_neg Bool.false_ne_true, get_bind_apply] at hrest
        refine (?_ : Within Persists _) u ok t hrest
        refine .bind (altfsReadBlock_persists _) fun buffer => ?_
        cases buffer with
        | none => exact .pure _
        | some buffer =>
            cases hslot : firstSlot (· = 0) buffer with
            | some i =>
                simp only [hslot]
                exact altfsWriteBlock_persists hhead
            | none =>
                simp only [hslot]
                refine updateSuperblock_persists hzero (fun sb =>
                  { sb with sFreelistHead := b }) (fun _ => rfl) (fun _ => rfl) fun _ => ?_
                exact .ite (.pure _) (altfsWriteBlock_persists hb)

private theorem searchFreeInode_persists (inodesLeft : Int) (fuel : Nat) (buffer : Block)
    (blockNum : Int) (offset : Nat) (visited : Int) :
    Within Persists (searchFreeInode inodesLeft fuel buffer blockNum offset visited) := by
  induction fuel generalizing buffer blockNum offset visited with
  | zero => exact .pure _
  | succ fuel ih =>
      refine .ite (.pure _) (.bind .get fun s => ?_)
      dsimp only
      split
      · exact .pure _
      · refine .ite (.pure _) (.bind (altfsReadBlock_persists _) fun buffer => ?_)
        cases buffer with
        | none => exact .pure _
        | some buffer => exact ih _ _ _ _

private theorem setFirstIno_persists (hzero : InRange 0) (inum : Int) :
    Within Persists (setFirstIno inum) :=
  updateSuperblock_persists hzero (fun sb => { sb with sFirstIno := Int64.ofInt inum })
    (fun _ => rfl) (fun _ => rfl) fun _ => .pure ()

/-- The blocks of the inode table lie behind block 0. -/
private theorem inodeBlock_ne_zero (h : Stored s) (hvalid : ¬(!isValidInodeNumber inum s) = true) :
    Int64.ofInt (inumToBlockPos inum s).1 ≠ 0 := by
  have hinum : ValidInum inum := (isValidInodeNumber_iff h.toTableFormat).mp (by simpa using hvalid)
  rw [inumToBlockPos_eq h.toTableFormat hinum]
  exact inodeBlockOf_ne_zero hinum.index_lt

theorem allocateInode_persists (hzero : InRange 0) : Within Persists allocateInode := by
  intro s inum t hrun hs
  rw [allocateInode, get_bind_apply] at hrun
  dsimp only at hrun
  split at hrun
  · cases hrun
    exact .refl
  split at hrun
  · cases hrun
    exact .refl
  next hvalid =>
    have hblock := inodeBlock_ne_zero hs hvalid
    refine (?_ : Within Persists _) s inum t hrun hs
    refine .bind (altfsReadBlock_persists _) fun buffer => ?_
    cases buffer with
    | none => exact .pure _
    | some buffer =>
        refine .ite (.pure _) (.bind (altfsWriteBlock_persists hblock) fun _ => .ite (.pure _) ?_)
        refine .bind (searchFreeInode_persists _ _ _ _ _ _) fun found => ?_
        cases found with
        | none => exact .bind (setFirstIno_persists hzero _) fun _ => .pure _
        | some visited => exact .bind (setFirstIno_persists hzero _) fun _ => .pure _

theorem freeInode_persists (hzero : InRange 0) (inum : Int64) :
    Within Persists (freeInode inum) := by
  intro s ok t hrun hs
  rw [freeInode, get_bind_apply] at hrun
  split at hrun
  · cases hrun
    exact .refl
  next hvalid =>
    have hblock := inodeBlock_ne_zero hs hvalid
    refine (?_ : Within Persists _) s ok t hrun hs
    refine .bind (altfsReadBlock_persists _) fun buffer => ?_
    cases buffer with
    | none => exact .pure _
    | some buffer =>
        refine .bind (freeDataBlocksInInode_within altfsReadBlock_persists
          (freeDataBlock_persists hzero) _) fun _ => .ite (.pure _) ?_
        refine .bind (altfsWriteBlock_persists hblock) fun _ => .ite (.pure _) ?_
        exact .bind .get fun _ => .bind (setFirstIno_persists hzero _) fun _ => .pure _

theorem writeInode_persists (inum : Int64) (node : Inode) :
    Within Persists (writeInode inum node) := by
  intro s ok t hrun hs
  rw [writeInode, get_bind_apply] at hrun
  split at hrun
  · cases hrun
    exact .refl
  next hvalid =>
    have hblock := inodeBlock_ne_zero hs hvalid
    refine (?_ : Within Persists _) s ok t hrun hs
    refine .bind (altfsReadBlock_persists _) fun buffer => ?_
    cases buffer with
    | none => exact .pure _
    | some buffer => exact altfsWriteBlock_persists hblock

/-- Loading the superblock again changes nothing. -/
theorem loadSuperblock_persists (hzero : InRange 0) : Within Persists loadSuperblock := by
  intro s ok t hrun hs
  simp only [loadSuperblock, bind_of_eq (altfsReadBlock_run hzero), Option.getD_some, hs.stored,
    Superblock.decode_encode] at hrun
  suffices hsame : t = s by
    rw [hsame]
  split at hrun
  · cases hrun
    rfl
  split at hrun
  · cases hrun
    rfl
  rw [modify_bind_apply] at hrun
  split at hrun
  · cases hrun
    rfl
  · cases hrun
    rfl

theorem primitives_persists (hzero : InRange 0) : Primitives Persists where
  altfsReadBlock := altfsReadBlock_persists
  altfsWriteSuperblock := altfsWriteSuperblock_persists
  loadSuperblock := loadSuperblock_persists hzero
  allocateDataBlock := allocateDataBlock_persists hzero
  freeDataBlock := freeDataBlock_persists hzero
  writeDataBlock := writeDataBlock_persists
  allocateInode := allocateInode_persists hzero
  writeInode := writeInode_persists
  freeInode := freeInode_persists hzero
  currentTime s _ t hrun _ := by
    cases hrun
    exact .single (.memory s.cache _)
  cache s cache _ := .single (.memory cache s.clock)

end Steps

/-! ## Runs -/

inductive SystemCall where
  | allocateDataBlock
  | freeDataBlock (index : Int64)
  | writeDataBlock (index : Int64) (buffer : Block)
  | allocateInode
  | freeInode (inum : Int64)
  | writeInode (inum : Int64) (node : Inode)
  | interface (call : InterfaceCall)

def SystemCall.exec : SystemCall → Fs Unit
  | allocateDataBlock => ignoreResult AltFs.allocateDataBlock
  | freeDataBlock index => ignoreResult (AltFs.freeDataBlock index)
  | writeDataBlock index buffer => ignoreResult (AltFs.writeDataBlock index buffer)
  | allocateInode => ignoreResult AltFs.allocateInode
  | freeInode inum => ignoreResult (AltFs.freeInode inum)
  | writeInode inum node => ignoreResult (AltFs.writeInode inum node)
  | interface call => call.exec

def SystemStep (s : FileSystem) (call : SystemCall) (t : FileSystem) : Prop :=
  call.exec s = some ((), t)

theorem SystemStep.persists {s t : FileSystem} {call : SystemCall} (hzero : InRange 0)
    (hstep : SystemStep s call t) : Persists s t := by
  have hignore : ∀ {α : Type} {x : Fs α}, Within Persists x → Within Persists (ignoreResult x) :=
    fun hx => .bind hx fun _ => .pure ()
  refine (?_ : Within Persists call.exec) s () t hstep
  cases call with
  | allocateDataBlock => exact hignore (allocateDataBlock_persists hzero)
  | freeDataBlock index => exact hignore (freeDataBlock_persists hzero index)
  | writeDataBlock index buffer => exact hignore (writeDataBlock_persists index buffer)
  | allocateInode => exact hignore (allocateInode_persists hzero)
  | freeInode inum => exact hignore (freeInode_persists hzero inum)
  | writeInode inum node => exact hignore (writeInode_persists inum node)
  | interface call => exact (primitives_persists hzero).interface_within call

/--
After any sequence of calls block 0 is the superblock in memory, no call
writes it in another way, and loading it gives the same superblock again.
-/
theorem superblock_survives {s₀ s₁ s : FileSystem} (hmake : altfsMakefs s₀ = some (true, s₁))
    (hinodes : 0 < inodeBlockCount) (hrun : Run SystemStep (fun _ _ => True) s₁ s) :
    s.disk 0 = s.superblock.encode ∧
      s.superblock.sInodesCount.toInt = inodeBlockCount * inodesPerBlock ∧
      s.superblock.sNumOfInodesPerBlock.toInt = inodesPerBlock ∧
      (∀ call t, SystemStep s call t → SuperblockPath s t) ∧
      ∀ u : FileSystem, u.disk 0 = s.disk 0 →
        loadSuperblock u = some (true, { u with superblock := s.superblock }) := by
  have hlt := inodeBlockCount_lt hinodes
  have hzero : InRange 0 := ⟨by decide, by rw [Int64.toInt_zero]; omega⟩
  obtain ⟨hpos, hrest⟩ := altfsMakefs_true hmake
  obtain ⟨t, free, hmake', hformatted, -⟩ := @altfsMakefs_run _ s₀ hpos hrest
  obtain rfl : t = s₁ := by simpa [hmake'] using hmake
  have h : Stored s := hrun.invariant ⟨hformatted.format, hformatted.stored⟩
    fun u call v hu _ hstep => hu.path (hstep.persists hzero hu)
  refine ⟨h.stored, ?_, h.sNumOfInodesPerBlock, fun call t hstep => hstep.persists hzero h,
    fun u hu => ?_⟩
  · rw [h.sInodesCount, inodeCount]
    simp only [inodesPerBlock]
    omega
  · exact loadSuperblock_run (hu.trans h.stored) h.sInodesCount h.sNumOfInodesPerBlock hinodes

end

/-- On a device of 519 blocks, after the root has been set up. -/
theorem superblock_survives_519 :
    letI := Config.ofBlocks 519 (by decide)
    ∃ s : FileSystem, s.disk 0 = s.superblock.encode ∧
      ∀ u : FileSystem, u.disk 0 = s.disk 0 →
        loadSuperblock u = some (true, { u with superblock := s.superblock }) := by
  let _ := Config.ofBlocks 519 (by decide)
  have hinodes : 0 < inodeBlockCount := by decide
  obtain ⟨s₁, s₂, hmake, hsetup⟩ := makefs_setup_run FileSystem.blank hinodes (by decide)
  have hstep : SystemStep s₁ (.interface .init) s₂ := by
    refine (bind_of_eq hsetup).trans ?_
    rfl
  obtain ⟨hstored, -, -, -, hload⟩ :=
    superblock_survives hmake hinodes (.single (.interface .init) trivial hstep)
  exact ⟨s₂, hstored, hload⟩

end AltFs
