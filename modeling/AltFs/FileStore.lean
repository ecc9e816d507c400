import AltFs.FileTree
import AltFs.FreshFiles
import AltFs.NameTree
import AltFs.PathLookups

/-!
# Files as byte arrays

The contents of a file are its bytes below its size.  `FilesStored P s free`
holds between two calls; in such a state `altfs_write` and `altfs_read` do on
the blocks of a file what `put` and `slice` do on its contents.
-/

namespace AltFs

open Prog

/-- `S_ISREG(i_mode)` of an allocated inode. -/
def Inode.isRegular (node : Inode) : Bool :=
  node.iAllocated && node.iMode &&& 0xF000 = sIfreg

def Inode.fileSize (node : Inode) : Nat := node.iFileSize.toInt.toNat

/-- As many blocks as the size takes, and zeros behind the last byte. -/
structure FileSound (s : FileSystem) (node : Inode) : Prop where
  nonneg : 0 ≤ node.iFileSize.toInt
  blocksNum : node.iBlocksNum.toInt = ((node.fileSize + blockSize - 1) / blockSize : Nat)
  tail : ∀ j, node.fileSize ≤ j → j < blockSize * node.iBlocksNum.toInt.toNat →
    fileByte s node j = 0

def contentOf (s : FileSystem) (n : Nat) : List UInt8 :=
  bytesAt s (s.inodeAt n) 0 (s.inodeAt n).fileSize

section Content

variable {s t : FileSystem} {node : Inode} {n m j : Nat}

theorem Inode.isRegular_iAllocated (h : node.isRegular = true) : node.iAllocated = true :=
  (Bool.and_eq_true_iff.mp h).1

theorem Inode.isRegular_isDir (h : node.isRegular = true) : node.isDir = false := by
  have hmode := of_decide_eq_true (Bool.and_eq_true_iff.mp h).2
  rw [Inode.isDir, hmode]
  rfl

theorem getD_bytesAt (position length : Nat) : (bytesAt s node position length).getD j 0 =
    if j < length then fileByte s node (position + j) else 0 := by
  split
  next hj =>
    rw [List.getD_eq_getElem _ _ (by rwa [length_bytesAt])]
    simp only [bytesAt, List.getElem_map, List.getElem_range]
  next hj => rw [List.getD_eq_default _ _ (by rw [length_bytesAt]; omega)]

theorem FileSound.fileSize_le (h : FileSound s node) :
    node.fileSize ≤ blockSize * node.iBlocksNum.toInt.toNat := by
  rw [h.blocksNum, Int.toNat_natCast]
  simp only [blockSize]
  omega

/-- The contents with zeros behind them are the bytes of the blocks with zeros behind them. -/
theorem FileSound.getD_contentOf (h : FileSound s (s.inodeAt n)) :
    (contentOf s n).getD j 0 =
      paddedBytes s (s.inodeAt n) (s.inodeAt n).iBlocksNum.toInt.toNat j := by
  have hle := h.fileSize_le
  rw [contentOf, getD_bytesAt, paddedBytes, Nat.zero_add]
  by_cases hj : j < (s.inodeAt n).fileSize
  · rw [if_pos hj, if_pos (by omega)]
  · rw [if_neg hj]
    split
    next hlt => exact (h.tail j (by omega) hlt).symm
    next => rfl

theorem slice_contentOf (offset length : Nat) : slice (contentOf s n) offset length =
    bytesAt s (s.inodeAt n) offset (min length ((s.inodeAt n).fileSize - offset)) := by
  have hlength : (slice (contentOf s n) offset length).length =
      min length ((s.inodeAt n).fileSize - offset) := by
    rw [length_slice, contentOf, length_bytesAt]
  apply List.ext_getElem
  · rw [hlength, length_bytesAt]
  · intro j hj hj'
    simp only [slice, contentOf, bytesAt, List.getElem_take, List.getElem_drop, List.getElem_map,
      List.getElem_range, Nat.zero_add]

end Content

variable [Config]

/--
Every regular file is sound, no block belongs to two files or is free, and
paths of `P` resolve correctly.
-/
structure FilesStored (P : CString → Prop) (s : FileSystem) (free : Multiset Int64) : Prop
    extends Sound s free where
  files : ∀ n < inodeCount, (s.inodeAt n).isRegular = true → FileSound s (s.inodeAt n)
  resolves : Resolves P s

/-- A path of a regular file. -/
structure FileAt (s : FileSystem) (path : CString) (inum : Int64) : Prop where
  walk : walk s path = some inum
  valid : ValidInum inum
  regular : (s.inodeAt (inumIndex inum)).isRegular = true

/-- Between `s` and `t` only file `n` has changed. -/
structure OneChanged (n : Nat) (s t : FileSystem) : Prop where
  regular : ∀ m < inodeCount, (t.inodeAt m).isRegular = (s.inodeAt m).isRegular
  walk : ∀ path, walk t path = walk s path
  content : ∀ m < inodeCount, m ≠ n → (s.inodeAt m).isRegular = true →
    contentOf t m = contentOf s m

section Steps

variable {P : CString → Prop} {s t : FileSystem} {free free' : Multiset Int64} {n m : Nat}
  {path : CString} {inum : Int64}

theorem OneChanged.fileAt_iff (h : OneChanged n s t) : FileAt t path inum ↔ FileAt s path inum := by
  constructor
  · rintro ⟨hwalk, hvalid, hregular⟩
    rw [h.walk] at hwalk
    rw [h.regular _ hvalid.index_lt] at hregular
    exact ⟨hwalk, hvalid, hregular⟩
  · rintro ⟨hwalk, hvalid, hregular⟩
    rw [← h.walk] at hwalk
    rw [← h.regular _ hvalid.index_lt] at hregular
    exact ⟨hwalk, hvalid, hregular⟩

omit [Config] in
theorem SameButCache.contentOf_eq (h : SameButCache s t) (n : Nat) :
    contentOf t n = contentOf s n := by
  have hat := h.inodeAt n
  obtain ⟨cache, rfl⟩ := h
  rw [contentOf, hat]
  rfl

private theorem SameButCache.filesStored (hsame : SameButCache s t) (h : FilesStored P s free)
    (hresolves : Resolves P t) : FilesStored P t free := by
  refine ⟨hsame.sound h.toSound, fun n hn hregular => ?_, hresolves⟩
  rw [hsame.inodeAt] at hregular ⊢
  obtain ⟨hnonneg, hnum, htail⟩ := h.files n hn hregular
  obtain ⟨cache, rfl⟩ := hsame
  exact ⟨hnonneg, hnum, htail⟩

private theorem SameButCache.oneChanged (hsame : SameButCache s t) (n : Nat) : OneChanged n s t where
  regular m _ := by rw [hsame.inodeAt]
  walk := hsame.walk_eq
  content m _ _ _ := hsame.contentOf_eq m

private theorem OneChanged.trans {u : FileSystem} (h : OneChanged n s t) (h' : OneChanged n t u) :
    OneChanged n s u where
  regular m hm := (h'.regular m hm).trans (h.regular m hm)
  walk path := (h'.walk path).trans (h.walk path)
  content m hm hne hregular := by
    rw [h'.content m hm hne ((h.regular m hm).trans hregular), h.content m hm hne hregular]

/-- The bytes of a file that is not worked on. -/
private theorem OthersKept.fileByte_eq (h : OthersKept n s t) (hs : Sound s free)
    (hm : m < inodeCount) (hne : m ≠ n) {j : Nat}
    (hj : j < blockSize * (s.inodeAt m).iBlocksNum.toInt.toNat) :
    fileByte t (t.inodeAt m) j = fileByte s (s.inodeAt m) j := by
  rw [h.inodeAt m hm hne]
  apply AltFs.fileByte_eq
  · exact (h.kept hm hne).blockAt _
  · apply h.disk
    have hposition : ((j / blockSize : Nat) : Int) < (s.inodeAt m).iBlocksNum.toInt := by
      simp only [blockSize] at *
      omega
    exact Multiset.mem_of_le (blocks_le_otherBlocks hm hne)
      (blockAt_mem_blocks ((hs.inodes m hm).mapped.blockAt_ne_zero _ hposition))

/-- Work on one regular file that leaves it sound. -/
private theorem FilesStored.change (h : FilesStored P s free) (hsound : Sound t free')
    (hothers : OthersKept n s t) (hcache : t.cache = s.cache)
    (hregular : (s.inodeAt n).isRegular = true) (hregular' : (t.inodeAt n).isRegular = true)
    (hfile : FileSound t (t.inodeAt n)) : FilesStored P t free' ∧ OneChanged n s t := by
  have hlookup := hothers.lookupIn_eq h.toSound hsound (Inode.isRegular_isDir hregular)
    (Inode.isRegular_isDir hregular')
  have halike : Alike s t := ⟨hlookup, hcache⟩
  refine ⟨⟨hsound, fun m hm hreg => ?_, halike.resolves h.resolves⟩, fun m hm => ?_,
    walk_congr hlookup, fun m hm hne hreg => ?_⟩
  · by_cases hself : m = n
    · rw [hself]
      exact hfile
    · have hat := hothers.inodeAt m hm hself
      rw [hat] at hreg
      obtain ⟨hnonneg, hnum, htail⟩ := h.files m hm hreg
      refine ⟨by rwa [hat], by rwa [hat], fun j hlow hhigh => ?_⟩
      rw [hat] at hlow hhigh
      rw [hothers.fileByte_eq h.toSound hm hself hhigh]
      exact htail j hlow hhigh
  · by_cases hself : m = n
    · rw [hself, hregular, hregular']
    · rw [hothers.inodeAt m hm hself]
  · have hat := hothers.inodeAt m hm hne
    rw [contentOf, contentOf, bytesAt, bytesAt, hat]
    apply List.map_congr_left
    intro j hj
    have hj := List.mem_range.mp hj
    have hle := (h.files m hm hreg).fileSize_le
    have hbyte := hothers.fileByte_eq h.toSound hm hne (show 0 + j < _ by omega)
    rwa [hat] at hbyte

end Steps

/-! ## Writing -/

section Write

variable {P : CString → Prop} {s t : FileSystem} {free free' leak : Multiset Int64} {n m k : Nat}
  {offset : Nat} {buff : List UInt8} {path : CString} {inum : Int64}

/-- `length` bytes at `offset` stay below the largest size, and the blocks they take can be added. -/
def RoomFor (node : Inode) (offset length freeBlocks : Nat) : Prop :=
  offset + length ≤ blockSize * maxBlocksNum ∧
    appendCost node.iBlocksNum.toInt.toNat
      ((offset + length - 1) / blockSize + 1 - node.iBlocksNum.toInt.toNat) ≤ freeBlocks

/-- With room for all blocks the whole buffer is written. -/
theorem FileWritten.complete (h : FileWritten n offset buff m k leak free s free' t)
    (hbuff : buff ≠ []) (hm : (s.inodeAt n).iBlocksNum.toInt = m)
    (hroom : RoomFor (s.inodeAt n) offset buff.length free.card) :
    k = (offset + buff.length - 1) / blockSize + 1 - m ∧
      writtenUpTo offset buff.length (m + k) = buff.length ∧ leak = 0 := by
  have hpos := List.length_pos_iff.mpr hbuff
  obtain ⟨hend, hcost⟩ := hroom
  rw [hm, Int.toNat_natCast] at hcost
  have hle := h.le
  have hall : k = (offset + buff.length - 1) / blockSize + 1 - m := by
    by_contra hne
    have hlast : (offset + buff.length - 1) / blockSize < maxBlocksNum := by
      rw [Nat.div_lt_iff_lt_mul (by decide), Nat.mul_comm]
      omega
    have hmore := appendCost_mono m (show k + 1 ≤ (offset + buff.length - 1) / blockSize + 1 - m by
      omega)
    rcases h.stopped (by omega) with hfew | hfull
    · omega
    · omega
  refine ⟨hall, ?_, h.leaks.mpr (.inl (by omega))⟩
  simp only [writtenUpTo, blockSize] at *
  omega

/-- What has been written completely is the old contents with the buffer put in. -/
theorem FileWritten.spec (h : FileWritten n offset buff m k leak free s free' t)
    (hbuff : buff ≠ []) (hm : (s.inodeAt n).iBlocksNum.toInt = m)
    (hroom : RoomFor (s.inodeAt n) offset buff.length free.card)
    (hfile : FileSound s (s.inodeAt n)) :
    FileSound t (t.inodeAt n) ∧ contentOf t n = put 0 (contentOf s n) offset buff := by
  obtain ⟨hall, hwritten, -⟩ := h.complete hbuff hm hroom
  have hpos := List.length_pos_iff.mpr hbuff
  have hnum := h.blocksNum
  have hsize := h.size
  have hbytes := h.fileByte
  have hnonneg := hfile.nonneg
  have hold := hfile.blocksNum
  rw [hwritten] at hsize
  have hnew : (t.inodeAt n).fileSize = max (s.inodeAt n).fileSize (offset + buff.length) := by
    rw [Inode.fileSize, Inode.fileSize, hsize]
    omega
  rw [hm, Nat.cast_inj] at hold
  have hsound : FileSound t (t.inodeAt n) := by
    refine ⟨by omega, ?_, fun j hlow hhigh => ?_⟩
    · rw [hnum, hnew, Nat.cast_inj]
      simp only [blockSize] at *
      omega
    · rw [hnum, Int.toNat_natCast] at hhigh
      rw [hnew] at hlow
      rw [hbytes j hhigh, spliced_outside (by omega), paddedBytes]
      split
      next hlt =>
        apply hfile.tail
        · omega
        · rwa [hm, Int.toNat_natCast]
      next => rfl
  refine ⟨hsound, eq_of_getD 0 ?_ fun j hj => ?_⟩
  · rw [length_put hbuff, contentOf, contentOf, length_bytesAt, length_bytesAt, hnew]
  · have hle := hsound.fileSize_le
    rw [contentOf, length_bytesAt] at hj
    rw [hnum, Int.toNat_natCast] at hle
    rw [getD_put, hfile.getD_contentOf, hsound.getD_contentOf, hm, hnum, Int.toNat_natCast,
      Int.toNat_natCast, paddedBytes, if_pos (by omega), hbytes j (by omega), spliced]

/-- `altfs_write` on a regular file with room for the buffer. -/
theorem FilesStored.write {offset : Int64} (h : FilesStored P s free) (hpath : P path)
    (hfile : FileAt s path inum) (hbuff : buff ≠ []) (hoffset : 0 ≤ offset.toInt)
    (hroom : RoomFor (s.inodeAt (inumIndex inum)) offset.toInt.toNat buff.length free.card) :
    ∃ t free', altfsWrite path buff offset s = some ((buff.length : Int), t) ∧
      FilesStored P t free' ∧ OneChanged (inumIndex inum) s t ∧
      contentOf t (inumIndex inum) =
        put 0 (contentOf s (inumIndex inum)) offset.toInt.toNat buff := by
  have hn := hfile.valid.index_lt
  have hlength : buff.length ≠ 0 := fun hzero => hbuff (List.length_eq_zero_iff.mp hzero)
  obtain ⟨s₁, hname, hsame, hresolves⟩ := h.resolves.nameI_run hpath hfile.walk
  have h₁ := hsame.filesStored h hresolves
  have hregular := hfile.regular
  rw [← hsame.inodeAt] at hregular hroom
  have hsound := h₁.files _ hn hregular
  obtain ⟨-, ⟨m, hm, -⟩, -⟩ := h₁.inodes _ hn
  have hlt : offset.toInt.toNat < 2 ^ 63 := by
    have := offset.toInt_lt
    omega
  obtain ⟨k, leak, free', t, hrun, hwritten⟩ := writeInum_spec h₁.toSound hfile.valid hbuff hlt hm
  obtain ⟨-, hall, rfl⟩ := hwritten.complete hbuff hm hroom
  obtain ⟨hsound', hcontent⟩ := hwritten.spec hbuff hm hroom hsound
  have hregular' : (t.inodeAt (inumIndex inum)).isRegular = true := by
    rw [Inode.isRegular, hwritten.iAllocated, hwritten.iMode]
    exact hregular
  obtain ⟨hstored, hchanged⟩ := h₁.change
    (hwritten.sound h₁.toSound (Inode.isRegular_iAllocated hregular)) hwritten.others hwritten.cache
    hregular hregular' hsound'
  refine ⟨t, free', ?_, hstored, (hsame.oneChanged _).trans hchanged, ?_⟩
  · rw [altfsWrite, if_neg hlength, if_neg (not_lt.mpr hoffset), bind_of_eq hname,
      if_neg hfile.valid.ne_minusOne, hrun, hall]
  · rw [hcontent, hsame.contentOf_eq]

end Write

/-! ## Reading -/

section Read

variable {P : CString → Prop} {s t : FileSystem} {free : Multiset Int64} {n : Nat} {node : Inode}
  {path : CString} {inum : Int64}

/-- The inode is stored again with another access time. -/
private theorem Sound.touch (h : Sound s free) (hn : n < inodeCount)
    (hmark : (s.inodeAt n).iAllocated = true) (clock : Nat) (currTime : Int64) :
    ∃ t, t = ({ s with clock := clock } : FileSystem).setInode n ((s.inodeAt n).touch currTime) ∧
      Sound t free ∧ OthersKept n s t ∧ t.cache = s.cache ∧
      t.inodeAt n = (s.inodeAt n).touch currTime ∧
      ∀ j < blockSize * (s.inodeAt n).iBlocksNum.toInt.toNat,
        fileByte t (t.inodeAt n) j = fileByte s (s.inodeAt n) j := by
  generalize hnode : (s.inodeAt n).touch currTime = node
  generalize hu : ({ s with clock := clock } : FileSystem) = u
  have hat : ∀ m, u.inodeAt m = s.inodeAt m := by
    rw [← hu]
    exact fun m => inodeAt_of_disk_eq rfl
  have hdisk : u.disk = s.disk := by rw [← hu]
  have hsound : Sound u free := h.congr hdisk (by rw [← hu])
  have hmap : node = node.withMap (u.inodeAt n) := by
    rw [hat, ← hnode]
    rfl
  have hsoundNode : SoundInode u node := by
    obtain ⟨hmapped, ⟨count, hcount, hfilled⟩, -⟩ := hsound.inodes n hn
    refine ⟨hmapped.of_withMap hmap, ⟨count, ?_, hfilled.of_withMap hmap⟩, fun hfree => ?_⟩
    · rw [hmap]
      exact hcount
    · rw [← hnode, Inode.touch, hmark] at hfree
      cases hfree
  have hedit : Editing u free n node := by
    obtain ⟨hstored, howned, hothers⟩ := hsound.edit hn
    rw [← Inode.blocks_eq_of_withMap (u.inodeAt n) hmap] at howned
    exact ⟨hstored, howned, hothers⟩
  have hclock : OthersKept n s u := ⟨fun m _ _ => hat m, fun b _ => congrFun hdisk b⟩
  have hsame : SameData u (u.setInode n node) := .setInode node hn
  have hself : (u.setInode n node).inodeAt n = node := inodeAt_setInode_self
  refine ⟨_, rfl, hedit.commit hn hsoundNode,
    hclock.trans (othersKept_setInode hedit.owned le_rfl hn), ?_, hself, fun j hj => ?_⟩
  · rw [← hu]
    rfl
  · have hposition : ((j / blockSize : Nat) : Int) < node.iBlocksNum.toInt := by
      rw [hmap, hat]
      change _ < (s.inodeAt n).iBlocksNum.toInt
      simp only [blockSize] at *
      omega
    have hkept : node.Kept u (u.setInode n node) :=
      hsame.kept hedit.owned (Multiset.le_add_right _ _)
    have hblock := hsoundNode.mapped.blockAt_ne_zero _ hposition
    have hdata := hedit.owned.data _ (Multiset.mem_add.mpr (.inl (blockAt_mem_blocks hblock)))
    rw [hself, fileByte, hkept.blockAt, hsame.disk _ hdata, Inode.blockAt_eq_of_withMap hmap, hat,
      fileByte, ← hu]
    rfl

private theorem FilesStored.touch (h : FilesStored P s free) (hn : n < inodeCount)
    (hregular : (s.inodeAt n).isRegular = true) (clock : Nat) (currTime : Int64) :
    ∃ t, t = ({ s with clock := clock } : FileSystem).setInode n ((s.inodeAt n).touch currTime) ∧
      FilesStored P t free ∧ OneChanged n s t ∧ contentOf t n = contentOf s n := by
  obtain ⟨t, ht, hsound, hothers, hcache, hself, hbytes⟩ :=
    h.toSound.touch hn (Inode.isRegular_iAllocated hregular) clock currTime
  have hfile := h.files n hn hregular
  have hsize : (t.inodeAt n).fileSize = (s.inodeAt n).fileSize := by rw [hself]; rfl
  have hnum : (t.inodeAt n).iBlocksNum = (s.inodeAt n).iBlocksNum := by rw [hself]; rfl
  have hregular' : (t.inodeAt n).isRegular = true := by
    rw [hself]
    exact hregular
  have hfile' : FileSound t (t.inodeAt n) := by
    refine ⟨?_, ?_, fun j hlow hhigh => ?_⟩
    · rw [hself]
      exact hfile.nonneg
    · rw [hnum, hsize]
      exact hfile.blocksNum
    · rw [hsize] at hlow
      rw [hnum] at hhigh
      rw [hbytes j hhigh]
      exact hfile.tail j hlow hhigh
  obtain ⟨hstored, hchanged⟩ := h.change hsound hothers hcache hregular hregular' hfile'
  refine ⟨t, ht, hstored, hchanged, eq_of_getD 0 ?_ fun j hj => ?_⟩
  · rw [contentOf, contentOf, length_bytesAt, length_bytesAt, hsize]
  · rw [contentOf, length_bytesAt, hsize] at hj
    have hle := hfile.fileSize_le
    rw [hfile'.getD_contentOf, hfile.getD_contentOf, paddedBytes, paddedBytes, hnum,
      if_pos (by omega), if_pos (by omega)]
    exact hbytes j (by omega)

/-- `altfs_read` once the path has been resolved; at most the access time is stored. -/
theorem altfsRead_run {s₁ : FileSystem} {nbytes : Nat} {offset : Int64} (h : Sound s₁ free)
    (hname : nameI path s = some (inum, s₁)) (hvalid : ValidInum inum)
    (hfile : FileSound s₁ (s₁.inodeAt (inumIndex inum))) (hnbytes : nbytes ≠ 0)
    (hoffset : 0 ≤ offset.toInt) :
    ∃ t, altfsRead path nbytes offset s =
        some (readResult (contentOf s₁ (inumIndex inum)) nbytes offset.toInt, t) ∧
      (t = s₁ ∨ ∃ clock currTime, t = ({ s₁ with clock := clock } : FileSystem).setInode
        (inumIndex inum) ((s₁.inodeAt (inumIndex inum)).touch currTime)) := by
  have hn := hvalid.index_lt
  have hsize := hfile.nonneg
  have hlength : (contentOf s₁ (inumIndex inum)).length = (s₁.inodeAt (inumIndex inum)).fileSize :=
    length_bytesAt _ _
  have hnil : contentOf s₁ (inumIndex inum) = [] ↔
      (s₁.inodeAt (inumIndex inum)).fileSize = 0 := by
    rw [← List.length_eq_zero_iff, hlength]
  have hread := getInode_run h.stored.toTableFormat hvalid
  rw [altfsRead, readResult, if_neg hnbytes, if_neg hnbytes, if_neg (not_lt.mpr hoffset),
    if_neg (not_lt.mpr hoffset), bind_of_eq hname, if_neg hvalid.ne_minusOne, bind_of_eq hread]
  by_cases hempty : (s₁.inodeAt (inumIndex inum)).iFileSize = 0
  · have hcontentNil := hnil.mpr (by rw [Inode.fileSize, hempty]; rfl)
    refine ⟨s₁, ?_, .inl rfl⟩
    rw [if_pos hempty, if_neg (fun hall => hall.1 hcontentNil), hcontentNil, slice,
      List.drop_nil, List.take_nil]
    rfl
  have hne : (s₁.inodeAt (inumIndex inum)).iFileSize.toInt ≠ 0 := fun hzero =>
    hempty (Int64.toInt_inj.mp hzero)
  have hcontentNe : contentOf s₁ (inumIndex inum) ≠ [] := by
    rw [ne_eq, hnil, Inode.fileSize]
    omega
  by_cases hbehind : offset.toInt ≥ (s₁.inodeAt (inumIndex inum)).iFileSize.toInt
  · refine ⟨s₁, ?_, .inl rfl⟩
    have hlow : ((contentOf s₁ (inumIndex inum)).length : Int) ≤ offset.toInt := by
      rw [hlength, Inode.fileSize]
      omega
    rw [if_neg hempty, if_pos hbehind, if_pos ⟨hcontentNe, hlow⟩]
    rfl
  have hle := hfile.fileSize_le
  obtain ⟨m, hwell⟩ := h.wellMapped hn
  rw [hwell.blocksNum, Int.toNat_natCast, Inode.fileSize] at hle
  have hbytes := @readRange_spec _ s₁ _ _ _ m offset.toInt.toNat
    (min nbytes ((s₁.inodeAt (inumIndex inum)).iFileSize.toInt - offset.toInt).toNat)
    (h.owned.mono (blocks_le_tableBlocks hn)) le_rfl hwell.mapped hwell.blocksNum (by omega)
    (by omega)
  have hlow : ¬((contentOf s₁ (inumIndex inum)).length : Int) ≤ offset.toInt := by
    rw [hlength, Inode.fileSize]
    omega
  have hslice : bytesAt s₁ (s₁.inodeAt (inumIndex inum)) offset.toInt.toNat
      (min nbytes ((s₁.inodeAt (inumIndex inum)).iFileSize.toInt - offset.toInt).toNat) =
        slice (contentOf s₁ (inumIndex inum)) offset.toInt.toNat nbytes := by
    rw [slice_contentOf, Inode.fileSize]
    congr 2
    omega
  rw [hslice] at hbytes
  refine ⟨_, ?_, .inr ⟨s₁.clock + 1, Config.timeAt s₁.clock, rfl⟩⟩
  rw [if_neg hempty, if_neg hbehind, if_neg (fun hall => hlow hall.2)]
  have hformat : TableFormat { s₁ with clock := s₁.clock + 1 } :=
    ⟨h.stored.sInodesCount, h.stored.sNumOfInodesPerBlock⟩
  have htime : currentTime s₁ =
      some (Config.timeAt s₁.clock, { s₁ with clock := s₁.clock + 1 }) := rfl
  rw [bind_of_eq hbytes]
  simp only [Bool.not_true, Bool.false_eq_true, if_false, bind_of_eq htime,
    bind_of_eq (writeInode_run hformat hvalid), pure_apply]

/-- `altfs_read` on a regular file. -/
theorem FilesStored.read {offset : Int64} (h : FilesStored P s free) (hpath : P path)
    (hfile : FileAt s path inum) (nbytes : Nat) :
    ∃ t, altfsRead path nbytes offset s =
        some (readResult (contentOf s (inumIndex inum)) nbytes offset.toInt, t) ∧
      FilesStored P t free ∧ OneChanged (inumIndex inum) s t ∧
      contentOf t (inumIndex inum) = contentOf s (inumIndex inum) := by
  have hn := hfile.valid.index_lt
  have hidle := (refl_of SameButCache s).oneChanged (inumIndex inum)
  by_cases hnone : nbytes = 0
  · refine ⟨s, ?_, h, hidle, rfl⟩
    rw [altfsRead, readResult, if_pos hnone, if_pos hnone]
    rfl
  by_cases hoffset : offset.toInt < 0
  · refine ⟨s, ?_, h, hidle, rfl⟩
    rw [altfsRead, readResult, if_neg hnone, if_neg hnone, if_pos hoffset, if_pos hoffset]
    rfl
  obtain ⟨s₁, hname, hsame, hresolves⟩ := h.resolves.nameI_run hpath hfile.walk
  have h₁ := hsame.filesStored h hresolves
  have hcontent := hsame.contentOf_eq (inumIndex inum)
  have hchanged := hsame.oneChanged (inumIndex inum)
  have hregular := hfile.regular
  rw [← hsame.inodeAt] at hregular
  obtain ⟨t, hrun, ht⟩ := @altfsRead_run _ _ _ _ _ _ _ offset h₁.toSound hname hfile.valid
    (h₁.files _ hn hregular) hnone (not_lt.mp hoffset)
  rw [hcontent] at hrun
  refine ⟨t, hrun, ?_⟩
  rcases ht with rfl | ⟨clock, currTime, ht⟩
  · exact ⟨h₁, hchanged, hcontent⟩
  · obtain ⟨t', ht', hstored, htouched, hkept⟩ := h₁.touch hn hregular clock currTime
    rw [← ht'] at ht
    rw [ht]
    exact ⟨hstored, hchanged.trans htouched, hkept.trans hcontent⟩

end Read

end AltFs
