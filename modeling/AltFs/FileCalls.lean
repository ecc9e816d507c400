import AltFs.FileStore
import AltFs.Renames

/-!
# Runs of writes and reads

A history follows the file system with byte arrays, one for each regular file.
`Refines` is what every run of `altfs_write` and `altfs_read` keeps, and in such
a state a call returns what it means on the byte arrays.
-/

namespace AltFs

open Prog

variable [Config]

inductive FileCall
  | write (path : CString) (buff : List UInt8) (offset : Int64)
  | read (path : CString) (nbytes : Nat) (offset : Int64)

namespace FileCall

def path : FileCall → CString
  | write path _ _ => path
  | read path _ _ => path

/-- What the call returns, with what it stores in the caller's buffer. -/
def perform : FileCall → Fs (Int × List UInt8)
  | write path buff offset => do pure (← altfsWrite path buff offset, [])
  | read path nbytes offset => altfsRead path nbytes offset

/-- What is written is not empty, its offset is not negative, and there is room for it. -/
def Fits (s : FileSystem) (inum : Int64) : FileCall → Prop
  | write _ buff offset => buff ≠ [] ∧ 0 ≤ offset.toInt ∧
      ∀ free, FreeList s free →
        RoomFor (s.inodeAt (inumIndex inum)) offset.toInt.toNat buff.length free.card
  | read _ _ _ => True

/-- The call on byte arrays: its result and the contents of the files after it. -/
def meaning (n : Nat) (files : Nat → List UInt8) :
    FileCall → (Int × List UInt8) × (Nat → List UInt8)
  | write _ buff offset =>
      ((buff.length, []), Function.update files n (put 0 (files n) offset.toInt.toNat buff))
  | read _ nbytes offset => (readResult (files n) nbytes offset.toInt, files)

end FileCall

/-- A file system, and byte arrays that are read and written along with it. -/
structure FileHistory where
  fs : FileSystem
  files : Nat → List UInt8

namespace FileHistory

/-- Every regular file holds its byte array. -/
def Agrees (st : FileHistory) : Prop :=
  ∀ n < inodeCount, (st.fs.inodeAt n).isRegular = true → contentOf st.fs n = st.files n

def Allowed (P : CString → Prop) (st : FileHistory) (call : FileCall) : Prop :=
  P call.path ∧ ∃ inum, FileAt st.fs call.path inum ∧ call.Fits st.fs inum

def Step (st : FileHistory) (call : FileCall) (st' : FileHistory) : Prop :=
  ∃ inum result, FileAt st.fs call.path inum ∧ call.perform st.fs = some (result, st'.fs) ∧
    st'.files = (call.meaning (inumIndex inum) st.files).2

/-- The file system is in order, it holds the byte arrays, and its files are those of `s`. -/
structure Refines (P : CString → Prop) (s : FileSystem) (st : FileHistory) : Prop where
  stored : ∃ free, FilesStored P st.fs free
  agrees : st.Agrees
  fileAt : ∀ path inum, FileAt st.fs path inum ↔ FileAt s path inum

variable {P : CString → Prop} {s : FileSystem} {st st' : FileHistory} {inum : Int64}

/-- A change of one file, on both sides. -/
private theorem Refines.change {free : Multiset Int64} {n : Nat} (h : Refines P s st)
    (hstored : FilesStored P st'.fs free) (hchanged : OneChanged n st.fs st'.fs)
    (hself : contentOf st'.fs n = st'.files n) (hother : ∀ m ≠ n, st'.files m = st.files m) :
    Refines P s st' := by
  refine ⟨⟨free, hstored⟩, fun m hm hreg => ?_, fun path inum => ?_⟩
  · by_cases hne : m = n
    · rw [hne, hself]
    · rw [hchanged.regular m hm] at hreg
      rw [hchanged.content m hm hne hreg, hother m hne, h.agrees m hm hreg]
  · rw [hchanged.fileAt_iff, h.fileAt]

/-- A call returns what it means on the byte arrays, and the file system goes on holding them. -/
theorem Refines.call (h : Refines P s st) (call : FileCall) (hpath : P call.path)
    (hfile : FileAt st.fs call.path inum) (hfits : call.Fits st.fs inum) :
    ∃ t, call.perform st.fs = some ((call.meaning (inumIndex inum) st.files).1, t) ∧
      Refines P s ⟨t, (call.meaning (inumIndex inum) st.files).2⟩ := by
  obtain ⟨free, hstored⟩ := h.stored
  have hn := hfile.valid.index_lt
  have hagrees := h.agrees _ hn hfile.regular
  cases call with
  | write path buff offset =>
      obtain ⟨hbuff, hoffset, hroom⟩ := hfits
      obtain ⟨t, free', hrun, hstored', hchanged, hcontent⟩ :=
        hstored.write hpath hfile hbuff hoffset (hroom free hstored.owned.freeList)
      refine ⟨t, bind_of_eq hrun, h.change hstored' hchanged ?_ fun m hne => ?_⟩
      · change _ = Function.update st.files _ _ _
        rw [hcontent, hagrees, Function.update_self]
      · exact Function.update_of_ne hne _ _
  | read path nbytes offset =>
      obtain ⟨t, hrun, hstored', hchanged, hcontent⟩ := hstored.read hpath hfile nbytes
      refine ⟨t, ?_, h.change hstored' hchanged ?_ fun m hne => rfl⟩
      · rw [hagrees] at hrun
        exact hrun
      · rw [hcontent, hagrees]
        rfl

theorem Refines.step_call (h : Refines P s st) (call : FileCall) (hpath : P call.path)
    (hfile : FileAt st.fs call.path inum) (hfits : call.Fits st.fs inum) :
    ∃ t, Step st call ⟨t, (call.meaning (inumIndex inum) st.files).2⟩ ∧
      Refines P s ⟨t, (call.meaning (inumIndex inum) st.files).2⟩ := by
  obtain ⟨t, hperform, hrefines⟩ := h.call call hpath hfile hfits
  exact ⟨t, ⟨inum, _, hfile, hperform, rfl⟩, hrefines⟩

/-- Bytes that are there are written again without a new block. -/
theorem Refines.roomFor_inside {path : CString} {offset length freeBlocks : Nat}
    (h : Refines P s st) (hfile : FileAt st.fs path inum) (hpos : 0 < length)
    (hinside : offset + length ≤ (st.files (inumIndex inum)).length)
    (hmax : offset + length ≤ blockSize * maxBlocksNum) :
    RoomFor (st.fs.inodeAt (inumIndex inum)) offset length freeBlocks := by
  obtain ⟨free, hstored⟩ := h.stored
  have hn := hfile.valid.index_lt
  have hnum := (hstored.files _ hn hfile.regular).blocksNum
  rw [← h.agrees _ hn hfile.regular, contentOf, length_bytesAt] at hinside
  refine ⟨hmax, ?_⟩
  rw [hnum, Int.toNat_natCast]
  have hnone : (offset + length - 1) / blockSize + 1 -
      ((st.fs.inodeAt (inumIndex inum)).fileSize + blockSize - 1) / blockSize = 0 := by
    simp only [blockSize]
    omega
  rw [hnone, appendCost_zero]
  exact Nat.zero_le _

theorem Refines.step (h : Refines P s st) {call : FileCall} (hallowed : Allowed P st call)
    (hstep : Step st call st') : Refines P s st' := by
  obtain ⟨hpath, inum, hfile, hfits⟩ := hallowed
  obtain ⟨inum', result, hfile', hrun, hfiles⟩ := hstep
  obtain rfl : inum = inum' := Option.some.inj (hfile.walk.symm.trans hfile'.walk)
  obtain ⟨t, hperform, hrefines⟩ := h.call call hpath hfile hfits
  rw [hperform] at hrun
  cases hrun
  obtain ⟨fs, files⟩ := st'
  cases hfiles
  exact hrefines

end FileHistory

theorem FilesStored.refines {P : CString → Prop} {s : FileSystem} {free : Multiset Int64}
    (h : FilesStored P s free) : FileHistory.Refines P s ⟨s, contentOf s⟩ :=
  ⟨⟨free, h⟩, fun _ _ _ => rfl, fun _ _ => Iff.rfl⟩

/--
After every run of writes and reads from a state in which the files are in
order, each further call returns what it means on byte arrays, and the state is
again of this kind.
-/
theorem fileCalls_refine {P : CString → Prop} {s : FileSystem} {free : Multiset Int64}
    (h : FilesStored P s free) {st : FileHistory}
    (hrun : Run FileHistory.Step (FileHistory.Allowed P) ⟨s, contentOf s⟩ st) :
    st.Refines P s ∧ ∀ (call : FileCall) inum, P call.path → FileAt s call.path inum →
      call.Fits st.fs inum →
        ∃ t, call.perform st.fs = some ((call.meaning (inumIndex inum) st.files).1, t) ∧
          FileHistory.Refines P s ⟨t, (call.meaning (inumIndex inum) st.files).2⟩ := by
  have hst : st.Refines P s :=
    hrun.invariant (I := FileHistory.Refines P s) h.refines fun st call st' h hallowed hstep =>
      h.step hallowed hstep
  refine ⟨hst, fun call inum hpath hfile hfits => ?_⟩
  exact hst.call call hpath ((hst.fileAt _ _).mpr hfile) hfits

/-! ## A device with one file -/

section OneFile

variable {s : FileSystem} {free : Multiset Int64} {path : CString} {inum : Int64}

/-- A file of the root directory is cached by its first lookup and found there by the next ones. -/
private theorem resolves_one (hcache : s.cache = InodeCache.createInodeCache cacheCapacity)
    (hroot : path ≠ [slash]) (hparent : copyParentPath path = some [slash]) {name : CString}
    (hname : copyFileName path = some name) (hwalk : walk s path = some inum)
    (hvalid : ValidInum inum) (hpos : 0 < inum.toInt) : Resolves (fun other => other = path) s := by
  have hne : path ≠ [] := by
    rintro rfl
    cases hparent
  have hstep := walk_step (s := s) hroot hparent
  rw [hwalk, walk_root, Option.bind_some, if_neg (by decide)] at hstep
  simp only [hname] at hstep
  obtain ⟨found, hlookup, hvalue⟩ := Option.map_eq_some_iff.mp hstep.symm
  obtain rfl : found = some inum := by
    cases found with
    | none => exact absurd hvalue.symm hvalid.ne_minusOne
    | some value => exact congrArg some hvalue
  have hinv := InodeCache.createInodeCache_inv (show 0 < cacheCapacity by decide)
  rw [← hcache] at hinv
  have hmiss : InodeCache.findFromBucket path s.cache = some (none, s.cache) := by
    apply InodeCache.findFromBucket_empty
    rw [hcache]
    rfl
  have hget := onCache_run (InodeCache.getCacheEntry_miss hmiss)
  have hroomy : ¬s.cache.capacity ≤ s.cache.size := by
    rw [hcache]
    decide
  obtain ⟨cache, kept, hset, hinserted⟩ :=
    InodeCache.setCacheEntry_miss hinv hne hmiss inum fun hfull => absurd hfull hroomy
  obtain rfl := List.eq_nil_of_sublist_nil hinserted.sublist
  have hfirst : nameI path s = some (inum, { s with cache := cache }) := by
    rw [nameI_step hroot hparent, bind_of_eq hget, if_neg (by decide), nameI_root, pure_bind_apply,
      fromParent, if_neg (by decide)]
    simp only [hname, bind_of_eq (nameInDir_run hlookup), bind_of_eq (onCache_run hset), pure_apply]
  -- the node is in front and its bucket points to it
  have hslot : cache.map (cache.hashIndex path) = some s.cache.brk := by
    have hslot := hinserted.slot
    rwa [InodeCache.hashIndex, ← hinserted.capacity] at hslot
  have hhit := hinserted.inv.findFromBucket_head hslot
  rw [List.find?_cons_of_pos (by rw [InodeCache.hasKey, hinserted.keyOf]; exact decide_eq_true rfl)]
    at hhit
  have hagain : InodeCache.getCacheEntry path cache = some (inum, cache) := by
    have hmove : InodeCache.moveToFront s.cache.brk cache = some ((), cache) := by
      rw [InodeCache.moveToFront, get_bind_apply, hinserted.inv.list.head]
      exact congrFun (if_pos rfl) cache
    obtain ⟨entry, hentry, hvalueOf⟩ := Option.map_eq_some_iff.mp hinserted.valueOf
    have hderef : InodeCache.deref (some s.cache.brk) cache = some (entry, cache) := by
      rw [InodeCache.deref, hentry]
      rfl
    rw [InodeCache.getCacheEntry, if_neg hne, bind_of_eq hhit]
    simp only [bind_of_eq hmove, bind_of_eq hderef, pure_apply, hvalueOf]
  have hsecond : nameI path { s with cache := cache } = some (inum, { s with cache := cache }) := by
    rw [nameI_step hroot hparent, bind_of_eq (onCache_run hagain), if_pos hpos]
    rfl
  have hstates : ∀ t, Run LookupStep (fun _ other => other = path) s t →
      t = s ∨ t = { s with cache := cache } := by
    intro t hrun
    refine hrun.invariant (I := fun u => u = s ∨ u = { s with cache := cache }) (.inl rfl)
      fun u other v hu hother hstep => ?_
    obtain ⟨found, hfound⟩ := hstep
    rw [hother] at hfound
    rcases hu with rfl | rfl
    · rw [hfirst] at hfound
      cases hfound
      exact .inr rfl
    · rw [hsecond] at hfound
      cases hfound
      exact .inr rfl
  intro t hrun other hother
  rw [hother]
  rcases hstates t hrun with rfl | rfl
  · exact ⟨inum, _, hwalk, hfirst⟩
  · exact ⟨inum, _, (SameButCache.walk_eq ⟨cache, rfl⟩ path).trans hwalk, hsecond⟩

/-- A device that has one file, and has just been mounted. -/
private theorem exists_filesStored (hinodes : 0 < inodeBlockCount)
    (hrest : numOfDataBlocks % numOfAddressesPerBlock ≠ 0) :
    ∃ s free inum, FilesStored (fun path => path = pathOf [[letterF]]) s free ∧
      FileAt s (pathOf [[letterF]]) inum ∧ contentOf s (inumIndex inum) = [] ∧
      (s.inodeAt (inumIndex inum)).iBlocksNum = 0 ∧ (free.card : Int) = numOfDataBlocks - 1 := by
  obtain ⟨s₀, s, hmake, hsetup⟩ := makefs_setup_run FileSystem.blank hinodes hrest
  obtain ⟨free, root, hfresh, hwell, hready⟩ := mounted_of_makefs hmake hsetup
  obtain ⟨s₁, t, inum, entries, hsame, -, hcreated, hone⟩ := hfresh.oneFile hwell hready
  obtain ⟨u, hu⟩ : ∃ u, u = { t with cache := InodeCache.createInodeCache cacheCapacity } :=
    ⟨_, rfl⟩
  have htu : SameButCache t u := ⟨_, hu⟩
  have hvalid := hcreated.valid
  have hn := hvalid.index_lt
  obtain ⟨currTime, hnode⟩ := hone.node
  rw [← htu.inodeAt] at hnode
  have hregular : (u.inodeAt (inumIndex inum)).isRegular = true := by
    rw [hnode]
    change (true && decide ((sIfreg ||| defaultPermissions) &&& 0xF000 = sIfreg)) = true
    decide
  have hsize : (u.inodeAt (inumIndex inum)).fileSize = 0 := by
    rw [hnode]
    rfl
  have hnum : (u.inodeAt (inumIndex inum)).iBlocksNum = 0 := by
    rw [hnode]
    rfl
  have hwalk := hone.walk_f
  rw [← htu.walk_eq] at hwalk
  have hpos : 0 < inum.toInt := by
    rw [hcreated.least]
    have hsame' := hsame
    obtain ⟨cache, rfl⟩ := hsame'
    change 0 < s.superblock.sFirstIno.toInt
    rw [hfresh.sFirstIno]
    decide
  refine ⟨u, free, inum, ⟨htu.sound hone.tree.toSound, fun n hn hreg => ?_, ?_⟩,
    ⟨hwalk, hvalid, hregular⟩, ?_, hnum, hfresh.card_free⟩
  · by_cases hself : n = inumIndex inum
    · rw [hself]
      refine ⟨?_, ?_, fun j _ hhigh => ?_⟩
      · rw [hnode]
        exact le_rfl
      · rw [hnum, hsize]
        rfl
      · rw [hnum] at hhigh
        exact absurd hhigh (Nat.not_lt_zero j)
    · exfalso
      have hmark := Inode.isRegular_iAllocated hreg
      have hfile := Inode.isRegular_isDir hreg
      rw [htu.inodeAt] at hmark hfile
      by_cases hroot : n = inumIndex rootInodeNum
      · rw [hroot, hone.dir.isDir] at hfile
        cases hfile
      · rw [(hcreated.other n hn hroot hself).1, hsame.inodeAt, hfresh.others n hn hroot] at hmark
        cases hmark
  · have hname : copyFileName (pathOf [[letterF]]) = some [letterF] := rfl
    exact resolves_one (by rw [hu]) (by decide) rfl hname hwalk hvalid hpos
  · rw [contentOf, hsize]
    rfl

omit [Config] in
theorem roomFor_byte {node : Inode} (hnum : node.iBlocksNum = 0) {freeBlocks : Nat}
    (hfree : 0 < freeBlocks) : RoomFor node 0 1 freeBlocks := by
  have hcost : appendCost 0 1 = 1 := by decide
  rw [RoomFor, hnum]
  constructor
  · simp only [blockSize, maxBlocksNum]
    decide
  · change appendCost 0 1 ≤ freeBlocks
    omega

/-- The first byte of the file. -/
private theorem FilesStored.firstByte
    (h : FilesStored (fun path => path = pathOf [[letterF]]) s free)
    (hfile : FileAt s (pathOf [[letterF]]) inum) (hempty : contentOf s (inumIndex inum) = [])
    (hnum : (s.inodeAt (inumIndex inum)).iBlocksNum = 0) (hfree : free ≠ 0) (byte : UInt8) :
    ∃ t free', altfsWrite (pathOf [[letterF]]) [byte] 0 s = some (1, t) ∧
      FilesStored (fun path => path = pathOf [[letterF]]) t free' ∧
      FileAt t (pathOf [[letterF]]) inum ∧ contentOf t (inumIndex inum) = [byte] := by
  obtain ⟨t, free', hrun, hstored, hchanged, hcontent⟩ :=
    @FilesStored.write _ _ s free [byte] _ inum 0 h rfl hfile (List.cons_ne_nil _ _) le_rfl
      (roomFor_byte hnum (Multiset.card_pos.mpr hfree))
  refine ⟨t, free', hrun, hstored, hchanged.fileAt_iff.mpr hfile, ?_⟩
  rw [hcontent, hempty]
  rfl

end OneFile

/-- Three bytes across the end of the first block. -/
private def writeAcross : FileCall := .write (pathOf [[letterF]]) [1, 2, 3] 4095

private def writeAgain : FileCall := .write (pathOf [[letterF]]) [9] 4096

omit [Config] in
private theorem roomFor_across {node : Inode} (hnum : node.iBlocksNum = 0) {freeBlocks : Nat}
    (hfree : 2 ≤ freeBlocks) : RoomFor node 4095 3 freeBlocks := by
  have hcost : appendCost 0 2 = 2 := by decide
  rw [RoomFor, hnum]
  constructor
  · simp only [blockSize, maxBlocksNum]
    decide
  · change appendCost 0 2 ≤ freeBlocks
    omega

omit [Config] in
/-- The bytes of the file after both writes. -/
private theorem readResult_across {files : Nat → List UInt8} {n : Nat} (hempty : files n = []) :
    readResult (put 0 (put 0 (files n) 4095 [1, 2, 3]) 4096 [9]) 3 4095 = (3, [1, 9, 3]) := by
  have hlength : (put 0 (put 0 (files n) 4095 [1, 2, 3]) 4096 [9]).length = 4098 := by
    rw [length_put (List.cons_ne_nil _ _), length_put (List.cons_ne_nil _ _), hempty]
    rfl
  have hslice : slice (put 0 (put 0 (files n) 4095 [1, 2, 3]) 4096 [9]) 4095 3 = [1, 9, 3] := by
    apply eq_of_getD 0
    · rw [length_slice, hlength]
      rfl
    · intro i hi
      rw [length_slice, hlength] at hi
      rw [getD_slice (by omega), getD_put, getD_put]
      obtain rfl | rfl | rfl : i = 0 ∨ i = 1 ∨ i = 2 := by omega
      · rfl
      · rfl
      · rfl
  have hinside : ¬(put 0 (put 0 (files n) 4095 [1, 2, 3]) 4096 [9] ≠ [] ∧
      ((put 0 (put 0 (files n) 4095 [1, 2, 3]) 4096 [9]).length : Int) ≤ 4095) := by
    rw [hlength]
    omega
  have hstart : (4095 : Int).toNat = 4095 := rfl
  rw [readResult, if_neg (by decide), if_neg (by decide), if_neg hinside, hstart, hslice]
  rfl

omit [Config] in
/-- Bytes are written across the end of a block, one of them is written again, and they are read. -/
theorem fileCalls_refine_across :
    letI := Config.ofBlocks 67 (by decide)
    ∃ s st, Run FileHistory.Step (FileHistory.Allowed fun path => path = pathOf [[letterF]])
        ⟨s, contentOf s⟩ st ∧
      ∃ t, altfsRead (pathOf [[letterF]]) 3 4095 st.fs = some ((3, [1, 9, 3]), t) := by
  let _ := Config.ofBlocks 67 (by decide)
  obtain ⟨s, free, inum, hstored, hfile, hempty, hnum, hcard⟩ :=
    exists_filesStored (by decide) (by decide)
  have hdata : numOfDataBlocks = 65 := by decide
  have hfits : writeAcross.Fits s inum := by
    refine ⟨List.cons_ne_nil _ _, by decide, fun other hother => ?_⟩
    obtain rfl := hstored.owned.freeList.unique hother
    exact roomFor_across hnum (by omega)
  obtain ⟨t, hfirst, hrefines⟩ := hstored.refines.step_call writeAcross rfl hfile hfits
  have hrun₁ : Run FileHistory.Step (FileHistory.Allowed fun path => path = pathOf [[letterF]])
      ⟨s, contentOf s⟩ _ := Run.single writeAcross ⟨rfl, inum, hfile, hfits⟩ hfirst
  have hfile₁ := (hrefines.fileAt _ _).mpr hfile
  have hfits₁ : writeAgain.Fits t inum := by
    refine ⟨List.cons_ne_nil _ _, by decide, fun other _ => ?_⟩
    apply hrefines.roomFor_inside hfile₁ Nat.one_pos
    · change 4097 ≤ (Function.update (contentOf s) (inumIndex inum)
        (put 0 (contentOf s (inumIndex inum)) 4095 [1, 2, 3]) (inumIndex inum)).length
      rw [Function.update_self, length_put (List.cons_ne_nil _ _), hempty]
      decide
    · simp only [blockSize, maxBlocksNum]
      decide
  obtain ⟨u, hsecond, -⟩ := hrefines.step_call writeAgain rfl hfile₁ hfits₁
  have hrun := hrun₁.tail writeAgain ⟨rfl, inum, hfile₁, hfits₁⟩ hsecond
  obtain ⟨-, hcalls⟩ := fileCalls_refine hstored hrun
  obtain ⟨v, hread, -⟩ := hcalls (.read (pathOf [[letterF]]) 3 4095) inum rfl hfile trivial
  refine ⟨s, _, hrun, v, hread.trans ?_⟩
  have hresult := @readResult_across (contentOf s) _ hempty
  simp only [FileCall.meaning, writeAcross, writeAgain, Function.update_self]
  exact congrArg (fun result => some (result, v)) hresult

omit [Config] in
/-- Reading at the end of a file of one byte fails; the slice there is empty. -/
theorem altfsRead_end_f :
    letI := Config.ofBlocks 67 (by decide)
    ∃ s free inum data t, FilesStored (fun path => path = pathOf [[letterF]]) s free ∧
      FileAt s (pathOf [[letterF]]) inum ∧ slice (contentOf s (inumIndex inum)) 1 1 = [] ∧
      altfsRead (pathOf [[letterF]]) 1 1 s = some ((-eoverflow, data), t) := by
  let _ := Config.ofBlocks 67 (by decide)
  obtain ⟨s, free, inum, hstored, hfile, hempty, hnum, hcard⟩ :=
    exists_filesStored (by decide) (by decide)
  have hdata : numOfDataBlocks = 65 := by decide
  have hpos : 0 < free.card := by omega
  obtain ⟨t, free', -, hstored', hfile', hcontent⟩ :=
    hstored.firstByte hfile hempty hnum (Multiset.card_pos.mp hpos) 7
  obtain ⟨u, hread, -⟩ := @FilesStored.read _ _ t free' _ inum 1 hstored' rfl hfile' 1
  rw [hcontent] at hread
  refine ⟨t, free', inum, _, u, hstored', hfile', ?_, hread⟩
  rw [hcontent]
  rfl

end AltFs
