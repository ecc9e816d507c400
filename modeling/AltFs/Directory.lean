import AltFs.BlockLookup
import AltFs.Lib.FiniteMap
import AltFs.Records

/-!
# The entries of a directory

`DirContents s node contents`: the blocks of the directory hold the entries of
`contents`, block by block.  Searching, adding and removing a record are
specified on these lists.
-/

namespace AltFs

structure DirContents (s : FileSystem) (node : Inode) (contents : List (List Entry)) : Prop where
  isDir : node.isDir = true
  mapped : node.Mapped s
  blocksNum : node.iBlocksNum.toInt = contents.length
  records : ∀ i (h : i < contents.length), RecordsAt (s.disk (node.blockAt s i)) 0 contents[i]

/-- `filePos` is the first record with the name, in block `i` of the directory. -/
structure FoundAt (s : FileSystem) (node : Inode) (contents : List (List Entry)) (name : CString)
    (filePos : FilePosition) (i : Nat) : Prop where
  index : i < contents.length
  pBlock : filePos.pBlock = s.disk filePos.pBlockNum
  pBlockNum : filePos.pBlockNum = node.blockAt s i
  offset : recordPosition name 0 contents[i] = some filePos.offset

/-- The inode number in the record found. -/
def FilePosition.inum (filePos : FilePosition) : Int64 :=
  recordInum filePos.pBlock filePos.offset

namespace DirContents

variable {s s' : FileSystem} {node node' : Inode} {contents : List (List Entry)} {i : Nat}

theorem nil (hdir : node.isDir = true) (hempty : node.EmptyMap) : DirContents s node [] where
  isDir := hdir
  mapped := hempty.mapped s
  blocksNum := by
    rw [hempty.blocksNum]
    rfl
  records i hi := absurd hi (by simp)

theorem blockAt_ne_zero (h : DirContents s node contents) (hi : i < contents.length) :
    node.blockAt s i ≠ 0 :=
  h.mapped.blockAt_ne_zero i (by rw [h.blocksNum]; omega)

theorem length_le (h : DirContents s node contents) : contents.length ≤ maxBlocksNum := by
  by_contra hlt
  exact h.blockAt_ne_zero (i := maxBlocksNum) (by omega) (Inode.blockAt_of_ge le_rfl)

theorem short (h : DirContents s node contents) {entry : Entry}
    (hentry : entry ∈ contents.flatten) : entry.1.length ≤ maxFileNameLength := by
  obtain ⟨entries, hentries, hmem⟩ := List.mem_flatten.mp hentry
  obtain ⟨i, hi, rfl⟩ := List.mem_iff_getElem.mp hentries
  exact (h.records i hi).short hmem

/-- Only so many records fit in the blocks of a directory. -/
theorem length_flatten_le (h : DirContents s node contents) :
    contents.flatten.length ≤ contents.length * 372 := by
  rw [List.length_flatten]
  have := List.sum_le_card_nsmul (contents.map List.length) 372 fun n hn => by
    obtain ⟨entries, hentries, rfl⟩ := List.mem_map.mp hn
    obtain ⟨i, hi, rfl⟩ := List.mem_iff_getElem.mp hentries
    exact (h.records i hi).length_le
  simpa using this

theorem of_map (h : DirContents s node contents) (hmap : node' = node'.withMap node)
    (hdir : node'.isDir = node.isDir) : DirContents s node' contents where
  isDir := hdir.trans h.isDir
  mapped := h.mapped.of_withMap hmap
  blocksNum := by
    rw [hmap]
    exact h.blocksNum
  records i hi := by
    rw [Inode.blockAt_eq_of_withMap hmap]
    exact h.records i hi

theorem of_withMap (h : DirContents s node contents) (hmap : node' = node'.withMap node)
    (hmode : node'.iMode = node.iMode) : DirContents s node' contents :=
  h.of_map hmap (by rw [Inode.isDir, Inode.isDir, hmode])

/-- Only the blocks of the positions and the kind of the inode matter. -/
theorem of_same (h : DirContents s node contents) (hdir : node'.isDir = true)
    (hcount : node'.iBlocksNum.toInt = contents.length)
    (hblockAt : ∀ i < contents.length, node'.blockAt s i = node.blockAt s i) :
    DirContents s node' contents where
  isDir := hdir
  mapped := by
    refine ⟨by rw [hcount]; exact Int.natCast_nonneg _, fun i hi => ?_⟩
    rw [hcount] at hi
    rw [hblockAt i (by omega)]
    exact h.blockAt_ne_zero (by omega)
  blocksNum := hcount
  records i hi := by
    rw [hblockAt i hi]
    exact h.records i hi

/-- The blocks of a directory determine its entries. -/
theorem unique {contents' : List (List Entry)} (h : DirContents s node contents)
    (h' : DirContents s node contents') : contents = contents' := by
  have hlength : contents.length = contents'.length := by
    have hblocks := h.blocksNum.symm.trans h'.blocksNum
    omega
  exact List.ext_getElem hlength fun i hi hi' => (h.records i hi).unique (h'.records i hi')

/-- A change that leaves the blocks of the directory alone leaves its entries alone. -/
theorem of_disk_eq (h : DirContents s node contents)
    (hdisk : ∀ a ∈ node.blocks s, s'.disk a = s.disk a) : DirContents s' node contents := by
  have hkept : node.Kept s s' := fun a ha =>
    hdisk a (Multiset.mem_of_le (indirect_le_blocks s node) ha)
  refine ⟨h.isDir, hkept.mapped h.mapped, h.blocksNum, fun i hi => ?_⟩
  rw [hkept.blockAt, hdisk _ (blockAt_mem_blocks (h.blockAt_ne_zero hi))]
  exact h.records i hi

end DirContents

variable [Config]

section Search

variable {s : FileSystem} {node : Inode} {contents : List (List Entry)} {name : CString}
  {free held : Multiset Int64}

theorem DirContents.dataBlock (h : DirContents s node contents)
    (hdata : ∀ b ∈ node.blocks s, DataBlock b) {i : Nat} (hi : i < contents.length) :
    DataBlock (node.blockAt s i) :=
  hdata _ (blockAt_mem_blocks (h.blockAt_ne_zero hi))

omit [Config] in
private theorem drop_eq_cons {l : Nat} (h : l < contents.length) :
    (contents.drop l).flatten = contents[l] ++ (contents.drop (l + 1)).flatten := by
  rw [List.drop_eq_getElem_cons h, List.flatten_cons]

theorem findInBlocks_spec (name : CString) (h : DirContents s node contents)
    (hdata : ∀ b ∈ node.blocks s, DataBlock b) {count l : Nat} {prev : Int64}
    (hcount : l + count = contents.length) (hprev : PrevValid s node l prev) :
    ∃ result, findInBlocks name node count l prev s = some (result, s) ∧
      (contents.drop l).flatten.lookup name = result.map FilePosition.inum ∧
      ∀ filePos, result = some filePos → ∃ i, FoundAt s node contents name filePos i := by
  induction count generalizing l prev with
  | zero =>
      refine ⟨none, rfl, ?_, by simp⟩
      rw [List.drop_eq_nil_of_le (by omega)]
      rfl
  | succ count ih =>
      have hl : l < contents.length := by omega
      have hblock := h.dataBlock hdata hl
      have hrecords := h.records l hl
      obtain ⟨prev', hlookup, hprev'⟩ := getDiskBlockFromInodeBlock_run hdata h.mapped
        (i := l) (by rw [h.blocksNum]; omega) hprev
      have hpos : ¬(node.blockAt s l).toInt ≤ 0 := by
        have := hblock.pos
        omega
      have hfind : findRecord (s.disk (node.blockAt s l)) name blockSize 0 = _ :=
        findRecord_spec hrecords (by
          have := hrecords.length_le
          simp only [blockSize]
          omega)
      rw [drop_eq_cons hl, List.lookup_append]
      cases hposition : recordPosition name 0 contents[l] with
      | some offset =>
          rw [hposition] at hfind
          refine ⟨some ⟨s.disk (node.blockAt s l), node.blockAt s l, offset⟩, ?_, ?_,
            fun filePos hfilePos => ⟨l, ?_⟩⟩
          · simp only [findInBlocks, Prog.bind_of_eq hlookup, if_neg hpos,
              Prog.bind_of_eq (readDataBlockArray_run hblock), hfind,
              Prog.bind_of_eq (Prog.ofOption_some _ _), Prog.pure_apply]
          · rw [recordPosition_lookup hrecords hposition, Option.some_or]
            rfl
          · rw [← Option.some.inj hfilePos]
            exact ⟨hl, rfl, rfl, hposition⟩
      | none =>
          rw [hposition] at hfind
          obtain ⟨result, hrest, hresult, hfound⟩ := ih (by omega) hprev'
          refine ⟨result, ?_, ?_, hfound⟩
          · simp only [findInBlocks, Prog.bind_of_eq hlookup, if_neg hpos,
              Prog.bind_of_eq (readDataBlockArray_run hblock), hfind,
              Prog.bind_of_eq (Prog.ofOption_some _ _)]
            exact hrest
          · rw [lookup_eq_none_iff.mpr (recordPosition_eq_none.mp hposition), Option.none_or,
              hresult]

/-- The search finds the first record with the name, if there is one. -/
theorem getFilePositionInDir_spec (h : DirContents s node contents)
    (hdata : ∀ b ∈ node.blocks s, DataBlock b) (name : CString) :
    ∃ result, getFilePositionInDir name node s = some (result, s) ∧
      contents.flatten.lookup name = result.map FilePosition.inum ∧
      ∀ filePos, result = some filePos → ∃ i, FoundAt s node contents name filePos i := by
  by_cases hlong : name.length > maxFileNameLength
  · refine ⟨none, ?_, lookup_eq_none_iff.mpr fun entry hentry heq => ?_, by simp⟩
    · simp [getFilePositionInDir, h.isDir, hlong]
    · have := h.short hentry
      rw [heq] at this
      omega
  · obtain ⟨result, hrun, hresult⟩ := findInBlocks_spec name h hdata
      (Nat.zero_add _) (prevValid_zero s node 0)
    refine ⟨result, ?_, hresult⟩
    simp only [getFilePositionInDir, h.isDir, Bool.not_true, Bool.false_eq_true, if_false,
      if_neg hlong, h.blocksNum, Int.toNat_natCast]
    exact hrun

end Search

section Change

variable {s s' : FileSystem} {node node' : Inode} {contents : List (List Entry)}
  {free free' rest : Multiset Int64} {i : Nat} {b : Int64} {added : Bool}

omit [Config] in
/-- Writing one block of the directory exchanges its entries. -/
theorem DirContents.writeBlock (h : DirContents s node contents)
    (hnodup : (node.blocks s).Nodup) (hi : i < contents.length) {block : Block}
    {entries : List Entry} (hblock : RecordsAt block 0 entries) :
    node.Kept s (s.writeDisk (node.blockAt s i) block) ∧
      DirContents (s.writeDisk (node.blockAt s i) block) node (contents.set i entries) := by
  have hne := h.blockAt_ne_zero hi
  have hkept : node.Kept s (s.writeDisk (node.blockAt s i) block) := fun a ha =>
    disk_writeDisk_ne fun heq => blockAt_notMem_indirect hnodup hne (heq ▸ ha)
  refine ⟨hkept, h.isDir, hkept.mapped h.mapped, ?_, fun j hj => ?_⟩
  · rw [h.blocksNum, List.length_set]
  · rw [List.length_set] at hj
    rw [hkept.blockAt, List.getElem_set]
    split
    · next heq =>
        subst heq
        rw [disk_writeDisk_self]
        exact hblock
    · next hij =>
        rw [disk_writeDisk_ne fun heq => hij (blockAt_inj hnodup (h.blockAt_ne_zero hj) heq).symm]
        exact h.records j hj

/-- The entries after a block has been added to the directory. -/
theorem DirContents.blockAdded (h : DirContents s node contents)
    (howned : Owned s free (b ::ₘ (node.blocks s + rest))) {entries : List Entry}
    (hblock : RecordsAt (s.disk b) 0 entries)
    (hadded : BlockAdded b rest free s node added s' node' free') :
    DirContents s' node' (if added then contents ++ [entries] else contents) := by
  have hcons := Multiset.nodup_cons.mp howned.held_nodup
  have hout : ∀ a, a ∈ b ::ₘ node.blocks s → a ∉ node.indirect s → s'.disk a = s.disk a := by
    intro a ha hind
    have hheld : a ∈ b ::ₘ (node.blocks s + rest) := by
      rcases Multiset.mem_cons.mp ha with rfl | ha
      · exact Multiset.mem_cons_self _ _
      · exact Multiset.mem_cons_of_mem (Multiset.mem_add.mpr (.inl ha))
    refine howned.disk_eq hadded.frame hheld fun hmem => ?_
    rcases Multiset.mem_add.mp hmem with hfree | hmem
    · exact howned.not_free hheld hfree
    · exact hind hmem
  have hold : ∀ i (hi : i < contents.length),
      node'.blockAt s' i = node.blockAt s i ∧
        RecordsAt (s'.disk (node'.blockAt s' i)) 0 contents[i] := by
    intro i hi
    have hne := h.blockAt_ne_zero hi
    have heq := hadded.blockAt_lt i (by rw [h.blocksNum]; omega)
    refine ⟨heq, ?_⟩
    rw [heq, hout _ (Multiset.mem_cons_of_mem (blockAt_mem_blocks hne))
      (blockAt_notMem_indirect (Multiset.nodup_add.mp hcons.2).1 hne)]
    exact h.records i hi
  have hlength : (contents.length : Int) = node.iBlocksNum.toInt := h.blocksNum.symm
  have hisDir : node'.isDir = true := by
    have := h.isDir
    rwa [hadded.withMap]
  have hcount := hadded.blocksNum
  rw [h.blocksNum] at hcount
  cases added with
  | false =>
      simp only [Bool.false_eq_true, if_false, add_zero] at hcount ⊢
      refine ⟨hisDir, ⟨by omega, fun i hi => ?_⟩, hcount, fun i hi => (hold i hi).2⟩
      rw [(hold i (by omega)).1]
      exact h.blockAt_ne_zero (by omega)
  | true =>
      have hnew := hadded.blockAt_new rfl _ hlength
      have hb : b ∉ node.indirect s := fun hind =>
        hcons.1 (Multiset.mem_add.mpr (.inl (Multiset.mem_of_le (indirect_le_blocks s node) hind)))
      simp only [if_true] at hcount ⊢
      refine ⟨hisDir, ⟨by omega, fun i hi => ?_⟩, by simp [hcount], fun i hi => ?_⟩
      · by_cases hlast : i = contents.length
        · rw [hlast, hnew]
          exact (howned.data b (Multiset.mem_cons_self _ _)).ne_zero
        · rw [(hold i (by omega)).1]
          exact h.blockAt_ne_zero (by omega)
      · rw [List.length_append, List.length_singleton] at hi
        by_cases hlast : i = contents.length
        · subst hlast
          simpa [hnew, hout b (Multiset.mem_cons_self _ _) hb] using hblock
        · rw [List.getElem_append_left (by omega)]
          exact (hold i (by omega)).2

theorem removeDirectoryEntry_absent (h : DirContents s node contents)
    (howned : Owned s free (node.blocks s + rest)) {name : CString}
    (hname : contents.flatten.lookup name = none) :
    removeDirectoryEntry node name s = some ((false, node), s) := by
  obtain ⟨result, hrun, hresult, -⟩ :=
    getFilePositionInDir_spec h (howned.mono (Multiset.le_add_right _ _)).data name
  rw [hname] at hresult
  obtain rfl : result = none := Option.map_eq_none_iff.mp hresult.symm
  simp only [removeDirectoryEntry, Prog.bind_of_eq hrun, Prog.pure_apply]

/-- The outcome of removing the record of `entry`. -/
structure EntryRemoved (entry : Entry) (rest free : Multiset Int64) (s₀ : FileSystem)
    (node₀ : Inode) (contents₀ : List (List Entry)) (s : FileSystem) (node : Inode)
    (contents : List (List Entry)) : Prop where
  owned : Owned s free (node.blocks s + rest)
  frame : DataFrame (node₀.blocks s₀) s₀ s
  removed : ∃ currTime, node = node₀.removeChild currTime
  blocks : node.blocks s = node₀.blocks s₀
  dir : DirContents s node contents
  length : contents.length = contents₀.length
  entries : contents₀.flatten.Perm (entry :: contents.flatten)
  lookup : ∀ name, name ≠ entry.1 → contents.flatten.lookup name = contents₀.flatten.lookup name

/-- One of the blocks of the directory has room for the record. -/
def RecordFits (contents : List (List Entry)) (entry : Entry) : Prop :=
  ∃ entries ∈ contents, recordsSize entries + recordSize entry ≤ blockSize

/-- The record of `entry` is taken out of a block of the directory. -/
structure RecordRemoved (entry : Entry) (s₀ : FileSystem) (node : Inode)
    (contents₀ : List (List Entry)) (s : FileSystem) (contents : List (List Entry)) : Prop where
  written : ∃ b ∈ node.blocks s₀, ∃ block, b ∉ node.indirect s₀ ∧
    s = { s₀.writeDisk b block with clock := s₀.clock + 1 }
  dir : DirContents s node contents
  length : contents.length = contents₀.length
  entries : contents₀.flatten.Perm (entry :: contents.flatten)
  lookup : ∀ name, name ≠ entry.1 → contents.flatten.lookup name = contents₀.flatten.lookup name
  fits : ∀ inum, RecordFits contents (entry.1, inum)

/-- What a search finds can be removed. -/
theorem removeDirectoryEntry_run (h : DirContents s node contents)
    (hdata : ∀ b ∈ node.blocks s, DataBlock b) (hnodup : (node.blocks s).Nodup) {name : CString}
    {inum : Int64} (hname : contents.flatten.lookup name = some inum) :
    ∃ entry s' contents', removeDirectoryEntry node name s =
        some ((true, node.removeChild (Config.timeAt s.clock)), s') ∧
      entry.1 = name ∧ RecordRemoved entry s node contents s' contents' := by
  obtain ⟨result, hrun, hresult, hfound⟩ := getFilePositionInDir_spec h hdata name
  obtain ⟨filePos, rfl⟩ : ∃ filePos, result = some filePos := by
    cases result with
    | none => simp [hname] at hresult
    | some filePos => exact ⟨filePos, rfl⟩
  obtain ⟨i, hi, hblock, hblockNum, hoffset⟩ := hfound filePos rfl
  have hblockAt := h.dataBlock hdata hi
  obtain ⟨entry, hentry, hperm⟩ := recordPosition_perm hoffset
  obtain ⟨-, hrecords⟩ := recordsAt_removeRecord (h.records i hi) hoffset
  obtain ⟨hkept, hcontents⟩ := h.writeBlock hnodup hi hrecords
  have hmem : node.blockAt s i ∈ node.blocks s := blockAt_mem_blocks (h.blockAt_ne_zero hi)
  refine ⟨entry, _, contents.set i (contents[i].eraseP fun entry => entry.1 = name), ?_, hentry,
    ⟨⟨_, hmem, _, blockAt_notMem_indirect hnodup (h.blockAt_ne_zero hi), rfl⟩,
      hcontents.of_disk_eq fun _ _ => rfl, List.length_set, flatten_set_remove hi hperm,
      fun other hother => lookup_flatten_set hi (lookup_eraseP_ne _ (hentry ▸ hother)),
      fun inum => ⟨_, List.mem_set hi _, ?_⟩⟩⟩
  · simp only [removeDirectoryEntry, Prog.bind_of_eq hrun, hblock, hblockNum,
      Prog.bind_of_eq (writeDataBlock_run hblockAt)]
    rfl
  · have hsize : recordsSize contents[i] = recordSize entry + recordsSize _ :=
      (hperm.map recordSize).sum_eq
    have hend := (h.records i hi).end_le
    have hsame : recordSize (entry.1, inum) = recordSize entry := rfl
    omega

theorem removeDirectoryEntry_spec (h : DirContents s node contents)
    (howned : Owned s free (node.blocks s + rest)) {name : CString} {inum : Int64}
    (hname : contents.flatten.lookup name = some inum) :
    ∃ entry node' s' contents', removeDirectoryEntry node name s = some ((true, node'), s') ∧
      entry.1 = name ∧ EntryRemoved entry rest free s node contents s' node' contents' := by
  have hle : node.blocks s ≤ node.blocks s + rest := Multiset.le_add_right _ _
  obtain ⟨entry, s', contents', hrun, hentry, hremoved⟩ := removeDirectoryEntry_run h
    (howned.mono hle).data (Multiset.nodup_of_le hle howned.held_nodup) hname
  obtain ⟨b, hmem, block, hindirect, rfl⟩ := hremoved.written
  have hkept : node.Kept s (s.writeDisk b block) := fun a ha =>
    disk_writeDisk_ne (ne_of_mem_of_not_mem ha hindirect)
  have hblocks : node.blocks (s.writeDisk b block) = node.blocks s := hkept.blocks
  have howned' := howned.write block (Multiset.mem_add.mpr (.inl hmem))
  refine ⟨entry, _, _, contents', hrun, hentry, ?_, { DataFrame.writeDisk hmem with }, ⟨_, rfl⟩,
    hblocks, hremoved.dir.of_withMap rfl rfl, hremoved.length, hremoved.entries, hremoved.lookup⟩
  rw [Inode.blocks_eq_of_withMap node rfl]
  change Owned _ free (node.blocks (s.writeDisk b block) + rest)
  rw [hblocks]
  exact ⟨howned'.freeList.frame rfl fun _ _ => rfl, howned'.nodup, howned'.data⟩

/-- The outcome of adding a record for `entry`. -/
structure EntryAdded (entry : Entry) (rest free₀ : Multiset Int64) (s₀ : FileSystem)
    (node₀ : Inode) (contents₀ : List (List Entry)) (added : Bool) (s : FileSystem)
    (node : Inode) (free : Multiset Int64) (contents : List (List Entry)) : Prop where
  owned : Owned s free (node.blocks s + rest)
  frame : DataFrame (free₀ + node₀.blocks s₀) s₀ s
  changed : node = { node₀.withMap node with
    iFileSize := node.iFileSize, iChildNum := node.iChildNum }
  dir : DirContents s node contents
  childNum : node.iChildNum = node₀.iChildNum + if added then 1 else 0
  fileSize : node₀.iFileSize.toInt = blockSize * contents₀.length →
    node.iFileSize.toInt = blockSize * contents.length
  entries : contents.flatten.Perm ((if added then [entry] else []) ++ contents₀.flatten)
  lookup : ∀ name, name ≠ entry.1 → contents.flatten.lookup name = contents₀.flatten.lookup name
  full : added = false → contents₀.length < maxBlocksNum → free = 0
  failed : added = false → contents₀.length < maxBlocksNum →
    free₀.card ≤ blockCost contents₀.length
  length : contents.length ≤ contents₀.length + 1
  lengthSame : RecordFits contents₀ entry → contents.length = contents₀.length
  filled : added = true → node₀.Filled s₀ contents₀.length →
    node.Filled s contents.length ∧ free + node.blocks s = free₀ + node₀.blocks s₀
  room : added = true → RecordFits contents₀ entry ∧ free = free₀ ∨
    ¬RecordFits contents₀ entry ∧ contents₀.length < maxBlocksNum ∧
      free₀.card = free.card + 1 + blockCost contents₀.length
  noRoom : added = false → ¬RecordFits contents₀ entry
  kept : added = false → DirContents s node₀ contents₀
  same : added = false → free₀ = 0 → s = s₀ ∧ node = node₀
  lost : added = false → free₀ ≠ 0 → ∃ b ∈ free₀, Owned s free (b ::ₘ (node.blocks s + rest))
  oldBlocks : node₀.Filled s₀ contents₀.length → node₀.blocks s ≤ node.blocks s

/-- The record goes into a new block of the directory. -/
theorem addEntryBlock_spec (h : DirContents s node contents)
    (howned : Owned s free (node.blocks s + rest))
    (hshort : entry.1.length ≤ maxFileNameLength) (hnoRoom : ¬RecordFits contents entry) :
    ∃ added node' s' free' contents',
      addEntryBlock node entry.2 entry.1 s = some ((added, node'), s') ∧
      EntryAdded entry rest free s node contents added s' node' free' contents' := by
  by_cases hfree : free = 0
  · subst hfree
    refine ⟨false, node, s, 0, contents, ?_, howned, DataFrame.refl _ _, rfl, h, ?_, id, .rfl,
      fun _ _ => rfl, fun _ _ => rfl, fun _ _ => Nat.zero_le _, Nat.le_succ _, fun _ => rfl, by simp,
      by simp, fun _ => hnoRoom, fun _ => h,
      fun _ _ => ⟨rfl, rfl⟩, fun _ hne => absurd rfl hne, fun _ => le_rfl⟩
    · simp [addEntryBlock, Prog.bind_of_eq howned.allocate_empty]
    · simp
  obtain ⟨b, free₁, s₁, halloc, rfl, howned₁, -, hframe₁⟩ := howned.allocate hfree
  have hdata : DataBlock b := howned₁.data b (Multiset.mem_cons_self _ _)
  have hpos : ¬b.toInt ≤ 0 := by
    have := hdata.pos
    omega
  let s₂ := s₁.writeDisk b (putRecord Block.zero 0 entry.2 entry.1)
  have hframe₂ : DataFrame (b ::ₘ free₁) s s₂ :=
    hframe₁.trans (DataFrame.writeDisk (Multiset.mem_cons_self _ _))
  have hkeep : ∀ a ∈ node.blocks s, s₂.disk a = s.disk a := fun a ha =>
    have hmem := Multiset.mem_add.mpr (.inl ha)
    howned.disk_eq hframe₂ hmem (howned.not_free hmem)
  have hkept : node.Kept s s₂ := fun a ha =>
    hkeep a (Multiset.mem_of_le (indirect_le_blocks s node) ha)
  have hrecord : RecordsAt (s₂.disk b) 0 [entry] := by
    have := recordsAt_putRecord entry RecordsAt.zero (by
      simp only [recordsSize_nil, recordSize, recordFixedLen, maxFileNameLength, blockSize] at *
      omega) hshort
    rw [disk_writeDisk_self]
    exact this
  have howned₂ : Owned s₂ free₁ (b ::ₘ (node.blocks s₂ + rest)) := by
    rw [hkept.blocks]
    exact howned₁.write _ (Multiset.mem_cons_self _ _)
  have hdir₂ := h.of_disk_eq hkeep
  obtain ⟨added, node', s', free', hadd, hadded⟩ :=
    addDatablockToInode_spec howned₂ hdir₂.mapped
  have hframe : DataFrame (b ::ₘ free₁ + node.blocks s) s s' := by
    refine (hframe₂.mono fun a ha => Multiset.mem_add.mpr (.inl ha)).trans
      (hadded.frame.mono fun a ha => ?_)
    rcases Multiset.mem_add.mp ha with ha | ha
    · exact Multiset.mem_add.mpr (.inl (Multiset.mem_cons_of_mem ha))
    · rw [hkept.indirect] at ha
      exact Multiset.mem_add.mpr (.inr (Multiset.mem_of_le (indirect_le_blocks s node) ha))
  have hdir := hdir₂.blockAdded howned₂ hrecord hadded
  have hrun : addEntryBlock node entry.2 entry.1 s = some (if added
      then (true, (node'.withSize (node'.iFileSize.toInt + blockSize)).addChild)
      else (false, node'), s') := by
    simp only [addEntryBlock, Prog.bind_of_eq halloc, if_neg hpos,
      Prog.bind_of_eq (writeDataBlock_run hdata), Bool.not_true, Bool.false_eq_true, if_false]
    rw [Prog.bind_of_eq hadd]
    cases added <;> rfl
  cases added with
  | false =>
      refine ⟨false, node', s', free', contents, hrun,
        hadded.owned.mono (Multiset.le_add_left _ _), hframe, ?_, hdir, ?_, ?_, .rfl,
        fun _ _ => rfl, ?_, ?_, Nat.le_succ _, fun _ => rfl, by simp, by simp, fun _ => hnoRoom,
        fun _ => ?_,
        fun _ hnone => absurd hnone hfree,
        fun _ _ => ⟨b, Multiset.mem_cons_self _ _, hadded.owned⟩, fun hfull => ?_⟩
      · rw [hadded.withMap]
        rfl
      · rw [hadded.withMap]
        simp [Inode.withMap]
      · rw [hadded.withMap]
        exact id
      · intro _ hlt
        have := hadded.cost contents.length h.blocksNum.symm
        exact (this hlt).1
      · intro _ hlt
        have := hadded.cost contents.length h.blocksNum.symm
        rw [Multiset.card_cons]
        exact (this hlt).2
      · refine DirContents.of_same hdir hdir₂.isDir hdir₂.blocksNum fun i hi => ?_
        have hi : (i : Int) < node.iBlocksNum.toInt := by
          rw [h.blocksNum]
          exact Int.ofNat_lt.mpr hi
        rw [hadded.old i hi, hadded.blockAt_lt i hi]
      · exact hadded.oldBlocks _ h.blocksNum.symm (hkept.filled hfull)
  | true =>
      let node'' := (node'.withSize (node'.iFileSize.toInt + blockSize)).addChild
      have hmap : node'' = node''.withMap node' := rfl
      have hmax := hdir.length_le
      simp only [if_true, List.length_append, List.length_singleton] at hdir hmax
      refine ⟨true, node'', s', free', contents ++ [[entry]], hrun, ?_, hframe, ?_,
        hdir.of_withMap hmap rfl, ?_, fun hsize => ?_, ?_, fun other hother => ?_, by simp,
        by simp, by simp, fun hfits => absurd hfits hnoRoom,
        fun _ hfull => ?_, fun _ => .inr ⟨hnoRoom, hmax, ?_⟩, by simp, by simp, by simp, by simp,
        fun hfull => ?_⟩
      · rw [Inode.blocks_eq_of_withMap _ hmap]
        simpa using hadded.owned
      · simp only [node'']
        rw [hadded.withMap]
        rfl
      · simp only [node'']
        rw [hadded.withMap]
        rfl
      · have hsize' : node'.iFileSize = node.iFileSize := by
          rw [hadded.withMap]
          rfl
        simp only [node'', Inode.addChild, Inode.withSize, hsize', hsize, blockSize,
          List.length_append, List.length_singleton]
        simp only [maxBlocksNum] at hmax
        rw [Int64.toInt_ofInt_of_le (by omega) (by omega)]
        push_cast
        ring
      · rw [List.flatten_append, if_pos rfl]
        exact List.perm_append_comm
      · rw [List.flatten_append, List.flatten_singleton]
        exact lookup_append_ne _ hother
      · have hfull' := hkept.filled hfull
        have hgrown := hadded.filled rfl _ h.blocksNum.symm hfull'
        have hsum := hadded.conserved _ h.blocksNum.symm hfull'
        rw [hkept.blocks] at hsum
        rw [Inode.blocks_eq_of_withMap _ hmap, hsum, List.length_append]
        refine ⟨hgrown.of_withMap hmap, ?_⟩
        rw [if_pos rfl, add_right_comm, add_comm free₁, Multiset.singleton_add]
      · have hcost := hadded.cost contents.length h.blocksNum.symm
        rw [if_pos rfl] at hcost
        rw [Multiset.card_cons]
        omega
      · rw [Inode.blocks_eq_of_withMap _ hmap]
        exact hadded.oldBlocks _ h.blocksNum.symm (hkept.filled hfull)

/-- The record of `entry` is put into a block of the directory. -/
structure RecordAdded (entry : Entry) (s₀ : FileSystem) (node : Inode)
    (contents₀ : List (List Entry)) (s : FileSystem) (contents : List (List Entry)) : Prop where
  written : ∃ b ∈ node.blocks s₀, ∃ block, b ∉ node.indirect s₀ ∧ s = s₀.writeDisk b block
  place : ∃ i, ∃ h : i < contents₀.length, contents = contents₀.set i (contents₀[i] ++ [entry])
  dir : DirContents s node contents
  length : contents.length = contents₀.length
  entries : contents.flatten.Perm (entry :: contents₀.flatten)
  lookup : ∀ name, name ≠ entry.1 → contents.flatten.lookup name = contents₀.flatten.lookup name

omit [Config] in
private theorem recordAdded (h : DirContents s node contents) (hnodup : (node.blocks s).Nodup)
    (hshort : entry.1.length ≤ maxFileNameLength) (hi : i < contents.length)
    (hfit : recordsSize contents[i] + recordSize entry ≤ blockSize) :
    RecordAdded entry s node contents
      (s.writeDisk (node.blockAt s i)
        (putRecord (s.disk (node.blockAt s i)) (recordsSize contents[i]) entry.2 entry.1))
      (contents.set i (contents[i] ++ [entry])) := by
  have hrecords := recordsAt_putRecord entry (h.records i hi)
    (by rwa [Nat.zero_add]) hshort
  rw [Nat.zero_add] at hrecords
  have hne := h.blockAt_ne_zero hi
  exact ⟨⟨_, blockAt_mem_blocks hne, _, blockAt_notMem_indirect hnodup hne, rfl⟩, ⟨i, hi, rfl⟩,
    (h.writeBlock hnodup hi hrecords).2, List.length_set, flatten_set_insert hi List.perm_append_comm,
    fun other hother => lookup_flatten_set hi (lookup_append_ne _ hother)⟩

/-- The block in which the record is put, if there is room for it. -/
private theorem addEntryFrom_run (h : DirContents s node contents)
    (hdata : ∀ b ∈ node.blocks s, DataBlock b) {count l : Nat} {prev : Int64}
    (hcount : l + count = contents.length) (hprev : PrevValid s node l prev)
    (hbefore : ∀ j (hj : j < contents.length), j < l →
      ¬recordsSize contents[j] + recordSize entry ≤ blockSize) :
    (∃ i, ∃ hi : i < contents.length, recordsSize contents[i] + recordSize entry ≤ blockSize ∧
      addEntryFrom node entry.2 entry.1 count l prev s = some ((true, node.addChild),
        s.writeDisk (node.blockAt s i)
          (putRecord (s.disk (node.blockAt s i)) (recordsSize contents[i]) entry.2 entry.1))) ∨
    ¬RecordFits contents entry ∧
      addEntryFrom node entry.2 entry.1 count l prev s = addEntryBlock node entry.2 entry.1 s := by
  induction count generalizing l prev with
  | zero =>
      refine .inr ⟨?_, rfl⟩
      rintro ⟨entries, hentries, hfit⟩
      obtain ⟨j, hj, rfl⟩ := List.mem_iff_getElem.mp hentries
      exact hbefore j hj (by omega) hfit
  | succ count ih =>
      have hl : l < contents.length := by omega
      have hblock := h.dataBlock hdata hl
      obtain ⟨prev', hlookup, hprev'⟩ := getDiskBlockFromInodeBlock_run hdata h.mapped
        (i := l) (by rw [h.blocksNum]; omega) hprev
      have hpos : ¬(node.blockAt s l).toInt ≤ 0 := by
        have := hblock.pos
        omega
      have hspace := spaceFor_spec entry (h.records l hl)
      by_cases hfit : recordsSize contents[l] + recordSize entry ≤ blockSize
      · refine .inl ⟨l, hl, hfit, ?_⟩
        rw [if_pos hfit] at hspace
        simp only [addEntryFrom, Prog.bind_of_eq hlookup, if_neg hpos,
          Prog.bind_of_eq (readDataBlockArray_run hblock), hspace,
          Prog.bind_of_eq (writeDataBlock_run hblock), Bool.not_true, Bool.false_eq_true, if_false,
          Prog.pure_apply]
      · have hrest : addEntryFrom node entry.2 entry.1 (count + 1) l prev s =
            addEntryFrom node entry.2 entry.1 count (l + 1) prev' s := by
          rw [if_neg hfit] at hspace
          simp only [addEntryFrom, Prog.bind_of_eq hlookup, if_neg hpos,
            Prog.bind_of_eq (readDataBlockArray_run hblock), hspace]
        rw [hrest]
        apply ih (by omega) hprev'
        intro j hj hlt
        by_cases hjl : j = l
        · subst hjl
          exact hfit
        · exact hbefore j hj (by omega)

private theorem addDirectoryEntry_eq {entry : Entry} (h : DirContents s node contents)
    (hshort : entry.1.length ≤ maxFileNameLength) :
    addDirectoryEntry node entry.2 entry.1 s =
      addEntryFrom node entry.2 entry.1 contents.length 0 0 s := by
  simp only [addDirectoryEntry, h.isDir, Bool.not_true, Bool.false_eq_true, if_false,
    if_neg (Nat.not_lt.mpr hshort), h.blocksNum, Int.toNat_natCast]

/-- A record that fits into a block of the directory takes no new block. -/
theorem addDirectoryEntry_fits (h : DirContents s node contents)
    (hdata : ∀ b ∈ node.blocks s, DataBlock b) (hnodup : (node.blocks s).Nodup)
    (hshort : entry.1.length ≤ maxFileNameLength) (hfits : RecordFits contents entry) :
    ∃ s' contents', addDirectoryEntry node entry.2 entry.1 s = some ((true, node.addChild), s') ∧
      RecordAdded entry s node contents s' contents' := by
  rw [addDirectoryEntry_eq h hshort]
  rcases addEntryFrom_run h hdata (Nat.zero_add _) (prevValid_zero s node 0) (by simp) with
    ⟨i, hi, hfit, hrun⟩ | ⟨hnone, -⟩
  · exact ⟨_, _, hrun, recordAdded h hnodup hshort hi hfit⟩
  · exact absurd hfits hnone

/-- A record put into a block of the directory is an added entry. -/
theorem EntryAdded.of_record {s' : FileSystem} {contents' : List (List Entry)}
    (howned : Owned s free (node.blocks s + rest)) (hfits : RecordFits contents entry)
    (hadded : RecordAdded entry s node contents s' contents') :
    EntryAdded entry rest free s node contents true s' node.addChild free contents' := by
  obtain ⟨b, hmem, block, hindirect, rfl⟩ := hadded.written
  have hkept : node.Kept s (s.writeDisk b block) := fun a ha =>
    disk_writeDisk_ne (ne_of_mem_of_not_mem ha hindirect)
  refine ⟨?_, DataFrame.writeDisk (Multiset.mem_add.mpr (.inr hmem)), rfl,
    hadded.dir.of_withMap rfl rfl, rfl, fun hsize => ?_, hadded.entries, hadded.lookup, by simp,
    by simp, hadded.length.le.trans (Nat.le_succ _), fun _ => hadded.length, fun _ hfull => ?_,
    fun _ => .inl ⟨hfits, rfl⟩, by simp, by simp, by simp, by simp, fun _ => ?_⟩
  · rw [Inode.blocks_eq_of_withMap node rfl, hkept.blocks]
    exact howned.write _ (Multiset.mem_add.mpr (.inl hmem))
  · rw [hadded.length]
    exact hsize
  · rw [Inode.blocks_eq_of_withMap node rfl, hkept.blocks, hadded.length]
    exact ⟨(hkept.filled hfull).of_withMap rfl, rfl⟩
  · exact (Inode.blocks_eq_of_withMap node rfl).ge

/-- `add_directory_entry` adds one record, unless the name is too long or the device is full. -/
theorem addDirectoryEntry_spec (entry : Entry) (h : DirContents s node contents)
    (howned : Owned s free (node.blocks s + rest))
    (hshort : entry.1.length ≤ maxFileNameLength) :
    ∃ added node' s' free' contents',
      addDirectoryEntry node entry.2 entry.1 s = some ((added, node'), s') ∧
      EntryAdded entry rest free s node contents added s' node' free' contents' := by
  have hle : node.blocks s ≤ node.blocks s + rest := Multiset.le_add_right _ _
  have hdata := (howned.mono hle).data
  by_cases hfits : RecordFits contents entry
  · obtain ⟨s', contents', hrun, hadded⟩ := addDirectoryEntry_fits h hdata
      (Multiset.nodup_of_le hle howned.held_nodup) hshort hfits
    exact ⟨true, node.addChild, s', free, contents', hrun, .of_record howned hfits hadded⟩
  · obtain ⟨added, node', s', free', contents', hrun, hadded⟩ :=
      addEntryBlock_spec h howned hshort hfits
    refine ⟨added, node', s', free', contents', ?_, hadded⟩
    rw [addDirectoryEntry_eq h hshort]
    rcases addEntryFrom_run h hdata (Nat.zero_add _) (prevValid_zero s node 0) (by simp) with
      ⟨i, hi, hfit, -⟩ | ⟨-, heq⟩
    · exact absurd ⟨_, List.getElem_mem hi, hfit⟩ hfits
    · rw [heq, hrun]

/-- The first two records of a directory share one new block. -/
theorem addDirectoryEntry_pair {first second : Entry} (h : DirContents s node [])
    (howned : Owned s free (node.blocks s + rest)) (hfree : free ≠ 0)
    (hfirst : first.1.length ≤ maxFileNameLength) (hsecond : second.1.length ≤ maxFileNameLength) :
    ∃ node₁ s₁ free' node₂ s₂, addDirectoryEntry node first.2 first.1 s = some ((true, node₁), s₁) ∧
      EntryAdded first rest free s node [] true s₁ node₁ free' [[first]] ∧
      addDirectoryEntry node₁ second.2 second.1 s₁ = some ((true, node₂), s₂) ∧
      EntryAdded second rest free' s₁ node₁ [[first]] true s₂ node₂ free' [[first, second]] := by
  obtain ⟨added, node₁, s₁, free', contents, hrun, hadded⟩ :=
    addDirectoryEntry_spec first h howned hfirst
  cases added with
  | false =>
      have hcard := hadded.failed rfl (by rw [maxBlocksNum]; decide)
      exact absurd (Multiset.card_eq_zero.mp (Nat.le_zero.mp hcard)) hfree
  | true =>
      have hperm := hadded.entries
      have hlength := hadded.length
      obtain rfl : contents = [[first]] := by
        cases contents with
        | nil => simp at hperm
        | cons block contents =>
            cases contents with
            | nil => simpa using hperm
            | cons _ _ => simp at hlength
      have hle : node₁.blocks s₁ ≤ node₁.blocks s₁ + rest := Multiset.le_add_right _ _
      have hfits : RecordFits [[first]] second := by
        refine ⟨[first], List.mem_singleton.mpr rfl, ?_⟩
        simp only [recordsSize_cons, recordsSize_nil, recordSize, recordFixedLen,
          maxFileNameLength, blockSize] at *
        omega
      obtain ⟨s₂, contents', hrun₂, hadded₂⟩ := addDirectoryEntry_fits hadded.dir
        (hadded.owned.mono hle).data (Multiset.nodup_of_le hle hadded.owned.held_nodup) hsecond hfits
      obtain ⟨i, hi, rfl⟩ := hadded₂.place
      obtain rfl : i = 0 := Nat.lt_one_iff.mp hi
      exact ⟨node₁, s₁, free', node₁.addChild, s₂, hrun, hadded, hrun₂,
        .of_record hadded.owned hfits hadded₂⟩

theorem addDirectoryEntry_long {inum : Int64} {name : CString}
    (hlong : maxFileNameLength < name.length) :
    addDirectoryEntry node inum name s = some ((false, node), s) := by
  cases hdir : node.isDir <;> simp [addDirectoryEntry, hdir, hlong]

end Change

end AltFs
