import AltFs.DirectoryRuns
import AltFs.FreshFileSystem
import AltFs.Paths
import AltFs.WellFormed

/-!
# Listing a directory

`altfs_readdir` has a loop of its own over the records of a block, which ends
one position before that of the search.  No record can start at that position,
so a listing and the searches agree.
-/

namespace AltFs

/-- What is passed on for a record. -/
def dirItem (s : FileSystem) (entry : Entry) : DirItem :=
  (nameBytes entry.1, inodeToStat entry.2 (s.inodeAt (inumIndex entry.2)))

variable {s t : FileSystem} {node : Inode} {buffer : Block} {position : Nat} {entry : Entry}
  {entries : List Entry} {contents : List (List Entry)}

/-- The bytes behind the fixed part of a record are those of its name. -/
theorem RecordAt.slice (h : RecordAt buffer position entry) :
    buffer.slice (position + recordFixedLen) (entry.1.length + 1) = nameBytes entry.1 := by
  apply List.ext_getElem
  · simp [nameBytes]
  · intro i hi _
    rw [Block.length_slice] at hi
    simp only [Block.slice, List.getElem_map, List.getElem_range]
    by_cases hlast : i = entry.1.length
    · subst hlast
      rw [h.terminator]
      simp [nameBytes]
    · have hlt : i < entry.1.length := by omega
      rw [h.name i hlt]
      simp [nameBytes, hlt]

section Blocks

variable [Config]

private theorem readdirBlock_end {fuel : Nat} (hlen : recordLen buffer position = 0) :
    readdirBlock buffer (fuel + 1) position = pure [] := by
  by_cases hstart : position ≥ lastPossibleRecord
  · exact if_pos hstart
  · exact (if_neg hstart).trans (if_pos hlen)

private theorem readdirBlock_record {fuel nameLen : Nat} (hstart : ¬position ≥ lastPossibleRecord)
    (hlen : ¬recordLen buffer position = 0)
    (hname : (recordLen buffer position + 65536 - recordFixedLen) % 65536 = nameLen)
    (hfit : position + recordFixedLen + nameLen ≤ blockSize) :
    readdirBlock buffer (fuel + 1) position = (do
      let fileInode ← getInode (recordInum buffer position)
      let rest ← readdirBlock buffer fuel (position + recordLen buffer position)
      pure ((buffer.slice (position + recordFixedLen) nameLen,
        inodeToStat (recordInum buffer position) fileInode) :: rest)) := by
  refine (if_neg hstart).trans ((if_neg hlen).trans ?_)
  dsimp only
  generalize (recordLen buffer position + 65536 - recordFixedLen) % 65536 = stored at hname ⊢
  subst hname
  funext s
  exact Prog.bind_of_eq (if_pos hfit)

/-- The listing of a block passes on each of its records. -/
theorem readdirBlock_run (hformat : TableFormat s) (h : RecordsAt buffer position entries)
    (hvalid : ∀ entry ∈ entries, ValidInum entry.2) {fuel : Nat} (hfuel : entries.length < fuel) :
    readdirBlock buffer fuel position s = some (entries.map (dirItem s), s) := by
  induction entries generalizing position fuel with
  | nil =>
      obtain ⟨fuel, rfl⟩ : ∃ n, fuel = n + 1 := ⟨fuel - 1, by simp at hfuel; omega⟩
      rw [readdirBlock_end (recordLen_zero h.2)]
      rfl
  | cons entry rest ih =>
      obtain ⟨fuel, rfl⟩ : ∃ n, fuel = n + 1 := ⟨fuel - 1, by simp at hfuel; omega⟩
      have hend := h.end_le
      have hshort := h.1.short
      have hsize : recordSize entry = 10 + entry.1.length + 1 := rfl
      rw [recordsSize_cons] at hend
      simp only [blockSize, maxFileNameLength] at hend hshort
      have hinum : ValidInum entry.2 := hvalid entry List.mem_cons_self
      have hrest : readdirBlock buffer fuel (position + recordSize entry) s =
          some (rest.map (dirItem s), s) :=
        ih h.2 (fun entry hentry => hvalid entry (List.mem_cons_of_mem _ hentry))
          (by simpa using hfuel)
      -- A record ends within the block, so it starts before the last possible position.
      have hstart : ¬position ≥ lastPossibleRecord := by
        simp only [lastPossibleRecord]
        omega
      have hlen : ¬recordLen buffer position = 0 := by
        rw [h.1.len]
        omega
      have hname : (recordLen buffer position + 65536 - recordFixedLen) % 65536 =
          entry.1.length + 1 := by
        rw [h.1.len]
        simp only [recordFixedLen]
        omega
      have hfit : position + recordFixedLen + (entry.1.length + 1) ≤ blockSize := by
        simp only [recordFixedLen, blockSize]
        omega
      rw [readdirBlock_record hstart hlen hname hfit, h.1.len, h.1.inum, h.1.slice,
        Prog.bind_of_eq (getInode_run hformat hinum), Prog.bind_of_eq hrest]
      rfl

/-- The listing of the blocks from `l` on passes on the records of each. -/
theorem readdirBlocks_run (hformat : TableFormat s) (h : DirContents s node contents)
    (hdata : ∀ b ∈ node.blocks s, DataBlock b)
    (hvalid : ∀ entry ∈ contents.flatten, ValidInum entry.2) {count l : Nat} {prev : Int64}
    (hcount : l + count = contents.length) (hprev : PrevValid s node l prev) :
    readdirBlocks node count l prev s =
      some ((contents.drop l).flatten.map (dirItem s), s) := by
  induction count generalizing l prev with
  | zero =>
      rw [List.drop_eq_nil_of_le (by omega)]
      rfl
  | succ count ih =>
      have hl : l < contents.length := by omega
      have hrecords := h.records l hl
      obtain ⟨prev', hlookup, hprev'⟩ := getDiskBlockFromInodeBlock_run hdata h.mapped
        (i := l) (by rw [h.blocksNum]; omega) hprev
      have hread := readDataBlockArray_run (s := s) (h.dataBlock hdata hl)
      have hblock : readdirBlock (s.disk (node.blockAt s l)) blockSize 0 s =
          some (contents[l].map (dirItem s), s) := by
        apply readdirBlock_run hformat hrecords
        · intro entry hentry
          exact hvalid entry (List.mem_flatten.mpr ⟨_, List.getElem_mem hl, hentry⟩)
        · have := hrecords.length_le
          simp only [blockSize]
          omega
      have hrest := ih (by omega) hprev'
      unfold readdirBlocks
      rw [Prog.bind_of_eq hlookup]
      simp only [Prog.bind_of_eq hread, Prog.bind_of_eq hblock, Prog.bind_of_eq hrest,
        Prog.pure_apply]
      rw [List.drop_eq_getElem_cons hl, List.flatten_cons, List.map_append]

theorem altfsReaddir_run {path : CString} {inum : Int64} (hname : nameI path s = some (inum, t))
    (hformat : TableFormat t) (hinum : ValidInum inum)
    (h : DirContents t (t.inodeAt (inumIndex inum)) contents)
    (hdata : ∀ b ∈ (t.inodeAt (inumIndex inum)).blocks t, DataBlock b)
    (hvalid : ∀ entry ∈ contents.flatten, ValidInum entry.2) :
    altfsReaddir path s = some ((0, contents.flatten.map (dirItem t)), t) := by
  have hfound : inum ≠ -1 := by
    rintro rfl
    have := hinum.1
    simp at this
  have hblocks := readdirBlocks_run hformat h hdata hvalid (Nat.zero_add _)
    (prevValid_zero t (t.inodeAt (inumIndex inum)) 0)
  unfold altfsReaddir
  rw [Prog.bind_of_eq hname, if_neg hfound, Prog.bind_of_eq (getInode_run hformat hinum)]
  simp only [h.isDir, Bool.not_true, Bool.false_eq_true, if_false, h.blocksNum,
    Int.toNat_natCast, Prog.bind_of_eq hblocks, Prog.pure_apply, List.drop_zero]

end Blocks

section Agreement

variable [Config] {st : DirState} {inum : Int64} {path : CString}

/-- In `t` the directory of `st` is stored as inode `inum`, with the blocks it has. -/
structure StoredDir (st : DirState) (inum : Int64) (t : FileSystem) : Prop where
  format : TableFormat t
  valid : ValidInum inum
  inode : t.inodeAt (inumIndex inum) = st.node
  blocks : ∀ b ∈ st.node.blocks st.fs, t.disk b = st.fs.disk b

/-- The names are added with inode numbers of the device. -/
def DirOp.Lists (st : DirState) (op : DirOp) : Prop :=
  op.Allowed st ∧ ∀ childInum fileName, op = .add childInum fileName → ValidInum childInum

def ValidMap (map : CString → Option Int64) : Prop :=
  ∀ name childInum, map name = some childInum → ValidInum childInum

theorem ValidMap.step {st st' : DirState} {op : DirOp} (h : ValidMap st.map)
    (hallowed : op.Lists st) (hstep : DirStep st op st') : ValidMap st'.map := by
  intro name childInum hname
  cases hstep with
  | @add added fileName _ _ _ =>
      change Function.update st.map fileName (some added) name = some childInum at hname
      rw [Function.update_apply] at hname
      split at hname
      · cases hname
        exact hallowed.2 _ fileName rfl
      · exact h name childInum hname
  | @remove fileName _ _ _ =>
      change Function.update st.map fileName none name = some childInum at hname
      rw [Function.update_apply] at hname
      split at hname
      · cases hname
      · exact h name childInum hname

omit [Config] in
/-- A name that is present is the name of one of the items. -/
theorem count_dirItem {map : CString → Option Int64} (h : Represents entries map)
    (name : CString) :
    (entries.map (dirItem s)).countP (fun item => item.1 = nameBytes name) =
      if (map name).isSome then 1 else 0 := by
  rw [← h.count_key, List.countP_map, List.count_eq_countP, List.countP_map]
  congr 1
  funext entry
  simp [dirItem, nameBytes_inj, beq_eq_decide]

/--
Listing a directory agrees with looking names up: after any run of successful
additions of absent names with valid inode numbers and removals, `altfs_readdir`
passes on every present name exactly once, with the inode number in the record
that the search finds, and nothing else.
-/
theorem altfsReaddir_agrees {s₀ t₀ : FileSystem} {node₀ : Inode} {free₀ : Multiset Int64}
    (hfree : FreeList s₀ free₀) (hdir : node₀.isDir = true)
    (hmap : node₀.EmptyMap) (hsize : node₀.iFileSize = 0) (hchild : node₀.iChildNum = 0)
    (hrun : Run DirStep (fun st op => op.Lists st) ⟨s₀, node₀, fun _ => none⟩ st)
    (hstored : StoredDir st inum t₀) (hname : nameI path t₀ = some (inum, t)) :
    ∃ items, altfsReaddir path t₀ = some ((0, items), t) ∧
      (∀ name, items.countP (fun item => item.1 = nameBytes name) =
        if (st.map name).isSome then 1 else 0) ∧
      ∀ item ∈ items, ∃ name filePos, item.1 = nameBytes name ∧
        st.map name = some filePos.inum ∧
        getFilePositionInDir name st.node t = some (some filePos, t) ∧
        item.2 = inodeToStat filePos.inum (t.inodeAt (inumIndex filePos.inum)) := by
  obtain ⟨free, contents, h, hvalid⟩ :
      ∃ free contents, HoldsMap st free contents ∧ ValidMap st.map := by
    apply hrun.invariant (I := fun st => ∃ free contents, HoldsMap st free contents ∧
      ValidMap st.map)
    · exact ⟨free₀, [], .empty hfree hdir hmap hsize hchild, fun _ _ hnone => by cases hnone⟩
    · intro st op st' ⟨free, contents, h, hvalid⟩ hallowed hstep
      obtain ⟨free', contents', h'⟩ := h.step hallowed.1 hstep
      exact ⟨free', contents', h', hvalid.step hallowed hstep⟩
  have hsame : SameButCache t₀ t := nameI_sameButCache hname
  have hinode : t.inodeAt (inumIndex inum) = st.node :=
    (hsame.inodeAt _).trans hstored.inode
  have hdisk : ∀ b ∈ st.node.blocks st.fs, t.disk b = st.fs.disk b := by
    obtain ⟨cache, rfl⟩ := hsame
    exact hstored.blocks
  have hkept : st.node.Kept st.fs t := fun a ha =>
    hdisk a (Multiset.mem_of_le (indirect_le_blocks st.fs st.node) ha)
  have hdirContents : DirContents t st.node contents := h.dir.of_disk_eq hdisk
  have hdata : ∀ b ∈ st.node.blocks t, DataBlock b := by
    rw [hkept.blocks]
    exact h.owned.data
  have hformat : TableFormat t := by
    obtain ⟨cache, rfl⟩ := hsame
    exact ⟨hstored.format.sInodesCount, hstored.format.sNumOfInodesPerBlock⟩
  have hentries : ∀ entry ∈ contents.flatten, ValidInum entry.2 := fun entry hentry =>
    hvalid entry.1 entry.2 (h.represents.mem_iff.mp hentry)
  refine ⟨contents.flatten.map (dirItem t), ?_, count_dirItem h.represents, ?_⟩
  · apply altfsReaddir_run hname hformat hstored.valid
    · rw [hinode]
      exact hdirContents
    · rw [hinode]
      exact hdata
    · exact hentries
  · intro item hitem
    obtain ⟨entry, hentry, rfl⟩ := List.mem_map.mp hitem
    obtain ⟨result, hfind, hresult, -⟩ := getFilePositionInDir_spec hdirContents hdata entry.1
    rw [h.represents.lookup, h.represents.mem_iff.mp hentry] at hresult
    obtain ⟨filePos, rfl, hfound⟩ := Option.map_eq_some_iff.mp hresult.symm
    refine ⟨entry.1, filePos, rfl, ?_, hfind, ?_⟩
    · rw [hfound]
      exact h.represents.mem_iff.mp hentry
    · rw [hfound]
      rfl

omit [Config] in
/-- The root of a freshly formatted device, after three additions and a removal. -/
theorem altfsReaddir_agrees_removed :
    letI := Config.ofBlocks 519 (by decide)
    ∃ s items, altfsReaddir [slash] s = some ((0, items), s) ∧
      items.countP (fun item => item.1 = nameBytes [letterX]) = 1 ∧
      items.countP (fun item => item.1 = nameBytes [dot, dot]) = 0 := by
  let _ := Config.ofBlocks 519 (by decide)
  have hpos : 0 < inodeBlockCount := by decide
  have hroot : ValidInum rootInodeNum := validInum_root hpos
  obtain ⟨s, free, -, hformatted, -⟩ :=
    @altfsMakefs_run _ FileSystem.blank (one_le_numOfDataBlocks hpos) (by decide)
  have hcard := hformatted.card (by decide)
  have hdata : 16 ≤ numOfDataBlocks := by decide
  have hdir : (Inode.zero.newRoot 0).isDir = true := isDir_newRoot _ _
  have hempty : (Inode.zero.newRoot 0).EmptyMap := emptyMap_newRoot 0
  obtain ⟨st, free', contents, hrun, hmap, h, S, hframe⟩ :=
    (HoldsMap.empty hformatted.toFreeList hdir hempty rfl rfl).exists_run addAddAddRemove_fit
      (by simp only [addAddAddRemove, List.length_cons, List.length_nil]; omega)
      (by simp only [addAddAddRemove, List.length_cons, List.length_nil, maxBlocksNum]; omega)
  have hlists : Run DirStep (fun st op => op.Lists st) ⟨s, Inode.zero.newRoot 0, fun _ => none⟩ st :=
    hrun.mono fun _ op hcond => ⟨hcond.1, fun childInum fileName heq => by
      rcases addAddAddRemove_inum (heq ▸ hcond.2) with rfl | rfl
      · exact ⟨by decide, by decide⟩
      · exact ⟨by decide, by decide⟩⟩
  have hstored : StoredDir st rootInodeNum (st.fs.setInode 2 st.node) :=
    { format := (hframe.format hformatted.format).setInode _ _
      valid := hroot
      inode := inodeAt_setInode_self
      blocks := fun b hb =>
        (SameData.setInode st.node hroot.index_lt).disk b (h.owned.data b hb) }
  obtain ⟨items, hlist, hcount, -⟩ := altfsReaddir_agrees hformatted.toFreeList hdir hempty rfl rfl
    hlists hstored (congrFun nameI_root _)
  have hmap : ∀ name, st.map name =
      if name = [letterX] then some 5 else if name = [dot] then some 2 else none := fun name =>
    (congrFun hmap name).trans (addAddAddRemove_map name)
  refine ⟨_, items, hlist, ?_, ?_⟩
  · rw [hcount, hmap]
    rfl
  · rw [hcount, hmap]
    rfl

end Agreement

end AltFs
