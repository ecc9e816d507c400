import AltFs.Directory
import AltFs.FreshFreelist
import AltFs.Lib.Runs

/-!
# A directory is a finite map

Runs of successful additions and removals on one directory, next to the
finite map from names to inode numbers that they are meant to build.
-/

namespace AltFs

inductive DirOp where
  | add (childInum : Int64) (fileName : CString)
  | remove (fileName : CString)

structure DirState where
  fs : FileSystem
  node : Inode
  /-- The names present, with the inode number of their latest addition. -/
  map : CString → Option Int64

/-- A name is added when it is short enough and absent. -/
def DirOp.Allowed (st : DirState) : DirOp → Prop
  | add _ fileName => fileName.length ≤ maxFileNameLength ∧ st.map fileName = none
  | remove _ => True

/-- The map after the call has succeeded. -/
def DirOp.apply (map : CString → Option Int64) : DirOp → CString → Option Int64
  | add childInum fileName => Function.update map fileName (some childInum)
  | remove fileName => Function.update map fileName none

/-- Absent names are added and present ones removed, one after the other. -/
def OpsFit : List DirOp → (CString → Option Int64) → Prop
  | [], _ => True
  | .add childInum fileName :: ops, map =>
      (fileName.length ≤ maxFileNameLength ∧ map fileName = none) ∧
        OpsFit ops (DirOp.apply map (.add childInum fileName))
  | .remove fileName :: ops, map =>
      map fileName ≠ none ∧ OpsFit ops (DirOp.apply map (.remove fileName))

variable [Config]

/-- The successful calls. -/
inductive DirStep : DirState → DirOp → DirState → Prop
  | add {st : DirState} {childInum : Int64} {fileName : CString} {node : Inode} {fs : FileSystem}
      (hadd : addDirectoryEntry st.node childInum fileName st.fs = some ((true, node), fs)) :
      DirStep st (.add childInum fileName)
        ⟨fs, node, Function.update st.map fileName (some childInum)⟩
  | remove {st : DirState} {fileName : CString} {node : Inode} {fs : FileSystem}
      (hremove : removeDirectoryEntry st.node fileName st.fs = some ((true, node), fs)) :
      DirStep st (.remove fileName) ⟨fs, node, Function.update st.map fileName none⟩

/-- The directory holds the finite map. -/
structure HoldsMap (st : DirState) (free : Multiset Int64) (contents : List (List Entry)) :
    Prop where
  owned : Owned st.fs free (st.node.blocks st.fs)
  dir : DirContents st.fs st.node contents
  represents : Represents contents.flatten st.map
  childNum : st.node.iChildNum.toNat = contents.flatten.length
  fileSize : st.node.iFileSize.toInt = blockSize * contents.length

namespace HoldsMap

variable {st st' : DirState} {free : Multiset Int64} {contents : List (List Entry)}

theorem empty {s : FileSystem} {node : Inode} (hfree : FreeList s free) (hdir : node.isDir = true)
    (hmap : node.EmptyMap) (hsize : node.iFileSize = 0) (hchild : node.iChildNum = 0) :
    HoldsMap ⟨s, node, fun _ => none⟩ free [] where
  owned := by
    have hblocks := hmap.blocks_eq_zero s
    exact ⟨hfree, by simpa [hblocks] using hfree.nodup, by simp [hblocks]⟩
  dir := DirContents.nil hdir hmap
  represents := Represents.nil
  childNum := by rw [hchild]; rfl
  fileSize := by rw [hsize]; rfl

omit [Config] in
/-- The number of records stays far below the range of `i_child_num`. -/
private theorem card_lt {s : FileSystem} {node : Inode} (h : DirContents s node contents) :
    contents.flatten.length < 2 ^ 63 := by
  have hblocks := h.length_le
  have hrecords := h.length_flatten_le
  simp only [maxBlocksNum] at hblocks
  omega

theorem add (h : HoldsMap st free contents) {childInum : Int64} {fileName : CString}
    (hshort : fileName.length ≤ maxFileNameLength) (habsent : st.map fileName = none)
    {node : Inode} {fs : FileSystem}
    (hadd : addDirectoryEntry st.node childInum fileName st.fs = some ((true, node), fs)) :
    ∃ free' contents', HoldsMap
      ⟨fs, node, Function.update st.map fileName (some childInum)⟩ free' contents' := by
  have howned := h.owned
  rw [← add_zero (st.node.blocks st.fs)] at howned
  obtain ⟨added, node', s', free', contents', hrun, hadded⟩ :=
    addDirectoryEntry_spec (fileName, childInum) h.dir howned hshort
  obtain ⟨⟨rfl, rfl⟩, rfl⟩ : (added = true ∧ node' = node) ∧ s' = fs := by
    simpa [hrun] using hadd
  have hentries : contents'.flatten.Perm ((fileName, childInum) :: contents.flatten) :=
    hadded.entries
  refine ⟨free', contents', ?_, hadded.dir, (h.represents.cons habsent).perm hentries, ?_,
    hadded.fileSize h.fileSize⟩
  · simpa using hadded.owned
  · have hlt := card_lt hadded.dir
    have hchild := h.childNum
    rw [hentries.length_eq, List.length_cons] at hlt ⊢
    show node'.iChildNum.toNat = _
    rw [hadded.childNum, if_pos rfl, UInt64.toNat_add]
    simp only [UInt64.reduceToNat]
    omega

theorem remove (h : HoldsMap st free contents) {fileName : CString}
    {node : Inode} {fs : FileSystem}
    (hremove : removeDirectoryEntry st.node fileName st.fs = some ((true, node), fs)) :
    ∃ contents', HoldsMap ⟨fs, node, Function.update st.map fileName none⟩ free contents' := by
  have howned := h.owned
  rw [← add_zero (st.node.blocks st.fs)] at howned
  cases hlookup : contents.flatten.lookup fileName with
  | none =>
      rw [removeDirectoryEntry_absent h.dir howned hlookup] at hremove
      simp at hremove
  | some inum =>
      obtain ⟨entry, node', s', contents', hrun, rfl, hremoved⟩ :=
        removeDirectoryEntry_spec h.dir howned hlookup
      obtain ⟨rfl, rfl⟩ : node' = node ∧ s' = fs := by simpa [hrun] using hremove
      obtain ⟨currTime, rfl⟩ := hremoved.removed
      have hlength := hremoved.entries.length_eq
      refine ⟨contents', ?_, hremoved.dir, (h.represents.perm hremoved.entries.symm).tail, ?_, ?_⟩
      · simpa using hremoved.owned
      · have hlt := card_lt h.dir
        have hchild := h.childNum
        rw [hlength, List.length_cons] at hlt hchild
        show (st.node.iChildNum - 1).toNat = _
        rw [UInt64.toNat_sub]
        simp only [UInt64.reduceToNat]
        omega
      · rw [hremoved.length]
        exact h.fileSize

theorem step (h : HoldsMap st free contents) {op : DirOp} (hallowed : op.Allowed st)
    (hstep : DirStep st op st') : ∃ free' contents', HoldsMap st' free' contents' := by
  cases hstep with
  | add hadd => exact h.add hallowed.1 hallowed.2 hadd
  | remove hremove => exact ⟨free, h.remove hremove⟩

theorem find (h : HoldsMap st free contents) (fileName : CString) :
    ∃ result, getFilePositionInDir fileName st.node st.fs = some (result, st.fs) ∧
      result.map FilePosition.inum = st.map fileName ∧
      ∀ filePos, result = some filePos →
        RecordAt (st.fs.disk filePos.pBlockNum) filePos.offset (fileName, filePos.inum) := by
  obtain ⟨result, hrun, hresult, hfound⟩ :=
    getFilePositionInDir_spec h.dir h.owned.data fileName
  refine ⟨result, hrun, ?_, fun filePos hfilePos => ?_⟩
  · rw [← hresult, h.represents.lookup]
  · obtain ⟨i, hi, hblock, hblockNum, hoffset⟩ := hfound filePos hfilePos
    have hrecord := recordPosition_recordAt (h.dir.records i hi) hoffset
    rwa [FilePosition.inum, hblock, hblockNum]

/-- With four free blocks an absent name can be added. -/
theorem exists_add (h : HoldsMap st free contents) (childInum : Int64) {fileName : CString}
    (hshort : fileName.length ≤ maxFileNameLength) (habsent : st.map fileName = none)
    (hfree : 4 ≤ free.card) (hlength : contents.length < maxBlocksNum) :
    ∃ st' free' contents', DirStep st (.add childInum fileName) st' ∧
      st'.map = Function.update st.map fileName (some childInum) ∧
      HoldsMap st' free' contents' ∧ (∃ S, DataFrame S st.fs st'.fs) ∧
      free.card ≤ free'.card + 4 ∧ contents'.length ≤ contents.length + 1 := by
  have howned := h.owned
  have hcost := blockCost_le contents.length
  rw [← add_zero (st.node.blocks st.fs)] at howned
  obtain ⟨added, node, fs, free', contents', hrun, hadded⟩ :=
    addDirectoryEntry_spec (fileName, childInum) h.dir howned hshort
  cases added with
  | false =>
      have := hadded.failed rfl hlength
      omega
  | true =>
      obtain ⟨free'', contents'', h'⟩ := h.add hshort habsent hrun
      obtain rfl := hadded.owned.freeList.unique h'.owned.freeList
      obtain rfl := h'.dir.unique hadded.dir
      refine ⟨_, _, _, .add hrun, rfl, h', ⟨_, hadded.frame⟩, ?_, hadded.length⟩
      rcases hadded.room rfl with ⟨-, rfl⟩ | ⟨-, -, hcard⟩
      · omega
      · omega

theorem exists_remove (h : HoldsMap st free contents) {fileName : CString}
    (hpresent : st.map fileName ≠ none) :
    ∃ st' contents', DirStep st (.remove fileName) st' ∧
      st'.map = Function.update st.map fileName none ∧ HoldsMap st' free contents' ∧
      (∃ S, DataFrame S st.fs st'.fs) ∧ contents'.length = contents.length := by
  have howned := h.owned
  rw [← add_zero (st.node.blocks st.fs)] at howned
  obtain ⟨inum, hinum⟩ := Option.ne_none_iff_exists'.mp hpresent
  obtain ⟨entry, node, fs, contents', hrun, rfl, hremoved⟩ :=
    removeDirectoryEntry_spec h.dir howned ((h.represents.lookup fileName).trans hinum)
  obtain ⟨contents'', h'⟩ := h.remove hrun
  obtain rfl := h'.dir.unique hremoved.dir
  exact ⟨_, _, .remove hrun, rfl, h', ⟨_, hremoved.frame⟩, hremoved.length⟩

/-- With enough free blocks every list of calls that fit goes through. -/
theorem exists_run {ops : List DirOp} (h : HoldsMap st free contents) (hops : OpsFit ops st.map)
    (hfree : 4 * ops.length ≤ free.card) (hlength : contents.length + ops.length ≤ maxBlocksNum) :
    ∃ st' free' contents', Run DirStep (fun st op => op.Allowed st ∧ op ∈ ops) st st' ∧
      st'.map = ops.foldl DirOp.apply st.map ∧ HoldsMap st' free' contents' ∧
      ∃ S, DataFrame S st.fs st'.fs := by
  induction ops generalizing st free contents with
  | nil => exact ⟨st, free, contents, .refl, rfl, h, 0, .refl _ _⟩
  | cons op ops ih =>
      simp only [List.length_cons] at hfree hlength
      obtain ⟨hallowed, st₁, free₁, contents₁, hstep, hmap, h₁, ⟨S, hframe⟩, hfits, hcard, hlength₁⟩ :
          op.Allowed st ∧ ∃ st₁ free₁ contents₁, DirStep st op st₁ ∧ st₁.map = op.apply st.map ∧
            HoldsMap st₁ free₁ contents₁ ∧ (∃ S, DataFrame S st.fs st₁.fs) ∧
            OpsFit ops (op.apply st.map) ∧ free.card ≤ free₁.card + 4 ∧
            contents₁.length ≤ contents.length + 1 := by
        cases op with
        | add childInum fileName =>
            obtain ⟨⟨hshort, habsent⟩, hrest⟩ := hops
            obtain ⟨st₁, free₁, contents₁, hstep, hmap, h₁, hframe, hcard, hlength₁⟩ :=
              h.exists_add childInum hshort habsent (by omega) (by omega)
            exact ⟨⟨hshort, habsent⟩, st₁, free₁, contents₁, hstep, hmap, h₁, hframe, hrest, hcard,
              hlength₁⟩
        | remove fileName =>
            obtain ⟨hpresent, hrest⟩ := hops
            obtain ⟨st₁, contents₁, hstep, hmap, h₁, hframe, hlength₁⟩ := h.exists_remove hpresent
            exact ⟨trivial, st₁, free, contents₁, hstep, hmap, h₁, hframe, hrest, by omega, by omega⟩
      rw [← hmap] at hfits
      obtain ⟨st', free', contents', hrun, hmap', h', T, hframe'⟩ :=
        ih h₁ hfits (by omega) (by omega)
      refine ⟨st', free', contents', ?_, ?_, h', S + T, ?_⟩
      · refine (Run.single op ⟨hallowed, List.mem_cons_self⟩ hstep).trans (hrun.mono ?_)
        exact fun _ _ hcond => ⟨hcond.1, List.mem_cons_of_mem _ hcond.2⟩
      · rw [hmap', hmap]
        rfl
      · exact (hframe.mono (Multiset.subset_of_le (Multiset.le_add_right _ _))).trans
          (hframe'.mono (Multiset.subset_of_le (Multiset.le_add_left _ _)))

end HoldsMap

/--
A directory is a faithful finite map: after any run of successful additions
of absent names and removals, searching a name finds a record exactly when it
is present, with the inode number of its latest addition; the blocks are
packed records followed by zeros; and the counters agree.
-/
theorem directory_finiteMap {s₀ : FileSystem} {node₀ : Inode} {free₀ : Multiset Int64}
    {st : DirState} (hfree : FreeList s₀ free₀) (hdir : node₀.isDir = true)
    (hmap : node₀.EmptyMap) (hsize : node₀.iFileSize = 0) (hchild : node₀.iChildNum = 0)
    (hrun : Run DirStep (fun st op => op.Allowed st) ⟨s₀, node₀, fun _ => none⟩ st) :
    (∀ fileName, ∃ result,
      getFilePositionInDir fileName st.node st.fs = some (result, st.fs) ∧
        result.map FilePosition.inum = st.map fileName ∧
        ∀ filePos, result = some filePos →
          RecordAt (st.fs.disk filePos.pBlockNum) filePos.offset (fileName, filePos.inum)) ∧
      (∃ contents : List (List Entry), st.node.iBlocksNum.toInt = contents.length ∧
        ∀ i (h : i < contents.length),
          RecordsAt (st.fs.disk (st.node.blockAt st.fs i)) 0 contents[i]) ∧
      st.node.iChildNum.toNat = {fileName | (st.map fileName).isSome}.ncard ∧
      st.node.iFileSize.toInt = blockSize * st.node.iBlocksNum.toInt := by
  obtain ⟨free, contents, h⟩ : ∃ free contents, HoldsMap st free contents :=
    hrun.invariant (I := fun st => ∃ free contents, HoldsMap st free contents)
      ⟨free₀, [], .empty hfree hdir hmap hsize hchild⟩
      fun _ _ _ ⟨_, _, h⟩ hallowed hstep => h.step hallowed hstep
  refine ⟨h.find, ⟨contents, h.dir.blocksNum, h.dir.records⟩, ?_, ?_⟩
  · rw [h.childNum, h.represents.ncard_keys]
  · rw [h.fileSize, h.dir.blocksNum]

def letterX : CChar := ⟨120, by decide⟩

/-- Three names are added and the second one is removed. -/
def addAddAddRemove : List DirOp :=
  [.add 2 [dot], .add 2 [dot, dot], .add 5 [letterX], .remove [dot, dot]]

omit [Config] in
theorem addAddAddRemove_fit : OpsFit addAddAddRemove fun _ => none :=
  ⟨⟨by decide, rfl⟩, ⟨by decide, rfl⟩, ⟨by decide, rfl⟩, by decide, trivial⟩

omit [Config] in
theorem addAddAddRemove_inum {childInum : Int64} {fileName : CString}
    (h : .add childInum fileName ∈ addAddAddRemove) : childInum = 2 ∨ childInum = 5 := by
  simp only [addAddAddRemove, List.mem_cons, DirOp.add.injEq, List.not_mem_nil, reduceCtorEq,
    or_false] at h
  tauto

omit [Config] in
theorem addAddAddRemove_map (name : CString) :
    addAddAddRemove.foldl DirOp.apply (fun _ => none) name =
      if name = [letterX] then some 5 else if name = [dot] then some 2 else none := by
  simp only [addAddAddRemove, List.foldl_cons, List.foldl_nil, DirOp.apply, Function.update_apply]
  by_cases hname : name = [dot, dot]
  · rw [hname]
    decide
  · rw [if_neg hname, if_neg hname]

omit [Config] in
/-- A directory on a freshly formatted device. -/
theorem directory_finiteMap_removed :
    letI := Config.ofBlocks 519 (by decide)
    ∃ s node, node.iChildNum.toNat = 2 ∧
      (∃ filePos, getFilePositionInDir [letterX] node s = some (some filePos, s) ∧
        filePos.inum = 5) ∧
      getFilePositionInDir [dot, dot] node s = some (none, s) := by
  let _ := Config.ofBlocks 519 (by decide)
  obtain ⟨s, free, -, hfull, -⟩ :=
    altfsCreateFreelist_spec freelistHeadSet_beforeFreelist (by decide) (by decide)
  have hcard := hfull.card (by decide)
  have hdata : numOfDataBlocks = 511 := by decide
  let node : Inode := { Inode.zero with iMode := sIfdir }
  have hempty : node.EmptyMap :=
    ⟨rfl, fun i => by simp [node, Inode.direct, Inode.zero],
      fun d => by unfold Inode.root; split <;> rfl⟩
  have hdir : node.isDir = true := by decide
  obtain ⟨st, -, -, hrun, hmap, -, -⟩ :=
    (HoldsMap.empty hfull.toFreeList hdir hempty rfl rfl).exists_run addAddAddRemove_fit
      (by simp only [addAddAddRemove, List.length_cons, List.length_nil]; omega)
      (by simp only [addAddAddRemove, List.length_cons, List.length_nil, maxBlocksNum]; omega)
  obtain ⟨hfind, -, hcount, -⟩ := directory_finiteMap hfull.toFreeList hdir hempty rfl rfl
    (hrun.mono fun _ _ hcond => hcond.1)
  have hmap : ∀ name, st.map name =
      if name = [letterX] then some 5 else if name = [dot] then some 2 else none := fun name =>
    (congrFun hmap name).trans (addAddAddRemove_map name)
  have hkeys : {name | (st.map name).isSome} = {[letterX], [dot]} := by
    ext name
    change (st.map name).isSome = true ↔ _
    rw [hmap]
    split
    · simp [*]
    · split
      · simp [*]
      · simp [*]
  obtain ⟨result, hresult, hinum, -⟩ := hfind [letterX]
  rw [hmap, if_pos rfl] at hinum
  obtain ⟨filePos, rfl, hfilePos⟩ := Option.map_eq_some_iff.mp hinum
  obtain ⟨removed, hremoved, hnone, -⟩ := hfind [dot, dot]
  rw [hmap, if_neg (by decide), if_neg (by decide)] at hnone
  obtain rfl := Option.map_eq_none_iff.mp hnone
  refine ⟨st.fs, st.node, ?_, ⟨filePos, hresult, hfilePos⟩, hremoved⟩
  rw [hcount, hkeys, Set.ncard_pair (by decide)]

end AltFs
