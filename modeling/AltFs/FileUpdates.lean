import AltFs.Listing
import AltFs.Serving
import AltFs.TableSteps

/-!
# Files between two requests

`altfs_write`, `altfs_read` and `altfs_chmod`: one node of the tree is
replaced, or none.
-/

namespace AltFs

open Prog NamedTree

variable [Config]

section Update

variable {s t : FileSystem} {free free' : Multiset Int64} {inum : Int64} {names : List CString}

/-- One inode of the tree has changed, and not what is found in it. -/
structure NodeChanged (s : FileSystem) (inum : Int64) (t : FileSystem) : Prop where
  valid : ValidInum inum
  outside : KeptOutside {inumIndex inum} s t
  isDir : (t.inodeAt (inumIndex inum)).isDir = (s.inodeAt (inumIndex inum)).isDir
  mark : (t.inodeAt (inumIndex inum)).iAllocated = (s.inodeAt (inumIndex inum)).iAllocated
  links : (t.inodeAt (inumIndex inum)).iLinksCount = (s.inodeAt (inumIndex inum)).iLinksCount
  served : ServedInode t (inumIndex inum)
  lookup : ∀ name, lookupIn t inum name = lookupIn s inum name

theorem NodeChanged.lookupIn_eq (h : NodeChanged s inum t) (hs : Intact s) (ht : Intact t)
    (i : Int64) (name : CString) : lookupIn t i name = lookupIn s i name := by
  by_cases hself : i = inum
  · rw [hself]
    exact h.lookup name
  · apply h.outside.lookupIn_eq hs ht
    intro hi hmem
    exact hself (hi.eq_of_index h.valid (Finset.mem_singleton.mp hmem))

theorem NodeChanged.wholeTree (hchanged : NodeChanged s inum t) (h : WholeTree s free)
    (hwell : WellFormed t free') (hnode : follow (childOf s) rootInodeNum names = some inum) :
    WholeTree t free' ∧ view t = (view s).put names (nodeOf t inum) := by
  have hchildOf : childOf t = childOf s := by
    funext i name
    exact childOf_congr (hchanged.lookupIn_eq h.intact hwell.intact i name)
  have hout : ∀ {n}, n ≠ inumIndex inum → n ∉ ({inumIndex inum} : Finset Nat) := fun hne hmem =>
    hne (Finset.mem_singleton.mp hmem)
  have hkept : ∀ n < inodeCount, (t.inodeAt n).isDir = (s.inodeAt n).isDir ∧
      (t.inodeAt n).iAllocated = (s.inodeAt n).iAllocated ∧
      (t.inodeAt n).iLinksCount = (s.inodeAt n).iLinksCount := by
    intro n hn
    by_cases hself : n = inumIndex inum
    · rw [hself]
      exact ⟨hchanged.isDir, hchanged.mark, hchanged.links⟩
    · rw [hchanged.outside.inodeAt n hn (hout hself)]
      exact ⟨rfl, rfl, rfl⟩
  constructor
  · constructor
    · exact hwell
    · exact h.root
    · rw [(hkept _ h.root.index_lt).1]
      exact h.rootDir
    · intro n hn
      by_cases hself : n = inumIndex inum
      · rw [hself]
        exact hchanged.served
      · exact hchanged.outside.servedInode h.toSound hn (hout hself) (h.served n hn)
    · intro i name k hfound
      rw [hchildOf] at hfound
      obtain ⟨hcomponent, hk, hfixed, hallocated, hlinks⟩ := h.edge hfound
      obtain ⟨-, hmark, hcount⟩ := hkept _ hk.index_lt
      exact ⟨hcomponent, hk, hfixed, hmark.trans hallocated, hcount.trans hlinks⟩
    · rw [hchildOf]
      exact h.tree
    · intro k hk hallocated
      rw [(hkept _ hk.index_lt).2.1] at hallocated
      rw [hchildOf]
      exact h.reached hk hallocated
  · rw [view, hchildOf]
    apply h.tree.labels_relabeled hnode
    intro path k hpath hne
    have hk := h.rooted.valid hpath
    apply hchanged.outside.nodeOf_eq h.toSound hk _ (h.served _ hk.index_lt)
    exact hout fun heq => hne (hk.eq_of_index hchanged.valid heq)

/-- A changed copy of an inode, with the blocks, the type and the size it had. -/
structure Restamped (node node' : Inode) : Prop where
  map : node' = node'.withMap node
  kind : node'.iMode &&& 0xF000 = node.iMode &&& 0xF000
  size : node'.iFileSize = node.iFileSize
  mark : node'.iAllocated = node.iAllocated
  links : node'.iLinksCount = node.iLinksCount
  childNum : node'.iChildNum = node.iChildNum

namespace Restamped

variable {node node' : Inode} {n : Nat}

omit [Config] in
theorem isDir (h : Restamped node node') : node'.isDir = node.isDir := by
  rw [Inode.isDir, Inode.isDir, h.kind]

omit [Config] in
theorem isRegular (h : Restamped node node') : node'.isRegular = node.isRegular := by
  rw [Inode.isRegular, Inode.isRegular, h.kind, h.mark]

end Restamped

/-- A copy of an inode is stored, and the clock has moved. -/
theorem restamp_wholeTree {node : Inode} {clock : Nat} (h : WholeTree s free)
    (hnode : follow (childOf s) rootInodeNum names = some inum)
    (hstamp : Restamped (s.inodeAt (inumIndex inum)) node)
    (hmark : (s.inodeAt (inumIndex inum)).iAllocated = true)
    (ht : t = ({ s with clock := clock } : FileSystem).setInode (inumIndex inum) node) :
    WholeTree t free ∧ tableBlocks t = tableBlocks s ∧ (Coherent s → Coherent t) ∧
      view t = (view s).put names ⟨node.iMode, (nodeOf s inum).content⟩ := by
  have hinum := h.rooted.valid hnode
  have hn := hinum.index_lt
  let u : FileSystem := { s with clock := clock }
  have hat : ∀ m, u.inodeAt m = s.inodeAt m := fun m => inodeAt_of_disk_eq rfl
  have hwellU : WellFormed u free := h.toWellFormed.congr rfl rfl
  have hstampU := hstamp
  rw [← hat] at hstampU
  obtain ⟨hwell, htable⟩ := hwellU.writeCopy hinum (by rw [hat]; exact hmark)
    ⟨hstampU.map, hstampU.isDir, hstampU.size, hstampU.mark.trans (by rw [hat]; exact hmark)⟩
  rw [← ht] at hwell htable
  have hself : t.inodeAt (inumIndex inum) = node := by
    rw [ht, inodeAt_setInode_self]
  have hsame : SameData u t := by
    rw [ht]
    exact .setInode node hn
  have hdisk : ∀ b ∈ (s.inodeAt (inumIndex inum)).blocks s, t.disk b = s.disk b := fun b hb =>
    hsame.disk b (h.owned.data b (Multiset.mem_of_le (blocks_le_tableBlocks hn) hb))
  have hbyte : ∀ j < blockSize * (s.inodeAt (inumIndex inum)).iBlocksNum.toInt.toNat,
      fileByte t (t.inodeAt (inumIndex inum)) j = fileByte s (s.inodeAt (inumIndex inum)) j := by
    intro j hj
    have hblock := (h.inodes _ hn).blockAt_ne_zero hj
    have hkept : (s.inodeAt (inumIndex inum)).Kept s t := fun a ha =>
      hdisk a (Multiset.mem_of_le (indirect_le_blocks s _) ha)
    rw [hself, fileByte, Inode.blockAt_eq_of_withMap hstamp.map, hkept.blockAt]
    rw [hdisk _ (blockAt_mem_blocks hblock)]
    rfl
  have hdirs : ∀ contents, DirContents s (s.inodeAt (inumIndex inum)) contents →
      DirContents t (t.inodeAt (inumIndex inum)) contents := by
    intro contents hcontents
    have hcontents' := hcontents.of_disk_eq hdisk
    rw [hself]
    exact hcontents'.of_map hstamp.map hstamp.isDir
  have hchanged : NodeChanged s inum t := by
    constructor
    · exact hinum
    · constructor
      · intro m hm hmem
        rw [ht, inodeAt_setInode_ne hn hm (by simpa using hmem), hat]
      · intro m hm hmem b hb
        exact hsame.disk b (h.owned.data b (Multiset.mem_of_le (blocks_le_tableBlocks hm) hb))
    · rw [hself]
      exact hstamp.isDir
    · rw [hself]
      exact hstamp.mark
    · rw [hself]
      exact hstamp.links
    · constructor
      · intro hdir
        rw [hself, hstamp.isDir] at hdir
        obtain ⟨contents, hcontents, hrecords⟩ := (h.served _ hn).records hdir
        refine ⟨contents, hdirs contents hcontents, ⟨hrecords.unique, ?_, hrecords.hasDot,
          hrecords.hasDotDot⟩, hrecords.valid, hrecords.self⟩
        rw [hself, hstamp.childNum]
        exact hrecords.childNum
      · intro hregular
        rw [hself, hstamp.isRegular] at hregular
        apply ((h.served _ hn).file hregular).congr
        · rw [hself, hstamp.size]
        · rw [hself, hstamp.map]
          rfl
        · exact hbyte
    · intro name
      cases hdir : (s.inodeAt (inumIndex inum)).isDir with
      | true =>
          obtain ⟨contents, hcontents⟩ := h.dirs _ hn hdir
          rw [hwell.lookupIn_dir hinum (hdirs contents hcontents),
            h.lookupIn_dir hinum hcontents]
      | false =>
          rw [lookupIn_notDir h.stored.toTableFormat hinum hdir]
          apply lookupIn_notDir hwell.stored.toTableFormat hinum
          rw [hself, hstamp.isDir]
          exact hdir
  obtain ⟨htree, hview⟩ := hchanged.wholeTree h hwell hnode
  have hlookups := hchanged.lookupIn_eq h.intact hwell.intact
  refine ⟨htree, htable.trans (tableBlocks_congr rfl), fun hcoherent => ?_, ?_⟩
  · apply hcoherent.mono
    · rw [ht]
      rfl
    · intro i name value hlookup
      rw [hlookups]
      exact hlookup
  · rw [hview]
    congr 1
    unfold nodeOf
    rw [hself, hstamp.isRegular]
    congr 1
    split
    next hregular =>
      apply ((h.served _ hn).file hregular).contentOf_congr
      · rw [hself, hstamp.size]
      · exact hbyte
    next => rfl

/-- A regular file has got other contents. -/
structure FileChanged (s : FileSystem) (inum : Int64) (t : FileSystem) : Prop where
  others : OthersKept (inumIndex inum) s t
  mode : (t.inodeAt (inumIndex inum)).iMode = (s.inodeAt (inumIndex inum)).iMode
  mark : (t.inodeAt (inumIndex inum)).iAllocated = (s.inodeAt (inumIndex inum)).iAllocated
  links : (t.inodeAt (inumIndex inum)).iLinksCount = (s.inodeAt (inumIndex inum)).iLinksCount
  file : FileSound t (t.inodeAt (inumIndex inum))
  cache : t.cache = s.cache

theorem FileChanged.wholeTree (hchanged : FileChanged s inum t) (h : WholeTree s free)
    (hwell : WellFormed t free') (hnode : follow (childOf s) rootInodeNum names = some inum)
    (hregular : (s.inodeAt (inumIndex inum)).isRegular = true) :
    WholeTree t free' ∧ (Coherent s → Coherent t) ∧ view t =
      (view s).put names ⟨(s.inodeAt (inumIndex inum)).iMode, contentOf t (inumIndex inum)⟩ := by
  have hinum := h.rooted.valid hnode
  have hdir := Inode.isRegular_isDir hregular
  have hdir' : (t.inodeAt (inumIndex inum)).isDir = false := by
    rw [isDir_congr hchanged.mode]
    exact hdir
  have hregular' : (t.inodeAt (inumIndex inum)).isRegular = true := by
    rw [Inode.isRegular, hchanged.mark, hchanged.mode]
    exact hregular
  have hnodeChanged : NodeChanged s inum t := by
    constructor
    · exact hinum
    · exact hchanged.others.outside
    · rw [hdir', hdir]
    · exact hchanged.mark
    · exact hchanged.links
    · constructor
      · intro hisDir
        rw [hdir'] at hisDir
        cases hisDir
      · exact fun _ => hchanged.file
    · intro name
      rw [lookupIn_notDir hwell.stored.toTableFormat hinum hdir',
        lookupIn_notDir h.stored.toTableFormat hinum hdir]
  obtain ⟨htree, hview⟩ := hnodeChanged.wholeTree h hwell hnode
  have hlookups := hnodeChanged.lookupIn_eq h.intact hwell.intact
  refine ⟨htree, fun hcoherent => ?_, ?_⟩
  · apply hcoherent.mono hchanged.cache
    intro i name value hlookup
    rw [hlookups]
    exact hlookup
  · rw [hview, nodeOf, hregular', hchanged.mode]
    rfl

/-- A regular file is written from `offset` on, with room for all bytes. -/
theorem writeInum_wholeTree {offset : Nat} {buff : List UInt8} (h : WholeTree s free)
    (hnode : follow (childOf s) rootInodeNum names = some inum)
    (hregular : (s.inodeAt (inumIndex inum)).isRegular = true) (hbuff : buff ≠ [])
    (hlt : offset < 2 ^ 63)
    (hroom : RoomFor (s.inodeAt (inumIndex inum)) offset buff.length free.card) :
    ∃ t free', writeInum inum buff offset s = some ((buff.length : Int), t) ∧ WholeTree t free' ∧
      free' + tableBlocks t = free + tableBlocks s ∧ (Coherent s → Coherent t) ∧
      view t = (view s).put names ⟨(s.inodeAt (inumIndex inum)).iMode,
        put 0 (contentOf s (inumIndex inum)) offset buff⟩ := by
  have hinum := h.rooted.valid hnode
  have hn := hinum.index_lt
  have hmark := Inode.isRegular_iAllocated hregular
  have hdir := Inode.isRegular_isDir hregular
  obtain ⟨-, ⟨m, hm, -⟩, -⟩ := h.inodes _ hn
  obtain ⟨k, leak, free', t, hrun, hwritten⟩ := writeInum_spec h.toSound hinum hbuff hlt hm
  obtain ⟨-, hall, rfl⟩ := hwritten.complete hbuff hm hroom
  obtain ⟨hfile, hcontent⟩ := hwritten.spec hbuff hm hroom ((h.served _ hn).file hregular)
  have hwell := hwritten.wellFormed h.toWellFormed hn hmark hdir
  have hchanged : FileChanged s inum t := by
    constructor
    · exact hwritten.others
    · exact hwritten.iMode
    · exact hwritten.iAllocated
    · obtain ⟨node, hat⟩ := hwritten.node
      rw [hat]
      rfl
    · exact hfile
    · exact hwritten.cache
  obtain ⟨htree, hcoherent, hview⟩ := hchanged.wholeTree h hwell hnode hregular
  have hconserved := hwritten.conserved
  rw [zero_add] at hconserved
  rw [hall] at hrun
  rw [hcontent] at hview
  exact ⟨t, free', hrun, htree, hconserved, hcoherent, hview⟩

end Update

/-! ## What is read -/

namespace WholeTree

variable {s : FileSystem} {free : Multiset Int64} {inum : Int64} {names : List CString}
  {contents : List (List Entry)}

theorem hasAttr (h : WholeTree s free)
    (hnode : follow (childOf s) rootInodeNum names = some inum) :
    (nodeOf s inum).HasAttr (inodeToStat inum (s.inodeAt (inumIndex inum))) := by
  constructor
  · rfl
  · intro hregular
    rw [← h.isRegular hnode] at hregular
    have hnonneg := ((h.served _ (h.rooted.valid hnode).index_lt).file hregular).nonneg
    rw [nodeOf, hregular]
    change (s.inodeAt (inumIndex inum)).iFileSize.toInt = ((contentOf s (inumIndex inum)).length : Int)
    rw [contentOf, length_bytesAt, Inode.fileSize]
    omega

/-- The records of a directory are the names below it, and `.` and `..`. -/
theorem listing (h : WholeTree s free)
    (hnode : follow (childOf s) rootInodeNum names = some inum)
    (hcontents : DirContents s (s.inodeAt (inumIndex inum)) contents)
    (hrecords : ServedRecords (inumIndex inum) (s.inodeAt (inumIndex inum)) contents.flatten) :
    (view s).Listing names (nodeOf s inum) (contents.flatten.map (dirItem s)) := by
  have hinum := h.rooted.valid hnode
  have hrepresents : Represents contents.flatten fun name => contents.flatten.lookup name :=
    ⟨hrecords.unique, fun _ => rfl⟩
  have hchild : ∀ {name}, name ≠ [dot] → name ≠ [dot, dot] →
      follow (childOf s) rootInodeNum (names ++ [name]) = contents.flatten.lookup name := by
    intro name hdot hdotDot
    rw [follow_concat, hnode, Option.bind_some, childOf, if_neg (not_or.mpr ⟨hdot, hdotDot⟩),
      h.lookupIn_dir hinum hcontents]
    rfl
  constructor
  · intro name
    rw [count_dirItem hrepresents]
    apply if_congr _ rfl rfl
    by_cases hdot : name = [dot]
    · rw [hrepresents.isSome_iff, hdot]
      exact iff_of_true hrecords.hasDot (.inl rfl)
    by_cases hdotDot : name = [dot, dot]
    · rw [hrepresents.isSome_iff, hdotDot]
      exact iff_of_true hrecords.hasDotDot (.inr (.inl rfl))
    · rw [← hchild hdot hdotDot]
      simp [hdot, hdotDot, view, labels]
  · intro item hitem
    obtain ⟨entry, -, rfl⟩ := List.mem_map.mp hitem
    exact ⟨entry.1, rfl⟩
  · intro st hmem
    obtain ⟨⟨name, k⟩, hentry, heq⟩ := List.mem_map.mp hmem
    obtain ⟨hbytes, rfl⟩ := Prod.mk.inj heq
    obtain rfl := nameBytes_inj.mp hbytes
    obtain rfl : k = inum := by
      have hk : ValidInum k := hrecords.valid _ hentry
      have hself := hrecords.self k hentry
      have hindex := hk.index_eq
      exact hk.eq_of_index hinum (by omega)
    exact h.hasAttr hnode
  · intro name child st hview hmem
    obtain ⟨⟨name', k⟩, hentry, heq⟩ := List.mem_map.mp hmem
    obtain ⟨hbytes, rfl⟩ := Prod.mk.inj heq
    obtain rfl := nameBytes_inj.mp hbytes
    obtain ⟨k', hfollow, rfl⟩ := Option.map_eq_some_iff.mp hview
    have hfollow' := hfollow
    rw [follow_concat, hnode, Option.bind_some] at hfollow'
    have hname := (h.edge hfollow').component
    rw [hchild hname.ne_dot hname.ne_dotDot] at hfollow
    obtain rfl : k' = k := Option.some.inj (hfollow.symm.trans (hrepresents.mem_iff.mp hentry))
    apply h.hasAttr
    rw [follow_concat, hnode]
    exact hfollow'

end WholeTree

/-! ## The operations -/

section Operations

variable {s t : FileSystem} {free : Multiset Int64} {inum offset : Int64} {names : List CString}
  {node : Node} {buff : List UInt8} {nbytes : Nat} {r : Int}

/-- The blocks that the bytes from `offset` on take can be added to the file. -/
def RoomForBytes (s : FileSystem) (free : Multiset Int64) (names : List CString)
    (offset length : Nat) : Prop :=
  ∀ inum, follow (childOf s) rootInodeNum names = some inum →
    RoomFor (s.inodeAt (inumIndex inum)) offset length free.card

variable (h : WholeTree s free) (hcoherent : Coherent s)
  (hnames : ∀ name ∈ names, IsComponent name)

include h hcoherent hnames

theorem altfsWrite_served
    (hregular : ∀ node, view s names = some node → node.isRegular = true)
    (hroom : RoomForBytes s free names offset.toInt.toNat buff.length)
    (hrun : altfsWrite (pathOf names) buff offset s = some (r, t)) :
    (r, view t) = (view s).write names buff offset.toInt ∧ Served s free t := by
  have hidle : Served s free s := (refl_of SameButCache s).served h hcoherent
  unfold altfsWrite at hrun
  unfold FileTree.write
  by_cases hempty : buff = []
  · rw [if_pos (List.length_eq_zero_iff.mpr hempty)] at hrun
    cases hrun
    rw [if_pos hempty]
    exact ⟨rfl, hidle⟩
  rw [if_neg fun hzero => hempty (List.length_eq_zero_iff.mp hzero)] at hrun
  rw [if_neg hempty]
  by_cases hoffset : offset.toInt < 0
  · rw [if_pos hoffset] at hrun
    cases hrun
    rw [if_pos hoffset]
    exact ⟨rfl, hidle⟩
  rw [if_neg hoffset] at hrun
  rw [if_neg hoffset]
  obtain ⟨inum, s₁, hname, hrest⟩ := bind_eq_some_iff.mp hrun
  obtain ⟨hsame, hcoherent₁, hlookup⟩ := nameI_wholeTree h hcoherent hnames hname
  have h₁ := hsame.wholeTree h
  have hview := hsame.view_eq h
  rcases hlookup with ⟨hmissing, hnone⟩ | ⟨hfound, hnode⟩
  · rw [if_pos hmissing] at hrest
    cases hrest
    rw [hnone, hview]
    exact ⟨rfl, hsame.served h hcoherent₁⟩
  · rw [if_neg hfound] at hrest
    have hsome := view_eq_some hnode
    have hfile : (s.inodeAt (inumIndex inum)).isRegular = true := by
      rw [h.isRegular hnode]
      exact hregular _ hsome
    have hlt := offset.toInt_lt
    obtain ⟨u, free', hwrite, htree, hconserved, hcoherent', hafter⟩ :=
      @writeInum_wholeTree _ s₁ free inum names offset.toInt.toNat buff h₁
        (by rw [hsame.childOf_eq]; exact hnode) (by rw [hsame.inodeAt]; exact hfile) hempty
        (by omega) (by rw [hsame.inodeAt]; exact hroom inum hnode)
    rw [hwrite] at hrest
    cases hrest
    rw [hsame.tableBlocks_eq] at hconserved
    rw [hsome, hafter, hview, hsame.inodeAt, hsame.contentOf_eq]
    refine ⟨?_, hcoherent' hcoherent₁, free', htree, hconserved⟩
    rw [nodeOf, hfile]
    rfl

theorem altfsRead_served {data : List UInt8}
    (hregular : ∀ node, view s names = some node → node.isRegular = true)
    (hrun : altfsRead (pathOf names) nbytes offset s = some ((r, data), t)) :
    (r, data) = (view s).read names nbytes offset.toInt ∧ view t = view s ∧ Served s free t := by
  have hidle : Served s free s := (refl_of SameButCache s).served h hcoherent
  have hwhole := hrun
  unfold altfsRead at hrun
  unfold FileTree.read
  by_cases hnone : nbytes = 0
  · rw [if_pos hnone] at hrun
    cases hrun
    refine ⟨?_, rfl, hidle⟩
    cases view s names with
    | none => rw [if_pos hnone]
    | some node =>
        change _ = readResult node.content nbytes offset.toInt
        rw [readResult, if_pos hnone]
  rw [if_neg hnone] at hrun
  by_cases hoffset : offset.toInt < 0
  · rw [if_pos hoffset] at hrun
    cases hrun
    refine ⟨?_, rfl, hidle⟩
    cases view s names with
    | none => rw [if_neg hnone, if_pos hoffset]
    | some node =>
        change _ = readResult node.content nbytes offset.toInt
        rw [readResult, if_neg hnone, if_pos hoffset]
  rw [if_neg hoffset] at hrun
  obtain ⟨inum, s₁, hname, hrest⟩ := bind_eq_some_iff.mp hrun
  obtain ⟨hsame, hcoherent₁, hlookup⟩ := nameI_wholeTree h hcoherent hnames hname
  have h₁ := hsame.wholeTree h
  have hview := hsame.view_eq h
  rcases hlookup with ⟨hmissing, hfree⟩ | ⟨hfound, hnode⟩
  · rw [if_pos hmissing] at hrest
    cases hrest
    refine ⟨?_, hview, hsame.served h hcoherent₁⟩
    simp only [hfree, if_neg hnone, if_neg hoffset]
  · have hsome := view_eq_some hnode
    have hfile : (s.inodeAt (inumIndex inum)).isRegular = true := by
      rw [h.isRegular hnode]
      exact hregular _ hsome
    have hinum := h.rooted.valid hnode
    have hfile₁ := hfile
    rw [← hsame.inodeAt] at hfile₁
    obtain ⟨u, hread, hu⟩ := @altfsRead_run _ s free _ inum s₁ nbytes offset h₁.toSound hname hinum
      ((h₁.served _ hinum.index_lt).file hfile₁) hnone (not_lt.mp hoffset)
    rw [hwhole, hsame.contentOf_eq] at hread
    obtain ⟨hresult, rfl⟩ := Prod.mk.inj (Option.some.inj hread)
    rw [hsome, hresult]
    constructor
    · rw [nodeOf, hfile]
      rfl
    rcases hu with rfl | ⟨clock, currTime, hu⟩
    · exact ⟨hview, hsame.served h hcoherent₁⟩
    · have hnode₁ := hnode
      rw [← hsame.childOf_eq] at hnode₁
      have hstamp : Restamped (s₁.inodeAt (inumIndex inum))
          ((s₁.inodeAt (inumIndex inum)).touch currTime) := ⟨rfl, rfl, rfl, rfl, rfl, rfl⟩
      obtain ⟨htree, htable, hcoherent', hafter⟩ := restamp_wholeTree h₁ hnode₁ hstamp
        (Inode.isRegular_iAllocated hfile₁) hu
      refine ⟨?_, hcoherent' hcoherent₁, free, htree, by rw [htable, hsame.tableBlocks_eq]⟩
      -- the node is put where it was
      rw [hafter, hview]
      apply PathTree.put_self
      rw [← hview, view_eq_some hnode₁]
      rfl

/-- The type of the node stays what it is. -/
theorem altfsChmod_served {mode : UInt32}
    (hkind : ∀ node, view s names = some node → mode &&& 0xF000 = node.mode &&& 0xF000)
    (hrun : altfsChmod (pathOf names) mode s = some (r, t)) :
    (r, view t) = (view s).chmod names mode ∧ Served s free t := by
  obtain ⟨inum, s₁, hname, hrest⟩ := bind_eq_some_iff.mp hrun
  obtain ⟨hsame, hcoherent₁, hlookup⟩ := nameI_wholeTree h hcoherent hnames hname
  have h₁ := hsame.wholeTree h
  have hview := hsame.view_eq h
  unfold FileTree.chmod
  rcases hlookup with ⟨hmissing, hfree⟩ | ⟨hfound, hnode⟩
  · rw [if_pos hmissing] at hrest
    cases hrest
    rw [hfree, hview]
    exact ⟨rfl, hsame.served h hcoherent₁⟩
  · have hinum := h.rooted.valid hnode
    have hformat := h₁.stored.toTableFormat
    have hsome := view_eq_some hnode
    have hnode₁ := hnode
    rw [← hsame.childOf_eq] at hnode₁
    rw [if_neg hfound, bind_of_eq (getInode?_run hformat hinum)] at hrest
    simp only [bind_of_eq (writeInode_run hformat hinum), Bool.not_true, Bool.false_eq_true,
      if_false] at hrest
    cases hrest
    have hstamp : Restamped (s₁.inodeAt (inumIndex inum))
        { s₁.inodeAt (inumIndex inum) with iMode := mode } := by
      refine ⟨rfl, ?_, rfl, rfl, rfl, rfl⟩
      rw [hsame.inodeAt]
      exact hkind _ hsome
    obtain ⟨htree, htable, hcoherent', hafter⟩ :=
      @restamp_wholeTree _ s₁ _ free inum names _ s₁.clock h₁ hnode₁ hstamp (h₁.allocated hnode₁) rfl
    refine ⟨?_, hcoherent' hcoherent₁, free, htree, by rw [htable, hsame.tableBlocks_eq]⟩
    rw [hsome, hafter, hview]
    have heq : nodeOf s₁ inum = nodeOf s inum := by
      apply Option.some_inj.mp
      rw [← view_eq_some hnode₁, hview, hsome]
    rw [heq]

theorem altfsAccess_served (hrun : altfsAccess (pathOf names) s = some (r, t)) :
    r = (view s).access names ∧ view t = view s ∧ Served s free t := by
  obtain ⟨inum, s₁, hname, hrest⟩ := bind_eq_some_iff.mp hrun
  obtain ⟨hsame, hcoherent₁, hlookup⟩ := nameI_wholeTree h hcoherent hnames hname
  unfold FileTree.access
  rcases hlookup with ⟨hmissing, hfree⟩ | ⟨hfound, hnode⟩
  · rw [if_pos hmissing] at hrest
    cases hrest
    rw [hfree]
    exact ⟨rfl, hsame.view_eq h, hsame.served h hcoherent₁⟩
  · rw [if_neg hfound] at hrest
    cases hrest
    rw [view_eq_some hnode]
    exact ⟨rfl, hsame.view_eq h, hsame.served h hcoherent₁⟩

/-- Opening a file neither creates it nor empties it. -/
theorem altfsOpen_served {flags : Int64} (hcreat : hasFlag flags oCreat = false)
    (htrunc : hasFlag flags oTrunc = false)
    (hrun : altfsOpen (pathOf names) flags s = some (r, t)) :
    (if r ≤ -1 then r else 0) = (view s).openFile names flags ∧ view t = view s ∧
      Served s free t := by
  obtain ⟨inum, s₁, hname, hrest⟩ := bind_eq_some_iff.mp hrun
  obtain ⟨hsame, hcoherent₁, hlookup⟩ := nameI_wholeTree h hcoherent hnames hname
  have hserved := hsame.served h hcoherent₁
  have hview := hsame.view_eq h
  unfold FileTree.openFile
  rcases hlookup with ⟨hmissing, hfree⟩ | ⟨hfound, hnode⟩
  · rw [if_pos hmissing, hcreat, if_neg Bool.false_ne_true] at hrest
    cases hrest
    rw [hfree]
    exact ⟨rfl, hview, hserved⟩
  · have hinum := h.rooted.valid hnode
    have hread := getInode_run (hsame.wholeTree h).stored.toTableFormat hinum
    have hmay : mayOpen flags (s₁.inodeAt (inumIndex inum)) = (nodeOf s inum).mayOpen flags := by
      rw [hsame.inodeAt]
      rfl
    rw [if_neg hfound, openInum, bind_of_eq hread, hmay, htrunc] at hrest
    rw [view_eq_some hnode]
    cases hallowed : (nodeOf s inum).mayOpen flags with
    | false =>
        rw [hallowed] at hrest
        cases hrest
        simp only [hallowed]
        exact ⟨rfl, hview, hserved⟩
    | true =>
        rw [hallowed] at hrest
        cases hrest
        have hpos := hinum.1
        simp only [hallowed, if_true]
        refine ⟨if_neg ?_, hview, hserved⟩
        omega

/-- The attributes that the client has seen already. -/
theorem altfsGetattr_served {st : Stat}
    (hrun : altfsGetattr (pathOf names) s = some ((r, st), t)) :
    r = (view s).access names ∧
      (∀ node, view s names = some node → node.HasAttr st) ∧ view t = view s ∧ Served s free t := by
  obtain ⟨inum, s₁, hname, hrest⟩ := bind_eq_some_iff.mp hrun
  obtain ⟨hsame, hcoherent₁, hlookup⟩ := nameI_wholeTree h hcoherent hnames hname
  have hserved := hsame.served h hcoherent₁
  have hview := hsame.view_eq h
  unfold FileTree.access
  rcases hlookup with ⟨hmissing, hfree⟩ | ⟨hfound, hnode⟩
  · rw [if_pos hmissing] at hrest
    cases hrest
    refine ⟨?_, fun node hsome => ?_, hview, hserved⟩
    · rw [hfree]
    · rw [hfree] at hsome
      cases hsome
  · have hinum := h.rooted.valid hnode
    have hread := getInode?_run (hsame.wholeTree h).stored.toTableFormat hinum
    rw [if_neg hfound, bind_of_eq hread] at hrest
    cases hrest
    rw [hsame.inodeAt, view_eq_some hnode]
    refine ⟨rfl, fun node hsome => ?_, hview, hserved⟩
    cases hsome
    exact h.hasAttr hnode

/-- The listing of a directory names what the tree has below it. -/
theorem altfsReaddir_served {items : List DirItem}
    (hrun : altfsReaddir (pathOf names) s = some ((r, items), t)) :
    (view s).Lists names r items ∧ view t = view s ∧ Served s free t := by
  have hwhole := hrun
  obtain ⟨inum, s₁, hname, hrest⟩ := bind_eq_some_iff.mp hrun
  obtain ⟨hsame, hcoherent₁, hlookup⟩ := nameI_wholeTree h hcoherent hnames hname
  have h₁ := hsame.wholeTree h
  have hserved := hsame.served h hcoherent₁
  have hview := hsame.view_eq h
  rcases hlookup with ⟨hmissing, hfree⟩ | ⟨hfound, hnode⟩
  · rw [if_pos hmissing] at hrest
    cases hrest
    exact ⟨.missing hfree, hview, hserved⟩
  · have hinum := h.rooted.valid hnode
    have hread := getInode_run h₁.stored.toTableFormat hinum
    have hsome := view_eq_some hnode
    rw [if_neg hfound, bind_of_eq hread] at hrest
    cases hdir : (s.inodeAt (inumIndex inum)).isDir with
    | false =>
        rw [hsame.inodeAt, hdir] at hrest
        cases hrest
        exact ⟨.notDir hsome hdir, hview, hserved⟩
    | true =>
        obtain ⟨contents, hcontents, hrecords⟩ := (h.served _ hinum.index_lt).records hdir
        have hcontents₁ := hsame.dirContents hcontents
        rw [← hsame.inodeAt] at hcontents₁
        have hlist := altfsReaddir_run hname h₁.stored.toTableFormat hinum hcontents₁
          (fun b hb => h₁.owned.data b (Multiset.mem_of_le (blocks_le_tableBlocks hinum.index_lt) hb))
          hrecords.valid
        rw [hwhole] at hlist
        obtain ⟨hresult, rfl⟩ := Prod.mk.inj (Option.some.inj hlist)
        obtain ⟨rfl, rfl⟩ := Prod.mk.inj hresult
        have hitems : dirItem t = dirItem s := by
          funext entry
          rw [dirItem, hsame.inodeAt]
          rfl
        rw [hitems]
        exact ⟨.listed hsome hdir (h.listing hnode hcontents hrecords), hview, hserved⟩

end Operations

end AltFs
