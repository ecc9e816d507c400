import AltFs.Additions
import AltFs.Removal

/-!
# Renaming between two requests

`altfs_rename` is a move in the tree that a client sees, in place of what could
be unlinked at the target, or nothing changes.
-/

namespace AltFs

open Prog NamedTree

variable [Config]

/-! ## One record -/

section Edge

variable {s t : FileSystem} {free : Multiset Int64} {parentInum inum : Int64} {name : CString}
  {n : Nat}

private theorem sameKind_of (hn : n < inodeCount)
    (hout : KeptOutside {inumIndex parentInum} s t)
    (hkind : SameKind (s.inodeAt (inumIndex parentInum)) (t.inodeAt (inumIndex parentInum))) :
    SameKind (s.inodeAt n) (t.inodeAt n) := by
  by_cases hself : n = inumIndex parentInum
  · rw [hself]
    exact hkind
  · rw [hout.inodeAt n hn (by simpa using hself)]
    exact ⟨rfl, rfl, rfl⟩

private theorem nodeOf_of (hs : Sound s free) (hinum : ValidInum inum)
    (hserved : ServedInode s (inumIndex inum)) (hout : KeptOutside {inumIndex parentInum} s t)
    (hdir : (s.inodeAt (inumIndex parentInum)).isDir = true)
    (hkind : SameKind (s.inodeAt (inumIndex parentInum)) (t.inodeAt (inumIndex parentInum))) :
    nodeOf t inum = nodeOf s inum := by
  by_cases hself : inumIndex inum = inumIndex parentInum
  · have hdir' : (t.inodeAt (inumIndex inum)).isDir = true := by
      rw [hself, isDir_congr hkind.mode]
      exact hdir
    rw [nodeOf_of_isDir hdir', nodeOf_of_isDir (hself ▸ hdir), hself, hkind.mode]
  · exact hout.nodeOf_eq hs hinum (by simpa using hself) hserved

theorem EdgeAdded.servedInode (hadded : EdgeAdded parentInum name inum s t) (hs : Sound s free)
    (hserved : ∀ n < inodeCount, ServedInode s n)
    (hnone : lookupIn s parentInum name = some none) (hvalid : ValidInum parentInum)
    (hname : IsComponent name) (hinum : ValidInum inum) (hintact : Intact s)
    (hn : n < inodeCount) : ServedInode t n := by
  by_cases hself : n = inumIndex parentInum
  · obtain ⟨contents, contents', hdir, hdir', hentries⟩ := hadded.records
    obtain ⟨records, hcontents, hrecords⟩ := (hserved _ hvalid.index_lt).records hadded.isDir
    obtain rfl := hdir.unique hcontents
    rw [hintact.lookupIn_dir hvalid hdir, Option.some_inj] at hnone
    rw [hself]
    exact .of_dir hdir'
      (hrecords.added hentries hnone hadded.childNum hdir.length_flatten_lt hname hinum)
  · exact hadded.outside.servedInode hs hn (by simpa using hself) (hserved n hn)

theorem EdgeRemoved.servedInode (hremoved : EdgeRemoved parentInum name s t) (hs : Sound s free)
    (hserved : ∀ n < inodeCount, ServedInode s n) (hname : IsComponent name)
    (hvalid : ValidInum parentInum) (hn : n < inodeCount) : ServedInode t n := by
  by_cases hself : n = inumIndex parentInum
  · obtain ⟨contents, contents', removed, hdir, hdir', hentries⟩ := hremoved.records
    obtain ⟨records, hcontents, hrecords⟩ := (hserved _ hvalid.index_lt).records hremoved.isDir
    obtain rfl := hdir.unique hcontents
    rw [hself]
    exact .of_dir hdir' (hrecords.removed hentries hname hremoved.childNum)
  · exact hremoved.outside.servedInode hs hn (by simpa using hself) (hserved n hn)

end Edge

section Move

variable {s s' t v : FileSystem} {free : Multiset Int64} {parentInum toParentInum inum : Int64}
  {name toName : CString} {names toNames : List CString} {r : Int}

/-- A record that is added at the target and removed at the source. -/
theorem moved_wholeTree (h : WholeTree s free) (hto : IsComponent toName) (hname : IsComponent name)
    (hparent : follow (childOf s) rootInodeNum names = some parentInum)
    (hchild : childOf s parentInum name = some inum)
    (htoParent : follow (childOf s) rootInodeNum toNames = some toParentInum)
    (hnone : childOf s toParentInum toName = none)
    (hbelow : ¬names ++ [name] <+: toNames ++ [toName]) (hsame : SameButCache s s')
    (hadded : EdgeAdded toParentInum toName inum s' v)
    (hremoved : EdgeRemoved parentInum name v t) :
    view t = (view s).move (names ++ [name]) (toNames ++ [toName]) ∧ ∃ free', WholeTree t free' ∧
      free' + tableBlocks t = free + tableBlocks s := by
  have hvalid := h.rooted.valid hparent
  have htoValid := h.rooted.valid htoParent
  have h' := hsame.wholeTree h
  -- both records
  obtain ⟨free', hwellV, hconserved, -⟩ := hadded.wellFormed free h'.toWellFormed
  obtain ⟨hwell, htable⟩ := hremoved.wellFormed free' hwellV
  have hfree : lookupIn s' toParentInum toName = some none := by
    rw [hsame.lookupIn_eq]
    obtain ⟨contents, hcontents⟩ : ∃ contents,
        DirContents s (s.inodeAt (inumIndex toParentInum)) contents := by
      apply h.dirs _ htoValid.index_lt
      rw [← hsame.inodeAt]
      exact hadded.isDir
    rw [childOf_eq hto, h.lookupIn_dir htoValid hcontents, Option.join_some] at hnone
    rw [h.lookupIn_dir htoValid hcontents, hnone]
  have hservedV : ∀ n < inodeCount, ServedInode v n := fun n hn =>
    hadded.servedInode h'.toSound h'.served hfree htoValid hto (h.edge hchild).valid h'.intact hn
  have hkind : ∀ n < inodeCount, SameKind (s.inodeAt n) (t.inodeAt n) := by
    intro n hn
    have hfirst := sameKind_of hn hadded.outside hadded.kind
    have hsecond := sameKind_of hn hremoved.outside hremoved.kind
    rw [hsame.inodeAt] at hfirst
    exact ⟨hsecond.mode.trans hfirst.mode, hsecond.mark.trans hfirst.mark,
      hsecond.links.trans hfirst.links⟩
  have hnode : ∀ {k}, ValidInum k → nodeOf t k = nodeOf s k := by
    intro k hk
    rw [nodeOf_of hwellV.toSound hk (hservedV _ hk.index_lt) hremoved.outside hremoved.isDir
      hremoved.kind, nodeOf_of h'.toSound hk (h'.served _ hk.index_lt) hadded.outside hadded.isDir
      hadded.kind]
    exact (hsame.outside ∅).nodeOf_eq h.toSound hk (Finset.notMem_empty _) (h.served _ hk.index_lt)
  -- the edges
  have hmoved : Moved (childOf s) (childOf t) parentInum name toParentInum toName inum := by
    have hapart : ¬(toParentInum = parentInum ∧ toName = name) := by
      rintro ⟨rfl, rfl⟩
      rw [hchild] at hnone
      cases hnone
    constructor
    · exact hchild
    · rw [childOf_eq hto, hremoved.other _ _ hapart, hadded.found]
      rfl
    · rw [childOf_eq hname, hremoved.gone]
      rfl
    · intro i other hpair
      obtain ⟨hsource, htarget⟩ := not_or.mp hpair
      apply childOf_congr
      rw [hremoved.other i other hsource, hadded.other i other htarget, hsame.lookupIn_eq]
  have habsent : ∀ {path k}, follow (childOf s) rootInodeNum path = some k →
      ¬toNames ++ [toName] <+: path := by
    rintro path k hpath ⟨rest, rfl⟩
    rw [List.append_assoc, List.singleton_append, follow_append, htoParent, Option.bind_some,
      follow_cons, hnone] at hpath
    cases hpath
  refine ⟨?_, free', ⟨hwell, h.root, ?_, fun n hn => ?_, fun {i other k} hfound => ?_,
    hmoved.isTree h.tree, fun {k} hk hallocated => ?_⟩, ?_⟩
  · apply hmoved.labels_moved h.tree hparent htoParent hbelow (habsent hparent)
    intro path k hk _
    exact hnode (h.rooted.valid hk)
  · rw [isDir_congr (hkind _ h.root.index_lt).mode]
    exact h.rootDir
  · exact hremoved.servedInode hwellV.toSound hservedV hname hvalid hn
  · have hold : ∃ i' other', childOf s i' other' = some k ∧ (other = other' ∨ other = toName) := by
      by_cases htarget : i = toParentInum ∧ other = toName
      · rw [htarget.1, htarget.2, hmoved.target] at hfound
        cases hfound
        exact ⟨parentInum, name, hchild, .inr htarget.2⟩
      · by_cases hsource : i = parentInum ∧ other = name
        · rw [hsource.1, hsource.2, hmoved.gone] at hfound
          cases hfound
        · rw [hmoved.other i other (not_or.mpr ⟨hsource, htarget⟩)] at hfound
          exact ⟨i, other, hfound, .inl rfl⟩
    obtain ⟨i', other', hedge, hother⟩ := hold
    obtain ⟨hcomponent, hk, hfixed, hallocated, hlinks⟩ := h.edge hedge
    have hkindK := hkind _ hk.index_lt
    refine ⟨?_, hk, hfixed, hkindK.mark.trans hallocated, hkindK.links.trans hlinks⟩
    rcases hother with rfl | rfl
    · exact hcomponent
    · exact hto
  · rw [(hkind _ hk.index_lt).mark] at hallocated
    obtain ⟨path, hpath⟩ := h.reached hk hallocated
    apply hmoved.reached h.tree hparent htoParent hbelow
    · intro j hj
      rw [follow_concat, htoParent, Option.bind_some, hnone] at hj
      cases hj
    · exact hpath
    · rintro rfl
      exact habsent hpath List.prefix_rfl
  · rw [htable, hconserved, hsame.tableBlocks_eq]

end Move

/-! ## The operation -/

section Operation

variable {s t u : FileSystem} {free : Multiset Int64} {parentInum toParentInum inum : Int64}
  {name toName : CString} {names toNames source target : List CString}
  {contents : List (List Entry)} {mayFail : Prop} {r : Int}

theorem hasParentDir_iff : (view s).HasParentDir (toNames ++ [toName]) ↔
    ∃ parentInum, follow (childOf s) rootInodeNum toNames = some parentInum ∧
      (s.inodeAt (inumIndex parentInum)).isDir = true := by
  constructor
  · rintro ⟨front, name, node, heq, hnode, hdir⟩
    obtain ⟨rfl, -⟩ := List.append_singleton_inj.mp heq
    obtain ⟨parentInum, hfollow, rfl⟩ := Option.map_eq_some_iff.mp hnode
    exact ⟨parentInum, hfollow, hdir⟩
  · rintro ⟨parentInum, hfollow, hdir⟩
    exact ⟨toNames, toName, _, rfl, view_eq_some hfollow, hdir⟩

theorem SameButCache.roomForRecord (hsame : SameButCache s t) :
    RoomForRecord t free names = RoomForRecord s free names :=
  propext ⟨fun h _ _ _ hplace => h _ _ _ (hsame.symm.placeOf hplace),
    fun h _ _ _ hplace => h _ _ _ (hsame.placeOf hplace)⟩

theorem SameButCache.freesBlocks (hsame : SameButCache s t) (h : FreesBlocks s free names) :
    FreesBlocks t free names := by
  intro inum hfollow hfree
  rw [hsame.childOf_eq] at hfollow
  have hkept : (s.inodeAt (inumIndex inum)).Kept s t := fun _ _ => by rw [hsame.disk_eq]
  rw [hsame.inodeAt, hkept.blocks]
  exact h inum hfollow hfree

/-- Without its new record the tree is as it was. -/
theorem MoveRefused.renames (h : WholeTree s free) (hcoherent : Coherent s)
    (hsource : view s source ≠ none) (htarget : view s (toNames ++ [toName]) = none)
    (hkeeps : NoBlockLost s free (toNames ++ [toName]))
    (hrefused : MoveRefused s toNames toName t r) :
    FileTree.Renames (view s) (RoomForRecord s free (toNames ++ [toName])) source
      (toNames ++ [toName]) r (view t) ∧ Coherent t ∧ WholeTree t free ∧
      tableBlocks t = tableBlocks s := by
  cases hrefused with
  | noParent hnone hsame hcoherent' =>
      rw [hsame.view_eq h]
      refine ⟨.noParent hsource htarget ?_, hcoherent' hcoherent, hsame.wholeTree h,
        hsame.tableBlocks_eq⟩
      rw [hasParentDir_iff]
      exact hnone
  | @noRoom parentInum inum node' s₁ hfollow hdir hsame hcoherent' hrun =>
      have h₁ := hsame.wholeTree h
      have hvalid := h.rooted.valid hfollow
      have hdir₁ := hdir
      rw [← hsame.inodeAt] at hdir₁
      obtain ⟨contents, hcontents⟩ := h₁.dirs _ hvalid.index_lt hdir₁
      have hplace : PlaceOf s (toNames ++ [toName]) parentInum toName contents := by
        refine ⟨toNames, rfl, hfollow, ?_⟩
        rw [← hsame.inodeAt]
        exact hsame.symm.dirContents hcontents
      rcases h₁.addEntry hvalid.index_lt hcontents (toName, inum) with
        ⟨node₁, v, hadd, hrefused⟩ | ⟨node₁, v, free', contents', hadd, -⟩
      · rw [hrun] at hadd
        cases hadd
        have hroom := hrefused.noRoom
        -- with no room and no block to lose nothing has been written
        obtain rfl : t = s₁ := by
          rcases hrefused.reason with ⟨-, heq⟩ | ⟨hshort, -, -, hempty, -⟩
          · exact heq
          · rcases hkeeps _ _ _ hplace with hhas | hlong | hnone
            · exact absurd hhas hroom
            · exact absurd hshort (not_le.mpr hlong)
            · exact hempty hnone
        rw [hsame.view_eq h]
        refine ⟨.noRoom hsource htarget ?_ fun hall => hroom (hall _ _ _ hplace),
          hcoherent' hcoherent, h₁, hsame.tableBlocks_eq⟩
        exact hasParentDir_iff.mpr ⟨parentInum, hfollow, hdir⟩
      · rw [hrun] at hadd
        cases hadd

/-- The record moves to where nothing is. -/
private theorem moveEntry_wholeTree {s₀ : FileSystem} (h : WholeTree s free)
    (hcleared : Cleared s₀ names name parentInum inum toNames toName mayFail s)
    (hto : ∀ other ∈ toNames ++ [toName], IsComponent other)
    (hfrom : ∀ other ∈ names ++ [name], IsComponent other)
    (hbelow : ¬names ++ [name] <+: toNames ++ [toName])
    (hnone : follow (childOf s) rootInodeNum (toNames ++ [toName]) = none)
    (hrun : moveEntry (pathOf (names ++ [name])) (pathOf (toNames ++ [toName])) s = some (r, t)) :
    (mayFail ∧ MoveRefused s toNames toName t r) ∨
    r = 0 ∧ (view s).HasParentDir (toNames ++ [toName]) ∧
      RoomForRecord s free (toNames ++ [toName]) ∧ Coherent t ∧
      view t = (view s).move (names ++ [name]) (toNames ++ [toName]) ∧
      ∃ free', WholeTree t free' ∧ free' + tableBlocks t = free + tableBlocks s := by
  rcases moveEntry_cases hcleared.absent hto hfrom hcleared.parent hcleared.dir hcleared.source
      hcleared.path hrun with
    ⟨-, hfail, -, hrefused⟩ |
      ⟨rfl, toParentInum, found, s', v, htoParent, hsame, hadded, hremoved, hfound⟩
  · exact .inl ⟨hfail, hrefused⟩
  · have hne : ¬(names = toNames ∧ name = toName) := by
      rintro ⟨rfl, rfl⟩
      exact hbelow List.prefix_rfl
    obtain rfl := hfound hne
    have hchild := (hcleared.source.resolve_left hne).1
    have hnone' := hnone
    rw [follow_concat, htoParent, Option.bind_some] at hnone'
    have hdir := hadded.isDir
    rw [hsame.inodeAt] at hdir
    obtain ⟨hview, htree⟩ := moved_wholeTree h
      (hto toName (List.mem_append_right _ List.mem_cons_self))
      (hfrom name (List.mem_append_right _ List.mem_cons_self)) hcleared.parent hchild htoParent
      hnone' hbelow hsame hadded hremoved
    refine .inr ⟨rfl, hasParentDir_iff.mpr ⟨_, htoParent, hdir⟩, ?_, hremoved.coherent, hview, htree⟩
    rintro i other records ⟨front, heq, hfollow, hrecords⟩
    obtain ⟨rfl, rfl⟩ := List.append_singleton_inj.mp heq
    rw [htoParent] at hfollow
    cases hfollow
    obtain ⟨-, -, -, hroom⟩ := hadded.wellFormed free (hsame.wellFormed h.toWellFormed)
    apply hroom
    rw [hsame.inodeAt]
    exact hsame.dirContents hrecords

/-- What is true of the states after a rename. -/
def RenamedOrNot (s : FileSystem) (free : Multiset Int64) (source target : List CString) (r : Int)
    (t : FileSystem) : Prop :=
  FileTree.Renames (view s) (RoomForRecord s free target) source target r (view t) ∧
    Served s free t

theorem unlinkTarget_wholeTree (h : WholeTree s free) (hcoherent : Coherent s)
    (htarget : ∀ name ∈ target, IsComponent name) (hfree : FreesBlocks s free target)
    (hrun : unlinkTarget (pathOf target) s = some (r, t)) :
    (view s target = none ∧ r = 0 ∧ view t = view s ∨
      view s target ≠ none ∧ FileTree.Removes (view s) target r (view t)) ∧
    ∃ free', WholeTree t free' ∧ free' + tableBlocks t = free + tableBlocks s := by
  obtain ⟨code, s₁, haccess, hrest⟩ := bind_eq_some_iff.mp hrun
  obtain ⟨hsame, hcoherent₁, hcode⟩ := altfsAccess_cases h.treeFormed hcoherent htarget haccess
  split at hrest
  next hfound =>
    obtain ⟨inum, hinum⟩ := hcode.mp hfound
    obtain ⟨hremoves, free', htree, hconserved⟩ := altfsUnlink_wholeTree (hsame.wholeTree h) hcoherent₁
      htarget (hsame.freesBlocks hfree) hrest
    rw [hsame.view_eq h] at hremoves
    refine ⟨.inr ⟨?_, hremoves⟩, free', htree, by rw [hconserved, hsame.tableBlocks_eq]⟩
    rw [view_eq_some hinum]
    exact Option.some_ne_none _
  next hmissing =>
    cases hrest
    refine ⟨.inl ⟨?_, rfl, hsame.view_eq h⟩, free, hsame.wholeTree h, by rw [hsame.tableBlocks_eq]⟩
    rw [view_eq_none_iff, Option.eq_none_iff_forall_ne_some]
    exact fun inum hinum => hmissing (hcode.mpr ⟨inum, hinum⟩)

theorem altfsRename_wholeTree (h : WholeTree s free) (hcoherent : Coherent s)
    (hsource : ∀ name ∈ source, IsComponent name) (htarget : ∀ name ∈ target, IsComponent name)
    (hbelow : ¬source <+: target) (hfree : FreesBlocks s free target)
    (hkeeps : view s target = none → NoBlockLost s free target)
    (hrun : altfsRename (pathOf source) (pathOf target) s = some (r, t)) :
    RenamedOrNot s free source target r t := by
  obtain ⟨code, s₁, haccess, hrest⟩ := bind_eq_some_iff.mp hrun
  obtain ⟨hsame₁, hcoherent₁, hcode⟩ := altfsAccess_cases h.treeFormed hcoherent hsource haccess
  split at hrest
  next hmissing =>
    cases hrest
    refine ⟨?_, hcoherent₁, free, hsame₁.wholeTree h, by rw [hsame₁.tableBlocks_eq]⟩
    rw [hsame₁.view_eq h]
    apply FileTree.Renames.missing
    rw [view_eq_none_iff, Option.eq_none_iff_forall_ne_some]
    exact fun inum hinum => hmissing (hcode.mpr ⟨inum, hinum⟩)
  next hfound =>
  obtain ⟨inum, hreach⟩ := hcode.mp (not_not.mp hfound)
  have h₁ := hsame₁.wholeTree h
  have hview₁ := hsame₁.view_eq h
  have hsome : view s source ≠ none := by
    rw [view_eq_some hreach]
    exact Option.some_ne_none _
  obtain ⟨names, name, rfl⟩ := (List.eq_nil_or_concat source).resolve_left (by
    rintro rfl
    exact hbelow List.nil_prefix)
  rw [List.concat_eq_append] at *
  rw [follow_concat] at hreach
  obtain ⟨parentInum, hparent, hchild⟩ := Option.bind_eq_some_iff.mp hreach
  rw [← hsame₁.childOf_eq] at hparent hchild
  obtain ⟨unlinkRes, u, hunlink, hrest⟩ := bind_eq_some_iff.mp hrest
  obtain ⟨houtcome, free', htree, hconserved⟩ :=
    unlinkTarget_wholeTree h₁ hcoherent₁ htarget (hsame₁.freesBlocks hfree) hunlink
  rw [hview₁] at houtcome
  rw [hsame₁.tableBlocks_eq] at hconserved
  rcases unlinkTarget_cases h₁.treeFormed hcoherent₁ htarget hunlink with
    ⟨hres, hsame, hcoherent'⟩ | ⟨rfl, toNames, toName, rfl, hcase⟩
  · rw [if_pos hres] at hrest
    cases hrest
    obtain ⟨hexists, hremoves⟩ := houtcome.resolve_left fun hboth => hres hboth.2.1
    obtain heq := hremoves.eq_of_ne_zero hres
    rw [heq] at hremoves
    refine ⟨?_, hcoherent', free', htree, hconserved⟩
    rw [heq]
    exact .refused hsome hexists hremoves hres
  rw [if_neg (not_not.mpr rfl)] at hrest
  rcases hcase with ⟨hnone, hsame, hcoherent'⟩ |
    ⟨toParentInum, old, htoParent, hold, hunlinked, hcoherent'⟩
  · -- nothing was at the target
    have hto := trans_of SameButCache hsame₁ hsame
    have hcleared := cleared_of_absent h₁.treeFormed htarget hsource hparent hchild hnone hsame
      hcoherent'
    have hu := hto.wholeTree h
    have hview := hto.view_eq h
    rw [← hsame.childOf_eq] at hnone
    have hfreeTarget : view s (toNames ++ [toName]) = none := by
      rw [← hview, view_eq_none_iff]
      exact hnone
    rcases moveEntry_wholeTree hu hcleared htarget hsource hbelow hnone hrest with
      ⟨-, hrefused⟩ | ⟨rfl, hplace, hroom, hcoherentT, hviewT, free', htree', hconserved'⟩
    · obtain ⟨hrenames, hcoherentT, htreeT, htable⟩ := hrefused.renames hu hcoherent'
        (by rw [hview]; exact hsome) (by rw [hview]; exact hfreeTarget)
        fun _ _ _ hat => hkeeps hfreeTarget _ _ _ (hto.placeOf hat)
      rw [hview, hto.roomForRecord] at hrenames
      exact ⟨hrenames, hcoherentT, free, htreeT, by rw [htable, hto.tableBlocks_eq]⟩
    · rw [hview] at hplace hviewT
      rw [hto.roomForRecord] at hroom
      refine ⟨?_, hcoherentT, free', htree', by rw [hconserved', hto.tableBlocks_eq]⟩
      rw [hviewT]
      exact .moved hsome hfreeTarget hplace hroom
  · -- what was at the target has been unlinked
    have hcleared := cleared_of_unlinked h₁.treeFormed htarget hsource hparent hchild htoParent hold
      hunlinked hcoherent'
    have hexists : view s (toNames ++ [toName]) ≠ none := by
      rw [← hview₁, view_eq_some (by rw [follow_concat, htoParent]; exact hold)]
      exact Option.some_ne_none _
    obtain ⟨-, hremoves⟩ := houtcome.resolve_left fun hboth => hexists hboth.1
    have herase := hremoves.eq_erase
    rw [herase] at hremoves
    have hnone : follow (childOf u) rootInodeNum (toNames ++ [toName]) = none := by
      rw [← view_eq_none_iff, herase]
      exact Function.update_self _ _ _
    rcases moveEntry_wholeTree htree hcleared htarget hsource hbelow hnone hrest with
      ⟨hfail, -⟩ | ⟨rfl, -, -, hcoherentT, hviewT, free', htree', hconserved'⟩
    · exact hfail.elim
    · refine ⟨?_, hcoherentT, free', htree', hconserved'.trans hconserved⟩
      rw [hviewT, herase, PathTree.move_erase hbelow]
      exact .replaced hsome hremoves

end Operation

end AltFs
