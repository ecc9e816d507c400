import AltFs.RecordMoves
import AltFs.TreeCreation

/-!
# Renaming

`altfs_rename` unlinks the target and moves the record of the source to it.
Everything below the source moves with its record.
-/

namespace AltFs

open Prog NamedTree

variable [Config]

/-! ## The operation -/

section Operation

variable {s t u : FileSystem} {free : Multiset Int64} {parentInum toParentInum inum : Int64}
  {name toName : CString} {names toNames path : List CString} {mayFail : Prop} {r : Int}

theorem altfsAccess_cases (h : TreeFormed s free) (hcoherent : Coherent s)
    (hpath : ∀ other ∈ path, IsComponent other)
    (hrun : altfsAccess (pathOf path) s = some (r, t)) :
    SameButCache s t ∧ Coherent t ∧
      (r = 0 ↔ ∃ inum, follow (childOf s) rootInodeNum path = some inum) := by
  obtain ⟨found, s₁, hnameI, hrest⟩ := bind_eq_some_iff.mp hrun
  obtain ⟨hwalk, hcoherent₁⟩ := nameI_walk hcoherent hnameI
  have hsame := nameI_sameButCache hnameI
  split at hrest
  next hmissing =>
    cases hrest
    rw [hmissing, h.rooted.walk_eq_minusOne hpath] at hwalk
    refine ⟨hsame, hcoherent₁, iff_of_false (by decide) ?_⟩
    rintro ⟨inum, hinum⟩
    rw [hwalk] at hinum
    cases hinum
  next hfound =>
    cases hrest
    rw [h.rooted.walk_eq_some hpath hfound] at hwalk
    exact ⟨hsame, hcoherent₁, iff_of_true rfl ⟨found, hwalk⟩⟩

theorem unlinkTarget_cases (h : TreeFormed s free) (hcoherent : Coherent s)
    (hpath : ∀ other ∈ path, IsComponent other)
    (hrun : unlinkTarget (pathOf path) s = some (r, t)) :
    (r ≠ 0 ∧ SameButCache s t ∧ Coherent t) ∨
    r = 0 ∧ ∃ toNames toName, path = toNames ++ [toName] ∧
      (follow (childOf s) rootInodeNum path = none ∧ SameButCache s t ∧ Coherent t ∨
        ∃ toParentInum old, follow (childOf s) rootInodeNum toNames = some toParentInum ∧
          childOf s toParentInum toName = some old ∧ Unlinked s toParentInum toName old t ∧
          CoherentOn (Avoids path) t) := by
  obtain ⟨code, s₁, haccess, hrest⟩ := bind_eq_some_iff.mp hrun
  obtain ⟨hsame, hcoherent₁, hcode⟩ := altfsAccess_cases h hcoherent hpath haccess
  cases path using List.reverseRecOn with
  | nil =>
      rw [if_pos (hcode.mpr ⟨_, follow_nil⟩)] at hrest
      obtain ⟨hr, rfl⟩ := altfsUnlink_root hrest
      exact .inl ⟨hr, hsame, hcoherent₁⟩
  | append_singleton toNames toName =>
      split at hrest
      next hfound =>
        rcases altfsUnlink_cases (hsame.treeFormed h) hcoherent₁ hpath hrest with
          ⟨hr, hsame', hcoherent'⟩ | ⟨hr, toParentInum, old, hparent, hchild, hunlinked, hcoherent'⟩
        · exact .inl ⟨hr, trans_of SameButCache hsame hsame', hcoherent'⟩
        · rw [hsame.childOf_eq] at hparent hchild
          exact .inr ⟨hr, toNames, toName, rfl, .inr ⟨toParentInum, old, hparent, hchild,
            hsame.unlinked_of hunlinked, hcoherent'⟩⟩
      next hmissing =>
        cases hrest
        refine .inr ⟨rfl, toNames, toName, rfl, .inl ⟨?_, hsame, hcoherent₁⟩⟩
        cases hfollow : follow (childOf s) rootInodeNum (toNames ++ [toName]) with
        | none => rfl
        | some inum => exact absurd (hcode.mpr ⟨inum, hfollow⟩) hmissing

omit [Config] in
/-- Below an inode without children there is nothing. -/
theorem follow_leaf {child : Int64 → CString → Option Int64} {root old inum : Int64}
    (hleaf : ∀ other, child old other = none) {front rest : List CString}
    (hold : follow child root front = some old)
    (hreach : follow child root (front ++ rest) = some inum) : rest = [] := by
  cases rest with
  | nil => rfl
  | cons first rest =>
      rw [follow_append, hold, Option.bind_some, follow_cons, hleaf] at hreach
      cases hreach

/-- The state between the unlinking of the target and the move. -/
structure Cleared (s : FileSystem) (names : List CString) (name : CString)
    (parentInum inum : Int64) (toNames : List CString) (toName : CString) (mayFail : Prop)
    (u : FileSystem) : Prop where
  absent : TargetAbsent toNames toName mayFail u
  toParent : ∀ found, follow (childOf u) rootInodeNum toNames = some found →
    follow (childOf s) rootInodeNum toNames = some found
  parent : follow (childOf u) rootInodeNum names = some parentInum
  dir : ∃ contents, DirContents u (u.inodeAt (inumIndex parentInum)) contents ∧
    (contents.flatten.map Prod.fst).Nodup
  source : names = toNames ∧ name = toName ∨ childOf u parentInum name = some inum ∧
    Avoids (toNames ++ [toName]) (pathOf (names ++ [name]))
  path : Avoids (toNames ++ [toName]) (pathOf names)
  other : ∀ found, follow (childOf s) rootInodeNum toNames = some found →
    ∀ i o, ¬(i = found ∧ o = toName) → childOf u i o = childOf s i o
  files : ∀ n < inodeCount, (s.inodeAt n).isDir = false →
    (∀ old, follow (childOf s) rootInodeNum (toNames ++ [toName]) = some old →
      n ≠ inumIndex old) → SameFile n s u
  freed : ∀ old, follow (childOf s) rootInodeNum (toNames ++ [toName]) = some old →
    (s.inodeAt (inumIndex old)).iLinksCount = 1 → u.inodeAt (inumIndex old) = Inode.zero

section Clear

variable (h : TreeFormed s free) (hto : ∀ other ∈ toNames ++ [toName], IsComponent other)
  (hfrom : ∀ other ∈ names ++ [name], IsComponent other)
  (hparent : follow (childOf s) rootInodeNum names = some parentInum)
  (hchild : childOf s parentInum name = some inum)

include h hto hfrom hparent hchild

theorem cleared_of_absent (hnone : follow (childOf s) rootInodeNum (toNames ++ [toName]) = none)
    (hsame : SameButCache s u) (hcoherent : Coherent u) :
    Cleared s names name parentInum inum toNames toName True u := by
  have hreach : follow (childOf s) rootInodeNum (names ++ [name]) = some inum := by
    rw [follow_concat, hparent]
    exact hchild
  have habsent : ∀ {path : List CString} {found : Int64},
      follow (childOf s) rootInodeNum path = some found → ¬toNames ++ [toName] <+: path := by
    rintro path found hfound ⟨rest, rfl⟩
    rw [follow_append, hnone] at hfound
    cases hfound
  have heq := hsame.childOf_eq
  obtain ⟨hvalid, contents, hcontents, hrecords, -⟩ := h.directory hchild
  have hnone' := hnone
  rw [← heq] at hnone'
  refine ⟨(hsame.treeFormed h).targetAbsent hcoherent
    (hto toName (List.mem_append_right _ List.mem_cons_self)) hnone', ?_, ?_, ?_, .inr ⟨?_, ?_⟩, ?_,
    fun _ _ _ _ _ => congrFun (congrFun heq _) _, fun n _ _ _ => ?_, fun old hold => ?_⟩
  · rw [heq]
    exact fun _ hfound => hfound
  · rw [heq]
    exact hparent
  · rw [hsame.inodeAt]
    exact ⟨contents, hsame.dirContents hcontents, hrecords.unique⟩
  · rw [heq]
    exact hchild
  · exact ⟨_, hfrom, rfl, habsent hreach⟩
  · exact ⟨names, fun other hother => hfrom other (List.mem_append_left _ hother), rfl,
      habsent hparent⟩
  · exact ⟨hsame.inodeAt n, fun b _ => congrFun hsame.disk_eq b⟩
  · rw [hnone] at hold
    cases hold

theorem cleared_of_unlinked {old : Int64}
    (htoParent : follow (childOf s) rootInodeNum toNames = some toParentInum)
    (hold : childOf s toParentInum toName = some old)
    (hunlinked : Unlinked s toParentInum toName old u)
    (hcoherent : CoherentOn (Avoids (toNames ++ [toName])) u) :
    Cleared s names name parentInum inum toNames toName False u := by
  have htoName := hto toName (List.mem_append_right _ List.mem_cons_self)
  have hreachOld : follow (childOf s) rootInodeNum (toNames ++ [toName]) = some old := by
    rw [follow_concat, htoParent]
    exact hold
  have hreach : follow (childOf s) rootInodeNum (names ++ [name]) = some inum := by
    rw [follow_concat, hparent]
    exact hchild
  have hbelow : ∀ {path : List CString} {found : Int64},
      follow (childOf s) rootInodeNum path = some found → toNames ++ [toName] <+: path →
        path = toNames ++ [toName] := by
    rintro path found hfound ⟨rest, rfl⟩
    rw [follow_leaf hunlinked.leaf hreachOld hfound, List.append_nil]
  have hlong : ∀ (front : List CString) (last : CString), ¬front ++ [last] <+: front := by
    intro front last hinit
    have hlength := hinit.length_le
    rw [List.length_append, List.length_singleton] at hlength
    omega
  have hout : ¬toNames ++ [toName] <+: names := by
    intro hinit
    have hlonger := hbelow hreach (hinit.trans (List.prefix_append _ _))
    rw [← hlonger] at hinit
    exact hlong names name hinit
  obtain ⟨hvalid, contents, hcontents, hrecords, -⟩ := h.directory hchild
  have htoValid := h.rooted.valid htoParent
  have holdValid := (h.child hold).1
  refine ⟨hunlinked.targetAbsent h htoParent htoName hcoherent, ?_, ?_, ?_, ?_, ?_, ?_, ?_, ?_⟩
  · intro found hfound
    rw [hunlinked.follow_other h htoParent (hlong _ _)] at hfound
    exact hfound
  · rw [hunlinked.follow_other h htoParent hout]
    exact hparent
  · by_cases hsame : parentInum = toParentInum
    · obtain ⟨contents', hcontents', hunique, -⟩ := hunlinked.room
      rw [hsame]
      exact ⟨contents', hcontents', hunique⟩
    · have hnotOld : parentInum ≠ old := by
        rintro rfl
        rw [hunlinked.leaf] at hchild
        cases hchild
      have hnot : inumIndex parentInum ∉
          ({inumIndex toParentInum, inumIndex old} : Finset Nat) := by
        simp only [Finset.mem_insert, Finset.mem_singleton, not_or]
        exact ⟨fun heq => hsame (hvalid.eq_of_index htoValid heq),
          fun heq => hnotOld (hvalid.eq_of_index holdValid heq)⟩
      refine ⟨contents, ?_, hrecords.unique⟩
      rw [hunlinked.outside.inodeAt _ hvalid.index_lt hnot]
      exact hcontents.of_disk_eq (hunlinked.outside.disk _ hvalid.index_lt hnot)
  · by_cases hinit : toNames ++ [toName] <+: names ++ [name]
    · exact .inl (List.append_singleton_inj.mp (hbelow hreach hinit))
    · refine .inr ⟨?_, _, hfrom, rfl, hinit⟩
      rw [hunlinked.other, hchild]
      rintro ⟨rfl, rfl⟩
      rw [h.tree.path_unique hparent htoParent] at hinit
      exact hinit List.prefix_rfl
  · exact ⟨names, fun other hother => hfrom other (List.mem_append_left _ hother), rfl, hout⟩
  · intro found hfound i o hpair
    rw [htoParent] at hfound
    cases hfound
    exact hunlinked.other i o hpair
  · intro n hn hfile hnotOld
    apply hunlinked.outside.sameFile hn
    simp only [Finset.mem_insert, Finset.mem_singleton, not_or]
    refine ⟨fun heq => ?_, hnotOld old hreachOld⟩
    obtain ⟨-, hdir, -⟩ := h.rooted.directory hold
    rw [heq, hdir] at hfile
    cases hfile
  · intro found hfound hone
    rw [hreachOld] at hfound
    cases hfound
    exact hunlinked.freed hone

end Clear

/-- `inum` has been moved from one name to another, and only the target has been freed. -/
structure Renamed (s : FileSystem) (parentInum : Int64) (name : CString) (toParentInum : Int64)
    (toName : CString) (inum : Int64) (t : FileSystem) : Prop where
  rooted : Rooted t
  moved : Moved (childOf s) (childOf t) parentInum name toParentInum toName inum
  freed : ∀ old, childOf s toParentInum toName = some old →
    (s.inodeAt (inumIndex old)).iLinksCount = 1 → t.inodeAt (inumIndex old) = Inode.zero
  files : ∀ n < inodeCount, (s.inodeAt n).isDir = false →
    (∀ old, childOf s toParentInum toName = some old → n ≠ inumIndex old) → SameFile n s t

/-- The move after the target has been cleared. -/
theorem Cleared.renamed {s' v : FileSystem} (h : TreeFormed s free)
    (hto : IsComponent toName) (hname : IsComponent name)
    (hparent : follow (childOf s) rootInodeNum names = some parentInum)
    (hchild : childOf s parentInum name = some inum)
    (htoParent : follow (childOf s) rootInodeNum toNames = some toParentInum)
    (hne : ¬(names = toNames ∧ name = toName))
    (hcleared : Cleared s names name parentInum inum toNames toName mayFail u)
    (hsame : SameButCache u s') (hadded : EdgeAdded toParentInum toName inum s' v)
    (hremoved : EdgeRemoved parentInum name v t) :
    Renamed s parentInum name toParentInum toName inum t := by
  have hreachTo : follow (childOf s) rootInodeNum (toNames ++ [toName]) =
      childOf s toParentInum toName := by
    rw [follow_concat, htoParent, Option.bind_some]
  have hapart : ¬(toParentInum = parentInum ∧ toName = name) := by
    rintro ⟨rfl, rfl⟩
    exact hne ⟨h.tree.path_unique hparent htoParent, rfl⟩
  have htarget : childOf t toParentInum toName = some inum := by
    rw [childOf_eq hto, hremoved.other _ _ hapart, hadded.found]
    rfl
  have hgone : childOf t parentInum name = none := by
    rw [childOf_eq hname, hremoved.gone]
    rfl
  have hother : ∀ i o, ¬(i = parentInum ∧ o = name ∨ i = toParentInum ∧ o = toName) →
      childOf t i o = childOf s i o := by
    intro i o hpair
    obtain ⟨hsource, htargetNe⟩ := not_or.mp hpair
    rw [← hcleared.other toParentInum htoParent i o htargetNe]
    apply childOf_congr
    rw [hremoved.other i o hsource, hadded.other i o htargetNe, hsame.lookupIn_eq]
  have hfiles : ∀ n < inodeCount, (v.inodeAt n).isDir = false → (s'.inodeAt n).isDir = false →
      SameFile n s' t := by
    intro n hn hfileV hfile
    have hfirst : n ∉ ({inumIndex toParentInum} : Finset Nat) := by
      intro hmem
      rw [Finset.mem_singleton.mp hmem, hadded.isDir] at hfile
      cases hfile
    have hsecond : n ∉ ({inumIndex parentInum} : Finset Nat) := by
      intro hmem
      rw [Finset.mem_singleton.mp hmem, hremoved.isDir] at hfileV
      cases hfileV
    have hleft : KeptOutside {inumIndex toParentInum, inumIndex parentInum} s' v :=
      hadded.outside.mono (by simp)
    have hright : KeptOutside {inumIndex toParentInum, inumIndex parentInum} v t :=
      hremoved.outside.mono (by simp)
    apply (hleft.trans hright).sameFile hn
    simp only [Finset.mem_insert, Finset.mem_singleton, not_or] at hfirst hsecond ⊢
    exact ⟨hfirst, hsecond⟩
  have hkept : ∀ n < inodeCount, (u.inodeAt n).isDir = false →
      SameFile n u t := by
    intro n hn hfile
    rw [← hsame.inodeAt] at hfile
    have hnot : n ∉ ({inumIndex toParentInum} : Finset Nat) := by
      intro hmem
      rw [Finset.mem_singleton.mp hmem, hadded.isDir] at hfile
      cases hfile
    have hfileV : (v.inodeAt n).isDir = false := by
      rw [hadded.outside.inodeAt n hn hnot]
      exact hfile
    exact (hsame.sameFile n).trans (hfiles n hn hfileV hfile)
  refine ⟨⟨hremoved.intact, h.root, ?_⟩, ⟨hchild, htarget, hgone, hother⟩, fun old hold hone => ?_,
    fun n hn hfile hnotOld => ?_⟩
  · intro i o j hfound
    by_cases hsource : i = parentInum ∧ o = name
    · rw [hsource.1, hsource.2, hgone] at hfound
      cases hfound
    by_cases htargetEq : i = toParentInum ∧ o = toName
    · rw [htargetEq.1, htargetEq.2, htarget] at hfound
      cases hfound
      exact (h.child hchild).1
    · rw [hother i o (not_or.mpr ⟨hsource, htargetEq⟩)] at hfound
      exact (h.child hfound).1
  · have hzero := hcleared.freed old (hreachTo.trans hold) hone
    have hn := (h.child hold).1.index_lt
    have hfile : (u.inodeAt (inumIndex old)).isDir = false := by
      rw [hzero]
      rfl
    rw [(hkept _ hn hfile).1, hzero]
  · have hfirst := hcleared.files n hn hfile fun old hold => hnotOld old (hreachTo.symm.trans hold)
    exact hfirst.trans (hkept n hn (hfirst.1.symm ▸ hfile))

theorem SameButCache.renamed_of {s' : FileSystem} (hsame : SameButCache s s')
    (h : Renamed s' parentInum name toParentInum toName inum t) :
    Renamed s parentInum name toParentInum toName inum t where
  rooted := h.rooted
  moved := by
    rw [← hsame.childOf_eq]
    exact h.moved
  freed old hold hone := by
    rw [← hsame.childOf_eq] at hold
    rw [← hsame.inodeAt] at hone
    exact h.freed old hold hone
  files n hn hfile hnotOld := by
    rw [← hsame.childOf_eq] at hnotOld
    rw [← hsame.inodeAt] at hfile
    exact (hsame.sameFile n).trans (h.files n hn hfile hnotOld)

/-- The rest of `altfs_rename`, once the target has been unlinked or was not there. -/
theorem Cleared.cases (h : TreeFormed s free)
    (hto : ∀ other ∈ toNames ++ [toName], IsComponent other)
    (hfrom : ∀ other ∈ names ++ [name], IsComponent other)
    (hparent : follow (childOf s) rootInodeNum names = some parentInum)
    (hchild : childOf s parentInum name = some inum)
    (hcleared : Cleared s names name parentInum inum toNames toName mayFail u)
    (hrun : moveEntry (pathOf (names ++ [name])) (pathOf (toNames ++ [toName])) u = some (r, t)) :
    (r ≠ 0 ∧ mayFail ∧ NothingMoved u t ∧ MoveRefused u toNames toName t r) ∨
    r = 0 ∧ ¬toNames ++ [toName] <+: names ∧
      ∃ toParentInum, follow (childOf s) rootInodeNum toNames = some toParentInum ∧
      (¬(names = toNames ∧ name = toName) →
        Renamed s parentInum name toParentInum toName inum t) := by
  rcases moveEntry_cases hcleared.absent hto hfrom hcleared.parent hcleared.dir hcleared.source
      hcleared.path hrun with
    hfailed | ⟨hr, toParentInum, found, s', v, htoParent, hsame, hadded, hremoved, hfound⟩
  · exact .inl hfailed
  · have htoParent := hcleared.toParent toParentInum htoParent
    have hout : ¬toNames ++ [toName] <+: names := by
      obtain ⟨names', hnames', heq, hout⟩ := hcleared.path
      rw [pathOf_inj (fun other hother => hfrom other (List.mem_append_left _ hother)) hnames' heq]
      exact hout
    refine .inr ⟨hr, hout, toParentInum, htoParent, fun hne => ?_⟩
    rw [hfound hne] at hadded
    exact hcleared.renamed h (hto toName (List.mem_append_right _ List.mem_cons_self))
      (hfrom name (List.mem_append_right _ List.mem_cons_self)) hparent hchild htoParent hne hsame
      hadded hremoved

/-- `altfs_rename` moves one inode, or nothing has moved. -/
theorem altfsRename_cases (h : TreeFormed s free) (hcoherent : Coherent s)
    (hpath : ∀ other ∈ path, IsComponent other)
    (hfrom : ∀ other ∈ names ++ [name], IsComponent other)
    (hrun : altfsRename (pathOf (names ++ [name])) (pathOf path) s = some (r, t)) :
    (r ≠ 0 ∧ NothingMoved s t) ∨
    r = 0 ∧ ¬path <+: names ∧
      ∃ toNames toName parentInum inum toParentInum, path = toNames ++ [toName] ∧
      follow (childOf s) rootInodeNum names = some parentInum ∧
      childOf s parentInum name = some inum ∧
      follow (childOf s) rootInodeNum toNames = some toParentInum ∧
      (names ++ [name] ≠ path → Renamed s parentInum name toParentInum toName inum t) := by
  obtain ⟨code, s₁, haccess, hrest⟩ := bind_eq_some_iff.mp hrun
  obtain ⟨hsame₁, hcoherent₁, hcode⟩ := altfsAccess_cases h hcoherent hfrom haccess
  split at hrest
  next =>
    cases hrest
    exact .inl ⟨by decide, hsame₁.nothingMoved⟩
  next hfound =>
  obtain ⟨inum, hreach⟩ := hcode.mp (not_not.mp hfound)
  rw [follow_concat] at hreach
  obtain ⟨parentInum, hparent, hchild⟩ := Option.bind_eq_some_iff.mp hreach
  have hname := hfrom name (List.mem_append_right _ List.mem_cons_self)
  have h₁ := hsame₁.treeFormed h
  rw [← hsame₁.childOf_eq] at hparent hchild
  obtain ⟨unlinkRes, u, hunlink, hrest⟩ := bind_eq_some_iff.mp hrest
  rcases unlinkTarget_cases h₁ hcoherent₁ hpath hunlink with
    ⟨hres, hsame, -⟩ | ⟨rfl, toNames, toName, rfl, hcase⟩
  · rw [if_pos hres] at hrest
    cases hrest
    exact .inl ⟨hres, hsame₁.nothingMoved.trans hsame.nothingMoved⟩
  rw [if_neg (not_not.mpr rfl)] at hrest
  have hresult : (r ≠ 0 ∧ NothingMoved s₁ t) ∨
      r = 0 ∧ ¬toNames ++ [toName] <+: names ∧
        ∃ toParentInum, follow (childOf s₁) rootInodeNum toNames = some toParentInum ∧
        (¬(names = toNames ∧ name = toName) →
          Renamed s₁ parentInum name toParentInum toName inum t) := by
    rcases hcase with ⟨hnone, hsame, hcoherent'⟩ |
      ⟨toParentInum, old, htoParent, hold, hunlinked, hcoherent'⟩
    · have hcleared := cleared_of_absent h₁ hpath hfrom hparent hchild hnone hsame hcoherent'
      rcases hcleared.cases h₁ hpath hfrom hparent hchild hrest with
        ⟨hr, -, hnothing, -⟩ | hmoved
      · exact .inl ⟨hr, hsame.nothingMoved.trans hnothing⟩
      · exact .inr hmoved
    · have hcleared := cleared_of_unlinked h₁ hpath hfrom hparent hchild htoParent hold hunlinked
        hcoherent'
      rcases hcleared.cases h₁ hpath hfrom hparent hchild hrest with ⟨-, hfail, -⟩ | hmoved
      · exact hfail.elim
      · exact .inr hmoved
  rcases hresult with ⟨hr, hnothing⟩ | ⟨hr, hout, toParentInum, htoParent, hrenamed⟩
  · exact .inl ⟨hr, hsame₁.nothingMoved.trans hnothing⟩
  · rw [hsame₁.childOf_eq] at hparent hchild htoParent
    refine .inr ⟨hr, hout, toNames, toName, parentInum, inum, toParentInum, rfl, hparent, hchild,
      htoParent, fun hne => hsame₁.renamed_of (hrenamed ?_)⟩
    rintro ⟨rfl, rfl⟩
    exact hne rfl

end Operation

/-! ## Paths and contents -/

/-- File `n` has the size, the number of blocks and the bytes that it had. -/
structure SameContent (n : Nat) (s t : FileSystem) : Prop where
  fileSize : (t.inodeAt n).iFileSize = (s.inodeAt n).iFileSize
  blocksNum : (t.inodeAt n).iBlocksNum = (s.inodeAt n).iBlocksNum
  byte : ∀ j : Nat, ((j / blockSize : Nat) : Int) < (s.inodeAt n).iBlocksNum.toInt →
    fileByte t (t.inodeAt n) j = fileByte s (s.inodeAt n) j

/-- Every inode that has a name has one link. -/
def SingleLinks (s : FileSystem) : Prop :=
  ∀ parentInum name inum, childOf s parentInum name = some inum →
    (s.inodeAt (inumIndex inum)).iLinksCount = 1

/-! ### A rename in the root directory -/

section OneFile

variable {s : FileSystem} {free : Multiset Int64} {inum : Int64} {entries : List Entry}

omit [Config] in
theorem components_single {name : CString} (hname : IsComponent name) :
    ∀ other ∈ [name], IsComponent other := by
  intro other hother
  rw [List.mem_singleton.mp hother]
  exact hname

omit [Config] in
theorem isComponent_d : IsComponent [letterD] := isComponent_letter (by decide) (by decide)

theorem OneFile.valid (h : OneFile s free inum entries) : ValidInum inum := (h.tree.child h.child).1

theorem OneFile.walk_f (h : OneFile s free inum entries) :
    walk s (pathOf [[letterF]]) = some inum := by
  rw [h.tree.rooted.walk_eq_some (components_single isComponent_f) h.valid.ne_minusOne, follow_cons,
    h.child]
  rfl

theorem OneFile.walk_missing {name : CString} (h : OneFile s free inum entries)
    (hname : IsComponent name) (hne : name ≠ [letterF]) : walk s (pathOf [name]) = some (-1) := by
  rw [h.tree.rooted.walk_eq_minusOne (components_single hname), follow_cons,
    h.other rootInodeNum name fun hself => hne hself.2]
  rfl

theorem OneFile.singleLinks (h : OneFile s free inum entries) : SingleLinks s := by
  intro parentInum name child hchild
  by_cases hself : parentInum = rootInodeNum ∧ name = [letterF]
  · rw [hself.1, hself.2, h.child] at hchild
    cases hchild
    obtain ⟨currTime, hnode⟩ := h.node
    rw [hnode]
    rfl
  · rw [h.other _ _ hself] at hchild
    cases hchild

theorem altfsAccess_run {k : Nat} {path : CString} {found : Int64}
    (hready : Ready s (path.length + k)) (hwalk : walk s path = some found) :
    ∃ t, altfsAccess path s = some (if found = -1 then -enoent else 0, t) ∧ SameButCache s t ∧
      Ready t k := by
  obtain ⟨t, hname, hsame, hready'⟩ := nameI_run hready hwalk
  refine ⟨t, ?_, hsame, hready'⟩
  rw [altfsAccess, bind_of_eq hname]
  split
  · rfl
  · rfl

theorem flushInodeCache_total {k : Nat} {t : FileSystem} (hready : Ready s k)
    (hcache : t.cache = s.cache) : ∃ u, flushInodeCache true t = some ((), u) := by
  obtain ⟨nodes, hinv⟩ := hready.inv
  rw [← hcache] at hinv
  obtain ⟨cache, hfree⟩ := InodeCache.freeInodeCache_run hinv
  exact ⟨_, bind_of_eq (onCache_run hfree)⟩

theorem OneFile.rename (h : OneFile s free inum entries) :
    ∃ t, altfsRename (pathOf [[letterF]]) (pathOf [[letterD]]) s = some (0, t) := by
  obtain ⟨s₁, haccess, hsame₁, hready₁⟩ :=
    @altfsAccess_run _ s 990 (pathOf [[letterF]]) inum (h.ready.mono (by decide)) h.walk_f
  rw [if_neg h.valid.ne_minusOne] at haccess
  obtain ⟨s₂, haccess', hsame₂, hready₂⟩ :=
    @altfsAccess_run _ s₁ 980 (pathOf [[letterD]]) _ (hready₁.mono (by decide))
      ((hsame₁.walk_eq _).trans (h.walk_missing isComponent_d (by decide)))
  have hto₂ : SameButCache s s₂ := trans_of SameButCache hsame₁ hsame₂
  obtain ⟨s₃, hname, hsame₃, hready₃⟩ :=
    @nameI_run _ s₂ (pathOf [[letterF]]) _ 970 (hready₂.mono (by decide))
      ((hto₂.walk_eq _).trans h.walk_f)
  have hto₃ : SameButCache s s₃ := trans_of SameButCache hto₂ hsame₃
  have hroot := h.tree.root
  have h₃ := hto₃.treeFormed h.tree
  have hdir₃ := hto₃.dirContents h.dir
  rw [← hto₃.inodeAt] at hdir₃
  have hnames := (h.records.map Prod.fst).nodup_iff.mpr (by
    change ([[letterF], [dot], [dot, dot]] : List CString).Nodup
    decide)
  have hsize : recordsSize entries =
      recordsSize (([letterF], inum) :: dots rootInodeNum rootInodeNum) :=
    (h.records.map recordSize).sum_eq
  have hnew : [entries].flatten.lookup [letterD] = none := by
    have hnone := h.other rootInodeNum [letterD] (by decide)
    rw [childOf_eq isComponent_d, h.tree.lookupIn_dir hroot h.dir] at hnone
    exact hnone
  obtain ⟨node', s₄, contents', hadd, hput⟩ := @Intact.putRecord _ _ _ _ ([letterD], inum) h₃.intact
    hroot.index_lt hdir₃ (by
      change ([letterD] : CString).length ≤ maxFileNameLength
      decide) ⟨entries, List.mem_singleton.mpr rfl, by
      rw [hsize]
      change recordsSize (([letterF], 0) :: dots rootInodeNum rootInodeNum) +
        recordSize ([letterD], 0) ≤ blockSize
      decide⟩
  obtain ⟨u, hwrite, hadded⟩ := hput.write h₃.intact hroot hdir₃
    (by rw [List.flatten_singleton]; exact hnames) hnew hadd
  obtain ⟨contents, hcontents, hunique⟩ := hadded.dir
  have hlookup : contents.flatten.lookup [letterF] = some inum := by
    have hfound := hadded.intact.lookupIn_dir hroot hcontents [letterF]
    rw [hadded.other _ _ (by decide), hto₃.lookupIn_eq,
      (h.tree.rooted.directory h.child).2.2] at hfound
    exact (Option.some.inj hfound).symm
  obtain ⟨v, contents₂, hremove, hgone⟩ :=
    hadded.intact.removeRecord hroot.index_lt hcontents hunique hlookup
  obtain ⟨w, hwriteBack, hwritten⟩ := @Intact.writeCopy _ v rootInodeNum
    (((u.inodeAt (inumIndex rootInodeNum)).removeChild (Config.timeAt u.clock)).entriesChanged
      (Config.timeAt s₄.clock)) hgone.intact hroot (by rw [hgone.inodeAt]; rfl)
    (by rw [hgone.inodeAt]; rfl)
  obtain ⟨t, hflush⟩ := flushInodeCache_total (t := w) hready₃ (by
    rw [hwritten.cache, hgone.cache, hadded.cache])
  have hminus : ¬rootInodeNum = -1 := by decide
  have hnameRoot : ∀ u, nameI [slash] u = some (rootInodeNum, u) := fun u => by
    rw [nameI_root]
    rfl
  have hunlink : unlinkTarget (pathOf [[letterD]]) s₁ = some (0, s₂) := bind_of_eq haccess'
  have hsource : removeSource (pathOf [[letterF]]) (Config.timeAt s₄.clock) u = some (0, t) := by
    have hread : getInode rootInodeNum u = some (u.inodeAt (inumIndex rootInodeNum), u) :=
      getInode_run hadded.intact.format hroot
    have hparent : copyParentPath (pathOf [[letterF]]) = some [slash] := rfl
    have hfile : copyFileName (pathOf [[letterF]]) = some [letterF] := rfl
    simp only [removeSource, hparent, hfile, bind_of_eq (hnameRoot u), if_neg hminus, bind_of_eq hread,
      bind_of_eq hremove, Bool.not_true, Bool.false_eq_true, if_false]
    rw [bind_of_eq hwriteBack]
    exact bind_of_eq hflush
  have hmove : moveEntry (pathOf [[letterF]]) (pathOf [[letterD]]) s₂ = some (0, t) := by
    have hread : getInode rootInodeNum s₂ = some (s₃.inodeAt (inumIndex rootInodeNum), s₂) := by
      rw [hsame₃.inodeAt]
      exact getInode_run (hto₂.treeFormed h.tree).stored.toTableFormat hroot
    have hparent : copyParentPath (pathOf [[letterD]]) = some [slash] := rfl
    have hfile : copyFileName (pathOf [[letterD]]) = some [letterD] := rfl
    simp only [moveEntry, hparent, hfile, bind_of_eq (hnameRoot s₂), if_neg hminus, bind_of_eq hread,
      hdir₃.isDir, Bool.not_true, Bool.false_eq_true, if_false, bind_of_eq hname]
    rw [bind_of_eq hadd]
    refine (bind_of_eq (show currentTime s₄ = some (Config.timeAt s₄.clock, _) from rfl)).trans ?_
    refine (bind_of_eq hwrite).trans ?_
    exact hsource
  refine ⟨t, ?_⟩
  rw [altfsRename, bind_of_eq haccess, if_neg (not_not.mpr rfl), bind_of_eq hunlink,
    if_neg (not_not.mpr rfl), hmove]

/-- A new name that is too long is refused after both paths have been looked up. -/
theorem OneFile.rename_long (h : OneFile s free inum entries) :
    ∃ t, altfsRename (pathOf [[letterF]]) (pathOf [longName]) s = some (-edquot, t) := by
  have hne : longName ≠ [letterF] := by
    intro heq
    have hlong := lt_length_longName
    rw [heq] at hlong
    exact absurd hlong (by decide)
  obtain ⟨s₁, haccess, hsame₁, hready₁⟩ :=
    @altfsAccess_run _ s 990 (pathOf [[letterF]]) inum (h.ready.mono (by decide)) h.walk_f
  rw [if_neg h.valid.ne_minusOne] at haccess
  obtain ⟨s₂, haccess', hsame₂, hready₂⟩ :=
    @altfsAccess_run _ s₁ 700 (pathOf [longName]) _
      (hready₁.mono (by rw [length_pathOf_longName]; decide))
      ((hsame₁.walk_eq _).trans (h.walk_missing isComponent_longName hne))
  have hto₂ : SameButCache s s₂ := trans_of SameButCache hsame₁ hsame₂
  obtain ⟨s₃, hname, -⟩ :=
    @nameI_run _ s₂ (pathOf [[letterF]]) _ 600 (hready₂.mono (by decide))
      ((hto₂.walk_eq _).trans h.walk_f)
  have hdir := h.dir.isDir
  rw [← hto₂.inodeAt] at hdir
  have hread := getInode_run (hto₂.treeFormed h.tree).stored.toTableFormat h.tree.root
  have hadd := @addDirectoryEntry_long _ s₃ (s₂.inodeAt (inumIndex rootInodeNum)) inum longName
    lt_length_longName
  have hparent := @copyParentPath_pathOf longName [] isComponent_longName.ne_nil
    isComponent_longName.slash_notMem
  have hfile := @copyFileName_pathOf longName [] isComponent_longName.ne_nil
    isComponent_longName.slash_notMem
  have hroot : nameI (pathOf []) s₂ = some (rootInodeNum, s₂) := by
    change nameI [slash] s₂ = _
    rw [nameI_root]
    rfl
  rw [List.nil_append] at hparent hfile
  have hminus : ¬rootInodeNum = -1 := by decide
  have htarget : unlinkTarget (pathOf [longName]) s₁ = some (0, s₂) := bind_of_eq haccess'
  refine ⟨s₃, ?_⟩
  rw [altfsRename, bind_of_eq haccess, if_neg (not_not.mpr rfl), bind_of_eq htarget,
    if_neg (not_not.mpr rfl)]
  simp only [moveEntry, hparent, hfile, bind_of_eq hroot, if_neg hminus, bind_of_eq hread, hdir,
    Bool.not_true, Bool.false_eq_true, if_false, bind_of_eq hname, bind_of_eq hadd]
  rfl

end OneFile

section Paths

variable {s t : FileSystem} {free : Multiset Int64} {source target : List CString} {r : Int}

theorem SameFile.content {n : Nat} (h : Sound s free) (hn : n < inodeCount)
    (hsame : SameFile n s t) : SameContent n s t := by
  obtain ⟨hat, hdisk⟩ := hsame
  have hkept : (s.inodeAt n).Kept s t := fun a ha =>
    hdisk a (Multiset.mem_of_le (indirect_le_blocks s _) ha)
  refine ⟨by rw [hat], by rw [hat], fun j hj => ?_⟩
  rw [hat]
  apply fileByte_eq (hkept.blockAt _)
  exact hdisk _ (blockAt_mem_blocks ((h.inodes n hn).mapped.blockAt_ne_zero _ hj))

theorem NothingMoved.nameI (h : NothingMoved s t) (path : CString) :
    nameIUncached t path = nameIUncached s path := by
  rw [nameIUncached_eq, nameIUncached_eq]
  exact walk_congr h.lookup path

/--
A successful `altfs_rename` moves everything at and below the source to the
target; no other path and no other file changes, and what was at the target is
freed.
-/
theorem altfsRename_moves (h : TreeFormed s free) (hlinks : SingleLinks s)
    (hcoherent : Coherent s) (hsource : ∀ name ∈ source, IsComponent name)
    (htarget : ∀ name ∈ target, IsComponent name) (hroot : source ≠ [])
    (hbelow : ¬source <+: target)
    (hrun : altfsRename (pathOf source) (pathOf target) s = some (0, t)) :
    (∀ rest, (∀ name ∈ rest, IsComponent name) →
      nameIUncached t (pathOf (target ++ rest)) = nameIUncached s (pathOf (source ++ rest))) ∧
    (∀ rest, (∀ name ∈ rest, IsComponent name) →
      nameIUncached t (pathOf (source ++ rest)) = some (-1)) ∧
    (∀ path, (∀ name ∈ path, IsComponent name) → ¬source <+: path → ¬target <+: path →
      nameIUncached t (pathOf path) = nameIUncached s (pathOf path)) ∧
    (∀ old, nameIUncached s (pathOf target) = some old → old ≠ -1 →
      (t.inodeAt (inumIndex old)).iAllocated = false) ∧
    ∀ n < inodeCount, (s.inodeAt n).isDir = false →
      (∀ old, nameIUncached s (pathOf target) = some old → old.toInt ≠ n) → SameContent n s t := by
  obtain ⟨names, name, rfl⟩ := List.eq_nil_or_concat source |>.resolve_left hroot
  rw [List.concat_eq_append] at *
  rcases altfsRename_cases h hcoherent htarget hsource hrun with
    ⟨hr, -⟩ | ⟨-, habove, toNames, toName, parentInum, inum, toParentInum, rfl, hparent, hchild,
      htoParent, hrenamed⟩
  · exact absurd rfl hr
  have hrenamed := hrenamed fun heq => hbelow (heq ▸ List.prefix_rfl)
  have hreachTo : follow (childOf s) rootInodeNum (toNames ++ [toName]) =
      childOf s toParentInum toName := by
    rw [follow_concat, htoParent, Option.bind_some]
  have happend : ∀ {front rest : List CString}, (∀ name ∈ front, IsComponent name) →
      (∀ name ∈ rest, IsComponent name) → ∀ name ∈ front ++ rest, IsComponent name :=
    fun hfront hrest name hname => (List.mem_append.mp hname).elim (hfront name) (hrest name)
  simp only [nameIUncached_eq]
  refine ⟨fun rest hrest => ?_, fun rest hrest => ?_, fun path hpath hout hout' => ?_,
    fun old hold hne => ?_, fun n hn hfile hnotOld => ?_⟩
  · rw [hrenamed.rooted.walk_pathOf (happend htarget hrest),
      h.rooted.walk_pathOf (happend hsource hrest), List.append_assoc, List.append_assoc,
      List.singleton_append, List.singleton_append,
      hrenamed.moved.follow_target h.tree hparent htoParent hbelow]
  · rw [hrenamed.rooted.walk_eq_minusOne (happend hsource hrest), List.append_assoc,
      List.singleton_append]
    exact hrenamed.moved.follow_source h.tree hparent htoParent habove rest
  · rw [hrenamed.rooted.walk_pathOf hpath, h.rooted.walk_pathOf hpath,
      hrenamed.moved.follow_outside h.tree hparent htoParent hout hout']
  · rw [h.rooted.walk_eq_some htarget hne, hreachTo] at hold
    rw [hrenamed.freed old hold (hlinks _ _ _ hold)]
    rfl
  · apply SameFile.content h.toSound hn
    apply hrenamed.files n hn hfile
    intro old hold heq
    have hvalid := (h.child hold).1
    refine hnotOld old ?_ ?_
    · rw [h.rooted.walk_eq_some htarget hvalid.ne_minusOne, hreachTo]
      exact hold
    · rw [heq, hvalid.index_eq]

omit [Config] in
/-- `/f` becomes `/d`. -/
theorem altfsRename_moves_f :
    letI := Config.ofBlocks 67 (by decide)
    ∃ s t, altfsRename (pathOf [[letterF]]) (pathOf [[letterD]]) s = some (0, t) ∧
      nameIUncached t (pathOf [[letterD]]) = nameIUncached s (pathOf [[letterF]]) := by
  let _ := Config.ofBlocks 67 (by decide)
  obtain ⟨s, free, inum, entries, hone⟩ := exists_oneFile (by decide) (by decide)
  obtain ⟨t, hrun⟩ := hone.rename
  obtain ⟨hmoved, -⟩ := altfsRename_moves hone.tree hone.singleLinks hone.ready.coherent
    (components_single isComponent_f) (components_single isComponent_d) (by decide) (by decide) hrun
  exact ⟨s, t, hrun, hmoved [] (by simp)⟩

/-- The record fits where the one of the target has been. -/
theorem moveEntry_unlinked {names : List CString} {name : CString} {u v w : FileSystem}
    (h : TreeFormed s free) (hcoherent : Coherent s)
    (hsource : ∀ other ∈ names ++ [name], IsComponent other)
    (htarget : ∀ name ∈ target, IsComponent name)
    (hsourceRun : altfsAccess (pathOf (names ++ [name])) s = some (0, u))
    (htargetRun : altfsAccess (pathOf target) u = some (0, v))
    (hunlink : altfsUnlink (pathOf target) v = some (0, w))
    (hmove : moveEntry (pathOf (names ++ [name])) (pathOf target) w = some (r, t)) : r = 0 := by
  obtain ⟨hsame, hcoherent₁, hreach⟩ := altfsAccess_cases h hcoherent hsource hsourceRun
  obtain ⟨hsame', hcoherent₂, -⟩ :=
    altfsAccess_cases (hsame.treeFormed h) hcoherent₁ htarget htargetRun
  have hboth : SameButCache s v := trans_of SameButCache hsame hsame'
  have hv := hboth.treeFormed h
  obtain ⟨inum, hinum⟩ := hreach.mp rfl
  rw [← hboth.childOf_eq, follow_concat] at hinum
  obtain ⟨parentInum, hparent, hchild⟩ := Option.bind_eq_some_iff.mp hinum
  cases target using List.reverseRecOn with
  | nil => exact absurd rfl (altfsUnlink_root hunlink).1
  | append_singleton toNames toName =>
      rcases altfsUnlink_cases hv hcoherent₂ htarget hunlink with
        ⟨hr, -⟩ | ⟨-, toParentInum, old, htoParent, hold, hunlinked, hcoherent₃⟩
      · exact absurd rfl hr
      have hcleared := cleared_of_unlinked hv htarget hsource hparent hchild htoParent hold
        hunlinked hcoherent₃
      rcases hcleared.cases hv htarget hsource hparent hchild hmove with ⟨-, hfail, -⟩ | ⟨hr, -⟩
      · exact hfail.elim
      · exact hr

/--
A failed `altfs_rename` leaves every path and every file as it was.  Once an
existing target has been unlinked, no later step fails.
-/
theorem altfsRename_failed (h : TreeFormed s free) (hcoherent : Coherent s)
    (hsource : ∀ name ∈ source, IsComponent name) (htarget : ∀ name ∈ target, IsComponent name)
    (hroot : source ≠ []) :
    (∀ r t, altfsRename (pathOf source) (pathOf target) s = some (r, t) → r ≠ 0 →
      (∀ path, nameIUncached t path = nameIUncached s path) ∧
      ∀ n < inodeCount, (s.inodeAt n).isDir = false → SameContent n s t) ∧
    ∀ u v w t r, altfsAccess (pathOf source) s = some (0, u) →
      altfsAccess (pathOf target) u = some (0, v) → altfsUnlink (pathOf target) v = some (0, w) →
      moveEntry (pathOf source) (pathOf target) w = some (r, t) → r = 0 := by
  obtain ⟨names, name, rfl⟩ := List.eq_nil_or_concat source |>.resolve_left hroot
  rw [List.concat_eq_append] at *
  refine ⟨fun r t hrun hr => ?_, fun u v w t r hsourceRun htargetRun hunlink hmove => ?_⟩
  · rcases altfsRename_cases h hcoherent htarget hsource hrun with ⟨-, hnothing⟩ | ⟨hzero, -⟩
    · exact ⟨hnothing.nameI, fun n hn hfile => (hnothing.files n hn hfile).content h.toSound hn⟩
    · exact absurd hzero hr
  · exact moveEntry_unlinked h hcoherent hsource htarget hsourceRun htargetRun hunlink hmove

omit [Config] in
/-- `/f` gets no name that is too long, and stays. -/
theorem altfsRename_failed_long :
    letI := Config.ofBlocks 67 (by decide)
    ∃ s t, altfsRename (pathOf [[letterF]]) (pathOf [longName]) s = some (-edquot, t) ∧
      (∀ path, nameIUncached t path = nameIUncached s path) ∧
      ∀ n < inodeCount, (s.inodeAt n).isDir = false → SameContent n s t := by
  let _ := Config.ofBlocks 67 (by decide)
  obtain ⟨s, free, inum, entries, hone⟩ := exists_oneFile (by decide) (by decide)
  obtain ⟨t, hrun⟩ := hone.rename_long
  obtain ⟨hkept, -⟩ := @altfsRename_failed _ s free [[letterF]] [longName] hone.tree
    hone.ready.coherent (components_single isComponent_f) (components_single isComponent_longName)
    (List.cons_ne_nil _ _)
  exact ⟨s, t, hrun, hkept _ t hrun (by decide)⟩

end Paths

end AltFs
