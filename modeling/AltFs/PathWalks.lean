import AltFs.CacheFills
import AltFs.FreshFileSystem
import AltFs.Lib.NamedTree
import AltFs.Namespace
import AltFs.Paths
import Mathlib.Data.List.Infix

/-!
# Resolving a path with an empty cache

`name_i` goes down to the root first and then sets one prefix after the other
in the cache.  It is the walk along the components, unless a prefix is set
whose bucket still points to a node that has been evicted since.
-/

namespace AltFs

open Prog NamedTree InodeCache

section

variable [Config]

/-- Every directory holds records with inode numbers of the device. -/
structure SoundDirectories (s : FileSystem) : Prop where
  format : TableFormat s
  root : ValidInum rootInodeNum
  records : ∀ n < inodeCount, (s.inodeAt n).isDir = true → ∃ contents,
    DirContents s (s.inodeAt n) contents ∧ (∀ b ∈ (s.inodeAt n).blocks s, DataBlock b) ∧
      ∀ entry ∈ contents.flatten, ValidInum entry.2

/-- What the search of a directory finds under a name. -/
def entryOf (s : FileSystem) (parentInum : Int64) (name : CString) : Option Int64 :=
  (lookupIn s parentInum name).join

/-- The inode is not a directory, or the name is too long, or no record has it. -/
def Missing (s : FileSystem) (parentInum : Int64) (name : CString) : Prop :=
  (s.inodeAt (inumIndex parentInum)).isDir = false ∨ maxFileNameLength < name.length ∨
    ∃ contents, DirContents s (s.inodeAt (inumIndex parentInum)) contents ∧
      ∀ entry ∈ contents.flatten, entry.1 ≠ name

/-- The prefixes of the path that lead to an inode, with its number, the shortest first. -/
def resolved (s : FileSystem) (names : List CString) : List (CString × Int64) :=
  names.inits.tail.filterMap fun front =>
    (follow (entryOf s) rootInodeNum front).map fun inum => (pathOf front, inum)

variable {s t : FileSystem} {names front : List CString} {name : CString} {inum : Int64}
  {capacity : Nat}

namespace SoundDirectories

theorem lookupIn_isSome (h : SoundDirectories s) (hinum : ValidInum inum) (name : CString) :
    ∃ found, lookupIn s inum name = some found ∧ ∀ value, found = some value → ValidInum value := by
  cases hdir : (s.inodeAt (inumIndex inum)).isDir with
  | false => exact ⟨none, lookupIn_notDir h.format hinum hdir, nofun⟩
  | true =>
      obtain ⟨contents, hcontents, hdata, hvalid⟩ := h.records _ hinum.index_lt hdir
      refine ⟨_, lookupIn_dir h.format hinum hdata hcontents, fun value hvalue => ?_⟩
      obtain ⟨front, back, heq, -⟩ := List.lookup_eq_some_iff.mp hvalue
      exact hvalid (name, value) (by simp [heq])

theorem valid (h : SoundDirectories s)
    (hfollow : follow (entryOf s) rootInodeNum names = some inum) : ValidInum inum := by
  induction names using List.reverseRecOn generalizing inum with
  | nil =>
      cases hfollow
      exact h.root
  | append_singleton front name ih =>
      rw [follow_concat] at hfollow
      obtain ⟨parentInum, hparent, hentry⟩ := Option.bind_eq_some_iff.mp hfollow
      obtain ⟨found, hlookup, hvalid⟩ := h.lookupIn_isSome (ih hparent) name
      rw [entryOf, hlookup, Option.join_some] at hentry
      exact hvalid inum hentry

theorem entryOf_eq_none_iff (h : SoundDirectories s) (hinum : ValidInum inum) :
    entryOf s inum name = none ↔ Missing s inum name := by
  cases hdir : (s.inodeAt (inumIndex inum)).isDir with
  | false =>
      rw [entryOf, lookupIn_notDir h.format hinum hdir]
      exact iff_of_true rfl (.inl hdir)
  | true =>
      obtain ⟨contents, hcontents, hdata, -⟩ := h.records _ hinum.index_lt hdir
      have hlookup := @lookupIn_dir _ s inum name _ h.format hinum hdata hcontents
      rw [entryOf, hlookup, Option.join_some, lookup_eq_none_iff]
      constructor
      · intro hnone
        exact .inr (.inr ⟨contents, hcontents, hnone⟩)
      · rintro (hfile | hlong | ⟨contents', hcontents', hnone⟩) entry hentry heq
        · rw [hdir] at hfile
          cases hfile
        · have := hcontents.short hentry
          rw [heq] at this
          omega
        · have hsame : some (contents'.flatten.lookup name) = some (contents.flatten.lookup name) :=
            (lookupIn_dir h.format hinum hdata hcontents').symm.trans hlookup
          rw [Option.some_inj, lookup_eq_none_iff.mpr hnone, eq_comm, lookup_eq_none_iff] at hsame
          exact hsame entry hentry heq

end SoundDirectories

theorem resolved_concat (front : List CString) (name : CString) :
    resolved s (front ++ [name]) = resolved s front ++
      ((follow (entryOf s) rootInodeNum (front ++ [name])).map fun inum =>
        (pathOf (front ++ [name]), inum)).toList := by
  have hinits : (front ++ [name]).inits.tail = front.inits.tail ++ [front ++ [name]] := by
    rw [List.inits_append]
    cases front with
    | nil => rfl
    | cons first rest => rfl
  rw [resolved, hinits, List.filterMap_append, ← resolved]
  cases hfollow : follow (entryOf s) rootInodeNum (front ++ [name]) with
  | none => simp [hfollow]
  | some inum => simp [hfollow]

theorem length_resolved_le : (resolved s names).length ≤ names.length := by
  apply (List.length_filterMap_le _ _).trans
  rw [List.length_tail, List.length_inits, Nat.add_sub_cancel]

theorem mem_resolved {entry : CString × Int64} (h : entry ∈ resolved s names) :
    ∃ front, front <+: names ∧ entry.1 = pathOf front ∧
      follow (entryOf s) rootInodeNum front = some entry.2 := by
  obtain ⟨front, hfront, hentry⟩ := List.mem_filterMap.mp h
  obtain ⟨inum, hinum, rfl⟩ := Option.map_eq_some_iff.mp hentry
  exact ⟨front, (List.mem_inits _ _).mp (List.mem_of_mem_tail hfront), rfl, hinum⟩

omit [Config] in
/-- A longer path is not a prefix. -/
theorem pathOf_concat_ne (hname : name ≠ []) (hfront : front <+: names) :
    pathOf (names ++ [name]) ≠ pathOf front := by
  by_cases hroot : front = []
  · rw [hroot]
    exact pathOf_concat_ne_root hname
  · obtain ⟨rest, rfl⟩ := hfront
    intro heq
    have hlength := congrArg List.length heq
    rw [pathOf_concat, joinNames_append, pathOf, if_neg hroot] at hlength
    simp only [List.length_append, List.length_cons] at hlength
    omega

theorem pathOf_notMem_resolved (hname : name ≠ []) :
    pathOf (names ++ [name]) ∉ (resolved s names).map Prod.fst := by
  intro hmem
  obtain ⟨entry, hentry, heq⟩ := List.mem_map.mp hmem
  obtain ⟨front, hfront, hkey, -⟩ := mem_resolved hentry
  exact pathOf_concat_ne hname hfront (heq.symm.trans hkey)

omit [Config] in
/-- Nothing is found in the empty cache. -/
private theorem getCacheEntry_empty (hcache : s.cache = createInodeCache capacity) (path : CString) :
    onCache (getCacheEntry path) s = some (-1, s) := by
  have hget : getCacheEntry path s.cache = some (-1, s.cache) :=
    getCacheEntry_miss (findFromBucket_empty (by rw [hcache]; rfl))
  exact onCache_run hget

/-- The step of the recursion: the parent first, then the search for the last component. -/
private theorem nameI_concat (hcache : s.cache = createInodeCache capacity) (hname : name ≠ [])
    (hslash : slash ∉ name) (front : List CString) :
    nameI (pathOf (front ++ [name])) s =
      (nameI (pathOf front) >>= fromParent (pathOf (front ++ [name]))) s := by
  rw [nameI_step (pathOf_concat_ne_root hname) (copyParentPath_pathOf hname hslash),
    bind_of_eq (getCacheEntry_empty hcache _), if_neg (by decide)]

private theorem fromParent_missing (h : SoundDirectories s) (hsame : SameButCache s t)
    (hname : name ≠ []) (hslash : slash ∉ name)
    (hfollow : follow (entryOf s) rootInodeNum (front ++ [name]) = none) :
    fromParent (pathOf (front ++ [name])) ((follow (entryOf s) rootInodeNum front).getD (-1)) t =
      some (-1, t) := by
  cases hparent : follow (entryOf s) rootInodeNum front with
  | none => exact congrFun (if_pos rfl) t
  | some parentInum =>
      rw [follow_concat, hparent, Option.bind_some] at hfollow
      obtain ⟨found, hlookup, -⟩ := h.lookupIn_isSome (h.valid hparent) name
      rw [entryOf, hlookup, Option.join_some] at hfollow
      subst hfollow
      rw [← hsame.lookupIn_eq] at hlookup
      rw [Option.getD_some, fromParent]
      split
      · rfl
      · simp only [copyFileName_pathOf hname hslash]
        rw [bind_of_eq (nameInDir_run hlookup)]
        rfl

private theorem fromParent_found (h : SoundDirectories s) (hsame : SameButCache s t)
    (hname : name ≠ []) (hslash : slash ∉ name)
    (hfollow : follow (entryOf s) rootInodeNum (front ++ [name]) = some inum) :
    fromParent (pathOf (front ++ [name])) ((follow (entryOf s) rootInodeNum front).getD (-1)) t =
      (do
        onCache (setCacheEntry (pathOf (front ++ [name])) inum)
        pure inum : Fs Int64) t := by
  rw [follow_concat] at hfollow
  obtain ⟨parentInum, hparent, hentry⟩ := Option.bind_eq_some_iff.mp hfollow
  have hvalid := h.valid hparent
  have hfound : parentInum ≠ -1 := by
    rintro rfl
    exact absurd hvalid.1 (by decide)
  obtain ⟨found, hlookup, -⟩ := h.lookupIn_isSome hvalid name
  rw [entryOf, hlookup, Option.join_some] at hentry
  subst hentry
  rw [← hsame.lookupIn_eq] at hlookup
  rw [hparent, Option.getD_some, fromParent, if_neg hfound]
  simp only [copyFileName_pathOf hname hslash]
  rw [bind_of_eq (nameInDir_run hlookup)]

/-- The run on the empty cache, up to the first dangling pointer. -/
theorem nameI_filled (h : SoundDirectories s) (hpos : 0 < capacity)
    (hcache : s.cache = createInodeCache capacity)
    (hnames : ∀ name ∈ names, name ≠ [] ∧ slash ∉ name) :
    (Spaced capacity ((resolved s names).map Prod.fst) → ∃ t, nameI (pathOf names) s =
        some ((follow (entryOf s) rootInodeNum names).getD (-1), t) ∧ SameButCache s t ∧
      Filled capacity (resolved s names) t.cache) ∧
    (¬Spaced capacity ((resolved s names).map Prod.fst) → nameI (pathOf names) s = none) := by
  induction names using List.reverseRecOn with
  | nil =>
      constructor
      · intro _
        refine ⟨s, congrFun nameI_root s, refl_of SameButCache s, ?_⟩
        rw [hcache]
        exact Filled.create hpos
      · intro hfar
        exact absurd spaced_nil hfar
  | append_singleton front name ih =>
      obtain ⟨hname, hslash⟩ := hnames name (List.mem_append_right _ List.mem_cons_self)
      obtain ⟨hclose, hstuck⟩ := ih fun other hother =>
        hnames other (List.mem_append_left _ hother)
      rw [nameI_concat hcache hname hslash, resolved_concat]
      cases hfollow : follow (entryOf s) rootInodeNum (front ++ [name]) with
      | none =>
          rw [Option.map_none, Option.toList_none, List.append_nil]
          constructor
          · intro hspaced
            obtain ⟨t, hrun, hsame, hfilled⟩ := hclose hspaced
            refine ⟨t, ?_, hsame, hfilled⟩
            rw [bind_of_eq hrun]
            exact fromParent_missing h hsame hname hslash hfollow
          · intro hfar
            rw [bind_apply, hstuck hfar]
      | some inum =>
          have hkey : pathOf (front ++ [name]) ≠ [] := by
            rw [pathOf_concat]
            simp
          rw [Option.map_some, Option.toList_some, List.map_append, List.map_singleton,
            spaced_concat, List.length_map]
          constructor
          · rintro ⟨hspaced, hlast⟩
            obtain ⟨t, hrun, hsame, hfilled⟩ := hclose hspaced
            obtain ⟨cache', hset, hfilled'⟩ :=
              hfilled.set hpos hkey (pathOf_notMem_resolved hname) hlast inum
            refine ⟨{ t with cache := cache' }, ?_, trans_of SameButCache hsame ⟨cache', rfl⟩,
              hfilled'⟩
            rw [bind_of_eq hrun, fromParent_found h hsame hname hslash hfollow,
              bind_of_eq (onCache_run hset)]
            rfl
          · intro hfar
            by_cases hspaced : Spaced capacity ((resolved s front).map Prod.fst)
            · obtain ⟨t, hrun, hsame, hfilled⟩ := hclose hspaced
              obtain ⟨a, hlast, hdead⟩ : ∃ a, LastIn capacity ((resolved s front).map Prod.fst)
                  (hashFunc (pathOf (front ++ [name])) % capacity) a ∧
                  ¬(resolved s front).length ≤ a + capacity := by
                by_contra hnone
                refine hfar ⟨hspaced, fun a hlast => ?_⟩
                by_contra hdead
                exact hnone ⟨a, hlast, hdead⟩
              have hset : onCache (setCacheEntry (pathOf (front ++ [name])) inum) t = none := by
                rw [onCache, zoom, hfilled.set_stuck hkey hlast hdead]
                rfl
              rw [bind_of_eq hrun, fromParent_found h hsame hname hslash hfollow, bind_apply, hset]
            · rw [bind_apply, hstuck hspaced]

/--
With an empty cache, `name_i` ends and returns what the components lead to from
the root, -1 exactly when one of them is missing; when it succeeds every pair in
the cache is a prefix of the path with its inode number.
-/
def WalksPath (s : FileSystem) (names : List CString) : Prop :=
  ∃ inum t, nameI (pathOf names) { s with cache := createInodeCache cacheCapacity } =
      some (inum, t) ∧
    inum = (follow (entryOf s) rootInodeNum names).getD (-1) ∧
    (inum = -1 ↔ ∃ front name rest parentInum, names = front ++ name :: rest ∧
      follow (entryOf s) rootInodeNum front = some parentInum ∧ Missing s parentInum name) ∧
    (inum ≠ -1 → t.cache.AllEntries fun _ key value => ∃ front, front <+: names ∧
      key = pathOf front ∧ follow (entryOf s) rootInodeNum front = some value)

theorem SoundDirectories.follow_eq_minusOne_iff (h : SoundDirectories s) :
    (follow (entryOf s) rootInodeNum names).getD (-1) = -1 ↔
      ∃ front name rest parentInum, names = front ++ name :: rest ∧
        follow (entryOf s) rootInodeNum front = some parentInum ∧ Missing s parentInum name := by
  have hnone : (follow (entryOf s) rootInodeNum names).getD (-1) = -1 ↔
      follow (entryOf s) rootInodeNum names = none := by
    cases hfollow : follow (entryOf s) rootInodeNum names with
    | none => exact iff_of_true rfl rfl
    | some inum =>
        have hvalid := h.valid hfollow
        apply iff_of_false _ nofun
        rintro rfl
        exact absurd hvalid.1 (by decide)
  rw [hnone, follow_eq_none_iff]
  constructor
  · rintro ⟨front, name, rest, parentInum, hnames, hfront, hentry⟩
    exact ⟨front, name, rest, parentInum, hnames, hfront,
      (h.entryOf_eq_none_iff (h.valid hfront)).mp hentry⟩
  · rintro ⟨front, name, rest, parentInum, hnames, hfront, hmissing⟩
    exact ⟨front, name, rest, parentInum, hnames, hfront,
      (h.entryOf_eq_none_iff (h.valid hfront)).mpr hmissing⟩

theorem filled_allEntries (h : Filled capacity (resolved s names) t.cache) :
    t.cache.AllEntries fun _ key value => ∃ front, front <+: names ∧ key = pathOf front ∧
      follow (entryOf s) rootInodeNum front = some value := by
  intro a entry hentry
  have hstored := h.stored a
  rw [stored, hentry, Option.map_some] at hstored
  split at hstored
  · exact mem_resolved (List.mem_of_getElem? hstored.symm)
  · cases hstored

omit [Config] in
private theorem sameButCache_empty (s : FileSystem) (capacity : Nat) :
    SameButCache s { s with cache := createInodeCache capacity } := ⟨_, rfl⟩

private theorem entryOf_empty (s : FileSystem) (capacity : Nat) :
    entryOf { s with cache := createInodeCache capacity } = entryOf s := by
  funext parentInum name
  rw [entryOf, entryOf, (sameButCache_empty s capacity).lookupIn_eq]

private theorem resolved_empty (s : FileSystem) (capacity : Nat) (names : List CString) :
    resolved { s with cache := createInodeCache capacity } names = resolved s names := by
  rw [resolved, resolved, entryOf_empty]

theorem SoundDirectories.empty (h : SoundDirectories s) (capacity : Nat) :
    SoundDirectories { s with cache := createInodeCache capacity } := by
  refine ⟨⟨h.format.sInodesCount, h.format.sNumOfInodesPerBlock⟩, h.root, fun n hn hdir => ?_⟩
  have hat : FileSystem.inodeAt { s with cache := createInodeCache capacity } n = s.inodeAt n :=
    inodeAt_of_disk_eq rfl
  rw [hat] at hdir ⊢
  obtain ⟨contents, hcontents, hrest⟩ := h.records n hn hdir
  exact ⟨contents, hcontents.of_disk_eq fun _ _ => rfl, hrest⟩

theorem walksPath_of_spaced (h : SoundDirectories s)
    (hnames : ∀ name ∈ names, name ≠ [] ∧ slash ∉ name)
    (hspaced : Spaced cacheCapacity ((resolved s names).map Prod.fst)) : WalksPath s names := by
  obtain ⟨hclose, -⟩ := nameI_filled (h.empty cacheCapacity) (by decide) rfl hnames
  rw [resolved_empty, entryOf_empty] at hclose
  obtain ⟨t, hrun, -, hfilled⟩ := hclose hspaced
  exact ⟨_, t, hrun, rfl, h.follow_eq_minusOne_iff, fun _ => filled_allEntries hfilled⟩

theorem spaced_of_walksPath (h : SoundDirectories s)
    (hnames : ∀ name ∈ names, name ≠ [] ∧ slash ∉ name) (hwalks : WalksPath s names) :
    Spaced cacheCapacity ((resolved s names).map Prod.fst) := by
  obtain ⟨-, hstuck⟩ := nameI_filled (h.empty cacheCapacity) (by decide) rfl hnames
  rw [resolved_empty] at hstuck
  obtain ⟨inum, t, hrun, -⟩ := hwalks
  by_contra hfar
  rw [hstuck hfar] at hrun
  cases hrun

/--
Resolving a path with an empty cache is the walk along its components if and
only if no prefix is set when the node that its bucket points to has been
evicted: two prefixes that follow each other in a bucket are at most
`CACHE_CAPACITY` components apart.
-/
theorem nameI_walksPath_iff (h : SoundDirectories s)
    (hnames : ∀ name ∈ names, name ≠ [] ∧ slash ∉ name) :
    WalksPath s names ↔ Spaced cacheCapacity ((resolved s names).map Prod.fst) := by
  constructor
  · exact spaced_of_walksPath h hnames
  · exact walksPath_of_spaced h hnames

end

/-! ## A path that is too deep -/

/-- `ANISE`: with this name twice, the hash is back in the bucket of the names without it. -/
def anise : CString :=
  [⟨65, by decide⟩, ⟨78, by decide⟩, ⟨73, by decide⟩, ⟨83, by decide⟩, ⟨69, by decide⟩]

/-- A root with the records `.` and `ANISE`, both for itself. -/
theorem exists_selfLinked :
    letI := Config.ofBlocks 519 (by decide)
    ∃ s, SoundDirectories s ∧ entryOf s rootInodeNum [dot] = some rootInodeNum ∧
      entryOf s rootInodeNum anise = some rootInodeNum := by
  let _ := Config.ofBlocks 519 (by decide)
  have hpos : 0 < inodeBlockCount := by decide
  have hroot : ValidInum rootInodeNum := validInum_root hpos
  obtain ⟨s, free, -, hformatted, -⟩ :=
    @altfsMakefs_run _ FileSystem.blank (one_le_numOfDataBlocks hpos) (by decide)
  let node := Inode.zero.newRoot 0
  have hempty : node.EmptyMap := emptyMap_newRoot 0
  have howned : Owned s free (node.blocks s + 0) := by
    rw [hempty.blocks_eq_zero]
    exact ⟨hformatted.toFreeList, by simpa using hformatted.nodup, by simp⟩
  obtain ⟨node₁, s₁, free', node₂, s₂, -, hadded, -, hadded'⟩ :=
    @addDirectoryEntry_pair _ s node free 0 ([dot], rootInodeNum) (anise, rootInodeNum)
      (.nil (isDir_newRoot _ _) hempty) howned
      (hformatted.ne_zero (one_le_numOfDataBlocks hpos)) (by decide) (by decide)
  let t := s₂.setInode 2 node₂
  have hsame : SameData s₂ t := .setInode node₂ hroot.index_lt
  have hheld := hadded'.owned
  rw [add_zero] at hheld
  have hdata : ∀ b ∈ node₂.blocks t, DataBlock b := by
    rw [(hsame.kept hheld le_rfl).blocks]
    exact hheld.data
  have hdir : DirContents t node₂ [[([dot], rootInodeNum), (anise, rootInodeNum)]] :=
    hadded'.dir.of_disk_eq fun b hb => hsame.disk b (hheld.data b hb)
  have hzero : ∀ n < inodeCount, s₂.inodeAt n = Inode.zero := by
    intro n hn
    have hdata₁ : ∀ b ∈ free' + node₁.blocks s₁, DataBlock b := by
      intro b hb
      rcases Multiset.mem_add.mp hb with hb | hb
      · exact hadded.owned.freeList.data b hb
      · exact hadded.owned.data b (Multiset.mem_add.mpr (.inl hb))
    have hdata₀ : ∀ b ∈ free + node.blocks s, DataBlock b := by
      rw [hempty.blocks_eq_zero, add_zero]
      exact hformatted.data
    rw [hadded'.frame.inodeAt_eq hdata₁ hn, hadded.frame.inodeAt_eq hdata₀ hn]
    exact hformatted.inodeAt n hn
  have hformat : TableFormat t :=
    (hadded'.frame.format (hadded.frame.format hformatted.format)).setInode _ _
  have hat : t.inodeAt (inumIndex rootInodeNum) = node₂ := inodeAt_setInode_self
  have hlookup : ∀ name, lookupIn t rootInodeNum name =
      some ([([dot], rootInodeNum), (anise, rootInodeNum)].lookup name) := by
    intro name
    rw [← hat] at hdata hdir
    exact lookupIn_dir hformat hroot hdata hdir
  refine ⟨t, ⟨hformat, hroot, fun n hn hisDir => ?_⟩, ?_, ?_⟩
  · by_cases hn2 : n = 2
    · subst hn2
      refine ⟨_, hat ▸ hdir, hat ▸ hdata, fun entry hentry => ?_⟩
      have hinum : entry.2 = rootInodeNum := by
        rcases List.mem_cons.mp hentry with rfl | hentry
        · rfl
        · rw [List.mem_singleton.mp hentry]
      rw [hinum]
      exact hroot
    · have hother : t.inodeAt n = s₂.inodeAt n := inodeAt_setInode_ne hroot.index_lt hn hn2
      rw [hother, hzero n hn] at hisDir
      cases hisDir
  · rw [entryOf, hlookup]
    rfl
  · rw [entryOf, hlookup]
    rfl

/-- Characters other than upper-case letters do not change the hash. -/
theorem hashFunc_concat_dot {names : List CString} (hnames : names ≠ []) :
    hashFunc (pathOf (names ++ [[dot]])) = hashFunc (pathOf names) := by
  rw [pathOf_concat, pathOf, if_neg hnames, hashFunc, List.foldl_append, ← hashFunc]
  rfl

section Deep

/-- `/./ANISE` and then `count` times `.`. -/
def deepNames (count : Nat) : List CString := [dot] :: anise :: List.replicate count [dot]

theorem deepNames_succ (count : Nat) : deepNames (count + 1) = deepNames count ++ [[dot]] := by
  rw [deepNames, deepNames, List.replicate_succ']
  rfl

theorem deepNames_ne_nil (count : Nat) : deepNames count ≠ [] := List.cons_ne_nil _ _

theorem hashFunc_deepNames (count : Nat) : hashFunc (pathOf (deepNames count)) = 210706655381 := by
  induction count with
  | zero => decide
  | succ count ih => rw [deepNames_succ, hashFunc_concat_dot (deepNames_ne_nil count), ih]

theorem hashFunc_deepNames_anise (count : Nat) :
    hashFunc (pathOf (deepNames count ++ [anise])) = 8246087766170105381 := by
  have hash := hashFunc_deepNames count
  rw [pathOf, if_neg (deepNames_ne_nil count), hashFunc] at hash
  rw [pathOf_concat, hashFunc, List.foldl_append, hash]
  decide

variable [Config] {s : FileSystem}

theorem follow_self {names : List CString}
    (h : ∀ name ∈ names, entryOf s rootInodeNum name = some rootInodeNum) :
    follow (entryOf s) rootInodeNum names = some rootInodeNum := by
  induction names with
  | nil => rfl
  | cons name names ih =>
      rw [follow_cons, h name List.mem_cons_self, Option.bind_some]
      exact ih fun other hother => h other (List.mem_cons_of_mem _ hother)

variable (hdot : entryOf s rootInodeNum [dot] = some rootInodeNum)
  (hanise : entryOf s rootInodeNum anise = some rootInodeNum)

include hdot hanise

theorem entryOf_deepNames {count : Nat} :
    ∀ name ∈ deepNames count, entryOf s rootInodeNum name = some rootInodeNum := by
  intro name hname
  simp only [deepNames, List.mem_cons, List.mem_replicate] at hname
  rcases hname with rfl | rfl | ⟨-, rfl⟩
  · exact hdot
  · exact hanise
  · exact hdot

/-- The keys set for `/./ANISE/./.…`: the first bucket is not used again. -/
theorem lastIn_deepNames (count : Nat) :
    ((resolved s (deepNames count)).map Prod.fst).length = count + 2 ∧
      LastIn cacheCapacity ((resolved s (deepNames count)).map Prod.fst) 5381 0 := by
  induction count with
  | zero =>
      have hfollow := @follow_self _ s [[dot]] (by simpa using hdot)
      have hfollow' := follow_self (@entryOf_deepNames _ s hdot hanise 0)
      have hkeys : (resolved s (deepNames 0)).map Prod.fst =
          [] ++ [pathOf [[dot]]] ++ [pathOf (deepNames 0)] := by
        rw [show deepNames 0 = [] ++ [[dot]] ++ [anise] from rfl] at hfollow' ⊢
        rw [resolved_concat, resolved_concat, hfollow', List.nil_append, hfollow]
        rfl
      rw [hkeys]
      refine ⟨rfl, ?_⟩
      rw [lastIn_concat, if_neg (by decide), lastIn_concat, if_pos (by decide)]
      rfl
  | succ count ih =>
      obtain ⟨hlength, hlast⟩ := ih
      have hfollow := follow_self (@entryOf_deepNames _ s hdot hanise (count + 1))
      rw [deepNames_succ] at hfollow ⊢
      rw [resolved_concat, hfollow, Option.map_some, Option.toList_some, List.map_append,
        List.map_singleton, List.length_append, hlength]
      refine ⟨rfl, ?_⟩
      rw [← deepNames_succ, lastIn_concat, hashFunc_deepNames, if_neg (by decide)]
      exact hlast

theorem deepNames_stuck {count : Nat} (hdeep : cacheCapacity ≤ count) :
    ¬Spaced cacheCapacity ((resolved s (deepNames count ++ [anise])).map Prod.fst) := by
  obtain ⟨hlength, hlast⟩ := lastIn_deepNames hdot hanise count
  have hfollow : follow (entryOf s) rootInodeNum (deepNames count ++ [anise]) =
      some rootInodeNum := by
    apply follow_self
    intro name hname
    rcases List.mem_append.mp hname with hname | hname
    · exact entryOf_deepNames hdot hanise name hname
    · rw [List.mem_singleton.mp hname]
      exact hanise
  have hindex : 8246087766170105381 % cacheCapacity = 5381 := by decide
  rw [resolved_concat, hfollow, Option.map_some, Option.toList_some, List.map_append,
    List.map_singleton, spaced_concat, hashFunc_deepNames_anise, hindex, hlength]
  rintro ⟨-, hclose⟩
  have := hclose 0 hlast
  omega

end Deep

theorem deepNames_component {count : Nat} {name : CString}
    (hname : name ∈ deepNames count ++ [anise]) : name ≠ [] ∧ slash ∉ name := by
  have hcases : name = [dot] ∨ name = anise := by
    simp only [deepNames, List.mem_append, List.mem_cons, List.mem_replicate, List.not_mem_nil,
      or_false] at hname
    rcases hname with (hname | hname | ⟨-, hname⟩) | hname
    · exact .inl hname
    · exact .inr hname
    · exact .inl hname
    · exact .inr hname
  rcases hcases with rfl | rfl
  · decide
  · decide

/-- `/./ANISE`, 100000 times `/.` and `/ANISE` once more, where all names stand for the root. -/
theorem nameI_deepNames :
    letI := Config.ofBlocks 519 (by decide)
    ¬∀ s names, SoundDirectories s → (∀ name ∈ names, name ≠ [] ∧ slash ∉ name) →
      WalksPath s names := by
  obtain ⟨s, h, hdot, hanise⟩ := exists_selfLinked
  let _ := Config.ofBlocks 519 (by decide)
  intro hclaim
  have hnames : ∀ name ∈ deepNames cacheCapacity ++ [anise], name ≠ [] ∧ slash ∉ name :=
    fun _ hname => deepNames_component hname
  exact deepNames_stuck hdot hanise le_rfl
    (spaced_of_walksPath h hnames (hclaim s _ h hnames))

/-- The same path, two `/.` shorter: the cache is full when the last name is set. -/
theorem nameI_walksPath_iff_anise :
    letI := Config.ofBlocks 519 (by decide)
    ∃ s, WalksPath s (deepNames (cacheCapacity - 2) ++ [anise]) := by
  obtain ⟨s, h, -⟩ := exists_selfLinked
  let _ := Config.ofBlocks 519 (by decide)
  refine ⟨s, (nameI_walksPath_iff h fun _ hname => deepNames_component hname).mpr ?_⟩
  apply spaced_of_length_le
  rw [List.length_map]
  apply length_resolved_le.trans
  rw [List.length_append, deepNames, List.length_cons, List.length_cons, List.length_replicate,
    List.length_singleton]
  decide

end AltFs
