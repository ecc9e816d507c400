import AltFs.CacheCalls
import AltFs.CacheEntries
import AltFs.Directory
import AltFs.InodeAllocator
import AltFs.Reading

/-!
# Path resolution

`walk` follows the components of a path through the records on disk, as
`name_i` does for a path of which nothing is in the cache.
-/

namespace AltFs

open Prog

variable [Config]

/-- What the directory `parentInum` has under a name, when the search ends. -/
def lookupIn (s : FileSystem) (parentInum : Int64) (name : CString) : Option (Option Int64) :=
  (nameInDir parentInum name s).map Prod.fst

/-- The inode number of a path, -1 when there is none. -/
def walk (s : FileSystem) (path : CString) : Option Int64 :=
  if path = [slash] then some rootInodeNum else
  match h : copyParentPath path with
  | none => some (-1)
  | some parentPath =>
      (walk s parentPath).bind fun parentInum =>
        if parentInum = -1 then some (-1) else
        match copyFileName path with
        | none => some (-1)
        | some name => (lookupIn s parentInum name).map fun found => found.getD (-1)
termination_by path.length
decreasing_by exact length_copyParentPath h

section

variable {s : FileSystem} {path parentPath : CString}

theorem walk_root : walk s [slash] = some rootInodeNum := by
  rw [walk, if_pos rfl]

theorem walk_noParent (hroot : path ≠ [slash]) (hparent : copyParentPath path = none) :
    walk s path = some (-1) := by
  rw [walk, if_neg hroot]
  split
  · rfl
  next parentPath h =>
    rw [hparent] at h
    cases h

theorem walk_step (hroot : path ≠ [slash]) (hparent : copyParentPath path = some parentPath) :
    walk s path = (walk s parentPath).bind fun parentInum =>
      if parentInum = -1 then some (-1) else
      match copyFileName path with
      | none => some (-1)
      | some name => (lookupIn s parentInum name).map fun found => found.getD (-1) := by
  rw [walk, if_neg hroot]
  split
  next h =>
    rw [hparent] at h
    cases h
  next parentPath' h =>
    obtain rfl : parentPath = parentPath' := by simpa [hparent] using h
    rfl

end

/-- The walk of `name_i` from the parent of a path on. -/
def fromParent (path : CString) (parentInum : Int64) : Fs Int64 :=
  if parentInum = -1 then pure (-1) else
  match copyFileName path with
  | none => pure (-1)
  | some childPath => do
      match ← nameInDir parentInum childPath with
      | none => pure (-1)
      | some inum => do
          onCache (InodeCache.setCacheEntry path inum)
          pure inum

theorem nameI_root : nameI [slash] = pure rootInodeNum := by
  rw [nameI, if_pos rfl]

theorem nameI_noParent {path : CString} (hroot : path ≠ [slash])
    (hparent : copyParentPath path = none) :
    nameI path = (do
      let inumFromCache ← onCache (InodeCache.getCacheEntry path)
      if inumFromCache.toInt > 0 then pure inumFromCache else pure (-1)) := by
  rw [nameI, if_neg hroot]
  congr
  funext inumFromCache
  split
  · rfl
  split
  · rfl
  next parentPath h =>
    rw [hparent] at h
    cases h

theorem nameI_step {path parentPath : CString} (hroot : path ≠ [slash])
    (hparent : copyParentPath path = some parentPath) :
    nameI path = (do
      let inumFromCache ← onCache (InodeCache.getCacheEntry path)
      if inumFromCache.toInt > 0 then pure inumFromCache else do
      let parentInum ← nameI parentPath
      fromParent path parentInum) := by
  rw [nameI, if_neg hroot]
  congr
  funext inumFromCache
  split
  · rfl
  split
  next h =>
    rw [hparent] at h
    cases h
  next parentPath' h =>
    obtain rfl : parentPath = parentPath' := by simpa [hparent] using h
    rfl

/-! ## What reading depends on -/

/-- A program that changes nothing and looks at the disk and the superblock only. -/
def OnlyReads {α : Type} (x : Fs α) : Prop :=
  ∀ s a t, x s = some (a, t) → t = s ∧
    ∀ u : FileSystem, u.disk = s.disk → u.superblock = s.superblock → x u = some (a, u)

namespace OnlyReads

omit [Config] in
theorem pure {α : Type} (a : α) : OnlyReads (Pure.pure a : Fs α) := by
  intro s b t hrun
  cases hrun
  exact ⟨rfl, fun _ _ _ => rfl⟩

omit [Config] in
theorem bind {α β : Type} {x : Fs α} {f : α → Fs β} (hx : OnlyReads x)
    (hf : ∀ a, OnlyReads (f a)) : OnlyReads (x >>= f) := by
  intro s b t hrun
  obtain ⟨a, s', hfirst, hrest⟩ := bind_eq_some_iff.mp hrun
  obtain ⟨rfl, hsame⟩ := hx s a s' hfirst
  obtain ⟨rfl, hsame'⟩ := hf a _ b t hrest
  exact ⟨rfl, fun u hdisk hsb => (bind_of_eq (hsame u hdisk hsb)).trans (hsame' u hdisk hsb)⟩

omit [Config] in
theorem get_bind {α : Type} {f : FileSystem → Fs α} (hf : ∀ s, OnlyReads (f s))
    (hsame : ∀ s u, u.disk = s.disk → u.superblock = s.superblock → f u = f s) :
    OnlyReads (Prog.get >>= f) := by
  intro s value t hrun
  rw [get_bind_apply] at hrun
  obtain ⟨rfl, hrest⟩ := hf s s value t hrun
  refine ⟨rfl, fun u hdisk hsb => ?_⟩
  rw [get_bind_apply, hsame _ u hdisk hsb]
  exact hrest u hdisk hsb

theorem altfsReadBlock (b : Int64) : OnlyReads (altfsReadBlock b) := by
  intro s buffer t hrun
  obtain rfl := altfsReadBlock_cases hrun
  refine ⟨rfl, fun u hdisk _ => ?_⟩
  rw [AltFs.altfsReadBlock] at hrun ⊢
  split at hrun
  next hrange =>
    cases hrun
    rw [if_pos hrange]
    rfl
  next hrange =>
    cases hrun
    rw [if_neg hrange, get_bind_apply, hdisk]
    rfl

theorem getInode? (inum : Int64) : OnlyReads (getInode? inum) := by
  unfold AltFs.getInode?
  apply get_bind
  · intro s
    split
    · exact .pure none
    refine .bind (.altfsReadBlock _) fun buffer => ?_
    cases buffer with
    | none => exact .pure none
    | some buffer => exact .pure _
  · intro s u _ hsb
    simp only [isValidInodeNumber, inumToBlockPos, hsb]
    rfl

end OnlyReads

theorem onlyReads : ReadProperty fun _ x => OnlyReads x where
  pure := .pure
  bind := .bind
  stuck s a t hrun := by cases hrun
  altfsReadBlock := .altfsReadBlock
  getInode? := .getInode?

/-- What is found in a directory does not depend on the cache and the clock. -/
theorem lookupIn_congr {s t : FileSystem} (hdisk : t.disk = s.disk)
    (hsb : t.superblock = s.superblock) (parentInum : Int64) (name : CString) :
    lookupIn t parentInum name = lookupIn s parentInum name := by
  have honly : OnlyReads (nameInDir parentInum name) := onlyReads.nameInDir_reads parentInum name
  rw [lookupIn, lookupIn]
  cases hs : nameInDir parentInum name s with
  | some r =>
      rw [(honly s r.1 r.2 hs).2 t hdisk hsb]
      rfl
  | none =>
      cases ht : nameInDir parentInum name t with
      | none => rfl
      | some r =>
          have := (honly t r.1 r.2 ht).2 s hdisk.symm hsb.symm
          rw [hs] at this
          cases this

theorem nameInDir_eq {s t : FileSystem} {parentInum : Int64} {name : CString}
    {found : Option Int64} (hrun : nameInDir parentInum name s = some (found, t)) :
    t = s ∧ lookupIn s parentInum name = some found := by
  have honly : OnlyReads (nameInDir parentInum name) := onlyReads.nameInDir_reads parentInum name
  refine ⟨(honly s found t hrun).1, ?_⟩
  rw [lookupIn, hrun]
  rfl

theorem nameInDir_run {s : FileSystem} {parentInum : Int64} {name : CString}
    {found : Option Int64} (hlookup : lookupIn s parentInum name = some found) :
    nameInDir parentInum name s = some (found, s) := by
  obtain ⟨⟨_, t⟩, hrun, rfl⟩ := Option.map_eq_some_iff.mp hlookup
  obtain ⟨rfl, -⟩ := nameInDir_eq hrun
  exact hrun

/-- The walk depends on what the directories have under each name. -/
theorem walk_congr {s t : FileSystem}
    (h : ∀ parentInum name, lookupIn t parentInum name = lookupIn s parentInum name)
    (path : CString) : walk t path = walk s path := by
  induction hlength : path.length using Nat.strong_induction_on generalizing path with
  | _ n ih =>
      rw [walk, walk]
      split
      · rfl
      split
      · rfl
      next parentPath hparent =>
        have hshorter := length_copyParentPath hparent
        rw [ih parentPath.length (by omega) parentPath rfl]
        simp only [h]

/-! ## The walk and the cache -/

/-- Only the cache differs. -/
def SameButCache (s t : FileSystem) : Prop := ∃ cache, t = { s with cache := cache }

instance : IsPreorder FileSystem SameButCache where
  refl s := ⟨s.cache, rfl⟩
  trans _ _ _ h h' := by
    obtain ⟨cache, rfl⟩ := h
    obtain ⟨cache', rfl⟩ := h'
    exact ⟨cache', rfl⟩

theorem nameI_sameButCache {s t : FileSystem} {path : CString} {inum : Int64}
    (hrun : nameI path s = some (inum, t)) : SameButCache s t := by
  have hlookups : Lookups SameButCache :=
    { altfsReadBlock := fun b s buffer t hread => by
        rw [altfsReadBlock_cases hread]
        exact refl_of SameButCache s
      cache := fun s cache => ⟨cache, rfl⟩ }
  exact hlookups.nameI_within path s inum t hrun

theorem SameButCache.lookupIn_eq {s t : FileSystem} (h : SameButCache s t) (parentInum : Int64)
    (name : CString) : lookupIn t parentInum name = lookupIn s parentInum name := by
  obtain ⟨cache, rfl⟩ := h
  apply lookupIn_congr
  · rfl
  · rfl

theorem SameButCache.walk_eq {s t : FileSystem} (h : SameButCache s t) (path : CString) :
    walk t path = walk s path :=
  walk_congr h.lookupIn_eq path

/-- What a cache entry must say for `name_i` to rely on it; other numbers are not used. -/
def WalkEntry (s : FileSystem) (_ : Nat) (key : CString) (value : Int64) : Prop :=
  0 < value.toInt → walk s key = some value

/-- Every node of the cache holds the inode number of its path. -/
def Coherent (s : FileSystem) : Prop := s.cache.AllEntries (WalkEntry s)

/-- What the cache holds about the paths of `P` is right. -/
def CoherentOn (P : CString → Prop) (s : FileSystem) : Prop :=
  s.cache.AllEntries fun a key value => P key → WalkEntry s a key value

section

variable {s t : FileSystem} {path : CString} {inum : Int64} {P : CString → Prop}

theorem Coherent.on (h : Coherent s) (P : CString → Prop) : CoherentOn P s :=
  fun a entry hentry _ => h a entry hentry

theorem coherentOn_true : CoherentOn (fun _ => True) s ↔ Coherent s :=
  ⟨fun h a entry hentry => h a entry hentry trivial, fun h => h.on _⟩

theorem CoherentOn.within (h : CoherentOn P s) {α : Type} {x : InodeCache.CacheProg α} {a : α}
    (hkept : Within (InodeCache.EntriesKept fun a key value => P key → WalkEntry s a key value) x)
    (hrun : onCache x s = some (a, t)) : SameButCache s t ∧ CoherentOn P t := by
  obtain ⟨cache, hcache, rfl⟩ := zoom_eq_some_iff.mp hrun
  have hsame : SameButCache s { s with cache := cache } := ⟨cache, rfl⟩
  refine ⟨hsame, fun a entry hentry hkey hpos => ?_⟩
  exact (hsame.walk_eq _).trans (hkept _ _ _ hcache h a entry hentry hkey hpos)

private theorem getCacheEntry_walk (h : CoherentOn P s) (hpath : P path)
    (hget : onCache (InodeCache.getCacheEntry path) s = some (inum, t)) (hpos : inum.toInt > 0) :
    walk s path = some inum := by
  obtain ⟨cache, hcache, -⟩ := zoom_eq_some_iff.mp hget
  have hne : inum ≠ -1 := by
    rintro rfl
    exact absurd hpos (by decide)
  obtain ⟨_, hvalue⟩ := InodeCache.getCacheEntry_value h hcache hne
  exact hvalue hpath hpos

private theorem fromParent_walk {parentPath : CString} {parentInum : Int64} (h : CoherentOn P s)
    (hroot : path ≠ [slash]) (hparent : copyParentPath path = some parentPath)
    (hwalk : walk s parentPath = some parentInum)
    (hrun : fromParent path parentInum s = some (inum, t)) :
    walk s path = some inum ∧ CoherentOn P t := by
  have hstep : walk s path = _ := walk_step hroot hparent
  rw [hwalk, Option.bind_some] at hstep
  rw [fromParent] at hrun
  split at hrun
  next hmissing =>
    cases hrun
    rw [if_pos hmissing] at hstep
    exact ⟨hstep, h⟩
  next hfound =>
  rw [if_neg hfound] at hstep
  cases hname : copyFileName path with
  | none =>
      simp only [hname] at hrun hstep
      cases hrun
      exact ⟨hstep, h⟩
  | some name =>
      simp only [hname] at hrun hstep
      obtain ⟨found, s₁, hsearch, hrest⟩ := bind_eq_some_iff.mp hrun
      obtain ⟨rfl, hlookup⟩ := nameInDir_eq hsearch
      rw [hlookup] at hstep
      cases found with
      | none =>
          cases hrest
          exact ⟨hstep, h⟩
      | some value =>
          obtain ⟨done, s₂, hset, hrest⟩ := bind_eq_some_iff.mp hrest
          cases hrest
          obtain ⟨cache, hcache, rfl⟩ := zoom_eq_some_iff.mp hset
          refine ⟨hstep, fun a entry hentry hkey hpos => ?_⟩
          exact (SameButCache.walk_eq ⟨cache, rfl⟩ _).trans
            (InodeCache.setCacheEntry_kept h (fun _ _ _ => hstep) hcache a entry hentry hkey hpos)

/-- Only what the cache holds about a path and the directories on it matters. -/
theorem nameI_walkOn (hP : ∀ path parentPath, copyParentPath path = some parentPath → P path →
      P parentPath) (h : CoherentOn P s) (hpath : P path)
    (hrun : nameI path s = some (inum, t)) : walk s path = some inum ∧ CoherentOn P t := by
  induction hlength : path.length using Nat.strong_induction_on generalizing path inum s t with
  | _ n ih =>
      by_cases hroot : path = [slash]
      · rw [hroot, nameI_root] at hrun
        cases hrun
        rw [hroot]
        exact ⟨walk_root, h⟩
      cases hparent : copyParentPath path with
      | none =>
          rw [nameI_noParent hroot hparent] at hrun
          obtain ⟨value, s₁, hget, hrest⟩ := bind_eq_some_iff.mp hrun
          obtain ⟨-, hcoherent⟩ := h.within (InodeCache.getCacheEntry_kept path) hget
          split at hrest
          next hpos =>
            cases hrest
            exact ⟨getCacheEntry_walk h hpath hget hpos, hcoherent⟩
          next =>
            cases hrest
            exact ⟨walk_noParent hroot hparent, hcoherent⟩
      | some parentPath =>
          rw [nameI_step hroot hparent] at hrun
          obtain ⟨value, s₁, hget, hrest⟩ := bind_eq_some_iff.mp hrun
          obtain ⟨hsame₁, hcoherent₁⟩ := h.within (InodeCache.getCacheEntry_kept path) hget
          split at hrest
          next hpos =>
            cases hrest
            exact ⟨getCacheEntry_walk h hpath hget hpos, hcoherent₁⟩
          have hshorter := length_copyParentPath hparent
          obtain ⟨parentInum, s₂, hparentRun, hrest⟩ := bind_eq_some_iff.mp hrest
          obtain ⟨hwalk, hcoherent₂⟩ :=
            ih parentPath.length (by omega) hcoherent₁ (hP _ _ hparent hpath) hparentRun rfl
          have hsame₂ : SameButCache s s₂ :=
            trans_of SameButCache hsame₁ (nameI_sameButCache hparentRun)
          rw [hsame₁.walk_eq, ← hsame₂.walk_eq] at hwalk
          obtain ⟨hresult, hcoherent⟩ :=
            fromParent_walk hcoherent₂ hroot hparent hwalk hrest
          rw [hsame₂.walk_eq] at hresult
          exact ⟨hresult, hcoherent⟩

private theorem fromParent_coherentOn {parentInum : Int64} (h : CoherentOn P s) (hpath : ¬P path)
    (hrun : fromParent path parentInum s = some (inum, t)) : CoherentOn P t := by
  rw [fromParent] at hrun
  split at hrun
  next =>
    cases hrun
    exact h
  next =>
  cases hname : copyFileName path with
  | none =>
      simp only [hname] at hrun
      cases hrun
      exact h
  | some name =>
      simp only [hname] at hrun
      obtain ⟨found, s₁, hsearch, hrest⟩ := bind_eq_some_iff.mp hrun
      obtain ⟨rfl, -⟩ := nameInDir_eq hsearch
      cases found with
      | none =>
          cases hrest
          exact h
      | some value =>
          obtain ⟨done, s₂, hset, hrest⟩ := bind_eq_some_iff.mp hrest
          cases hrest
          obtain ⟨cache, hcache, rfl⟩ := zoom_eq_some_iff.mp hset
          intro a entry hentry hkey hpos
          exact (SameButCache.walk_eq ⟨cache, rfl⟩ _).trans (InodeCache.setCacheEntry_kept h
            (fun _ hpathP => absurd hpathP hpath) hcache a entry hentry hkey hpos)

/-- Resolving another path leaves what the cache holds about the paths of `P` right. -/
theorem nameI_coherentOn (hP : ∀ path parentPath, copyParentPath path = some parentPath → P path →
      P parentPath) (h : CoherentOn P s) (hrun : nameI path s = some (inum, t)) :
    CoherentOn P t := by
  induction hlength : path.length using Nat.strong_induction_on generalizing path inum s t with
  | _ n ih =>
      by_cases hpath : P path
      · exact (nameI_walkOn hP h hpath hrun).2
      by_cases hroot : path = [slash]
      · rw [hroot, nameI_root] at hrun
        cases hrun
        exact h
      cases hparent : copyParentPath path with
      | none =>
          rw [nameI_noParent hroot hparent] at hrun
          obtain ⟨value, s₁, hget, hrest⟩ := bind_eq_some_iff.mp hrun
          obtain ⟨-, hcoherent⟩ := h.within (InodeCache.getCacheEntry_kept path) hget
          split at hrest
          next =>
            cases hrest
            exact hcoherent
          next =>
            cases hrest
            exact hcoherent
      | some parentPath =>
          rw [nameI_step hroot hparent] at hrun
          obtain ⟨value, s₁, hget, hrest⟩ := bind_eq_some_iff.mp hrun
          obtain ⟨-, hcoherent₁⟩ := h.within (InodeCache.getCacheEntry_kept path) hget
          split at hrest
          next =>
            cases hrest
            exact hcoherent₁
          next =>
          have hshorter := length_copyParentPath hparent
          obtain ⟨parentInum, s₂, hparentRun, hrest⟩ := bind_eq_some_iff.mp hrest
          have hcoherent₂ := ih parentPath.length (by omega) hcoherent₁ hparentRun rfl
          exact fromParent_coherentOn hcoherent₂ hpath hrest

/-- With a coherent cache, `name_i` returns what the walk finds. -/
theorem nameI_walk (h : Coherent s) (hrun : nameI path s = some (inum, t)) :
    walk s path = some inum ∧ Coherent t := by
  obtain ⟨hwalk, hcoherent⟩ :=
    nameI_walkOn (P := fun _ => True) (fun _ _ _ _ => trivial) (h.on _) trivial hrun
  exact ⟨hwalk, coherentOn_true.mp hcoherent⟩

/-- What is found by a walk is found again when every record is. -/
theorem walk_found (hlookup : ∀ parentInum name value,
      lookupIn s parentInum name = some (some value) →
        lookupIn t parentInum name = some (some value))
    (hwalk : walk s path = some inum) (hfound : inum ≠ -1) : walk t path = some inum := by
  induction hlength : path.length using Nat.strong_induction_on generalizing path inum with
  | _ n ih =>
      by_cases hroot : path = [slash]
      · rw [hroot, walk_root] at hwalk ⊢
        exact hwalk
      cases hparent : copyParentPath path with
      | none =>
          rw [walk_noParent hroot hparent] at hwalk
          cases hwalk
          exact absurd rfl hfound
      | some parentPath =>
          have hshorter := length_copyParentPath hparent
          rw [walk_step hroot hparent] at hwalk ⊢
          obtain ⟨parentInum, hparentWalk, hrest⟩ := Option.bind_eq_some_iff.mp hwalk
          split at hrest
          next =>
            cases hrest
            exact absurd rfl hfound
          next hparentFound =>
          rw [ih parentPath.length (by omega) hparentWalk hparentFound rfl, Option.bind_some,
            if_neg hparentFound]
          cases hname : copyFileName path with
          | none =>
              rw [hname] at hrest
              exact hrest
          | some name =>
              simp only [hname] at hrest ⊢
              obtain ⟨found, hsearch, hvalue⟩ := Option.map_eq_some_iff.mp hrest
              cases found with
              | none => exact absurd hvalue.symm hfound
              | some value =>
                  rw [hlookup _ _ _ hsearch, Option.map_some, hvalue]

theorem Coherent.mono (h : Coherent s) (hcache : t.cache = s.cache)
    (hlookup : ∀ parentInum name value, lookupIn s parentInum name = some (some value) →
      lookupIn t parentInum name = some (some value)) : Coherent t := by
  intro a entry hentry hpos
  rw [hcache] at hentry
  refine walk_found hlookup (h a entry hentry hpos) fun hnone => ?_
  rw [hnone] at hpos
  exact absurd hpos (by decide)

/-- The cache is coherent and intact, and takes `room` more entries without an eviction. -/
structure Ready (s : FileSystem) (room : Nat) : Prop where
  coherent : Coherent s
  inv : ∃ nodes, s.cache.CacheInv nodes
  room : s.cache.size + room ≤ s.cache.capacity

theorem Ready.roomy {k : Nat} (h : Ready s k) : s.cache.Roomy k := ⟨h.inv, h.room⟩

theorem Ready.mono {k k' : Nat} (h : Ready s k) (hle : k' ≤ k) : Ready s k' :=
  ⟨h.coherent, h.inv, by have := h.room; omega⟩

omit [Config] in
theorem onCache_run {α : Type} {x : InodeCache.CacheProg α} {a : α} {cache : InodeCache}
    (h : x s.cache = some (a, cache)) : onCache x s = some (a, { s with cache := cache }) := by
  rw [onCache, zoom, h]
  rfl

/-- The cache of `t` holds what that of `s` does, and the path when it has been found. -/
structure Remembered (s : FileSystem) (path : CString) (inum : Int64) (t : FileSystem) : Prop where
  kept : ∀ key, s.cache.Holds key → t.cache.Holds key
  found : inum ≠ -1 → path ≠ [slash] → t.cache.Holds path

private theorem fromParent_run {k : Nat} {parentPath : CString} {parentInum : Int64}
    (h : s.cache.Roomy (k + 1)) (hroot : path ≠ [slash])
    (hparent : copyParentPath path = some parentPath)
    (hparentWalk : walk s parentPath = some parentInum) (hwalk : walk s path = some inum) :
    ∃ t, fromParent path parentInum s = some (inum, t) ∧ t.cache.Roomy k ∧
      Remembered s path inum t := by
  have hroomy := h.mono (Nat.le_succ k)
  have hnone : ∀ {inum}, inum = -1 → Remembered s path inum s := fun hinum =>
    ⟨fun _ => id, fun hfound => absurd hinum hfound⟩
  have hpath : path ≠ [] := by
    rintro rfl
    cases hparent
  have hstep := walk_step (s := s) hroot hparent
  rw [hwalk, hparentWalk, Option.bind_some] at hstep
  rw [fromParent]
  split at hstep
  next hmissing =>
    cases hstep
    rw [if_pos hmissing]
    exact ⟨s, rfl, hroomy, hnone rfl⟩
  next hfound =>
  rw [if_neg hfound]
  cases hname : copyFileName path with
  | none =>
      simp only [hname] at hstep
      cases hstep
      exact ⟨s, rfl, hroomy, hnone rfl⟩
  | some name =>
      simp only [hname] at hstep
      obtain ⟨found, hlookup, hvalue⟩ := Option.map_eq_some_iff.mp hstep.symm
      have hsearch := nameInDir_run hlookup
      cases found with
      | none =>
          obtain rfl : -1 = inum := hvalue
          exact ⟨s, bind_of_eq hsearch, hroomy, hnone rfl⟩
      | some value =>
          obtain rfl : value = inum := hvalue
          obtain ⟨cache, hset, hroomy', hkept, hheld⟩ := h.setCacheEntry hpath value
          refine ⟨{ s with cache := cache }, (bind_of_eq hsearch).trans ?_, hroomy', hkept,
            fun _ _ => hheld⟩
          exact bind_of_eq (onCache_run hset)

/-- With room in the cache, `name_i` ends, returns what the walk finds and remembers it. -/
theorem nameI_remembered {k : Nat} (hP : ∀ path parentPath, copyParentPath path = some parentPath →
      P path → P parentPath) (hcoherent : CoherentOn P s) (hpath : P path)
    (h : s.cache.Roomy (path.length + k)) (hwalk : walk s path = some inum) :
    ∃ t, nameI path s = some (inum, t) ∧ t.cache.Roomy k ∧ Remembered s path inum t := by
  induction hlength : path.length using Nat.strong_induction_on
    generalizing path inum s k with
  | _ n ih =>
      by_cases hroot : path = [slash]
      · rw [hroot, walk_root] at hwalk
        cases hwalk
        refine ⟨s, ?_, h.mono (by omega), fun _ => id, fun _ hne => absurd hroot hne⟩
        rw [hroot, nameI_root]
        rfl
      obtain ⟨value, cache, hget, hroomy₁, hkept₁, hheld₁⟩ := h.getCacheEntry path
      have hget := onCache_run hget
      obtain ⟨hsame₁, hcoherent₁⟩ := hcoherent.within (InodeCache.getCacheEntry_kept path) hget
      by_cases hpos : value.toInt > 0
      · obtain rfl : value = inum := by
          simpa [hwalk] using (getCacheEntry_walk hcoherent hpath hget hpos).symm
        refine ⟨{ s with cache := cache }, ?_, hroomy₁.mono (by omega), hkept₁,
          fun _ _ => hheld₁ hpos⟩
        cases hparent : copyParentPath path with
        | none => rw [nameI_noParent hroot hparent, bind_of_eq hget, if_pos hpos, pure_apply]
        | some parentPath =>
            rw [nameI_step hroot hparent, bind_of_eq hget, if_pos hpos, pure_apply]
      cases hparent : copyParentPath path with
      | none =>
          rw [walk_noParent hroot hparent] at hwalk
          cases hwalk
          refine ⟨{ s with cache := cache }, ?_, hroomy₁.mono (by omega), hkept₁,
            fun hne => absurd rfl hne⟩
          rw [nameI_noParent hroot hparent, bind_of_eq hget, if_neg hpos, pure_apply]
      | some parentPath =>
          have hshorter := length_copyParentPath hparent
          have hstep := walk_step (s := s) hroot hparent
          rw [hwalk] at hstep
          obtain ⟨parentInum, hparentWalk, -⟩ := Option.bind_eq_some_iff.mp hstep.symm
          rw [← hsame₁.walk_eq] at hwalk hparentWalk
          obtain ⟨s₂, hparentRun, hroomy₂, hremembered₂⟩ := ih parentPath.length (by omega)
            (k := k + 1) hcoherent₁ (hP _ _ hparent hpath) (hroomy₁.mono (by omega)) hparentWalk rfl
          have hsame₂ := nameI_sameButCache hparentRun
          rw [← hsame₂.walk_eq] at hwalk hparentWalk
          obtain ⟨t, hrest, hroomy₃, hremembered₃⟩ :=
            fromParent_run hroomy₂ hroot hparent hparentWalk hwalk
          refine ⟨t, ?_, hroomy₃,
            fun key hkey => hremembered₃.kept key (hremembered₂.kept key (hkept₁ key hkey)),
            hremembered₃.found⟩
          rw [nameI_step hroot hparent, bind_of_eq hget, if_neg hpos, bind_of_eq hparentRun, hrest]

theorem nameI_run {k : Nat} (h : Ready s (path.length + k)) (hwalk : walk s path = some inum) :
    ∃ t, nameI path s = some (inum, t) ∧ SameButCache s t ∧ Ready t k := by
  obtain ⟨t, hname, hroomy, -⟩ := nameI_remembered (P := fun _ => True) (fun _ _ _ _ => trivial)
    (h.coherent.on _) trivial h.roomy hwalk
  exact ⟨t, hname, nameI_sameButCache hname, (nameI_walk h.coherent hname).2, hroomy.inv, hroomy.room⟩

end

end AltFs
