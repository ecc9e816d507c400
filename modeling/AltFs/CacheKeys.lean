import AltFs.Intact
import AltFs.Paths
import AltFs.Preserved

/-!
# The paths in the cache

Only `name_i` puts a path into the cache: the one it is called with and its
parents.  So the keys of the cache stay in every set of paths that holds those
of the calls and is closed under parents.
-/

namespace AltFs

open Prog

variable [Config]

section Blocks

variable {R : FileSystem → FileSystem → Prop} [IsPreorder FileSystem R]
  (hread : ∀ b, Within R (altfsReadBlock b))
  (hwrite : ∀ b block, Within R (altfsWriteBlock b block))
  (hsuperblock : ∀ s superblock, R s { s with superblock := superblock })

include hread hwrite hsuperblock

omit hread in
private theorem setFirstIno_of_blocks (inum : Int) : Within R (setFirstIno inum) :=
  .bind (.modify fun s => hsuperblock s _) fun _ =>
    .bind (.bind .get fun _ => hwrite _ _) fun _ => .pure ()

private theorem allocateDataBlock_of_blocks : Within R allocateDataBlock := by
  refine .bind .get fun s => .ite (.pure _) (.bind (hread _) fun buffer => ?_)
  cases buffer with
  | none => exact .pure _
  | some buffer =>
      cases hslot : firstSlot (· ≠ 0) buffer with
      | some i =>
          simp only [hslot]
          exact .bind (hwrite _ _) fun _ => .ite (.pure _) (.bind (hwrite _ _) fun _ => .pure _)
      | none =>
          simp only [hslot]
          refine .bind (.modify fun s => hsuperblock s _) fun _ => ?_
          refine .bind (.bind .get fun _ => hwrite _ _) fun _ => .ite (.pure _) ?_
          exact .bind (hwrite _ _) fun _ => .ite (.pure _) (.bind (hwrite _ _) fun _ => .pure _)

private theorem freeDataBlock_of_blocks (b : Int64) : Within R (freeDataBlock b) := by
  have hhead : Within R (Prog.modify fun s => s.setFreelistHead b) :=
    .modify fun s => hsuperblock s _
  have hstore : Within R altfsWriteSuperblock := .bind .get fun _ => hwrite _ _
  refine .ite (.pure _) (.bind (.bind .get fun _ => .ite (.pure _) ?_) fun _ => .ite (.pure _) ?_)
  · exact .bind hhead fun _ => hstore
  · refine .bind .get fun s => .bind (hread _) fun buffer => ?_
    cases buffer with
    | none => exact .pure _
    | some buffer =>
        cases hslot : firstSlot (· = 0) buffer with
        | some i =>
            simp only [hslot]
            exact hwrite _ _
        | none =>
            simp only [hslot]
            exact .bind hhead fun _ => .bind hstore fun _ => .ite (.pure _) (hwrite _ _)

omit hwrite hsuperblock in
private theorem searchFreeInode_of_reads (inodesLeft : Int) (fuel : Nat) (buffer : Block)
    (blockNum : Int) (offset : Nat) (visited : Int) :
    Within R (searchFreeInode inodesLeft fuel buffer blockNum offset visited) := by
  induction fuel generalizing buffer blockNum offset visited with
  | zero => exact .pure _
  | succ fuel ih =>
      refine .ite (.pure _) (.bind .get fun s => ?_)
      dsimp only
      split
      · exact .pure _
      · refine .ite (.pure _) (.bind (hread _) fun buffer => ?_)
        cases buffer with
        | none => exact .pure _
        | some buffer => exact ih _ _ _ _

private theorem allocateInode_of_blocks : Within R allocateInode := by
  refine .bind .get fun s => .ite (.pure _) (.ite (.pure _) (.bind (hread _) fun buffer => ?_))
  cases buffer with
  | none => exact .pure _
  | some buffer =>
      refine .ite (.pure _) (.bind (hwrite _ _) fun _ => .ite (.pure _) ?_)
      refine .bind (searchFreeInode_of_reads hread _ _ _ _ _ _) fun found => ?_
      cases found with
      | none => exact .bind (setFirstIno_of_blocks hwrite hsuperblock _) fun _ => .pure _
      | some visited =>
          exact .bind (setFirstIno_of_blocks hwrite hsuperblock _) fun _ => .pure _

/-- What reading and writing blocks and changing the superblock keep, the primitives keep. -/
theorem writes_of_blocks (hclock : ∀ s clock, R s { s with clock := clock }) : Writes R where
  altfsReadBlock := hread
  allocateDataBlock := allocateDataBlock_of_blocks hread hwrite hsuperblock
  freeDataBlock := freeDataBlock_of_blocks hread hwrite hsuperblock
  writeDataBlock _ _ := .ite (.pure _) (hwrite _ _)
  allocateInode := allocateInode_of_blocks hread hwrite hsuperblock
  writeInode inum node := by
    refine .bind .get fun s => .ite (.pure _) (.bind (hread _) fun buffer => ?_)
    cases buffer with
    | none => exact .pure _
    | some buffer => exact hwrite _ _
  freeInode inum := by
    refine .bind .get fun s => .ite (.pure _) (.bind (hread _) fun buffer => ?_)
    cases buffer with
    | none => exact .pure _
    | some buffer =>
        refine .bind (freeDataBlocksInInode_within hread
          (freeDataBlock_of_blocks hread hwrite hsuperblock) _) fun _ => .ite (.pure _) ?_
        refine .bind (hwrite _ _) fun _ => .ite (.pure _) (.bind .get fun _ => ?_)
        exact .bind (setFirstIno_of_blocks hwrite hsuperblock _) fun _ => .pure _
  currentTime s _ t hrun := by
    cases hrun
    exact hclock s _

end Blocks

theorem writes_cacheKept : Writes CacheKept := by
  apply writes_of_blocks
  · intro b s buffer t hrun
    rw [altfsReadBlock_cases hrun]
    exact refl_of CacheKept s
  · intro b block s ok t hrun
    rcases altfsWriteBlock_cases hrun with rfl | rfl
    · exact refl_of CacheKept _
    · rfl
  · exact fun _ _ => rfl
  · exact fun _ _ => rfl

/-! ## Removing a path -/

namespace InodeCache

variable {cache cache' : InodeCache} {key : CString} {node : Nat}

/-- At most one node holds the key. -/
def OneNode (key : CString) (cache : InodeCache) : Prop :=
  ∀ a b entry other, cache.heap a = some entry → cache.heap b = some other →
    entry.key = key → other.key = key → a = b

omit [Config] in
private theorem deleteNode_freed (hrun : deleteNode node cache = some ((), cache')) :
    cache'.heap node = none := by
  let Freed : InodeCache → InodeCache → Prop := fun _ t => t.heap node = none
  have hbind : ∀ {α β : Type} {x : CacheProg α} {f : α → CacheProg β},
      (∀ a, Within Freed (f a)) → Within Freed (x >>= f) := fun hf s b t h => by
    obtain ⟨a, u, -, hrest⟩ := bind_eq_some_iff.mp h
    exact hf a u b t hrest
  have hfree : Within Freed (freeCacheEntry node) :=
    hbind fun _ => .modify fun _ => if_pos rfl
  refine (?_ : Within Freed (deleteNode node)) cache () cache' hrun
  unfold deleteNode
  refine hbind fun cache => hbind fun entry => ?_
  refine .ite (hbind fun _ => ?_) (.ite (hbind fun _ => ?_) ?_)
  all_goals refine .ite ?_ (hbind fun _ => ?_)
  all_goals exact .ite hfree (hbind fun _ => hfree)

omit [Config] in
theorem removeCacheEntry_absent (hone : OneNode key cache)
    (hrun : removeCacheEntry key cache = some (true, cache')) :
    AllEntries (fun _ other _ => other ≠ key) cache' := by
  have hremove := hrun
  obtain ⟨found, s, hfind, hrest⟩ := bind_eq_some_iff.mp hrun
  obtain ⟨rfl, hentry⟩ := findFromBucket_found hfind
  cases found with
  | none => cases hrest
  | some curr =>
      obtain ⟨entry, hcurr, hkey⟩ := hentry curr rfl
      obtain ⟨_, u, hdelete, hrest⟩ := bind_eq_some_iff.mp hrest
      cases hrest
      -- every node of the key is the one that is deleted
      have hall : AllEntries (fun a other _ => other = key → a = curr) s :=
        fun a other ha hother => hone a curr other entry ha hcurr hother hkey
      intro a other ha hother
      have heq := removeCacheEntry_kept key _ _ _ hremove hall a other ha hother
      subst heq
      rw [show u.heap a = none from deleteNode_freed hdelete] at ha
      cases ha

end InodeCache

/-! ## The keys -/

def KeysIn (P : CString → Prop) (s : FileSystem) : Prop := s.cache.AllEntries fun _ key _ => P key

def KeysKept (P : CString → Prop) (s t : FileSystem) : Prop := KeysIn P s → KeysIn P t

instance (P : CString → Prop) : IsPreorder FileSystem (KeysKept P) where
  refl _ h := h
  trans _ _ _ h h' hs := h' (h hs)

section Keys

variable {P : CString → Prop} {s t : FileSystem} {path parentPath : CString}

omit [Config] in
private theorem onCache_keysKept {α : Type} {x : InodeCache.CacheProg α}
    (hkept : Within (InodeCache.EntriesKept fun _ key _ => P key) x) :
    Within (KeysKept P) (onCache x) :=
  .zoom hkept fun _ _ h => h

private theorem fromParent_keysKept (hpath : P path) (parentInum : Int64) :
    Within (KeysKept P) (fromParent path parentInum) := by
  refine .ite (.pure _) ?_
  split
  · exact .pure _
  next childPath _ =>
  refine .bind (?_ : Within (KeysKept P) (nameInDir parentInum childPath)) fun found => ?_
  · intro s found t hrun
    obtain ⟨rfl, -⟩ := nameInDir_eq hrun
    exact refl_of (KeysKept P) _
  · cases found with
    | none => exact .pure _
    | some inum =>
        refine .bind (onCache_keysKept fun cache _ cache' hset hentries => ?_) fun _ => .pure _
        exact InodeCache.setCacheEntry_kept hentries (fun _ => hpath) hset

theorem nameI_keysKept
    (hP : ∀ {path parentPath}, copyParentPath path = some parentPath → P path → P parentPath)
    (hpath : P path) : Within (KeysKept P) (nameI path) := by
  induction hlength : path.length using Nat.strong_induction_on generalizing path with
  | _ n ih =>
      have hget : Within (KeysKept P) (onCache (InodeCache.getCacheEntry path)) :=
        onCache_keysKept (InodeCache.getCacheEntry_kept path)
      by_cases hroot : path = [slash]
      · rw [hroot, nameI_root]
        exact .pure _
      cases hparent : copyParentPath path with
      | none =>
          rw [nameI_noParent hroot hparent]
          exact .bind hget fun _ => .ite (.pure _) (.pure _)
      | some parentPath =>
          have hshorter := length_copyParentPath hparent
          rw [nameI_step hroot hparent]
          refine .bind hget fun _ => .ite (.pure _) ?_
          exact .bind (ih parentPath.length (by omega) (hP hparent hpath) rfl) fun _ =>
            fromParent_keysKept hpath _

/-- An operation adds no path to the cache but its own ones and their parents. -/
theorem operations_keysKept
    (hP : ∀ {path parentPath}, copyParentPath path = some parentPath → P path → P parentPath) :
    Operations P (KeysKept P) := by
  have hmono : ∀ {α : Type} {x : Fs α}, Within CacheKept x → Within (KeysKept P) x := fun hx =>
    hx.mono fun s t hcache h => by
      rw [KeysIn, show t.cache = s.cache from hcache]
      exact h
  refine ⟨⟨fun b => hmono (writes_cacheKept.altfsReadBlock b),
    hmono writes_cacheKept.allocateDataBlock, fun b => hmono (writes_cacheKept.freeDataBlock b),
    fun b block => hmono (writes_cacheKept.writeDataBlock b block),
    hmono writes_cacheKept.allocateInode,
    fun inum node => hmono (writes_cacheKept.writeInode inum node),
    fun inum => hmono (writes_cacheKept.freeInode inum), hmono writes_cacheKept.currentTime⟩,
    hP, nameI_keysKept hP, fun _ => ?_, ?_⟩
  · exact onCache_keysKept (InodeCache.removeCacheEntry_kept _)
  · refine .bind (onCache_keysKept InodeCache.freeInodeCache_kept) fun _ => ?_
    refine .ite (.modify fun s _ => ?_) (.pure _)
    exact InodeCache.allEntries_createInodeCache _

end Keys

end AltFs
