import AltFs.CacheList
import AltFs.Lib.Within

/-!
# The entries on the heap of the cache

Whatever the list and the bucket pointers look like: a call that ends leaves no
entry on the heap but those that were there and the one it was given.
-/

namespace AltFs

namespace InodeCache

open Prog

/-- Every node on the heap, in the list or not, satisfies `P`. -/
def AllEntries (P : Nat → CString → Int64 → Prop) (cache : InodeCache) : Prop :=
  ∀ a entry, cache.heap a = some entry → P a entry.key entry.value

variable {P : Nat → CString → Int64 → Prop} {key : CString} {value : Int64}

/-- The relation of a program that brings in no entry without `P`. -/
def EntriesKept (P : Nat → CString → Int64 → Prop) (cache cache' : InodeCache) : Prop :=
  AllEntries P cache → AllEntries P cache'

instance : IsPreorder InodeCache (EntriesKept P) where
  refl _ h := h
  trans _ _ _ h h' hs := h' (h hs)

theorem allEntries_createInodeCache (capacity : Nat) : AllEntries P (createInodeCache capacity) := by
  intro a entry hentry
  cases hentry

private theorem deref_cases {address : Option Nat} {cache cache' : InodeCache} {entry : CacheEntry}
    (h : deref address cache = some (entry, cache')) :
    cache' = cache ∧ ∃ a, address = some a ∧ cache.heap a = some entry := by
  cases address with
  | none => cases h
  | some a =>
      obtain ⟨entry', hentry, heq⟩ := Option.map_eq_some_iff.mp h
      cases heq
      exact ⟨rfl, a, rfl, hentry⟩

private theorem deref_kept (address : Option Nat) : Within (EntriesKept P) (deref address) := by
  intro cache entry cache' h
  obtain ⟨rfl, -⟩ := deref_cases h
  exact refl_of (EntriesKept P) _

private theorem update_kept {address : Option Nat} {f : CacheEntry → CacheEntry}
    (hf : ∀ a entry, address = some a → P a entry.key entry.value →
      P a (f entry).key (f entry).value) : Within (EntriesKept P) (update address f) := by
  intro cache result cache' h hall
  obtain ⟨entry, t, hderef, hrest⟩ := bind_eq_some_iff.mp h
  obtain ⟨rfl, a, rfl, hentry⟩ := deref_cases hderef
  cases hrest
  intro a' entry' hentry'
  dsimp only at hentry'
  split at hentry'
  next heq =>
    cases heq
    cases hentry'
    exact hf a entry rfl (hall a entry hentry)
  next => exact hall a' entry' hentry'

private theorem setPrev_kept (address value : Option Nat) :
    Within (EntriesKept P) (setPrev address value) :=
  update_kept fun _ _ _ h => h

private theorem setNext_kept (address value : Option Nat) :
    Within (EntriesKept P) (setNext address value) :=
  update_kept fun _ _ _ h => h

/-- The pointers outside the heap do not matter. -/
private theorem modify_kept {f : InodeCache → InodeCache} (h : ∀ cache, (f cache).heap = cache.heap) :
    Within (EntriesKept P) (Prog.modify f) :=
  .modify fun cache hall a entry hentry => hall a entry (h cache ▸ hentry)

private theorem freeCacheEntry_kept (address : Nat) :
    Within (EntriesKept P) (freeCacheEntry address) := by
  refine .bind (deref_kept _) fun _ => .modify fun cache hall a entry hentry => ?_
  dsimp only at hentry
  split at hentry
  · cases hentry
  · exact hall a entry hentry

private theorem findEntry_found {fuel : Nat} {start : Option Nat}
    {cache cache' : InodeCache} {found : Option Nat}
    (h : findEntry key fuel start cache = some (found, cache')) :
    cache' = cache ∧ ∀ a, found = some a → ∃ entry, cache.heap a = some entry ∧ entry.key = key := by
  induction fuel generalizing start with
  | zero =>
      cases start with
      | none =>
          cases h
          exact ⟨rfl, by simp⟩
      | some a => cases h
  | succ fuel ih =>
      cases start with
      | none =>
          cases h
          exact ⟨rfl, by simp⟩
      | some a =>
          obtain ⟨entry, t, hderef, hrest⟩ := bind_eq_some_iff.mp h
          obtain ⟨rfl, a', ha, hentry⟩ := deref_cases hderef
          cases ha
          split at hrest
          next hkey =>
            cases hrest
            refine ⟨rfl, fun b hb => ?_⟩
            cases hb
            exact ⟨entry, hentry, hkey⟩
          next => exact ih hrest

theorem findFromBucket_found {cache cache' : InodeCache} {found : Option Nat}
    (h : findFromBucket key cache = some (found, cache')) :
    cache' = cache ∧ ∀ a, found = some a → ∃ entry, cache.heap a = some entry ∧ entry.key = key :=
  findEntry_found h

private theorem findFromBucket_kept (key : CString) :
    Within (EntriesKept P) (findFromBucket key) := by
  intro cache found cache' h
  obtain ⟨rfl, -⟩ := findFromBucket_found h
  exact refl_of (EntriesKept P) _

private theorem moveToFront_kept (curr : Nat) : Within (EntriesKept P) (moveToFront curr) := by
  refine .bind .get fun _ => .ite (.pure ()) ?_
  refine .bind (deref_kept _) fun entry => .bind (setNext_kept _ _) fun _ => .bind .get fun cache => ?_
  refine .ite (.bind (modify_kept fun _ => rfl) fun _ => ?_) (.bind (setPrev_kept _ _) fun _ => ?_)
  all_goals
    refine .bind (setPrev_kept _ _) fun _ => .bind (setNext_kept _ _) fun _ => ?_
    exact .bind (setPrev_kept _ _) fun _ => modify_kept fun _ => rfl

private theorem deleteNode_kept (node : Nat) : Within (EntriesKept P) (deleteNode node) := by
  unfold deleteNode
  refine .bind .get fun cache => .bind (deref_kept _) fun entry => ?_
  refine .ite (.bind (modify_kept fun _ => rfl) fun _ => ?_)
    (.ite (.bind (modify_kept fun _ => rfl) fun _ => ?_) ?_)
  all_goals
    refine .ite ?_ (.bind (setNext_kept _ _) fun _ => ?_)
    all_goals
      refine .ite ?_ (.bind (setPrev_kept _ _) fun _ => ?_)
      all_goals exact freeCacheEntry_kept node

theorem removeCacheEntry_kept (key : CString) : Within (EntriesKept P) (removeCacheEntry key) := by
  refine .bind (findFromBucket_kept key) fun found => ?_
  cases found with
  | none => exact .pure false
  | some curr =>
      refine .bind (deleteNode_kept curr) fun _ => .bind .get fun cache => ?_
      exact .bind (modify_kept fun _ => rfl) fun _ => .pure true

theorem freeInodeCache_kept : Within (EntriesKept P) freeInodeCache := by
  have hlist : ∀ fuel node, Within (EntriesKept P) (freeList fuel node) := by
    intro fuel
    induction fuel with
    | zero =>
        intro node
        cases node with
        | none => exact .pure ()
        | some node => exact .stuck
    | succ fuel ih =>
        intro node
        cases node with
        | none => exact .pure ()
        | some node =>
            exact .bind (deref_kept _) fun entry => .bind (freeCacheEntry_kept _) fun _ => ih _
  exact .bind .get fun cache => hlist _ _

private theorem evict_kept : Within (EntriesKept P) evict := by
  refine .bind .get fun cache => .ite ?_ (.pure ())
  split
  · exact .stuck
  · exact .bind (deleteNode_kept _) fun _ => modify_kept fun _ => rfl

private theorem pushFront_kept (h : ∀ a, P a key value) :
    Within (EntriesKept P) (pushFront key value) := by
  unfold pushFront
  refine .bind .get fun cache => .bind (.modify fun cache hall a entry hentry => ?_) fun _ => ?_
  · dsimp only at hentry
    split at hentry
    · cases hentry
      exact h a
    · exact hall a entry hentry
  refine .ite ?_ (.bind (setPrev_kept _ _) fun _ => ?_)
  all_goals
    refine .bind (modify_kept fun _ => rfl) fun _ => ?_
    exact .ite (.bind (modify_kept fun _ => rfl) fun _ => .pure _) (.pure _)

theorem getCacheEntry_kept (key : CString) : Within (EntriesKept P) (getCacheEntry key) := by
  refine .ite (.pure _) (.bind (findFromBucket_kept key) fun found => ?_)
  cases found with
  | none => exact .pure _
  | some curr =>
      exact .bind (moveToFront_kept curr) fun _ => .bind (deref_kept _) fun entry => .pure _

/-- The entry found has the key that was searched for. -/
private theorem AllEntries.found {cache : InodeCache} {curr : Nat} (h : AllEntries P cache)
    (hfind : ∃ entry, cache.heap curr = some entry ∧ entry.key = key) :
    AllEntries (fun a key' value => P a key' value ∧ (a = curr → key' = key)) cache := by
  intro a entry hentry
  refine ⟨h a entry hentry, ?_⟩
  rintro rfl
  obtain ⟨entry', hentry', hkey⟩ := hfind
  cases hentry.symm.trans hentry'
  exact hkey

/-- A lookup that succeeds returns the value of an entry with the key. -/
theorem getCacheEntry_value {cache cache' : InodeCache} (h : AllEntries P cache)
    (hrun : getCacheEntry key cache = some (value, cache')) (hne : value ≠ -1) :
    ∃ a, P a key value := by
  rw [getCacheEntry] at hrun
  split at hrun
  · cases hrun
    exact absurd rfl hne
  obtain ⟨found, t, hfind, hrest⟩ := bind_eq_some_iff.mp hrun
  obtain ⟨rfl, hfound⟩ := findFromBucket_found hfind
  cases found with
  | none =>
      cases hrest
      exact absurd rfl hne
  | some curr =>
      obtain ⟨_, u, hmove, hread⟩ := bind_eq_some_iff.mp hrest
      obtain ⟨entry, v, hderef, hvalue⟩ := bind_eq_some_iff.mp hread
      obtain ⟨rfl, a, ha, hentry⟩ := deref_cases hderef
      cases ha
      cases hvalue
      have hall := moveToFront_kept curr _ _ _ hmove (h.found (hfound curr rfl)) curr entry hentry
      refine ⟨curr, ?_⟩
      rw [← hall.2 rfl]
      exact hall.1

theorem setCacheEntry_kept {cache cache' : InodeCache} (h : AllEntries P cache)
    (hnew : ∀ a, P a key value) (hrun : setCacheEntry key value cache = some ((), cache')) :
    AllEntries P cache' := by
  rw [setCacheEntry] at hrun
  split at hrun
  · cases hrun
    exact h
  obtain ⟨found, t, hfind, hrest⟩ := bind_eq_some_iff.mp hrun
  obtain ⟨rfl, hfound⟩ := findFromBucket_found hfind
  cases found with
  | none =>
      refine (?_ : Within (EntriesKept P) _) t () cache' hrest h
      refine .bind (pushFront_kept hnew) fun node => .bind (modify_kept fun _ => rfl) fun _ => ?_
      exact .bind evict_kept fun _ => .bind .get fun _ => modify_kept fun _ => rfl
  | some curr =>
      have hupdate : Within (EntriesKept fun a key' value => P a key' value ∧ (a = curr → key' = key))
          (update (some curr) fun entry => { entry with value := value }) := by
        refine update_kept fun a entry ha hentry => ?_
        cases ha
        refine ⟨?_, hentry.2⟩
        rw [hentry.2 rfl]
        exact hnew curr
      have hall := Within.bind hupdate (fun _ => moveToFront_kept curr) t () cache' hrest
        (h.found (hfound curr rfl))
      exact fun a entry hentry => (hall a entry hentry).1

end InodeCache

end AltFs
