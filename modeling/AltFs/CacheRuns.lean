import AltFs.CacheCalls
import AltFs.Lib.Runs
import Mathlib.Logic.Function.Basic

/-!
# Runs of the inode cache

Clients set, get and remove entries in any order.  The calls are judged by
`latest`: what each key was set to last, unless it was removed since.
-/

namespace AltFs

inductive CacheCall where
  | set (key : CString) (value : Int64)
  | get (key : CString)
  | remove (key : CString)

structure CacheHistory where
  cache : InodeCache
  latest : CString → Option Int64

namespace CacheHistory

open InodeCache

/-- Nothing results when the call dereferences a pointer that is not live. -/
def call (st : CacheHistory) : CacheCall → Option CacheHistory
  | .set key value =>
      (setCacheEntry key value st.cache).map fun r =>
        ⟨r.2, Function.update st.latest key (some value)⟩
  | .get key => (getCacheEntry key st.cache).map fun r => ⟨r.2, st.latest⟩
  | .remove key =>
      (removeCacheEntry key st.cache).map fun r =>
        ⟨r.2, if r.1 then Function.update st.latest key none else st.latest⟩

def start (capacity : Nat) : CacheHistory where
  cache := createInodeCache capacity
  latest := fun _ => none

def Step (st : CacheHistory) (call : CacheCall) (st' : CacheHistory) : Prop :=
  st.call call = some st'

def Misses (st : CacheHistory) (key : CString) : Prop :=
  findFromBucket key st.cache = some (none, st.cache)

/-- No other bucket points to the node that inserting `key` would evict. -/
def EvictsUnused (st : CacheHistory) (key : CString) : Prop :=
  st.cache.capacity ≤ st.cache.size →
    ∀ index, index ≠ st.cache.hashIndex key → st.cache.map index ≠ st.cache.tail

/-- There is room for `key`, or the last node shares its bucket. -/
def EvictsOwnBucket (st : CacheHistory) (key : CString) : Prop :=
  st.cache.size < st.cache.capacity ∨
    (st.cache.tail.bind st.cache.keyOf).map st.cache.hashIndex = some (st.cache.hashIndex key)

instance (st : CacheHistory) (key : CString) : Decidable (st.EvictsOwnBucket key) :=
  inferInstanceAs (Decidable (_ ∨ _))

/-- The calls that leave no pointer behind to a node that is gone. -/
def LeavesNoDangling (st : CacheHistory) : CacheCall → Prop
  | .set key _ => key ≠ [] → st.Misses key → st.EvictsUnused key
  | .get _ => True
  | .remove key => ∀ node, findFromBucket key st.cache = some (some node, st.cache) →
      st.cache.nodes ≠ [node]

/-- What a call can do to the list and to what it is judged by. -/
inductive Change (st : CacheHistory) (nodes : List Nat) :
    CacheCall → CacheHistory → List Nat → Prop
  | ignored (value : Int64) :
      Change st nodes (.set [] value)
        ⟨st.cache, Function.update st.latest [] (some value)⟩ nodes
  | replaced {key : CString} {value : Int64} {cache' : InodeCache} {nodes' : List Nat}
      {node : Nat} (hmem : node ∈ nodes) (hkey : st.cache.keyOf node = some key)
      (hperm : nodes'.Perm nodes) (hkeyOf : ∀ a, cache'.keyOf a = st.cache.keyOf a)
      (hnode : cache'.valueOf node = some value)
      (hvalueOf : ∀ a, a ≠ node → cache'.valueOf a = st.cache.valueOf a)
      (hsize : cache'.size = st.cache.size) :
      Change st nodes (.set key value)
        ⟨cache', Function.update st.latest key (some value)⟩ nodes'
  | inserted {key : CString} {value : Int64} {cache' : InodeCache} {kept : List Nat}
      (hmiss : st.Misses key) (hne : key ≠ [])
      (hinserted : Inserted st.cache cache' nodes kept key value) :
      Change st nodes (.set key value)
        ⟨cache', Function.update st.latest key (some value)⟩ (st.cache.brk :: kept)
  | read {key : CString} {cache' : InodeCache} {nodes' : List Nat}
      (hperm : nodes'.Perm nodes) (hkeyOf : ∀ a, cache'.keyOf a = st.cache.keyOf a)
      (hvalueOf : ∀ a, cache'.valueOf a = st.cache.valueOf a)
      (hsize : cache'.size = st.cache.size) :
      Change st nodes (.get key) ⟨cache', st.latest⟩ nodes'
  | removed {key : CString} {cache' : InodeCache} {node : Nat} (hmem : node ∈ nodes)
      (hkey : st.cache.keyOf node = some key) (hfind : ¬st.Misses key)
      (hremoved : Removed st.cache cache' nodes node key) :
      Change st nodes (.remove key) ⟨cache', Function.update st.latest key none⟩
        (nodes.erase node)
  | absent (key : CString) : Change st nodes (.remove key) st nodes

variable {st st' : CacheHistory} {nodes nodes' : List Nat} {key : CString} {value : Int64}
  {request : CacheCall}

theorem valueOf_withValue {cache : InodeCache} {node : Nat} (hlive : cache.live node) :
    (cache.withValue node value).valueOf node = some value := by
  obtain ⟨entry, hentry⟩ := live_iff.mp hlive
  simp [valueOf, withValue, hentry]

theorem EvictsOwnBucket.evictsUnused (hroom : st.EvictsOwnBucket key)
    (h : CacheInv st.cache nodes) : st.EvictsUnused key := by
  intro hfull index hindex hslot
  rcases hroom with hroom | hbucket
  · omega
  · obtain ⟨key', hkey', hsame⟩ := Option.map_eq_some_iff.mp hbucket
    obtain ⟨a, htail, hkeyOf⟩ := Option.bind_eq_some_iff.mp hkey'
    have hlast := (h.slots index a (hslot.trans htail)).2 key' hkeyOf
    exact hindex (hlast.symm.trans hsame)

theorem step_set {cache' : InodeCache} (hrun : setCacheEntry key value st.cache = some ((), cache')) :
    Step st (.set key value) ⟨cache', Function.update st.latest key (some value)⟩ := by
  rw [Step, call, hrun]
  rfl

theorem step_remove {cache' : InodeCache}
    (hrun : removeCacheEntry key st.cache = some (true, cache')) :
    Step st (.remove key) ⟨cache', Function.update st.latest key none⟩ := by
  rw [Step, call, hrun]
  rfl

private theorem set_change (h : CacheInv st.cache nodes)
    (hsafe : st.LeavesNoDangling (.set key value)) :
    ∃ st' nodes', Step st (.set key value) st' ∧ CacheInv st'.cache nodes' ∧
      Change st nodes (.set key value) st' nodes' := by
  by_cases hkey : key = []
  · subst hkey
    exact ⟨_, nodes, rfl, h, .ignored value⟩
  obtain ⟨found, hfind, hspec⟩ := h.find key
  cases found with
  | none =>
      obtain ⟨cache', kept, hrun, hinserted⟩ :=
        setCacheEntry_miss h hkey hfind value (hsafe hkey hfind)
      exact ⟨_, _, step_set hrun, hinserted.inv, .inserted hfind hkey hinserted⟩
  | some node =>
      obtain ⟨hmem, hnode⟩ := hspec node rfl
      obtain ⟨head, tail, next, prev, hrun, hinv⟩ := setCacheEntry_hit h hkey hfind value
      refine ⟨_, _, step_set hrun, hinv,
        .replaced hmem hnode (List.perm_cons_erase hmem).symm ?_ ?_ ?_ rfl⟩
      · exact fun a => keyOf_relinked.trans (keyOf_withValue st.cache node value a)
      · exact valueOf_relinked.trans (valueOf_withValue (h.list.live node hmem))
      · intro a hne
        refine valueOf_relinked.trans ?_
        simp [valueOf, withValue, hne]

private theorem get_change (h : CacheInv st.cache nodes) :
    ∃ st' nodes', Step st (.get key) st' ∧ CacheInv st'.cache nodes' ∧
      Change st nodes (.get key) st' nodes' := by
  obtain ⟨found, hfind, hspec⟩ := h.find key
  cases found with
  | none =>
      refine ⟨st, nodes, ?_, h,
        .read (List.Perm.refl _) (fun _ => rfl) (fun _ => rfl) rfl⟩
      rw [Step, call, getCacheEntry_miss hfind]
      rfl
  | some node =>
      by_cases hkey : key = []
      · subst hkey
        exact ⟨st, nodes, rfl, h, .read (List.Perm.refl _) (fun _ => rfl) (fun _ => rfl) rfl⟩
      obtain ⟨value, head, tail, next, prev, hrun, -, hinv⟩ := getCacheEntry_hit h hkey hfind
      refine ⟨⟨_, st.latest⟩, _, ?_, hinv, .read (List.perm_cons_erase (hspec node rfl).1).symm
        (fun _ => keyOf_relinked) (fun _ => valueOf_relinked) rfl⟩
      rw [Step, call, hrun]
      rfl

private theorem remove_change (h : CacheInv st.cache nodes)
    (hsafe : st.LeavesNoDangling (.remove key)) :
    ∃ st' nodes', Step st (.remove key) st' ∧ CacheInv st'.cache nodes' ∧
      Change st nodes (.remove key) st' nodes' := by
  obtain ⟨found, hfind, hspec⟩ := h.find key
  cases found with
  | none =>
      refine ⟨st, nodes, ?_, h, .absent key⟩
      rw [Step, call, removeCacheEntry_miss hfind]
      rfl
  | some node =>
      have hother : nodes ≠ [node] := h.list.nodes_eq ▸ hsafe node hfind
      obtain ⟨hmem, hnode⟩ := hspec node rfl
      obtain ⟨cache', hrun, hremoved⟩ := removeCacheEntry_hit h hfind hother
      refine ⟨_, _, step_remove hrun, hremoved.inv, .removed hmem hnode ?_ hremoved⟩
      intro hmiss
      rw [Misses, hfind] at hmiss
      simp at hmiss

theorem call_change (h : CacheInv st.cache nodes) (hsafe : st.LeavesNoDangling request) :
    ∃ st' nodes', Step st request st' ∧ CacheInv st'.cache nodes' ∧
      Change st nodes request st' nodes' := by
  cases request with
  | set key value => exact set_change h hsafe
  | get key => exact get_change h
  | remove key => exact remove_change h hsafe

/-! ## Keys that share a bucket -/

def aKey : CString := [⟨97, by decide⟩]

def bKey : CString := [⟨98, by decide⟩]

def cKey : CString := [⟨99, by decide⟩]

private theorem hash_aKey : hashFunc aKey = 5381 := by decide

private theorem hash_bKey : hashFunc bKey = 5381 := by decide

private theorem hash_cKey : hashFunc cKey = 5381 := by decide

/-- A cache of four entries whose first bucket in use is the one of all lower-case keys. -/
private structure Staged (cache : InodeCache) (nodes : List Nat) (slot : Option Nat)
    (size : Nat) : Prop where
  inv : CacheInv cache nodes
  slot : cache.map 1 = slot
  size : cache.size = size
  capacity : cache.capacity = 4

namespace Staged

variable {cache : InodeCache} {slot : Option Nat} {size node : Nat}

theorem hashIndex_eq (h : Staged cache nodes slot size) (hkey : hashFunc key = 5381) :
    cache.hashIndex key = 1 := by
  rw [hashIndex, hkey, h.capacity]

theorem misses (h : Staged cache nodes none size) (hkey : hashFunc key = 5381) :
    findFromBucket key cache = some (none, cache) :=
  findFromBucket_empty (by rw [h.hashIndex_eq hkey, h.slot])

theorem find (h : Staged cache (node :: nodes) (some node) size)
    (hkey : hashFunc key = 5381) :
    findFromBucket key cache = some ((node :: nodes).find? (cache.hasKey key), cache) :=
  h.inv.findFromBucket_head (by rw [h.hashIndex_eq hkey, h.slot])

theorem insert (h : Staged cache nodes slot size) (hsize : size < 4) (hne : key ≠ [])
    (hkey : hashFunc key = 5381) (hmiss : findFromBucket key cache = some (none, cache))
    (value : Int64) :
    ∃ cache' node, setCacheEntry key value cache = some ((), cache') ∧
      Staged cache' (node :: nodes) (some node) (size + 1) ∧
      (∀ a ∈ nodes, cache'.keyOf a = cache.keyOf a ∧ cache'.valueOf a = cache.valueOf a) ∧
      cache'.keyOf node = some key ∧ cache'.valueOf node = some value := by
  have hroom : cache.size < cache.capacity := by
    rw [h.size, h.capacity]
    exact hsize
  obtain ⟨cache', kept, hrun, hinserted⟩ :=
    setCacheEntry_miss h.inv hne hmiss value fun hfull => by omega
  obtain rfl := hinserted.roomy hroom
  have hsize' := hinserted.size
  rw [h.size] at hsize'
  refine ⟨cache', cache.brk, hrun, ⟨hinserted.inv, ?_, by omega, ?_⟩, hinserted.entries,
    hinserted.keyOf, hinserted.valueOf⟩
  · rw [← h.hashIndex_eq hkey, hinserted.slot]
  · rw [hinserted.capacity, h.capacity]

theorem remove (h : Staged cache (node :: nodes) (some node) size)
    (hkey : hashFunc key = 5381) (hnode : cache.keyOf node = some key) (hnodes : nodes ≠ []) :
    ∃ cache', removeCacheEntry key cache = some (true, cache') ∧
      Staged cache' nodes none size ∧
      ∀ a ∈ nodes, cache'.keyOf a = cache.keyOf a ∧ cache'.valueOf a = cache.valueOf a := by
  have hfind : findFromBucket key cache = some (some node, cache) := by
    rw [h.find hkey, List.find?_cons_of_pos (by simpa [hasKey] using hnode)]
  obtain ⟨cache', hrun, hremoved⟩ := removeCacheEntry_hit h.inv hfind (by simpa using hnodes)
  have hentries := hremoved.entries
  have hinv := hremoved.inv
  rw [List.erase_cons_head] at hentries hinv
  refine ⟨cache', hrun, ⟨hinv, ?_, ?_, ?_⟩, hentries⟩
  · rw [← h.hashIndex_eq hkey, hremoved.slot]
  · rw [hremoved.size, h.size]
  · rw [hremoved.capacity, h.capacity]

end Staged

/-- Two keys of one bucket are set and the second is removed: the first is not found again. -/
private theorem staged_start :
    ∃ st node, Run Step (fun _ _ => True) (start 4) st ∧ Staged st.cache [node] none 2 ∧
      st.cache.keyOf node = some bKey ∧ st.cache.valueOf node = some 1 := by
  have h₀ : Staged (start 4).cache [] none 0 :=
    ⟨createInodeCache_inv (by decide), rfl, rfl, rfl⟩
  obtain ⟨cache₁, node, hrun₁, h₁, -, hkey₁, hvalue₁⟩ :=
    h₀.insert (by decide) (by decide) hash_bKey (h₀.misses hash_bKey) 1
  have hmiss : findFromBucket aKey cache₁ = some (none, cache₁) := by
    rw [h₁.find hash_aKey, List.find?_cons_of_neg (by simp [hasKey, hkey₁, aKey, bKey])]
    rfl
  obtain ⟨cache₂, node₂, hrun₂, h₂, hentries₂, hkey₂, -⟩ :=
    h₁.insert (by decide) (by decide) hash_aKey hmiss 2
  obtain ⟨cache₃, hrun₃, h₃, hentries₃⟩ := h₂.remove hash_aKey hkey₂ (by simp)
  have hnode := List.mem_singleton_self node
  refine ⟨_, node, ((Run.single _ trivial (step_set hrun₁)).tail _ trivial
    (step_set hrun₂)).tail _ trivial (step_remove hrun₃), h₃, ?_, ?_⟩
  · exact ((hentries₃ node hnode).1.trans (hentries₂ node hnode).1).trans hkey₁
  · exact ((hentries₃ node hnode).2.trans (hentries₂ node hnode).2).trans hvalue₁

/-! ## The representation -/

/-- The four views of the set of cached nodes agree. -/
structure Representation (cache : InodeCache) (nodes : List Nat) : Prop where
  live : ∀ a ∈ nodes, cache.live a
  forward : Visits cache.nextOf cache.head nodes
  backward : Visits cache.prevOf cache.tail nodes.reverse
  tail_eq_none_iff : cache.tail = none ↔ nodes = []
  size : cache.size = nodes.length
  size_le : cache.size ≤ cache.capacity
  slots : ∀ index a, cache.map index = some a →
    a ∈ nodes ∧ ∀ key, cache.keyOf a = some key → cache.hashIndex key = index

/-- Nothing is removed, and nothing is evicted that another bucket points to. -/
def KeepsRepresentation (st : CacheHistory) : CacheCall → Prop
  | .set key _ => key ≠ [] → st.Misses key → st.EvictsUnused key
  | .get _ => True
  | .remove key => st.Misses key

theorem representation_of_inv (h : CacheInv st.cache nodes)
    (hsize : st.cache.size = nodes.length) : Representation st.cache nodes where
  live := h.list.live
  forward := h.list.head ▸ h.list.linked.visits_next
  backward := h.list.tail ▸ h.list.linked.visits_prev
  tail_eq_none_iff := by rw [h.list.tail, List.getLast?_eq_none_iff]
  size := hsize
  size_le := h.size_le
  slots := h.slots

theorem KeepsRepresentation.leavesNoDangling (h : st.KeepsRepresentation request) :
    st.LeavesNoDangling request := by
  cases request with
  | set key value => exact h
  | get key => trivial
  | remove key =>
      intro node hfind
      rw [KeepsRepresentation, Misses, hfind] at h
      simp at h

/-- A call that meets the condition keeps the counter in step with the list. -/
private theorem keepsRepresentation_step (h : CacheInv st.cache nodes)
    (hsize : st.cache.size = nodes.length) (hallowed : st.KeepsRepresentation request) :
    ∃ st' nodes', Step st request st' ∧ CacheInv st'.cache nodes' ∧
      st'.cache.size = nodes'.length := by
  obtain ⟨st', nodes', hstep, hinv, hchange⟩ := call_change h hallowed.leavesNoDangling
  refine ⟨st', nodes', hstep, hinv, ?_⟩
  cases hchange with
  | ignored value => exact hsize
  | replaced hmem hkey hperm hkeyOf hnode hvalueOf hsize' =>
      rw [hperm.length_eq]
      exact hsize'.trans hsize
  | inserted hmiss hne hinserted =>
      have := hinserted.size
      rw [List.length_cons]
      dsimp only
      omega
  | read hperm hkeyOf hvalueOf hsize' =>
      rw [hperm.length_eq]
      exact hsize'.trans hsize
  | removed hmem hkey hfind hremoved => exact absurd hallowed hfind
  | absent key => exact hsize

/-- The counter is in step with the list. -/
def Counted (st : CacheHistory) : Prop :=
  ∃ nodes, CacheInv st.cache nodes ∧ st.cache.size = nodes.length

private theorem counted_kept (st : CacheHistory) (request : CacheCall) (st' : CacheHistory)
    (h : st.Counted) (hallowed : st.KeepsRepresentation request) (hstep : Step st request st') :
    st'.Counted := by
  obtain ⟨nodes, hinv, hsize⟩ := h
  obtain ⟨st'', nodes', hstep', hinv', hsize'⟩ := keepsRepresentation_step hinv hsize hallowed
  obtain rfl : st'' = st' := Option.some.inj (hstep'.symm.trans hstep)
  exact ⟨nodes', hinv', hsize'⟩

/-- Set two keys, remove one: the counter still says two. -/
theorem not_representation_after_remove :
    ¬∀ capacity, 0 < capacity → ∀ st, Run Step (fun _ _ => True) (start capacity) st →
      ∃ nodes, Representation st.cache nodes := by
  intro hclaim
  obtain ⟨st, node, hrun, hstaged, -⟩ := staged_start
  obtain ⟨nodes, hnodes⟩ := hclaim 4 (by decide) st hrun
  have hforward : Visits st.cache.nextOf st.cache.head [node] :=
    hstaged.inv.list.head ▸ hstaged.inv.list.linked.visits_next
  have hsize := hnodes.size
  rw [hnodes.forward.unique hforward, hstaged.size] at hsize
  simp at hsize

/--
In every run that removes nothing and evicts nothing that another bucket
points to, the forward chain, the backward chain, the counter and the bucket
pointers agree, and every such call is defined.
-/
theorem inodeCache_representation {capacity : Nat} (hcapacity : 0 < capacity)
    (hrun : Run Step KeepsRepresentation (start capacity) st) :
    (∃ nodes, Representation st.cache nodes) ∧
      ∀ request, st.KeepsRepresentation request → ∃ st', Step st request st' := by
  obtain ⟨nodes, hinv, hsize⟩ : st.Counted :=
    hrun.invariant ⟨[], createInodeCache_inv hcapacity, rfl⟩ counted_kept
  refine ⟨⟨nodes, representation_of_inv hinv hsize⟩, fun request hallowed => ?_⟩
  obtain ⟨st', -, hstep, -⟩ := keepsRepresentation_step hinv hsize hallowed
  exact ⟨st', hstep⟩

/-- Whether a call meets the condition, computed. -/
def checkRepresentation (st : CacheHistory) : CacheCall → Bool
  | .set key _ =>
      decide ((findFromBucket key st.cache).map Prod.fst = some none → st.EvictsOwnBucket key)
  | .get _ => true
  | .remove key => decide ((findFromBucket key st.cache).map Prod.fst = some none)

theorem misses_of_fst (h : CacheInv st.cache nodes)
    (hmiss : (findFromBucket key st.cache).map Prod.fst = some none) : st.Misses key := by
  obtain ⟨found, hfind, -⟩ := h.find key
  rw [hfind] at hmiss
  obtain rfl : found = none := Option.some.inj hmiss
  exact hfind

theorem keepsRepresentation_of_check (h : CacheInv st.cache nodes)
    (hcheck : st.checkRepresentation request = true) : st.KeepsRepresentation request := by
  cases request with
  | set key value =>
      intro _ hmiss
      have hroom : st.EvictsOwnBucket key := of_decide_eq_true hcheck (by rw [hmiss]; rfl)
      exact hroom.evictsUnused h
  | get key => trivial
  | remove key => exact misses_of_fst h (of_decide_eq_true hcheck)

/-- A key that has a bucket of its own. -/
def upperKey : CString := [⟨67, by decide⟩]

/-- Keys of two buckets are set, found, looked for and set again, and one of them is evicted. -/
theorem inodeCache_representation_evicted :
    ∃ st, Run Step KeepsRepresentation (start 2) st ∧ st.cache.nodes.length = 2 ∧
      st.latest bKey = some 4 ∧ ∃ nodes, Representation st.cache nodes := by
  have hend : ([.set upperKey 1, .set aKey 2, .get upperKey, .remove cKey, .set bKey 3,
      .set bKey 4].foldlM (guarded call checkRepresentation) (start 2)).any (fun st =>
        st.cache.nodes.length = 2 ∧ st.latest bKey = some 4) = true := by decide
  obtain ⟨st, hcalls, hst⟩ := (Option.any_eq_true _ _).mp hend
  obtain ⟨hlength, hlatest⟩ := of_decide_eq_true hst
  have hcapacity : 0 < 2 := by decide
  have hrun : Run Step KeepsRepresentation (start 2) st :=
    Run.of_checked ⟨[], createInodeCache_inv hcapacity, rfl⟩ (fun _ _ _ hstep => hstep)
      counted_kept (fun _ _ ⟨_, h, _⟩ => keepsRepresentation_of_check h) hcalls
  exact ⟨st, hrun, hlength, hlatest, (inodeCache_representation hcapacity hrun).1⟩

/-! ## Answers -/

/-- Inserting never doubles a key, and no pointer is left behind to a node that is gone. -/
def KeepsCurrent (st : CacheHistory) (request : CacheCall) : Prop :=
  st.LeavesNoDangling request ∧
    match request with
    | .set key _ => st.Misses key → ∀ a ∈ st.cache.nodes, st.cache.keyOf a ≠ some key
    | _ => True

/-- Every cached value is the latest one of its key, and no key is cached twice. -/
structure Current (cache : InodeCache) (latest : CString → Option Int64) (nodes : List Nat) :
    Prop where
  distinct : ∀ a ∈ nodes, ∀ b ∈ nodes, ∀ key,
    cache.keyOf a = some key → cache.keyOf b = some key → a = b
  latest : ∀ a ∈ nodes, ∀ key, cache.keyOf a = some key → cache.valueOf a = latest key
  ne_nil : ∀ a ∈ nodes, cache.keyOf a ≠ some []

namespace Current

variable {cache cache' : InodeCache} {latest : CString → Option Int64} {kept : List Nat}
  {node : Nat}

theorem of_sublist (h : Current cache latest nodes) (hkept : ∀ a ∈ kept, a ∈ nodes)
    (hentries : ∀ a ∈ kept,
      cache'.keyOf a = cache.keyOf a ∧ cache'.valueOf a = cache.valueOf a) :
    Current cache' latest kept where
  distinct := fun a ha b hb key hkey hkey' =>
    h.distinct a (hkept a ha) b (hkept b hb) key ((hentries a ha).1.symm.trans hkey)
      ((hentries b hb).1.symm.trans hkey')
  latest := fun a ha key hkey =>
    (hentries a ha).2.trans (h.latest a (hkept a ha) key ((hentries a ha).1.symm.trans hkey))
  ne_nil := fun a ha hnil => h.ne_nil a (hkept a ha) ((hentries a ha).1.symm.trans hnil)

/-- What becomes of a key that is not cached does not matter. -/
theorem update (h : Current cache latest nodes) (hkey : ∀ a ∈ nodes, cache.keyOf a ≠ some key)
    (answer : Option Int64) : Current cache (Function.update latest key answer) nodes where
  distinct := h.distinct
  latest := fun a ha key' hkey' => by
    have hne : key' ≠ key := by
      rintro rfl
      exact hkey a ha hkey'
    rw [Function.update_of_ne hne]
    exact h.latest a ha key' hkey'
  ne_nil := h.ne_nil

theorem cons (h : Current cache latest nodes) (hne : key ≠ [])
    (hfresh : ∀ a ∈ nodes, cache.keyOf a ≠ some key) (hkey : cache.keyOf node = some key)
    (hvalue : cache.valueOf node = some value) :
    Current cache (Function.update latest key (some value)) (node :: nodes) := by
  have hupdated := h.update hfresh (some value)
  refine ⟨fun a ha b hb key' hkeyA hkeyB => ?_, fun a ha key' hkeyA => ?_, fun a ha => ?_⟩
  · rcases List.mem_cons.mp ha with rfl | ha' <;> rcases List.mem_cons.mp hb with rfl | hb'
    · rfl
    · exact absurd (hkeyB.trans (hkeyA.symm.trans hkey)) (hfresh b hb')
    · exact absurd (hkeyA.trans (hkeyB.symm.trans hkey)) (hfresh a ha')
    · exact h.distinct a ha' b hb' key' hkeyA hkeyB
  · rcases List.mem_cons.mp ha with rfl | ha
    · obtain rfl : key = key' := Option.some.inj (hkey.symm.trans hkeyA)
      rw [hvalue, Function.update_self]
    · exact hupdated.latest a ha key' hkeyA
  · rcases List.mem_cons.mp ha with rfl | ha
    · rw [hkey]
      exact fun hnil => hne (Option.some.inj hnil)
    · exact h.ne_nil a ha

theorem erase (h : Current cache latest nodes) (hnodup : nodes.Nodup) (hmem : node ∈ nodes)
    (hkey : cache.keyOf node = some key) :
    Current cache latest (nodes.erase node) ∧
      ∀ a ∈ nodes.erase node, cache.keyOf a ≠ some key := by
  have hkept : ∀ a ∈ nodes.erase node, a ∈ nodes := fun a ha => List.mem_of_mem_erase ha
  refine ⟨h.of_sublist hkept fun _ _ => ⟨rfl, rfl⟩, fun a ha hkeyA => ?_⟩
  obtain rfl := h.distinct a (hkept a ha) node hmem key hkeyA hkey
  exact hnodup.not_mem_erase ha

end Current

theorem current_change (h : Current st.cache st.latest nodes)
    (hinv : CacheInv st.cache nodes) (hallowed : st.KeepsCurrent request)
    (hchange : Change st nodes request st' nodes') : Current st'.cache st'.latest nodes' := by
  cases hchange with
  | ignored value => exact h.update h.ne_nil (some value)
  | @replaced key value cache' nodes' node hmem hkey hperm hkeyOf hnode hvalueOf hsize =>
      obtain ⟨hrest, hfresh⟩ := h.erase hinv.list.nodup hmem hkey
      have hrest' : Current cache' st.latest (nodes.erase node) :=
        hrest.of_sublist (fun _ ha => ha) fun a ha =>
          ⟨hkeyOf a, hvalueOf a fun heq => hinv.list.nodup.not_mem_erase (heq ▸ ha)⟩
      have hne : key ≠ [] := by
        rintro rfl
        exact h.ne_nil node hmem hkey
      have hcons := hrest'.cons hne (fun a ha => hkeyOf a ▸ hfresh a ha)
        ((hkeyOf node).trans hkey) hnode
      refine hcons.of_sublist (fun a ha => ?_) fun _ _ => ⟨rfl, rfl⟩
      exact (List.perm_cons_erase hmem).mem_iff.mp (hperm.mem_iff.mp ha)
  | @inserted key value cache' kept hmiss hne hinserted =>
      have hkept : ∀ a ∈ kept, a ∈ nodes := fun a ha => hinserted.sublist.subset ha
      refine (h.of_sublist hkept hinserted.entries).cons hne (fun a ha => ?_) hinserted.keyOf
        hinserted.valueOf
      rw [(hinserted.entries a ha).1]
      exact hallowed.2 hmiss a (hinv.list.nodes_eq ▸ hkept a ha)
  | read hperm hkeyOf hvalueOf hsize =>
      exact h.of_sublist (fun _ ha => hperm.mem_iff.mp ha) fun a _ => ⟨hkeyOf a, hvalueOf a⟩
  | @removed key cache' node hmem hkey hfind hremoved =>
      obtain ⟨hrest, hfresh⟩ := h.erase hinv.list.nodup hmem hkey
      refine (hrest.of_sublist (fun _ ha => ha) hremoved.entries).update (fun a ha => ?_) none
      rw [(hremoved.entries a ha).1]
      exact hfresh a ha
  | absent key => exact h

private theorem keepsCurrent_step (hinv : CacheInv st.cache nodes)
    (h : Current st.cache st.latest nodes) (hallowed : st.KeepsCurrent request) :
    ∃ st' nodes', Step st request st' ∧ CacheInv st'.cache nodes' ∧
      Current st'.cache st'.latest nodes' := by
  obtain ⟨st', nodes', hstep, hinv', hchange⟩ := call_change hinv hallowed.1
  exact ⟨st', nodes', hstep, hinv', current_change h hinv hallowed hchange⟩

/-- What is cached is current. -/
def UpToDate (st : CacheHistory) : Prop :=
  ∃ nodes, CacheInv st.cache nodes ∧ Current st.cache st.latest nodes

theorem start_upToDate {capacity : Nat} (hcapacity : 0 < capacity) :
    (start capacity).UpToDate :=
  ⟨[], createInodeCache_inv hcapacity, by simp, by simp, by simp⟩

private theorem upToDate_kept (st : CacheHistory) (request : CacheCall) (st' : CacheHistory)
    (h : st.UpToDate) (hallowed : st.KeepsCurrent request) (hstep : Step st request st') :
    st'.UpToDate := by
  obtain ⟨nodes, hinv, hcurrent⟩ := h
  obtain ⟨st'', nodes', hstep', hinv', hcurrent'⟩ := keepsCurrent_step hinv hcurrent hallowed
  obtain rfl : st'' = st' := Option.some.inj (hstep'.symm.trans hstep)
  exact ⟨nodes', hinv', hcurrent'⟩

private theorem getCacheEntry_current (hinv : CacheInv st.cache nodes)
    (h : Current st.cache st.latest nodes) (key : CString) :
    ∃ result cache', getCacheEntry key st.cache = some (result, cache') ∧
      (result = -1 ∨ st.latest key = some result) := by
  obtain ⟨found, hfind, hspec⟩ := hinv.find key
  cases found with
  | none => exact ⟨-1, _, getCacheEntry_miss hfind, .inl rfl⟩
  | some node =>
      obtain ⟨hmem, hnode⟩ := hspec node rfl
      have hkey : key ≠ [] := by
        rintro rfl
        exact h.ne_nil node hmem hnode
      obtain ⟨value, head, tail, next, prev, hrun, hvalue, -⟩ :=
        getCacheEntry_hit hinv hkey hfind
      exact ⟨value, _, hrun, .inr ((h.latest node hmem key hnode).symm.trans hvalue)⟩

/--
In every run that doubles no key and leaves no pointer to a node that is
gone, `get_cache_entry` answers -1 or the latest value, and every such call
is defined.
-/
theorem getCacheEntry_latest {capacity : Nat} (hcapacity : 0 < capacity)
    (hrun : Run Step KeepsCurrent (start capacity) st) :
    (∀ key, ∃ result cache', getCacheEntry key st.cache = some (result, cache') ∧
      (result = -1 ∨ st.latest key = some result)) ∧
      ∀ request, st.KeepsCurrent request → ∃ st', Step st request st' := by
  obtain ⟨nodes, hinv, hcurrent⟩ : st.UpToDate :=
    hrun.invariant (start_upToDate hcapacity) upToDate_kept
  refine ⟨getCacheEntry_current hinv hcurrent, fun request hallowed => ?_⟩
  obtain ⟨st', -, hstep, -⟩ := keepsCurrent_step hinv hcurrent hallowed
  exact ⟨st', hstep⟩

/-- A key set twice and removed once is found again, with its first value. -/
theorem getCacheEntry_stale :
    ¬∀ capacity, 0 < capacity → ∀ st, Run Step (fun _ _ => True) (start capacity) st →
      ∀ key result cache', getCacheEntry key st.cache = some (result, cache') →
        result = -1 ∨ st.latest key = some result := by
  intro hclaim
  obtain ⟨st, node, hrun, hstaged, hkey, hvalue⟩ := staged_start
  obtain ⟨cache₁, node₁, hrun₁, h₁, hentries₁, hkey₁, -⟩ :=
    hstaged.insert (by decide) (by decide) hash_bKey (hstaged.misses hash_bKey) 2
  obtain ⟨cache₂, hrun₂, h₂, hentries₂⟩ := h₁.remove hash_bKey hkey₁ (by simp)
  obtain ⟨cache₃, node₃, hrun₃, h₃, hentries₃, hkey₃, -⟩ :=
    h₂.insert (by decide) (by decide) hash_cKey (h₂.misses hash_cKey) 3
  have hnode := List.mem_singleton_self node
  have hkey' : cache₃.keyOf node = some bKey :=
    (((hentries₃ node hnode).1.trans (hentries₂ node hnode).1).trans
      (hentries₁ node hnode).1).trans hkey
  have hvalue' : cache₃.valueOf node = some 1 :=
    (((hentries₃ node hnode).2.trans (hentries₂ node hnode).2).trans
      (hentries₁ node hnode).2).trans hvalue
  have hfind : findFromBucket bKey cache₃ = some (some node, cache₃) := by
    rw [h₃.find hash_bKey, List.find?_cons_of_neg (by simp [hasKey, hkey₃, bKey, cKey]),
      List.find?_cons_of_pos (by simp [hasKey, hkey'])]
  obtain ⟨value, head, tail, next, prev, hget, hvalue₃, -⟩ :=
    getCacheEntry_hit h₃.inv (by decide) hfind
  obtain rfl : (1 : Int64) = value := Option.some.inj (hvalue'.symm.trans hvalue₃)
  have hrun' := ((hrun.tail _ trivial (step_set hrun₁)).tail _ trivial
    (step_remove hrun₂)).tail _ trivial (step_set hrun₃)
  rcases hclaim 4 (by decide) _ hrun' bKey 1 _ hget with hresult | hlatest
  · exact absurd hresult (by decide)
  · have hne : bKey ≠ cKey := by decide
    simp [Function.update_of_ne hne] at hlatest

/-- Whether a call doubles no key and leaves no pointer behind, computed. -/
def checkCurrent (st : CacheHistory) : CacheCall → Bool
  | .set key _ =>
      decide ((findFromBucket key st.cache).map Prod.fst = some none →
        st.EvictsOwnBucket key ∧ ∀ a ∈ st.cache.nodes, st.cache.keyOf a ≠ some key)
  | .get _ => true
  | .remove _ => decide (st.cache.nodes.length ≠ 1)

theorem keepsCurrent_of_check (h : CacheInv st.cache nodes)
    (hcheck : st.checkCurrent request = true) : st.KeepsCurrent request := by
  cases request with
  | set key value =>
      have hroom : st.Misses key → _ := fun hmiss => of_decide_eq_true hcheck (by rw [hmiss]; rfl)
      exact ⟨fun _ hmiss => (hroom hmiss).1.evictsUnused h, fun hmiss => (hroom hmiss).2⟩
  | get key => exact ⟨trivial, trivial⟩
  | remove key =>
      refine ⟨fun node _ hnodes => of_decide_eq_true hcheck ?_, trivial⟩
      rw [hnodes, List.length_singleton]

/-- One key is only read, one is set again and removed, one takes its place in the bucket. -/
theorem getCacheEntry_latest_removed :
    ∃ st, Run Step KeepsCurrent (start 3) st ∧
      (st.latest upperKey = some 1 ∧ st.latest bKey = none ∧ st.latest cKey = some 4) ∧
      ∀ key, ∃ result cache', getCacheEntry key st.cache = some (result, cache') ∧
        (result = -1 ∨ st.latest key = some result) := by
  have hend : ([.set upperKey 1, .set bKey 2, .get upperKey, .set bKey 3, .remove bKey,
      .set cKey 4].foldlM (guarded call checkCurrent) (start 3)).any (fun st =>
        st.latest upperKey = some 1 ∧ st.latest bKey = none ∧ st.latest cKey = some 4) =
          true := by decide
  obtain ⟨st, hcalls, hst⟩ := (Option.any_eq_true _ _).mp hend
  have hcapacity : 0 < 3 := by decide
  have hrun : Run Step KeepsCurrent (start 3) st :=
    Run.of_checked (start_upToDate hcapacity) (fun _ _ _ hstep => hstep) upToDate_kept
      (fun _ _ ⟨_, h, _⟩ => keepsCurrent_of_check h) hcalls
  exact ⟨st, hrun, of_decide_eq_true hst, (getCacheEntry_latest hcapacity hrun).1⟩

end CacheHistory

end AltFs
