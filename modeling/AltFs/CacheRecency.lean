import AltFs.CacheRuns
import AltFs.Lib.Recency

/-!
# What the cache keeps

Runs of the cache next to the keys that were set or found since each key was.
The list of the cache is the list of the keys used most recently, and every
key on it is found, as long as no bucket pointer is passed by a node of its
bucket: a key found behind the pointer moves in front of it.
-/

namespace AltFs

namespace InodeCache

/-- Every node of the list stands at the pointer of its bucket or behind it. -/
structure Reachable (cache : InodeCache) (nodes : List Nat) : Prop where
  pointed : ∀ a ∈ nodes, ∀ key, cache.keyOf a = some key →
    cache.map (cache.hashIndex key) ≠ none
  behind : nodes.Pairwise fun a b => ∀ key, cache.keyOf a = some key →
    cache.map (cache.hashIndex key) ≠ some b

namespace Reachable

variable {cache cache' : InodeCache} {nodes kept : List Nat} {node a : Nat} {key : CString}
  {value : Int64}

/-- A key on the list is found. -/
theorem find (h : Reachable cache nodes) (hinv : CacheInv cache nodes) (ha : a ∈ nodes)
    (hkey : cache.keyOf a = some key) :
    ∃ node, findFromBucket key cache = some (some node, cache) := by
  obtain ⟨pointer, hpointer⟩ := Option.ne_none_iff_exists'.mp (h.pointed a ha key hkey)
  obtain ⟨first, rest, hsplit⟩ := List.append_of_mem (hinv.slots _ pointer hpointer).1
  have hbucket : cache.bucketNodes nodes (cache.hashIndex key) = pointer :: rest := by
    have hfirst : ∀ b ∈ first, b ≠ pointer := by
      rintro b hb rfl
      have hnodup := hinv.list.nodup
      rw [hsplit] at hnodup
      exact (List.nodup_middle.mp hnodup).notMem (List.mem_append_left _ hb)
    rw [bucketNodes, hpointer, hsplit]
    simp only
    rw [List.dropWhile_append_of_pos (by simpa using hfirst), List.dropWhile_cons_of_neg (by simp)]
  have hmem : a ∈ pointer :: rest := by
    have hbehind := h.behind
    rw [hsplit] at ha hbehind
    rcases List.mem_append.mp ha with ha | ha
    · exact absurd hpointer
        ((List.pairwise_append.mp hbehind).2.2 a ha pointer List.mem_cons_self key hkey)
    · exact ha
  rw [findFromBucket_spec key hinv.list fun b hb => (hinv.slots _ b hb).1, hbucket]
  cases hfound : (pointer :: rest).find? (cache.hasKey key) with
  | none => exact absurd hkey (by simpa [hasKey] using List.find?_eq_none.mp hfound a hmem)
  | some node => exact ⟨node, rfl⟩

theorem nil : Reachable cache [] := ⟨by simp, List.Pairwise.nil⟩

/-- The node at the pointer may move to the front. -/
theorem moved (h : Reachable cache nodes) (hnodup : nodes.Nodup) (hnode : node ∈ nodes)
    (hkey : cache.keyOf node = some key) (hslot : cache.map (cache.hashIndex key) = some node)
    (hkeyOf : ∀ a, cache'.keyOf a = cache.keyOf a) (hmap : cache'.map = cache.map)
    (hcapacity : cache'.capacity = cache.capacity) :
    Reachable cache' (node :: nodes.erase node) := by
  have hindex : ∀ key, cache'.hashIndex key = cache.hashIndex key := fun key => by
    rw [hashIndex, hashIndex, hcapacity]
  constructor
  · intro a ha key' hkey'
    rw [hkeyOf] at hkey'
    rw [hmap, hindex]
    exact h.pointed a ((List.perm_cons_erase hnode).mem_iff.mpr ha) key' hkey'
  · simp only [hkeyOf, hmap, hindex]
    apply List.pairwise_cons.mpr
    constructor
    · intro b hb key' hkey'
      obtain rfl : key = key' := Option.some.inj (hkey.symm.trans hkey')
      rw [hslot]
      rintro heq
      exact hnodup.not_mem_erase (Option.some.inj heq ▸ hb)
    · exact h.behind.sublist List.erase_sublist

/-- A new node is what its bucket points to. -/
theorem inserted (h : Reachable cache nodes) (hinv : CacheInv cache nodes)
    (hinserted : Inserted cache cache' nodes kept key value) :
    Reachable cache' (cache.brk :: kept) := by
  have hindex : ∀ key, cache'.hashIndex key = cache.hashIndex key := fun key => by
    rw [hashIndex, hashIndex, hinserted.capacity]
  have hfresh : ∀ a ∈ kept, a ≠ cache.brk := fun a ha =>
    (hinv.list.fresh a (hinserted.sublist.subset ha)).ne
  constructor
  · intro a ha key' hkey'
    rw [hinserted.map, hindex]
    split
    · simp
    next hne =>
      rcases List.mem_cons.mp ha with rfl | ha
      · obtain rfl : key = key' := Option.some.inj (hinserted.keyOf.symm.trans hkey')
        exact absurd rfl hne
      · rw [(hinserted.entries a ha).1] at hkey'
        exact h.pointed a (hinserted.sublist.subset ha) key' hkey'
  · apply List.pairwise_cons.mpr
    constructor
    · intro b hb key' hkey'
      obtain rfl : key = key' := Option.some.inj (hinserted.keyOf.symm.trans hkey')
      rw [hindex, hinserted.slot]
      rintro heq
      exact hfresh b hb (Option.some.inj heq).symm
    · apply (h.behind.sublist hinserted.sublist).imp_of_mem
      intro a b ha hb hab key' hkey'
      rw [(hinserted.entries a ha).1] at hkey'
      rw [hinserted.map, hindex]
      split
      · rintro heq
        exact hfresh b hb (Option.some.inj heq).symm
      · exact hab key' hkey'

end Reachable

/-- The keys of the nodes, the one used last in front. -/
def keys (cache : InodeCache) (nodes : List Nat) : List CString := nodes.filterMap cache.keyOf

section Keys

variable {cache cache' : InodeCache} {latest : CString → Option Int64} {nodes kept : List Nat}
  {node : Nat} {key : CString} {value : Int64}

theorem mem_keys : key ∈ cache.keys nodes ↔ ∃ a ∈ nodes, cache.keyOf a = some key :=
  List.mem_filterMap

theorem keys_congr (h : ∀ a ∈ nodes, cache'.keyOf a = cache.keyOf a) :
    cache'.keys nodes = cache.keys nodes :=
  List.filterMap_congr h

theorem keys_cons (hkey : cache.keyOf node = some key) :
    cache.keys (node :: nodes) = key :: cache.keys nodes :=
  List.filterMap_cons_some hkey

theorem keys_append (first rest : List Nat) :
    cache.keys (first ++ rest) = cache.keys first ++ cache.keys rest :=
  List.filterMap_append

theorem exists_keyOf (h : CacheList cache nodes) (hnode : node ∈ nodes) :
    ∃ key, cache.keyOf node = some key := by
  obtain ⟨entry, hentry⟩ := live_iff.mp (h.live node hnode)
  exact ⟨entry.key, by simp [keyOf, hentry]⟩

theorem length_keys (h : ∀ a ∈ nodes, ∃ key, cache.keyOf a = some key) :
    (cache.keys nodes).length = nodes.length := by
  induction nodes with
  | nil => rfl
  | cons node rest ih =>
      obtain ⟨key, hkey⟩ := h node List.mem_cons_self
      have hrest := ih fun a ha => h a (List.mem_cons_of_mem _ ha)
      rw [keys_cons hkey, List.length_cons, List.length_cons, hrest]

theorem keys_dropLast (h : ∀ a ∈ nodes, ∃ key, cache.keyOf a = some key) :
    cache.keys nodes.dropLast = (cache.keys nodes).dropLast := by
  rcases List.eq_nil_or_concat nodes with rfl | ⟨first, last, rfl⟩
  · rfl
  · obtain ⟨key, hkey⟩ := h last (by simp)
    rw [List.concat_eq_append, List.dropLast_concat, keys_append, keys_cons hkey]
    exact (List.dropLast_concat).symm

/-- A hit uses the key of the node. -/
theorem keys_moved {capacity : Nat} (hcurrent : CacheHistory.Current cache latest nodes)
    (hlist : CacheList cache nodes) (hlength : nodes.length ≤ capacity) (hnode : node ∈ nodes)
    (hkey : cache.keyOf node = some key) :
    cache.keys (node :: nodes.erase node) = usedKey capacity (cache.keys nodes) key := by
  have hlengthKeys := length_keys fun a ha => exists_keyOf hlist ha
  obtain ⟨first, rest, rfl⟩ := List.append_of_mem hnode
  have hnot : node ∉ first ++ rest := (List.nodup_middle.mp hlist.nodup).notMem
  have hfirst : key ∉ cache.keys first := by
    intro hmem
    obtain ⟨a, ha, hkeyA⟩ := mem_keys.mp hmem
    obtain rfl := hcurrent.distinct a (List.mem_append_left _ ha) node hnode key hkeyA hkey
    exact hnot (List.mem_append_left _ ha)
  rw [keys_append, keys_cons hkey] at hlengthKeys
  rw [List.erase_append_right _ fun hmem => hnot (List.mem_append_left _ hmem),
    List.erase_cons_head, keys_append first (node :: rest), keys_cons hkey, keys_cons hkey,
    usedKey_middle hfirst (hlengthKeys.trans_le hlength), keys_append]

/-- An insertion uses the new key; the key used longest ago makes room for it. -/
theorem keys_inserted (hinv : CacheInv cache nodes) (hsize : cache.size = nodes.length)
    (hfresh : key ∉ cache.keys nodes) (hinserted : Inserted cache cache' nodes kept key value) :
    cache'.keys (cache.brk :: kept) = usedKey cache.capacity (cache.keys nodes) key := by
  have hkeyOf := fun a (ha : a ∈ nodes) => exists_keyOf hinv.list ha
  have hlength := length_keys hkeyOf
  rw [keys_cons hinserted.keyOf, keys_congr fun a ha => (hinserted.entries a ha).1]
  by_cases hroom : cache.size < cache.capacity
  · rw [hinserted.roomy hroom, usedKey_roomy hfresh (by omega)]
  · have hfull := hinv.size_le
    rw [hinserted.full (by omega), usedKey_full hfresh hinv.capacity_pos (by omega),
      keys_dropLast hkeyOf]

end Keys

end InodeCache

/-! ## Runs -/

/-- A history with, for each key, the other keys set or found since it was. -/
structure RecencyHistory extends CacheHistory where
  since : CString → Finset CString

namespace CacheHistory

open InodeCache

/-- The key that a call sets or finds; the empty key is neither. -/
def usedBy (st : CacheHistory) : CacheCall → Option CString
  | .set key _ => if key = [] then none else some key
  | .get key =>
      if key = [] then none else
      match findFromBucket key st.cache with
      | some (some _, _) => some key
      | _ => none
  | .remove _ => none

/-- The node of the key, if it has one, is the one that its bucket points to. -/
def AtPointer (st : CacheHistory) (key : CString) : Prop :=
  ∀ a ∈ st.cache.nodes, st.cache.keyOf a = some key →
    st.cache.map (st.cache.hashIndex key) = some a

def Unlisted (st : CacheHistory) (key : CString) : Prop :=
  ∀ a ∈ st.cache.nodes, st.cache.keyOf a ≠ some key

/--
Nothing on the list is removed, no node moves in front of the pointer of its
bucket, and no node is evicted that another bucket points to.
-/
def KeepsRecency (st : CacheHistory) : CacheCall → Prop
  | .set key _ => key ≠ [] → st.AtPointer key ∧ (st.Unlisted key → st.EvictsUnused key)
  | .get key => st.AtPointer key
  | .remove key => st.Unlisted key

instance (st : CacheHistory) (key : CString) : Decidable (st.AtPointer key) :=
  inferInstanceAs (Decidable (∀ a ∈ _, _))

instance (st : CacheHistory) (key : CString) : Decidable (st.Unlisted key) :=
  inferInstanceAs (Decidable (∀ a ∈ _, _))

/-- Whether a call meets the condition, computed. -/
def checkRecency (st : CacheHistory) : CacheCall → Bool
  | .set key _ => decide (st.AtPointer key ∧ (st.Unlisted key → st.EvictsOwnBucket key))
  | .get key => decide (st.AtPointer key)
  | .remove key => decide (st.Unlisted key)

end CacheHistory

namespace RecencyHistory

open InodeCache CacheHistory

def call (st : RecencyHistory) (request : CacheCall) : Option RecencyHistory :=
  (st.toCacheHistory.call request).map fun st' =>
    ⟨st', match st.usedBy request with
      | some key => touched st.since key
      | none => st.since⟩

def start (capacity : Nat) : RecencyHistory := ⟨CacheHistory.start capacity, fun _ => ∅⟩

def Step (st : RecencyHistory) (request : CacheCall) (st' : RecencyHistory) : Prop :=
  st.call request = some st'

/-- The keys that were set and not removed since. -/
def heldKeys (latest : CString → Option Int64) : Set CString :=
  {key | key ≠ [] ∧ (latest key).isSome}

theorem heldKeys_update (latest : CString → Option Int64) {key : CString} (hkey : key ≠ [])
    (value : Int64) :
    heldKeys (Function.update latest key (some value)) = insert key (heldKeys latest) := by
  ext other
  by_cases heq : other = key
  · subst heq
    simp [heldKeys, hkey]
  · simp [heldKeys, heq]

theorem heldKeys_update_nil (latest : CString → Option Int64) (value : Int64) :
    heldKeys (Function.update latest [] (some value)) = heldKeys latest := by
  ext other
  by_cases heq : other = []
  · simp [heldKeys, heq]
  · simp [heldKeys, heq]

/-- The list of the cache holds the keys used most recently, and they are found. -/
structure Recent (capacity : Nat) (st : RecencyHistory) (nodes : List Nat) : Prop where
  inv : CacheInv st.cache nodes
  capacity_eq : st.cache.capacity = capacity
  size : st.cache.size = nodes.length
  current : Current st.cache st.latest nodes
  reach : Reachable st.cache nodes
  recency : RecencyList capacity (st.cache.keys nodes) st.since (heldKeys st.latest)

namespace Recent

variable {capacity : Nat} {st : RecencyHistory} {nodes : List Nat} {node : Nat} {key : CString}
  {request : CacheCall}

theorem unlisted_of_misses (h : Recent capacity st nodes) (hmiss : st.Misses key) :
    st.Unlisted key := by
  intro a ha hkey
  rw [h.inv.list.nodes_eq] at ha
  obtain ⟨node, hfind⟩ := h.reach.find h.inv ha hkey
  rw [Misses, hfind] at hmiss
  cases hmiss

theorem misses_of_unlisted (h : Recent capacity st nodes) (hunlisted : st.Unlisted key) :
    st.Misses key := by
  obtain ⟨found, hfind, hspec⟩ := h.inv.find key
  cases found with
  | none => exact hfind
  | some node =>
      obtain ⟨hmem, hkey⟩ := hspec node rfl
      rw [← h.inv.list.nodes_eq] at hmem
      exact absurd hkey (hunlisted node hmem)

theorem keepsCurrent (h : Recent capacity st nodes) (hallowed : st.KeepsRecency request) :
    st.KeepsCurrent request := by
  cases request with
  | set key value =>
      constructor
      · intro hkey hmiss
        exact (hallowed hkey).2 (h.unlisted_of_misses hmiss)
      · exact h.unlisted_of_misses
  | get key => exact ⟨trivial, trivial⟩
  | remove key =>
      constructor
      · intro node hfind
        have hmiss := h.misses_of_unlisted hallowed
        rw [Misses, hfind] at hmiss
        cases hmiss
      · trivial

theorem pointer (h : Recent capacity st nodes)
    (hfind : findFromBucket key st.cache = some (some node, st.cache))
    (hpointer : st.AtPointer key) : st.cache.map (st.cache.hashIndex key) = some node := by
  obtain ⟨hmem, hkey⟩ := h.inv.found hfind
  rw [← h.inv.list.nodes_eq] at hmem
  exact hpointer node hmem hkey

/-- A hit at the pointer of the bucket. -/
theorem moved {cache' : InodeCache} {latest' : CString → Option Int64}
    (h : Recent capacity st nodes)
    (hfind : findFromBucket key st.cache = some (some node, st.cache))
    (hpointer : st.AtPointer key) (hinv : CacheInv cache' (node :: nodes.erase node))
    (hkeyOf : ∀ a, cache'.keyOf a = st.cache.keyOf a) (hmap : cache'.map = st.cache.map)
    (hcapacity : cache'.capacity = st.cache.capacity) (hsize : cache'.size = st.cache.size)
    (hcurrent : Current cache' latest' (node :: nodes.erase node))
    (hheld : heldKeys latest' ⊆ insert key (heldKeys st.latest)) :
    Recent capacity ⟨⟨cache', latest'⟩, touched st.since key⟩ (node :: nodes.erase node) := by
  obtain ⟨hmem, hkey⟩ := h.inv.found hfind
  have hsizeLe := h.inv.size_le
  refine ⟨hinv, hcapacity.trans h.capacity_eq, ?_, hcurrent, ?_, ?_⟩
  · change cache'.size = _
    rw [hsize, h.size, (List.perm_cons_erase hmem).length_eq]
  · exact h.reach.moved h.inv.list.nodup hmem hkey (h.pointer hfind hpointer) hkeyOf hmap hcapacity
  · have hlength : nodes.length ≤ capacity := by
      rw [← h.size, ← h.capacity_eq]
      exact hsizeLe
    change RecencyList capacity (cache'.keys (node :: nodes.erase node)) _ _
    rw [keys_congr fun a _ => hkeyOf a, keys_moved h.current h.inv.list hlength hmem hkey]
    exact (h.recency.use key).mono hheld

theorem step_set {value : Int64} {cache' : InodeCache} (hkey : key ≠ [])
    (hrun : setCacheEntry key value st.cache = some ((), cache')) :
    Step st (.set key value)
      ⟨⟨cache', Function.update st.latest key (some value)⟩, touched st.since key⟩ := by
  have hstep : st.toCacheHistory.call (.set key value) =
      some ⟨cache', Function.update st.latest key (some value)⟩ := CacheHistory.step_set hrun
  rw [Step, call, hstep, usedBy, if_neg hkey]
  rfl

theorem set_recent (h : Recent capacity st nodes) (hkey : key ≠ []) {value : Int64}
    (hallowed : st.KeepsRecency (.set key value)) :
    ∃ st' nodes', Step st (.set key value) st' ∧ Recent capacity st' nodes' := by
  obtain ⟨hpointer, hevicts⟩ := hallowed hkey
  have hkeeps := h.keepsCurrent hallowed
  obtain ⟨found, hfind, hspec⟩ := h.inv.find key
  cases found with
  | none =>
      have hunlisted := h.unlisted_of_misses hfind
      obtain ⟨cache', kept, hrun, hinserted⟩ :=
        setCacheEntry_miss h.inv hkey hfind value (hevicts hunlisted)
      have hfresh : key ∉ st.cache.keys nodes := by
        intro hmem
        obtain ⟨a, ha, hkeyA⟩ := mem_keys.mp hmem
        rw [← h.inv.list.nodes_eq] at ha
        exact hunlisted a ha hkeyA
      have hsize := hinserted.size
      refine ⟨_, _, step_set hkey hrun, hinserted.inv, hinserted.capacity.trans h.capacity_eq, ?_,
        current_change h.current h.inv hkeeps (.inserted hfind hkey hinserted),
        h.reach.inserted h.inv hinserted, ?_⟩
      · rw [h.size] at hsize
        rw [List.length_cons]
        dsimp only
        omega
      · dsimp only
        rw [keys_inserted h.inv h.size hfresh hinserted, h.capacity_eq, heldKeys_update _ hkey]
        exact h.recency.use key
  | some node =>
      obtain ⟨hmem, hnode⟩ := hspec node rfl
      obtain ⟨head, tail, next, prev, hrun, hinv⟩ := setCacheEntry_hit h.inv hkey hfind value
      have hkeyOf : ∀ a, ((st.cache.withValue node value).relinked head tail next prev).keyOf a =
          st.cache.keyOf a := fun a => keyOf_relinked.trans (keyOf_withValue _ _ _ a)
      have hchange : Change st.toCacheHistory nodes (.set key value)
          ⟨(st.cache.withValue node value).relinked head tail next prev,
            Function.update st.latest key (some value)⟩ (node :: nodes.erase node) := by
        apply Change.replaced hmem hnode (List.perm_cons_erase hmem).symm hkeyOf
        · exact valueOf_relinked.trans (valueOf_withValue (h.inv.list.live node hmem))
        · intro a hne
          exact valueOf_relinked.trans (by simp [valueOf, withValue, hne])
        · rfl
      refine ⟨_, _, step_set hkey hrun, h.moved hfind hpointer hinv hkeyOf rfl rfl rfl
        (current_change h.current h.inv hkeeps hchange) ?_⟩
      rw [heldKeys_update _ hkey]

theorem get_recent (h : Recent capacity st nodes) (hallowed : st.KeepsRecency (.get key)) :
    ∃ st' nodes', Step st (.get key) st' ∧ Recent capacity st' nodes' := by
  by_cases hkey : key = []
  · subst hkey
    exact ⟨st, nodes, rfl, h⟩
  have hkeeps := h.keepsCurrent hallowed
  obtain ⟨found, hfind, hspec⟩ := h.inv.find key
  cases found with
  | none =>
      refine ⟨st, nodes, ?_, h⟩
      rw [Step, call, CacheHistory.call, getCacheEntry_miss hfind, usedBy, if_neg hkey, hfind]
      rfl
  | some node =>
      obtain ⟨hmem, hnode⟩ := hspec node rfl
      obtain ⟨value, head, tail, next, prev, hrun, -, hinv⟩ := getCacheEntry_hit h.inv hkey hfind
      have hchange : Change st.toCacheHistory nodes (.get key)
          ⟨st.cache.relinked head tail next prev, st.latest⟩ (node :: nodes.erase node) :=
        .read (List.perm_cons_erase hmem).symm (fun _ => keyOf_relinked)
          (fun _ => valueOf_relinked) rfl
      refine ⟨_, _, ?_, h.moved hfind hallowed hinv (fun _ => keyOf_relinked) rfl rfl rfl
        (current_change h.current h.inv hkeeps hchange) (Set.subset_insert _ _)⟩
      rw [Step, call, CacheHistory.call, hrun, usedBy, if_neg hkey, hfind]
      rfl

theorem remove_recent (h : Recent capacity st nodes) (hallowed : st.KeepsRecency (.remove key)) :
    Step st (.remove key) st := by
  have hfind : findFromBucket key st.cache = some (none, st.cache) :=
    h.misses_of_unlisted hallowed
  rw [Step, call, CacheHistory.call, removeCacheEntry_miss hfind]
  rfl

theorem step (h : Recent capacity st nodes) (hallowed : st.KeepsRecency request) :
    ∃ st' nodes', Step st request st' ∧ Recent capacity st' nodes' := by
  cases request with
  | set key value =>
      by_cases hkey : key = []
      · subst hkey
        refine ⟨⟨⟨st.cache, Function.update st.latest [] (some value)⟩, st.since⟩, nodes, rfl,
          h.inv, h.capacity_eq, h.size, h.current.update h.current.ne_nil (some value), h.reach, ?_⟩
        rw [heldKeys_update_nil]
        exact h.recency
      · exact h.set_recent hkey hallowed
  | get key => exact h.get_recent hallowed
  | remove key => exact ⟨st, nodes, h.remove_recent hallowed, h⟩

/-- A key that is not too old is on the list, so it is found. -/
theorem get (h : Recent capacity st nodes) (hkey : key ≠ []) {value : Int64}
    (hlatest : st.latest key = some value) (hcard : (st.since key).card < capacity) :
    ∃ cache', getCacheEntry key st.cache = some (value, cache') := by
  have hheld : key ∈ heldKeys st.latest := ⟨hkey, by simp [hlatest]⟩
  obtain ⟨a, ha, hkeyA⟩ := mem_keys.mp (h.recency.mem_of_card_lt hheld hcard)
  obtain ⟨node, hfind⟩ := h.reach.find h.inv ha hkeyA
  obtain ⟨hmem, hnode⟩ := h.inv.found hfind
  obtain ⟨stored, head, tail, next, prev, hrun, hstored, -⟩ := getCacheEntry_hit h.inv hkey hfind
  have hsame : some stored = some value :=
    hstored.symm.trans ((h.current.latest node hmem key hnode).trans hlatest)
  obtain rfl := Option.some.inj hsame
  exact ⟨_, hrun⟩

end Recent

theorem start_recent {capacity : Nat} (h : 0 < capacity) : Recent capacity (start capacity) [] where
  inv := createInodeCache_inv h
  capacity_eq := rfl
  size := rfl
  current := ⟨by simp, by simp, by simp⟩
  reach := .nil
  recency := ⟨List.nodup_nil, List.Pairwise.nil, by simp [heldKeys, start, CacheHistory.start]⟩

private theorem recent_kept {capacity : Nat} (st : RecencyHistory) (request : CacheCall)
    (st' : RecencyHistory) (h : ∃ nodes, Recent capacity st nodes)
    (hallowed : st.KeepsRecency request) (hstep : Step st request st') :
    ∃ nodes, Recent capacity st' nodes := by
  obtain ⟨nodes, h⟩ := h
  obtain ⟨st'', nodes', hstep', h'⟩ := h.step hallowed
  obtain rfl : st'' = st' := Option.some.inj (hstep'.symm.trans hstep)
  exact ⟨nodes', h'⟩

/--
In every run that removes no key on the list, moves no node in front of the
pointer of its bucket and evicts no node that another bucket points to, the
latest value of a key is found as long as fewer than `capacity` others have
been set or found since, and every such call is defined.
-/
theorem getCacheEntry_recent {capacity : Nat} (hcapacity : 0 < capacity) {st : RecencyHistory}
    (hrun : Run Step (fun st request => st.KeepsRecency request) (start capacity) st) :
    (∀ key value, key ≠ [] → st.latest key = some value → (st.since key).card < capacity →
      ∃ cache', getCacheEntry key st.cache = some (value, cache')) ∧
      ∀ request, st.KeepsRecency request → ∃ st', Step st request st' := by
  obtain ⟨nodes, h⟩ : ∃ nodes, Recent capacity st nodes :=
    hrun.invariant ⟨[], start_recent hcapacity⟩ recent_kept
  constructor
  · intro key value hkey hlatest hcard
    exact h.get hkey hlatest hcard
  · intro request hallowed
    obtain ⟨st', -, hstep, -⟩ := h.step hallowed
    exact ⟨st', hstep⟩

theorem keepsRecency_of_check {st : RecencyHistory} {nodes : List Nat} {request : CacheCall}
    (h : CacheInv st.cache nodes) (hcheck : st.checkRecency request = true) :
    st.KeepsRecency request := by
  cases request with
  | set key value =>
      obtain ⟨hpointer, hroom⟩ := of_decide_eq_true hcheck
      exact fun _ => ⟨hpointer, fun hunlisted => (hroom hunlisted).evictsUnused h⟩
  | get key => exact of_decide_eq_true (p := st.AtPointer key) hcheck
  | remove key => exact of_decide_eq_true (p := st.Unlisted key) hcheck

/-- Three keys for two places: the key of the two that were there and was used last is found. -/
theorem getCacheEntry_recent_evicted :
    ∃ st, Run Step (fun st request => st.KeepsRecency request) (start 2) st ∧
      st.latest bKey = some 1 ∧ st.latest aKey = some 4 ∧
      ∃ cache', getCacheEntry upperKey st.cache = some (3, cache') := by
  have hend : ([.set bKey 1, .set upperKey 2, .get bKey, .set upperKey 3, .remove cKey,
      .set aKey 4].foldlM (guarded call fun st => st.checkRecency) (start 2)).any (fun st =>
        (st.latest bKey = some 1 ∧ st.latest aKey = some 4) ∧ st.latest upperKey = some 3 ∧
          (st.since upperKey).card < 2) = true := by decide
  obtain ⟨st, hcalls, hst⟩ := (Option.any_eq_true _ _).mp hend
  obtain ⟨⟨hb, ha⟩, hupper, hcard⟩ := of_decide_eq_true hst
  have hcapacity : 0 < 2 := by decide
  have hrun : Run Step (fun st request => st.KeepsRecency request) (start 2) st :=
    Run.of_checked ⟨[], start_recent hcapacity⟩ (fun _ _ _ hstep => hstep) recent_kept
      (fun _ _ ⟨_, h⟩ => keepsRecency_of_check h.inv) hcalls
  exact ⟨st, hrun, hb, ha,
    (getCacheEntry_recent hcapacity hrun).1 upperKey 3 (by decide) hupper hcard⟩

/-- A key found behind the pointer of its bucket is not found again. -/
theorem getCacheEntry_lost :
    ¬∀ capacity, 0 < capacity → ∀ st, Run Step (fun _ _ => True) (start capacity) st →
      ∀ key value, key ≠ [] → st.latest key = some value → (st.since key).card < capacity →
        ∃ cache', getCacheEntry key st.cache = some (value, cache') := by
  intro hclaim
  have hend : ([.set bKey 1, .set aKey 2, .get bKey].foldlM call (start 4)).any (fun st =>
      st.latest bKey = some 1 ∧ (st.since bKey).card < 4 ∧
        (getCacheEntry bKey st.cache).map Prod.fst = some (-1)) = true := by decide
  obtain ⟨st, hcalls, hst⟩ := (Option.any_eq_true _ _).mp hend
  obtain ⟨hlatest, hcard, hlost⟩ := of_decide_eq_true hst
  have hrun : Run Step (fun _ _ => True) (start 4) st :=
    Run.of_foldlM (fun _ _ _ hstep => hstep) hcalls
  obtain ⟨cache', hget⟩ := hclaim 4 (by decide) st hrun bKey 1 (by decide) hlatest hcard
  rw [hget] at hlost
  cases hlost

end RecencyHistory

end AltFs
