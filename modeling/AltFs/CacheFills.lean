import AltFs.CacheCalls

/-!
# Filling the inode cache

New keys set one after the other, starting with the empty cache.  The nodes
come from `malloc` in order, so the list holds the last `capacity` of them; a
bucket keeps pointing to its last node, also when that is gone.
-/

namespace AltFs

namespace InodeCache

/-- The addresses on the list after `count` insertions. -/
def window (capacity count : Nat) : List Nat :=
  (List.range' (count - capacity) (min count capacity)).reverse

section Window

variable {capacity count a : Nat}

theorem mem_window : a ∈ window capacity count ↔ count ≤ a + capacity ∧ a < count := by
  rw [window, List.mem_reverse, List.mem_range'_1]
  omega

theorem window_succ_roomy (h : count < capacity) :
    window capacity (count + 1) = count :: window capacity count := by
  have hnext : min (count + 1) capacity = count + 1 := by omega
  have hold : min count capacity = count := by omega
  have hstart : count + 1 - capacity = count - capacity := by omega
  have hlast : count - capacity + count = count := by omega
  rw [window, window, hnext, hold, hstart, List.range'_concat, List.reverse_append, Nat.one_mul,
    hlast]
  rfl

theorem window_succ_full (hpos : 0 < capacity) (h : capacity ≤ count) :
    ∃ first, window capacity count = first ++ [count - capacity] ∧
      window capacity (count + 1) = count :: first := by
  have hold : min count capacity = capacity - 1 + 1 := by omega
  have hnext : min (count + 1) capacity = capacity - 1 + 1 := by omega
  have hstart : count + 1 - capacity = count - capacity + 1 := by omega
  have hlast : count - capacity + 1 + (capacity - 1) = count := by omega
  refine ⟨(List.range' (count - capacity + 1) (capacity - 1)).reverse, ?_, ?_⟩
  · rw [window, hold, List.range'_succ, List.reverse_cons]
  · rw [window, hnext, hstart, List.range'_concat, List.reverse_append, Nat.one_mul, hlast]
    rfl

end Window

/-- Position `a` holds the last key of bucket `index`. -/
def LastIn (capacity : Nat) (keys : List CString) (index a : Nat) : Prop :=
  ∃ key, keys[a]? = some key ∧ hashFunc key % capacity = index ∧
    ∀ m later, a < m → keys[m]? = some later → hashFunc later % capacity ≠ index

/--
When a key is set, the last key of its bucket is at most `capacity` insertions
back.
-/
def Spaced (capacity : Nat) (keys : List CString) : Prop :=
  ∀ front key rest, keys = front ++ key :: rest →
    ∀ a, LastIn capacity front (hashFunc key % capacity) a → front.length ≤ a + capacity

section Keys

variable {capacity index a : Nat} {keys : List CString} {key : CString}

theorem LastIn.lt (h : LastIn capacity keys index a) : a < keys.length := by
  obtain ⟨key, hkey, -⟩ := h
  exact (List.getElem?_eq_some_iff.mp hkey).1

theorem lastIn_concat : LastIn capacity (keys ++ [key]) index a ↔
    if hashFunc key % capacity = index then a = keys.length else LastIn capacity keys index a := by
  have hnew : (keys ++ [key])[keys.length]? = some key := by simp
  split
  next hkey =>
    constructor
    · rintro ⟨found, hfound, -, hlater⟩
      have hlt := (List.getElem?_eq_some_iff.mp hfound).1
      rw [List.length_append, List.length_singleton] at hlt
      by_contra hne
      exact hlater keys.length key (by omega) hnew hkey
    · rintro rfl
      refine ⟨key, hnew, hkey, fun m later hm hmem => ?_⟩
      have := (List.getElem?_eq_some_iff.mp hmem).1
      rw [List.length_append, List.length_singleton] at this
      omega
  next hkey =>
    constructor
    · rintro ⟨found, hfound, hindex, hlater⟩
      have hlt : a < keys.length := by
        by_contra hge
        have hlast : a = keys.length := by
          have := (List.getElem?_eq_some_iff.mp hfound).1
          rw [List.length_append, List.length_singleton] at this
          omega
        rw [hlast, hnew] at hfound
        obtain rfl := Option.some.inj hfound
        exact hkey hindex
      rw [List.getElem?_append_left hlt] at hfound
      refine ⟨found, hfound, hindex, fun m later hm hmem => hlater m later hm ?_⟩
      rw [List.getElem?_append_left (List.getElem?_eq_some_iff.mp hmem).1]
      exact hmem
    · intro h
      have hlt := h.lt
      obtain ⟨found, hfound, hindex, hlater⟩ := h
      refine ⟨found, ?_, hindex, fun m later hm hmem => ?_⟩
      · rw [List.getElem?_append_left hlt]
        exact hfound
      · by_cases hmlt : m < keys.length
        · rw [List.getElem?_append_left hmlt] at hmem
          exact hlater m later hm hmem
        · have hlast : m = keys.length := by
            have := (List.getElem?_eq_some_iff.mp hmem).1
            rw [List.length_append, List.length_singleton] at this
            omega
          rw [hlast, hnew] at hmem
          obtain rfl := Option.some.inj hmem
          exact hkey

/-- As long as nothing has been evicted when the last key is set. -/
theorem spaced_of_length_le (h : keys.length ≤ capacity + 1) : Spaced capacity keys := by
  rintro front key rest rfl a -
  rw [List.length_append, List.length_cons] at h
  omega

theorem spaced_nil : Spaced capacity [] := spaced_of_length_le (Nat.zero_le _)

theorem spaced_concat : Spaced capacity (keys ++ [key]) ↔
    Spaced capacity keys ∧
      ∀ a, LastIn capacity keys (hashFunc key % capacity) a → keys.length ≤ a + capacity := by
  constructor
  · intro h
    constructor
    · intro front first rest heq
      exact h front first (rest ++ [key]) (by rw [heq, List.append_assoc, List.cons_append])
    · exact h keys key [] rfl
  · rintro ⟨hold, hnew⟩ front first rest heq
    rcases List.eq_nil_or_concat rest with rfl | ⟨rest', last, rfl⟩
    · obtain ⟨rfl, hlast⟩ := List.append_inj' heq rfl
      obtain ⟨rfl, -⟩ := List.cons_eq_cons.mp hlast
      exact hnew
    · rw [List.concat_eq_append, ← List.cons_append, ← List.append_assoc] at heq
      obtain ⟨rfl, -⟩ := List.append_inj' heq rfl
      exact hold front first rest' rfl

end Keys

/-- What the node at an address holds. -/
def stored (cache : InodeCache) (a : Nat) : Option (CString × Int64) :=
  (cache.heap a).map fun entry => (entry.key, entry.value)

section Stored

variable {cache : InodeCache} {head tail : Option Nat} {next prev : Nat → Option Nat}
  {node a : Nat} {key : CString} {value : Int64}

theorem stored_relinked : (cache.relinked head tail next prev).stored a = cache.stored a := by
  simp [stored, relinked, Function.comp_def]

theorem stored_freed : (cache.freed node).stored a = if a = node then none else cache.stored a := by
  by_cases h : a = node
  · simp [stored, freed, h]
  · simp [stored, freed, h]

theorem stored_allocated : (cache.allocated key value).stored a =
    if a = cache.brk then some (key, value) else cache.stored a := by
  by_cases h : a = cache.brk
  · simp [stored, allocated, h]
  · simp [stored, allocated, h]

theorem keyOf_of_stored {entry : CString × Int64} (h : cache.stored a = some entry) :
    cache.keyOf a = some entry.1 := by
  obtain ⟨node, hnode, rfl⟩ := Option.map_eq_some_iff.mp h
  simp [keyOf, hnode]

end Stored

/-- The cache after `entries` have been set in this order, each under a new key. -/
structure Filled (capacity : Nat) (entries : List (CString × Int64)) (cache : InodeCache) :
    Prop where
  list : CacheList cache (window capacity entries.length)
  stored : ∀ a, cache.stored a =
    if a ∈ window capacity entries.length then entries[a]? else none
  map : ∀ index a, cache.map index = some a ↔ LastIn capacity (entries.map Prod.fst) index a
  brk : cache.brk = entries.length
  capacity_eq : cache.capacity = capacity
  size : cache.size = min entries.length capacity

/-- What `set_cache_entry` does with a key that the search has not found. -/
structure SetNew (cache cache' : InodeCache) (first : List Nat) (gone : Option Nat)
    (key : CString) (value : Int64) : Prop where
  list : CacheList cache' (cache.brk :: first)
  stored : ∀ a, cache'.stored a =
    if some a = gone then none else if a = cache.brk then some (key, value) else cache.stored a
  map : ∀ i, cache'.map i = if i = cache.hashIndex key then some cache.brk else cache.map i
  brk : cache'.brk = cache.brk + 1
  capacity_eq : cache'.capacity = cache.capacity

section SetNew

variable {cache : InodeCache} {nodes first : List Nat} {last : Nat} {key : CString}

theorem setNew_roomy (h : CacheList cache nodes) (hkey : key ≠ [])
    (hmiss : findFromBucket key cache = some (none, cache)) (value : Int64)
    (hroom : cache.size < cache.capacity) :
    ∃ cache', setCacheEntry key value cache = some ((), cache') ∧
      SetNew cache cache' nodes none key value ∧ cache'.size = cache.size + 1 := by
  obtain ⟨head, tail, next, prev, hpush, hlist⟩ := pushFront_spec h key value
  let pushed := (cache.allocated key value).relinked head tail next prev
  have hevict : evict { pushed with size := pushed.size + 1 } =
      some ((), { pushed with size := pushed.size + 1 }) := by
    have hfits : ¬pushed.size + 1 > pushed.capacity := by
      change ¬cache.size + 1 > cache.capacity
      omega
    rw [evict, Prog.get_bind_apply]
    exact congrFun (if_neg hfits) _
  refine ⟨_, setCacheEntry_run hkey hmiss hpush hevict, ⟨?_, fun a => ?_, fun i => rfl, rfl, rfl⟩, rfl⟩
  · exact hlist.of_heap_eq rfl rfl rfl rfl
  · have hpushed : pushed.stored a =
        if a = cache.brk then some (key, value) else cache.stored a :=
      stored_relinked.trans stored_allocated
    rw [if_neg (by simp)]
    exact hpushed

private theorem evict_full (h : CacheList cache (first ++ [last])) (hfirst : first ≠ [])
    (hfull : cache.size > cache.capacity) :
    ∃ head tail next prev, evict cache =
        some ((), { (cache.relinked head tail next prev).freed last with size := cache.size - 1 }) ∧
      CacheList ((cache.relinked head tail next prev).freed last) first := by
  obtain ⟨head, tail, next, prev, hdelete, hlist⟩ := deleteNode_spec h (by simpa using hfirst)
  have htail : cache.tail = some last := by simp [h.tail]
  rw [List.append_nil] at hlist
  refine ⟨head, tail, next, prev, ?_, hlist⟩
  rw [evict, Prog.get_bind_apply, if_pos hfull, htail]
  exact Prog.bind_of_eq hdelete

theorem setNew_full (h : CacheList cache (first ++ [last])) (hkey : key ≠ [])
    (hmiss : findFromBucket key cache = some (none, cache)) (value : Int64)
    (hfull : cache.size = cache.capacity) :
    ∃ cache', setCacheEntry key value cache = some ((), cache') ∧
      SetNew cache cache' first (some last) key value ∧ cache'.size = cache.size := by
  obtain ⟨head, tail, next, prev, hpush, hlist⟩ := pushFront_spec h key value
  let pushed := (cache.allocated key value).relinked head tail next prev
  have hcounted : CacheList { pushed with size := pushed.size + 1 }
      (cache.brk :: first ++ [last]) := hlist.of_heap_eq rfl rfl rfl rfl
  have hmore : pushed.size + 1 > pushed.capacity := by
    change cache.size + 1 > cache.capacity
    omega
  obtain ⟨head', tail', next', prev', hevict, hlist'⟩ :=
    evict_full hcounted (List.cons_ne_nil _ _) hmore
  refine ⟨_, setCacheEntry_run hkey hmiss hpush hevict, ⟨?_, fun a => ?_, fun i => rfl, rfl, rfl⟩, rfl⟩
  · exact hlist'.of_heap_eq rfl rfl rfl rfl
  · have hpushed : pushed.stored a =
        if a = cache.brk then some (key, value) else cache.stored a :=
      stored_relinked.trans stored_allocated
    have hrelinked : ({ pushed with size := pushed.size + 1 }.relinked head' tail' next' prev').stored
        a = pushed.stored a := stored_relinked
    simp only [Option.some_inj]
    rw [← hpushed, ← hrelinked]
    exact stored_freed

end SetNew

namespace Filled

variable {capacity : Nat} {entries : List (CString × Int64)} {cache : InodeCache} {key : CString}

theorem create (hpos : 0 < capacity) : Filled capacity [] (createInodeCache capacity) where
  list := (createInodeCache_inv hpos).list
  stored a := by
    rw [if_neg]
    · rfl
    · rw [mem_window]
      rintro ⟨-, hlt⟩
      exact Nat.not_lt_zero _ hlt
  map index a := by simp [createInodeCache, LastIn]
  brk := rfl
  capacity_eq := rfl
  size := by simp [createInodeCache]

theorem hashIndex_eq (h : Filled capacity entries cache) (key : CString) :
    cache.hashIndex key = hashFunc key % capacity := by
  rw [hashIndex, h.capacity_eq]

theorem stored_of_mem (h : Filled capacity entries cache) {a : Nat}
    (ha : a ∈ window capacity entries.length) : ∃ entry ∈ entries, cache.stored a = some entry := by
  have hlt := (mem_window.mp ha).2
  refine ⟨entries[a], List.getElem_mem hlt, ?_⟩
  rw [h.stored, if_pos ha, List.getElem?_eq_getElem hlt]

/-- A new key is not found, if the pointer of its bucket is not dangling. -/
theorem misses (h : Filled capacity entries cache) (hfresh : key ∉ entries.map Prod.fst)
    (hlast : ∀ a, LastIn capacity (entries.map Prod.fst) (hashFunc key % capacity) a →
      entries.length ≤ a + capacity) :
    findFromBucket key cache = some (none, cache) := by
  have hpointer : ∀ a, cache.map (cache.hashIndex key) = some a →
      a ∈ window capacity entries.length := by
    intro a ha
    rw [h.hashIndex_eq, h.map] at ha
    have hlt := ha.lt
    rw [List.length_map] at hlt
    exact mem_window.mpr ⟨hlast a ha, hlt⟩
  rw [findFromBucket_spec key h.list hpointer, List.find?_eq_none.mpr]
  intro a ha hkey
  obtain ⟨entry, hentry, hstored⟩ := h.stored_of_mem (bucketNodes_suffix.subset ha)
  rw [hasKey, keyOf_of_stored hstored] at hkey
  exact hfresh (List.mem_map.mpr ⟨entry, hentry, by simpa using hkey⟩)

/-- The pointer of a bucket outlives the node it points to. -/
theorem set_stuck (h : Filled capacity entries cache) (hkey : key ≠ []) {a : Nat}
    (hlast : LastIn capacity (entries.map Prod.fst) (hashFunc key % capacity) a)
    (hfar : ¬entries.length ≤ a + capacity) (value : Int64) :
    setCacheEntry key value cache = none := by
  have hdead : cache.heap a = none := by
    have hstored := h.stored a
    rw [if_neg fun hmem => hfar (mem_window.mp hmem).1] at hstored
    exact Option.map_eq_none_iff.mp hstored
  have hpointer : cache.map (cache.hashIndex key) = some a := by
    rw [h.hashIndex_eq, h.map]
    exact hlast
  have hfind : findFromBucket key cache = none := by
    rw [findFromBucket, Prog.get_bind_apply, hpointer, findEntry, Prog.bind_apply, deref, hdead]
    rfl
  rw [setCacheEntry, if_neg hkey, Prog.bind_apply, hfind]

theorem of_setNew {cache' : InodeCache} {first : List Nat} {gone : Option Nat} {value : Int64}
    (h : Filled capacity entries cache) (hnew : SetNew cache cache' first gone key value)
    (hwindow : window capacity (entries.length + 1) = entries.length :: first)
    (hgone : ∀ a, some a = gone ↔ a + capacity = entries.length)
    (hsize : cache'.size = min (entries.length + 1) capacity) :
    Filled capacity (entries ++ [(key, value)]) cache' where
  list := by
    rw [List.length_append, List.length_singleton, hwindow, ← h.brk]
    exact hnew.list
  stored a := by
    rw [List.length_append, List.length_singleton, hnew.stored, h.stored, h.brk]
    simp only [hgone, mem_window]
    by_cases hold : a < entries.length
    · rw [List.getElem?_append_left hold]
      grind
    · by_cases hlast : a = entries.length
      · rw [hlast, List.getElem?_concat_length]
        grind
      · grind
  map index a := by
    rw [hnew.map, List.map_append, List.map_singleton, lastIn_concat, h.hashIndex_eq, h.brk,
      List.length_map]
    by_cases hindex : index = hashFunc key % capacity
    · rw [if_pos hindex, if_pos hindex.symm, Option.some_inj, eq_comm]
    · rw [if_neg hindex, if_neg (Ne.symm hindex), h.map]
  brk := by rw [hnew.brk, h.brk, List.length_append, List.length_singleton]
  capacity_eq := hnew.capacity_eq.trans h.capacity_eq
  size := by rw [hsize, List.length_append, List.length_singleton]

/-- Setting one more new key. -/
theorem set (h : Filled capacity entries cache) (hpos : 0 < capacity) (hkey : key ≠ [])
    (hfresh : key ∉ entries.map Prod.fst)
    (hlast : ∀ a, LastIn capacity (entries.map Prod.fst) (hashFunc key % capacity) a →
      entries.length ≤ a + capacity) (value : Int64) :
    ∃ cache', setCacheEntry key value cache = some ((), cache') ∧
      Filled capacity (entries ++ [(key, value)]) cache' := by
  have hmiss := h.misses hfresh hlast
  have hsize := h.size
  by_cases hroom : entries.length < capacity
  · obtain ⟨cache', hrun, hnew, hsize'⟩ :=
      setNew_roomy h.list hkey hmiss value (by rw [hsize, h.capacity_eq]; omega)
    refine ⟨cache', hrun, h.of_setNew hnew (window_succ_roomy hroom) (fun a => ?_) (by omega)⟩
    exact iff_of_false nofun (by omega)
  · obtain ⟨first, hwindow, hnext⟩ :=
      window_succ_full hpos (show capacity ≤ entries.length by omega)
    obtain ⟨cache', hrun, hnew, hsize'⟩ :=
      setNew_full (hwindow ▸ h.list) hkey hmiss value (by rw [hsize, h.capacity_eq]; omega)
    refine ⟨cache', hrun, h.of_setNew hnew hnext (fun a => ?_) (by omega)⟩
    rw [Option.some_inj]
    omega

end Filled

end InodeCache

end AltFs
