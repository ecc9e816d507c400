import AltFs.CacheList

/-!
# Calls of the inode cache

What `get_cache_entry`, `set_cache_entry` and `remove_cache_entry` do to a
cache whose list is intact and whose bucket pointers all point into it.
-/

namespace AltFs

namespace InodeCache

structure CacheInv (cache : InodeCache) (nodes : List Nat) : Prop where
  list : CacheList cache nodes
  slots : ∀ index a, cache.map index = some a →
    a ∈ nodes ∧ ∀ key, cache.keyOf a = some key → cache.hashIndex key = index
  empty : nodes = [] → cache.size = 0
  capacity_pos : 0 < cache.capacity
  size_le : cache.size ≤ cache.capacity

variable {cache cache' : InodeCache} {nodes nodes' kept : List Nat} {node : Nat}
  {head tail : Option Nat} {next prev : Nat → Option Nat} {key : CString} {value : Int64}

theorem createInodeCache_inv {capacity : Nat} (h : 0 < capacity) :
    CacheInv (createInodeCache capacity) [] where
  list :=
    { live := by simp
      fresh := by simp
      nodup := List.nodup_nil
      linked := trivial
      head := rfl
      tail := rfl }
  slots := by simp [createInodeCache]
  empty := fun _ => rfl
  capacity_pos := h
  size_le := Nat.zero_le _

/-- A node of the list has the key. -/
def Holds (cache : InodeCache) (key : CString) : Prop :=
  ∃ a ∈ cache.nodes, cache.keyOf a = some key

namespace CacheInv

theorem find (h : CacheInv cache nodes) (key : CString) :
    ∃ found, findFromBucket key cache = some (found, cache) ∧
      ∀ a, found = some a → a ∈ nodes ∧ cache.keyOf a = some key := by
  refine ⟨_, findFromBucket_spec key h.list fun a ha => (h.slots _ a ha).1, fun a ha => ?_⟩
  refine ⟨bucketNodes_suffix.subset (List.mem_of_find?_eq_some ha), ?_⟩
  simpa [hasKey] using List.find?_some ha

theorem found (h : CacheInv cache nodes) (hfind : findFromBucket key cache = some (some node, cache)) :
    node ∈ nodes ∧ cache.keyOf node = some key := by
  obtain ⟨found, hfound, hspec⟩ := h.find key
  rw [hfind] at hfound
  cases hfound
  exact hspec node rfl

theorem holds_iff (h : CacheInv cache nodes) :
    cache.Holds key ↔ ∃ a ∈ nodes, cache.keyOf a = some key := by
  rw [Holds, h.list.nodes_eq]

theorem relinked (h : CacheInv cache nodes) (hperm : nodes'.Perm nodes)
    (hlist : CacheList (cache.relinked head tail next prev) nodes') :
    CacheInv (cache.relinked head tail next prev) nodes' where
  list := hlist
  slots := fun index a ha => by
    obtain ⟨hmem, hkey⟩ := h.slots index a ha
    refine ⟨hperm.mem_iff.mpr hmem, fun key hkey' => ?_⟩
    rw [keyOf_relinked] at hkey'
    exact hkey key hkey'
  empty := fun hnil => h.empty (by rwa [hnil, List.nil_perm] at hperm)
  capacity_pos := h.capacity_pos
  size_le := h.size_le

/-- A hit keeps the nodes, with the one found in front. -/
theorem moveToFront_spec (h : CacheInv cache nodes) (hnode : node ∈ nodes) :
    ∃ head tail next prev,
      moveToFront node cache = some ((), cache.relinked head tail next prev) ∧
        CacheInv (cache.relinked head tail next prev) (node :: nodes.erase node) := by
  have hperm : (node :: nodes.erase node).Perm nodes := (List.perm_cons_erase hnode).symm
  obtain ⟨first, rest, rfl⟩ := List.append_of_mem hnode
  obtain ⟨head, tail, next, prev, hrun, hlist⟩ := InodeCache.moveToFront_spec h.list
  have hfirst : node ∉ first := fun hmem =>
    (List.nodup_middle.mp h.list.nodup).notMem (List.mem_append_left _ hmem)
  rw [List.erase_append_right _ hfirst, List.erase_cons_head] at hperm ⊢
  exact ⟨head, tail, next, prev, hrun, h.relinked hperm hlist⟩

end CacheInv

/-- The keys are those of before when the nodes are. -/
theorem CacheInv.holds_of_perm (h : CacheInv cache nodes) (h' : CacheInv cache' nodes')
    (hperm : nodes'.Perm nodes) (hkey : ∀ a, cache'.keyOf a = cache.keyOf a) :
    cache'.Holds key ↔ cache.Holds key := by
  rw [h.holds_iff, h'.holds_iff]
  simp only [hkey, hperm.mem_iff]

theorem findFromBucket_empty (hslot : cache.map (cache.hashIndex key) = none) :
    findFromBucket key cache = some (none, cache) := by
  rw [findFromBucket, Prog.get_bind_apply, hslot]
  rfl

/-- A bucket that points to the head has the whole list searched. -/
theorem CacheInv.findFromBucket_head (h : CacheInv cache (node :: nodes))
    (hslot : cache.map (cache.hashIndex key) = some node) :
    findFromBucket key cache = some ((node :: nodes).find? (cache.hasKey key), cache) := by
  rw [findFromBucket_spec key h.list fun a ha => (h.slots _ a ha).1, bucketNodes, hslot]
  simp

/-! ## `get_cache_entry` -/

theorem getCacheEntry_miss (hfind : findFromBucket key cache = some (none, cache)) :
    getCacheEntry key cache = some (-1, cache) := by
  rw [getCacheEntry]
  split
  · rfl
  · rw [Prog.bind_of_eq hfind]
    rfl

theorem getCacheEntry_hit (h : CacheInv cache nodes) (hkey : key ≠ [])
    (hfind : findFromBucket key cache = some (some node, cache)) :
    ∃ value head tail next prev,
      getCacheEntry key cache = some (value, cache.relinked head tail next prev) ∧
        cache.valueOf node = some value ∧
        CacheInv (cache.relinked head tail next prev) (node :: nodes.erase node) := by
  obtain ⟨hmem, -⟩ := h.found hfind
  obtain ⟨entry, hentry⟩ := live_iff.mp (h.list.live node hmem)
  obtain ⟨head, tail, next, prev, hrun, hinv⟩ := h.moveToFront_spec hmem
  refine ⟨entry.value, head, tail, next, prev, ?_, ?_, hinv⟩
  · rw [getCacheEntry, if_neg hkey, Prog.bind_of_eq hfind]
    simp only [Prog.bind_of_eq hrun, Prog.bind_of_eq (deref_relinked hentry), Prog.pure_apply]
  · simp [valueOf, hentry]

/-! ## `set_cache_entry` -/

def withValue (cache : InodeCache) (node : Nat) (value : Int64) : InodeCache :=
  { cache with
    heap := fun a => if some a = some node
      then (cache.heap a).map fun entry => { entry with value := value } else cache.heap a }

theorem keyOf_withValue (cache : InodeCache) (node : Nat) (value : Int64) (a : Nat) :
    (cache.withValue node value).keyOf a = cache.keyOf a := by
  by_cases ha : a = node <;> simp [keyOf, withValue, ha, Function.comp_def]

theorem nextOf_withValue (cache : InodeCache) (node : Nat) (value : Int64) (a : Nat) :
    (cache.withValue node value).nextOf a = cache.nextOf a := by
  by_cases ha : a = node
  · cases hnode : cache.heap node <;> simp [nextOf, withValue, ha, hnode]
  · simp [nextOf, withValue, ha]

theorem prevOf_withValue (cache : InodeCache) (node : Nat) (value : Int64) (a : Nat) :
    (cache.withValue node value).prevOf a = cache.prevOf a := by
  by_cases ha : a = node
  · cases hnode : cache.heap node <;> simp [prevOf, withValue, ha, hnode]
  · simp [prevOf, withValue, ha]

theorem CacheInv.withValue (h : CacheInv cache nodes) (node : Nat) (value : Int64) :
    CacheInv (cache.withValue node value) nodes where
  list :=
    { live := fun a ha => by
        have := h.list.live a ha
        by_cases heq : a = node <;> simpa [live, InodeCache.withValue, heq] using this
      fresh := h.list.fresh
      nodup := h.list.nodup
      linked := h.list.linked.congr (fun a _ => cache.nextOf_withValue node value a)
        fun a _ => cache.prevOf_withValue node value a
      head := h.list.head
      tail := h.list.tail }
  slots := fun index a ha => by
    obtain ⟨hmem, hkey⟩ := h.slots index a ha
    refine ⟨hmem, fun key hkey' => ?_⟩
    rw [keyOf_withValue] at hkey'
    exact hkey key hkey'
  empty := h.empty
  capacity_pos := h.capacity_pos
  size_le := h.size_le

theorem setCacheEntry_hit (h : CacheInv cache nodes) (hkey : key ≠ [])
    (hfind : findFromBucket key cache = some (some node, cache)) (value : Int64) :
    ∃ head tail next prev,
      setCacheEntry key value cache =
        some ((), (cache.withValue node value).relinked head tail next prev) ∧
      CacheInv ((cache.withValue node value).relinked head tail next prev)
        (node :: nodes.erase node) := by
  obtain ⟨hmem, -⟩ := h.found hfind
  obtain ⟨entry, hentry⟩ := live_iff.mp (h.list.live node hmem)
  obtain ⟨head, tail, next, prev, hrun, hinv⟩ := (h.withValue node value).moveToFront_spec hmem
  refine ⟨head, tail, next, prev, ?_, hinv⟩
  have hupdate : update (some node) (fun entry => { entry with value := value }) cache =
      some ((), cache.withValue node value) := by
    rw [update, Prog.bind_of_eq (deref_run hentry), Prog.modify_apply, InodeCache.withValue]
    congr 3
    funext a
    by_cases ha : a = node <;> simp [ha, hentry]
  rw [setCacheEntry, if_neg hkey, Prog.bind_of_eq hfind]
  simp only [Prog.bind_of_eq hupdate, hrun]

/-! ## Deletion and eviction -/

/-- Of the list only `kept` is left; its nodes hold what they held before. -/
structure Trimmed (cache cache' : InodeCache) (nodes kept : List Nat) : Prop where
  list : CacheList cache' kept
  sublist : kept.Sublist nodes
  keyOf : ∀ a ∈ kept, cache'.keyOf a = cache.keyOf a
  valueOf : ∀ a ∈ kept, cache'.valueOf a = cache.valueOf a
  map : cache'.map = cache.map
  capacity : cache'.capacity = cache.capacity

theorem deleteNode_trimmed {first rest : List Nat} (h : CacheList cache (first ++ node :: rest))
    (hother : first ++ rest ≠ []) :
    ∃ cache', deleteNode node cache = some ((), cache') ∧
      Trimmed cache cache' (first ++ node :: rest) (first ++ rest) ∧ cache'.size = cache.size := by
  obtain ⟨head, tail, next, prev, hrun, hlist⟩ := deleteNode_spec h hother
  have hne : ∀ a ∈ first ++ rest, a ≠ node := by
    rintro a ha rfl
    exact (List.nodup_middle.mp h.nodup).notMem ha
  refine ⟨_, hrun, ⟨hlist, by simp, fun a ha => ?_, fun a ha => ?_, rfl, rfl⟩, rfl⟩
  · simp [keyOf, freed, hne a ha, InodeCache.relinked, Function.comp_def]
  · simp [valueOf, freed, hne a ha, InodeCache.relinked, Function.comp_def]

theorem evict_spec (h : CacheList cache nodes)
    (hother : cache.capacity < cache.size → 2 ≤ nodes.length) :
    ∃ cache', evict cache = some ((), cache') ∧
      Trimmed cache cache' nodes (if cache.capacity < cache.size then nodes.dropLast else nodes) ∧
      cache'.size = if cache.capacity < cache.size then cache.size - 1 else cache.size := by
  rw [evict, Prog.get_bind_apply]
  by_cases hfull : cache.capacity < cache.size
  · have hlength := hother hfull
    rcases List.eq_nil_or_concat nodes with rfl | ⟨first, last, rfl⟩
    · simp at hlength
    rw [List.concat_eq_append] at h hlength ⊢
    have htail : cache.tail = some last := by simp [h.tail]
    have hfirst : first ++ [] ≠ [] := by
      cases first with
      | nil => simp at hlength
      | cons _ _ => simp
    obtain ⟨cache', hrun, htrimmed, hsize⟩ := deleteNode_trimmed h hfirst
    rw [if_pos hfull, if_pos hfull, if_pos hfull, htail, List.dropLast_concat]
    rw [List.append_nil] at htrimmed
    refine ⟨_, Prog.bind_of_eq hrun, ⟨?_, htrimmed.sublist, htrimmed.keyOf, htrimmed.valueOf,
      htrimmed.map, htrimmed.capacity⟩, ?_⟩
    · exact ⟨htrimmed.list.live, htrimmed.list.fresh, htrimmed.list.nodup, htrimmed.list.linked,
        htrimmed.list.head, htrimmed.list.tail⟩
    · rw [← hsize]
  · rw [if_neg hfull, if_neg hfull, if_neg hfull]
    exact ⟨cache, rfl, ⟨h, List.Sublist.refl _, fun _ _ => rfl, fun _ _ => rfl, rfl, rfl⟩, rfl⟩

/-! ## Insertion -/

theorem CacheList.of_heap_eq (h : CacheList cache nodes) (hheap : cache'.heap = cache.heap)
    (hhead : cache'.head = cache.head) (htail : cache'.tail = cache.tail)
    (hbrk : cache'.brk = cache.brk) : CacheList cache' nodes where
  live := fun a ha => by
    rw [InodeCache.live, hheap]
    exact h.live a ha
  fresh := fun a ha => hbrk ▸ h.fresh a ha
  nodup := h.nodup
  linked := h.linked.congr (fun a _ => by rw [nextOf, nextOf, hheap])
    fun a _ => by rw [prevOf, prevOf, hheap]
  head := hhead.trans h.head
  tail := htail.trans h.tail

/-- The node `node` is new at the front of the list. -/
structure Pushed (cache cache' : InodeCache) (nodes : List Nat) (node : Nat) (key : CString)
    (value : Int64) : Prop where
  list : CacheList cache' (node :: nodes)
  entries : ∀ a ∈ nodes, cache'.keyOf a = cache.keyOf a ∧ cache'.valueOf a = cache.valueOf a
  keyOf : cache'.keyOf node = some key
  valueOf : cache'.valueOf node = some value
  size : cache'.size = cache.size
  capacity : cache'.capacity = cache.capacity
  map : cache'.map = cache.map

private theorem pushFront_pushed (h : CacheList cache nodes) (key : CString) (value : Int64) :
    ∃ pushed, pushFront key value cache = some (cache.brk, pushed) ∧
      Pushed cache pushed nodes cache.brk key value := by
  obtain ⟨head, tail, next, prev, hpush, hlist⟩ := pushFront_spec h key value
  refine ⟨_, hpush, hlist, fun a ha => ?_, ?_, ?_, rfl, rfl, rfl⟩
  · rw [keyOf_relinked, valueOf_relinked, keyOf, valueOf, keyOf, valueOf,
      heap_allocated (h.fresh a ha)]
    exact ⟨rfl, rfl⟩
  · rw [keyOf_relinked]
    simp [keyOf, allocated]
  · rw [valueOf_relinked]
    simp [valueOf, allocated]

/-- The last node goes when the list has outgrown the capacity. -/
private def keptNodes (cache : InodeCache) (nodes : List Nat) : List Nat :=
  if cache.capacity < cache.size + 1 then nodes.dropLast else nodes

private theorem keptNodes_sublist : (keptNodes cache nodes).Sublist nodes := by
  rw [keptNodes]
  split
  · exact List.dropLast_sublist nodes
  · exact List.Sublist.refl nodes

private theorem length_keptNodes (h : CacheInv cache nodes) :
    (if cache.capacity < cache.size + 1 then cache.size else cache.size + 1) + nodes.length =
      cache.size + (keptNodes cache nodes).length + 1 := by
  have hcapacity := h.capacity_pos
  rw [keptNodes]
  split
  · have hne : nodes ≠ [] := fun hnil => by
      have := h.empty hnil
      omega
    have := List.length_pos_iff.mpr hne
    rw [List.length_dropLast]
    omega
  · omega

private theorem mem_keptNodes (h : CacheInv cache nodes) {a : Nat} (ha : a ∈ nodes)
    (hsafe : cache.capacity ≤ cache.size → cache.tail ≠ some a) : a ∈ keptNodes cache nodes := by
  rw [keptNodes]
  split
  · next hfull =>
      have hne := hsafe (by omega)
      rw [h.list.tail] at hne
      obtain ⟨first, last, rfl⟩ : ∃ first last, nodes = first ++ [last] :=
        ⟨_, _, (List.dropLast_append_getLast (List.ne_nil_of_mem ha)).symm⟩
      rw [List.getLast?_append_cons, List.getLast?_singleton] at hne
      rw [List.dropLast_concat]
      rcases List.mem_append.mp ha with ha | ha
      · exact ha
      · exact absurd (List.mem_singleton.mp ha ▸ rfl) hne
  · exact ha

private theorem evict_pushed {pushed : InodeCache} (h : CacheInv cache nodes)
    (hpushed : Pushed cache pushed nodes node key value) :
    ∃ evicted, evict { pushed with size := pushed.size + 1 } = some ((), evicted) ∧
      Trimmed pushed evicted (node :: nodes) (node :: keptNodes cache nodes) ∧
      evicted.size =
        if cache.capacity < cache.size + 1 then cache.size else cache.size + 1 := by
  have hcapacity := h.capacity_pos
  have hnil : cache.capacity < cache.size + 1 → nodes ≠ [] := fun hfull hnil => by
    have := h.empty hnil
    omega
  have hcounted : CacheList { pushed with size := pushed.size + 1 } (node :: nodes) :=
    hpushed.list.of_heap_eq rfl rfl rfl rfl
  obtain ⟨evicted, hevict, htrimmed, hsize⟩ := evict_spec hcounted (by
    simp only [hpushed.size, hpushed.capacity]
    intro hfull
    have := List.length_pos_iff.mpr (hnil hfull)
    rw [List.length_cons]
    omega)
  simp only [hpushed.size, hpushed.capacity, Nat.add_sub_cancel] at hsize htrimmed
  have hkept : (if cache.capacity < cache.size + 1 then (node :: nodes).dropLast
      else node :: nodes) = node :: keptNodes cache nodes := by
    rw [keptNodes]
    split
    · next hfull => rw [List.dropLast_cons_of_ne_nil (hnil hfull)]
    · rfl
  rw [hkept] at htrimmed
  exact ⟨evicted, hevict, ⟨htrimmed.list, htrimmed.sublist, htrimmed.keyOf, htrimmed.valueOf,
    htrimmed.map, htrimmed.capacity.trans hpushed.capacity.symm⟩, hsize⟩

theorem setCacheEntry_run {pushed evicted : InodeCache} (hkey : key ≠ [])
    (hfind : findFromBucket key cache = some (none, cache))
    (hpush : pushFront key value cache = some (node, pushed))
    (hevict : evict { pushed with size := pushed.size + 1 } = some ((), evicted)) :
    setCacheEntry key value cache = some ((), { evicted with
      map := fun i => if i = evicted.hashIndex key then some node else evicted.map i }) := by
  rw [setCacheEntry, if_neg hkey, Prog.bind_of_eq hfind]
  simp only [Prog.bind_of_eq hpush, Prog.modify_bind_apply, Prog.bind_of_eq hevict,
    Prog.get_bind_apply]
  rfl

structure Inserted (cache cache' : InodeCache) (nodes kept : List Nat) (key : CString)
    (value : Int64) : Prop where
  inv : CacheInv cache' (cache.brk :: kept)
  sublist : kept.Sublist nodes
  entries : ∀ a ∈ kept, cache'.keyOf a = cache.keyOf a ∧ cache'.valueOf a = cache.valueOf a
  keyOf : cache'.keyOf cache.brk = some key
  valueOf : cache'.valueOf cache.brk = some value
  size : cache'.size + nodes.length = cache.size + kept.length + 1
  capacity : cache'.capacity = cache.capacity
  map : ∀ i, cache'.map i = if i = cache.hashIndex key then some cache.brk else cache.map i
  roomy : cache.size < cache.capacity → kept = nodes
  full : cache.capacity ≤ cache.size → kept = nodes.dropLast

theorem Inserted.slot (h : Inserted cache cache' nodes kept key value) :
    cache'.map (cache.hashIndex key) = some cache.brk := by
  rw [h.map, if_pos rfl]

/--
Inserting a key that the search did not find, while no other bucket pointer
refers to a node about to be evicted.
-/
theorem setCacheEntry_miss (h : CacheInv cache nodes) (hkey : key ≠ [])
    (hfind : findFromBucket key cache = some (none, cache)) (value : Int64)
    (hsafe : cache.capacity ≤ cache.size →
      ∀ index, index ≠ cache.hashIndex key → cache.map index ≠ cache.tail) :
    ∃ cache' kept, setCacheEntry key value cache = some ((), cache') ∧
      Inserted cache cache' nodes kept key value := by
  have hcapacity := h.capacity_pos
  have hsize := h.size_le
  obtain ⟨pushed, hpush, hpushed⟩ := pushFront_pushed h.list key value
  obtain ⟨evicted, hevict, htrimmed, hevictedSize⟩ := evict_pushed h hpushed
  have hcapacity' : evicted.capacity = cache.capacity :=
    htrimmed.capacity.trans hpushed.capacity
  have hnew : evicted.keyOf cache.brk = some key ∧ evicted.valueOf cache.brk = some value :=
    ⟨(htrimmed.keyOf _ List.mem_cons_self).trans hpushed.keyOf,
      (htrimmed.valueOf _ List.mem_cons_self).trans hpushed.valueOf⟩
  have hentries : ∀ a ∈ keptNodes cache nodes,
      evicted.keyOf a = cache.keyOf a ∧ evicted.valueOf a = cache.valueOf a := by
    intro a ha
    obtain ⟨hkeyOf, hvalueOf⟩ := hpushed.entries a (keptNodes_sublist.subset ha)
    exact ⟨(htrimmed.keyOf a (List.mem_cons_of_mem _ ha)).trans hkeyOf,
      (htrimmed.valueOf a (List.mem_cons_of_mem _ ha)).trans hvalueOf⟩
  have hlength := length_keptNodes h
  rw [← hevictedSize] at hlength
  have hindex : ∀ key, evicted.hashIndex key = cache.hashIndex key := fun key => by
    rw [hashIndex, hashIndex, hcapacity']
  refine ⟨_, keptNodes cache nodes, setCacheEntry_run hkey hfind hpush hevict,
    ⟨htrimmed.list.of_heap_eq rfl rfl rfl rfl, ?_, by simp, ?_, ?_⟩, keptNodes_sublist,
    hentries, hnew.1, hnew.2, hlength, hcapacity', ?_, fun hroom => ?_, fun hfull => ?_⟩
  · intro index a ha
    simp only [htrimmed.map, hpushed.map, hindex] at ha
    split at ha
    · next heq =>
        cases ha
        refine ⟨List.mem_cons_self, fun key' hkey' => ?_⟩
        obtain rfl : key = key' := Option.some.inj (hnew.1.symm.trans hkey')
        exact (hindex key).trans heq.symm
    · next hne =>
        obtain ⟨hmem, hslot⟩ := h.slots index a ha
        have hkept := mem_keptNodes h hmem fun hfull htail =>
          hsafe hfull index hne (ha.trans htail.symm)
        refine ⟨List.mem_cons_of_mem _ hkept, fun key' hkey' => ?_⟩
        exact (hindex key').trans (hslot key' ((hentries a hkept).1.symm.trans hkey'))
  · exact hcapacity' ▸ h.capacity_pos
  · simp only [hevictedSize, hcapacity']
    split <;> omega
  · simp only [hindex, htrimmed.map, hpushed.map, implies_true]
  · rw [keptNodes, if_neg (by omega)]
  · rw [keptNodes, if_pos (by omega)]

/-! ## `remove_cache_entry` -/

theorem removeCacheEntry_miss (hfind : findFromBucket key cache = some (none, cache)) :
    removeCacheEntry key cache = some (false, cache) := by
  rw [removeCacheEntry, Prog.bind_of_eq hfind]
  rfl

structure Removed (cache cache' : InodeCache) (nodes : List Nat) (node : Nat) (key : CString) :
    Prop where
  inv : CacheInv cache' (nodes.erase node)
  entries : ∀ a ∈ nodes.erase node,
    cache'.keyOf a = cache.keyOf a ∧ cache'.valueOf a = cache.valueOf a
  size : cache'.size = cache.size
  capacity : cache'.capacity = cache.capacity
  slot : cache'.map (cache.hashIndex key) = none

theorem removeCacheEntry_hit (h : CacheInv cache nodes)
    (hfind : findFromBucket key cache = some (some node, cache)) (hother : nodes ≠ [node]) :
    ∃ cache', removeCacheEntry key cache = some (true, cache') ∧
      Removed cache cache' nodes node key := by
  obtain ⟨hmem, hkey⟩ := h.found hfind
  obtain ⟨first, rest, rfl⟩ := List.append_of_mem hmem
  have hkept : first ++ rest ≠ [] := by
    intro hnil
    obtain ⟨rfl, rfl⟩ := List.append_eq_nil_iff.mp hnil
    exact hother rfl
  have hnot : node ∉ first ++ rest := (List.nodup_middle.mp h.list.nodup).notMem
  have herase : (first ++ node :: rest).erase node = first ++ rest := by
    rw [List.erase_append_right _ fun hfirst => hnot (List.mem_append_left _ hfirst),
      List.erase_cons_head]
  obtain ⟨trimmed, hrun, htrimmed, hsize⟩ := deleteNode_trimmed h.list hkept
  have hindex : ∀ key, trimmed.hashIndex key = cache.hashIndex key := fun key => by
    rw [hashIndex, hashIndex, htrimmed.capacity]
  refine ⟨{ trimmed with
      map := fun i => if i = trimmed.hashIndex key then none else trimmed.map i }, ?_, ?_⟩
  · rw [removeCacheEntry, Prog.bind_of_eq hfind]
    simp only [Prog.bind_of_eq hrun, Prog.get_bind_apply]
    rfl
  rw [← herase] at htrimmed
  refine ⟨⟨htrimmed.list.of_heap_eq rfl rfl rfl rfl, fun index a ha => ?_, fun hnil => ?_, ?_, ?_⟩,
    fun a ha => ⟨htrimmed.keyOf a ha, htrimmed.valueOf a ha⟩, hsize, htrimmed.capacity, ?_⟩
  · simp only [htrimmed.map, hindex] at ha
    split at ha
    · cases ha
    · next hne =>
        obtain ⟨hmem, hslot⟩ := h.slots index a ha
        have ha' : a ∈ (first ++ node :: rest).erase node := by
          rw [herase]
          rcases List.mem_cons.mp (List.perm_middle.mem_iff.mp hmem) with rfl | ha'
          · exact absurd (hslot key hkey).symm hne
          · exact ha'
        refine ⟨ha', fun key' hkey' => ?_⟩
        exact (hindex key').trans (hslot key' ((htrimmed.keyOf a ha').symm.trans hkey'))
  · exact absurd (herase ▸ hnil) hkept
  · exact htrimmed.capacity ▸ h.capacity_pos
  · rw [hsize, htrimmed.capacity]
    exact h.size_le
  · simp only [hindex, if_true]

/-! ## `free_inode_cache` -/

private theorem freeList_run {fuel : Nat} (hfuel : nodes.length ≤ fuel) (hnodup : nodes.Nodup)
    (hnodes : ∀ first a rest, nodes = first ++ a :: rest →
      cache.live a ∧ cache.nextOf a = rest.head?) :
    ∃ cache', freeList fuel nodes.head? cache = some ((), cache') := by
  induction nodes generalizing fuel cache with
  | nil => cases fuel <;> exact ⟨cache, rfl⟩
  | cons node rest ih =>
      cases fuel with
      | zero => simp at hfuel
      | succ fuel =>
          obtain ⟨hlive, hnext⟩ := hnodes [] node rest rfl
          obtain ⟨entry, hentry⟩ := live_iff.mp hlive
          have hentryNext : entry.next = rest.head? := by
            simpa [nextOf, hentry] using hnext
          obtain ⟨hnot, hnodup⟩ := List.nodup_cons.mp hnodup
          have hheap : ∀ a ∈ rest, (cache.freed node).heap a = cache.heap a := fun a ha => by
            simp [freed, ne_of_mem_of_not_mem ha hnot]
          rw [List.head?_cons, freeList, Prog.bind_of_eq (deref_run hentry),
            Prog.bind_of_eq (freeCacheEntry_run hlive), hentryNext]
          apply ih (by simpa using hfuel) hnodup
          intro first a last heq
          obtain ⟨hliveA, hnextA⟩ := hnodes (node :: first) a last (by rw [heq, List.cons_append])
          have hsame := hheap a (by rw [heq]; simp)
          rw [live, nextOf, hsame]
          exact ⟨hliveA, hnextA⟩

/-- Freeing an intact list ends. -/
theorem freeInodeCache_run (h : CacheInv cache nodes) :
    ∃ cache', freeInodeCache cache = some ((), cache') := by
  rw [freeInodeCache, Prog.get_bind_apply, h.list.head]
  apply freeList_run (Nat.le_succ_of_le h.list.length_le) h.list.nodup
  rintro first a rest rfl
  exact ⟨h.list.live a (by simp), h.list.neighbours.1⟩

/-! ## Calls that evict nothing -/

/-- The cache is intact and takes `room` more entries without an eviction. -/
structure Roomy (cache : InodeCache) (room : Nat) : Prop where
  inv : ∃ nodes, CacheInv cache nodes
  room : cache.size + room ≤ cache.capacity

namespace Roomy

variable {k k' : Nat}

theorem mono (h : cache.Roomy k) (hle : k' ≤ k) : cache.Roomy k' :=
  ⟨h.inv, by have := h.room; omega⟩

theorem getCacheEntry (h : cache.Roomy k) (key : CString) :
    ∃ value cache', InodeCache.getCacheEntry key cache = some (value, cache') ∧ cache'.Roomy k ∧
      (∀ other, cache.Holds other → cache'.Holds other) ∧
      (value.toInt > 0 → cache'.Holds key) := by
  obtain ⟨nodes, hinv⟩ := h.inv
  obtain ⟨found, hfind, -⟩ := hinv.find key
  by_cases hkey : key = []
  · exact ⟨-1, cache, by rw [hkey]; rfl, h, fun _ => id, fun hpos => absurd hpos (by decide)⟩
  cases found with
  | none =>
      exact ⟨-1, cache, getCacheEntry_miss hfind, h, fun _ => id,
        fun hpos => absurd hpos (by decide)⟩
  | some node =>
      obtain ⟨hnode, hnodeKey⟩ := hinv.found hfind
      obtain ⟨value, _, _, _, _, hrun, -, hinv'⟩ := getCacheEntry_hit hinv hkey hfind
      have hholds := fun other => @CacheInv.holds_of_perm _ _ _ _ other hinv hinv'
        (List.perm_cons_erase hnode).symm fun _ => keyOf_relinked
      exact ⟨value, _, hrun, ⟨⟨_, hinv'⟩, h.room⟩, fun other => (hholds other).mpr,
        fun _ => (hholds key).mpr (hinv.holds_iff.mpr ⟨node, hnode, hnodeKey⟩)⟩

theorem setCacheEntry (h : cache.Roomy (k + 1)) (hkey : key ≠ []) (value : Int64) :
    ∃ cache', InodeCache.setCacheEntry key value cache = some ((), cache') ∧ cache'.Roomy k ∧
      (∀ other, cache.Holds other → cache'.Holds other) ∧ cache'.Holds key := by
  obtain ⟨nodes, hinv⟩ := h.inv
  have hroom := h.room
  obtain ⟨found, hfind, -⟩ := hinv.find key
  cases found with
  | none =>
      obtain ⟨cache', kept, hrun, hinserted⟩ :=
        setCacheEntry_miss hinv hkey hfind value (by omega)
      have hinv' := hinserted.inv
      have hentries := hinserted.entries
      have hsize := hinserted.size
      have hcapacity := hinserted.capacity
      rw [hinserted.roomy (by omega)] at hinv' hentries hsize
      refine ⟨cache', hrun, ⟨⟨_, hinv'⟩, by omega⟩, fun other hother => ?_,
        hinv'.holds_iff.mpr ⟨_, List.mem_cons_self, hinserted.keyOf⟩⟩
      obtain ⟨a, ha, hkeyOf⟩ := hinv.holds_iff.mp hother
      rw [← (hentries a ha).1] at hkeyOf
      exact hinv'.holds_iff.mpr ⟨a, List.mem_cons_of_mem _ ha, hkeyOf⟩
  | some node =>
      obtain ⟨hnode, hnodeKey⟩ := hinv.found hfind
      obtain ⟨_, _, _, _, hrun, hinv'⟩ := setCacheEntry_hit hinv hkey hfind value
      have hholds := fun other => @CacheInv.holds_of_perm _ _ _ _ other hinv hinv'
        (List.perm_cons_erase hnode).symm fun a => by rw [keyOf_relinked, keyOf_withValue]
      refine ⟨_, hrun, ⟨⟨_, hinv'⟩, ?_⟩, fun other => (hholds other).mpr,
        (hholds key).mpr (hinv.holds_iff.mpr ⟨node, hnode, hnodeKey⟩)⟩
      change cache.size + k ≤ cache.capacity
      omega

/-- A removal that leaves another entry leaves the cache intact. -/
theorem removeCacheEntry (h : cache.Roomy k) (key : CString) (hother : cache.nodes.length ≠ 1) :
    ∃ removed cache', InodeCache.removeCacheEntry key cache = some (removed, cache') ∧
      cache'.Roomy k := by
  obtain ⟨nodes, hinv⟩ := h.inv
  have hroom := h.room
  obtain ⟨found, hfind, -⟩ := hinv.find key
  cases found with
  | none => exact ⟨false, cache, removeCacheEntry_miss hfind, h⟩
  | some node =>
      have hne : nodes ≠ [node] := by
        rintro rfl
        rw [hinv.list.nodes_eq] at hother
        exact hother rfl
      obtain ⟨cache', hrun, hremoved⟩ := removeCacheEntry_hit hinv hfind hne
      refine ⟨true, cache', hrun, ⟨_, hremoved.inv⟩, ?_⟩
      rw [hremoved.size, hremoved.capacity]
      exact hroom

end Roomy

/-- Removing is defined, also when no entry is left. -/
theorem removeCacheEntry_defined (h : CacheInv cache nodes) (key : CString) :
    removeCacheEntry key cache = some (false, cache) ∨
      ∃ cache', removeCacheEntry key cache = some (true, cache') := by
  obtain ⟨found, hfind, hspec⟩ := h.find key
  cases found with
  | none => exact .inl (removeCacheEntry_miss hfind)
  | some node =>
      right
      by_cases honly : nodes = [node]
      · subst honly
        obtain ⟨cache', hdelete⟩ := deleteNode_only h.list
        refine ⟨{ cache' with
          map := fun i => if i = cache'.hashIndex key then none else cache'.map i }, ?_⟩
        rw [removeCacheEntry, Prog.bind_of_eq hfind]
        simp only [Prog.bind_of_eq hdelete, Prog.get_bind_apply]
        rfl
      · obtain ⟨cache', hrun, -⟩ := removeCacheEntry_hit h hfind honly
        exact ⟨cache', hrun⟩

/-- Two paths are held by two nodes. -/
theorem length_nodes_ne_one {other : CString} (h : cache.Holds key) (h' : cache.Holds other)
    (hne : other ≠ key) : cache.nodes.length ≠ 1 := by
  intro hone
  obtain ⟨a, ha⟩ := List.length_eq_one_iff.mp hone
  obtain ⟨b, hb, hkey⟩ := h
  obtain ⟨c, hc, hother⟩ := h'
  rw [ha, List.mem_singleton] at hb hc
  rw [hc, ← hb, hkey, Option.some_inj] at hother
  exact hne hother.symm

end InodeCache

end AltFs
