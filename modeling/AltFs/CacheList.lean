import AltFs.InodeCache
import AltFs.Lib.LinkedList
import Mathlib.Data.List.Perm.Subperm

/-!
# The list of the inode cache

The live nodes of the cache form a doubly linked list from `head` to `tail`.
Every operation of the cache changes links and the two end pointers only, up
to one node made or freed, so the state after any relinking is `relinked`.
-/

namespace AltFs

namespace InodeCache

def nextOf (cache : InodeCache) (a : Nat) : Option Nat := (cache.heap a).bind CacheEntry.next

def prevOf (cache : InodeCache) (a : Nat) : Option Nat := (cache.heap a).bind CacheEntry.prev

def keyOf (cache : InodeCache) (a : Nat) : Option CString := (cache.heap a).map CacheEntry.key

def valueOf (cache : InodeCache) (a : Nat) : Option Int64 := (cache.heap a).map CacheEntry.value

def live (cache : InodeCache) (a : Nat) : Prop := (cache.heap a).isSome

def nodesFrom (cache : InodeCache) : Nat → Option Nat → List Nat
  | 0, _ => []
  | _ + 1, none => []
  | fuel + 1, some a => a :: nodesFrom cache fuel (cache.nextOf a)

/-- The nodes met on the way from the head. -/
def nodes (cache : InodeCache) : List Nat := cache.nodesFrom cache.brk cache.head

/-- The cache with other links and ends. -/
def relinked (cache : InodeCache) (head tail : Option Nat) (next prev : Nat → Option Nat) :
    InodeCache :=
  { cache with
    head := head
    tail := tail
    heap := fun a =>
      (cache.heap a).map fun entry => { entry with next := next a, prev := prev a } }

def redirect (link : Nat → Option Nat) (address value : Option Nat) : Nat → Option Nat :=
  fun a => if address = some a then value else link a

variable {cache cache' : InodeCache} {nodes first rest : List Nat} {node a index : Nat}
  {head tail value address : Option Nat} {next prev : Nat → Option Nat}

theorem live_iff : cache.live a ↔ ∃ entry, cache.heap a = some entry :=
  Option.isSome_iff_exists

section Relinked

@[simp] theorem live_relinked :
    (cache.relinked head tail next prev).live a ↔ cache.live a := by
  simp [live, relinked]

@[simp] theorem keyOf_relinked :
    (cache.relinked head tail next prev).keyOf a = cache.keyOf a := by
  simp [keyOf, relinked, Function.comp_def]

@[simp] theorem valueOf_relinked :
    (cache.relinked head tail next prev).valueOf a = cache.valueOf a := by
  simp [valueOf, relinked, Function.comp_def]

@[simp] theorem head_relinked : (cache.relinked head tail next prev).head = head := rfl

@[simp] theorem tail_relinked : (cache.relinked head tail next prev).tail = tail := rfl

theorem nextOf_relinked (h : cache.live a) :
    (cache.relinked head tail next prev).nextOf a = next a := by
  obtain ⟨entry, hentry⟩ := live_iff.mp h
  simp [nextOf, relinked, hentry]

theorem prevOf_relinked (h : cache.live a) :
    (cache.relinked head tail next prev).prevOf a = prev a := by
  obtain ⟨entry, hentry⟩ := live_iff.mp h
  simp [prevOf, relinked, hentry]

theorem relinked_self (cache : InodeCache) :
    cache.relinked cache.head cache.tail cache.nextOf cache.prevOf = cache := by
  have hheap : (fun a => (cache.heap a).map fun entry =>
      { entry with next := cache.nextOf a, prev := cache.prevOf a }) = cache.heap := by
    funext a
    cases hentry : cache.heap a <;> simp [nextOf, prevOf, hentry]
  cases cache
  simp only [relinked] at hheap ⊢
  rw [hheap]

theorem deref_run {entry : CacheEntry} (h : cache.heap a = some entry) :
    deref (some a) cache = some (entry, cache) := by
  simp [deref, h]

theorem deref_relinked {entry : CacheEntry} (h : cache.heap a = some entry) :
    deref (some a) (cache.relinked head tail next prev) =
      some ({ entry with next := next a, prev := prev a },
        cache.relinked head tail next prev) :=
  deref_run (by simp [relinked, h])

theorem setNext_relinked (h : cache.live a) :
    setNext (some a) value (cache.relinked head tail next prev) =
      some ((), cache.relinked head tail (redirect next (some a) value) prev) := by
  obtain ⟨entry, hentry⟩ := live_iff.mp h
  rw [setNext, update, Prog.bind_of_eq (deref_relinked hentry), Prog.modify_apply]
  congr 3
  funext b
  by_cases hb : b = a
  · simp [redirect, hb, hentry]
  · simp [relinked, redirect, hb, Ne.symm hb]

theorem setPrev_relinked (h : cache.live a) :
    setPrev (some a) value (cache.relinked head tail next prev) =
      some ((), cache.relinked head tail next (redirect prev (some a) value)) := by
  obtain ⟨entry, hentry⟩ := live_iff.mp h
  rw [setPrev, update, Prog.bind_of_eq (deref_relinked hentry), Prog.modify_apply]
  congr 3
  funext b
  by_cases hb : b = a
  · simp [redirect, hb, hentry]
  · simp [relinked, redirect, hb, Ne.symm hb]

theorem setNext_run (h : cache.live a) :
    setNext (some a) value cache =
      some ((), cache.relinked cache.head cache.tail (redirect cache.nextOf (some a) value)
        cache.prevOf) := by
  have hrun := @setNext_relinked cache a cache.head cache.tail value cache.nextOf cache.prevOf h
  rwa [relinked_self] at hrun

@[simp] theorem setHead_relinked :
    setHead value (cache.relinked head tail next prev) =
      some ((), cache.relinked value tail next prev) :=
  rfl

@[simp] theorem setTail_relinked :
    setTail value (cache.relinked head tail next prev) =
      some ((), cache.relinked head value next prev) :=
  rfl

theorem redirect_none : redirect next none value = next := by
  funext a
  simp [redirect]

end Relinked

/-! ## The list -/

structure CacheList (cache : InodeCache) (nodes : List Nat) : Prop where
  live : ∀ a ∈ nodes, cache.live a
  fresh : ∀ a ∈ nodes, a < cache.brk
  nodup : nodes.Nodup
  linked : Linked cache.nextOf cache.prevOf none none nodes
  head : cache.head = nodes.head?
  tail : cache.tail = nodes.getLast?

namespace CacheList

theorem of_relinked (hlive : ∀ a ∈ nodes, cache.live a) (hfresh : ∀ a ∈ nodes, a < cache.brk)
    (hnodup : nodes.Nodup) (hlinked : Linked next prev none none nodes) :
    CacheList (cache.relinked nodes.head? nodes.getLast? next prev) nodes where
  live := fun a ha => live_relinked.mpr (hlive a ha)
  fresh := hfresh
  nodup := hnodup
  linked := hlinked.congr (fun a ha => nextOf_relinked (hlive a ha))
    fun a ha => prevOf_relinked (hlive a ha)
  head := rfl
  tail := rfl

theorem length_le (h : CacheList cache nodes) : nodes.length ≤ cache.brk := by
  have hsubset : nodes ⊆ List.range cache.brk := fun a ha => List.mem_range.mpr (h.fresh a ha)
  simpa using (List.subperm_of_subset h.nodup hsubset).length_le

theorem neighbours (h : CacheList cache (first ++ node :: rest)) :
    cache.nextOf node = rest.head? ∧ cache.prevOf node = first.getLast? := by
  obtain ⟨-, hprev, hnext, -⟩ := linked_append.mp h.linked
  rw [Option.or_none] at hprev hnext
  exact ⟨hnext, hprev⟩

theorem nodesFrom_eq (first : List Nat) (h : CacheList cache (first ++ rest)) {fuel : Nat}
    (hfuel : rest.length ≤ fuel) : cache.nodesFrom fuel rest.head? = rest := by
  induction rest generalizing first fuel with
  | nil => cases fuel <;> rfl
  | cons node rest ih =>
      cases fuel with
      | zero => simp at hfuel
      | succ fuel =>
          rw [List.head?_cons, nodesFrom, h.neighbours.1]
          congr 1
          apply ih (first ++ [node])
          · simpa using h
          · simpa using hfuel

theorem nodes_eq (h : CacheList cache nodes) : cache.nodes = nodes := by
  rw [InodeCache.nodes, h.head]
  exact nodesFrom_eq [] h h.length_le

end CacheList

/-! ## Searching -/

def hasKey (cache : InodeCache) (key : CString) (a : Nat) : Bool := cache.keyOf a = some key

theorem findEntry_spec (key : CString) (first : List Nat) (h : CacheList cache (first ++ rest))
    {fuel : Nat} (hfuel : rest.length ≤ fuel) :
    findEntry key fuel rest.head? cache = some (rest.find? (cache.hasKey key), cache) := by
  induction rest generalizing first fuel with
  | nil => cases fuel <;> rfl
  | cons node rest ih =>
      cases fuel with
      | zero => simp at hfuel
      | succ fuel =>
          obtain ⟨entry, hentry⟩ := live_iff.mp (h.live node (by simp))
          have hnext : entry.next = rest.head? := by
            simpa [nextOf, hentry] using h.neighbours.1
          rw [List.head?_cons, findEntry, Prog.bind_of_eq (deref_run hentry), List.find?_cons]
          cases hkey : cache.hasKey key node with
          | true =>
              rw [if_pos (by simpa [hasKey, keyOf, hentry] using hkey), Prog.pure_apply]
          | false =>
              rw [if_neg (by simpa [hasKey, keyOf, hentry] using hkey), hnext]
              apply ih (first ++ [node])
              · simpa using h
              · simpa using hfuel

/-- The nodes that a search for a key in bucket `index` can meet. -/
def bucketNodes (cache : InodeCache) (nodes : List Nat) (index : Nat) : List Nat :=
  match cache.map index with
  | none => []
  | some a => nodes.dropWhile (· ≠ a)

theorem bucketNodes_suffix : cache.bucketNodes nodes index <:+ nodes := by
  rw [bucketNodes]
  split
  · exact List.nil_suffix
  · exact List.dropWhile_suffix _

private theorem head_dropWhile_ne (h : a ∈ nodes) :
    (nodes.dropWhile (· ≠ a)).head? = some a := by
  induction nodes with
  | nil => simp at h
  | cons node nodes ih =>
      by_cases hnode : node = a
      · simp [hnode]
      · rw [List.dropWhile_cons_of_pos (by simpa using hnode)]
        exact ih ((List.mem_cons.mp h).resolve_left (Ne.symm hnode))

theorem head_bucketNodes (h : ∀ a, cache.map index = some a → a ∈ nodes) :
    (cache.bucketNodes nodes index).head? = cache.map index := by
  rw [bucketNodes]
  split
  · next heq => rw [heq, List.head?_nil]
  · next a heq =>
      rw [heq]
      exact head_dropWhile_ne (h a heq)

theorem findFromBucket_spec (key : CString) (h : CacheList cache nodes)
    (hmap : ∀ a, cache.map (cache.hashIndex key) = some a → a ∈ nodes) :
    findFromBucket key cache =
      some ((cache.bucketNodes nodes (cache.hashIndex key)).find? (cache.hasKey key), cache) := by
  obtain ⟨first, hfirst⟩ : cache.bucketNodes nodes (cache.hashIndex key) <:+ nodes :=
    bucketNodes_suffix
  rw [findFromBucket, Prog.get_bind_apply, ← head_bucketNodes hmap]
  apply findEntry_spec key first
  · rwa [hfirst]
  · have := h.length_le
    rw [← hfirst, List.length_append] at this
    omega

/-! ## Editing -/

namespace CacheList

theorem unlinked (h : CacheList cache (first ++ node :: rest)) :
    Linked (redirect cache.nextOf first.getLast? rest.head?)
      (redirect cache.prevOf rest.head? first.getLast?) none none (first ++ rest) :=
  h.linked.unlink (h.nodup.sublist (by simp)) (fun _ _ => rfl) fun _ _ => rfl

theorem tail_ne (h : CacheList cache (first ++ node :: rest)) (hrest : rest ≠ []) :
    cache.tail ≠ some node := by
  obtain ⟨-, hnodup, -⟩ := List.nodup_append.mp h.nodup
  have hlast : cache.tail = rest.getLast? := by
    cases rest with
    | nil => exact absurd rfl hrest
    | cons second rest => rw [h.tail, List.getLast?_append_cons, List.getLast?_cons_cons]
  rw [hlast]
  intro heq
  exact (List.nodup_cons.mp hnodup).1 (List.mem_of_getLast? heq)

theorem live_of_getLast (h : CacheList cache (first ++ node :: rest))
    (ha : first.getLast? = some a) : cache.live a :=
  h.live a (by simp [List.mem_of_getLast? ha])

end CacheList

/-- The links around `node` once it has been taken out of the list. -/
def bypassed (cache : InodeCache) (first rest : List Nat) : InodeCache :=
  cache.relinked cache.head (first ++ rest).getLast?
    (redirect cache.nextOf first.getLast? rest.head?)
    (redirect cache.prevOf rest.head? first.getLast?)

private theorem relinkToFront_bypassed (h : CacheList cache (first ++ node :: rest))
    (hfirst : first ≠ []) :
    relinkToFront node cache = (do
      setPrev (some node) none
      setNext (some node) cache.head
      setPrev cache.head (some node)
      setHead (some node)) (cache.bypassed first rest) := by
  obtain ⟨hnext, hprev⟩ := h.neighbours
  obtain ⟨entry, hentry⟩ := live_iff.mp (h.live node (by simp))
  have hentryNext : entry.next = rest.head? := by simpa [nextOf, hentry] using hnext
  have hentryPrev : entry.prev = first.getLast? := by simpa [prevOf, hentry] using hprev
  have htail := h.tail
  rw [relinkToFront, Prog.bind_of_eq (deref_run hentry), hentryPrev, hentryNext]
  rw [List.getLast?_eq_some_getLast hfirst]
  have hlast := h.live_of_getLast (List.getLast?_eq_some_getLast hfirst)
  rw [Prog.bind_of_eq (setNext_run hlast), Prog.get_bind_apply, head_relinked, tail_relinked]
  cases rest with
  | nil =>
      have heq : some node = cache.tail := by simp [htail]
      rw [if_pos heq, Prog.bind_of_eq setTail_relinked, bypassed, List.head?_nil, redirect_none,
        List.append_nil, List.getLast?_eq_some_getLast hfirst]
  | cons second rest =>
      have hne := h.tail_ne (by simp)
      have hsecond := h.live second (by simp)
      rw [if_neg hne.symm, List.head?_cons, Prog.bind_of_eq (setPrev_relinked hsecond), bypassed,
        List.head?_cons, List.getLast?_eq_some_getLast hfirst, htail, List.getLast?_append_cons,
        List.getLast?_cons_cons, List.getLast?_append_cons]

theorem relinkToFront_spec (h : CacheList cache (first ++ node :: rest)) (hfirst : first ≠ []) :
    ∃ next prev, relinkToFront node cache =
        some ((), cache.relinked (some node) (node :: (first ++ rest)).getLast? next prev) ∧
      Linked next prev none none (node :: (first ++ rest)) := by
  obtain ⟨front, first, rfl⟩ := List.exists_cons_of_ne_nil hfirst
  have hnode : cache.live node := h.live node (by simp)
  have hfront : cache.live front := h.live front (by simp)
  have hne : ∀ a ∈ front :: first ++ rest, a ≠ node := by
    have := (List.nodup_middle.mp h.nodup).notMem
    rintro a ha rfl
    exact this ha
  refine ⟨redirect (redirect cache.nextOf (front :: first).getLast? rest.head?) (some node)
      (some front),
    redirect (redirect (redirect cache.prevOf rest.head? (front :: first).getLast?) (some node)
      none) (some front) (some node), ?_, ?_⟩
  · rw [relinkToFront_bypassed h hfirst, h.head, bypassed, Prog.bind_of_eq (setPrev_relinked hnode),
      Prog.bind_of_eq (setNext_relinked hnode)]
    simp only [List.cons_append, List.head?_cons, Prog.bind_of_eq (setPrev_relinked hfront),
      setHead_relinked]
    rfl
  · refine h.unlinked.push (h.nodup.sublist (by simp)) ?_ ?_ (fun a ha => ?_) fun a ha => ?_
    · simp [redirect]
    · simp [redirect, hne front (by simp)]
    · simp [redirect, (hne a ha).symm]
    · simp [redirect, (hne a ha).symm]

/-- A hit puts the node in front of the list. -/
theorem moveToFront_spec (h : CacheList cache (first ++ node :: rest)) :
    ∃ head tail next prev,
      moveToFront node cache = some ((), cache.relinked head tail next prev) ∧
        CacheList (cache.relinked head tail next prev) (node :: (first ++ rest)) := by
  rw [moveToFront, Prog.get_bind_apply, h.head]
  cases first with
  | nil =>
      refine ⟨cache.head, cache.tail, cache.nextOf, cache.prevOf, ?_, ?_⟩
      · rw [relinked_self]
        simp
      · rw [relinked_self]
        exact h
  | cons front first =>
      have hne : some node ≠ some front := by
        have := (List.nodup_middle.mp h.nodup).notMem
        simp at this ⊢
        tauto
      obtain ⟨next, prev, hrun, hlinked⟩ := relinkToFront_spec h (by simp)
      refine ⟨_, _, next, prev, ?_, CacheList.of_relinked ?_ ?_ ?_ hlinked⟩
      · rw [List.cons_append, List.head?_cons, if_neg hne, hrun]
        rfl
      · exact fun a ha => h.live a (List.perm_middle.mem_iff.mpr ha)
      · exact fun a ha => h.fresh a (List.perm_middle.mem_iff.mpr ha)
      · exact List.nodup_middle.mp h.nodup

def freed (cache : InodeCache) (node : Nat) : InodeCache :=
  { cache with heap := fun a => if a = node then none else cache.heap a }

theorem freeCacheEntry_run (h : cache.live node) :
    freeCacheEntry node cache = some ((), cache.freed node) := by
  obtain ⟨entry, hentry⟩ := live_iff.mp h
  rw [freeCacheEntry, Prog.bind_of_eq (deref_run hentry)]
  rfl

theorem CacheList.freed (h : CacheList cache nodes) (hnode : node ∉ nodes) :
    CacheList (cache.freed node) nodes := by
  have hheap : ∀ a ∈ nodes, (cache.freed node).heap a = cache.heap a := by
    intro a ha
    have hne : a ≠ node := fun heq => hnode (heq ▸ ha)
    simp [InodeCache.freed, hne]
  refine ⟨?_, h.fresh, h.nodup, h.linked.congr ?_ ?_, h.head, h.tail⟩
  · intro a ha
    rw [InodeCache.live, hheap a ha]
    exact h.live a ha
  · intro a ha
    rw [nextOf, nextOf, hheap a ha]
  · intro a ha
    rw [prevOf, prevOf, hheap a ha]

private theorem deleteNode_run (h : CacheList cache (first ++ node :: rest))
    (hother : first ++ rest ≠ []) :
    deleteNode node (cache.relinked cache.head cache.tail cache.nextOf cache.prevOf) =
      some ((), (cache.relinked (first ++ rest).head? (first ++ rest).getLast?
        (redirect cache.nextOf first.getLast? rest.head?)
        (redirect cache.prevOf rest.head? first.getLast?)).freed node) := by
  obtain ⟨hnext, hprev⟩ := h.neighbours
  obtain ⟨entry, hentry⟩ := live_iff.mp (h.live node (by simp))
  have hfree : ∀ head tail next prev, freeCacheEntry node (cache.relinked head tail next prev) =
      some ((), (cache.relinked head tail next prev).freed node) :=
    fun _ _ _ _ => freeCacheEntry_run (live_relinked.mpr (h.live node (by simp)))
  rw [deleteNode, Prog.get_bind_apply, Prog.bind_of_eq (deref_relinked hentry), hnext, hprev,
    head_relinked, tail_relinked]
  cases first with
  | nil =>
      cases rest with
      | nil => exact absurd rfl hother
      | cons second rest =>
          have hhead : some node = cache.head := h.head.symm
          have htail : cache.tail = (second :: rest).getLast? := by
            rw [h.tail, List.nil_append, List.getLast?_cons_cons]
          have hsecond : cache.live second := h.live second (by simp)
          simp only [if_pos hhead, Prog.bind_of_eq setHead_relinked, List.getLast?_nil,
            List.head?_cons, if_true, reduceCtorEq, if_false, Prog.bind_of_eq
            (setPrev_relinked hsecond), hfree, htail, List.nil_append, redirect_none]
  | cons front first =>
      have hhead : some node ≠ cache.head := by
        have := (List.nodup_middle.mp h.nodup).notMem
        rw [h.head]
        simp at this ⊢
        tauto
      have hlast := h.live_of_getLast (List.getLast?_eq_some_getLast (List.cons_ne_nil front first))
      rw [if_neg hhead, List.getLast?_eq_some_getLast (List.cons_ne_nil front first)]
      cases rest with
      | nil =>
          have htail : some node = cache.tail := by
            rw [h.tail, List.getLast?_append_cons, List.getLast?_singleton]
          have hhead' : (front :: first ++ []).head? = cache.head := h.head.symm
          rw [if_pos htail, hhead', List.append_nil,
            List.getLast?_eq_some_getLast (List.cons_ne_nil front first)]
          simp only [Prog.bind_of_eq setTail_relinked, List.head?_nil, if_true, reduceCtorEq,
            if_false, Prog.bind_of_eq (setNext_relinked hlast), hfree, redirect_none]
      | cons second rest =>
          have htail : cache.tail ≠ some node := h.tail_ne (by simp)
          have hsecond : cache.live second := h.live second (by simp)
          have hhead' : (front :: first ++ second :: rest).head? = cache.head := h.head.symm
          have htail' : (front :: first ++ second :: rest).getLast? = cache.tail := by
            rw [h.tail, List.getLast?_append_cons, List.getLast?_append_cons,
              List.getLast?_cons_cons]
          rw [if_neg htail.symm, hhead', htail']
          simp only [List.head?_cons, reduceCtorEq, if_false, hfree,
            Prog.bind_of_eq (setNext_relinked hlast), Prog.bind_of_eq (setPrev_relinked hsecond)]

/-- Deleting the only node does not follow a pointer. -/
theorem deleteNode_only (h : CacheList cache [node]) :
    ∃ cache', deleteNode node cache = some ((), cache') := by
  obtain ⟨hnext, hprev⟩ := @CacheList.neighbours cache [] [] node h
  have hlive := h.live node (List.mem_singleton_self node)
  obtain ⟨entry, hentry⟩ := live_iff.mp hlive
  have hentryNext : entry.next = none := by
    rwa [nextOf, hentry] at hnext
  have hentryPrev : entry.prev = none := by
    rwa [prevOf, hentry] at hprev
  have hhead : some node = cache.head := h.head.symm
  have hlive' : ({ cache with head := none } : InodeCache).live node := hlive
  refine ⟨({ cache with head := none } : InodeCache).freed node, ?_⟩
  rw [deleteNode, Prog.get_bind_apply, Prog.bind_of_eq (deref_run hentry), if_pos hhead, hentryNext,
    hentryPrev]
  exact freeCacheEntry_run hlive'

/-- Deleting a node that is not the only one takes it out of the list. -/
theorem deleteNode_spec (h : CacheList cache (first ++ node :: rest))
    (hother : first ++ rest ≠ []) :
    ∃ head tail next prev,
      deleteNode node cache = some ((), (cache.relinked head tail next prev).freed node) ∧
        CacheList ((cache.relinked head tail next prev).freed node) (first ++ rest) := by
  have hnodup := List.nodup_middle.mp h.nodup
  have hlist : CacheList (cache.relinked (first ++ rest).head? (first ++ rest).getLast?
      (redirect cache.nextOf first.getLast? rest.head?)
      (redirect cache.prevOf rest.head? first.getLast?)) (first ++ rest) := by
    refine CacheList.of_relinked ?_ ?_ hnodup.of_cons h.unlinked
    · exact fun a ha => h.live a (List.perm_middle.mem_iff.mpr (List.mem_cons_of_mem _ ha))
    · exact fun a ha => h.fresh a (List.perm_middle.mem_iff.mpr (List.mem_cons_of_mem _ ha))
  have hrun := deleteNode_run h hother
  rw [relinked_self] at hrun
  exact ⟨_, _, _, _, hrun, hlist.freed hnodup.notMem⟩

def allocated (cache : InodeCache) (key : CString) (value : Int64) : InodeCache :=
  { cache with
    brk := cache.brk + 1
    heap := fun a =>
      if a = cache.brk
      then some { prev := none, next := cache.head, key := key, value := value }
      else cache.heap a }

theorem heap_allocated {key : CString} {value : Int64} (h : a < cache.brk) :
    (cache.allocated key value).heap a = cache.heap a := by
  simp [allocated, Nat.ne_of_lt h]

private theorem pushFront_run (h : CacheList cache nodes) (key : CString) (value : Int64) :
    pushFront key value cache = some (cache.brk, (cache.allocated key value).relinked
      (cache.brk :: nodes).head? (cache.brk :: nodes).getLast? (cache.allocated key value).nextOf
      (redirect (cache.allocated key value).prevOf nodes.head? (some cache.brk))) := by
  have hstart : pushFront key value cache = (do
      if cache.head = none then pure () else setPrev cache.head (some cache.brk)
      setHead (some cache.brk)
      if cache.tail = none then setTail (some cache.brk) else pure ()
      pure cache.brk : CacheProg Nat) ((cache.allocated key value).relinked cache.head cache.tail
        (cache.allocated key value).nextOf (cache.allocated key value).prevOf) := by
    have hself := relinked_self (cache.allocated key value)
    rw [show (cache.allocated key value).head = cache.head from rfl,
      show (cache.allocated key value).tail = cache.tail from rfl] at hself
    rw [hself]
    rfl
  rw [hstart, h.head, h.tail]
  cases nodes with
  | nil =>
      rw [List.head?_nil, redirect_none]
      rfl
  | cons front nodes =>
      have hfront : (cache.allocated key value).live front := by
        rw [live, heap_allocated (h.fresh front List.mem_cons_self)]
        exact h.live front List.mem_cons_self
      have hlast : (front :: nodes).getLast? ≠ none := by simp
      simp only [List.head?_cons, reduceCtorEq, if_false, if_neg hlast, List.getLast?_cons_cons,
        Prog.bind_of_eq (setPrev_relinked hfront), Prog.bind_of_eq setHead_relinked,
        Prog.pure_apply]

/-- Inserting puts a new node in front of the list. -/
theorem pushFront_spec (h : CacheList cache nodes) (key : CString) (value : Int64) :
    ∃ head tail next prev, pushFront key value cache =
        some (cache.brk, (cache.allocated key value).relinked head tail next prev) ∧
      CacheList ((cache.allocated key value).relinked head tail next prev)
        (cache.brk :: nodes) := by
  have hnot : cache.brk ∉ nodes := fun hmem => Nat.lt_irrefl _ (h.fresh _ hmem)
  have hheap : ∀ a ∈ nodes, (cache.allocated key value).heap a = cache.heap a :=
    fun a ha => heap_allocated (h.fresh a ha)
  refine ⟨_, _, _, _, pushFront_run h key value, CacheList.of_relinked ?_ ?_ ?_ ?_⟩
  · intro a ha
    rcases List.mem_cons.mp ha with rfl | ha
    · simp [live, allocated]
    · rw [live, hheap a ha]
      exact h.live a ha
  · intro a ha
    rcases List.mem_cons.mp ha with rfl | ha
    · exact Nat.lt_succ_self _
    · exact Nat.lt_succ_of_lt (h.fresh a ha)
  · exact List.nodup_cons.mpr ⟨hnot, h.nodup⟩
  · refine h.linked.push h.nodup ?_ ?_ (fun a ha => ?_) fun a ha => ?_
    · simp [nextOf, allocated, h.head]
    · have : nodes.head? ≠ some cache.brk := fun heq => hnot (List.mem_of_head? heq)
      simp [redirect, this, prevOf, allocated]
    · rw [nextOf, nextOf, hheap a ha]
    · rw [redirect, prevOf, prevOf, hheap a ha]

end InodeCache

end AltFs
