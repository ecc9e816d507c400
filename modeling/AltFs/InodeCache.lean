import AltFs.Lib.Prog
import Mathlib.Algebra.Group.Nat.Defs

/-!
# The inode cache

`inode_cache.c`: an LRU list of path/inode-number pairs with a table of bucket
pointers into the list.  Nodes live on an explicit heap; an address that is
not live cannot be dereferenced.  `malloc` hands out addresses in increasing
order and never one twice.
-/

namespace AltFs

/-- A character of a C string: any byte but the terminator. -/
abbrev CChar : Type := { c : UInt8 // c ≠ 0 }

/-- A C string, without its terminator. -/
abbrev CString : Type := List CChar

def slash : CChar := ⟨47, by decide⟩

def dot : CChar := ⟨46, by decide⟩

structure CacheEntry where
  prev : Option Nat
  next : Option Nat
  key : CString
  value : Int64

structure InodeCache where
  size : Nat
  capacity : Nat
  map : Nat → Option Nat
  head : Option Nat
  tail : Option Nat
  heap : Nat → Option CacheEntry
  /-- The address the next `malloc` returns. -/
  brk : Nat

namespace InodeCache

/-- Upper-case letters only: the source adds to the hash inside the `if`. -/
def hashFunc (str : CString) : Nat :=
  str.foldl
    (fun hash c =>
      if 65 ≤ c.val.toNat ∧ c.val.toNat ≤ 90
      then (hash * 33 + (c.val.toNat + 32)) % 2 ^ 64
      else hash)
    5381

def hashIndex (cache : InodeCache) (key : CString) : Nat :=
  hashFunc key % cache.capacity

def createInodeCache (capacity : Nat) : InodeCache where
  size := 0
  capacity := capacity
  map := fun _ => none
  head := none
  tail := none
  heap := fun _ => none
  brk := 0

abbrev CacheProg (α : Type) : Type := Prog InodeCache α

/-- `*address`, undefined for a `NULL` or dangling pointer. -/
def deref (address : Option Nat) : CacheProg CacheEntry := fun cache =>
  match address with
  | none => none
  | some a => (cache.heap a).map fun entry => (entry, cache)

def update (address : Option Nat) (f : CacheEntry → CacheEntry) : CacheProg Unit := do
  let entry ← deref address
  Prog.modify fun cache =>
    { cache with heap := fun a => if some a = address then some (f entry) else cache.heap a }

def setPrev (address value : Option Nat) : CacheProg Unit :=
  update address fun entry => { entry with prev := value }

def setNext (address value : Option Nat) : CacheProg Unit :=
  update address fun entry => { entry with next := value }

def setHead (value : Option Nat) : CacheProg Unit :=
  Prog.modify fun cache => { cache with head := value }

def setTail (value : Option Nat) : CacheProg Unit :=
  Prog.modify fun cache => { cache with tail := value }

def setMap (index : Nat) (value : Option Nat) : CacheProg Unit :=
  Prog.modify fun cache =>
    { cache with map := fun i => if i = index then value else cache.map i }

def freeCacheEntry (address : Nat) : CacheProg Unit := do
  let _ ← deref (some address)
  Prog.modify fun cache =>
    { cache with heap := fun a => if a = address then none else cache.heap a }

/--
The search `while (curr != NULL)` shared by lookup, insertion and removal.
`fuel` bounds the number of nodes visited: a walk longer than the number of
addresses ever handed out goes round in circles and never ends.
-/
def findEntry (key : CString) : Nat → Option Nat → CacheProg (Option Nat)
  | _, none => pure none
  | 0, some _ => Prog.stuck
  | fuel + 1, some a => do
      let entry ← deref (some a)
      if entry.key = key then pure (some a) else findEntry key fuel entry.next

/-- Search the list from the pointer in the bucket of `key`. -/
def findFromBucket (key : CString) : CacheProg (Option Nat) := do
  let cache ← Prog.get
  findEntry key (cache.brk + 1) (cache.map (cache.hashIndex key))

/-- Relink `curr`, which is not the head, to the front of the list. -/
def relinkToFront (curr : Nat) : CacheProg Unit := do
  let entry ← deref (some curr)
  setNext entry.prev entry.next
  let cache ← Prog.get
  if some curr = cache.tail then setTail entry.prev
  else setPrev entry.next entry.prev
  setPrev (some curr) none
  setNext (some curr) cache.head
  setPrev cache.head (some curr)
  setHead (some curr)

def moveToFront (curr : Nat) : CacheProg Unit := do
  let cache ← Prog.get
  if some curr = cache.head then pure () else relinkToFront curr

/--
Unlink and free a node.  A node that is both head and tail leaves `tail` as
it is: the source updates the tail in the `else if` only.
-/
def deleteNode (node : Nat) : CacheProg Unit := do
  let cache ← Prog.get
  let entry ← deref (some node)
  if some node = cache.head then setHead entry.next
  else if some node = cache.tail then setTail entry.prev
  else pure ()
  if entry.prev = none then pure () else setNext entry.prev entry.next
  if entry.next = none then pure () else setPrev entry.next entry.prev
  freeCacheEntry node

def removeCacheEntry (key : CString) : CacheProg Bool := do
  match ← findFromBucket key with
  | none => pure false
  | some curr => do
      deleteNode curr
      let cache ← Prog.get
      setMap (cache.hashIndex key) none
      pure true

/-- `malloc` of a node holding `key` and `value`, linked in as the new head. -/
def pushFront (key : CString) (value : Int64) : CacheProg Nat := do
  let cache ← Prog.get
  let node := cache.brk
  Prog.modify fun cache =>
    { cache with
      brk := node + 1
      heap := fun a =>
        if a = node
        then some { prev := none, next := cache.head, key := key, value := value }
        else cache.heap a }
  if cache.head = none then pure () else setPrev cache.head (some node)
  setHead (some node)
  if cache.tail = none then setTail (some node) else pure ()
  pure node

/-- `if (cache->size > cache->capacity)`: drop the last node. -/
def evict : CacheProg Unit := do
  let cache ← Prog.get
  if cache.size > cache.capacity then
    match cache.tail with
    | none => Prog.stuck
    | some tail => do
        deleteNode tail
        Prog.modify fun cache => { cache with size := cache.size - 1 }
  else pure ()

def setCacheEntry (key : CString) (value : Int64) : CacheProg Unit := do
  if key = [] then pure () else do
  match ← findFromBucket key with
  | some curr => do
      update (some curr) fun entry => { entry with value := value }
      moveToFront curr
  | none => do
      let node ← pushFront key value
      Prog.modify fun cache => { cache with size := cache.size + 1 }
      evict
      let cache ← Prog.get
      setMap (cache.hashIndex key) (some node)

def getCacheEntry (key : CString) : CacheProg Int64 := do
  if key = [] then pure (-1) else do
  match ← findFromBucket key with
  | none => pure (-1)
  | some curr => do
      moveToFront curr
      let entry ← deref (some curr)
      pure entry.value

/-- `free_list`: free every node reachable from `node`. -/
def freeList : Nat → Option Nat → CacheProg Unit
  | _, none => pure ()
  | 0, some _ => Prog.stuck
  | fuel + 1, some node => do
      let entry ← deref (some node)
      freeCacheEntry node
      freeList fuel entry.next

def freeInodeCache : CacheProg Unit := do
  let cache ← Prog.get
  freeList (cache.brk + 1) cache.head

end InodeCache

end AltFs
