import AltFs.Mounted
import AltFs.Progress
import AltFs.TreeCreation

/-!
# From mount to unmount

A session mounts the device, serves requests and writes the superblock back,
unless the daemon is killed.  What the next session serves is the tree that this
one has left.
-/

namespace AltFs

open Prog NamedTree

variable [Config]

/-! ## Requests in a row -/

/-- A request and what was replied. -/
abbrev Exchange : Type := Request × Reply

def Exchange.Served (s : FileSystem) (exchange : Exchange) (t : FileSystem) : Prop :=
  exchange.1.serve s = some (exchange.2, t)

/-- The request is allowed with the blocks that the free list holds. -/
def Exchange.Allowed (s : FileSystem) (exchange : Exchange) : Prop :=
  ∀ free, FreeList s free → exchange.1.Allowed s free

/-- No data block is lost. -/
def Complete (s : FileSystem) (free : Multiset Int64) : Prop :=
  ∀ b, DataBlock b → b ∈ free + tableBlocks s

/-- What holds between two requests: the tree is whole and every block in its place. -/
structure Online (s : FileSystem) (free : Multiset Int64) : Prop extends Serving s free where
  complete : Complete s free

/--
The reply is right for the tree, as a file system in order gives it: a name or
a record is refused for want of room only where this one has no room for it.
-/
def Exchange.Means (tree : FileTree) (exchange : Exchange) (after : FileTree) : Prop :=
  ∃ s t free, Online s free ∧ view s = tree ∧ exchange.Served s t ∧ view t = after ∧
    exchange.1.Means (RoomForName s free) (RoomForRecord s free) tree exchange.2 after

section Serve

variable {s t : FileSystem} {free : Multiset Int64} {exchange : Exchange}
  {exchanges : List Exchange} {requests : List Request} {replies : List Reply}

theorem Online.step (h : Online s free) (hallowed : Exchange.Allowed s exchange)
    (hserved : Exchange.Served s exchange t) :
    Exchange.Means (view s) exchange (view t) ∧ ∃ free', Online t free' := by
  have hallowed := hallowed free h.owned.freeList
  obtain ⟨hmeans, hcoherent, free', htree, hconserved⟩ := serve_means h.toServing hallowed hserved
  have hnormal := serve_keysKept hallowed.normal hserved h.normal
  refine ⟨⟨s, t, free, h, rfl, hserved, rfl, hmeans⟩, free', ⟨htree, hcoherent, hnormal⟩,
    fun b hb => ?_⟩
  rw [hconserved]
  exact h.complete b hb

theorem Online.trace (h : Online s free)
    (htrace : Trace Exchange.Served Exchange.Allowed s exchanges t) :
    Trace Exchange.Means (fun _ _ => True) (view s) exchanges (view t) ∧
      ∃ free', Online t free' := by
  obtain ⟨tree, hmeans, rfl, honline⟩ := htrace.simulation
    (R := fun s tree => view s = tree ∧ ∃ free, Online s free) ⟨rfl, free, h⟩ (by
      rintro s label t - ⟨rfl, free, h⟩ hallowed hstep
      obtain ⟨hmeans, honline⟩ := h.step hallowed hstep
      exact ⟨view t, hmeans, rfl, honline⟩)
  exact ⟨hmeans, honline⟩

/-- Whatever has been served before it, the next request meets the condition. -/
def Each (C : FileSystem → Request → Prop) (s : FileSystem) (requests : List Request) : Prop :=
  ∀ front request rest replies t, requests = front ++ request :: rest →
    serveAll front s = some (replies, t) → C t request

/-- The request does not run into a defect of the source, and leaves the cache intact. -/
def Request.Safe (s : FileSystem) (request : Request) : Prop :=
  (∀ free, FreeList s free → request.Allowed s free) ∧ request.KeepsOther s

def totalCost (requests : List Request) : Nat := (requests.map Request.cost).sum

theorem Each.tail {C : FileSystem → Request → Prop} {request : Request} {reply : Reply}
    (h : Each C s (request :: requests)) (hserve : request.serve s = some (reply, t)) :
    Each C t requests := by
  intro front next behind before u hsplit hfront
  apply h (request :: front) next behind (reply :: before) u
  · rw [hsplit]
    rfl
  · rw [serveAll, bind_of_eq hserve, bind_of_eq hfront]
    rfl

theorem Each.nil {C : FileSystem → Request → Prop} : Each C s [] := by
  intro front request rest replies t hsplit
  cases front with
  | nil => cases hsplit
  | cons first front => cases hsplit

theorem Each.cons {C : FileSystem → Request → Prop} {request : Request} (hfirst : C s request)
    (hrest : ∀ reply t, request.serve s = some (reply, t) → Each C t requests) :
    Each C s (request :: requests) := by
  intro front next behind before u hsplit hfront
  cases front with
  | nil =>
      obtain ⟨rfl, rfl⟩ := List.cons.inj hsplit
      cases hfront
      exact hfirst
  | cons first front =>
      obtain ⟨rfl, hlater⟩ := List.cons.inj hsplit
      obtain ⟨reply, t, hserve, hothers⟩ := bind_eq_some_iff.mp hfront
      obtain ⟨replies, v, hbehind, hdone⟩ := bind_eq_some_iff.mp hothers
      cases hdone
      exact hrest reply t hserve front next behind replies u hlater hbehind

/-- Safe requests are all served, in a run whose every step is allowed. -/
theorem Online.serveAll {k : Nat} (h : Online s free) (hsafe : Each Request.Safe s requests)
    (hroomy : s.cache.Roomy (totalCost requests + k))
    (hcost : totalCost requests + k ≤ cacheCapacity) :
    ∃ replies t, serveAll requests s = some (replies, t) ∧ replies.length = requests.length ∧
      Trace Exchange.Served Exchange.Allowed s (requests.zip replies) t ∧ t.cache.Roomy k := by
  induction requests generalizing s free with
  | nil => exact ⟨[], s, rfl, rfl, .nil s, hroomy.mono (Nat.le_add_left _ _)⟩
  | cons request requests ih =>
      rw [totalCost, List.map_cons, List.sum_cons, Nat.add_assoc] at hroomy hcost
      obtain ⟨hallowed, hkeeps⟩ := hsafe [] request requests [] s rfl rfl
      obtain ⟨reply, u, hserve, hroomy'⟩ :=
        serve_ends h.toServing (hallowed free h.owned.freeList) hkeeps hroomy hcost
      have hallowed : Exchange.Allowed s (request, reply) := hallowed
      obtain ⟨-, free', honline⟩ := h.step hallowed hserve
      obtain ⟨replies, t, hrest, hlength, htrace, hroomyLast⟩ :=
        ih honline (hsafe.tail hserve) hroomy' (le_trans (Nat.le_add_left _ _) hcost)
      refine ⟨reply :: replies, t, ?_, ?_, .cons hallowed hserve htrace, hroomyLast⟩
      · rw [AltFs.serveAll, bind_of_eq hserve, bind_of_eq hrest]
        rfl
      · rw [List.length_cons, List.length_cons, hlength]

/-- On the tree the request is safe, and leaves it as it is. -/
def Request.Idle (tree : FileTree) (request : Request) : Prop :=
  (∀ s free, Online s free → view s = tree → request.Safe s) ∧
    ∀ reply after, Exchange.Means tree (request, reply) after → after = tree

theorem Online.safe_idle (h : Online s free)
    (hidle : ∀ request ∈ requests, request.Idle (view s)) : Each Request.Safe s requests := by
  induction requests generalizing s free with
  | nil => exact .nil
  | cons request requests ih =>
      obtain ⟨hsafe, hkeeps⟩ := hidle request List.mem_cons_self
      have hfirst := hsafe s free h rfl
      refine .cons hfirst fun reply t hserve => ?_
      have hallowed : Exchange.Allowed s (request, reply) := hfirst.1
      obtain ⟨hmeans, free', honline⟩ := h.step hallowed hserve
      apply ih honline
      rw [hkeeps reply _ hmeans]
      exact fun other hother => hidle other (List.mem_cons_of_mem _ hother)

end Serve

/-! ## Mounting -/

/-- The tree of a new file system. -/
def emptyTree : FileTree := PathTree.put (fun _ => none) [] ⟨sIfdir ||| defaultPermissions, []⟩

/-- What a mount of the device starts from. -/
structure Started (s : FileSystem) (tree : FileTree) : Prop where
  online : ∃ free, Online s free
  view : view s = tree
  cache : s.cache = InodeCache.createInodeCache cacheCapacity

/-- Mounting the device serves the tree, whatever was in memory. -/
def Mounts (s : FileSystem) (tree : FileTree) : Prop :=
  ∀ t, t.disk = s.disk → ∃ u, altfsInit t = some (true, u) ∧ Started u tree

omit [Config] in
theorem roomy_createInodeCache {k : Nat} (hk : k ≤ cacheCapacity) :
    (InodeCache.createInodeCache cacheCapacity).Roomy k := by
  refine ⟨⟨[], InodeCache.createInodeCache_inv (by decide)⟩, ?_⟩
  change 0 + k ≤ cacheCapacity
  omega

section Mount

variable {s t : FileSystem} {free : Multiset Int64} {root : Inode} {sb : Superblock}

theorem FreshRoot.online (h : FreshRoot s free root) (hwell : WellFormed s free) :
    Online s free ∧ view s = emptyTree := by
  have hready := h.ready
  have htree := h.treeFormed hwell
  have hnone := h.childOf_eq_none hwell
  have hserved : ∀ n < inodeCount, ServedInode s n := by
    intro n hn
    by_cases hroot : n = 2
    · rw [hroot]
      apply ServedInode.of_dir h.dirRoot
      apply htree.root.servedRecords_dots htree.root
      change (s.inodeAt 2).iChildNum = 2
      rw [h.rootAt, h.iChildNum]
    · exact .of_zero (h.others n hn hroot)
  have hwhole : WholeTree s free := by
    refine ⟨hwell, htree.root, htree.rootDir, hserved, fun hchild => ?_, htree.tree,
      fun {inum} hinum hallocated => ?_⟩
    · rw [hnone] at hchild
      cases hchild
    · by_cases hroot : inumIndex inum = 2
      · refine ⟨[], ?_⟩
        rw [hinum.eq_of_index htree.root hroot]
        rfl
      · rw [h.others _ hinum.index_lt hroot] at hallocated
        cases hallocated
  refine ⟨⟨⟨hwhole, hready.coherent, ?_⟩, ?_⟩, ?_⟩
  · rw [KeysIn, h.cache]
    exact InodeCache.allEntries_createInodeCache _
  · intro b hb
    rw [h.tableBlocks_eq]
    exact h.full b hb
  · funext path
    cases path with
    | nil =>
        change some (nodeOf s rootInodeNum) = some _
        have hat : s.inodeAt (inumIndex rootInodeNum) = root := h.rootAt
        rw [nodeOf_of_isDir htree.rootDir, hat, h.iMode]
    | cons name names =>
        rw [view_eq_none_iff.mpr]
        · rfl
        · rw [follow_cons, hnone]
          rfl

/-- Setting up reads the superblock first, whatever superblock is in memory. -/
theorem setupFilesystem_load (hload : loadSuperblock s = some (true, { s with superblock := sb }))
    (hload' : loadSuperblock { s with superblock := sb } =
      some (true, { s with superblock := sb })) :
    setupFilesystem s = setupFilesystem { s with superblock := sb } := by
  rw [setupFilesystem, bind_of_eq hload, bind_of_eq hload']

theorem Formatted.congr (h : Formatted s free) (hdisk : t.disk = s.disk)
    (hsb : t.superblock = s.superblock) : Formatted t free := by
  have hat : ∀ n, t.inodeAt n = s.inodeAt n := fun n => inodeAt_of_disk_eq (congrFun hdisk _)
  have hlist : FreeList t free := h.toFreeList.frame (by rw [hsb]) fun b _ => congrFun hdisk b
  refine ⟨⟨hlist, ?_, h.full⟩, ?_, ⟨?_, ?_⟩, ?_, fun n hn => ?_⟩
  · rw [FreelistHeadSet, hsb]
    exact h.head
  · rw [hdisk, hsb]
    exact h.stored
  · rw [hsb]
    exact h.format.sInodesCount
  · rw [hsb]
    exact h.format.sNumOfInodesPerBlock
  · rw [hsb]
    exact h.sFirstIno
  · rw [hat]
    exact h.inodeAt n hn

/-- The first mount of a device that has been formatted. -/
theorem altfsInit_of_makefs {s₀ : FileSystem} (hinodes : 0 < inodeBlockCount)
    (hmake : altfsMakefs s₀ = some (true, s)) (hdisk : t.disk = s.disk) :
    ∃ u free root, altfsInit t = some (true, u) ∧ FreshRoot u free root ∧ WellFormed u free := by
  obtain ⟨hpos, hrest⟩ := altfsMakefs_true hmake
  obtain ⟨s', free, hrun, hformatted, -⟩ := @altfsMakefs_run _ s₀ hpos hrest
  obtain rfl : s' = s := by simpa [hrun] using hmake
  have hformatted' : Formatted { t with superblock := s'.superblock } free :=
    hformatted.congr hdisk rfl
  have hload := @loadSuperblock_run _ t s'.superblock (by rw [hdisk]; exact hformatted.stored)
    hformatted.format.sInodesCount hformatted.format.sNumOfInodesPerBlock hinodes
  have hload' := @loadSuperblock_run _ { t with superblock := s'.superblock } s'.superblock
    hformatted'.stored hformatted.format.sInodesCount hformatted.format.sNumOfInodesPerBlock hinodes
  obtain ⟨u, free', root, hsetup, hfresh⟩ := setupFilesystem_run hformatted' hinodes
  have hstored : Stored { t with superblock := s'.superblock } :=
    ⟨hformatted'.format, hformatted'.stored⟩
  have hpath := (primitives_persists (validInum_root hinodes).inRange_zero).setupFilesystem_within
    _ _ _ hsetup hstored
  refine ⟨u, free', root, ?_, hfresh, hfresh.wellFormed (hstored.path hpath)⟩
  rw [altfsInit, setupFilesystem_load hload hload']
  exact hsetup

theorem mounts_of_makefs {s₀ : FileSystem} (hinodes : 0 < inodeBlockCount)
    (hmake : altfsMakefs s₀ = some (true, s)) : Mounts s emptyTree := by
  intro t hdisk
  obtain ⟨u, free, root, hinit, hfresh, hwell⟩ := altfsInit_of_makefs hinodes hmake hdisk
  obtain ⟨honline, hview⟩ := hfresh.online hwell
  exact ⟨u, hinit, ⟨free, honline⟩, hview, hfresh.cache⟩

omit [Config] in
private theorem two_le_length {α : Type*} {x y : α} {elements : List α} (hx : x ∈ elements)
    (hy : y ∈ elements) (hne : x ≠ y) : 2 ≤ elements.length := by
  cases elements with
  | nil => cases hx
  | cons z rest =>
      cases rest with
      | nil =>
          rw [List.mem_singleton] at hx hy
          exact absurd (hx.trans hy.symm) hne
      | cons w rest =>
          rw [List.length_cons, List.length_cons]
          omega

/-- What is on the device while it is served is what the next mount serves. -/
theorem Online.mounts (h : Online s free) (hdisk : t.disk = s.disk) : Mounts t (view s) := by
  intro v hv
  rw [hdisk] at hv
  have hcount := h.root.index_lt
  have hinodes : 0 < inodeBlockCount := by
    by_contra hnot
    rw [inodeCount, Int.toNat_of_nonpos (by omega)] at hcount
    omega
  have hload := @loadSuperblock_run _ v s.superblock (by rw [hv]; exact h.stored.stored)
    h.stored.sInodesCount h.stored.sNumOfInodesPerBlock hinodes
  let u : FileSystem :=
    { v with superblock := s.superblock, cache := InodeCache.createInodeCache cacheCapacity }
  have hat : ∀ n, u.inodeAt n = s.inodeAt n := fun n => inodeAt_of_disk_eq (congrFun hv _)
  have hout : KeptOutside ∅ s u := ⟨fun n _ _ => hat n, fun _ _ _ b _ => congrFun hv b⟩
  have hwell : WellFormed u free := h.toWellFormed.congr hv rfl
  obtain ⟨htree, hview⟩ := h.toWholeTree.kept hwell hout
  refine ⟨u, ?_, ⟨free, ⟨htree, ?_, ?_⟩, fun b hb => ?_⟩, hview, rfl⟩
  · have hread := getInode?_run hwell.stored.toTableFormat h.root
    have hused : (u.inodeAt (inumIndex rootInodeNum)).iAllocated = true ∧
        2 ≤ (u.inodeAt (inumIndex rootInodeNum)).iChildNum.toNat := by
      rw [hat]
      obtain ⟨contents, -, hrecords⟩ := (h.served _ h.root.index_lt).records h.rootDir
      refine ⟨h.toWellFormed.isAllocated h.root.index_lt h.rootDir, ?_⟩
      rw [hrecords.childNum, ← List.length_map (f := Prod.fst)]
      exact two_le_length hrecords.hasDot hrecords.hasDotDot (by decide)
    simp only [altfsInit, setupFilesystem, bind_of_eq hload, Bool.not_true, Bool.false_eq_true,
      if_false, modify_bind_apply]
    refine (bind_of_eq hread).trans ?_
    simp only [if_pos hused]
    rfl
  · exact InodeCache.allEntries_createInodeCache _
  · exact InodeCache.allEntries_createInodeCache _
  · rw [hout.tableBlocks_eq]
    exact h.complete b hb

end Mount

/-! ## Unmounting -/

/-- Requests of one run of the daemon and what was replied, nothing when it did not mount. -/
abbrev Session : Type := List Request × Option (List Reply)

/-- A session of the daemon, which starts with nothing but the device. -/
inductive Session.Ran (s : FileSystem) (session : Session) (t : FileSystem) : Prop
  | unmounted {u : FileSystem} (hdisk : u.disk = s.disk)
      (hmain : fuseMain session.1 u = some (session.2, t))
  /-- The daemon is killed between two requests; what it has written stays. -/
  | cut {u v : FileSystem} {replies : List Reply} (hdisk : u.disk = s.disk)
      (hinit : altfsInit u = some (true, v)) (hserve : serveAll session.1 v = some (replies, t))
      (hreplies : session.2 = some replies)

/-- Every request is safe when it is served, and the cache takes all lookups. -/
def SafeSession (s : FileSystem) (requests : List Request) : Prop :=
  totalCost requests ≤ cacheCapacity ∧
    ∀ u v, u.disk = s.disk → altfsInit u = some (true, v) → Each Request.Safe v requests

def Session.exchanges (session : Session) : List Exchange := session.1.zip (session.2.getD [])

section Session

variable {s t : FileSystem} {tree : FileTree} {free : Multiset Int64} {requests : List Request}
  {session : Session} {sessions : List Session}

/-- The superblock that unmounting writes is on the device already. -/
theorem Online.destroy (h : Online s free) (hroomy : s.cache.Roomy 0) :
    ∃ t, altfsDestroy s = some ((), t) ∧ t.disk = s.disk := by
  obtain ⟨nodes, hinv⟩ := hroomy.inv
  obtain ⟨cache, hfree⟩ := InodeCache.freeInodeCache_run hinv
  have hflush : flushInodeCache false s = some ((), { s with cache := cache }) :=
    bind_of_eq (onCache_run hfree)
  have hwrite := @altfsWriteSuperblock_run _ { s with cache := cache } h.root.inRange_zero
  refine ⟨_, (bind_of_eq hflush).trans (bind_of_eq hwrite), ?_⟩
  funext b
  by_cases hb : b = 0
  · rw [hb, disk_writeDisk_self]
    exact h.stored.stored.symm
  · rw [disk_writeDisk_ne hb]

theorem Mounts.started {u v : FileSystem} (h : Mounts s tree) (hdisk : u.disk = s.disk)
    (hinit : altfsInit u = some (true, v)) : Started v tree := by
  obtain ⟨v', hinit', hstarted⟩ := h u hdisk
  rw [hinit] at hinit'
  obtain ⟨-, rfl⟩ := Prod.mk.inj (Option.some.inj hinit')
  exact hstarted

theorem Mounts.safe_idle (h : Mounts s tree) (hcost : totalCost requests ≤ cacheCapacity)
    (hidle : ∀ request ∈ requests, request.Idle tree) : SafeSession s requests := by
  refine ⟨hcost, fun u v hdisk hinit => ?_⟩
  obtain ⟨⟨free, honline⟩, rfl, -⟩ := h.started hdisk hinit
  exact honline.safe_idle hidle

/-- A session mounts the device and replies to every request. -/
theorem Mounts.serveAll {u : FileSystem} (h : Mounts s tree) (hsafe : SafeSession s requests)
    (hdisk : u.disk = s.disk) :
    ∃ v replies t, altfsInit u = some (true, v) ∧ AltFs.serveAll requests v = some (replies, t) ∧
      replies.length = requests.length ∧
      Trace Exchange.Means (fun _ _ => True) tree (requests.zip replies) (view t) ∧
      t.cache.Roomy 0 ∧ ∃ free, Online t free := by
  obtain ⟨v, hinit, ⟨free, honline⟩, rfl, hcache⟩ := h u hdisk
  have hroomy : v.cache.Roomy (totalCost requests + 0) := by
    rw [hcache]
    exact roomy_createInodeCache hsafe.1
  obtain ⟨replies, t, hserve, hlength, htrace, hroomy'⟩ :=
    honline.serveAll (hsafe.2 u v hdisk hinit) hroomy hsafe.1
  obtain ⟨hmeans, honline'⟩ := honline.trace htrace
  exact ⟨v, replies, t, hinit, hserve, hlength, hmeans, hroomy', honline'⟩

/-- After the last request the device is unmounted, and can be mounted again. -/
theorem Mounts.run {u : FileSystem} (h : Mounts s tree) (hsafe : SafeSession s requests)
    (hdisk : u.disk = s.disk) :
    ∃ replies t after, fuseMain requests u = some (some replies, t) ∧
      replies.length = requests.length ∧
      Trace Exchange.Means (fun _ _ => True) tree (requests.zip replies) after ∧
      Mounts t after := by
  obtain ⟨v, replies, w, hinit, hserve, hlength, hmeans, hroomy, free, honline⟩ :=
    h.serveAll hsafe hdisk
  obtain ⟨t, hdestroy, hlast⟩ := honline.destroy hroomy
  refine ⟨replies, t, view w, ?_, hlength, hmeans, honline.mounts hlast⟩
  rw [fuseMain, bind_of_eq hinit, Bool.not_true, if_neg (by decide), bind_of_eq hserve]
  exact bind_of_eq hdestroy

theorem Session.Ran.mounts (hran : session.Ran s t) (hmounts : Mounts s tree)
    (hsafe : SafeSession s session.1) :
    (∃ replies, session.2 = some replies ∧ replies.length = session.1.length) ∧
      ∃ after, Trace Exchange.Means (fun _ _ => True) tree session.exchanges after ∧
        Mounts t after := by
  suffices hreplied : ∃ replies after, session.2 = some replies ∧
      replies.length = session.1.length ∧
      Trace Exchange.Means (fun _ _ => True) tree (session.1.zip replies) after ∧
      Mounts t after by
    obtain ⟨replies, after, hreplies, hlength, hmeans, hafter⟩ := hreplied
    refine ⟨⟨replies, hreplies, hlength⟩, after, ?_, hafter⟩
    rw [Session.exchanges, hreplies]
    exact hmeans
  cases hran with
  | unmounted hdisk hmain =>
      obtain ⟨replies, t', after, hrun, hlength, hmeans, hafter⟩ := hmounts.run hsafe hdisk
      rw [hmain] at hrun
      obtain ⟨hreplies, rfl⟩ := Prod.mk.inj (Option.some.inj hrun)
      exact ⟨replies, after, hreplies, hlength, hmeans, hafter⟩
  | cut hdisk hinit hserve hreplies =>
      obtain ⟨v, replies, t', hinit', hserve', hlength, hmeans, -, free, honline⟩ :=
        hmounts.serveAll hsafe hdisk
      rw [hinit] at hinit'
      obtain ⟨-, rfl⟩ := Prod.mk.inj (Option.some.inj hinit')
      rw [hserve] at hserve'
      obtain ⟨rfl, rfl⟩ := Prod.mk.inj (Option.some.inj hserve')
      exact ⟨_, _, hreplies, hlength, hmeans, honline.mounts rfl⟩

/-- What the sessions of a device reply is one run of the tree, from mount to mount. -/
theorem Mounts.runs (h : Mounts s tree)
    (htrace : Trace Session.Ran (fun s session => SafeSession s session.1) s sessions t) :
    (∀ session ∈ sessions, ∃ replies, session.2 = some replies ∧
      replies.length = session.1.length) ∧
    ∃ after, Trace Exchange.Means (fun _ _ => True) tree (sessions.flatMap Session.exchanges) after ∧
      Mounts t after := by
  induction htrace generalizing tree with
  | nil s =>
      refine ⟨fun session hsession => ?_, tree, .nil tree, h⟩
      cases hsession
  | cons hsafe hran _ ih =>
      obtain ⟨hanswered, middle, hfirst, hmiddle⟩ := hran.mounts h hsafe
      obtain ⟨hothers, after, hrest, hafter⟩ := ih hmiddle
      refine ⟨?_, after, hfirst.append hrest, hafter⟩
      intro session hsession
      rcases List.mem_cons.mp hsession with rfl | hsession
      · exact hanswered
      · exact hothers session hsession

end Session

end AltFs
