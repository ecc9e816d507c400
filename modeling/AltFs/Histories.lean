import AltFs.Effects
import AltFs.FileCalls
import AltFs.Sessions

/-!
# The life of a device

A device is formatted and then serves sessions, one after the other; a session
ends when it is unmounted or when the daemon is killed.  What the sessions reply
is a run of the abstract tree, and what is proved of the daemon between two
requests holds at every such moment.
-/

namespace AltFs

open Prog NamedTree

variable [Config]

/-- A device that has been formatted and has seen the sessions. -/
def Lifetime (sessions : List Session) (s : FileSystem) : Prop :=
  ∃ blank made, altfsMakefs blank = some (true, made) ∧
    Trace Session.Ran (fun s session => SafeSession s session.1) made sessions s

/-- After the sessions the device is mounted again, and the requests so far have been served. -/
def Waiting (sessions : List Session) (exchanges : List Exchange) (s : FileSystem) : Prop :=
  ∃ device u v, Lifetime sessions device ∧ u.disk = device.disk ∧ altfsInit u = some (true, v) ∧
    Trace Exchange.Served Exchange.Allowed v exchanges s

section

variable {s t : FileSystem} {tree tree' : FileTree} {sessions : List Session}
  {exchanges : List Exchange} {requests : List Request} {names : List CString}

theorem Mounts.unique (h : Mounts s tree) (h' : Mounts s tree') : tree = tree' := by
  obtain ⟨u, hinit, hstarted⟩ := h s rfl
  exact hstarted.view.symm.trans (h'.started rfl hinit).view

theorem Lifetime.mounts (h : Lifetime sessions s) (hinodes : 0 < inodeBlockCount) :
    ∃ tree, Trace Exchange.Means (fun _ _ => True) emptyTree
      (sessions.flatMap Session.exchanges) tree ∧ Mounts s tree := by
  obtain ⟨blank, made, hmake, hruns⟩ := h
  obtain ⟨-, tree, hmeans, hmounts⟩ := (mounts_of_makefs hinodes hmake).runs hruns
  exact ⟨tree, hmeans, hmounts⟩

theorem Waiting.online (h : Waiting sessions exchanges s) (hinodes : 0 < inodeBlockCount) :
    Trace Exchange.Means (fun _ _ => True) emptyTree
      (sessions.flatMap Session.exchanges ++ exchanges) (view s) ∧ ∃ free, Online s free := by
  obtain ⟨device, u, v, hlife, hdisk, hinit, htrace⟩ := h
  obtain ⟨tree, hbefore, hmounts⟩ := hlife.mounts hinodes
  obtain ⟨⟨free, honline⟩, rfl, -⟩ := hmounts.started hdisk hinit
  obtain ⟨hmeans, honline'⟩ := honline.trace htrace
  exact ⟨hbefore.append hmeans, honline'⟩

/-- The daemon goes on with requests that are safe. -/
theorem Waiting.serve {k : Nat} (h : Waiting sessions exchanges s) (hinodes : 0 < inodeBlockCount)
    (hidle : ∀ request ∈ requests, request.Idle (view s))
    (hroomy : s.cache.Roomy (totalCost requests + k))
    (hcost : totalCost requests + k ≤ cacheCapacity) :
    ∃ replies t, replies.length = requests.length ∧
      Trace Exchange.Served Exchange.Allowed s (requests.zip replies) t ∧
      Waiting sessions (exchanges ++ requests.zip replies) t ∧
      Trace Exchange.Means (fun _ _ => True) (view s) (requests.zip replies) (view t) ∧
      t.cache.Roomy k := by
  obtain ⟨-, free, honline⟩ := h.online hinodes
  obtain ⟨replies, t, -, hlength, htrace, hroomy'⟩ :=
    honline.serveAll (honline.safe_idle hidle) hroomy hcost
  obtain ⟨device, u, v, hlife, hdisk, hinit, hbefore⟩ := h
  exact ⟨replies, t, hlength, htrace,
    ⟨device, u, v, hlife, hdisk, hinit, hbefore.append htrace⟩, (honline.trace htrace).1, hroomy'⟩

theorem Lifetime.then {session : Session} (h : Lifetime sessions s) (hran : session.Ran s t)
    (hsafe : SafeSession s session.1) : Lifetime (sessions ++ [session]) t := by
  obtain ⟨blank, made, hmake, hruns⟩ := h
  exact ⟨blank, made, hmake, hruns.append (.cons hsafe hran (.nil t))⟩

theorem Trace.untouched
    (htrace : Trace Exchange.Means (fun _ _ => True) tree exchanges tree')
    (hout : ∀ exchange ∈ exchanges, ¬exchange.1.touches names = true) :
    tree' names = tree names := by
  refine @Trace.invariant _ _ _ _ _ _ _ (fun after => after names = tree names) htrace rfl ?_
  rintro before exchange after hmem hbefore - ⟨_, _, _, -, -, -, -, hstep⟩
  exact (hstep.untouched (hout exchange hmem)).trans hbefore

/-- A property of trees that every reply keeps holds of what is served later. -/
theorem Mounts.later {I : FileTree → Prop} {later : List Session} (h : Mounts s tree)
    (htrace : Trace Session.Ran (fun s session => SafeSession s session.1) s later t)
    (hstart : I tree)
    (hkeep : ∀ session ∈ later, ∀ request ∈ session.1, ∀ tree reply after, I tree →
      Exchange.Means tree (request, reply) after → I after) :
    ∃ after, Mounts t after ∧ I after := by
  obtain ⟨-, after, hmeans, hafter⟩ := h.runs htrace
  refine ⟨after, hafter, hmeans.invariant hstart ?_⟩
  rintro tree ⟨request, reply⟩ after hmem hI - hstep
  obtain ⟨session, hsession, hexchange⟩ := List.mem_flatMap.mp hmem
  exact hkeep session hsession request (List.of_mem_zip hexchange).1 tree reply after hI hstep

omit [Config] in
theorem closed_emptyTree : emptyTree.Closed := by
  intro path name hmem
  have hne : path ++ [name] ≠ [] := List.append_ne_nil_of_right_ne_nil _ (List.cons_ne_nil _ _)
  rw [emptyTree, PathTree.put, Function.update_of_ne hne] at hmem
  exact absurd rfl hmem

/-- Every tree that is served is closed. -/
theorem Lifetime.closed (h : Lifetime sessions s) (hinodes : 0 < inodeBlockCount)
    (hmounts : Mounts s tree) : tree.Closed := by
  obtain ⟨tree', hmeans, hmounts'⟩ := h.mounts hinodes
  rw [hmounts.unique hmounts']
  apply hmeans.invariant closed_emptyTree
  rintro tree exchange after - hclosed - ⟨_, _, _, -, -, -, -, hstep⟩
  exact hstep.closed hclosed

end

/-! ## The first session of a device -/

/-- The first file, `/f`. -/
def makeFile : Request := .mknod (pathOf [[letterF]]) (sIfreg ||| defaultPermissions)

def lookAtFile : Request := .access (pathOf [[letterF]])

section

variable {s : FileSystem} {free : Multiset Int64} {root : Inode} {sessions : List Session}
  {requests : List Request}

theorem FreshRoot.noBlockLost (h : FreshRoot s free root) : NoBlockLost s free [[letterF]] := by
  rintro parentInum name contents ⟨front, heq, hfollow, hcontents⟩
  obtain ⟨rfl, hname⟩ := List.append_inj' (show [] ++ [[letterF]] = front ++ [name] from heq) rfl
  obtain ⟨rfl, -⟩ := List.cons.inj hname
  obtain rfl := Option.some.inj hfollow
  rw [hcontents.unique h.dirRoot]
  refine .inl ⟨by decide, .inl ⟨_, List.mem_singleton.mpr rfl, ?_⟩⟩
  decide

theorem FreshRoot.makeFile_safe (h : FreshRoot s free root) : makeFile.Safe s := by
  refine ⟨fun free' hlist => ?_, trivial⟩
  rw [h.owned.freeList.unique hlist]
  exact .mknod components_f (by decide) h.noBlockLost

theorem lookAtFile_safe (s : FileSystem) : lookAtFile.Safe s :=
  ⟨fun _ _ => .access components_f, trivial⟩

theorem safe_lookAtFile (s : FileSystem) : SafeSession s [lookAtFile] :=
  ⟨by decide, fun _ v _ _ => .cons (lookAtFile_safe v) fun _ _ _ => .nil⟩

/-- A device that has been formatted and not been mounted. -/
theorem exists_formatted (hinodes : 0 < inodeBlockCount)
    (hrest : numOfDataBlocks % numOfAddressesPerBlock ≠ 0) :
    ∃ s, Lifetime [] s ∧ ∀ u, u.disk = s.disk → ∃ v free root,
      altfsInit u = some (true, v) ∧ FreshRoot v free root ∧ WellFormed v free := by
  obtain ⟨s, -, hmake, -⟩ := makefs_setup_run FileSystem.blank hinodes hrest
  exact ⟨s, ⟨_, s, hmake, .nil s⟩, fun u => altfsInit_of_makefs hinodes hmake⟩

theorem Lifetime.next (h : Lifetime sessions s) (hinodes : 0 < inodeBlockCount)
    (hsafe : SafeSession s requests) : ∃ replies t, Session.Ran s (requests, some replies) t := by
  obtain ⟨tree, -, hmounts⟩ := h.mounts hinodes
  obtain ⟨replies, t, after, hmain, -⟩ := hmounts.run hsafe rfl
  exact ⟨replies, t, .unmounted rfl hmain⟩

/-- A device whose first session makes a file. -/
theorem exists_firstSession (hinodes : 0 < inodeBlockCount)
    (hrest : numOfDataBlocks % numOfAddressesPerBlock ≠ 0) :
    ∃ s replies t, Lifetime [] s ∧ SafeSession s [makeFile] ∧
      Session.Ran s ([makeFile], some replies) t := by
  obtain ⟨s, hlife, hfresh⟩ := exists_formatted hinodes hrest
  have hsafe : SafeSession s [makeFile] := by
    refine ⟨by decide, fun u v hdisk hinit => ?_⟩
    obtain ⟨v', free, root, hinit', hroot, -⟩ := hfresh u hdisk
    rw [hinit] at hinit'
    obtain ⟨-, rfl⟩ := Prod.mk.inj (Option.some.inj hinit')
    exact .cons hroot.makeFile_safe fun _ _ _ => .nil
  obtain ⟨replies, t, hran⟩ := hlife.next hinodes hsafe
  exact ⟨s, replies, t, hlife, hsafe, hran⟩

end

/-! ## A device with a file -/

section OneByte

variable {s t : FileSystem} {free : Multiset Int64} {root : Inode} {tree : FileTree}
  {names : List CString} {node : Node} {length : Int64}

def writeByte : Request := .write (pathOf [[letterF]]) [7] 0

def readByte : Request := .read (pathOf [[letterF]]) 1 0

/-- The file `/f` with the content. -/
def fileNode (content : List UInt8) : Node := ⟨sIfreg ||| defaultPermissions, content⟩

omit [Config] in
theorem isRegular_fileNode (content : List UInt8) : (fileNode content).isRegular = true := by
  change decide ((sIfreg ||| defaultPermissions) &&& 0xF000 = sIfreg) = true
  decide

omit [Config] in
theorem isDir_fileNode (content : List UInt8) : (fileNode content).isDir = false := by
  change decide ((sIfreg ||| defaultPermissions) &&& 0xF000 = sIfdir) = false
  decide

theorem FreshRoot.makeFile_run (h : FreshRoot s free root) (hwell : WellFormed s free) :
    ∃ t inum, makeFile.serve s = some (.status 0, t) ∧ FreeList t free ∧
      follow (childOf t) rootInodeNum [[letterF]] = some inum ∧
      (t.inodeAt (inumIndex inum)).iBlocksNum = 0 ∧ view t [[letterF]] = some (fileNode []) := by
  obtain ⟨-, t, inum, entries, hrun, -, -, -, hfile⟩ := h.oneFile_run hwell h.ready
  obtain ⟨currTime, hnode⟩ := hfile.node
  have hfollow : follow (childOf t) rootInodeNum [[letterF]] = some inum := by
    rw [follow_cons, hfile.child]
    rfl
  refine ⟨t, inum, bind_of_eq hrun, hfile.tree.owned.freeList, hfollow, ?_, ?_⟩
  · rw [hnode]
    rfl
  · rw [view_eq_some hfollow, nodeOf_fresh hnode]
    rfl

/-- The session that writes a byte to a new file. -/
def writing : Session := ([makeFile, writeByte], some [.status 0, .status 1])

/-- A device with a file of one byte. -/
theorem exists_writtenFile (hinodes : 0 < inodeBlockCount)
    (hrest : numOfDataBlocks % numOfAddressesPerBlock ≠ 0) (hdata : 2 ≤ numOfDataBlocks) :
    ∃ s tree, Lifetime [writing] s ∧ Mounts s tree ∧ tree [[letterF]] = some (fileNode [7]) := by
  obtain ⟨device, hlife, hfresh⟩ := exists_formatted hinodes hrest
  have hsafe : SafeSession device [makeFile, writeByte] := by
    refine ⟨by decide, fun u v hdisk hinit => ?_⟩
    obtain ⟨v', free, root, hinit', hroot, hwell⟩ := hfresh u hdisk
    rw [hinit] at hinit'
    obtain ⟨-, rfl⟩ := Prod.mk.inj (Option.some.inj hinit')
    obtain ⟨t, inum, hmake, hlist, hfollow, hnum, hview⟩ := hroot.makeFile_run hwell
    refine .cons hroot.makeFile_safe fun reply t' hserve => ?_
    rw [hmake] at hserve
    obtain ⟨-, rfl⟩ := Prod.mk.inj (Option.some.inj hserve)
    refine .cons ⟨fun free' hlist' => ?_, trivial⟩ fun _ _ _ => .nil
    rw [hlist.unique hlist']
    apply Request.Allowed.write components_f
    · intro node hnode
      rw [hview] at hnode
      obtain rfl := Option.some.inj hnode
      decide
    · intro inum' hfollow'
      rw [hfollow] at hfollow'
      obtain rfl := Option.some.inj hfollow'
      have hcard := hroot.card_free
      exact roomFor_byte hnum (by omega)
  obtain ⟨v, free, root, hinit, hroot, hwell⟩ := hfresh device rfl
  obtain ⟨honline, -⟩ := hroot.online hwell
  obtain ⟨replies, w, hserve, hlength, htrace, -⟩ :=
    honline.serveAll (k := 0) (hsafe.2 device v rfl hinit)
      (by rw [hroot.cache]; exact roomy_createInodeCache hsafe.1) hsafe.1
  obtain ⟨first, second, rfl⟩ := List.length_eq_two.mp hlength
  obtain ⟨t, inum, hmake, -, -, -, hview⟩ := hroot.makeFile_run hwell
  cases htrace with
  | cons hallowed hstep hrest =>
      obtain ⟨-, free', honline'⟩ := honline.step hallowed hstep
      obtain ⟨rfl, rfl⟩ := Prod.mk.inj (Option.some.inj (hmake.symm.trans hstep))
      cases hrest with
      | cons hallowed' hstep' hrest' =>
          obtain ⟨⟨_, _, _, -, -, -, -, hmeans⟩, free'', honline''⟩ := honline'.step hallowed' hstep'
          obtain ⟨hreply, hafter⟩ := hmeans.write_inv components_f
          have hwrite := @FileTree.write_of_some (view t) [[letterF]] _ [7] (0 : Int64).toInt hview
            (List.cons_ne_nil _ _) (by decide)
          rw [hwrite] at hreply hafter
          obtain rfl : second = .status 1 := hreply
          cases hrest'
          have hran : Session.Ran device writing w := .cut rfl hinit hserve rfl
          refine ⟨w, view w, hlife.then hran hsafe, honline''.mounts rfl, ?_⟩
          rw [hafter]
          change PathTree.put (view t) [[letterF]] (fileNode [7]) [[letterF]] = _
          exact PathTree.put_same

/-- Nothing can be made below a file. -/
def makeBelow : Request := .mkdir (pathOf [[letterF], [letterD]]) defaultPermissions

/-- There is no `/d`. -/
def cutMissing : Request := .truncate (pathOf [[letterD]]) 1

/-- What changes a tree is refused twice. -/
def refused : List Exchange := [(makeBelow, .status (-1)), (cutMissing, .status (-enoent))]

omit [Config] in
theorem components_fd : ∀ name ∈ [[letterF], [letterD]], IsComponent name := by
  intro name hmem
  rcases List.mem_cons.mp hmem with rfl | hmem
  · exact isComponent_f
  · rw [List.mem_singleton.mp hmem]
    exact isComponent_d

theorem isDir_of_fileNode {content : List UInt8} {inum : Int64} (h : Online s free)
    (hnode : view s [[letterF]] = some (fileNode content))
    (hfollow : follow (childOf s) rootInodeNum [[letterF]] = some inum) :
    (s.inodeAt (inumIndex inum)).isDir = false := by
  rw [view_eq_some hfollow] at hnode
  have hregular := h.toWholeTree.isRegular hfollow
  rw [Option.some.inj hnode, isRegular_fileNode] at hregular
  exact Inode.isRegular_isDir hregular

variable {content : List UInt8} {reply : Reply} {after : FileTree}

theorem readdir_idle (hnames : ∀ name ∈ names, IsComponent name) :
    (Request.readdir (pathOf names)).Idle tree :=
  ⟨fun _ _ _ _ => ⟨fun _ _ => .readdir hnames, trivial⟩,
    fun _ _ ⟨_, _, _, _, _, _, _, hmeans⟩ => (hmeans.readdir_inv hnames).1⟩

theorem getattr_idle (hnames : ∀ name ∈ names, IsComponent name) :
    (Request.getattr (pathOf names)).Idle tree :=
  ⟨fun _ _ _ _ => ⟨fun _ _ => .getattr hnames, trivial⟩,
    fun _ _ ⟨_, _, _, _, _, _, _, hmeans⟩ => (hmeans.getattr_inv hnames).1⟩

theorem readByte_idle (hnode : tree [[letterF]] = some (fileNode content)) :
    readByte.Idle tree := by
  refine ⟨fun s free _ hview => ⟨fun _ _ => .read components_f fun node hnode' => ?_, trivial⟩,
    fun reply after ⟨_, _, _, _, _, _, _, hmeans⟩ => (hmeans.read_inv components_f).2⟩
  rw [hview, hnode] at hnode'
  obtain rfl := Option.some.inj hnode'
  exact isRegular_fileNode content

theorem readByte_reply (hnode : tree [[letterF]] = some (fileNode [7]))
    (h : Exchange.Means tree (readByte, reply) after) : reply = .data 1 [7] := by
  obtain ⟨_, _, _, -, -, -, -, hmeans⟩ := h
  obtain ⟨hreply, -⟩ := hmeans.read_inv components_f
  rw [FileTree.read, hnode] at hreply
  exact hreply

theorem makeBelow_means (hnode : tree [[letterF]] = some (fileNode content))
    (h : Exchange.Means tree (makeBelow, reply) after) : reply = .status (-1) ∧ after = tree := by
  obtain ⟨_, _, _, -, -, -, -, hmeans⟩ := h
  obtain ⟨done, hreply, hcreates⟩ := hmeans.mkdir_inv components_fd
  cases hcreates with
  | refused => exact ⟨hreply, rfl⟩
  | done hmay =>
      obtain ⟨-, front, name, node, heq, hfront, hdir, -⟩ := hmay
      obtain ⟨rfl, -⟩ := List.append_inj' (show [[letterF]] ++ [[letterD]] = front ++ [name] from heq)
        rfl
      obtain rfl := Option.some.inj (hnode.symm.trans hfront)
      rw [isDir_fileNode] at hdir
      cases hdir

theorem makeBelow_idle (hnode : tree [[letterF]] = some (fileNode content)) :
    makeBelow.Idle tree := by
  refine ⟨fun s free h hview => ⟨fun free' hlist => ?_, trivial⟩,
    fun reply after hmeans => (makeBelow_means hnode hmeans).2⟩
  rw [← hview] at hnode
  have hplace : ∀ {front : List CString} {name : CString} {parentInum : Int64},
      [[letterF], [letterD]] = front ++ [name] →
      follow (childOf s) rootInodeNum front = some parentInum →
      (s.inodeAt (inumIndex parentInum)).isDir = false := by
    intro front name parentInum heq hfollow
    obtain ⟨rfl, -⟩ := List.append_inj' (show [[letterF]] ++ [[letterD]] = front ++ [name] from heq)
      rfl
    exact isDir_of_fileNode h hnode hfollow
  refine .mkdir components_fd ?_ ?_
  · rintro parentInum name contents ⟨front, heq, hfollow, hcontents⟩
    have hdir := hcontents.isDir
    rw [hplace heq hfollow] at hdir
    cases hdir
  · rintro ⟨hwalk, parentInum, name, contents, hattempted, hcontents, -⟩
    obtain ⟨front, heq, -, -, hfollow, -⟩ :=
      hattempted.place h.treeFormed components_fd hwalk hcontents
    have hdir := hcontents.isDir
    rw [hplace heq hfollow] at hdir
    cases hdir

theorem cutMissing_means (hnone : tree [[letterD]] = none)
    (h : Exchange.Means tree (cutMissing, reply) after) :
    reply = .status (-enoent) ∧ after = tree := by
  obtain ⟨_, _, _, -, -, -, -, hmeans⟩ := h
  obtain ⟨hreply, hafter⟩ := hmeans.truncate_inv (components_single isComponent_d)
  rw [FileTree.truncate, hnone] at hreply hafter
  exact ⟨hreply, hafter⟩

theorem cutMissing_idle (hnone : tree [[letterD]] = none) : cutMissing.Idle tree := by
  refine ⟨fun s free _ hview => ⟨fun _ _ => ?_, trivial⟩,
    fun reply after hmeans => (cutMissing_means hnone hmeans).2⟩
  rw [← hview] at hnone
  apply Request.Allowed.truncate (components_single isComponent_d)
  · intro node hnode
    rw [hnone] at hnode
    cases hnode
  · intro inum hfollow
    rw [view_eq_some hfollow] at hnone
    cases hnone

theorem Lifetime.untouched (h : Lifetime [writing] s) (hinodes : 0 < inodeBlockCount)
    (hmounts : Mounts s tree)
    (hout : ∀ exchange ∈ writing.exchanges, ¬exchange.1.touches names = true) :
    tree names = emptyTree names := by
  obtain ⟨tree', hmeans, hmounts'⟩ := h.mounts hinodes
  rw [List.flatMap_singleton] at hmeans
  rw [hmounts.unique hmounts', Trace.untouched hmeans hout]

theorem Lifetime.missing_d (h : Lifetime [writing] s) (hinodes : 0 < inodeBlockCount)
    (hmounts : Mounts s tree) : tree [[letterD]] = none :=
  h.untouched hinodes hmounts (by decide)

/-- The daemon serves the device with the file, and has refused to change it. -/
theorem exists_refused (hinodes : 0 < inodeBlockCount)
    (hrest : numOfDataBlocks % numOfAddressesPerBlock ≠ 0) (hdata : 2 ≤ numOfDataBlocks) :
    ∃ s t, Waiting [writing] [(readByte, .data 1 [7])] s ∧
      Trace Exchange.Served Exchange.Allowed s refused t ∧
      Waiting [writing] ((readByte, .data 1 [7]) :: refused) t ∧
      view t [[letterF]] = some (fileNode [7]) ∧ t.cache.Roomy 100 := by
  obtain ⟨device, tree, hlife, hmounts, hnode⟩ := exists_writtenFile hinodes hrest hdata
  have hnone := hlife.missing_d hinodes hmounts
  obtain ⟨v, hinit, ⟨free, honline⟩, rfl, hcache⟩ := hmounts device rfl
  have hwaiting : Waiting [writing] [] v := ⟨device, device, v, hlife, rfl, hinit, .nil v⟩
  obtain ⟨replies, s, hlength, -, hs, hmeans, hroomy⟩ := @Waiting.serve _ v [writing] [] [readByte]
    200 hwaiting hinodes (by simpa using readByte_idle hnode)
    (by rw [hcache]; exact roomy_createInodeCache (by decide)) (by decide)
  obtain ⟨reply, rfl⟩ := List.length_eq_one_iff.mp hlength
  obtain ⟨rfl, hsame⟩ : reply = .data 1 [7] ∧ view s = view v := by
    cases hmeans with
    | cons _ hstep hrest =>
        have hkept := (readByte_idle hnode).2 _ _ hstep
        cases hrest
        exact ⟨readByte_reply hnode hstep, hkept⟩
  rw [← hsame] at hnode hnone
  obtain ⟨replies, t, hlength, htrace, ht, hmeans, hroomy⟩ := @Waiting.serve _ s [writing] _
    [makeBelow, cutMissing] 100 hs hinodes (by
      simpa using ⟨makeBelow_idle hnode, cutMissing_idle hnone⟩) (hroomy.mono (by decide))
      (by decide)
  obtain ⟨first, second, rfl⟩ := List.length_eq_two.mp hlength
  cases hmeans with
  | cons _ hstep hrest =>
      obtain ⟨rfl, hmiddle⟩ := makeBelow_means hnode hstep
      rw [hmiddle] at hrest
      cases hrest with
      | cons _ hstep' hlast =>
          obtain ⟨rfl, hafter⟩ := cutMissing_means hnone hstep'
          cases hlast
          exact ⟨s, t, hs, htrace, ht, by rw [hafter]; exact hnode, hroomy⟩

end OneByte

/-! ## What clients rely on -/

section

variable {s t : FileSystem} {tree tree' : FileTree} {sessions : List Session}
  {exchanges : List Exchange} {requests : List Request} {names : List CString}

/--
Whatever sessions a formatted device has seen, each request was answered, and
the answers are one run of the tree, which the next mount serves.
-/
theorem lifetime_refines (hinodes : 0 < inodeBlockCount) (h : Lifetime sessions s) :
    (∀ session ∈ sessions, ∃ replies, session.2 = some replies ∧
      replies.length = session.1.length) ∧
    ∃ tree, Trace Exchange.Means (fun _ _ => True) emptyTree
      (sessions.flatMap Session.exchanges) tree ∧ Mounts s tree := by
  obtain ⟨blank, made, hmake, hruns⟩ := h
  exact (mounts_of_makefs hinodes hmake).runs hruns

omit [Config] in
/-- One session makes a file, the next one looks at it. -/
theorem lifetime_refines_f :
    letI := Config.ofBlocks 67 (by decide)
    ∃ first second s tree, Lifetime [first, second] s ∧ first.1 = [makeFile] ∧
      second.1 = [lookAtFile] ∧ Trace Exchange.Means (fun _ _ => True) emptyTree
        ([first, second].flatMap Session.exchanges) tree ∧ Mounts s tree := by
  let _ := Config.ofBlocks 67 (by decide)
  obtain ⟨s, replies, t, hlife, hsafe, hran⟩ := exists_firstSession (by decide) (by decide)
  have hlife₁ := hlife.then hran hsafe
  obtain ⟨replies', u, hran'⟩ := hlife₁.next (by decide) (safe_lookAtFile t)
  have hlife₂ := hlife₁.then hran' (safe_lookAtFile t)
  obtain ⟨-, tree, hmeans, hmounts⟩ := lifetime_refines (by decide) hlife₂
  exact ⟨_, _, u, tree, hlife₂, rfl, rfl, hmeans, hmounts⟩

/-- The daemon mounts the device with any memory and serves every safe session to its end. -/
theorem lifetime_serves {u : FileSystem} (hinodes : 0 < inodeBlockCount)
    (h : Lifetime sessions s) (hsafe : SafeSession s requests) (hdisk : u.disk = s.disk) :
    ∃ replies t, fuseMain requests u = some (some replies, t) ∧
      replies.length = requests.length ∧ Lifetime (sessions ++ [(requests, some replies)]) t := by
  obtain ⟨tree, -, hmounts⟩ := h.mounts hinodes
  obtain ⟨replies, t, after, hmain, hlength, -⟩ := hmounts.run hsafe hdisk
  exact ⟨replies, t, hmain, hlength, h.then (.unmounted hdisk hmain) hsafe⟩

omit [Config] in
theorem lifetime_serves_f :
    letI := Config.ofBlocks 67 (by decide)
    ∃ s replies t, Lifetime [] s ∧ fuseMain [makeFile] s = some (some replies, t) ∧
      replies.length = 1 := by
  let _ := Config.ofBlocks 67 (by decide)
  obtain ⟨s, -, -, hlife, hsafe, -⟩ := exists_firstSession (by decide) (by decide)
  obtain ⟨replies, t, hmain, hlength, -⟩ := lifetime_serves (by decide) hlife hsafe rfl
  exact ⟨s, replies, t, hlife, hmain, hlength⟩

/-- Between two requests every data block is free or in one place of one file. -/
theorem blocks_partitioned (hinodes : 0 < inodeBlockCount) (h : Waiting sessions exchanges s) :
    ∃ free, FreeList s free ∧ (free + tableBlocks s).Nodup ∧
      ∀ b, b ∈ free + tableBlocks s ↔ DataBlock b := by
  obtain ⟨-, free, honline⟩ := h.online hinodes
  refine ⟨free, honline.owned.freeList, honline.owned.nodup, fun b => ⟨fun hb => ?_, ?_⟩⟩
  · rcases Multiset.mem_add.mp hb with hfree | hheld
    · exact honline.owned.freeList.data b hfree
    · exact honline.owned.data b hheld
  · exact honline.complete b

omit [Config] in
theorem blocks_partitioned_refused :
    letI := Config.ofBlocks 67 (by decide)
    ∃ s free, Waiting [writing] ((readByte, .data 1 [7]) :: refused) s ∧ FreeList s free ∧
      (free + tableBlocks s).Nodup ∧ ∀ b, b ∈ free + tableBlocks s ↔ DataBlock b := by
  let _ := Config.ofBlocks 67 (by decide)
  obtain ⟨-, s, -, -, hwaiting, -⟩ := exists_refused (by decide) (by decide) (by decide)
  obtain ⟨free, hpartition⟩ := blocks_partitioned (by decide) hwaiting
  exact ⟨s, free, hwaiting, hpartition⟩

/--
Between two requests the directories are a tree: each inode in use is under one
path, and each directory counts its records and names itself.
-/
theorem directories_tree (hinodes : 0 < inodeBlockCount) (h : Waiting sessions exchanges s) :
    (∀ inum, ValidInum inum → (s.inodeAt (inumIndex inum)).iAllocated = true →
      ∃! names, follow (childOf s) rootInodeNum names = some inum) ∧
    (∀ names inum, follow (childOf s) rootInodeNum names = some inum →
      (s.inodeAt (inumIndex inum)).iAllocated = true) ∧
    (∀ parentInum name inum, childOf s parentInum name = some inum →
      IsComponent name ∧ (s.inodeAt (inumIndex inum)).iLinksCount = 1) ∧
    ∀ n < inodeCount, (s.inodeAt n).isDir = true →
      ∃ contents, DirContents s (s.inodeAt n) contents ∧
        (s.inodeAt n).iChildNum.toNat = contents.flatten.length ∧
        (contents.flatten.map Prod.fst).Nodup ∧
        ∃ inum, ([dot], inum) ∈ contents.flatten ∧ inum.toInt = n := by
  obtain ⟨-, free, honline⟩ := h.online hinodes
  refine ⟨fun inum hinum hmark => ?_, fun names inum hfollow => ?_, fun i name inum hchild => ?_,
    fun n hn hdir => ?_⟩
  · obtain ⟨names, hfollow⟩ := honline.reached hinum hmark
    exact ⟨names, hfollow, fun other hother => honline.tree.path_unique hother hfollow⟩
  · exact honline.toWholeTree.allocated hfollow
  · have hedge := honline.edge hchild
    exact ⟨hedge.component, hedge.links⟩
  · obtain ⟨contents, hcontents, hrecords⟩ := (honline.served n hn).records hdir
    obtain ⟨⟨name, inum⟩, hmem, rfl⟩ := List.mem_map.mp hrecords.hasDot
    exact ⟨contents, hcontents, hrecords.childNum, hrecords.unique, inum, hmem,
      hrecords.self inum hmem⟩

omit [Config] in
/-- The file is under one path. -/
theorem directories_tree_refused :
    letI := Config.ofBlocks 67 (by decide)
    ∃ s inum, Waiting [writing] ((readByte, .data 1 [7]) :: refused) s ∧
      follow (childOf s) rootInodeNum [[letterF]] = some inum ∧
      ∀ names, follow (childOf s) rootInodeNum names = some inum → names = [[letterF]] := by
  let _ := Config.ofBlocks 67 (by decide)
  obtain ⟨-, s, -, -, hwaiting, hnode, -⟩ := exists_refused (by decide) (by decide) (by decide)
  obtain ⟨hplaces, hmarks, -⟩ := directories_tree (by decide) hwaiting
  obtain ⟨-, free, honline⟩ := hwaiting.online (by decide)
  obtain ⟨inum, hfollow⟩ : ∃ inum, follow (childOf s) rootInodeNum [[letterF]] = some inum := by
    rw [← Option.isSome_iff_exists, ← Option.ne_none_iff_isSome, ← view_eq_none_iff.ne, hnode]
    exact Option.some_ne_none _
  obtain ⟨names, -, hunique⟩ :=
    hplaces inum (honline.rooted.valid hfollow) (hmarks _ _ hfollow)
  exact ⟨s, inum, hwaiting, hfollow, fun other hother =>
    (hunique other hother).trans (hunique _ hfollow).symm⟩

/-- The cache never changes where a path leads. -/
theorem nameI_uncached {inum inum' : Int64} {u : FileSystem} (hinodes : 0 < inodeBlockCount)
    (h : Waiting sessions exchanges s) (hnames : ∀ name ∈ names, IsComponent name)
    (hname : nameI (pathOf names) s = some (inum, t))
    (hempty : nameI (pathOf names)
      { s with cache := InodeCache.createInodeCache cacheCapacity } = some (inum', u)) :
    inum = inum' := by
  obtain ⟨-, free, honline⟩ := h.online hinodes
  have hsame : SameButCache s { s with cache := InodeCache.createInodeCache cacheCapacity } :=
    ⟨_, rfl⟩
  obtain ⟨-, -, hfirst⟩ := nameI_wholeTree honline.toWholeTree honline.coherent hnames hname
  obtain ⟨-, -, hsecond⟩ := nameI_wholeTree (hsame.wholeTree honline.toWholeTree)
    (InodeCache.allEntries_createInodeCache _) hnames hempty
  rw [hsame.view_eq honline.toWholeTree, hsame.childOf_eq] at hsecond
  rcases hfirst with ⟨rfl, hnone⟩ | ⟨hfound, hfollow⟩
  · rcases hsecond with ⟨rfl, -⟩ | ⟨-, hfollow⟩
    · rfl
    · rw [view_eq_none_iff, hfollow] at hnone
      cases hnone
  · rcases hsecond with ⟨-, hnone⟩ | ⟨-, hfollow'⟩
    · rw [view_eq_none_iff, hfollow] at hnone
      cases hnone
    · rw [hfollow, Option.some_inj] at hfollow'
      exact hfollow'

omit [Config] in
/-- The path of the file, which the cache holds after it has been read. -/
theorem nameI_uncached_refused :
    letI := Config.ofBlocks 67 (by decide)
    ∃ s inum inum' t u, Waiting [writing] ((readByte, .data 1 [7]) :: refused) s ∧
      nameI (pathOf [[letterF]]) s = some (inum, t) ∧ inum ≠ -1 ∧
      nameI (pathOf [[letterF]])
        { s with cache := InodeCache.createInodeCache cacheCapacity } = some (inum', u) ∧
      inum = inum' := by
  let _ := Config.ofBlocks 67 (by decide)
  obtain ⟨-, s, -, -, hwaiting, hnode, hroomy⟩ := exists_refused (by decide) (by decide) (by decide)
  obtain ⟨-, free, honline⟩ := hwaiting.online (by decide)
  obtain ⟨inum, hfollow⟩ : ∃ inum, follow (childOf s) rootInodeNum [[letterF]] = some inum := by
    rw [← Option.isSome_iff_exists, ← Option.ne_none_iff_isSome, ← view_eq_none_iff.ne, hnode]
    exact Option.some_ne_none _
  have hinum := (honline.rooted.valid hfollow).ne_minusOne
  have hwalk := (honline.rooted.walk_eq_some components_f hinum).mpr hfollow
  have hready : Ready s ((pathOf [[letterF]]).length + 0) :=
    ⟨honline.coherent, hroomy.inv, (hroomy.mono (by decide)).room⟩
  obtain ⟨t, hname, -⟩ := nameI_run hready hwalk
  have hsame : SameButCache s { s with cache := InodeCache.createInodeCache cacheCapacity } :=
    ⟨_, rfl⟩
  have hempty : Ready { s with cache := InodeCache.createInodeCache cacheCapacity }
      ((pathOf [[letterF]]).length + 0) := by
    have hroomy := @roomy_createInodeCache 100 (by decide)
    exact ⟨coherent_empty s _, hroomy.inv, (hroomy.mono (by decide)).room⟩
  obtain ⟨u, hname', -⟩ := nameI_run hempty ((hsame.walk_eq _).trans hwalk)
  exact ⟨s, inum, inum, t, u, hwaiting, hname, hinum, hname',
    nameI_uncached (by decide) hwaiting components_f hname hname'⟩

/-- A run of requests that all fail leaves the tree as it is. -/
theorem failed_unchanged {failed : List Exchange} (hinodes : 0 < inodeBlockCount)
    (h : Waiting sessions exchanges s)
    (htrace : Trace Exchange.Served Exchange.Allowed s failed t)
    (hfailed : ∀ exchange ∈ failed, exchange.1.Short ∧ exchange.2.code < 0) :
    view t = view s := by
  obtain ⟨-, free, honline⟩ := h.online hinodes
  obtain ⟨hmeans, -⟩ := honline.trace htrace
  refine @Trace.invariant _ _ _ _ _ _ _ (fun tree => tree = view s) hmeans rfl ?_
  rintro tree exchange after hmem rfl - ⟨_, _, _, -, -, -, -, hstep⟩
  exact hstep.failed (hfailed exchange hmem).1 (hfailed exchange hmem).2

omit [Config] in
/-- After the file has been read, nothing is made below it and nothing is cut that is not there. -/
theorem failed_unchanged_refused :
    letI := Config.ofBlocks 67 (by decide)
    ∃ s t, Waiting [writing] [(readByte, .data 1 [7])] s ∧
      Trace Exchange.Served Exchange.Allowed s refused t ∧ view t = view s := by
  let _ := Config.ofBlocks 67 (by decide)
  obtain ⟨s, t, hwaiting, htrace, -⟩ := exists_refused (by decide) (by decide) (by decide)
  refine ⟨s, t, hwaiting, htrace, failed_unchanged (by decide) hwaiting htrace ?_⟩
  intro exchange hmem
  rcases List.mem_cons.mp hmem with rfl | hmem
  · exact ⟨trivial, by decide⟩
  · rw [List.mem_singleton.mp hmem]
    exact ⟨trivial, by decide⟩

/-- What no request touches is the same after any sessions. -/
theorem untouched_kept {later : List Session} (hinodes : 0 < inodeBlockCount)
    (h : Lifetime sessions s)
    (htrace : Trace Session.Ran (fun s session => SafeSession s session.1) s later t)
    (hout : ∀ session ∈ later, ∀ request ∈ session.1, ¬request.touches names = true) :
    ∃ tree after, Mounts s tree ∧ Mounts t after ∧ after names = tree names := by
  obtain ⟨tree, -, hmounts⟩ := h.mounts hinodes
  obtain ⟨after, hafter, hsame⟩ := @Mounts.later _ s t tree (fun after => after names = tree names)
    later hmounts htrace rfl (by
      rintro session hsession request hrequest before reply after hbefore ⟨_, _, _, -, -, -, -, hstep⟩
      exact (hstep.untouched (hout session hsession request hrequest)).trans hbefore)
  exact ⟨tree, after, hmounts, hafter, hsame⟩

omit [Config] in
/-- The directory `/d` does not come into being with the file `/f`. -/
theorem untouched_kept_d :
    letI := Config.ofBlocks 67 (by decide)
    ∃ s replies t tree after, Lifetime [] s ∧ Session.Ran s ([makeFile], some replies) t ∧
      Mounts s tree ∧ Mounts t after ∧ after [[letterD]] = tree [[letterD]] := by
  let _ := Config.ofBlocks 67 (by decide)
  obtain ⟨s, replies, t, hlife, hsafe, hran⟩ := exists_firstSession (by decide) (by decide)
  obtain ⟨tree, after, hbefore, hafter, hsame⟩ := @untouched_kept _ s t [] [[letterD]]
    [([makeFile], some replies)] (by decide) hlife (.cons hsafe hran (.nil t)) (by
      intro session hsession request hrequest
      rw [List.mem_singleton.mp hsession] at hrequest
      rw [List.mem_singleton.mp hrequest]
      decide)
  exact ⟨s, replies, t, tree, after, hlife, hran, hbefore, hafter, hsame⟩

/--
A path stays as long as it is not itself removed, or moved with one of its
parents; so do its parents, whatever is asked of them.
-/
theorem unremoved_stays {later : List Session} (hinodes : 0 < inodeBlockCount)
    (h : Lifetime sessions s) (hmounts : Mounts s tree) (hsome : tree names ≠ none)
    (htrace : Trace Session.Ran (fun s session => SafeSession s session.1) s later t)
    (hout : ∀ session ∈ later, ∀ request ∈ session.1, ¬request.removes names = true) :
    ∃ after, Mounts t after ∧ ∀ front, front <+: names → after front ≠ none := by
  obtain ⟨after, hafter, hclosed, hstays⟩ := @Mounts.later _ s t tree
    (fun after => after.Closed ∧ after names ≠ none) later hmounts htrace
    ⟨h.closed hinodes hmounts, hsome⟩ (by
      rintro session hsession request hrequest before reply after ⟨hclosed, hbefore⟩
        ⟨_, _, _, -, -, -, -, hstep⟩
      exact ⟨hstep.closed hclosed,
        hstep.present hclosed (hout session hsession request hrequest) hbefore⟩)
  exact ⟨after, hafter, fun front hfront => hclosed.of_prefix hfront hstays⟩

omit [Config] in
/-- The file and the root stay in a session that reads the file and is refused to change it. -/
theorem unremoved_stays_refused :
    letI := Config.ofBlocks 67 (by decide)
    ∃ s replies t after, Lifetime [writing] s ∧
      Session.Ran s ([readByte, makeBelow, cutMissing], some replies) t ∧ Mounts t after ∧
      after [[letterF]] ≠ none ∧ after [] ≠ none := by
  let _ := Config.ofBlocks 67 (by decide)
  obtain ⟨s, tree, hlife, hmounts, hnode⟩ := exists_writtenFile (by decide) (by decide) (by decide)
  have hnone := hlife.missing_d (by decide) hmounts
  have hsafe : SafeSession s [readByte, makeBelow, cutMissing] :=
    hmounts.safe_idle (by decide) (by
      simpa using ⟨readByte_idle hnode, makeBelow_idle hnode, cutMissing_idle hnone⟩)
  obtain ⟨replies, t, hran⟩ := hlife.next (by decide) hsafe
  obtain ⟨after, hafter, hstays⟩ := @unremoved_stays _ s t tree [writing] [[letterF]]
    [([readByte, makeBelow, cutMissing], some replies)] (by decide) hlife hmounts
    (by rw [hnode]; exact Option.some_ne_none _) (.cons hsafe hran (.nil t)) (by
      intro session hsession request hrequest
      rw [List.mem_singleton.mp hsession] at hrequest
      change request ∈ [readByte, makeBelow, cutMissing] at hrequest
      revert request
      decide)
  exact ⟨s, replies, t, after, hlife, hran, hafter, hstays _ List.prefix_rfl,
    hstays [] List.nil_prefix⟩

end

end AltFs
