import AltFs.Requests

/-!
# What a request changes

A request changes the tree at the paths it touches and nowhere else, and not at
all when it fails.  A path goes away only when it is removed or moved.
-/

namespace AltFs

open PathTree

/-- The return code of a reply. -/
def Reply.code : Reply → Int
  | status code | attr code _ | data code _ | entries code _ => code

/-- The request may change what is under the path: a rename also what is below its two paths. -/
def Request.touches (names : List CString) : Request → Bool
  | access _ | chown _ | getattr _ | openFile _ _ | read _ _ _ | readdir _ | utimens _ => false
  | chmod path _ | create path _ _ | mkdir path _ | mknod path _ | truncate path _ | write path _ _
  | rmdir path | unlink path => path = pathOf names
  | rename fromPath toPath =>
      names.inits.any fun front => fromPath = pathOf front || toPath = pathOf front

/-- The request may take the path out of the tree. -/
def Request.removes (names : List CString) : Request → Bool
  | rmdir path | unlink path => path = pathOf names
  | rename fromPath _ => names.inits.any fun front => fromPath = pathOf front
  | _ => false

/-- The number of bytes fits the return value of `my_write`. -/
def Request.Short : Request → Prop
  | write _ buff _ => buff.length < 2 ^ 31
  | _ => True

namespace Request

variable {names path : List CString} {source target : CString} {request : Request} {reply : Reply}
  {roomForName roomForRecord : List CString → Prop} {tree after : FileTree}

private theorem ne_of_touches (h : ¬decide (pathOf path = pathOf names) = true) : names ≠ path := by
  rintro rfl
  exact h (decide_eq_true rfl)

private theorem touches_source (h : ¬(rename (pathOf path) target).touches names = true) :
    ¬path <+: names := by
  intro habove
  apply h
  simp only [touches, List.any_eq_true, List.mem_inits]
  exact ⟨path, habove, by simp⟩

private theorem touches_target (h : ¬(rename source (pathOf path)).touches names = true) :
    ¬path <+: names := by
  intro habove
  apply h
  simp only [touches, List.any_eq_true, List.mem_inits]
  exact ⟨path, habove, by simp⟩

private theorem removes_source (h : ¬(rename (pathOf path) target).removes names = true) :
    ¬path <+: names := by
  intro habove
  apply h
  simp only [removes, List.any_eq_true, List.mem_inits]
  exact ⟨path, habove, by simp⟩

end Request

theorem asInt_of_lt {length : Nat} (h : length < 2 ^ 31) : asInt length = length := by
  rw [asInt, Int.bmod_eq_of_le]
  · omega
  · omega

section Tree

variable {tree after : FileTree} {names path source target : List CString} {mode : UInt32}
  {done : Bool} {room : Prop} {code : Int}

namespace FileTree

theorem Creates.other (h : tree.Creates room path mode done after) (hne : names ≠ path) :
    after names = tree names := by
  cases h with
  | done hmay hroom => exact Function.update_of_ne hne _ _
  | refused hnot => rfl

/-- What can be removed is in the tree, with nothing below it. -/
theorem Removes.isLeaf (h : tree.Removes path 0 after) :
    tree path ≠ none ∧ ¬tree.HasChild path := by
  generalize hcode : (0 : Int) = code at h
  cases h with
  | missing | root | notEmpty => exact absurd hcode (by decide)
  | done hne hsome hleaf => exact ⟨hsome, hleaf⟩

theorem Removes.other (h : tree.Removes path code after) (hne : names ≠ path) :
    after names = tree names := by
  cases h with
  | missing hnone => rfl
  | root hroot => rfl
  | notEmpty hpath hchild => rfl
  | done hpath hsome hleaf => exact Function.update_of_ne hne _ _

theorem write_of_none (hnone : tree path = none) (hbuff : buff ≠ []) (hoffset : 0 ≤ offset) :
    tree.write path buff offset = (-enoent, tree) := by
  rw [write, if_neg hbuff, if_neg (not_lt.mpr hoffset), hnone]

theorem write_of_some (hnode : tree path = some node) (hbuff : buff ≠ []) (hoffset : 0 ≤ offset) :
    tree.write path buff offset = ((buff.length : Int),
      tree.put path { node with content := AltFs.put 0 node.content offset.toNat buff }) := by
  rw [write, if_neg hbuff, if_neg (not_lt.mpr hoffset), hnode]

theorem truncate_of_some (hnode : tree path = some node) (hwrite : node.canWrite = true)
    (hlength : 0 ≤ length) : tree.truncate path length = ((0 : Int),
      tree.put path { node with content := resize node.content length.toNat }) := by
  rw [truncate, hnode]
  simp only [hwrite, Bool.not_true, Bool.false_eq_true, if_false, if_neg (not_lt.mpr hlength)]

theorem chmod_cases (tree : FileTree) (path : List CString) (mode : UInt32) :
    (tree.chmod path mode).2 = tree ∨ (tree.chmod path mode).1 = (0 : Nat) := by
  unfold chmod
  split
  · exact .inl rfl
  · exact .inr rfl

theorem write_cases (tree : FileTree) (path : List CString) (buff : List UInt8) (offset : Int) :
    (tree.write path buff offset).2 = tree ∨ (tree.write path buff offset).1 = buff.length := by
  unfold write
  split
  · exact .inl rfl
  split
  · exact .inl rfl
  split
  · exact .inl rfl
  · exact .inr rfl

theorem truncate_cases (tree : FileTree) (path : List CString) (length : Int) :
    (tree.truncate path length).2 = tree ∨ (tree.truncate path length).1 = (0 : Nat) := by
  unfold truncate
  split
  · exact .inl rfl
  split
  · exact .inl rfl
  split
  · exact .inl rfl
  · exact .inr rfl

theorem Removes.cases (h : tree.Removes path code after) : after = tree ∨ code = (0 : Nat) := by
  cases h with
  | missing | root | notEmpty => exact .inl rfl
  | done => exact .inr rfl

theorem Renames.cases (h : tree.Renames room source target code after) :
    after = tree ∨ code = (0 : Nat) := by
  cases h with
  | missing | refused | noParent | noRoom => exact .inl rfl
  | moved | replaced => exact .inr rfl

/-- The tree with the same paths, and others perhaps. -/
private theorem put_present {node : Node} (hsome : tree names ≠ none) :
    tree.put path node names ≠ none := by
  rw [PathTree.put, Function.update_apply]
  split
  · exact Option.some_ne_none node
  · exact hsome

private theorem put_closed {node node' : Node} (hclosed : tree.Closed)
    (hnode : tree path = some node) : (tree.put path node').Closed := by
  apply hclosed.put
  rintro front name rfl
  apply hclosed front name
  rw [hnode]
  exact Option.some_ne_none node

/-- Changing the node at a path. -/
inductive Restamps (tree : FileTree) (path : List CString) : FileTree → Prop
  | same : Restamps tree path tree
  | put {node : Node} (hnode : tree path = some node) (node' : Node) :
      Restamps tree path (tree.put path node')

namespace Restamps

variable (h : tree.Restamps path after)

include h

theorem other (hne : names ≠ path) : after names = tree names := by
  cases h with
  | same => rfl
  | put => exact Function.update_of_ne hne _ _

theorem closed (hclosed : tree.Closed) : after.Closed := by
  cases h with
  | same => exact hclosed
  | put hnode => exact put_closed hclosed hnode

theorem present (hsome : tree names ≠ none) : after names ≠ none := by
  cases h with
  | same => exact hsome
  | put => exact put_present hsome

end Restamps

theorem chmod_restamps (tree : FileTree) (path : List CString) (mode : UInt32) :
    tree.Restamps path (tree.chmod path mode).2 := by
  unfold chmod
  split
  · exact .same
  next hnode => exact .put hnode _

theorem write_restamps (tree : FileTree) (path : List CString) (buff : List UInt8)
    (offset : Int) : tree.Restamps path (tree.write path buff offset).2 := by
  unfold write
  split
  · exact .same
  split
  · exact .same
  split
  · exact .same
  next hnode => exact .put hnode _

theorem truncate_restamps (tree : FileTree) (path : List CString) (length : Int) :
    tree.Restamps path (tree.truncate path length).2 := by
  unfold truncate
  split
  · exact .same
  next hnode =>
  split
  · exact .same
  split
  · exact .same
  · exact .put hnode _

theorem Creates.closed (h : tree.Creates room path mode done after) (hclosed : tree.Closed) :
    after.Closed := by
  cases h with
  | done hmay hroom =>
      obtain ⟨-, front, name, node, rfl, hnode, -⟩ := hmay
      apply hclosed.put
      intro front' name' heq
      obtain ⟨rfl, -⟩ := List.append_inj' heq rfl
      rw [hnode]
      exact Option.some_ne_none node
  | refused hnot => exact hclosed

theorem Creates.present (h : tree.Creates room path mode done after) (hsome : tree names ≠ none) :
    after names ≠ none := by
  cases h with
  | done hmay hroom => exact put_present hsome
  | refused hnot => exact hsome

theorem Removes.closed (h : tree.Removes path code after) (hclosed : tree.Closed) :
    after.Closed := by
  cases h with
  | missing | root | notEmpty => exact hclosed
  | done hne hsome hleaf => exact hclosed.erase hleaf

theorem Renames.closed (h : tree.Renames room source target code after)
    (hbelow : ¬source <+: target) (hclosed : tree.Closed) : after.Closed := by
  cases h with
  | missing | refused | noParent | noRoom => exact hclosed
  | moved hsome htarget hparent hroom =>
      obtain ⟨front, name, node, rfl, hnode, -⟩ := hparent
      apply hclosed.move hbelow
      intro front' name' heq
      obtain ⟨rfl, -⟩ := List.append_inj' heq rfl
      rw [hnode]
      exact Option.some_ne_none node
  | replaced hsome htarget =>
      apply hclosed.move hbelow
      rintro front name rfl
      exact hclosed front name htarget.isLeaf.1

/-- A rename puts something in the place of its target, which had nothing below it. -/
theorem Renames.present (h : tree.Renames room source target code after) (hclosed : tree.Closed)
    (hout : ¬source <+: names) (hsome : tree names ≠ none) : after names ≠ none := by
  have hmove (hsource : tree source ≠ none) (hleaf : ¬tree.HasChild target) :
      tree.move source target names ≠ none := by
    unfold PathTree.move
    split
    next hinside =>
      by_cases heq : target = names
      · rw [← heq, List.drop_length, List.append_nil]
        exact hsource
      · exact absurd (hclosed.hasChild hinside heq hsome) hleaf
    · exact hsome
  cases h with
  | missing | refused | noParent | noRoom => exact hsome
  | moved hsource htarget hparent hroom =>
      apply hmove hsource
      rintro ⟨name, hchild⟩
      exact hclosed target name hchild htarget
  | replaced hsource htarget => exact hmove hsource htarget.isLeaf.2

end FileTree

end Tree

section Means

variable {request : Request} {reply : Reply} {roomForName roomForRecord : List CString → Prop}
  {tree after : FileTree} {names : List CString}

/-- What a request does not touch stays as it is. -/
theorem Request.Means.untouched (h : request.Means roomForName roomForRecord tree reply after)
    (hout : ¬request.touches names = true) : after names = tree names := by
  cases h with
  | access | chown | getattr | openFile | read | readdir | utimens => rfl
  | chmod => exact (FileTree.chmod_restamps _ _ _).other (ne_of_touches hout)
  | create _ hcreates => exact hcreates.other (ne_of_touches hout)
  | rmdir _ hremoves => exact hremoves.other (ne_of_touches hout)
  | mkdir _ hcreates => exact hcreates.other (ne_of_touches hout)
  | mknod _ hcreates => exact hcreates.other (ne_of_touches hout)
  | truncate => exact (FileTree.truncate_restamps _ _ _).other (ne_of_touches hout)
  | unlink _ hremoves => exact hremoves.other (ne_of_touches hout)
  | write => exact (FileTree.write_restamps _ _ _ _).other (ne_of_touches hout)
  | rename hsource htarget hbelow hrenames =>
      have hmove : tree.move _ _ names = tree names :=
        (if_neg (touches_target hout)).trans (if_neg (touches_source hout))
      cases hrenames with
      | missing | refused | noParent | noRoom => rfl
      | moved | replaced => exact hmove

private theorem same_of_code {length : Nat} {result : Int}
    (hresult : after = tree ∨ result = length) (hlength : length < 2 ^ 31)
    (hfailed : (Reply.status (asInt result)).code < 0) : after = tree := by
  apply hresult.resolve_right
  rintro rfl
  rw [Reply.code, asInt_of_lt hlength] at hfailed
  omega

/-- A request that fails changes nothing. -/
theorem Request.Means.failed (h : request.Means roomForName roomForRecord tree reply after)
    (hshort : request.Short) (hfailed : reply.code < 0) : after = tree := by
  cases h with
  | access | chown | getattr | openFile | read | readdir | utimens => rfl
  | chmod => exact same_of_code (FileTree.chmod_cases _ _ _) (Nat.two_pow_pos 31) hfailed
  | create _ hcreates | mkdir _ hcreates | mknod _ hcreates =>
      cases hcreates with
      | done => exact absurd hfailed (by decide)
      | refused => rfl
  | rmdir _ hremoves | unlink _ hremoves =>
      exact same_of_code hremoves.cases (Nat.two_pow_pos 31) hfailed
  | truncate => exact same_of_code (FileTree.truncate_cases _ _ _) (Nat.two_pow_pos 31) hfailed
  | write => exact same_of_code (FileTree.write_cases _ _ _ _) hshort hfailed
  | rename hsource htarget hbelow hrenames =>
      exact same_of_code hrenames.cases (Nat.two_pow_pos 31) hfailed

/-- What is in the tree has its parents in the tree, before and after a request. -/
theorem Request.Means.closed (h : request.Means roomForName roomForRecord tree reply after)
    (hclosed : tree.Closed) : after.Closed := by
  cases h with
  | access | chown | getattr | openFile | read | readdir | utimens => exact hclosed
  | chmod => exact (FileTree.chmod_restamps _ _ _).closed hclosed
  | create _ hcreates | mkdir _ hcreates | mknod _ hcreates => exact hcreates.closed hclosed
  | rmdir _ hremoves | unlink _ hremoves => exact hremoves.closed hclosed
  | truncate => exact (FileTree.truncate_restamps _ _ _).closed hclosed
  | write => exact (FileTree.write_restamps _ _ _ _).closed hclosed
  | rename hsource htarget hbelow hrenames => exact hrenames.closed hbelow hclosed

theorem Request.Means.present (h : request.Means roomForName roomForRecord tree reply after)
    (hclosed : tree.Closed) (hout : ¬request.removes names = true) (hsome : tree names ≠ none) :
    after names ≠ none := by
  cases h with
  | access | chown | getattr | openFile | read | readdir | utimens => exact hsome
  | chmod => exact (FileTree.chmod_restamps _ _ _).present hsome
  | create _ hcreates | mkdir _ hcreates | mknod _ hcreates => exact hcreates.present hsome
  | rmdir _ hremoves | unlink _ hremoves =>
      rw [hremoves.other (ne_of_touches hout)]
      exact hsome
  | truncate => exact (FileTree.truncate_restamps _ _ _).present hsome
  | write => exact (FileTree.write_restamps _ _ _ _).present hsome
  | rename hsource htarget hbelow hrenames =>
      exact hrenames.present hclosed (removes_source hout) hsome

end Means

/-! ## Single requests -/

section Requests

variable {tree after : FileTree} {reply : Reply} {names : List CString} {buff : List UInt8}
  {offset length : Int64} {size : Nat} {roomForName roomForRecord : List CString → Prop}
  (hnames : ∀ name ∈ names, IsComponent name)

include hnames

theorem Request.Means.write_inv
    (h : (Request.write (pathOf names) buff offset).Means roomForName roomForRecord tree reply
      after) :
    reply = .status (asInt (tree.write names buff offset.toInt).1) ∧
      after = (tree.write names buff offset.toInt).2 := by
  generalize hrequest : Request.write (pathOf names) buff offset = request at h
  cases h with
  | write hother =>
      obtain ⟨hpath, rfl, rfl⟩ := Request.write.inj hrequest
      obtain rfl := pathOf_inj hnames hother hpath
      exact ⟨rfl, rfl⟩
  | _ => cases hrequest

theorem Request.Means.truncate_inv
    (h : (Request.truncate (pathOf names) length).Means roomForName roomForRecord tree reply
      after) :
    reply = .status (asInt (tree.truncate names length.toInt).1) ∧
      after = (tree.truncate names length.toInt).2 := by
  generalize hrequest : Request.truncate (pathOf names) length = request at h
  cases h with
  | truncate hother =>
      obtain ⟨hpath, rfl⟩ := Request.truncate.inj hrequest
      obtain rfl := pathOf_inj hnames hother hpath
      exact ⟨rfl, rfl⟩
  | _ => cases hrequest

theorem Request.Means.mkdir_inv {mode : UInt32}
    (h : (Request.mkdir (pathOf names) mode).Means roomForName roomForRecord tree reply after) :
    ∃ done, reply = statusOf done ∧
      tree.Creates (roomForName names) names (sIfdir ||| mode) done after := by
  generalize hrequest : Request.mkdir (pathOf names) mode = request at h
  cases h with
  | mkdir hother hcreates =>
      obtain ⟨hpath, rfl⟩ := Request.mkdir.inj hrequest
      obtain rfl := pathOf_inj hnames hother hpath
      exact ⟨_, rfl, hcreates⟩
  | _ => cases hrequest

theorem Request.Means.read_inv
    (h : (Request.read (pathOf names) size offset).Means roomForName roomForRecord tree reply
      after) :
    reply = .data (asInt (tree.read names size offset.toInt).1)
      (tree.read names size offset.toInt).2 ∧ after = tree := by
  generalize hrequest : Request.read (pathOf names) size offset = request at h
  cases h with
  | read hother =>
      obtain ⟨hpath, rfl, rfl⟩ := Request.read.inj hrequest
      obtain rfl := pathOf_inj hnames hother hpath
      exact ⟨rfl, rfl⟩
  | _ => cases hrequest

theorem Request.Means.getattr_inv
    (h : (Request.getattr (pathOf names)).Means roomForName roomForRecord tree reply after) :
    after = tree ∧ ∃ st, reply = .attr (asInt (tree.access names)) st ∧
      ∀ node, tree names = some node → node.HasAttr st := by
  generalize hrequest : Request.getattr (pathOf names) = request at h
  cases h with
  | getattr hother hattr =>
      obtain rfl := pathOf_inj hnames hother (Request.getattr.inj hrequest)
      exact ⟨rfl, _, rfl, hattr⟩
  | _ => cases hrequest

theorem Request.Means.readdir_inv
    (h : (Request.readdir (pathOf names)).Means roomForName roomForRecord tree reply after) :
    after = tree ∧ ∃ code items, reply = .entries (asInt code) items ∧
      tree.Lists names code items := by
  generalize hrequest : Request.readdir (pathOf names) = request at h
  cases h with
  | readdir hother hlists =>
      obtain rfl := pathOf_inj hnames hother (Request.readdir.inj hrequest)
      exact ⟨rfl, _, _, rfl, hlists⟩
  | _ => cases hrequest

end Requests

end AltFs
