import AltFs.Lib.Runs
import AltFs.Relocation
import AltFs.Truncation

/-!
# Serving requests

Every request that the kernel may send is answered as the tree of names and
contents says, and the next one finds the file system in order.
-/

namespace AltFs

open Prog

/-- What a reply says about a tree, and the tree afterwards. -/
inductive Request.Means (roomForName roomForRecord : List CString → Prop) (tree : FileTree) :
    Request → Reply → FileTree → Prop
  | access {names : List CString} (hnames : ∀ name ∈ names, IsComponent name) :
      Means roomForName roomForRecord tree (.access (pathOf names))
        (.status (asInt (tree.access names))) tree
  | chown (path : CString) : Means roomForName roomForRecord tree (.chown path) (.status 0) tree
  | chmod {names : List CString} (hnames : ∀ name ∈ names, IsComponent name) (mode : UInt32) :
      Means roomForName roomForRecord tree (.chmod (pathOf names) mode)
        (.status (asInt (tree.chmod names mode).1)) (tree.chmod names mode).2
  | create {names : List CString} (hnames : ∀ name ∈ names, IsComponent name) {mode : UInt32}
      {flags : Int64} {done : Bool} {after : FileTree}
      (h : tree.Creates (roomForName names) names
        (sIfreg ||| if hasFlag flags oCreat then mode else 0x1FD) done after) :
      Means roomForName roomForRecord tree (.create (pathOf names) mode flags) (statusOf done) after
  | getattr {names : List CString} (hnames : ∀ name ∈ names, IsComponent name) {st : Stat}
      (h : ∀ node, tree names = some node → node.HasAttr st) :
      Means roomForName roomForRecord tree (.getattr (pathOf names))
        (.attr (asInt (tree.access names)) st) tree
  | openFile {names : List CString} (hnames : ∀ name ∈ names, IsComponent name) (flags : Int64) :
      Means roomForName roomForRecord tree (.openFile (pathOf names) flags)
        (.status (asInt (tree.openFile names flags))) tree
  | read {names : List CString} (hnames : ∀ name ∈ names, IsComponent name) (size : Nat)
      (offset : Int64) :
      Means roomForName roomForRecord tree (.read (pathOf names) size offset)
        (.data (asInt (tree.read names size offset.toInt).1)
          (tree.read names size offset.toInt).2) tree
  | readdir {names : List CString} (hnames : ∀ name ∈ names, IsComponent name) {code : Int}
      {items : List DirItem} (h : tree.Lists names code items) :
      Means roomForName roomForRecord tree (.readdir (pathOf names)) (.entries (asInt code) items)
        tree
  | rmdir {names : List CString} (hnames : ∀ name ∈ names, IsComponent name) {code : Int}
      {after : FileTree} (h : tree.Removes names code after) :
      Means roomForName roomForRecord tree (.rmdir (pathOf names)) (.status (asInt code)) after
  | mkdir {names : List CString} (hnames : ∀ name ∈ names, IsComponent name) {mode : UInt32}
      {done : Bool} {after : FileTree}
      (h : tree.Creates (roomForName names) names (sIfdir ||| mode) done after) :
      Means roomForName roomForRecord tree (.mkdir (pathOf names) mode) (statusOf done) after
  | mknod {names : List CString} (hnames : ∀ name ∈ names, IsComponent name) {mode : UInt32}
      {done : Bool} {after : FileTree} (h : tree.Creates (roomForName names) names mode done after) :
      Means roomForName roomForRecord tree (.mknod (pathOf names) mode) (statusOf done) after
  | utimens (path : CString) : Means roomForName roomForRecord tree (.utimens path) (.status 0) tree
  | truncate {names : List CString} (hnames : ∀ name ∈ names, IsComponent name) (length : Int64) :
      Means roomForName roomForRecord tree (.truncate (pathOf names) length)
        (.status (asInt (tree.truncate names length.toInt).1)) (tree.truncate names length.toInt).2
  | unlink {names : List CString} (hnames : ∀ name ∈ names, IsComponent name) {code : Int}
      {after : FileTree} (h : tree.Removes names code after) :
      Means roomForName roomForRecord tree (.unlink (pathOf names)) (.status (asInt code)) after
  | write {names : List CString} (hnames : ∀ name ∈ names, IsComponent name) (buff : List UInt8)
      (offset : Int64) :
      Means roomForName roomForRecord tree (.write (pathOf names) buff offset)
        (.status (asInt (tree.write names buff offset.toInt).1))
        (tree.write names buff offset.toInt).2
  | rename {source target : List CString} (hsource : ∀ name ∈ source, IsComponent name)
      (htarget : ∀ name ∈ target, IsComponent name) (hbelow : ¬source <+: target) {code : Int}
      {after : FileTree} (h : tree.Renames (roomForRecord target) source target code after) :
      Means roomForName roomForRecord tree (.rename (pathOf source) (pathOf target))
        (.status (asInt code)) after

variable [Config]

/-- The paths of a request are normal. -/
def Request.PathsIn (P : CString → Prop) : Request → Prop
  | access path | chown path | chmod path _ | create path _ _ | getattr path | openFile path _
  | read path _ _ | readdir path | rmdir path | mkdir path _ | mknod path _ | utimens path
  | truncate path _ | unlink path | write path _ _ => P path
  | rename fromPath toPath => P fromPath ∧ P toPath

/--
What is asked of a request, on a file system with the free blocks `free`.  The
kernel hands on normal paths, creates no directory by `mknod`, opens no new
file by `open`, reads, writes and truncates regular files only, keeps the type
of a file and moves no directory below itself; a file is emptied by `truncate`
and not by `open`, which would store its old inode again.  That no block gets
lost and that the cache can forget a path is a condition on the state.
-/
inductive Request.Allowed (s : FileSystem) (free : Multiset Int64) : Request → Prop
  | access {names : List CString} (hnames : ∀ name ∈ names, IsComponent name) :
      Allowed s free (.access (pathOf names))
  | chown {names : List CString} (hnames : ∀ name ∈ names, IsComponent name) :
      Allowed s free (.chown (pathOf names))
  | chmod {names : List CString} {mode : UInt32} (hnames : ∀ name ∈ names, IsComponent name)
      (hkind : ∀ node, view s names = some node → mode &&& 0xF000 = node.mode &&& 0xF000) :
      Allowed s free (.chmod (pathOf names) mode)
  | create {names : List CString} {mode : UInt32} {flags : Int64}
      (hnames : ∀ name ∈ names, IsComponent name) (hkeeps : NoBlockLost s free names) :
      Allowed s free (.create (pathOf names) mode flags)
  | getattr {names : List CString} (hnames : ∀ name ∈ names, IsComponent name) :
      Allowed s free (.getattr (pathOf names))
  | openFile {names : List CString} {flags : Int64} (hnames : ∀ name ∈ names, IsComponent name)
      (hcreat : hasFlag flags oCreat = false) (htrunc : hasFlag flags oTrunc = false) :
      Allowed s free (.openFile (pathOf names) flags)
  | read {names : List CString} {size : Nat} {offset : Int64}
      (hnames : ∀ name ∈ names, IsComponent name)
      (hregular : ∀ node, view s names = some node → node.isRegular = true) :
      Allowed s free (.read (pathOf names) size offset)
  | readdir {names : List CString} (hnames : ∀ name ∈ names, IsComponent name) :
      Allowed s free (.readdir (pathOf names))
  | rmdir {names : List CString} (hnames : ∀ name ∈ names, IsComponent name)
      (hfree : FreesBlocks s free names) (hforgets : ForgetsPath s (pathOf names)) :
      Allowed s free (.rmdir (pathOf names))
  | mkdir {names : List CString} {mode : UInt32} (hnames : ∀ name ∈ names, IsComponent name)
      (hkeeps : NoBlockLost s free names) (hstrands : ¬MkdirStrands s free (pathOf names) mode) :
      Allowed s free (.mkdir (pathOf names) mode)
  | mknod {names : List CString} {mode : UInt32} (hnames : ∀ name ∈ names, IsComponent name)
      (hmode : mode &&& 0xF000 ≠ sIfdir) (hkeeps : NoBlockLost s free names) :
      Allowed s free (.mknod (pathOf names) mode)
  | utimens {names : List CString} (hnames : ∀ name ∈ names, IsComponent name) :
      Allowed s free (.utimens (pathOf names))
  | truncate {names : List CString} {length : Int64} (hnames : ∀ name ∈ names, IsComponent name)
      (hregular : ∀ node, view s names = some node → node.isRegular = true)
      (hsize : CanResize s free names length.toInt.toNat) :
      Allowed s free (.truncate (pathOf names) length)
  | unlink {names : List CString} (hnames : ∀ name ∈ names, IsComponent name)
      (hfree : FreesBlocks s free names) (hforgets : ForgetsPath s (pathOf names)) :
      Allowed s free (.unlink (pathOf names))
  | write {names : List CString} {buff : List UInt8} {offset : Int64}
      (hnames : ∀ name ∈ names, IsComponent name)
      (hregular : ∀ node, view s names = some node → node.isRegular = true)
      (hroom : RoomForBytes s free names offset.toInt.toNat buff.length) :
      Allowed s free (.write (pathOf names) buff offset)
  | rename {source target : List CString} (hsource : ∀ name ∈ source, IsComponent name)
      (htarget : ∀ name ∈ target, IsComponent name) (hbelow : ¬source <+: target)
      (hfree : FreesBlocks s free target)
      (hkeeps : view s target = none → NoBlockLost s free target) :
      Allowed s free (.rename (pathOf source) (pathOf target))

section Serve

variable {s t : FileSystem} {free : Multiset Int64} {request : Request} {reply : Reply}

theorem Request.Allowed.normal (h : request.Allowed s free) : request.PathsIn Normal := by
  cases h with
  | rename hsource htarget => exact ⟨normal_pathOf hsource, normal_pathOf htarget⟩
  | _ => exact normal_pathOf ‹_›

omit [Config] in
/-- What `my_create` makes is no directory. -/
theorem createMode_ne {mode : UInt32} : (sIfreg ||| mode) &&& 0xF000 ≠ sIfdir := by
  intro heq
  have hbit := congrArg (fun value : UInt32 => value.toBitVec.getLsbD 15) heq
  simp [sIfreg, sIfdir] at hbit

/-- Only normal paths get into the cache. -/
theorem serve_keysKept (hpaths : request.PathsIn Normal) (hrun : request.serve s = some (reply, t))
    (hkeys : KeysIn Normal s) : KeysIn Normal t := by
  have hkept := operations_keysKept Normal.parent
  suffices hwithin : Within (KeysKept Normal) request.serve from hwithin _ _ _ hrun hkeys
  cases request with
  | access path => exact .bind (hkept.altfsAccess_within hpaths) fun _ => .pure _
  | chown path => exact .pure _
  | chmod path mode => exact .bind (hkept.altfsChmod_within hpaths mode) fun _ => .pure _
  | create path mode flags => exact .bind (hkept.altfsMknod_within hpaths _) fun _ => .pure _
  | getattr path => exact .bind (hkept.altfsGetattr_within hpaths) fun _ => .pure _
  | openFile path flags => exact .bind (hkept.altfsOpen_within hpaths flags) fun _ => .pure _
  | read path size offset => exact .bind (hkept.altfsRead_within hpaths size offset) fun _ => .pure _
  | readdir path => exact .bind (hkept.altfsReaddir_within hpaths) fun _ => .pure _
  | rmdir path => exact .bind (hkept.altfsUnlink_within hpaths) fun _ => .pure _
  | mkdir path mode => exact .bind (hkept.altfsMkdir_within hpaths mode) fun _ => .pure _
  | mknod path mode => exact .bind (hkept.altfsMknod_within hpaths mode) fun _ => .pure _
  | utimens path => exact .pure _
  | truncate path offset => exact .bind (hkept.altfsTruncate_within hpaths offset) fun _ => .pure _
  | unlink path => exact .bind (hkept.altfsUnlink_within hpaths) fun _ => .pure _
  | write path buff offset =>
      exact .bind (hkept.altfsWrite_within hpaths buff offset) fun _ => .pure _
  | rename fromPath toPath =>
      exact .bind (hkept.altfsRename_within hpaths.1 hpaths.2) fun _ => .pure _

omit [Config] in
private theorem reply_of {α : Type} {x : Fs α} {f : α → Reply}
    (hrun : (do pure (f (← x))) s = some (reply, t)) : ∃ a, x s = some (a, t) ∧ reply = f a := by
  obtain ⟨a, u, hx, hrest⟩ := bind_eq_some_iff.mp hrun
  cases hrest
  exact ⟨a, hx, rfl⟩

theorem serve_means (h : Serving s free) (hallowed : request.Allowed s free)
    (hrun : request.serve s = some (reply, t)) :
    request.Means (RoomForName s free) (RoomForRecord s free) (view s) reply (view t) ∧
      Served s free t := by
  have hidle : Served s free s := (refl_of SameButCache s).served h.toWholeTree h.coherent
  cases hallowed with
  | access hnames =>
      obtain ⟨code, hcall, rfl⟩ := reply_of hrun
      obtain ⟨rfl, hview, hserved⟩ := altfsAccess_served h.toWholeTree h.coherent hnames hcall
      rw [hview]
      exact ⟨.access hnames, hserved⟩
  | chown hnames =>
      cases hrun
      exact ⟨.chown _, hidle⟩
  | @chmod names mode hnames hkind =>
      obtain ⟨code, hcall, rfl⟩ := reply_of hrun
      obtain ⟨hresult, hserved⟩ := altfsChmod_served h.toWholeTree h.coherent hnames hkind hcall
      obtain ⟨hcode, hview⟩ := Prod.mk.inj hresult
      rw [hcode, hview]
      exact ⟨.chmod hnames mode, hserved⟩
  | create hnames hkeeps =>
      obtain ⟨done, hcall, rfl⟩ := reply_of hrun
      obtain ⟨hcreates, hserved⟩ :=
        altfsMknod_wholeTree h.toWholeTree hnames h.coherent createMode_ne hkeeps hcall
      exact ⟨.create hnames hcreates, hserved⟩
  | getattr hnames =>
      obtain ⟨⟨code, st⟩, hcall, rfl⟩ := reply_of hrun
      obtain ⟨rfl, hattr, hview, hserved⟩ :=
        altfsGetattr_served h.toWholeTree h.coherent hnames hcall
      rw [hview]
      exact ⟨.getattr hnames hattr, hserved⟩
  | openFile hnames hcreat htrunc =>
      obtain ⟨inum, hcall, rfl⟩ := reply_of hrun
      obtain ⟨hcode, hview, hserved⟩ :=
        altfsOpen_served h.toWholeTree h.coherent hnames hcreat htrunc hcall
      have hreply : (if inum ≤ -1 then asInt inum else 0) = asInt (if inum ≤ -1 then inum else 0) := by
        split
        · rfl
        · rfl
      rw [hview, hreply, hcode]
      exact ⟨.openFile hnames _, hserved⟩
  | read hnames hregular =>
      obtain ⟨⟨code, data⟩, hcall, rfl⟩ := reply_of hrun
      obtain ⟨hresult, hview, hserved⟩ :=
        altfsRead_served h.toWholeTree h.coherent hnames hregular hcall
      obtain ⟨rfl, rfl⟩ := Prod.mk.inj hresult
      rw [hview]
      exact ⟨.read hnames _ _, hserved⟩
  | readdir hnames =>
      obtain ⟨⟨code, items⟩, hcall, rfl⟩ := reply_of hrun
      obtain ⟨hlists, hview, hserved⟩ :=
        altfsReaddir_served h.toWholeTree h.coherent hnames hcall
      rw [hview]
      exact ⟨.readdir hnames hlists, hserved⟩
  | rmdir hnames hfree hforgets =>
      obtain ⟨code, hcall, rfl⟩ := reply_of hrun
      obtain ⟨hremoves, free', hserving, hconserved⟩ :=
        altfsUnlink_serving h hnames hfree hforgets hcall
      exact ⟨.rmdir hnames hremoves, hserving.coherent, free', hserving.toWholeTree, hconserved⟩
  | mkdir hnames hkeeps hstrands =>
      obtain ⟨done, hcall, rfl⟩ := reply_of hrun
      obtain ⟨hcreates, hserved⟩ :=
        altfsMkdir_wholeTree h.toWholeTree hnames h.coherent hkeeps hstrands hcall
      exact ⟨.mkdir hnames hcreates, hserved⟩
  | mknod hnames hmode hkeeps =>
      obtain ⟨done, hcall, rfl⟩ := reply_of hrun
      obtain ⟨hcreates, hserved⟩ :=
        altfsMknod_wholeTree h.toWholeTree hnames h.coherent hmode hkeeps hcall
      exact ⟨.mknod hnames hcreates, hserved⟩
  | utimens hnames =>
      cases hrun
      exact ⟨.utimens _, hidle⟩
  | truncate hnames hregular hsize =>
      obtain ⟨code, hcall, rfl⟩ := reply_of hrun
      obtain ⟨hresult, hserved⟩ :=
        altfsTruncate_served h.toWholeTree h.coherent hnames hregular hsize hcall
      obtain ⟨hcode, hview⟩ := Prod.mk.inj hresult
      rw [hcode, hview]
      exact ⟨.truncate hnames _, hserved⟩
  | unlink hnames hfree hforgets =>
      obtain ⟨code, hcall, rfl⟩ := reply_of hrun
      obtain ⟨hremoves, free', hserving, hconserved⟩ :=
        altfsUnlink_serving h hnames hfree hforgets hcall
      exact ⟨.unlink hnames hremoves, hserving.coherent, free', hserving.toWholeTree, hconserved⟩
  | write hnames hregular hroom =>
      obtain ⟨code, hcall, rfl⟩ := reply_of hrun
      obtain ⟨hresult, hserved⟩ :=
        altfsWrite_served h.toWholeTree h.coherent hnames hregular hroom hcall
      obtain ⟨hcode, hview⟩ := Prod.mk.inj hresult
      rw [hcode, hview]
      exact ⟨.write hnames _ _, hserved⟩
  | rename hsource htarget hbelow hfree hkeeps =>
      obtain ⟨code, hcall, rfl⟩ := reply_of hrun
      obtain ⟨hrenames, hserved⟩ := altfsRename_wholeTree h.toWholeTree h.coherent hsource htarget
        hbelow hfree hkeeps hcall
      exact ⟨.rename hsource htarget hbelow hrenames, hserved⟩

end Serve

end AltFs
