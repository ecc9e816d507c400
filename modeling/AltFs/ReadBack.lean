import AltFs.Histories

/-!
# What is read back

A file that is written and cut piece by piece, with requests for other paths in
between and over any number of sessions, holds what its own requests made of it.
-/

namespace AltFs

open Prog NamedTree

/-! ## The requests of one file -/

/-- Writes of the pieces, each of which begins where the last one ended. -/
def storing (names : List CString) : Nat → List (List UInt8) → List Exchange
  | _, [] => []
  | offset, piece :: pieces =>
      (.write (pathOf names) piece (Int64.ofNat offset), .status piece.length) ::
        storing names (offset + piece.length) pieces

/-- The content after the pieces have been written. -/
def stored (content : List UInt8) : Nat → List (List UInt8) → List UInt8
  | _, [] => content
  | offset, piece :: pieces =>
      stored (put 0 content offset piece) (offset + piece.length) pieces

/-- Truncations, one after the other. -/
def cutting (names : List CString) (lengths : List Int64) : List Exchange :=
  lengths.map fun length => (.truncate (pathOf names) length, .status 0)

def resized (content : List UInt8) (lengths : List Int64) : List UInt8 :=
  lengths.foldl (fun content length => FileTree.resize content length.toInt.toNat) content

theorem stored_eq {content : List UInt8} {offset : Nat} {piece : List UInt8}
    {pieces : List (List UInt8)} (hpieces : ∀ other ∈ piece :: pieces, other ≠ []) :
    stored content offset (piece :: pieces) = put 0 content offset (piece :: pieces).flatten := by
  rw [stored]
  induction pieces generalizing content offset piece with
  | nil =>
      rw [stored, List.flatten_singleton]
  | cons next pieces ih =>
      have hpiece := hpieces piece List.mem_cons_self
      have hrest : ∀ other ∈ next :: pieces, other ≠ [] := fun other hother =>
        hpieces other (List.mem_cons_of_mem _ hother)
      have hnext : (next :: pieces).flatten ≠ [] := by
        rw [List.flatten_cons]
        exact List.append_ne_nil_of_left_ne_nil (hrest next List.mem_cons_self) _
      rw [stored, ih hrest, put_put hpiece hnext]
      rfl

theorem getD_resize (content : List UInt8) (length i : Nat) :
    (FileTree.resize content length).getD i 0 = if i < length then content.getD i 0 else 0 := by
  rw [FileTree.resize]
  split
  next hlow =>
    rw [List.getD_eq_getElem?_getD, List.getElem?_take_of_lt hlow, ← List.getD_eq_getElem?_getD]
    by_cases hin : i < content.length
    · rw [List.getD_append _ _ _ _ hin]
    · rw [List.getD_append_right _ _ _ _ (by omega), List.getD_eq_default content _ (by omega),
        List.getD_eq_getElem?_getD, List.getElem?_replicate]
      split
      · rfl
      · rfl
  next hhigh =>
    apply List.getD_eq_default
    rw [List.length_take]
    omega

theorem length_resize (content : List UInt8) (length : Nat) :
    (FileTree.resize content length).length = length := by
  rw [FileTree.resize, List.length_take, List.length_append, List.length_replicate]
  omega

/-- Only the bytes that were never cut off are left. -/
theorem getD_resized (content : List UInt8) (lengths : List Int64) (i : Nat) :
    (resized content lengths).getD i 0 =
      if lengths.all fun length => i < length.toInt.toNat then content.getD i 0 else 0 := by
  induction lengths generalizing content with
  | nil =>
      rw [List.all_nil, if_pos rfl]
      rfl
  | cons length lengths ih =>
      rw [resized, List.foldl_cons]
      refine (ih _).trans ?_
      rw [getD_resize]
      simp only [List.all_cons, Bool.and_eq_true, decide_eq_true_eq]
      by_cases hfirst : i < length.toInt.toNat
      · simp only [hfirst, true_and, if_true]
      · simp only [hfirst, false_and, if_false, ite_self]

section Tree

variable {tree : FileTree} {path : List CString} {node : Node} {buff : List UInt8}
  {offset length : Int}

namespace FileTree

/-- A truncation that succeeds resizes the file, if there is one. -/
theorem truncate_names (hcode : asInt (tree.truncate path length).1 = 0) :
    (tree.truncate path length).2 path =
      (tree path).map fun node => { node with content := resize node.content length.toNat } := by
  have hdenied : asInt (-eacces) ≠ 0 := by decide
  have hinvalid : asInt (-einval) ≠ 0 := by decide
  unfold truncate at hcode ⊢
  cases hnode : tree path with
  | none =>
      simp only [hnode]
      rfl
  | some node =>
      simp only [hnode] at hcode ⊢
      split at hcode
      next => exact absurd hcode hdenied
      next hwrite =>
      split at hcode
      next => exact absurd hcode hinvalid
      next hnonneg =>
        rw [if_neg hwrite, if_neg hnonneg]
        exact PathTree.put_same

theorem access_eq_zero_iff : asInt (tree.access path) = 0 ↔ (tree path).isSome = true := by
  rw [access]
  cases tree path with
  | none => exact ⟨fun hzero => absurd hzero (by decide), fun hsome => absurd hsome (by decide)⟩
  | some node => exact ⟨fun _ => rfl, fun _ => asInt_of_lt (Nat.two_pow_pos 31)⟩

/-- The names in a listing are those of the children. -/
theorem Listing.mem_iff {items : List DirItem} {name : CString} (h : tree.Listing path node items)
    (hname : IsComponent name) :
    (∃ listed, (nameBytes name, listed) ∈ items) ↔ (tree (path ++ [name])).isSome = true := by
  have hdots : ¬(name = [dot] ∨ name = [dot, dot]) := fun heither =>
    heither.elim hname.ne_dot hname.ne_dotDot
  have honce := h.once name
  constructor
  · rintro ⟨listed, hmem⟩
    by_contra hnone
    rw [if_neg (by tauto), List.countP_eq_zero] at honce
    exact honce _ hmem (decide_eq_true rfl)
  · intro hsome
    rw [if_pos (.inr (.inr hsome))] at honce
    obtain ⟨⟨bytes, listed⟩, hmem, hbytes⟩ :=
      List.countP_pos_iff.mp (by rw [honce]; exact Nat.one_pos)
    obtain rfl := of_decide_eq_true hbytes
    exact ⟨listed, hmem⟩

end FileTree

end Tree

section Traces

variable [Config]

variable {tree after : FileTree} {exchanges : List Exchange} {names : List CString}
  {pieces : List (List UInt8)} {offset : Nat} {lengths : List Int64}
  (htrace : Trace Exchange.Means (fun _ _ => True) tree exchanges after)
  (hnames : ∀ name ∈ names, IsComponent name)

include htrace hnames

omit hnames in
/-- Requests that do not touch the path can be left out. -/
theorem Trace.filtered {I : List Exchange → Option Node → Prop}
    (hstart : I (exchanges.filter fun exchange => exchange.1.touches names) (tree names))
    (hstep : ∀ tree exchange rest after, exchange.1.touches names = true →
      Exchange.Means tree exchange after → I (exchange :: rest) (tree names) →
      I rest (after names)) :
    I [] (after names) := by
  induction htrace with
  | nil tree => exact hstart
  | @cons tree middle after exchange exchanges _ hmeans _ ih =>
      apply ih
      by_cases htouch : exchange.1.touches names = true
      · rw [List.filter_cons, if_pos htouch] at hstart
        exact hstep tree exchange _ middle htouch hmeans hstart
      · rw [List.filter_cons, if_neg htouch] at hstart
        obtain ⟨_, _, _, -, -, -, -, hmeans⟩ := hmeans
        rw [hmeans.untouched htouch]
        exact hstart

omit [Config] htrace in
/-- A write whose reply is the length of its data has found the file. -/
theorem written_piece {roomForName roomForRecord : List CString → Prop} {piece : List UInt8}
    (h : (Request.write (pathOf names) piece (Int64.ofNat offset)).Means roomForName roomForRecord
      tree (.status piece.length) after)
    (hpiece : piece ≠ []) (hfits : offset < 2 ^ 63) :
    ∃ node, tree names = some node ∧
      after names = some { node with content := put 0 node.content offset piece } := by
  obtain ⟨hreply, rfl⟩ := h.write_inv hnames
  have hoffset : (Int64.ofNat offset).toInt = offset := Int64.toInt_ofNat_of_lt hfits
  have hnonneg : 0 ≤ (Int64.ofNat offset).toInt := by omega
  cases hnode : tree names with
  | none =>
      rw [FileTree.write_of_none hnode hpiece hnonneg] at hreply
      have hcode : (piece.length : Int) = -2 := Reply.status.inj hreply
      omega
  | some node =>
      refine ⟨node, rfl, ?_⟩
      rw [FileTree.write_of_some hnode hpiece hnonneg, hoffset]
      exact PathTree.put_same

/-- The pieces that are written to a file, whatever else is asked in between. -/
theorem written_pieces (hpieces : ∀ piece ∈ pieces, piece ≠ [])
    (hfits : offset + pieces.flatten.length < 2 ^ 63)
    (hfilter : (exchanges.filter fun exchange => exchange.1.touches names) =
      storing names offset pieces) :
    after names = (tree names).map (fun node =>
      { node with content := stored node.content offset pieces }) ∧
      (after names = none → pieces = []) := by
  have hlast := @Trace.filtered _ tree after exchanges names htrace
    (fun own value => ∃ offset' pieces', own = storing names offset' pieces' ∧
      (∀ piece ∈ pieces', piece ≠ []) ∧
      offset' + pieces'.flatten.length < 2 ^ 63 ∧
      value.map (fun node => { node with content := stored node.content offset' pieces' }) =
        (tree names).map (fun node => { node with content := stored node.content offset pieces }) ∧
      (value = none → pieces' = pieces))
    ⟨offset, pieces, hfilter, hpieces, hfits, rfl, fun _ => rfl⟩ (by
    rintro before ⟨request, reply⟩ rest middle - ⟨_, _, _, -, -, -, -, hmeans⟩
      ⟨offset', pieces', hown, hpieces', hfits', hvalue, hnone⟩
    cases pieces' with
    | nil => cases hown
    | cons piece pieces' =>
        obtain ⟨hexchange, rfl⟩ := List.cons.inj hown
        obtain ⟨rfl, rfl⟩ := Prod.mk.inj hexchange
        rw [List.flatten_cons, List.length_append] at hfits'
        obtain ⟨node, hnode, hmiddle⟩ :=
          written_piece hnames hmeans (hpieces' piece List.mem_cons_self) (by omega)
        rw [hnode] at hvalue
        rw [hmiddle]
        refine ⟨_, pieces', rfl, fun other hother => hpieces' other (List.mem_cons_of_mem _ hother),
          by omega, ?_, ?_⟩
        · rw [← hvalue]
          rfl
        · intro hcontra
          cases hcontra)
  obtain ⟨offset', pieces', hown, -, -, hvalue, hnone⟩ := hlast
  cases pieces' with
  | nil =>
      refine ⟨?_, fun hnever => (hnone hnever).symm⟩
      rw [← hvalue]
      cases after names with
      | none => rfl
      | some node => rfl
  | cons piece pieces' => cases hown

/-- The lengths to which a file is cut or grown, whatever else is asked in between. -/
theorem cut_lengths (hfilter : (exchanges.filter fun exchange => exchange.1.touches names) =
      cutting names lengths) :
    after names = (tree names).map (fun node =>
      { node with content := resized node.content lengths }) := by
  have hlast := @Trace.filtered _ tree after exchanges names htrace
    (fun own value => ∃ lengths', own = cutting names lengths' ∧
      value.map (fun node => { node with content := resized node.content lengths' }) =
        (tree names).map (fun node => { node with content := resized node.content lengths }))
    ⟨lengths, hfilter, rfl⟩ (by
    rintro before ⟨request, reply⟩ rest middle - ⟨_, _, _, -, -, -, -, hmeans⟩ ⟨lengths', hown, hvalue⟩
    cases lengths' with
    | nil => cases hown
    | cons length lengths' =>
        obtain ⟨hexchange, rfl⟩ := List.cons.inj hown
        obtain ⟨rfl, rfl⟩ := Prod.mk.inj hexchange
        obtain ⟨hreply, rfl⟩ := hmeans.truncate_inv hnames
        refine ⟨lengths', rfl, ?_⟩
        rw [← hvalue, FileTree.truncate_names (Reply.status.inj hreply).symm]
        cases before names with
        | none => rfl
        | some node => rfl)
  obtain ⟨lengths', hown, hvalue⟩ := hlast
  cases lengths' with
  | nil =>
      rw [← hvalue]
      cases after names with
      | none => rfl
      | some node => rfl
  | cons length lengths' => cases hown

end Traces

theorem readResult_inside {content : List UInt8} {size : Nat} {start : Int} (hsize : 0 < size)
    (hstart : 0 ≤ start) (hend : start + size ≤ content.length) :
    readResult content size start = ((size : Int), slice content start.toNat size) := by
  have hlength : (slice content start.toNat size).length = size := by
    rw [length_slice]
    omega
  have hinside : ¬(content ≠ [] ∧ content.length ≤ start) := by
    rintro ⟨-, hbeyond⟩
    omega
  rw [readResult, if_neg (by omega), if_neg (by omega), if_neg hinside, hlength, filledBuffer,
    hlength, Nat.sub_self, List.replicate_zero, List.append_nil]

/-! ## A file of one byte -/

section OneByte

variable [Config]

variable {s t : FileSystem} {free : Multiset Int64} {names : List CString} {node : Node}
  {length : Int64}

/-- Truncating within the only block of a file. -/
theorem truncate_safe (h : Online s free) (hnode : view s names = some node)
    (hregular : node.isRegular = true) (hnames : ∀ name ∈ names, IsComponent name)
    (hlow : 1 ≤ node.content.length) (hhigh : node.content.length ≤ blockSize)
    (hlow' : 1 ≤ length.toInt.toNat) (hhigh' : length.toInt.toNat ≤ blockSize) :
    (Request.truncate (pathOf names) length).Safe s := by
  refine ⟨fun free' hlist => ?_, trivial⟩
  rw [h.owned.freeList.unique hlist]
  apply Request.Allowed.truncate hnames
  · intro node' hnode'
    rw [hnode] at hnode'
    obtain rfl := Option.some.inj hnode'
    exact hregular
  · intro inum hfollow
    rw [view_eq_some hfollow] at hnode
    obtain rfl := Option.some.inj hnode
    have hfile := h.toWholeTree.isRegular hfollow
    rw [hregular] at hfile
    have hsize : (nodeOf s inum).content.length = (s.inodeAt (inumIndex inum)).fileSize := by
      rw [nodeOf, if_pos hfile, contentOf, bytesAt, List.length_map, List.length_range]
    rw [hsize] at hlow hhigh
    have hnum := ((h.served _ (h.rooted.valid hfollow).index_lt).file hfile).blocksNum
    have hone : ((s.inodeAt (inumIndex inum)).fileSize + blockSize - 1) / blockSize = 1 := by
      simp only [blockSize] at *
      omega
    rw [hone] at hnum
    refine ⟨fun hgrows => ⟨?_, ?_⟩, fun hcuts => ?_⟩
    · simp only [blockSize, maxBlocksNum] at *
      omega
    · rw [hnum, Nat.add_sub_cancel' hgrows.le]
      have hnone : (length.toInt.toNat - 1) / blockSize + 1 - (1 : Int).toNat = 0 := by
        simp only [blockSize] at *
        omega
      change appendCost 1 ((length.toInt.toNat - 1) / blockSize + 1 - (1 : Int).toNat) ≤ _
      rw [hnone, appendCost_zero]
      exact Nat.zero_le _
    · rw [hnum] at hcuts
      have hblocks := (blocksFor_spec hlow').1
      omega

end OneByte

/-! ## Over sessions -/

section Sessions

variable [Config]

variable {s t : FileSystem} {tree : FileTree} {sessions : List Session} {names : List CString}
  {front rest : List Exchange}

/--
What has been written to a file in pieces, each beginning where the last one
ended, is read back, in whatever window: other paths may be changed in between,
the device unmounted and mounted again, and the daemon may be killed.
-/
theorem pieces_read_back {written : List Exchange} {pieces : List (List UInt8)} {offset size : Nat}
    {start : Int64} {code : Int} {data : List UInt8} (hinodes : 0 < inodeBlockCount)
    (h : Lifetime sessions s)
    (hsplit : sessions.flatMap Session.exchanges =
      front ++ written ++ (.read (pathOf names) size start, .data code data) :: rest)
    (hnames : ∀ name ∈ names, IsComponent name)
    (hwritten : (written.filter fun exchange => exchange.1.touches names) =
      storing names offset pieces)
    (hpieces : ∀ piece ∈ pieces, piece ≠ [])
    (hfits : offset + pieces.flatten.length < 2 ^ 63) (hsize : 0 < size)
    (hlow : (offset : Int) ≤ start.toInt)
    (hhigh : start.toInt + size ≤ (offset + pieces.flatten.length : Nat)) :
    code = asInt size ∧ data = slice pieces.flatten (start.toInt.toNat - offset) size := by
  obtain ⟨last, hmeans, -⟩ := h.mounts hinodes
  rw [hsplit] at hmeans
  obtain ⟨after, hbefore, hread⟩ := hmeans.of_append
  obtain ⟨before, -, hwrites⟩ := hbefore.of_append
  obtain ⟨hafter, hnone⟩ := written_pieces hwrites hnames hpieces hfits hwritten
  cases hread with
  | cons _ hstep _ =>
      obtain ⟨_, _, _, -, -, -, -, hstep⟩ := hstep
      obtain ⟨hreply, -⟩ := hstep.read_inv hnames
      obtain ⟨rfl, rfl⟩ := Reply.data.inj hreply
      cases pieces with
      | nil =>
          rw [List.flatten_nil, List.length_nil] at hhigh
          omega
      | cons piece pieces =>
          cases hnode : before names with
          | none =>
              rw [hnode] at hafter
              cases hnone hafter
          | some node =>
              rw [hnode, Option.map_some, stored_eq hpieces] at hafter
              have hflat : (piece :: pieces).flatten ≠ [] := by
                intro hempty
                rw [hempty, List.length_nil] at hhigh
                omega
              rw [FileTree.read, hafter]
              change asInt (readResult _ size start.toInt).1 = _ ∧
                (readResult _ size start.toInt).2 = _
              rw [readResult_inside hsize (by omega) (by rw [length_put hflat]; omega)]
              exact ⟨rfl, slice_put (by omega) (by omega)⟩

omit [Config] in
/-- A byte is written in one session and read in the next one. -/
theorem pieces_read_back_f :
    letI := Config.ofBlocks 67 (by decide)
    ∃ s later code data, Lifetime [([makeFile, writeByte], some [.status 0, .status 1]), later] s ∧
      later.exchanges = [(readByte, .data code data)] ∧ code = asInt (1 : Nat) ∧ data = [7] := by
  let _ := Config.ofBlocks 67 (by decide)
  obtain ⟨s, tree, hlife, hmounts, hnode⟩ := exists_writtenFile (by decide) (by decide) (by decide)
  have hsafe : SafeSession s [readByte] :=
    hmounts.safe_idle (by decide) (by simpa using readByte_idle hnode)
  obtain ⟨replies, t, hran⟩ := hlife.next (by decide) hsafe
  obtain ⟨⟨replies', hreplies, hlength⟩, after, hmeans, -⟩ := hran.mounts hmounts hsafe
  obtain rfl := Option.some.inj hreplies
  obtain ⟨reply, rfl⟩ := List.length_eq_one_iff.mp hlength
  cases hmeans with
  | cons _ hstep _ =>
      obtain ⟨_, _, _, -, -, -, -, hstep⟩ := hstep
      obtain ⟨hreply, -⟩ := hstep.read_inv components_f
      have hlife' := hlife.then hran hsafe
      have hread := @pieces_read_back _ t _ [[letterF]] [(makeFile, .status 0)] []
        [(writeByte, .status 1)] [[7]] 0 1 0 _ _ (by decide) hlife'
        (by rw [← hreply]; rfl) components_f rfl (by decide) (by decide) (by decide) (by decide)
        (by decide)
      refine ⟨t, _, _, _, hlife', ?_, hread⟩
      change [(readByte, reply)] = _
      rw [← hreply]

/--
A file that is truncated to several lengths, with whatever else in between,
keeps the bytes that were never cut off; behind them there are zeros.
-/
theorem cuts_keep_front {later : List Session} {node : Node} {lengths : List Int64} {last : Int64}
    (hmounts : Mounts s tree)
    (hnode : tree names = some node) (hnames : ∀ name ∈ names, IsComponent name)
    (htrace : Trace Session.Ran (fun s session => SafeSession s session.1) s later t)
    (hcuts : ((later.flatMap Session.exchanges).filter fun exchange =>
      exchange.1.touches names) = cutting names (lengths ++ [last])) :
    ∃ after content, Mounts t after ∧ after names = some { node with content := content } ∧
      content.length = last.toInt.toNat ∧
      ∀ i, content.getD i 0 = if (lengths ++ [last]).all fun length => i < length.toInt.toNat then
        node.content.getD i 0 else 0 := by
  obtain ⟨-, after, hmeans, hafter⟩ := hmounts.runs htrace
  refine ⟨after, resized node.content (lengths ++ [last]), hafter, ?_, ?_, getD_resized _ _⟩
  · rw [cut_lengths hmeans hnames hcuts, hnode]
    rfl
  · rw [resized, List.foldl_append]
    exact length_resize _ _

omit [Config] in
/-- A file of one byte grows to two bytes and is cut to one. -/
theorem cuts_keep_front_f :
    letI := Config.ofBlocks 67 (by decide)
    ∃ s later t after content, Session.Ran s later t ∧ later.exchanges =
        cutting [[letterF]] [2, 1] ∧ Mounts t after ∧
      after [[letterF]] = some (fileNode content) ∧ content.length = 1 ∧ content.getD 0 0 = 7 := by
  let _ := Config.ofBlocks 67 (by decide)
  obtain ⟨s, tree, hlife, hmounts, hnode⟩ := exists_writtenFile (by decide) (by decide) (by decide)
  have hfirst := @FileTree.truncate_of_some tree [[letterF]] _ (2 : Int64).toInt hnode
    (by decide) (by decide)
  have hgrown : (tree.truncate [[letterF]] (2 : Int64).toInt).2 [[letterF]] =
      some (fileNode [7, 0]) := by
    rw [hfirst]
    change PathTree.put tree [[letterF]] (fileNode [7, 0]) [[letterF]] = _
    exact PathTree.put_same
  have hsecond := @FileTree.truncate_of_some _ [[letterF]] _ (1 : Int64).toInt hgrown
    (by decide) (by decide)
  have hsafe : SafeSession s
      [.truncate (pathOf [[letterF]]) 2, .truncate (pathOf [[letterF]]) 1] := by
    refine ⟨by decide, fun u v hdisk hinit => ?_⟩
    obtain ⟨⟨free, honline⟩, rfl, -⟩ := hmounts.started hdisk hinit
    have hsafe := truncate_safe honline hnode (by decide) components_f (by decide) (by decide)
      (show 1 ≤ (2 : Int64).toInt.toNat by decide) (by decide)
    refine .cons hsafe fun reply t hserve => .cons ?_ fun _ _ _ => .nil
    have hallowed : Exchange.Allowed v (.truncate (pathOf [[letterF]]) 2, reply) := hsafe.1
    obtain ⟨⟨_, _, _, -, -, -, -, hmeans⟩, free', honline'⟩ := honline.step hallowed hserve
    obtain ⟨-, hafter⟩ := hmeans.truncate_inv components_f
    rw [← hafter] at hgrown
    exact truncate_safe honline' hgrown (by decide) components_f (by decide) (by decide)
      (show 1 ≤ (1 : Int64).toInt.toNat by decide) (by decide)
  obtain ⟨replies, t, hran⟩ := hlife.next (by decide) hsafe
  obtain ⟨⟨replies', hreplies, hlength⟩, after, hmeans, -⟩ := hran.mounts hmounts hsafe
  obtain rfl := Option.some.inj hreplies
  obtain ⟨reply, reply', rfl⟩ := List.length_eq_two.mp hlength
  cases hmeans with
  | cons _ hstep hrest =>
      obtain ⟨_, _, _, -, -, -, -, hstep⟩ := hstep
      obtain ⟨hreply, rfl⟩ := hstep.truncate_inv components_f
      cases hrest with
      | cons _ hstep' _ =>
          obtain ⟨_, _, _, -, -, -, -, hstep'⟩ := hstep'
          obtain ⟨hreply', -⟩ := hstep'.truncate_inv components_f
          rw [hfirst] at hreply
          rw [hsecond] at hreply'
          obtain rfl : reply = .status 0 := hreply
          obtain rfl : reply' = .status 0 := hreply'
          obtain ⟨after, content, hafter, hcontent, hsize, hbytes⟩ :=
            @cuts_keep_front _ s t tree [[letterF]] [_] (fileNode [7]) [2] 1 hmounts hnode
              components_f (.cons hsafe hran (.nil t)) rfl
          refine ⟨s, _, t, after, content, hran, rfl, hafter, hcontent, hsize, ?_⟩
          have hkept : (([2] ++ [1] : List Int64).all fun length => 0 < length.toInt.toNat) = true :=
            by decide
          rw [hbytes 0, if_pos hkept]
          rfl

/-- A listing names just the paths that are there, with their modes. -/
theorem listing_agrees {middle : List Exchange} {items : List DirItem} {name : CString}
    {code : Int} {st : Stat} (hinodes : 0 < inodeBlockCount) (h : Lifetime sessions s)
    (hsplit : sessions.flatMap Session.exchanges =
      front ++ (.readdir (pathOf names), .entries 0 items) :: (middle ++
        (.getattr (pathOf (names ++ [name])), .attr code st) :: rest))
    (hnames : ∀ component ∈ names ++ [name], IsComponent component)
    (hout : ∀ exchange ∈ middle, ¬exchange.1.touches (names ++ [name]) = true) :
    (code = 0 ↔ ∃ listed, (nameBytes name, listed) ∈ items) ∧
      ∀ listed, (nameBytes name, listed) ∈ items → listed.stMode = st.stMode := by
  obtain ⟨last, hmeans, -⟩ := h.mounts hinodes
  rw [hsplit] at hmeans
  obtain ⟨before, -, hback⟩ := hmeans.of_append
  cases hback with
  | cons _ hlist hrest =>
      obtain ⟨_, _, _, -, -, -, -, hlist⟩ := hlist
      obtain ⟨hkept, code', items', hentries, hlists⟩ := hlist.readdir_inv
        fun component hmem => hnames component (List.mem_append_left _ hmem)
      rw [hkept] at hrest
      obtain ⟨hcode', rfl⟩ := Reply.entries.inj hentries
      obtain ⟨after, hmiddle, hattrs⟩ := hrest.of_append
      have hsame := Trace.untouched hmiddle hout
      cases hattrs with
      | cons _ hattr _ =>
          obtain ⟨_, _, _, -, -, -, -, hattr⟩ := hattr
          obtain ⟨-, st', hreply, hstat⟩ := hattr.getattr_inv hnames
          obtain ⟨rfl, rfl⟩ := Reply.attr.inj hreply
          rw [hsame] at hstat
          have hname := hnames name (List.mem_append_right _ List.mem_cons_self)
          cases hlists with
          | missing => exact absurd hcode' (by decide)
          | notDir => exact absurd hcode' (by decide)
          | listed hnode hdir hlisting =>
              have hmem_iff := hlisting.mem_iff hname
              rw [FileTree.access_eq_zero_iff, hsame]
              refine ⟨hmem_iff.symm, fun listed hmem => ?_⟩
              obtain ⟨child, hchild⟩ := Option.isSome_iff_exists.mp (hmem_iff.mp ⟨listed, hmem⟩)
              rw [(hlisting.child name child listed hchild hmem).1, (hstat child hchild).1]

omit [Config] in
/-- The root is listed, nothing is made below the file, and the file is looked at. -/
theorem listing_agrees_f :
    letI := Config.ofBlocks 67 (by decide)
    ∃ s session items st listed, Lifetime [writing, session] s ∧ session.exchanges =
        [(.readdir (pathOf []), .entries 0 items), (makeBelow, .status (-1)),
          (.getattr (pathOf [[letterF]]), .attr 0 st)] ∧
      (nameBytes [letterF], listed) ∈ items ∧ listed.stMode = st.stMode := by
  let _ := Config.ofBlocks 67 (by decide)
  obtain ⟨s, tree, hlife, hmounts, hnode⟩ := exists_writtenFile (by decide) (by decide) (by decide)
  have hroot : tree [] = some ⟨sIfdir ||| defaultPermissions, []⟩ :=
    hlife.untouched (by decide) hmounts (by decide)
  have hnames : ∀ name ∈ ([] : List CString), IsComponent name := fun _ hmem =>
    absurd hmem List.not_mem_nil
  have hsafe : SafeSession s
      [.readdir (pathOf []), makeBelow, .getattr (pathOf [[letterF]])] :=
    hmounts.safe_idle (by decide) (by
      simpa using ⟨readdir_idle hnames, makeBelow_idle hnode, getattr_idle components_f⟩)
  obtain ⟨replies, t, hran⟩ := hlife.next (by decide) hsafe
  obtain ⟨⟨replies', hreplies, hlength⟩, after, hmeans, -⟩ := hran.mounts hmounts hsafe
  obtain rfl := Option.some.inj hreplies
  obtain ⟨reply, reply', reply'', rfl⟩ := List.length_eq_three.mp hlength
  cases hmeans with
  | cons _ hstep hrest =>
      obtain ⟨_, _, _, -, -, -, -, hstep⟩ := hstep
      obtain ⟨rfl, code, items, hreply, hlists⟩ := hstep.readdir_inv hnames
      cases hrest with
      | cons _ hstep' hlast =>
          obtain ⟨rfl, rfl⟩ := makeBelow_means hnode hstep'
          cases hlast with
          | cons _ hstep'' _ =>
              obtain ⟨_, _, _, -, -, -, -, hstep''⟩ := hstep''
              obtain ⟨-, st, hreply'', -⟩ := hstep''.getattr_inv components_f
              have hcode : code = 0 := by
                cases hlists with
                | missing hnone => cases hroot.symm.trans hnone
                | notDir hother hdir =>
                    obtain rfl := Option.some.inj (hroot.symm.trans hother)
                    exact absurd hdir (by decide)
                | listed => rfl
              obtain rfl : reply = .entries 0 items := by
                rw [hcode] at hreply
                exact hreply
              obtain rfl : reply'' = .attr 0 st := by
                rw [FileTree.access, hnode] at hreply''
                exact hreply''
              have hlife' := hlife.then hran hsafe
              obtain ⟨hagree, hmodes⟩ := @listing_agrees _ t _ []
                [(makeFile, .status 0), (writeByte, .status 1)] [] [(makeBelow, .status (-1))] items
                [letterF] 0 st (by decide) hlife' rfl components_f (by decide)
              obtain ⟨listed, hlisted⟩ := hagree.mp rfl
              exact ⟨t, _, items, st, listed, hlife', rfl, hlisted, hmodes listed hlisted⟩

end Sessions

end AltFs
