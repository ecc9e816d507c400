import AltFs.Lib.NamedTree
import Mathlib.Data.List.Induction
import Mathlib.Logic.Function.Basic

/-!
# Values under paths

A `PathTree` gives each path a value or none.  The nodes of a tree with named
edges carry labels, and `labels` is the tree of these: an edge that is added,
removed or moved puts, erases or moves a value.
-/

namespace AltFs

/-- What is stored under each path. -/
abbrev PathTree (ν κ : Type) : Type := List ν → Option κ

namespace PathTree

variable {ν κ : Type} [DecidableEq ν]

def put (tree : PathTree ν κ) (path : List ν) (value : κ) : PathTree ν κ :=
  Function.update tree path (some value)

theorem put_same {tree : PathTree ν κ} {path : List ν} {value : κ} :
    tree.put path value path = some value := Function.update_self _ _ _

theorem put_self {tree : PathTree ν κ} {path : List ν} {value : κ} (h : tree path = some value) :
    tree.put path value = tree := by
  rw [put, ← h, Function.update_eq_self]

def erase (tree : PathTree ν κ) (path : List ν) : PathTree ν κ := Function.update tree path none

/-- What was at or below `source` is at or below `target`, in place of what was there. -/
def move (tree : PathTree ν κ) (source target : List ν) : PathTree ν κ := fun path =>
  if target <+: path then tree (source ++ path.drop target.length)
  else if source <+: path then none else tree path

/-- What was at the target plays no part in the move. -/
theorem move_erase {tree : PathTree ν κ} {source target : List ν} (hbelow : ¬source <+: target) :
    (tree.erase target).move source target = tree.move source target := by
  have herase : ∀ path, path ≠ target → tree.erase target path = tree path :=
    fun _ hne => Function.update_of_ne hne _ _
  funext path
  unfold move
  split
  next hinside =>
    apply herase
    intro heq
    have hprefix := List.prefix_append source (path.drop target.length)
    rw [heq] at hprefix
    exact hbelow hprefix
  next hout =>
  split
  next => rfl
  next =>
    apply herase
    rintro rfl
    exact hout List.prefix_rfl

omit [DecidableEq ν] in
def HasChild (tree : PathTree ν κ) (path : List ν) : Prop := ∃ name, tree (path ++ [name]) ≠ none

omit [DecidableEq ν] in
/-- What is in the tree has its parent in the tree. -/
def Closed (tree : PathTree ν κ) : Prop :=
  ∀ path name, tree (path ++ [name]) ≠ none → tree path ≠ none

namespace Closed

variable {tree : PathTree ν κ} {path front source target : List ν}

omit [DecidableEq ν] in
theorem of_prefix (h : tree.Closed) (hfront : front <+: path) (hpath : tree path ≠ none) :
    tree front ≠ none := by
  obtain ⟨rest, rfl⟩ := hfront
  induction rest using List.reverseRecOn with
  | nil =>
      rw [List.append_nil] at hpath
      exact hpath
  | append_singleton rest name ih =>
      apply ih
      rw [← List.append_assoc] at hpath
      exact h _ name hpath

omit [DecidableEq ν] in
/-- What is in the tree below a path is below a child of it. -/
theorem hasChild (h : tree.Closed) (hfront : front <+: path) (hne : front ≠ path)
    (hpath : tree path ≠ none) : tree.HasChild front := by
  obtain ⟨rest, rfl⟩ := hfront
  cases rest with
  | nil => exact absurd (List.append_nil front).symm hne
  | cons name rest =>
      refine ⟨name, h.of_prefix ⟨rest, ?_⟩ hpath⟩
      rw [List.append_assoc, List.singleton_append]

theorem put (h : tree.Closed) (value : κ)
    (hparent : ∀ front name, path = front ++ [name] → tree front ≠ none) :
    (tree.put path value).Closed := by
  intro front name hmem
  have hother : ∀ other, tree other ≠ none → tree.put path value other ≠ none := by
    intro other hother
    rw [PathTree.put, Function.update_apply]
    split
    · exact Option.some_ne_none value
    · exact hother
  apply hother
  by_cases heq : front ++ [name] = path
  · exact hparent front name heq.symm
  · rw [PathTree.put, Function.update_of_ne heq] at hmem
    exact h front name hmem

theorem erase (h : tree.Closed) (hleaf : ¬tree.HasChild path) : (tree.erase path).Closed := by
  intro front name hmem
  have hne : front ++ [name] ≠ path := by
    intro heq
    rw [PathTree.erase, heq, Function.update_self] at hmem
    exact hmem rfl
  rw [PathTree.erase, Function.update_of_ne hne] at hmem
  have hfront : front ≠ path := by
    rintro rfl
    exact hleaf ⟨name, hmem⟩
  rw [PathTree.erase, Function.update_of_ne hfront]
  exact h front name hmem

theorem move (h : tree.Closed) (hbelow : ¬source <+: target)
    (hparent : ∀ front name, target = front ++ [name] → tree front ≠ none) :
    (tree.move source target).Closed := by
  intro front name hmem
  unfold PathTree.move at *
  by_cases hinside : target <+: front
  · obtain ⟨rest, rfl⟩ := hinside
    rw [List.append_assoc, if_pos (List.prefix_append _ _), List.drop_left,
      ← List.append_assoc] at hmem
    rw [if_pos (List.prefix_append _ _), List.drop_left]
    exact h _ name hmem
  · by_cases htarget : target = front ++ [name]
    · have hout : ¬source <+: front := fun habove =>
        hbelow (htarget ▸ habove.trans (List.prefix_append _ _))
      rw [if_neg hinside, if_neg hout]
      exact hparent front name htarget
    · have houter : ¬target <+: front ++ [name] := by
        rw [List.prefix_concat_iff]
        exact fun hcases => hcases.elim htarget hinside
      rw [if_neg houter] at hmem
      split at hmem
      next habove => exact absurd rfl hmem
      next hout =>
        have hfront : ¬source <+: front := fun habove =>
          hout (habove.trans (List.prefix_append _ _))
        rw [if_neg hinside, if_neg hfront]
        exact h front name hmem

end Closed

end PathTree

namespace NamedTree

variable {ι ν κ : Type} {child child' : ι → ν → Option ι} {label label' : ι → κ}
  {root i i' j moved : ι} {names names' path : List ν} {name name' : ν}

/-- The labels of the nodes under the paths. -/
def labels (child : ι → ν → Option ι) (root : ι) (label : ι → κ) : PathTree ν κ :=
  fun path => (follow child root path).map label

theorem labels_eq_some (hnode : follow child root names = some i) :
    labels child root label names = some (label i) := by
  rw [labels, hnode]
  rfl

theorem labels_eq_none_iff :
    labels child root label path = none ↔ follow child root path = none :=
  Option.map_eq_none_iff

theorem labels_congr (hlabel : ∀ path k, follow child root path = some k → label' k = label k) :
    labels child root label' = labels child root label := by
  funext path
  unfold labels
  cases hnode : follow child root path with
  | none => rfl
  | some k => exact congrArg some (hlabel path k hnode)

/-- A path that is followed to where it was, to a node with the label it had. -/
private theorem labels_other
    (hfollow : follow child' root path = follow child root path)
    (hlabel : ∀ k, follow child root path = some k → label' k = label k) :
    labels child' root label' path = labels child root label path := by
  unfold labels
  rw [hfollow]
  cases hnode : follow child root path with
  | none => rfl
  | some k => exact congrArg some (hlabel k hnode)

/-- Some path leads to the node. -/
def Reached (child : ι → ν → Option ι) (root k : ι) : Prop := ∃ path, follow child root path = some k

variable [DecidableEq ν]

namespace IsTree

theorem labels_relabeled (h : IsTree child root) (hnode : follow child root names = some j)
    (hlabel : ∀ path k, follow child root path = some k → k ≠ j → label' k = label k) :
    labels child root label' = (labels child root label).put names (label' j) := by
  funext path
  rw [PathTree.put, Function.update_apply]
  split
  next heq => rw [heq, labels_eq_some hnode]
  next hne =>
    apply labels_other rfl
    intro k hk
    apply hlabel path k hk
    rintro rfl
    exact hne (h.path_unique hk hnode)

theorem labels_added (h : IsTree child root) (hnode : follow child root names = some i)
    (hchild : child' i name = some j)
    (hother : ∀ k n, ¬(k = i ∧ n = name) → child' k n = child k n) (hnone : child i name = none)
    (hleaf : ∀ n, child' j n = none)
    (hlabel : ∀ path k, follow child root path = some k → label' k = label k) :
    labels child' root label' = (labels child root label).put (names ++ [name]) (label' j) := by
  funext path
  rw [PathTree.put, Function.update_apply]
  split
  next heq => rw [heq, labels_eq_some (h.follow_added_self hnode hchild hother)]
  next hne =>
    exact labels_other (h.follow_added_other hnode hchild hother hnone hleaf hne)
      fun k hk => hlabel path k hk

theorem labels_removed (h : IsTree child root) (hnode : follow child root names = some i)
    (hchild : child i name = some j)
    (hother : ∀ k n, ¬(k = i ∧ n = name) → child' k n = child k n) (hgone : child' i name = none)
    (hleaf : ∀ n, child j n = none)
    (hlabel : ∀ path k, follow child root path = some k → k ≠ j → label' k = label k) :
    labels child' root label' = (labels child root label).erase (names ++ [name]) := by
  have hpath : follow child root (names ++ [name]) = some j := by
    rw [follow_concat, hnode]
    exact hchild
  funext path
  rw [PathTree.erase, Function.update_apply]
  split
  next heq =>
    rw [heq, labels_eq_none_iff, follow_concat,
      h.follow_removed hnode hother (not_prefix_init names name), hnode]
    exact hgone
  next hne =>
    apply labels_other (h.follow_removed_other hnode hchild hother hgone hleaf hne)
    intro k hk
    apply hlabel path k hk
    rintro rfl
    exact hne (h.path_unique hk hpath)

omit [DecidableEq ν] in
theorem reached_added {k : ι} (h : IsTree child root) (hnode : follow child root names = some i)
    (hchild : child' i name = some j)
    (hother : ∀ k n, ¬(k = i ∧ n = name) → child' k n = child k n) (hnone : child i name = none)
    (hleaf : ∀ n, child' j n = none) (hk : k = j ∨ Reached child root k) :
    Reached child' root k := by
  rcases hk with rfl | ⟨path, hpath⟩
  · exact ⟨names ++ [name], h.follow_added_self hnode hchild hother⟩
  · refine ⟨path, ?_⟩
    rw [h.follow_added_other hnode hchild hother hnone hleaf]
    · exact hpath
    · rintro rfl
      rw [follow_concat, hnode, Option.bind_some, hnone] at hpath
      cases hpath

omit [DecidableEq ν] in
theorem reached_removed {k : ι} (h : IsTree child root) (hnode : follow child root names = some i)
    (hchild : child i name = some j)
    (hother : ∀ k n, ¬(k = i ∧ n = name) → child' k n = child k n) (hgone : child' i name = none)
    (hleaf : ∀ n, child j n = none) (hk : Reached child root k) (hne : k ≠ j) :
    Reached child' root k := by
  obtain ⟨path, hpath⟩ := hk
  refine ⟨path, ?_⟩
  rw [h.follow_removed_other hnode hchild hother hgone hleaf]
  · exact hpath
  · rintro rfl
    rw [follow_concat, hnode, Option.bind_some, hchild] at hpath
    exact hne (Option.some.inj hpath).symm

end IsTree

namespace Moved

variable (h : Moved child child' i name i' name' moved) (htree : IsTree child root)

include h htree

omit [DecidableEq ν] in
/-- The node that is moved is still under one name only. -/
theorem isTree : IsTree child' root := by
  have hcases : ∀ {k n l}, child' k n = some l →
      k = i' ∧ n = name' ∧ l = moved ∨ ¬(k = i ∧ n = name) ∧ child k n = some l := by
    intro k n l hedge
    by_cases htarget : k = i' ∧ n = name'
    · obtain ⟨rfl, rfl⟩ := htarget
      rw [h.target] at hedge
      exact .inl ⟨rfl, rfl, (Option.some.inj hedge).symm⟩
    · have hsource : ¬(k = i ∧ n = name) := by
        rintro ⟨rfl, rfl⟩
        rw [h.gone] at hedge
        cases hedge
      rw [h.other k n fun heq => heq.elim hsource htarget] at hedge
      exact .inr ⟨hsource, hedge⟩
  constructor
  · intro k k' l n n' hedge hedge'
    rcases hcases hedge with ⟨rfl, rfl, rfl⟩ | ⟨hout, hedge⟩
    · rcases hcases hedge' with ⟨rfl, rfl, -⟩ | ⟨hout', hedge'⟩
      · exact ⟨rfl, rfl⟩
      · obtain ⟨rfl, rfl⟩ := htree.unique hedge' h.source
        exact absurd ⟨rfl, rfl⟩ hout'
    · rcases hcases hedge' with ⟨rfl, rfl, rfl⟩ | ⟨-, hedge'⟩
      · obtain ⟨rfl, rfl⟩ := htree.unique hedge h.source
        exact absurd ⟨rfl, rfl⟩ hout
      · exact htree.unique hedge hedge'
  · intro k n hedge
    rcases hcases hedge with ⟨-, -, rfl⟩ | ⟨-, hedge⟩
    · exact htree.root_ne i name h.source
    · exact htree.root_ne k n hedge

omit [DecidableEq ν] in
theorem reached {k : ι} (hsource : follow child root names = some i)
    (htarget : follow child root names' = some i')
    (hbelow : ¬names ++ [name] <+: names' ++ [name'])
    (hleaf : ∀ j, follow child root (names' ++ [name']) = some j → ∀ n, child j n = none)
    (hpath : follow child root path = some k) (hne : path ≠ names' ++ [name']) :
    Reached child' root k := by
  by_cases hinside : names ++ [name] <+: path
  · obtain ⟨rest, rfl⟩ := hinside
    rw [List.append_assoc, List.singleton_append] at hpath
    exact ⟨names' ++ name' :: rest, (h.follow_target htree hsource htarget hbelow rest).trans hpath⟩
  by_cases hbehind : names' ++ [name'] <+: path
  · -- what was at the target had no children
    obtain ⟨rest, rfl⟩ := hbehind
    cases rest with
    | nil => exact absurd (List.append_nil _) hne
    | cons n rest =>
        rw [follow_append] at hpath
        obtain ⟨j, hj, hrest⟩ := Option.bind_eq_some_iff.mp hpath
        rw [follow_cons, hleaf j hj, Option.bind_none] at hrest
        cases hrest
  · exact ⟨path, (h.follow_outside htree hsource htarget hinside hbehind).trans hpath⟩

theorem labels_moved (hsource : follow child root names = some i)
    (htarget : follow child root names' = some i')
    (hbelow : ¬names ++ [name] <+: names' ++ [name']) (habove : ¬names' ++ [name'] <+: names)
    (hlabel : ∀ path k, follow child root path = some k → path ≠ names' ++ [name'] →
      label' k = label k) :
    labels child' root label' =
      (labels child root label).move (names ++ [name]) (names' ++ [name']) := by
  funext path
  unfold PathTree.move
  split
  next hinside =>
    obtain ⟨rest, rfl⟩ := hinside
    rw [List.drop_left, List.append_assoc, List.append_assoc, List.singleton_append,
      List.singleton_append]
    have hfollow := h.follow_target htree hsource htarget hbelow rest
    unfold labels
    rw [hfollow]
    cases hnode : follow child root (names ++ name :: rest) with
    | none => rfl
    | some k =>
        apply congrArg some
        apply hlabel _ k hnode
        intro heq
        exact hbelow ⟨rest, by rw [← heq, List.append_assoc, List.singleton_append]⟩
  next hout =>
  split
  next hinside =>
    obtain ⟨rest, rfl⟩ := hinside
    rw [labels_eq_none_iff, List.append_assoc, List.singleton_append]
    exact h.follow_source htree hsource htarget habove rest
  next hout' =>
    apply labels_other (h.follow_outside htree hsource htarget hout' hout)
    intro k hk
    exact hlabel path k hk fun heq => hout (heq ▸ List.prefix_rfl)

end Moved

end NamedTree

end AltFs
