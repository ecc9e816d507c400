import Mathlib.Data.List.Induction
import Mathlib.Tactic.Common

/-!
# Trees with named edges

`child node name` is the node under `name` in `node`, and `follow` goes down a
path of names.  In a tree no node is reached by two paths, and an edge that is
moved takes everything below it along.
-/

namespace AltFs.NamedTree

variable {ι ν : Type} {child child' : ι → ν → Option ι} {root start i i' moved : ι}
  {names names' path rest : List ν} {name name' : ν}

def follow (child : ι → ν → Option ι) : ι → List ν → Option ι
  | i, [] => some i
  | i, name :: names => (child i name).bind fun j => follow child j names

@[simp] theorem follow_nil : follow child i [] = some i := rfl

theorem follow_cons :
    follow child i (name :: names) = (child i name).bind fun j => follow child j names := rfl

theorem follow_append (names rest : List ν) :
    follow child i (names ++ rest) = (follow child i names).bind fun j => follow child j rest := by
  induction names generalizing i with
  | nil => rfl
  | cons name names ih =>
      rw [List.cons_append, follow_cons, follow_cons, Option.bind_assoc]
      congr 1
      funext j
      exact ih

theorem follow_concat (names : List ν) (name : ν) :
    follow child i (names ++ [name]) = (follow child i names).bind fun j => child j name := by
  rw [follow_append]
  congr 1
  funext j
  exact Option.bind_fun_some (child j name)

/-- A path ends early at the first name that is not there. -/
theorem follow_eq_none_iff : follow child start path = none ↔
    ∃ front n back j, path = front ++ n :: back ∧ follow child start front = some j ∧
      child j n = none := by
  induction path generalizing start with
  | nil => simp
  | cons name names ih =>
      rw [follow_cons]
      constructor
      · intro hnone
        cases hchild : child start name with
        | none => exact ⟨[], name, names, start, rfl, rfl, hchild⟩
        | some i =>
            rw [hchild, Option.bind_some, ih] at hnone
            obtain ⟨front, n, back, j, rfl, hfront, hj⟩ := hnone
            refine ⟨name :: front, n, back, j, rfl, ?_, hj⟩
            rw [follow_cons, hchild]
            exact hfront
      · rintro ⟨front, n, back, j, hpath, hfront, hj⟩
        cases front with
        | nil =>
            obtain ⟨rfl, rfl⟩ := List.cons_eq_cons.mp hpath
            cases hfront
            rw [hj, Option.bind_none]
        | cons first front =>
            obtain ⟨rfl, rfl⟩ := List.cons_eq_cons.mp hpath
            rw [follow_cons] at hfront
            obtain ⟨i, hi, hrest⟩ := Option.bind_eq_some_iff.mp hfront
            rw [hi, Option.bind_some, ih]
            exact ⟨front, n, back, j, rfl, hrest, hj⟩

/-- Every step of a path that is followed is an edge that has not changed. -/
theorem follow_congr {changed : ι → ν → Prop}
    (hsame : ∀ j n, ¬changed j n → child' j n = child j n)
    (hout : ∀ front n back j, path = front ++ n :: back → follow child start front = some j →
      ¬changed j n) : follow child' start path = follow child start path := by
  induction path generalizing start with
  | nil => rfl
  | cons name names ih =>
      rw [follow_cons, follow_cons, hsame start name (hout [] name names start rfl rfl)]
      cases hchild : child start name with
      | none => rfl
      | some j =>
          apply ih
          intro front n back k hnames hfollow
          apply hout (name :: front) n back k
          · rw [hnames, List.cons_append]
          · rw [follow_cons, hchild]
            exact hfollow

theorem not_prefix_init (names : List ν) (name : ν) : ¬names ++ [name] <+: names := by
  intro hinit
  have hlength := hinit.length_le
  rw [List.length_append, List.length_singleton] at hlength
  omega

/-- No node is under two names, and the root is under none. -/
structure IsTree (child : ι → ν → Option ι) (root : ι) : Prop where
  unique : ∀ {i i' j : ι} {name name' : ν}, child i name = some j → child i' name' = some j →
    i = i' ∧ name = name'
  root_ne : ∀ i name, child i name ≠ some root

namespace IsTree

/-- Edges may be left out. -/
theorem of_sub (h : IsTree child root)
    (hsub : ∀ i name j, child' i name = some j → child i name = some j) : IsTree child' root where
  unique hchild hchild' := h.unique (hsub _ _ _ hchild) (hsub _ _ _ hchild')
  root_ne i name hchild := h.root_ne i name (hsub _ _ _ hchild)

/-- An edge to a node that no edge led to. -/
theorem added {j : ι} (h : IsTree child root) (hnew : ∀ k n, child k n ≠ some j) (hroot : j ≠ root)
    (hchild : child' i name = some j)
    (hother : ∀ k n, ¬(k = i ∧ n = name) → child' k n = child k n) : IsTree child' root where
  unique {k k' l n n'} hedge hedge' := by
    by_cases hself : k = i ∧ n = name
    · obtain ⟨rfl, rfl⟩ := hself
      rw [hchild] at hedge
      cases hedge
      by_contra hne
      rw [hother k' n' fun heq => hne ⟨heq.1.symm, heq.2.symm⟩] at hedge'
      exact hnew k' n' hedge'
    · rw [hother k n hself] at hedge
      by_cases hself' : k' = i ∧ n' = name
      · rw [hself'.1, hself'.2, hchild] at hedge'
        cases hedge'
        exact absurd hedge (hnew k n)
      · rw [hother k' n' hself'] at hedge'
        exact h.unique hedge hedge'
  root_ne k n hedge := by
    by_cases hself : k = i ∧ n = name
    · rw [hself.1, hself.2, hchild] at hedge
      exact hroot (Option.some.inj hedge)
    · rw [hother k n hself] at hedge
      exact h.root_ne k n hedge

theorem path_unique (h : IsTree child root) (hpath : follow child root names = some i)
    (hpath' : follow child root names' = some i) : names = names' := by
  induction names using List.reverseRecOn generalizing i names' with
  | nil =>
      cases hpath
      cases names' using List.reverseRecOn with
      | nil => rfl
      | append_singleton front name =>
          rw [follow_concat] at hpath'
          obtain ⟨j, -, hchild⟩ := Option.bind_eq_some_iff.mp hpath'
          exact absurd hchild (h.root_ne j name)
  | append_singleton front name ih =>
      rw [follow_concat] at hpath
      obtain ⟨j, hfront, hchild⟩ := Option.bind_eq_some_iff.mp hpath
      cases names' using List.reverseRecOn with
      | nil =>
          cases hpath'
          exact absurd hchild (h.root_ne j name)
      | append_singleton front' name' =>
          rw [follow_concat] at hpath'
          obtain ⟨j', hfront', hchild'⟩ := Option.bind_eq_some_iff.mp hpath'
          obtain ⟨rfl, rfl⟩ := h.unique hchild hchild'
          rw [ih hfront hfront']

/-- A path that goes through an edge begins with the path of the edge. -/
theorem through (h : IsTree child root) (hnode : follow child root names = some i)
    {front back : List ν} (hpath : path = front ++ name :: back)
    (hfront : follow child root front = some i) : names ++ [name] <+: path := by
  rw [h.path_unique hnode hfront, hpath]
  exact ⟨back, by rw [List.append_assoc, List.singleton_append]⟩

/-- One edge is removed. -/
theorem follow_removed (h : IsTree child root) (hnode : follow child root names = some i)
    (hsame : ∀ j n, ¬(j = i ∧ n = name) → child' j n = child j n)
    (hout : ¬names ++ [name] <+: path) : follow child' root path = follow child root path := by
  apply follow_congr hsame
  rintro front n back j hpath hfront ⟨rfl, rfl⟩
  exact hout (h.through hnode hpath hfront)

section Added

variable {j : ι} (h : IsTree child root) (hnode : follow child root names = some i)
  (hchild : child' i name = some j)
  (hother : ∀ k n, ¬(k = i ∧ n = name) → child' k n = child k n)

include h hnode hchild hother

theorem follow_added_self : follow child' root (names ++ [name]) = some j := by
  rw [follow_concat, h.follow_removed hnode hother (not_prefix_init names name), hnode]
  exact hchild

/-- An edge to a node without children is on one path only. -/
theorem follow_added_other (hnone : child i name = none) (hleaf : ∀ n, child' j n = none)
    (hne : path ≠ names ++ [name]) : follow child' root path = follow child root path := by
  by_cases hbelow : names ++ [name] <+: path
  swap
  · exact h.follow_removed hnode hother hbelow
  obtain ⟨rest, rfl⟩ := hbelow
  cases rest with
  | nil =>
      rw [List.append_nil] at hne
      exact absurd rfl hne
  | cons n rest =>
      have hbefore : follow child root (names ++ [name]) = none := by
        rw [follow_concat, hnode]
        exact hnone
      rw [follow_append (names ++ [name]), follow_append (names ++ [name]),
        h.follow_added_self hnode hchild hother, hbefore, Option.bind_some, Option.bind_none,
        follow_cons, hleaf]
      rfl

end Added

/-- An edge to a node without children is removed. -/
theorem follow_removed_other {j : ι} (h : IsTree child root)
    (hnode : follow child root names = some i) (hchild : child i name = some j)
    (hsame : ∀ k n, ¬(k = i ∧ n = name) → child' k n = child k n) (hgone : child' i name = none)
    (hleaf : ∀ n, child j n = none) (hne : path ≠ names ++ [name]) :
    follow child' root path = follow child root path := by
  have htree : IsTree child' root := by
    apply h.of_sub
    intro k n l hedge
    by_cases hself : k = i ∧ n = name
    · rw [hself.1, hself.2, hgone] at hedge
      cases hedge
    · rw [← hsame k n hself]
      exact hedge
  have hnode' : follow child' root names = some i := by
    rw [h.follow_removed hnode hsame (not_prefix_init names name)]
    exact hnode
  have hsame' : ∀ k n, ¬(k = i ∧ n = name) → child k n = child' k n :=
    fun k n hself => (hsame k n hself).symm
  exact (htree.follow_added_other hnode' hchild hsame' hgone hleaf hne).symm

end IsTree

/-- The node `moved` is taken from `name` in `i` to `name'` in `i'`, in place of what was there. -/
structure Moved (child child' : ι → ν → Option ι) (i : ι) (name : ν) (i' : ι) (name' : ν)
    (moved : ι) : Prop where
  source : child i name = some moved
  target : child' i' name' = some moved
  gone : child' i name = none
  other : ∀ j n, ¬(j = i ∧ n = name ∨ j = i' ∧ n = name') → child' j n = child j n

namespace Moved

variable (h : Moved child child' i name i' name' moved) (htree : IsTree child root)
  (hsource : follow child root names = some i) (htarget : follow child root names' = some i')

include h htree hsource htarget

theorem follow_outside (hout : ¬names ++ [name] <+: path) (hout' : ¬names' ++ [name'] <+: path) :
    follow child' root path = follow child root path := by
  apply follow_congr h.other
  rintro front n back j hpath hfront (⟨rfl, rfl⟩ | ⟨rfl, rfl⟩)
  · exact hout (htree.through hsource hpath hfront)
  · exact hout' (htree.through htarget hpath hfront)

/-- What was below the source is below the target. -/
theorem follow_target (hbelow : ¬names ++ [name] <+: names' ++ [name']) (rest : List ν) :
    follow child' root (names' ++ name' :: rest) = follow child root (names ++ name :: rest) := by
  have hnotInside : ¬names ++ [name] <+: names' := fun hinit =>
    hbelow (hinit.trans (List.prefix_append _ _))
  have hmoved : follow child root (names ++ [name]) = some moved := by
    rw [follow_concat, hsource]
    exact h.source
  rw [follow_append, h.follow_outside htree hsource htarget hnotInside (not_prefix_init _ _),
    htarget, follow_append, hsource, Option.bind_some, Option.bind_some, follow_cons, follow_cons,
    h.target, h.source, Option.bind_some, Option.bind_some]
  apply follow_congr h.other
  intro front n back j hpath hfront hchanged
  have hreached : follow child root (names ++ [name] ++ front) = some j := by
    rw [follow_append, hmoved]
    exact hfront
  rcases hchanged with ⟨rfl, -⟩ | ⟨rfl, -⟩
  · have heq := htree.path_unique hsource hreached
    have hlength := congrArg List.length heq
    simp only [List.length_append, List.length_singleton] at hlength
    omega
  · exact hnotInside ⟨front, (htree.path_unique htarget hreached).symm⟩

/-- Nothing is left at the source. -/
theorem follow_source (habove : ¬names' ++ [name'] <+: names) (rest : List ν) :
    follow child' root (names ++ name :: rest) = none := by
  rw [follow_append, h.follow_outside htree hsource htarget (not_prefix_init _ _) habove, hsource,
    Option.bind_some, follow_cons, h.gone]
  rfl

end Moved

end AltFs.NamedTree
