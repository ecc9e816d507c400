import Mathlib.Data.List.Induction
import Mathlib.Data.List.Nodup

/-!
# Doubly linked lists

A doubly linked list is described by the links of its nodes: `Linked` says
that the nodes of a segment are linked in order both ways, and names what the
outermost links point to.  The edits of a list are exchanges of these
outermost links, because a segment split in two keeps all others.
-/

namespace AltFs

variable {ι : Type}

/-- The nodes are linked both ways; the outermost links are `before` and `after`. -/
def Linked (next prev : ι → Option ι) (before after : Option ι) : List ι → Prop
  | [] => True
  | node :: rest =>
      prev node = before ∧ next node = rest.head?.or after ∧
        Linked next prev (some node) after rest

/-- The chain of `link` from `start` visits exactly `nodes` and ends there. -/
def Visits (link : ι → Option ι) (start : Option ι) : List ι → Prop
  | [] => start = none
  | node :: rest => start = some node ∧ Visits link (link node) rest

variable {next prev next' prev' link : ι → Option ι} {before after before' after' : Option ι}
  {nodes first rest : List ι} {node : ι}

theorem linked_append :
    Linked next prev before after (first ++ rest) ↔
      Linked next prev before (rest.head?.or after) first ∧
        Linked next prev (first.getLast?.or before) after rest := by
  induction first generalizing before with
  | nil => simp [Linked]
  | cons node first ih =>
      have hnext : ((first ++ rest).head?).or after = first.head?.or (rest.head?.or after) := by
        cases first <;> simp
      have hprev : (node :: first).getLast?.or before = first.getLast?.or (some node) := by
        cases first with
        | nil => rfl
        | cons second first => simp [List.getLast?_cons]
      rw [List.cons_append, Linked, Linked, ih, hnext, hprev]
      tauto

theorem Linked.congr (h : Linked next prev before after nodes)
    (hnext : ∀ node ∈ nodes, next' node = next node)
    (hprev : ∀ node ∈ nodes, prev' node = prev node) :
    Linked next' prev' before after nodes := by
  induction nodes generalizing before with
  | nil => trivial
  | cons node rest ih =>
      obtain ⟨hbefore, hafter, hrest⟩ := h
      refine ⟨?_, ?_, ih hrest ?_ ?_⟩
      · rw [hprev node List.mem_cons_self, hbefore]
      · rw [hnext node List.mem_cons_self, hafter]
      · exact fun a ha => hnext a (List.mem_cons_of_mem _ ha)
      · exact fun a ha => hprev a (List.mem_cons_of_mem _ ha)

section Edits

variable [DecidableEq ι]

theorem Linked.setPrev (h : Linked next prev before after nodes) (hnodup : nodes.Nodup)
    (hprev : ∀ node ∈ nodes, prev' node = if nodes.head? = some node then before' else prev node) :
    Linked next prev' before' after nodes := by
  cases nodes with
  | nil => trivial
  | cons node rest =>
      obtain ⟨hbefore, hafter, hrest⟩ := h
      refine ⟨?_, hafter, hrest.congr (fun _ _ => rfl) fun a ha => ?_⟩
      · simpa using hprev node List.mem_cons_self
      · rw [hprev a (List.mem_cons_of_mem _ ha), if_neg]
        intro heq
        rw [List.head?_cons, Option.some.injEq] at heq
        rw [heq] at hnodup
        exact (List.nodup_cons.mp hnodup).1 ha

theorem Linked.setNext (h : Linked next prev before after nodes) (hnodup : nodes.Nodup)
    (hnext : ∀ node ∈ nodes,
      next' node = if nodes.getLast? = some node then after' else next node) :
    Linked next' prev before after' nodes := by
  induction nodes generalizing before with
  | nil => trivial
  | cons node rest ih =>
      obtain ⟨hbefore, hafter, hrest⟩ := h
      have hnode := hnext node List.mem_cons_self
      cases rest with
      | nil => exact ⟨hbefore, by simpa using hnode, trivial⟩
      | cons second rest =>
          rw [List.getLast?_cons_cons] at hnext hnode
          refine ⟨hbefore, ?_, ih hrest hnodup.of_cons fun a ha => ?_⟩
          · rw [hnode, if_neg, hafter]
            · rfl
            · intro heq
              exact (List.nodup_cons.mp hnodup).1 (List.mem_of_getLast? heq)
          · exact hnext a (List.mem_cons_of_mem _ ha)

/-- Taking out a node needs one link of each neighbour to change. -/
theorem Linked.unlink (h : Linked next prev none none (first ++ node :: rest))
    (hnodup : (first ++ rest).Nodup)
    (hnext : ∀ a ∈ first ++ rest,
      next' a = if first.getLast? = some a then rest.head? else next a)
    (hprev : ∀ a ∈ first ++ rest,
      prev' a = if rest.head? = some a then first.getLast? else prev a) :
    Linked next' prev' none none (first ++ rest) := by
  obtain ⟨hfirst, -, -, hrest⟩ := linked_append.mp h
  obtain ⟨hnodup₁, hnodup₂, hdisjoint⟩ := List.nodup_append.mp hnodup
  refine linked_append.mpr ⟨?_, ?_⟩
  · rw [Option.or_none]
    refine hfirst.setNext hnodup₁ (fun a ha => hnext a (List.mem_append_left _ ha)) |>.congr
      (fun _ _ => rfl) fun a ha => ?_
    rw [hprev a (List.mem_append_left _ ha), if_neg]
    exact fun heq => hdisjoint a ha a (List.mem_of_head? heq) rfl
  · rw [Option.or_none]
    refine hrest.setPrev hnodup₂ (fun a ha => hprev a (List.mem_append_right _ ha)) |>.congr
      (fun a ha => ?_) fun _ _ => rfl
    rw [hnext a (List.mem_append_right _ ha), if_neg]
    exact fun heq => hdisjoint a (List.mem_of_getLast? heq) a ha rfl

/-- Putting a node in front needs its own links and one of the old first node. -/
theorem Linked.push (h : Linked next prev none none nodes) (hnodup : nodes.Nodup)
    (hnode : next' node = nodes.head?) (hnode' : prev' node = none)
    (hnext : ∀ a ∈ nodes, next' a = next a)
    (hprev : ∀ a ∈ nodes, prev' a = if nodes.head? = some a then some node else prev a) :
    Linked next' prev' none none (node :: nodes) := by
  refine ⟨hnode', by rw [Option.or_none, hnode], ?_⟩
  exact (h.setPrev hnodup hprev).congr hnext fun _ _ => rfl

end Edits

/-! ## Walking along the links -/

theorem Visits.unique {start : Option ι} (h : Visits link start nodes)
    (h' : Visits link start rest) : nodes = rest := by
  induction nodes generalizing start rest with
  | nil =>
      cases rest with
      | nil => rfl
      | cons node rest => exact absurd (h.symm.trans h'.1) (by simp)
  | cons node nodes ih =>
      cases rest with
      | nil => exact absurd (h.1.symm.trans h') (by simp)
      | cons second rest =>
          obtain rfl : node = second := Option.some.inj (h.1.symm.trans h'.1)
          rw [ih h.2 h'.2]

theorem Linked.visits_next (h : Linked next prev before none nodes) :
    Visits next nodes.head? nodes := by
  induction nodes generalizing before with
  | nil => rfl
  | cons node nodes ih =>
      obtain ⟨-, hnext, hnodes⟩ := h
      rw [Option.or_none] at hnext
      refine ⟨rfl, ?_⟩
      rw [hnext]
      exact ih hnodes

theorem Linked.visits_prev (h : Linked next prev none after nodes) :
    Visits prev nodes.getLast? nodes.reverse := by
  induction nodes using List.reverseRecOn generalizing after with
  | nil => rfl
  | append_singleton nodes node ih =>
      obtain ⟨hnodes, hprev, -⟩ := linked_append.mp h
      rw [List.reverse_append, List.getLast?_append]
      refine ⟨rfl, ?_⟩
      rw [hprev, Option.or_none]
      exact ih hnodes

end AltFs
