import AltFs.DirectoryOps
import Mathlib.Data.List.Basic
import Mathlib.Data.List.Induction

/-!
# Normalised paths

`pathOf names` is the absolute path with the components `names`.  Splitting it
off at the last `/` takes the last component away.
-/

namespace AltFs

/-- A component of a normalised path, other than `.` and `..`. -/
structure IsComponent (name : CString) : Prop where
  ne_nil : name ≠ []
  slash_notMem : slash ∉ name
  ne_dot : name ≠ [dot]
  ne_dotDot : name ≠ [dot, dot]

/-- The bytes of a name as `altfs_readdir` passes it on, terminator included. -/
def nameBytes (name : CString) : List UInt8 := name.map Subtype.val ++ [0]

theorem nameBytes_inj {name name' : CString} :
    nameBytes name = nameBytes name' ↔ name = name' := by
  constructor
  · intro h
    exact List.map_injective_iff.mpr Subtype.val_injective (List.append_cancel_right h)
  · rintro rfl
    rfl

def joinNames : List CString → CString
  | [] => []
  | name :: names => slash :: name ++ joinNames names

def pathOf (names : List CString) : CString := if names = [] then [slash] else joinNames names

section

variable {name name' : CString} {names names' : List CString}

theorem joinNames_append (names names' : List CString) :
    joinNames (names ++ names') = joinNames names ++ joinNames names' := by
  induction names with
  | nil => rfl
  | cons name names ih => rw [List.cons_append, joinNames, joinNames, ih, List.append_assoc]

theorem pathOf_concat (names : List CString) (name : CString) :
    pathOf (names ++ [name]) = joinNames names ++ slash :: name := by
  rw [pathOf, if_neg (by simp), joinNames_append, joinNames, joinNames, List.append_nil]

/-- Inside a component no `/` is found, so the search ends in front of it. -/
private theorem lastSlashBefore_name (front : CString) (hname : name ≠ []) (hslash : slash ∉ name)
    {count : Nat} (hcount : count ≤ name.length) :
    lastSlashBefore (front ++ slash :: name) (front.length + 1 + count) = some front.length := by
  have hpos := List.length_pos_iff.mpr hname
  induction count with
  | zero =>
      rw [lastSlashBefore, if_pos]
      refine ⟨?_, ?_⟩
      · rw [List.getElem?_append_right le_rfl, Nat.sub_self]
        rfl
      · rw [List.length_append, List.length_cons]
        omega
  | succ count ih =>
      rw [← Nat.add_assoc, lastSlashBefore, if_neg, ih (by omega)]
      rintro ⟨hfound, -⟩
      apply hslash
      rw [List.getElem?_append_right (by omega)] at hfound
      have hindex : front.length + 1 + count - front.length = count + 1 := by omega
      rw [hindex, List.getElem?_cons_succ] at hfound
      exact List.mem_of_getElem? hfound

private theorem lastIndex_pathOf (hname : name ≠ []) (hslash : slash ∉ name) :
    getLastIndexOfParentPath (pathOf (names ++ [name])) = some (joinNames names).length := by
  have hlength : (joinNames names ++ slash :: name).length =
      (joinNames names).length + 1 + name.length := by
    rw [List.length_append, List.length_cons]
    omega
  rw [getLastIndexOfParentPath, pathOf_concat, hlength]
  exact lastSlashBefore_name _ hname hslash le_rfl

theorem copyParentPath_pathOf (hname : name ≠ []) (hslash : slash ∉ name) :
    copyParentPath (pathOf (names ++ [name])) = some (pathOf names) := by
  rw [copyParentPath, lastIndex_pathOf hname hslash, pathOf_concat]
  cases names with
  | nil => rfl
  | cons first rest =>
      have hlength : (joinNames (first :: rest)).length = (first ++ joinNames rest).length + 1 := rfl
      simp only [hlength]
      rw [← hlength, List.take_left, pathOf, if_neg (by simp)]

theorem copyFileName_pathOf (hname : name ≠ []) (hslash : slash ∉ name) :
    copyFileName (pathOf (names ++ [name])) = some name := by
  have hlast : (joinNames names ++ slash :: name).getLast? ≠ some slash := by
    intro heq
    apply hslash
    rw [List.getLast?_append, List.getLast?_cons, Option.some_or] at heq
    rw [← Option.some.inj heq, List.getLast?_eq_some_getLast hname, Option.getD_some]
    exact List.getLast_mem hname
  rw [copyFileName, lastIndex_pathOf hname hslash, pathOf_concat]
  simp only [if_neg hlast, List.take_length]
  congr 1
  rw [List.drop_append, List.drop_eq_nil_of_le (by omega)]
  have hindex : (joinNames names).length + 1 - (joinNames names).length = 1 := by omega
  rw [hindex]
  rfl

theorem pathOf_concat_ne_root (hname : name ≠ []) : pathOf (names ++ [name]) ≠ [slash] := by
  rw [pathOf_concat]
  intro heq
  have hlength := congrArg List.length heq
  have hpos := List.length_pos_iff.mpr hname
  rw [List.length_append, List.length_cons, List.length_singleton] at hlength
  omega

/-- Different components give different paths. -/
theorem pathOf_inj (h : ∀ name ∈ names, IsComponent name) (h' : ∀ name ∈ names', IsComponent name)
    (heq : pathOf names = pathOf names') : names = names' := by
  induction names using List.reverseRecOn generalizing names' with
  | nil =>
      cases names' using List.reverseRecOn with
      | nil => rfl
      | append_singleton front name =>
          have hname := h' name (List.mem_append_right _ List.mem_cons_self)
          exact absurd heq.symm (pathOf_concat_ne_root hname.ne_nil)
  | append_singleton front name ih =>
      have hname := h name (List.mem_append_right _ List.mem_cons_self)
      cases names' using List.reverseRecOn with
      | nil => exact absurd heq (pathOf_concat_ne_root hname.ne_nil)
      | append_singleton front' name' =>
          have hname' := h' name' (List.mem_append_right _ List.mem_cons_self)
          have hparent := congrArg copyParentPath heq
          have hfile := congrArg copyFileName heq
          rw [copyParentPath_pathOf hname.ne_nil hname.slash_notMem,
            copyParentPath_pathOf hname'.ne_nil hname'.slash_notMem] at hparent
          rw [copyFileName_pathOf hname.ne_nil hname.slash_notMem,
            copyFileName_pathOf hname'.ne_nil hname'.slash_notMem] at hfile
          rw [ih (fun other hother => h other (List.mem_append_left _ hother))
            (fun other hother => h' other (List.mem_append_left _ hother)) (Option.some.inj hparent),
            Option.some.inj hfile]

end

end AltFs
