import AltFs.FreeList

/-!
# Owned blocks

`Owned s free held`: the free blocks are those of `free`, and beside them the
blocks of `held` are in use, each by one owner.  A function that works on some
of the held blocks is specified with the others in `held` as they are: they
stay held, and their contents do not change.
-/

namespace AltFs

variable [Config]

structure Owned (s : FileSystem) (free held : Multiset Int64) : Prop where
  freeList : FreeList s free
  nodup : (free + held).Nodup
  data : ∀ b ∈ held, DataBlock b

namespace Owned

variable {s s' : FileSystem} {free held held' : Multiset Int64} {b : Int64}

theorem mono (h : Owned s free held) (hle : held' ≤ held) : Owned s free held' where
  freeList := h.freeList
  nodup := Multiset.nodup_of_le (Multiset.add_le_add_left hle) h.nodup
  data b hb := h.data b (Multiset.mem_of_le hle hb)

theorem not_free (h : Owned s free held) (hb : b ∈ held) : b ∉ free := fun hfree =>
  Multiset.disjoint_left.mp (Multiset.nodup_add.mp h.nodup).2.2 hfree hb

theorem held_nodup (h : Owned s free held) : held.Nodup :=
  (Multiset.nodup_add.mp h.nodup).2.1

theorem head_eq_zero_iff (h : Owned s free held) :
    s.superblock.sFreelistHead = 0 ↔ free = 0 := h.freeList.head_eq_zero_iff

/-- Contents of held blocks outside the frame stay. -/
theorem disk_eq (h : Owned s free held) {S : Multiset Int64} (hframe : DataFrame S s s')
    (hb : b ∈ held) (hS : b ∉ S) : s'.disk b = s.disk b :=
  hframe.disk b (h.data b hb).ne_zero hS

/-- Writing held blocks leaves the ownership as it is. -/
theorem write (h : Owned s free held) (block : Block) (hb : b ∈ held) :
    Owned (s.writeDisk b block) free held where
  freeList := h.freeList.frame rfl fun a ha => by
    refine disk_writeDisk_ne ?_
    rintro rfl
    exact h.not_free hb ha
  nodup := h.nodup
  data := h.data

theorem allocate (h : Owned s free held) (hne : free ≠ 0) :
    ∃ b free' s', allocateDataBlock s = some (b, s') ∧ free = b ::ₘ free' ∧
      Owned s' free' (b ::ₘ held) ∧ s'.disk b = Block.zero ∧ DataFrame free s s' := by
  obtain ⟨b, free', s', hrun, rfl, hlist, hzero, hframe⟩ :=
    allocateDataBlock_spec h.freeList fun hhead => hne (h.head_eq_zero_iff.mp hhead)
  refine ⟨b, free', s', hrun, rfl, ⟨hlist, ?_, fun a ha => ?_⟩, hzero, hframe⟩
  · have hnodup := h.nodup
    rwa [Multiset.cons_add, ← Multiset.add_cons] at hnodup
  · rcases Multiset.mem_cons.mp ha with rfl | ha
    · exact h.freeList.data a (Multiset.mem_cons_self _ _)
    · exact h.data a ha

theorem allocate_empty (h : Owned s 0 held) : allocateDataBlock s = some (-1, s) :=
  allocateDataBlock_empty (h.head_eq_zero_iff.mpr rfl)

theorem release (h : Owned s free (b ::ₘ held)) (hne : free ≠ 0) :
    ∃ s', freeDataBlock b s = some (true, s') ∧ Owned s' (b ::ₘ free) held ∧
      DataFrame (b ::ₘ free) s s' := by
  obtain ⟨s', hrun, hlist, -, hframe⟩ :=
    freeDataBlock_spec h.freeList (fun hhead => hne (h.head_eq_zero_iff.mp hhead))
      (h.data b (Multiset.mem_cons_self _ _)) (h.not_free (Multiset.mem_cons_self _ _))
  refine ⟨s', hrun, ⟨hlist, ?_, fun a ha => h.data a (Multiset.mem_cons_of_mem ha)⟩, hframe⟩
  have hnodup := h.nodup
  rwa [Multiset.add_cons, ← Multiset.cons_add] at hnodup

end Owned

end AltFs
