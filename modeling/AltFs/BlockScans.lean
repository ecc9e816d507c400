import AltFs.AppendRuns

/-!
# Scanning the blocks of a file

A loop over positions of a file hands one `prev_indirect_block` from each
lookup to the next.  Every block it gets is the one a lookup of its own finds.
-/

namespace AltFs

section

variable [Config]

/-- Look up `count` positions from `position` on with one `prev_indirect_block`. -/
def scanBlocks (node : Inode) : Nat → Nat → Int64 → Fs (List Int64)
  | 0, _, _ => pure []
  | count + 1, position, prevIndirectBlock => do
      let (block, prevIndirectBlock) ←
        getDiskBlockFromInodeBlock node position prevIndirectBlock
      let blocks ← scanBlocks node count (position + 1) prevIndirectBlock
      pure (block :: blocks)

variable {s : FileSystem} {node : Inode} {n : Nat}

theorem Inode.WellMapped.lookup (h : node.WellMapped s n) {i : Nat} (hi : i < n) {prev : Int64}
    (hprev : PrevValid s node i prev) :
    ∃ prev', getDiskBlockFromInodeBlock node i prev s = some ((node.blockAt s i, prev'), s) ∧
      PrevValid s node (i + 1) prev' := by
  apply getDiskBlockFromInodeBlock_run h.data h.mapped _ hprev
  rw [h.blocksNum]
  exact Int.ofNat_lt.mpr hi

/-- The variable stays right from one position to the next, so the scan sees every block. -/
theorem scanBlocks_run (h : node.WellMapped s n) {count position : Nat}
    (hend : position + count ≤ n) {prev : Int64} (hprev : PrevValid s node position prev) :
    scanBlocks node count position prev s =
      some ((List.range' position count).map (node.blockAt s), s) := by
  induction count generalizing position prev with
  | zero => rfl
  | succ count ih =>
      obtain ⟨prev', hlookup, hprev'⟩ := h.lookup (show position < n by omega) hprev
      have hrest := ih (by omega) hprev'
      rw [scanBlocks, Prog.bind_of_eq hlookup]
      simp only [Prog.bind_of_eq hrest, Prog.pure_apply, List.range'_succ, List.map_cons]

/--
A scan of the positions `start` to `last` that begins with
`prev_indirect_block = 0` and passes it on finds at every position the block
that a lookup with `prev_indirect_block = 0` finds there.
-/
theorem scanBlocks_eq_lookups (h : node.WellMapped s n) {start last : Nat}
    (hstart : start ≤ last) (hlast : last < n) :
    ∃ blocks, scanBlocks node (last + 1 - start) start 0 s = some (blocks, s) ∧
      blocks.length = last + 1 - start ∧
      ∀ i, (hi : i < blocks.length) →
        ∃ prev, getDiskBlockFromInodeBlock node (start + i) 0 s = some ((blocks[i], prev), s) := by
  refine ⟨_, scanBlocks_run h (by omega) (prevValid_zero s node start), by simp, fun i hi => ?_⟩
  have hi : i < last + 1 - start := by simpa using hi
  obtain ⟨prev, hlookup, -⟩ := h.lookup (show start + i < n by omega) (prevValid_zero s node _)
  refine ⟨prev, ?_⟩
  rw [hlookup, List.getElem_map, List.getElem_range', Nat.one_mul]

end

/-- A scan of a file of 600 blocks across the end of the single-indirect level. -/
theorem scanBlocks_600 :
    letI := Config.ofBlocks 4000 (by decide)
    ∃ s node, node.WellMapped s 600 ∧
      ∃ blocks, scanBlocks node 80 510 0 s = some (blocks, s) ∧ blocks.length = 80 ∧
        ∀ i, (hi : i < blocks.length) →
          ∃ prev, getDiskBlockFromInodeBlock node (510 + i) 0 s = some ((blocks[i], prev), s) := by
  let _ := Config.ofBlocks 4000 (by decide)
  obtain ⟨_, _, _, s, node, _, -, -, -, -, hwell, -⟩ :=
    @exists_file _ 600 (by decide) (by decide) (by simp only [maxBlocksNum]; omega) (by decide)
  exact ⟨s, node, hwell, scanBlocks_eq_lookups hwell (show 510 ≤ 589 by omega) (by omega)⟩

end AltFs
