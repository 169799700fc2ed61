import ScuDb.Index.Refinement

/-!
Contract: on every reachable tree of the project2 `BPlusTree`, slot 0's key of an internal page
off the leftmost spine is the separator that bounds its subtree from below, the key `KeyAt(i)` of
the nearest ancestor slot `i ≥ 1` on its path from the root (`reachable_slot_zero_separates`).
Internal `MoveFirstToEndOf`
(src/project/project2/scudb_initial/src/page/b_plus_tree_internal_page.cpp) relies on it when it
appends the right sibling's `(KeyAt(0), ValueAt(0))` to the left sibling.

Owns: the walk down by slot indices (`SlotPath`), that slot 0 keeps the lower bound of the
interval (`Linked.lo_of_slotPath_zeros`), and the statement `SlotZeroSeparates`.

Does not own: that the operations keep slot 0's key at the lower bound. That is the `firstKey`
condition of `InternalPlaced`, which `Insert` (`InsertIntoParent` with internal `MoveHalfTo`) and
`Remove` (`MoveAllTo`, `MoveFirstToEndOf`, `MoveLastToFrontOf` with `CopyFirstFrom`) keep:
`insert_spec`, `remove_spec`.

## Why the nearest slot `i ≥ 1`

Child `i ≥ 1` of a page starts at its parent's key `i`, and child 0 starts where its parent does
(`Fence.childOf_place`). So a page's lower bound is the key of the last slot `i ≥ 1` on its path,
and `firstKey` puts slot 0's key there once the page has a lower bound at all.
-/

set_option linter.unusedSectionVars false

namespace ScuDb.Index

open ScuDb.Buffer (invalidPageId)

variable {K V : Type} [LinearOrder K] [Zero K]

/-! ## The walk down by slot -/

/-- `SlotPath t pageId target slots`: from `pageId`, taking the child of slot `slots[0]`, then of
slot `slots[1]`, and so on, reaches `target`. -/
inductive SlotPath (t : BPlusTree K V) : Int → Int → List Nat → Prop
  | nil (pageId : Int) : SlotPath t pageId pageId []
  | cons {pageId target : Int} {page : BPlusTreeInternalPage K} {slot : Nat} {slots : List Nat} :
      t.pages pageId = some (.internal page) → slot < page.array.length →
      SlotPath t (childOf page.array slot) target slots → SlotPath t pageId target (slot :: slots)

/-- A walk by `front ++ back` passes the page `front` leads to. -/
theorem SlotPath.split {t : BPlusTree K V} : ∀ {pageId target : Int} {front back : List Nat},
    SlotPath t pageId target (front ++ back) →
      ∃ middle, SlotPath t pageId middle front ∧ SlotPath t middle target back
  | _, _, [], _, path => ⟨_, .nil _, path⟩
  | _, _, _ :: _, _, .cons stored inside rest =>
      let ⟨middle, front, back⟩ := rest.split
      ⟨middle, .cons stored inside front, back⟩

/-- Taking slot 0 keeps the lower bound of the interval. -/
theorem Linked.lo_of_slotPath_zeros {t : BPlusTree K V} {place : Int → Place K}
    (linked : Linked t place) : ∀ (n : Nat) {pageId target : Int},
      SlotPath t pageId target (List.replicate n 0) → (place target).lo = (place pageId).lo
  | 0, _, _, .nil _ => rfl
  | n + 1, _, _, .cons stored inside rest => by
      rw [linked.lo_of_slotPath_zeros n rest,
        (linked.internal _ _ stored).fence.childOf_place 0 inside, if_pos rfl]

/-! ## Slot 0's key -/

/-- Slot 0's key of an internal page `X` reached from slot `i ≥ 1` of an internal page `P`
through slot 0 only is `P.KeyAt(i)`; and for every internal page `X` off the leftmost spine, whose
path from the root is `pre ++ i :: [0, …, 0]` with `i ≥ 1`, that page `P` is the one `pre` leads
to. -/
def SlotZeroSeparates (t : BPlusTree K V) : Prop :=
  (∀ (P : Int) (nodeP : BPlusTreeInternalPage K) (i : Nat), t.pages P = some (.internal nodeP) →
    1 ≤ i → i < nodeP.array.length → ∀ (X : Int) (nodeX : BPlusTreeInternalPage K) (n : Nat),
      SlotPath t (childOf nodeP.array i) X (List.replicate n 0) →
        t.pages X = some (.internal nodeX) → nodeX.keyAt 0 = nodeP.keyAt i) ∧
  ∀ (X : Int) (nodeX : BPlusTreeInternalPage K) (pre : List Nat) (i n : Nat),
    SlotPath t t.rootPageId X (pre ++ i :: List.replicate n 0) → 1 ≤ i →
      t.pages X = some (.internal nodeX) →
        ∃ P nodeP, SlotPath t t.rootPageId P pre ∧ t.pages P = some (.internal nodeP) ∧
          i < nodeP.array.length ∧ nodeX.keyAt 0 = nodeP.keyAt i

section Separates

variable {t : BPlusTree K V}

/-- The first half of `SlotZeroSeparates` on a linked tree: the child of slot `i ≥ 1` starts at
key `i`, slot 0 keeps that start, and `firstKey` puts slot 0's key there. -/
theorem Linked.keyAt_zero_of_slotPath {place : Int → Place K} (linked : Linked t place)
    {P : Int} {nodeP : BPlusTreeInternalPage K} {i : Nat}
    (storedP : t.pages P = some (.internal nodeP)) (first : 1 ≤ i) (inside : i < nodeP.array.length)
    {X : Int} {nodeX : BPlusTreeInternalPage K} {n : Nat}
    (path : SlotPath t (childOf nodeP.array i) X (List.replicate n 0))
    (storedX : t.pages X = some (.internal nodeX)) : nodeX.keyAt 0 = nodeP.keyAt i := by
  have start : (place X).lo = some (keyOf nodeP.array i) := by
    rw [linked.lo_of_slotPath_zeros n path,
      (linked.internal _ _ storedP).fence.childOf_place i inside, if_neg (by omega)]
  have placedX := linked.internal _ _ storedX
  have nonempty : 0 < nodeX.array.length := by
    cases slots : nodeX.array with
    | nil => exact absurd placedX.fence (by rw [slots]; exact fence_nil _ _)
    | cons _ _ => simp
  rcases placedX.firstKey with unbounded | bound
  · rw [start] at unbounded; cases unbounded
  · rw [show nodeX.keyAt 0 = _ from BPlusTreeInternalPage.keyAt_eq nonempty,
      BPlusTreeInternalPage.keyAt_eq inside,
      ← keyOf_eq_getElem, ← keyOf_eq_getElem, Option.some_inj.1 (bound.symm.trans start)]

/-- **On every reachable tree, slot 0's key of an internal page off the leftmost spine is its
lower separator.** -/
theorem reachable_slot_zero_separates (reach : Reachable t) : SlotZeroSeparates t := by
  obtain ⟨⟨place, linked⟩, -, -, -⟩ := reach.valid
  refine ⟨fun P nodeP i storedP first inside X nodeX n path storedX =>
    linked.keyAt_zero_of_slotPath storedP first inside path storedX,
    fun X nodeX pre i n path first storedX => ?_⟩
  obtain ⟨P, toP, fromP⟩ := path.split
  cases fromP with
  | cons storedP inside rest =>
      exact ⟨P, _, toP, storedP, inside,
        linked.keyAt_zero_of_slotPath storedP first inside rest storedX⟩

/-- The tree of six ascending inserts: the internal page `7` is off the leftmost spine, below
slot 1 of the root, and its slot 0 holds that slot's key `30`. -/
theorem reachable_slot_zero_separates_three_levels :
    ∃ t replies, treeRun (BPlusTree.empty 2 4 1) (ascendingInserts 6) = .ok (t, replies) ∧
      (t.rootPageId = 8 ∧ t.pages 8 = some (.internal ⟨invalidPageId, [(0, 3), (30, 7)]⟩) ∧
        t.pages 7 = some (.internal ⟨8, [(30, 4), (40, 5), (50, 6)]⟩)) ∧ SlotZeroSeparates t := by
  obtain ⟨replies, ran, reach⟩ := treeRun_ascendingInserts_six
  exact ⟨sixInsertTree, replies, ran, by decide, reachable_slot_zero_separates reach⟩

end Separates

end ScuDb.Index
