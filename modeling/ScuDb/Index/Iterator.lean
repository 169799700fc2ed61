import ScuDb.Index.BPlusTree

/-!
Contract: `Begin(key)` of the project2 `BPlusTree` (src/project/project2/scudb_initial/src/index/
b_plus_tree.cpp) and the scan that `operator*` and `operator++` make from the iterator it returns.

Owns: the slot `Begin(key)` stands on in the leaf `FindLeafPage(key)` selects, and what
`operator*` reads there.

Does not own: the layout of the leaves the scan walks (`ScuDb.Index.Shape`).

## Model

`Begin(key)` takes `KeyIndex(key)`, the first slot of the leaf whose key is at least `key`, and
never moves on to the next leaf. When every key of the leaf is below `key`, that slot is
`GetSize()`: the iterator is not at its end, and `operator*` fails `GetItem`'s bound check.
-/

namespace ScuDb.Index

open ScuDb.Buffer (invalidPageId)

variable {K V : Type} [LinearOrder K] [Zero K]

/-! ## `KeyIndex` past the last key -/

/-- On sorted slots whose keys all lie below `key`, `KeyIndex(key)` is `GetSize()`. -/
theorem BPlusTreeLeafPage.keyIndex_eq_length {page : BPlusTreeLeafPage K V}
    (sorted : (page.array.map Prod.fst).Sorted (· < ·)) {key : K}
    (allBelow : ∀ entry ∈ page.array, entry.1 < key) :
    page.keyIndex key = page.array.length := by
  obtain ⟨nonneg, atMost, -, above⟩ := keyIndex_spec key sorted
  by_contra short
  have inside : (page.keyIndex key).toNat < page.array.length := by omega
  have atLeast := above _ (by omega) inside
  rw [keyOf_eq_getElem inside] at atLeast
  exact absurd (allBelow _ (List.getElem_mem inside)) (not_lt.2 atLeast)

/-! ## `Begin(key)` -/

namespace BPlusTree

theorem beginAt_eq {t : BPlusTree K V} {key : K} {leafPageId : Int} {leaf : BPlusTreeLeafPage K V}
    (found : t.findLeafPage key false = .ok (some leafPageId))
    (stored : t.pages leafPageId = some (.leaf leaf)) :
    t.beginAt key = .ok ⟨some leafPageId, (leaf.keyIndex key).toNat⟩ := by
  simp [beginAt, found, fetchLeaf_eq stored, bind, Except.bind, Functor.map, Except.map, pure,
    Except.pure]

end BPlusTree

namespace IndexIterator

/-- `operator*` past the last slot of its leaf fails `GetItem`'s bound check. -/
theorem deref_eq_error {t : BPlusTree K V} {leafPageId : Int} {leaf : BPlusTreeLeafPage K V}
    (stored : t.pages leafPageId = some (.leaf leaf)) {index : Nat} (past : leaf.array.length ≤ index) :
    deref t ⟨some leafPageId, index⟩ = .error "assert(index >= 0 && index < GetSize())" := by
  simp [deref, BPlusTree.fetchLeaf_eq stored, BPlusTreeLeafPage.getItem,
    List.getElem?_eq_none past, bind, Except.bind]

end IndexIterator

/-- **`Begin(key)` past the keys of its leaf.** When every key of the sorted leaf `FindLeafPage(key)`
selects lies below `key`, `Begin(key)` stands on that leaf at slot `GetSize()`: it is not at its
end, and `operator*` fails `GetItem`'s bound check, so the scan from it reads no entry. -/
theorem beginAt_past_leaf {t : BPlusTree K V} {key : K} {leafPageId : Int}
    {leaf : BPlusTreeLeafPage K V} (found : t.findLeafPage key false = .ok (some leafPageId))
    (stored : t.pages leafPageId = some (.leaf leaf))
    (sorted : (leaf.array.map Prod.fst).Sorted (· < ·)) (allBelow : ∀ entry ∈ leaf.array, entry.1 < key) :
    t.beginAt key = .ok ⟨some leafPageId, leaf.array.length⟩ ∧
      IndexIterator.isEnd ⟨some leafPageId, leaf.array.length⟩ = false ∧
      ∀ fuel, IndexIterator.scan t (fuel + 1) ⟨some leafPageId, leaf.array.length⟩ =
        .error "assert(index >= 0 && index < GetSize())" := by
  have begins := BPlusTree.beginAt_eq found stored
  rw [BPlusTreeLeafPage.keyIndex_eq_length sorted allBelow, Int.toNat_ofNat] at begins
  refine ⟨begins, rfl, fun fuel => ?_⟩
  simp [IndexIterator.scan, IndexIterator.isEnd, IndexIterator.deref_eq_error stored le_rfl, bind,
    Except.bind]

/-- The tree `Insert(1, 10)` makes from the empty tree, leaves of 253 slots and internal pages of
338 (`GenericKey<8>` with `RID` values), holds its one entry in the root leaf, page 1. -/
theorem startNewTree_one_entry :
    ((BPlusTree.empty 253 338 1 : BPlusTree Nat Nat).startNewTree 1 10).pages 1 =
      some (.leaf ⟨invalidPageId, invalidPageId, [(1, 10)]⟩) := by
  simp [BPlusTree.empty]

/-- From the tree holding the one key 1, `Begin(5)` stands on slot 1 of the one leaf, which holds
one entry: the scan from it fails `GetItem`'s bound check instead of reading the (no) entries from
key 5 on. -/
theorem beginAt_past_last_key :
    ∃ t, (BPlusTree.empty 253 338 1 : BPlusTree Nat Nat).insert 1 10 = .ok (t, true) ∧
      t.beginAt 5 = .ok ⟨some 1, 1⟩ ∧ IndexIterator.isEnd ⟨some 1, 1⟩ = false ∧
      IndexIterator.deref t ⟨some 1, 1⟩ = .error "assert(index >= 0 && index < GetSize())" ∧
      ∀ fuel, IndexIterator.scan t (fuel + 1) ⟨some 1, 1⟩ =
        .error "assert(index >= 0 && index < GetSize())" := by
  have found : ((BPlusTree.empty 253 338 1 : BPlusTree Nat Nat).startNewTree 1 10).findLeafPage 5 false =
      .ok (some 1) := rfl
  have past := beginAt_past_leaf found startNewTree_one_entry (by simp) (by simp)
  exact ⟨_, rfl, past.1, past.2.1, IndexIterator.deref_eq_error startNewTree_one_entry le_rfl, past.2.2⟩

end ScuDb.Index
