import ScuDb.Index.Merge

/-!
Contract: `Remove` of the project2 `BPlusTree` (src/project/project2/scudb_initial/src/index/
b_plus_tree.cpp) on a valid tree returns, deletes the entry of its key and leaves the tree
valid (`remove_spec`).

Owns: what the page methods of deletion compute on the pages of a linked tree (one equation per
method), the underflow `CoalesceOrRedistribute` is called on (`Underflows`), the three ways a
pass ends (`AdjustRoot` at the root, a merge, a redistribution) and the cascade up the tree
(`cascadeFramed`).

Does not own: the layout lemmas these rest on (`ScuDb.Index.Merge`).

## The cascade

A pass of `CoalesceOrRedistribute` at a page below the root either merges the page with a
sibling, which takes one slot out of the parent and may leave the parent underflowing, or moves
one entry over from the sibling and stops. `Coalesce` then runs the next pass on the parent, one
level up, so two units of fuel take the cascade one level closer to the root; `Remove` gives it
`2 * (next_page_id + 1)`, more than twice the root's height.
-/

set_option linter.unusedSectionVars false

namespace ScuDb.Index

open ScuDb.Buffer (invalidPageId)

variable {K V : Type} [LinearOrder K] [Zero K]

/-! ## The page methods on slots in range -/

theorem BPlusTreeLeafPage.getItem_eq {page : BPlusTreeLeafPage K V} {i : Nat}
    (inside : i < page.array.length) : page.getItem i = .ok page.array[i] := by
  simp [BPlusTreeLeafPage.getItem, inside, Int.ofNat_nonneg]

theorem BPlusTreeLeafPage.copyLastFrom_eq {page : BPlusTreeLeafPage K V} {maxSize : Nat}
    (room : page.array.length < maxSize) (item : K × V) :
    page.copyLastFrom item maxSize = .ok { page with array := page.array ++ [item] } := by
  simp [BPlusTreeLeafPage.copyLastFrom, room]

namespace BPlusTreeInternalPage

theorem valueAt_eq {page : BPlusTreeInternalPage K} {i : Nat} (inside : i < page.array.length) :
    page.valueAt i = .ok page.array[i].2 := by
  simp [valueAt, inside, Int.ofNat_nonneg]

theorem keyAt_eq {page : BPlusTreeInternalPage K} {i : Nat} (inside : i < page.array.length) :
    page.keyAt i = .ok page.array[i].1 := by
  simp [keyAt, inside, Int.ofNat_nonneg]

/-- `SetKeyAt(i, key)` replaces the key of slot `i` and keeps its child. -/
theorem setKeyAt_eq {page : BPlusTreeInternalPage K} {i : Nat} (inside : i < page.array.length)
    (key : K) : page.setKeyAt i key = .ok { page with
      array := page.array.take i ++ (key, page.array[i].2) :: page.array.drop (i + 1) } := by
  simp only [setKeyAt, List.modify_eq_take_drop, Int.toNat_ofNat]
  rw [if_pos ⟨by omega, by omega⟩, List.drop_eq_getElem_cons inside]
  rfl

theorem remove_eq {page : BPlusTreeInternalPage K} {i : Nat} (inside : i < page.array.length) :
    page.remove i = .ok { page with array := page.array.eraseIdx i } := by
  simp only [remove]
  rw [if_pos ⟨by omega, by omega⟩]
  simp

theorem removeAndReturnOnlyChild_eq {page : BPlusTreeInternalPage K} {key : K} {child : Int}
    (only : page.array = [(key, child)]) :
    page.removeAndReturnOnlyChild = .ok (child, { page with array := [] }) := by
  simp [removeAndReturnOnlyChild, valueAt, only, bind, Except.bind, pure, Except.pure]

theorem copyLastFrom_eq {page : BPlusTreeInternalPage K} {maxSize : Nat}
    (room : page.array.length < maxSize) (pair : K × Int) :
    page.copyLastFrom pair maxSize = .ok { page with array := page.array ++ [pair] } := by
  simp [copyLastFrom, room]

end BPlusTreeInternalPage

theorem take_append_cons_succ {α : Type} (front : List α) (x : α) (rest : List α) :
    (front ++ x :: rest).take (front.length + 1) = front ++ [x] := by
  simp [List.take_append_eq_append_take]

theorem drop_append_cons_succ {α : Type} (front : List α) (x : α) (rest : List α) :
    (front ++ x :: rest).drop (front.length + 1) = rest := by
  simp [List.drop_append_eq_append_drop]

theorem keyOf_append_cons_succ {α : Type} (front : List (K × α)) (x : K × α)
    (rest : List (K × α)) : keyOf (front ++ x :: rest) (front.length + 1) = keyOf rest 0 := by
  induction front with
  | nil => simp [keyOf]
  | cons y front inductionHypothesis => simpa [keyOf] using inductionHypothesis

theorem keyOf_append_cons {α : Type} (front : List (K × α)) (x : K × α) (rest : List (K × α)) :
    keyOf (front ++ x :: rest) front.length = x.1 := by
  induction front with
  | nil => simp [keyOf]
  | cons y front inductionHypothesis => simpa [keyOf] using inductionHypothesis

/-! ## The tree methods of deletion on a linked tree -/

namespace BPlusTree

section Methods

variable {t : BPlusTree K V}

theorem fetchPage_writePage_of_ne {pageId other : Int} (differs : other ≠ pageId)
    (page : BPlusTreePage K V) : (t.writePage pageId page).fetchPage other = t.fetchPage other := by
  simp [fetchPage, differs]

theorem fetchLeaf_writePage_of_ne {pageId other : Int} (differs : other ≠ pageId)
    (page : BPlusTreePage K V) : (t.writePage pageId page).fetchLeaf other = t.fetchLeaf other := by
  simp [fetchLeaf, fetchPage_writePage_of_ne differs]

theorem fetchInternal_writePage_of_ne {pageId other : Int} (differs : other ≠ pageId)
    (page : BPlusTreePage K V) :
    (t.writePage pageId page).fetchInternal other = t.fetchInternal other := by
  simp [fetchInternal, fetchPage_writePage_of_ne differs]

/-- `FindLeftSibling` of the child of slot `j`: the child of slot 1 and `true` for the first
child, the child of slot `j - 1` and `false` otherwise. -/
theorem findLeftSibling_eq {N : Int} {page : BPlusTreePage K V} {parent : BPlusTreeInternalPage K}
    {j : Nat} (stored : t.pages N = some page)
    (storedP : t.pages page.parentPageId = some (.internal parent))
    (distinct : (children parent.array).Nodup) (inside : j < parent.array.length)
    (slot : parent.array[j].2 = N) (twoSlots : 2 ≤ parent.array.length) :
    t.findLeftSibling N = .ok (decide (j = 0), childOf parent.array (if j = 0 then 1 else j - 1)) := by
  have index : parent.valueIndex N = j :=
    slot ▸ BPlusTreeInternalPage.valueIndex_getElem distinct inside
  simp only [findLeftSibling, fetchPage_eq stored, fetchInternal_eq storedP, index, bind,
    Except.bind, pure, Except.pure]
  rcases j with _ | j
  · simp [BPlusTreeInternalPage.valueAt, childOf_eq_getElem (by omega : 1 < parent.array.length),
      List.getElem?_eq_getElem (by omega : 1 < parent.array.length)]
  · have before : j < parent.array.length := by omega
    simp [BPlusTreeInternalPage.valueAt, childOf_eq_getElem before, List.getElem?_eq_getElem before,
      show (j : Int) + 1 ≠ 0 by omega, Int.ofNat_nonneg]

/-- `MoveAllTo` of a leaf `B` into the leaf `A`. -/
theorem moveAllTo_leaf_eq {A B : Int} {leafA leafB : BPlusTreeLeafPage K V}
    (storedA : t.pages A = some (.leaf leafA)) (storedB : t.pages B = some (.leaf leafB))
    (index : Int) : t.moveAllTo B A index =
      .ok ((t.writePage B (.leaf { leafB with array := [] })).writePage A
        (.leaf { leafA with array := leafA.array ++ leafB.array, nextPageId := leafB.nextPageId })) := by
  simp [moveAllTo, fetchPage_eq storedB, fetchLeaf_eq storedA, BPlusTreeLeafPage.moveAllTo, bind,
    Except.bind, pure, Except.pure]

/-- `MoveAllTo` of an internal page `B` into the internal page `A`: `B`'s slot 0 takes the key
of slot `i` of its parent, and `B`'s children are re-parented to `A`. -/
theorem moveAllTo_internal_eq {A B : Int} {nodeA nodeB parent : BPlusTreeInternalPage K} {i : Nat}
    {keyB : K} {firstB : Int} {restB : List (K × Int)}
    (storedA : t.pages A = some (.internal nodeA)) (storedB : t.pages B = some (.internal nodeB))
    (storedP : t.pages nodeB.parentPageId = some (.internal parent))
    (inside : i < parent.array.length) (slotsB : nodeB.array = (keyB, firstB) :: restB)
    (childrenStored : ∀ child ∈ children nodeB.array, t.pages child ≠ none) :
    t.moveAllTo B A i = .ok (((t.reparented (children nodeB.array) A).writePage A
      (.internal { nodeA with array := nodeA.array ++ (parent.array[i].1, firstB) :: restB })).writePage
      B (.internal { nodeB with array := [] })) := by
  have setKey : nodeB.setKeyAt 0 parent.array[i].1 =
      .ok { nodeB with array := (parent.array[i].1, firstB) :: restB } := by
    simp [BPlusTreeInternalPage.setKeyAt, slotsB]
  have moved : ((parent.array[i].1, firstB) :: restB).map Prod.snd = children nodeB.array := by
    simp [children, slotsB]
  simp only [moveAllTo, fetchPage_eq storedB, BPlusTreeInternalPage.moveAllTo,
    fetchInternal_eq storedB, fetchInternal_eq storedP, BPlusTreeInternalPage.keyAt_eq inside,
    setKey, fetchInternal_eq storedA, moved, reparent_eq A t _ childrenStored, bind, Except.bind,
    pure, Except.pure]

/-- Leaf `MoveFirstToEndOf`: the first entry of `B`, the child of slot `i` of its parent, goes to
the end of `A`, and slot `i` takes the new first key of `B`. -/
theorem moveFirstToEndOf_leaf_eq {A B : Int} {leafA leafB : BPlusTreeLeafPage K V}
    {parent : BPlusTreeInternalPage K} {i : Nat} {first : K × V} {rest : List (K × V)}
    (storedA : t.pages A = some (.leaf leafA)) (storedB : t.pages B = some (.leaf leafB))
    (storedP : t.pages leafB.parentPageId = some (.internal parent))
    (distinct : (children parent.array).Nodup) (inside : i < parent.array.length)
    (slotB : parent.array[i].2 = B) (slotsB : leafB.array = first :: rest) (differs : A ≠ B)
    (differsA : leafB.parentPageId ≠ A) (differsB : leafB.parentPageId ≠ B)
    (room : leafA.array.length < t.leafMaxSize) :
    BPlusTreeLeafPage.moveFirstToEndOf t B A = .ok
      (((t.writePage B (.leaf { leafB with array := rest })).writePage A
        (.leaf { leafA with array := leafA.array ++ [first] })).writePage leafB.parentPageId
        (.internal { parent with array := parent.array.take i ++
          (keyOf rest 0, B) :: parent.array.drop (i + 1) })) := by
  have index : parent.valueIndex B = i :=
    slotB ▸ BPlusTreeInternalPage.valueIndex_getElem distinct inside
  have item : leafB.getItem 0 = .ok first := by simp [BPlusTreeLeafPage.getItem, slotsB]
  simp only [BPlusTreeLeafPage.moveFirstToEndOf, fetchLeaf_eq storedB, item, slotsB, List.tail_cons,
    fetchLeaf_writePage_of_ne differs, fetchLeaf_eq storedA, writePage_leafMaxSize,
    BPlusTreeLeafPage.copyLastFrom_eq room, fetchInternal_writePage_of_ne differsA,
    fetchInternal_writePage_of_ne differsB, fetchInternal_eq storedP, index,
    BPlusTreeInternalPage.setKeyAt_eq inside, slotB, bind, Except.bind, pure, Except.pure]

/-- Leaf `MoveLastToFrontOf`: the last entry of `A` goes first in `B`, the child of slot `i` of
its parent, and slot `i` takes its key. -/
theorem moveLastToFrontOf_leaf_eq {A B : Int} {leafA leafB : BPlusTreeLeafPage K V}
    {parent : BPlusTreeInternalPage K} {i : Nat} {front : List (K × V)} {last : K × V}
    (storedA : t.pages A = some (.leaf leafA)) (storedB : t.pages B = some (.leaf leafB))
    (storedP : t.pages leafB.parentPageId = some (.internal parent))
    (inside : i < parent.array.length) (slotB : parent.array[i].2 = B)
    (slotsA : leafA.array = front ++ [last]) (differs : A ≠ B)
    (differsA : leafB.parentPageId ≠ A) (differsB : leafB.parentPageId ≠ B) :
    BPlusTreeLeafPage.moveLastToFrontOf t A B i = .ok
      (((t.writePage A (.leaf { leafA with array := front })).writePage B
        (.leaf { leafB with array := last :: leafB.array })).writePage leafB.parentPageId
        (.internal { parent with array := parent.array.take i ++
          (last.1, B) :: parent.array.drop (i + 1) })) := by
  have item : leafA.getItem (leafA.array.length - 1) = .ok last := by
    simp [BPlusTreeLeafPage.getItem, slotsA, Int.ofNat_nonneg]
  have dropped : leafA.array.dropLast = front := by simp [slotsA]
  simp only [BPlusTreeLeafPage.moveLastToFrontOf, BPlusTreeLeafPage.copyFirstFrom,
    fetchLeaf_eq storedA, item, dropped, fetchLeaf_writePage_of_ne (Ne.symm differs),
    fetchLeaf_eq storedB, fetchInternal_writePage_of_ne differsA,
    fetchInternal_writePage_of_ne differsB, fetchInternal_eq storedP,
    BPlusTreeInternalPage.setKeyAt_eq inside, slotB, bind, Except.bind, pure, Except.pure]
  simp [keyOf]

/-- Internal `MoveFirstToEndOf`: the first slot of `B`, the child of slot `i` of its parent, goes
to the end of `A`, its child re-parented to `A`, and slot `i` takes the new first key of `B`. -/
theorem moveFirstToEndOf_internal_eq {A B : Int} {nodeA nodeB parent : BPlusTreeInternalPage K}
    {i : Nat} {first : K × Int} {rest : List (K × Int)} {pageC : BPlusTreePage K V}
    (storedA : t.pages A = some (.internal nodeA)) (storedB : t.pages B = some (.internal nodeB))
    (storedP : t.pages nodeB.parentPageId = some (.internal parent))
    (storedC : t.pages first.2 = some pageC)
    (distinct : (children parent.array).Nodup) (inside : i < parent.array.length)
    (slotB : parent.array[i].2 = B) (slotsB : nodeB.array = first :: rest) (differs : A ≠ B)
    (differsA : nodeB.parentPageId ≠ A) (differsB : nodeB.parentPageId ≠ B)
    (differsCA : first.2 ≠ A) (differsCB : first.2 ≠ B) (differsPC : nodeB.parentPageId ≠ first.2)
    (room : nodeA.array.length < t.internalMaxSize) :
    BPlusTreeInternalPage.moveFirstToEndOf t B A = .ok
      ((((t.writePage B (.internal { nodeB with array := rest })).writePage A
        (.internal { nodeA with array := nodeA.array ++ [first] })).writePage first.2
          (pageC.setParentPageId A)).writePage nodeB.parentPageId
        (.internal { parent with array := parent.array.take i ++
          (keyOf rest 0, B) :: parent.array.drop (i + 1) })) := by
  have index : parent.valueIndex B = i :=
    slotB ▸ BPlusTreeInternalPage.valueIndex_getElem distinct inside
  have key : nodeB.keyAt 0 = .ok first.1 := by simp [BPlusTreeInternalPage.keyAt, slotsB]
  have child : nodeB.valueAt 0 = .ok first.2 := by simp [BPlusTreeInternalPage.valueAt, slotsB]
  simp only [BPlusTreeInternalPage.moveFirstToEndOf, fetchInternal_eq storedB, key, child, slotsB,
    List.tail_cons, fetchInternal_writePage_of_ne differs, fetchInternal_eq storedA,
    writePage_internalMaxSize, BPlusTreeInternalPage.copyLastFrom_eq room, setParentPageId,
    fetchPage_writePage_of_ne differsCA, fetchPage_writePage_of_ne differsCB, fetchPage_eq storedC,
    fetchInternal_writePage_of_ne differsPC, fetchInternal_writePage_of_ne differsA,
    fetchInternal_writePage_of_ne differsB, fetchInternal_eq storedP, index,
    BPlusTreeInternalPage.setKeyAt_eq inside, slotB, bind, Except.bind, pure, Except.pure]

/-- Internal `MoveLastToFrontOf`: the last slot of `A` goes first in `B`, the child of slot `i` of
its parent, its child re-parented to `B`, and slot `i` takes its key. -/
theorem moveLastToFrontOf_internal_eq {A B : Int} {nodeA nodeB parent : BPlusTreeInternalPage K}
    {i : Nat} {front : List (K × Int)} {last : K × Int} {pageC : BPlusTreePage K V}
    (storedA : t.pages A = some (.internal nodeA)) (storedB : t.pages B = some (.internal nodeB))
    (storedP : t.pages nodeB.parentPageId = some (.internal parent))
    (storedC : t.pages last.2 = some pageC)
    (inside : i < parent.array.length) (slotB : parent.array[i].2 = B)
    (slotsA : nodeA.array = front ++ [last]) (differs : A ≠ B)
    (differsA : nodeB.parentPageId ≠ A) (differsB : nodeB.parentPageId ≠ B)
    (differsCA : last.2 ≠ A) (differsCB : last.2 ≠ B) (differsPC : nodeB.parentPageId ≠ last.2) :
    BPlusTreeInternalPage.moveLastToFrontOf t A B i = .ok
      ((((t.writePage A (.internal { nodeA with array := front })).writePage B
        (.internal { nodeB with array := last :: nodeB.array })).writePage last.2
          (pageC.setParentPageId B)).writePage nodeB.parentPageId
        (.internal { parent with array := parent.array.take i ++
          (last.1, B) :: parent.array.drop (i + 1) })) := by
  have key : nodeA.keyAt (nodeA.array.length - 1) = .ok last.1 := by
    simp [BPlusTreeInternalPage.keyAt, slotsA, Int.ofNat_nonneg]
  have child : nodeA.valueAt (nodeA.array.length - 1) = .ok last.2 := by
    simp [BPlusTreeInternalPage.valueAt, slotsA, Int.ofNat_nonneg]
  have dropped : nodeA.array.dropLast = front := by simp [slotsA]
  simp only [BPlusTreeInternalPage.moveLastToFrontOf, BPlusTreeInternalPage.copyFirstFrom,
    fetchInternal_eq storedA, key, child, dropped, fetchInternal_writePage_of_ne (Ne.symm differs),
    fetchInternal_eq storedB, setParentPageId, fetchPage_writePage_of_ne differsCA,
    fetchPage_writePage_of_ne differsCB, fetchPage_eq storedC,
    fetchInternal_writePage_of_ne differsPC, fetchInternal_writePage_of_ne differsA,
    fetchInternal_writePage_of_ne differsB, fetchInternal_eq storedP,
    BPlusTreeInternalPage.setKeyAt_eq inside, slotB, bind, Except.bind, pure, Except.pure]
  simp [keyOf]

/-- `AdjustRoot` of an empty root leaf empties the tree. -/
theorem adjustRoot_leaf_eq {R : Int} {leaf : BPlusTreeLeafPage K V}
    (stored : t.pages R = some (.leaf leaf)) (rootParent : leaf.parentPageId = invalidPageId)
    (empty : leaf.array = []) :
    t.adjustRoot R = .ok ({ t with rootPageId := invalidPageId }, true) := by
  simp [adjustRoot, fetchPage_eq stored, rootParent, empty, bind, Except.bind, pure, Except.pure]

/-- `AdjustRoot` of an internal root with one child hands the root over to the child. -/
theorem adjustRoot_only_eq {R C : Int} {node : BPlusTreeInternalPage K} {key : K}
    {pageC : BPlusTreePage K V} (stored : t.pages R = some (.internal node))
    (only : node.array = [(key, C)]) (storedC : t.pages C = some pageC) (differs : C ≠ R) :
    t.adjustRoot R = .ok (({ t.writePage R (.internal { node with array := [] }) with
      rootPageId := C }).writePage C (pageC.setParentPageId invalidPageId), true) := by
  simp [adjustRoot, fetchPage, stored, only, BPlusTreeInternalPage.removeAndReturnOnlyChild_eq only,
    setParentPageId, differs, storedC, bind, Except.bind, pure, Except.pure]

/-- `AdjustRoot` of an internal root with more than one child changes nothing. -/
theorem adjustRoot_internal_eq {R : Int} {node : BPlusTreeInternalPage K}
    (stored : t.pages R = some (.internal node)) (more : node.array.length ≠ 1) :
    t.adjustRoot R = .ok (t, false) := by
  simp [adjustRoot, fetchPage_eq stored, more, bind, Except.bind, pure, Except.pure]

/-- Two trees with the same fields are one tree. -/
theorem ext_pages {t' : BPlusTree K V} (leafMaxSize : t'.leafMaxSize = t.leafMaxSize)
    (internalMaxSize : t'.internalMaxSize = t.internalMaxSize)
    (root : t'.rootPageId = t.rootPageId) (pages : ∀ pageId, t'.pages pageId = t.pages pageId)
    (next : t'.nextPageId = t.nextPageId) : t' = t := by
  cases t
  cases t'
  cases leafMaxSize
  cases internalMaxSize
  cases root
  cases next
  cases funext pages
  rfl

/-- A pass of `Coalesce` once `MoveAllTo` has run: `B` leaves the store, its slot leaves the
parent `P`, and the next pass runs on `P` when it underflows. -/
theorem coalesce_succ_eq (fuel : Nat) {A B P index : Int} {t1 : BPlusTree K V}
    {parent parent' : BPlusTreeInternalPage K} (moved : t.moveAllTo B A index = .ok t1)
    (storedP : t1.pages P = some (.internal parent)) (differs : P ≠ B)
    (removed : parent.remove index = .ok parent') :
    coalesce (fuel + 1) t A B P index =
      if parent'.array.length ≤ (BPlusTreePage.internal (V := V) parent').getMinSize
          t1.leafMaxSize t1.internalMaxSize
      then coalesceOrRedistribute fuel ((t1.deletePage B).writePage P (.internal parent')) P
      else .ok ((t1.deletePage B).writePage P (.internal parent'), false) := by
  have fetched : (t1.deletePage B).fetchInternal P = .ok parent :=
    fetchInternal_eq (by simp [differs, storedP])
  rw [coalesce]
  simp only [moved, fetched, removed, bind, Except.bind, pure, Except.pure, writePage_leafMaxSize,
    writePage_internalMaxSize, deletePage_leafMaxSize, deletePage_internalMaxSize]

/-- A pass of `Coalesce` on the leaves `A` and `B` of slots `i` and `i + 1` of `P` leaves the
merged store. -/
theorem coalesce_leaves_eq (fuel : Nat) {P A B : Int} {parent : BPlusTreeInternalPage K} {i : Nat}
    {leafA leafB : BPlusTreeLeafPage K V} (storedP : t.pages P = some (.internal parent))
    (inside : i + 1 < parent.array.length) (storedA : t.pages A = some (.leaf leafA))
    (storedB : t.pages B = some (.leaf leafB)) (differs : A ≠ B) (differsA : P ≠ A)
    (differsB : P ≠ B) :
    coalesce (fuel + 1) t A B P (i + 1 : Nat) =
      if (parent.array.eraseIdx (i + 1)).length ≤ (BPlusTreePage.internal (V := V)
          { parent with array := parent.array.eraseIdx (i + 1) }).getMinSize t.leafMaxSize
          t.internalMaxSize
      then coalesceOrRedistribute fuel (t.merged P A B
        { parent with array := parent.array.eraseIdx (i + 1) }
        (.leaf ⟨leafA.parentPageId, leafB.nextPageId, leafA.array ++ leafB.array⟩) []) P
      else .ok (t.merged P A B { parent with array := parent.array.eraseIdx (i + 1) }
        (.leaf ⟨leafA.parentPageId, leafB.nextPageId, leafA.array ++ leafB.array⟩) [], false) := by
  have merged : (((t.writePage B (.leaf { leafB with array := [] })).writePage A (.leaf { leafA with
      array := leafA.array ++ leafB.array, nextPageId := leafB.nextPageId })).deletePage B).writePage
        P (.internal { parent with array := parent.array.eraseIdx (i + 1) }) =
      t.merged P A B { parent with array := parent.array.eraseIdx (i + 1) }
        (.leaf ⟨leafA.parentPageId, leafB.nextPageId, leafA.array ++ leafB.array⟩) [] :=
    ext_pages (by simp) (by simp) (by simp) (fun pageId => by
      simp only [writePage_pages, deletePage_pages, merged_pages]
      split_ifs <;> simp_all) (by simp)
  rw [coalesce_succ_eq fuel (moveAllTo_leaf_eq storedA storedB _)
    (by simp [differsA, differsB, storedP]) differsB (BPlusTreeInternalPage.remove_eq inside),
    merged]
  rfl

/-- A pass of `Coalesce` on the internal pages `A` and `B` of slots `i` and `i + 1` of `P`, `B`'s
slot 0 keyed by the key of slot `i + 1`, leaves the merged store. -/
theorem coalesce_internals_eq (fuel : Nat) {P A B : Int} {parent : BPlusTreeInternalPage K}
    {i : Nat} {nodeA nodeB : BPlusTreeInternalPage K} {firstB : Int} {restB : List (K × Int)}
    (storedP : t.pages P = some (.internal parent)) (inside : i + 1 < parent.array.length)
    (storedA : t.pages A = some (.internal nodeA)) (storedB : t.pages B = some (.internal nodeB))
    (parentB : nodeB.parentPageId = P)
    (slotsB : nodeB.array = (keyOf parent.array (i + 1), firstB) :: restB)
    (childrenStored : ∀ child ∈ children nodeB.array, t.pages child ≠ none)
    (differs : A ≠ B) (differsA : P ≠ A) (differsB : P ≠ B)
    (notMoved : A ∉ children nodeB.array ∧ B ∉ children nodeB.array ∧ P ∉ children nodeB.array) :
    coalesce (fuel + 1) t A B P (i + 1 : Nat) =
      if (parent.array.eraseIdx (i + 1)).length ≤ (BPlusTreePage.internal (V := V)
          { parent with array := parent.array.eraseIdx (i + 1) }).getMinSize t.leafMaxSize
          t.internalMaxSize
      then coalesceOrRedistribute fuel (t.merged P A B
        { parent with array := parent.array.eraseIdx (i + 1) }
        (.internal ⟨nodeA.parentPageId, nodeA.array ++ nodeB.array⟩) (children nodeB.array)) P
      else .ok (t.merged P A B { parent with array := parent.array.eraseIdx (i + 1) }
        (.internal ⟨nodeA.parentPageId, nodeA.array ++ nodeB.array⟩) (children nodeB.array),
          false) := by
  obtain ⟨notA, notB, notP⟩ := notMoved
  have key : parent.array[i + 1].1 = keyOf parent.array (i + 1) := (keyOf_eq_getElem inside).symm
  have merged : ((((t.reparented (children nodeB.array) A).writePage A (.internal { nodeA with
      array := nodeA.array ++ (parent.array[i + 1].1, firstB) :: restB })).writePage B
        (.internal { nodeB with array := [] })).deletePage B).writePage
        P (.internal { parent with array := parent.array.eraseIdx (i + 1) }) =
      t.merged P A B { parent with array := parent.array.eraseIdx (i + 1) }
        (.internal ⟨nodeA.parentPageId, nodeA.array ++ nodeB.array⟩) (children nodeB.array) :=
    ext_pages (by simp) (by simp) (by simp) (fun pageId => by
      simp only [writePage_pages, deletePage_pages, merged_pages, reparented_pages, key, ← slotsB]
      clear key slotsB childrenStored
      split_ifs <;> simp_all) (by simp)
  rw [coalesce_succ_eq fuel (moveAllTo_internal_eq storedA storedB (by rw [parentB]; exact storedP)
      inside slotsB childrenStored)
    (by simp [differsA, differsB, notP, storedP]) differsB (BPlusTreeInternalPage.remove_eq inside),
    merged]
  rfl

end Methods

end BPlusTree

/-! ## Sizes and entries after a merge -/

section Merged

variable {t : BPlusTree K V} {P A B : Int}

/-- Entries moved between two leaves `X` and `N` that hold `entries` between them keep the
entries of the tree. -/
theorem holds_shift {t' : BPlusTree K V} {X N : Int} {entries : List (K × V)} (cut cut' : Nat)
    (differs : X ≠ N) (beforeX : leafEntries (t.pages X) = some (entries.take cut))
    (beforeN : leafEntries (t.pages N) = some (entries.drop cut))
    (afterX : leafEntries (t'.pages X) = some (entries.take cut'))
    (afterN : leafEntries (t'.pages N) = some (entries.drop cut'))
    (others : ∀ pageId, pageId ≠ X → pageId ≠ N →
      leafEntries (t'.pages pageId) = leafEntries (t.pages pageId))
    (key : K) (value : V) : Holds t' key value ↔ Holds t key value := by
  let whole : BPlusTree K V := (t.deletePage N).writePage X (.leaf ⟨0, 0, entries⟩)
  have toWhole : Holds t key value ↔ Holds whole key value := holds_split cut
    (show leafEntries (whole.pages X) = some entries by simp [whole])
    (by simp [whole, differs.symm]) beforeX beforeN
    (fun pageId isX isN => by simp [whole, isX, isN]) key value
  have fromWhole : Holds t' key value ↔ Holds whole key value := holds_split cut'
    (show leafEntries (whole.pages X) = some entries by simp [whole])
    (by simp [whole, differs.symm]) afterX afterN
    (fun pageId isX isN => by simp [whole, isX, isN, others pageId isX isN]) key value
  rw [fromWhole, toWhole]

/-- Merging the leaf `B` into the leaf `A` keeps the entries. -/
theorem keeps_merged_leaves {parent parentP : BPlusTreeInternalPage K}
    {leafA leafB : BPlusTreeLeafPage K V} (storedP : t.pages P = some (.internal parent))
    (storedA : t.pages A = some (.leaf leafA)) (storedB : t.pages B = some (.leaf leafB))
    (differs : A ≠ B) (parentId next : Int) :
    Keeps t (t.merged P A B parentP (.leaf ⟨parentId, next, leafA.array ++ leafB.array⟩) []) :=
  ⟨rfl, rfl, fun key value => (holds_split (X := A) (N := B) leafA.array.length
    (show leafEntries ((t.merged P A B parentP (.leaf ⟨parentId, next, leafA.array ++ leafB.array⟩)
      []).pages A) = some (leafA.array ++ leafB.array) by simp) (by simp [differs.symm])
    (by simp [storedA]) (by simp [storedB]) (fun pageId isA isB => by
      by_cases isP : pageId = P
      · rw [isP, storedP]; simp [isA, isB, ← isP]
      · simp [isA, isB, isP]) key value).symm⟩

/-- Merging the internal page `B` into the internal page `A` keeps the entries. -/
theorem keeps_merged_internals {parent parentP : BPlusTreeInternalPage K}
    {nodeA nodeB node : BPlusTreeInternalPage K} (storedP : t.pages P = some (.internal parent))
    (storedA : t.pages A = some (.internal nodeA)) (storedB : t.pages B = some (.internal nodeB))
    (moved : List Int) : Keeps t (t.merged P A B parentP (.internal node) moved) :=
  ⟨rfl, rfl, holds_congr fun pageId => by
    simp only [BPlusTree.merged_pages]
    split_ifs with isA isB isP
    · rw [isA, storedA]; rfl
    · rw [isB, storedB]; rfl
    · rw [isP, storedP]; rfl
    · exact leafEntries_setParentPageId A _
    · rfl⟩

/-- The store after a merge is sized but at `P` when the merged page is and the page `N` off
its bounds was one of the two. -/
theorem SizedBut.merged {N : Int} (sized : SizedBut t N) (which : N = A ∨ N = B)
    {parentP : BPlusTreeInternalPage K} {pageA : BPlusTreePage K V} {moved : List Int}
    (fits : PageSized t pageA)
    (movedPages : ∀ child ∈ moved, ∀ page, t.pages child = some page →
      child ≠ N ∧ page.parentPageId ≠ invalidPageId)
    (validA : A ≠ invalidPageId) : SizedBut (t.merged P A B parentP pageA moved) P := by
  intro other page stored notP
  rw [BPlusTree.merged_pages] at stored
  by_cases isA : other = A
  · rw [if_pos isA] at stored
    cases stored
    exact fits
  rw [if_neg isA] at stored
  by_cases isB : other = B
  · rw [if_pos isB] at stored
    cases stored
  rw [if_neg isB, if_neg notP] at stored
  by_cases isMoved : other ∈ moved
  · rw [if_pos isMoved] at stored
    obtain ⟨page, found, rfl⟩ := Option.map_eq_some'.1 stored
    obtain ⟨notN, child⟩ := movedPages other isMoved page found
    exact (sized other page found notN).setParentPageId child validA
  · rw [if_neg isMoved] at stored
    exact sized other page stored (by rcases which with rfl | rfl <;> assumption)

/-- A merge changes only the two siblings, their parent and the children it moves from `B`. -/
theorem Linked.keepsAbove_merged {place : Int → Place K} (linked : Linked t place)
    {parent parentP : BPlusTreeInternalPage K} {i : Nat}
    (storedP : t.pages P = some (.internal parent)) (inside : i + 1 < parent.array.length)
    (slotA : parent.array[i].2 = A) (slotB : parent.array[i + 1].2 = B)
    (pageA : BPlusTreePage K V) {moved : List Int}
    (movedParent : ∀ child ∈ moved, ∀ page, t.pages child = some page → page.parentPageId = B) :
    KeepsAbove t (t.merged P A B parentP pageA moved) place (place P).height :=
  linked.keepsAbove_siblings storedP inside slotA slotB rfl fun pageId page stored differs => by
    by_cases isA : pageId = A
    · exact .inl isA
    by_cases isB : pageId = B
    · exact .inr (.inl isB)
    by_cases isP : pageId = P
    · exact .inr (.inr (.inl isP))
    by_cases isMoved : pageId ∈ moved
    · exact .inr (.inr (.inr (.inr (movedParent pageId isMoved page stored))))
    · simp [isA, isB, isP, isMoved, stored] at differs

end Merged

/-! ## The cascade -/

/-- A page `CoalesceOrRedistribute` is called on: a leaf one entry below its minimum, an internal
page at its minimum or one slot below, never further down. -/
def Underflows (t : BPlusTree K V) (page : BPlusTreePage K V) : Prop :=
  page.getMinSize t.leafMaxSize t.internalMaxSize ≤ page.getSize + 1 ∧
    match page with
    | .leaf _ => page.getSize < page.getMinSize t.leafMaxSize t.internalMaxSize
    | .internal _ => page.getSize ≤ page.getMinSize t.leafMaxSize t.internalMaxSize

theorem underflows_leaf {t : BPlusTree K V} {leaf : BPlusTreeLeafPage K V} :
    Underflows t (.leaf leaf) ↔
      (BPlusTreePage.leaf leaf).getMinSize t.leafMaxSize t.internalMaxSize ≤ leaf.array.length + 1 ∧
        leaf.array.length < (BPlusTreePage.leaf leaf).getMinSize t.leafMaxSize t.internalMaxSize :=
  Iff.rfl

theorem underflows_internal {t : BPlusTree K V} {node : BPlusTreeInternalPage K} :
    Underflows t (.internal node) ↔
      (BPlusTreePage.internal (V := V) node).getMinSize t.leafMaxSize t.internalMaxSize ≤
        node.array.length + 1 ∧
      node.array.length ≤ (BPlusTreePage.internal (V := V) node).getMinSize t.leafMaxSize
        t.internalMaxSize :=
  Iff.rfl

/-- With `fuel` passes, `CoalesceOrRedistribute` settles a linked tree whose one page off its
size bounds is the underflowing page `node`, when the passes reach the root (two a level), and
keeps every page above a safe page above `node`. -/
def CascadeFramed (fuel : Nat) : Prop :=
  ∀ (t : BPlusTree K V) (place : Int → Place K) (node : Int) (page : BPlusTreePage K V),
    Linked t place → SizedBut t node → 2 ≤ t.leafMaxSize → 4 ≤ t.internalMaxSize →
    t.pages node = some page → Underflows t page →
    2 * ((place t.rootPageId).height - (place node).height) < fuel →
    ∃ t' deleted, BPlusTree.coalesceOrRedistribute fuel t node = .ok (t', deleted) ∧
      Settles t t' ∧ KeepsAboveSafe .delete t t' place node

section Cascade

variable {t t' : BPlusTree K V} {place : Int → Place K}

/-- A page `CoalesceOrRedistribute` is called on is not safe for a delete. -/
theorem Underflows.not_safe {page : BPlusTreePage K V} (underflows : Underflows t page) :
    ∀ node, page = .internal node →
      page.isSafeOperation t.leafMaxSize t.internalMaxSize .delete = false := by
  rintro node rfl
  have := (underflows_internal.1 underflows).2
  simp only [BPlusTreePage.isSafeOperation, BPlusTreePage.getSize_internal, decide_eq_false_iff_not,
    not_lt]
  omega

/-- The end of a `Coalesce` pass: the parent `P`, one slot shorter, is settled in place or
handed to the next pass when it underflows. -/
theorem climb {fuel : Nat} (cascade : CascadeFramed (K := K) (V := V) fuel)
    (linked : Linked t place) {t3 : BPlusTree K V}
    {place3 : Int → Place K} {P : Int} {parent : BPlusTreeInternalPage K} {i : Nat}
    (linked3 : Linked t3 place3) (sized3 : SizedBut t3 P) (keeps : Keeps t t3)
    (stored3 : t3.pages P = some (.internal { parent with array := parent.array.eraseIdx (i + 1) }))
    (storedP : t.pages P = some (.internal parent)) (above : KeepsAbove t t3 place (place P).height)
    (heights : ∀ pageId, t.pages pageId ≠ none → (place3 pageId).height = (place pageId).height)
    (sizedP : PageSized t (.internal parent)) (inside : i + 1 < parent.array.length)
    (leafMin : 2 ≤ t.leafMaxSize) (internalMin : 4 ≤ t.internalMaxSize)
    (reach : 2 * ((place3 t3.rootPageId).height - (place3 P).height) < fuel) :
    ∃ t' deleted, (if (parent.array.eraseIdx (i + 1)).length ≤ (BPlusTreePage.internal (V := V)
        { parent with array := parent.array.eraseIdx (i + 1) }).getMinSize t.leafMaxSize
          t.internalMaxSize
      then BPlusTree.coalesceOrRedistribute fuel t3 P else .ok (t3, false)) = .ok (t', deleted) ∧
      Settles t t' ∧ KeepsAboveSafe .delete t t' place P := by
  have presentP : t.pages P ≠ none := by simp [storedP]
  have shrunk := List.length_eraseIdx_of_lt inside
  obtain ⟨atLeast, atMost⟩ := sizedP
  have minEq : (BPlusTreePage.internal (V := V) { parent with
      array := parent.array.eraseIdx (i + 1) }).getMinSize t3.leafMaxSize t3.internalMaxSize =
      (BPlusTreePage.internal (V := V) parent).getMinSize t.leafMaxSize t.internalMaxSize := by
    rw [keeps.leafMaxSize, keeps.internalMaxSize]; rfl
  simp only [BPlusTreePage.getSize_internal, BPlusTreePage.getMaxSize_internal] at atLeast atMost
  rw [← keeps.leafMaxSize, ← keeps.internalMaxSize, minEq]
  split_ifs with underflow
  · have underflows : Underflows t3 (.internal { parent with
        array := parent.array.eraseIdx (i + 1) }) := by
      rw [underflows_internal, minEq]
      dsimp only
      omega
    obtain ⟨t', deleted, run, settles, frame⟩ := cascade t3 place3 P _ linked3 sized3
      (keeps.leafMaxSize ▸ leafMin) (keeps.internalMaxSize ▸ internalMin) stored3 underflows reach
    refine ⟨t', deleted, run, settles.of_keeps keeps, ?_⟩
    rintro N nodeN (_ | depth) descends storedN safe
    · -- `P` itself is not safe: it underflows after losing one slot
      cases descends
      rw [storedP] at storedN
      cases storedN
      simp only [BPlusTreePage.isSafeOperation, BPlusTreePage.getSize_internal,
        decide_eq_true_eq] at safe
      omega
    · have height := (linked.descends_place descends presentP).1
      have storedN3 : t3.pages N = some (.internal nodeN) := by
        rw [above.pages N (by simp [storedN]) (by omega), storedN]
      have frame3 := frame N nodeN (depth + 1) (descends.of_keepsAbove linked above presentP le_rfl)
        storedN3 (by rwa [keeps.leafMaxSize, keeps.internalMaxSize])
      rw [heights N (by simp [storedN])] at frame3
      exact (above.mono (by omega)).trans frame3 heights
  · exact ⟨t3, false, rfl, ⟨⟨_, linked3⟩, sized3.sized stored3 ⟨by
      simp only [BPlusTreePage.getSize_internal]; rw [minEq]; omega,
      by simp only [BPlusTreePage.getSize_internal, BPlusTreePage.getMaxSize_internal,
        keeps.internalMaxSize]; omega⟩, keeps⟩, above.aboveSafe linked presentP⟩

/-- A `Coalesce` pass on two siblings that one page holds, one of them the page off its bounds,
settles the tree, with the passes that reach the root from their parent. -/
theorem coalesce_settles {fuel : Nat} (cascade : CascadeFramed (K := K) (V := V) fuel)
    (linked : Linked t place) {P A B : Int} {parent : BPlusTreeInternalPage K} {i : Nat}
    (storedP : t.pages P = some (.internal parent)) (inside : i + 1 < parent.array.length)
    (slotA : parent.array[i].2 = A) (slotB : parent.array[i + 1].2 = B) {N : Int}
    (which : N = A ∨ N = B) (sized : SizedBut t N) (leafMin : 2 ≤ t.leafMaxSize)
    (internalMin : 4 ≤ t.internalMaxSize) {pageA pageB pageN : BPlusTreePage K V}
    (storedA : t.pages A = some pageA) (storedB : t.pages B = some pageB)
    (storedN : t.pages N = some pageN)
    (fits : pageA.getSize + pageB.getSize ≤ pageN.getMaxSize t.leafMaxSize t.internalMaxSize)
    (reach : 2 * ((place t.rootPageId).height - (place P).height) < fuel) :
    ∃ t' deleted, BPlusTree.coalesce (fuel + 1) t A B P (i + 1 : Nat) = .ok (t', deleted) ∧
      Settles t t' ∧ KeepsAboveSafe .delete t t' place P := by
  obtain ⟨parentA, parentB, differsAB, differsPA, differsPB, kinds⟩ :=
    linked.siblings_stored storedP inside slotA slotB storedA storedB
  have fitsMax : pageA.getSize + pageB.getSize ≤ pageA.getMaxSize t.leafMaxSize t.internalMaxSize ∨
      pageA.getSize + pageB.getSize ≤ pageB.getMaxSize t.leafMaxSize t.internalMaxSize := by
    rcases which with rfl | rfl
    · rw [storedA] at storedN; cases storedN; exact .inl fits
    · rw [storedB] at storedN; cases storedN; exact .inr fits
  have validP : P ≠ invalidPageId := linked.ne_invalid (by simp [storedP])
  have validA : A ≠ invalidPageId := linked.ne_invalid (by simp [storedA])
  have notRootA : A ≠ t.rootPageId := fun same =>
    validP (parentA ▸ (linked.isRoot A _ storedA).2 same)
  have sizedP := sized P _ storedP (by rcases which with rfl | rfl; exacts [differsPA, differsPB])
  -- the sibling that is not `N` holds at least its minimum
  have other : PageSized t pageA ∨ PageSized t pageB := by
    rcases which with rfl | rfl
    · exact .inr (sized B _ storedB differsAB.symm)
    · exact .inl (sized A _ storedA differsAB)
  have reach3 : 2 * (((fun pageId => if pageId = A then
      (⟨(place A).height, (place A).lo, (place B).hi⟩ : Place K) else place pageId) t.rootPageId).height -
      ((fun pageId => if pageId = A then
      (⟨(place A).height, (place A).lo, (place B).hi⟩ : Place K) else place pageId) P).height) < fuel := by
    simpa [notRootA.symm, differsPA] using reach
  have heights3 : ∀ pageId, t.pages pageId ≠ none → ((fun pageId => if pageId = A then
      (⟨(place A).height, (place A).lo, (place B).hi⟩ : Place K) else place pageId) pageId).height =
      (place pageId).height := fun pageId _ => by
    dsimp only
    split_ifs with isA <;> simp [isA]
  rcases kinds with ⟨leafA, leafB, rfl, rfl⟩ | ⟨nodeA, nodeB, rfl, rfl⟩
  · -- two leaves
    simp only [BPlusTreePage.parentPageId_leaf] at parentA parentB
    have fitsMerged : PageSized t (.leaf ⟨leafA.parentPageId, leafB.nextPageId,
        leafA.array ++ leafB.array⟩) := by
      simp only [PageSized, BPlusTreePage.getSize_leaf, BPlusTreePage.getMaxSize_leaf,
        BPlusTreePage.getMinSize_leaf] at other fitsMax ⊢
      simp only [parentA, parentB, validP, if_false, List.length_append] at other ⊢
      omega
    rw [BPlusTree.coalesce_leaves_eq fuel storedP inside storedA storedB differsAB differsPA
      differsPB]
    exact climb cascade linked (linked.mergeLeaves storedP inside slotA slotB storedA storedB)
      (sized.merged which fitsMerged (fun _ member => absurd member (List.not_mem_nil _))
        validA)
      (keeps_merged_leaves storedP storedA storedB differsAB _ _)
      (by simp [differsPA, differsPB]) storedP
      (linked.keepsAbove_merged storedP inside slotA slotB _ fun _ member => nomatch member)
      heights3 sizedP inside leafMin internalMin reach3
  · -- two internal pages
    simp only [BPlusTreePage.parentPageId_internal] at parentA parentB
    obtain ⟨firstB, restB, slotsB⟩ := linked.slots_of_right storedP inside slotA slotB storedB
    have childFacts := fun {child} (member : child ∈ children nodeB.array) =>
      linked.child_of_siblings storedP inside slotA slotB storedA storedB (.inr member)
    have fitsMerged : PageSized t (.internal ⟨nodeA.parentPageId,
        nodeA.array ++ nodeB.array⟩) := by
      simp only [PageSized, BPlusTreePage.getSize_internal, BPlusTreePage.getMaxSize_internal,
        BPlusTreePage.getMinSize_internal] at other fitsMax ⊢
      simp only [parentA, parentB, validP, if_false, List.length_append] at other ⊢
      omega
    rw [BPlusTree.coalesce_internals_eq fuel storedP inside storedA storedB parentB slotsB
      (fun child member => by obtain ⟨page, found, -⟩ := childFacts member; simp [found])
      differsAB differsPA differsPB
      ⟨fun member => by obtain ⟨-, -, -, notA, -⟩ := childFacts member; exact notA rfl,
        fun member => by obtain ⟨-, -, -, -, notB, -⟩ := childFacts member; exact notB rfl,
        fun member => by obtain ⟨-, -, -, -, -, notP⟩ := childFacts member; exact notP rfl⟩]
    refine climb cascade linked
      (linked.mergeInternals storedP inside slotA slotB storedA storedB)
      (sized.merged which fitsMerged (fun child member page found => ?_) validA)
      (keeps_merged_internals storedP storedA storedB _) (by simp [differsPA, differsPB])
      storedP (linked.keepsAbove_merged storedP inside slotA slotB _ fun child member page found => by
        obtain ⟨page', found', pointsBack, -⟩ := linked.child storedB member
        rw [found] at found'
        cases found'
        exact pointsBack)
      heights3 sizedP inside leafMin internalMin reach3
    obtain ⟨-, -, -, notA, notB, -⟩ := childFacts member
    obtain ⟨page', found', pointsBack, -⟩ := linked.child storedB member
    rw [found] at found'
    cases found'
    refine ⟨by rcases which with rfl | rfl; exacts [notA, notB], ?_⟩
    rw [pointsBack]
    exact linked.ne_invalid (by simp [storedB])

end Cascade

/-! ## Redistribution -/

section Redistribute

variable {t t' : BPlusTree K V} {place : Int → Place K} {P A B : Int}
  {parent : BPlusTreeInternalPage K} {i m : Nat}

/-- The parent of two siblings after a redistribution: slot `i + 1` rekeyed, the size kept. -/
theorem pageSized_rekeyed (inside : i + 1 < parent.array.length) (key : K) (child : Int) : PageSized t' (.internal { parent with
      array := parent.array.take (i + 1) ++ (key, child) :: parent.array.drop (i + 2) }) ↔
      PageSized t' (.internal parent) := by
  simp only [PageSized, BPlusTreePage.getMinSize_internal, BPlusTreePage.getSize_internal,
    BPlusTreePage.getMaxSize_internal, List.length_append, List.length_take, List.length_cons,
    List.length_drop]
  constructor <;> rintro ⟨low, high⟩ <;> constructor <;> omega

/-- Two sibling leaves sharing out their entries, each page within its bounds, settle the
tree. -/
theorem settles_shift_leaves (linked : Linked t place) {leafA leafB : BPlusTreeLeafPage K V}
    (storedP : t.pages P = some (.internal parent)) (inside : i + 1 < parent.array.length)
    (slotA : parent.array[i].2 = A) (slotB : parent.array[i + 1].2 = B)
    (storedA : t.pages A = some (.leaf leafA)) (storedB : t.pages B = some (.leaf leafB))
    {N : Int} (which : N = A ∨ N = B) (sized : SizedBut t N)
    (first : 1 ≤ m) (within : m < (leafA.array ++ leafB.array).length)
    (pagesP : t'.pages P = some (.internal { parent with array := parent.array.take (i + 1) ++
      (keyOf (leafA.array ++ leafB.array) m, B) :: parent.array.drop (i + 2) }))
    (pagesA : t'.pages A = some (.leaf { leafA with array := (leafA.array ++ leafB.array).take m }))
    (pagesB : t'.pages B = some (.leaf { leafB with array := (leafA.array ++ leafB.array).drop m }))
    (pagesOther : ∀ pageId, pageId ≠ A → pageId ≠ B → pageId ≠ P → t'.pages pageId = t.pages pageId)
    (root : t'.rootPageId = t.rootPageId) (next : t'.nextPageId = t.nextPageId)
    (leafMaxSize : t'.leafMaxSize = t.leafMaxSize)
    (internalMaxSize : t'.internalMaxSize = t.internalMaxSize)
    (sizedA : PageSized t (.leaf { leafA with array := (leafA.array ++ leafB.array).take m }))
    (sizedB : PageSized t (.leaf { leafB with array := (leafA.array ++ leafB.array).drop m })) :
    Settles t t' ∧ KeepsAbove t t' place (place P).height := by
  obtain ⟨_, _, -, -, -, -, heightA, heightB, -, -, differsAB⟩ :=
    linked.siblings storedP inside slotA slotB
  have differsPA : P ≠ A := fun same => by rw [same] at heightA; omega
  have differsPB : P ≠ B := fun same => by rw [same] at heightB; omega
  refine ⟨⟨linked.redistributeLeaves storedP inside slotA slotB storedA storedB first within pagesP
    pagesA pagesB pagesOther root next, fun pageId page stored => ?_,
    ⟨leafMaxSize, internalMaxSize, holds_shift leafA.array.length m differsAB
      (show leafEntries (t.pages A) = some ((leafA.array ++ leafB.array).take leafA.array.length)
        by simp [storedA])
      (by simp [storedB]) (by simp [pagesA]) (by simp [pagesB]) fun pageId isA isB => ?_⟩⟩,
    linked.keepsAbove_siblings storedP inside slotA slotB root fun pageId page stored differs => ?_⟩
  · rw [pageSized_congr leafMaxSize internalMaxSize]
    by_cases isA : pageId = A
    · rw [isA, pagesA] at stored; cases stored; exact sizedA
    by_cases isB : pageId = B
    · rw [isB, pagesB] at stored; cases stored; exact sizedB
    by_cases isP : pageId = P
    · rw [isP, pagesP] at stored
      cases stored
      exact (pageSized_rekeyed inside _ _).2
        (sized P _ storedP (by rcases which with rfl | rfl; exacts [differsPA, differsPB]))
    · rw [pagesOther pageId isA isB isP] at stored
      exact sized pageId page stored (by rcases which with rfl | rfl <;> assumption)
  · by_cases isP : pageId = P
    · rw [isP, pagesP, storedP]; rfl
    · rw [pagesOther pageId isA isB isP]
  · by_cases isA : pageId = A
    · exact .inl isA
    by_cases isB : pageId = B
    · exact .inr (.inl isB)
    by_cases isP : pageId = P
    · exact .inr (.inr (.inl isP))
    · exact absurd ((pagesOther pageId isA isB isP).trans stored) differs

/-- Two sibling internal pages sharing out their slots, each child re-parented to the page that
now holds it and each page within its bounds, settle the tree. -/
theorem settles_shift_internals (linked : Linked t place) {nodeA nodeB : BPlusTreeInternalPage K}
    (storedP : t.pages P = some (.internal parent)) (inside : i + 1 < parent.array.length)
    (slotA : parent.array[i].2 = A) (slotB : parent.array[i + 1].2 = B)
    (storedA : t.pages A = some (.internal nodeA)) (storedB : t.pages B = some (.internal nodeB))
    {N : Int} (which : N = A ∨ N = B) (sized : SizedBut t N)
    (first : 1 ≤ m) (within : m < (nodeA.array ++ nodeB.array).length)
    (pagesP : t'.pages P = some (.internal { parent with array := parent.array.take (i + 1) ++
      (keyOf (nodeA.array ++ nodeB.array) m, B) :: parent.array.drop (i + 2) }))
    (pagesA : t'.pages A =
      some (.internal { nodeA with array := (nodeA.array ++ nodeB.array).take m }))
    (pagesB : t'.pages B =
      some (.internal { nodeB with array := (nodeA.array ++ nodeB.array).drop m }))
    (pagesLeft : ∀ child ∈ children ((nodeA.array ++ nodeB.array).take m),
      t'.pages child = (t.pages child).map (·.setParentPageId A))
    (pagesRight : ∀ child ∈ children ((nodeA.array ++ nodeB.array).drop m),
      t'.pages child = (t.pages child).map (·.setParentPageId B))
    (pagesOther : ∀ pageId, pageId ≠ A → pageId ≠ B → pageId ≠ P →
      pageId ∉ children (nodeA.array ++ nodeB.array) → t'.pages pageId = t.pages pageId)
    (root : t'.rootPageId = t.rootPageId) (next : t'.nextPageId = t.nextPageId)
    (leafMaxSize : t'.leafMaxSize = t.leafMaxSize)
    (internalMaxSize : t'.internalMaxSize = t.internalMaxSize)
    (sizedA : PageSized t (.internal { nodeA with array := (nodeA.array ++ nodeB.array).take m }))
    (sizedB : PageSized t (.internal { nodeB with array := (nodeA.array ++ nodeB.array).drop m })) :
    Settles t t' ∧ KeepsAbove t t' place (place P).height := by
  obtain ⟨_, _, -, -, -, -, heightA, heightB, -, -, differsAB⟩ :=
    linked.siblings storedP inside slotA slotB
  have differsPA : P ≠ A := fun same => by rw [same] at heightA; omega
  have differsPB : P ≠ B := fun same => by rw [same] at heightB; omega
  have validA : A ≠ invalidPageId := linked.ne_invalid (by simp [storedA])
  have validB : B ≠ invalidPageId := linked.ne_invalid (by simp [storedB])
  have notN : ∀ {pageId}, pageId ≠ A → pageId ≠ B → pageId ≠ N := fun isA isB => by
    rcases which with rfl | rfl <;> assumption
  have childFacts := fun {child} (member : child ∈ children (nodeA.array ++ nodeB.array)) =>
    linked.child_of_siblings storedP inside slotA slotB storedA storedB
      (List.mem_append.1 (by simpa only [children, List.map_append] using member))
  -- a child of either page, re-parented to one of them, keeps its size bounds
  have movedSized : ∀ child page, t.pages child = some page →
      child ∈ children (nodeA.array ++ nodeB.array) → ∀ parent', parent' ≠ invalidPageId →
        PageSized t (page.setParentPageId parent') := fun child page found member parent' valid => by
    obtain ⟨page', found', pointsBack, notA, notB, -⟩ := childFacts member
    rw [found] at found'
    cases found'
    refine (sized child page found (notN notA notB)).setParentPageId ?_ valid
    rcases pointsBack with same | same <;> rw [same]
    exacts [validA, validB]
  refine ⟨⟨linked.redistributeInternals storedP inside slotA slotB storedA storedB first within
    pagesP pagesA pagesB pagesLeft pagesRight pagesOther root next, fun pageId page stored => ?_,
    ⟨leafMaxSize, internalMaxSize, holds_congr fun pageId => ?_⟩⟩,
    linked.keepsAbove_siblings storedP inside slotA slotB root fun pageId page stored differs => ?_⟩
  · rw [pageSized_congr leafMaxSize internalMaxSize]
    by_cases isA : pageId = A
    · rw [isA, pagesA] at stored; cases stored; exact sizedA
    by_cases isB : pageId = B
    · rw [isB, pagesB] at stored; cases stored; exact sizedB
    by_cases isP : pageId = P
    · rw [isP, pagesP] at stored
      cases stored
      exact (pageSized_rekeyed inside _ _).2 (sized P _ storedP (notN differsPA differsPB))
    by_cases left : pageId ∈ children ((nodeA.array ++ nodeB.array).take m)
    · rw [pagesLeft pageId left] at stored
      obtain ⟨page, found, rfl⟩ := Option.map_eq_some'.1 stored
      exact movedSized pageId page found (mem_children_take left) A validA
    by_cases right : pageId ∈ children ((nodeA.array ++ nodeB.array).drop m)
    · rw [pagesRight pageId right] at stored
      obtain ⟨page, found, rfl⟩ := Option.map_eq_some'.1 stored
      exact movedSized pageId page found (mem_children_drop right) B validB
    · rw [pagesOther pageId isA isB isP fun member =>
        left (mem_children_take_of_not_drop member right)] at stored
      exact sized pageId page stored (notN isA isB)
  · by_cases isA : pageId = A
    · rw [isA, pagesA, storedA]; rfl
    by_cases isB : pageId = B
    · rw [isB, pagesB, storedB]; rfl
    by_cases isP : pageId = P
    · rw [isP, pagesP, storedP]; rfl
    by_cases left : pageId ∈ children ((nodeA.array ++ nodeB.array).take m)
    · rw [pagesLeft pageId left]; exact leafEntries_setParentPageId A _
    by_cases right : pageId ∈ children ((nodeA.array ++ nodeB.array).drop m)
    · rw [pagesRight pageId right]; exact leafEntries_setParentPageId B _
    · rw [pagesOther pageId isA isB isP fun member =>
        left (mem_children_take_of_not_drop member right)]
  · by_cases isA : pageId = A
    · exact .inl isA
    by_cases isB : pageId = B
    · exact .inr (.inl isB)
    by_cases isP : pageId = P
    · exact .inr (.inr (.inl isP))
    by_cases moved : pageId ∈ children (nodeA.array ++ nodeB.array)
    · obtain ⟨page', found, pointsBack, -⟩ := childFacts moved
      rw [stored] at found
      cases found
      exact .inr (.inr (.inr pointsBack))
    · exact absurd ((pagesOther pageId isA isB isP moved).trans stored) differs

theorem map_setParentPageId_of_parent {child X : Int} {page : BPlusTreePage K V}
    (found : t.pages child = some page) (pointsBack : page.parentPageId = X) :
    (t.pages child).map (·.setParentPageId X) = t.pages child := by
  rw [found, Option.map_some', ← pointsBack, BPlusTreePage.setParentPageId_self]

/-- `Redistribute` from the right sibling: the page `A` off its bounds, which its sibling `B`
cannot join in one page, takes `B`'s first entry or slot. -/
theorem redistribute_right_settles (linked : Linked t place)
    (storedP : t.pages P = some (.internal parent)) (inside : i + 1 < parent.array.length)
    (slotA : parent.array[i].2 = A) (slotB : parent.array[i + 1].2 = B) (sized : SizedBut t A)
    (internalMin : 4 ≤ t.internalMaxSize) {pageA pageB : BPlusTreePage K V}
    (storedA : t.pages A = some pageA) (storedB : t.pages B = some pageB)
    (underflows : Underflows t pageA)
    (overfull : pageA.getMaxSize t.leafMaxSize t.internalMaxSize < pageA.getSize + pageB.getSize) :
    ∃ t', t.redistribute B A 0 = .ok t' ∧ Settles t t' ∧ KeepsAbove t t' place (place P).height := by
  obtain ⟨parentA, parentB, differsAB, differsPA, differsPB, kinds⟩ :=
    linked.siblings_stored storedP inside slotA slotB storedA storedB
  have validP : P ≠ invalidPageId := linked.ne_invalid (by simp [storedP])
  have distinct := (linked.internal _ _ storedP).fence.nodup
  obtain ⟨lowB, highB⟩ := sized B _ storedB differsAB.symm
  rcases kinds with ⟨leafA, leafB, rfl, rfl⟩ | ⟨nodeA, nodeB, rfl, rfl⟩
  · -- two leaves
    simp only [BPlusTreePage.parentPageId_leaf] at parentA parentB
    obtain ⟨lowA, underA⟩ := underflows_leaf.1 underflows
    simp only [BPlusTreePage.getMinSize_leaf, BPlusTreePage.getSize_leaf,
      BPlusTreePage.getMaxSize_leaf, parentA, parentB, validP, if_false]
      at lowA underA lowB highB overfull
    obtain ⟨first, rest, slotsB⟩ := List.exists_cons_of_ne_nil
      (List.ne_nil_of_length_pos (by omega : 0 < leafB.array.length))
    have lengthB : leafB.array.length = rest.length + 1 := by simp [slotsB]
    have run := BPlusTree.moveFirstToEndOf_leaf_eq storedA storedB
      (by rw [parentB]; exact storedP) distinct inside slotB slotsB differsAB
      (by rw [parentB]; exact differsPA) (by rw [parentB]; exact differsPB) (by omega)
    refine ⟨_, by simp only [BPlusTree.redistribute, BPlusTree.fetchPage_eq storedB, bind,
      Except.bind, if_true]; exact run, ?_⟩
    rw [parentB]
    refine settles_shift_leaves linked storedP inside slotA slotB storedA storedB (.inl rfl)
      sized (m := leafA.array.length + 1) (by omega) (by simp; omega) ?_ ?_ ?_ ?_ rfl rfl
      rfl rfl ?_ ?_
    · simp [slotsB, keyOf_append_cons_succ]
    · simp [differsPA.symm, slotsB, take_append_cons_succ]
    · simp [differsPB.symm, differsAB.symm, slotsB, drop_append_cons_succ, parentB]
    · intro pageId isA isB isP
      simp [isA, isB, isP]
    · simp [PageSized, slotsB, take_append_cons_succ, parentA, validP]; omega
    · simp [PageSized, slotsB, drop_append_cons_succ, parentB, validP]; omega
  · -- two internal pages
    simp only [BPlusTreePage.parentPageId_internal] at parentA parentB
    obtain ⟨lowA, underA⟩ := underflows_internal.1 underflows
    simp only [BPlusTreePage.getMinSize_internal, BPlusTreePage.getSize_internal,
      BPlusTreePage.getMaxSize_internal, parentA, parentB, validP, if_false]
      at lowA underA lowB highB overfull
    obtain ⟨first, rest, slotsB⟩ := List.exists_cons_of_ne_nil
      (List.ne_nil_of_length_pos (by omega : 0 < nodeB.array.length))
    have lengthB : nodeB.array.length = rest.length + 1 := by simp [slotsB]
    have childFacts := fun {child} (member : child ∈ children nodeA.array ∨
        child ∈ children nodeB.array) =>
      linked.child_of_siblings storedP inside slotA slotB storedA storedB member
    have firstMember : first.2 ∈ children nodeB.array := by simp [children, slotsB]
    obtain ⟨pageC, storedC, parentC, differsCA, differsCB, differsCP⟩ :=
      childFacts (.inr firstMember)
    have firstParent : pageC.parentPageId = B := by
      obtain ⟨_, found, pointsBack, -⟩ := linked.child storedB firstMember
      rw [storedC] at found; cases found; exact pointsBack
    have distinctB : first.2 ∉ children rest := by
      have := (linked.internal _ _ storedB).fence.nodup
      rw [slotsB] at this
      exact (List.nodup_cons.1 this).1
    have run := BPlusTree.moveFirstToEndOf_internal_eq storedA storedB
      (by rw [parentB]; exact storedP) storedC distinct inside slotB slotsB differsAB
      (by rw [parentB]; exact differsPA) (by rw [parentB]; exact differsPB) differsCA
      differsCB (by rw [parentB]; exact differsCP.symm) (by omega)
    refine ⟨_, by simp only [BPlusTree.redistribute, BPlusTree.fetchPage_eq storedB, bind,
      Except.bind, if_true]; exact run, ?_⟩
    rw [parentB]
    refine settles_shift_internals linked storedP inside slotA slotB storedA storedB
      (.inl rfl) sized (m := nodeA.array.length + 1) (by omega) (by simp; omega) ?_ ?_ ?_
      ?_ ?_ ?_ rfl rfl rfl rfl ?_ ?_
    · simp [slotsB, keyOf_append_cons_succ]
    · simp [differsPA.symm, slotsB, take_append_cons_succ, differsCA.symm]
    · simp [differsPB.symm, differsAB.symm, slotsB, drop_append_cons_succ, differsCB.symm,
        parentB]
    · intro child member
      rw [slotsB, take_append_cons_succ] at member
      rcases List.mem_append.1 (by simpa only [children, List.map_append] using member) with
        member | member
      · obtain ⟨page, found, pointsBack, -⟩ := linked.child storedA member
        obtain ⟨-, -, -, notA, notB, notP⟩ := childFacts (.inl member)
        have notC : child ≠ first.2 := fun same => by
          rw [same, storedC] at found
          cases found
          exact differsAB (pointsBack.symm.trans firstParent)
        simp [notA, notB, notP, notC, map_setParentPageId_of_parent found pointsBack]
      · simp only [List.map_cons, List.map_nil, List.mem_singleton] at member
        subst member
        simp [differsCP, storedC]
    · intro child member
      rw [slotsB, drop_append_cons_succ] at member
      have memberB : child ∈ children nodeB.array := by
        rw [slotsB]; exact List.mem_cons_of_mem _ member
      obtain ⟨page, found, pointsBack, -⟩ := linked.child storedB memberB
      obtain ⟨-, -, -, notA, notB, notP⟩ := childFacts (.inr memberB)
      have notC : child ≠ first.2 := fun same => distinctB (same ▸ member)
      simp [notA, notB, notP, notC, map_setParentPageId_of_parent found pointsBack]
    · intro pageId isA isB isP notE
      have notC : pageId ≠ first.2 := fun same => notE (by
        rw [same]; simp only [children, List.map_append, List.mem_append]
        exact .inr firstMember)
      simp [isA, isB, isP, notC]
    · simp [PageSized, slotsB, take_append_cons_succ, parentA, validP]; omega
    · simp [PageSized, slotsB, drop_append_cons_succ, parentB, validP]; omega

/-- `Redistribute` from the left sibling: the page `B` off its bounds, which its sibling `A`
cannot join in one page, takes `A`'s last entry or slot. -/
theorem redistribute_left_settles (linked : Linked t place)
    (storedP : t.pages P = some (.internal parent)) (inside : i + 1 < parent.array.length)
    (slotA : parent.array[i].2 = A) (slotB : parent.array[i + 1].2 = B) (sized : SizedBut t B)
    (internalMin : 4 ≤ t.internalMaxSize) {pageA pageB : BPlusTreePage K V}
    (storedA : t.pages A = some pageA) (storedB : t.pages B = some pageB)
    (underflows : Underflows t pageB)
    (overfull : pageB.getMaxSize t.leafMaxSize t.internalMaxSize < pageB.getSize + pageA.getSize) :
    ∃ t', t.redistribute A B (i + 1 : Nat) = .ok t' ∧ Settles t t' ∧
      KeepsAbove t t' place (place P).height := by
  obtain ⟨parentA, parentB, differsAB, differsPA, differsPB, kinds⟩ :=
    linked.siblings_stored storedP inside slotA slotB storedA storedB
  have validP : P ≠ invalidPageId := linked.ne_invalid (by simp [storedP])
  have index : ((i + 1 : Nat) : Int) ≠ 0 := by omega
  obtain ⟨lowA, highA⟩ := sized A _ storedA differsAB
  rcases kinds with ⟨leafA, leafB, rfl, rfl⟩ | ⟨nodeA, nodeB, rfl, rfl⟩
  · -- two leaves
    simp only [BPlusTreePage.parentPageId_leaf] at parentA parentB
    obtain ⟨lowB, underB⟩ := underflows_leaf.1 underflows
    simp only [BPlusTreePage.getMinSize_leaf, BPlusTreePage.getSize_leaf,
      BPlusTreePage.getMaxSize_leaf, parentA, parentB, validP, if_false]
      at lowA highA lowB underB overfull
    have nonempty : leafA.array ≠ [] := List.ne_nil_of_length_pos (by omega)
    obtain ⟨front, last, slotsA⟩ : ∃ front last, leafA.array = front ++ [last] :=
      ⟨_, _, (List.dropLast_append_getLast nonempty).symm⟩
    have lengthA : leafA.array.length = front.length + 1 := by simp [slotsA]
    have run := BPlusTree.moveLastToFrontOf_leaf_eq storedA storedB
      (by rw [parentB]; exact storedP) inside slotB slotsA differsAB
      (by rw [parentB]; exact differsPA) (by rw [parentB]; exact differsPB)
    refine ⟨_, by simp only [BPlusTree.redistribute, BPlusTree.fetchPage_eq storedA, bind,
      Except.bind, index, if_false]; exact run, ?_⟩
    rw [parentB]
    refine settles_shift_leaves linked storedP inside slotA slotB storedA storedB (.inr rfl)
      sized (m := front.length) (by omega) (by simp; omega) ?_ ?_ ?_ ?_ rfl rfl rfl rfl ?_ ?_
    · simp [slotsA, keyOf_append_cons]
    · simp [differsPA.symm, differsAB, slotsA, parentA]
    · simp [differsPB.symm, slotsA, parentB]
    · intro pageId isA isB isP
      simp [isA, isB, isP]
    · simp [PageSized, slotsA, parentA, validP]; omega
    · simp [PageSized, slotsA, parentB, validP]; omega
  · -- two internal pages
    simp only [BPlusTreePage.parentPageId_internal] at parentA parentB
    obtain ⟨lowB, underB⟩ := underflows_internal.1 underflows
    simp only [BPlusTreePage.getMinSize_internal, BPlusTreePage.getSize_internal,
      BPlusTreePage.getMaxSize_internal, parentA, parentB, validP, if_false]
      at lowA highA lowB underB overfull
    have nonempty : nodeA.array ≠ [] := List.ne_nil_of_length_pos (by omega)
    obtain ⟨front, last, slotsA⟩ : ∃ front last, nodeA.array = front ++ [last] :=
      ⟨_, _, (List.dropLast_append_getLast nonempty).symm⟩
    have lengthA : nodeA.array.length = front.length + 1 := by simp [slotsA]
    have childFacts := fun {child} (member : child ∈ children nodeA.array ∨
        child ∈ children nodeB.array) =>
      linked.child_of_siblings storedP inside slotA slotB storedA storedB member
    have lastMember : last.2 ∈ children nodeA.array := by simp [children, slotsA]
    obtain ⟨pageC, storedC, -, differsCA, differsCB, differsCP⟩ := childFacts (.inl lastMember)
    have lastParent : pageC.parentPageId = A := by
      obtain ⟨_, found, pointsBack, -⟩ := linked.child storedA lastMember
      rw [storedC] at found; cases found; exact pointsBack
    have distinctA : last.2 ∉ children front := by
      have := (linked.internal _ _ storedA).fence.nodup
      rw [slotsA] at this
      simp only [children, List.map_append, List.map_cons, List.map_nil] at this
      exact fun member => (List.nodup_append.1 this).2.2 member (List.mem_singleton_self _)
    have run := BPlusTree.moveLastToFrontOf_internal_eq storedA storedB
      (by rw [parentB]; exact storedP) storedC inside slotB slotsA differsAB
      (by rw [parentB]; exact differsPA) (by rw [parentB]; exact differsPB) differsCA
      differsCB (by rw [parentB]; exact differsCP.symm)
    refine ⟨_, by simp only [BPlusTree.redistribute, BPlusTree.fetchPage_eq storedA, bind,
      Except.bind, index, if_false]; exact run, ?_⟩
    rw [parentB]
    refine settles_shift_internals linked storedP inside slotA slotB storedA storedB
      (.inr rfl) sized (m := front.length) (by omega) (by simp; omega) ?_ ?_ ?_ ?_ ?_ ?_ rfl
      rfl rfl rfl ?_ ?_
    · simp [slotsA, keyOf_append_cons]
    · simp [differsPA.symm, differsAB, slotsA, differsCA.symm, parentA]
    · simp [differsPB.symm, slotsA, differsCB.symm, parentB]
    · intro child member
      simp only [slotsA, List.append_assoc, List.singleton_append,
        List.take_left' rfl] at member
      obtain ⟨page, found, pointsBack, -⟩ := linked.child storedA
        (mem_children_take (n := front.length) (by simpa [slotsA] using member))
      obtain ⟨-, -, -, notA, notB, notP⟩ :=
        childFacts (.inl (mem_children_take (n := front.length) (by simpa [slotsA] using member)))
      have notC : child ≠ last.2 := fun same => distinctA (same ▸ member)
      simp [notA, notB, notP, notC, map_setParentPageId_of_parent found pointsBack]
    · intro child member
      simp only [slotsA, List.append_assoc, List.singleton_append,
        List.drop_left' rfl] at member
      simp only [children, List.map_cons, List.mem_cons] at member
      rcases member with rfl | member
      · simp [differsCP, storedC]
      · obtain ⟨page, found, pointsBack, -⟩ := linked.child storedB member
        obtain ⟨-, -, -, notA, notB, notP⟩ := childFacts (.inr member)
        have notC : child ≠ last.2 := fun same => by
          rw [same, storedC] at found
          cases found
          exact differsAB (lastParent.symm.trans pointsBack)
        simp [notA, notB, notP, notC, map_setParentPageId_of_parent found pointsBack]
    · intro pageId isA isB isP notE
      have notC : pageId ≠ last.2 := fun same => notE (by
        rw [same]; simp only [children, List.map_append, List.mem_append]
        exact .inl lastMember)
      simp [isA, isB, isP, notC]
    · simp [PageSized, slotsA, parentA, validP]; omega
    · simp [PageSized, slotsA, parentB, validP]; omega

end Redistribute

/-! ## One pass, and the whole cascade -/

section Pass

variable {t : BPlusTree K V} {place : Int → Place K}

/-- A page below the root keeps its size bounds as the root. -/
theorem PageSized.asRoot {page : BPlusTreePage K V} (sized : PageSized t page)
    (child : page.parentPageId ≠ invalidPageId) (leafMin : 2 ≤ t.leafMaxSize)
    (internalMin : 4 ≤ t.internalMaxSize) : PageSized t (page.setParentPageId invalidPageId) := by
  obtain ⟨low, high⟩ := sized
  unfold BPlusTreePage.getMinSize at low
  rw [if_neg child] at low
  cases page with
  | leaf leaf =>
      simp only [BPlusTreePage.getMaxSize_leaf, BPlusTreePage.getSize_leaf] at low high
      exact ⟨by simp; omega, by simpa using high⟩
  | internal node =>
      simp only [BPlusTreePage.getMaxSize_internal, BPlusTreePage.getSize_internal] at low high
      exact ⟨by simp; omega, by simpa using high⟩

/-- A pass of `CoalesceOrRedistribute` at the root: `AdjustRoot` drops an empty root leaf, hands
an internal root with one child over to the child, and leaves any other root as it is. -/
theorem coalesceOrRedistribute_root (fuel : Nat) (linked : Linked t place)
    (sized : SizedBut t t.rootPageId) (leafMin : 2 ≤ t.leafMaxSize)
    (internalMin : 4 ≤ t.internalMaxSize) {page : BPlusTreePage K V}
    (stored : t.pages t.rootPageId = some page) (underflows : Underflows t page) :
    ∃ t' deleted, BPlusTree.coalesceOrRedistribute (fuel + 1) t t.rootPageId = .ok (t', deleted) ∧
      Settles t t' := by
  have rootParent : page.parentPageId = invalidPageId := (linked.isRoot _ _ stored).2 rfl
  rw [BPlusTree.coalesceOrRedistribute.eq_2]
  simp only [BPlusTree.fetchPage_eq stored, rootParent, eq_self_iff_true, if_true, bind,
    Except.bind]
  cases page with
  | leaf leaf =>
      simp only [BPlusTreePage.parentPageId_leaf] at rootParent
      have empty : leaf.array = [] := by
        have := (underflows_leaf.1 underflows).2
        simp only [BPlusTreePage.getMinSize_leaf, rootParent, if_true] at this
        exact List.eq_nil_of_length_eq_zero (by omega)
      have none : ∀ pageId, pageId ≠ t.rootPageId → t.pages pageId = none := fun pageId isR => by
        by_contra present
        exact isR (linked.eq_root_of_leaf stored present)
      have nothing : ∀ key value, ¬ Holds t key value := fun key value ⟨pageId, leaf', found, member⟩ => by
        by_cases isR : pageId = t.rootPageId
        · rw [isR, stored] at found
          cases found
          simp [empty] at member
        · rw [none pageId isR] at found; cases found
      simp only [BPlusTree.adjustRoot_leaf_eq stored rootParent empty, pure, Except.pure,
        eq_self_iff_true, if_true]
      refine ⟨({ t with rootPageId := invalidPageId }).deletePage t.rootPageId, true, rfl,
        ⟨_, linked_of_empty (fun pageId => ?_) rfl⟩, fun pageId page found => ?_, rfl, rfl,
        fun key value => iff_of_false (fun ⟨pageId, leaf', found, _⟩ => ?_) (nothing key value)⟩
      · by_cases isR : pageId = t.rootPageId
        · simp [isR]
        · simpa [isR] using none pageId isR
      all_goals
        by_cases isR : pageId = t.rootPageId
        · simp [isR] at found
        · simp only [BPlusTree.deletePage_pages, isR, if_false, none pageId isR] at found
          cases found
  | internal node =>
      simp only [BPlusTreePage.parentPageId_internal] at rootParent
      obtain ⟨lowR, underR⟩ := underflows_internal.1 underflows
      simp only [BPlusTreePage.getMinSize_internal, rootParent, if_true] at lowR underR
      by_cases one : node.array.length = 1
      · obtain ⟨⟨key, C⟩, only⟩ := List.length_eq_one.1 one
        have member : C ∈ children node.array := by simp [children, only]
        obtain ⟨pageC, storedC, parentC, heightC⟩ := linked.child stored member
        have differs : C ≠ t.rootPageId := fun same => by rw [same] at heightC; omega
        have validC : C ≠ invalidPageId := linked.ne_invalid (by simp [storedC])
        simp only [BPlusTree.adjustRoot_only_eq stored only storedC differs, pure, Except.pure,
          eq_self_iff_true, if_true]
        refine ⟨(({ t.writePage t.rootPageId (.internal { node with array := [] }) with
          rootPageId := C }).writePage C (pageC.setParentPageId invalidPageId)).deletePage
            t.rootPageId, true, rfl, ⟨place, linked.promoteChild stored only (by simp)
              (by simp [differs, storedC]) (fun pageId isR isC => by simp [isR, isC]) rfl rfl⟩,
            fun pageId page found => ?_, rfl, rfl, holds_congr fun pageId => ?_⟩
        · by_cases isR : pageId = t.rootPageId
          · simp [isR] at found
          by_cases isC : pageId = C
          · subst isC
            simp only [BPlusTree.deletePage_pages, BPlusTree.writePage_pages, differs, if_true,
              if_false, Option.some.injEq] at found
            subst found
            have below : pageC.parentPageId ≠ invalidPageId := by
              rw [parentC]; exact linked.ne_invalid (by simp [stored])
            exact (sized pageId pageC storedC differs).asRoot below leafMin internalMin
          · simp only [BPlusTree.deletePage_pages, BPlusTree.writePage_pages, isR, isC,
              if_false] at found
            exact sized pageId page found isR
        · by_cases isR : pageId = t.rootPageId
          · simp [isR, stored]
          by_cases isC : pageId = C
          · subst isC
            simp only [BPlusTree.deletePage_pages, BPlusTree.writePage_pages, differs, if_true,
              if_false, storedC]
            cases pageC <;> rfl
          · simp [isR, isC]
      · rw [BPlusTree.adjustRoot_internal_eq stored one]
        exact ⟨t, false, rfl, ⟨_, linked⟩, sized.sized stored ⟨by simp [rootParent]; omega,
          by simp; omega⟩, Keeps.refl t⟩

/-- A pass of `CoalesceOrRedistribute` below the root: the page merges with or borrows from its
left sibling, or its right one when it is the first child, and a merge runs the next pass on the
parent. -/
theorem coalesceOrRedistribute_child {fuel : Nat} (cascade : CascadeFramed (K := K) (V := V) fuel)
    (linked : Linked t place) {N : Int} (sized : SizedBut t N) (leafMin : 2 ≤ t.leafMaxSize)
    (internalMin : 4 ≤ t.internalMaxSize) {page : BPlusTreePage K V}
    (stored : t.pages N = some page) (underflows : Underflows t page) (notRoot : N ≠ t.rootPageId)
    (reach : 2 * ((place t.rootPageId).height - (place N).height) < fuel + 2) :
    ∃ t' deleted, BPlusTree.coalesceOrRedistribute (fuel + 2) t N = .ok (t', deleted) ∧
      Settles t t' ∧ KeepsAboveSafe .delete t t' place N := by
  obtain ⟨parent, storedP, member, height, -⟩ := linked.parent_placed stored notRoot
  have presentP : t.pages page.parentPageId ≠ none := by simp [storedP]
  have validP : page.parentPageId ≠ invalidPageId := fun root =>
    notRoot ((linked.isRoot _ _ stored).1 root)
  obtain ⟨j, insideJ, slotJ⟩ := exists_slot_of_mem member
  have distinct := (linked.internal _ _ storedP).fence.nodup
  have differsPN : page.parentPageId ≠ N := fun same => by rw [same] at height; omega
  have twoSlots : 2 ≤ parent.array.length := by
    have := (sized _ _ storedP differsPN).1
    simp only [BPlusTreePage.getMinSize_internal, BPlusTreePage.getSize_internal] at this
    split_ifs at this <;> omega
  have reachP : 2 * ((place t.rootPageId).height - (place page.parentPageId).height) < fuel := by
    have := linked.tall page.parentPageId (by simp [storedP])
    omega
  have index : parent.valueIndex N = j := slotJ ▸ BPlusTreeInternalPage.valueIndex_getElem distinct insideJ
  rw [BPlusTree.coalesceOrRedistribute.eq_2]
  simp only [BPlusTree.fetchPage_eq stored, validP, if_false,
    BPlusTree.findLeftSibling_eq stored storedP distinct insideJ slotJ twoSlots,
    BPlusTree.fetchInternal_eq storedP, bind, Except.bind]
  rcases j with _ | i
  · -- the first child: its sibling is the child of slot 1
    have inside : 0 + 1 < parent.array.length := by omega
    obtain ⟨pageB, storedB, -⟩ := linked.child storedP (mem_children_of_getElem inside)
    simp only [decide_True, if_true, childOf_eq_getElem inside, BPlusTree.fetchPage_eq storedB]
    split_ifs with fits
    · obtain ⟨t', deleted, run, settles, frame⟩ := coalesce_settles cascade linked storedP inside
        slotJ rfl (.inl rfl) sized leafMin internalMin stored storedB stored fits reachP
      refine ⟨t', true, ?_, settles, frame.of_parent linked stored underflows.not_safe⟩
      rw [BPlusTreeInternalPage.valueIndex_getElem distinct inside, run]
      rfl
    · obtain ⟨t', run, settles, above⟩ := redistribute_right_settles linked storedP inside slotJ rfl
        sized internalMin stored storedB underflows (by omega)
      refine ⟨t', false, ?_, settles,
        (above.aboveSafe linked presentP).of_parent linked stored underflows.not_safe⟩
      rw [index]
      simp [run, pure, Except.pure]
  · -- a later child: its sibling is the child of the slot before
    have inside : i < parent.array.length := by omega
    obtain ⟨pageA, storedA, -⟩ := linked.child storedP (mem_children_of_getElem inside)
    simp only [Nat.add_one_ne_zero, decide_False, if_false, Nat.add_sub_cancel,
      childOf_eq_getElem inside, BPlusTree.fetchPage_eq storedA, Bool.false_eq_true, index]
    split_ifs with fits
    · obtain ⟨t', deleted, run, settles, frame⟩ := coalesce_settles cascade linked storedP insideJ
        rfl slotJ (.inr rfl) sized leafMin internalMin storedA stored stored (by omega) reachP
      exact ⟨t', true, by rw [run]; rfl, settles, frame.of_parent linked stored underflows.not_safe⟩
    · obtain ⟨t', run, settles, above⟩ := redistribute_left_settles linked storedP insideJ rfl slotJ
        sized internalMin storedA stored underflows (by omega)
      exact ⟨t', false, by rw [run]; rfl, settles,
        (above.aboveSafe linked presentP).of_parent linked stored underflows.not_safe⟩

/-- `CoalesceOrRedistribute` settles the tree with any number of passes that reach the root,
and keeps every page above a page that is safe for the delete. -/
theorem cascadeFramed : ∀ fuel, CascadeFramed (K := K) (V := V) fuel
  | 0 => fun _ _ _ _ _ _ _ _ _ _ reach => by omega
  | 1 => fun t place node page linked sized leafMin internalMin stored underflows reach => by
      have root := linked.eq_root (show t.pages node ≠ none by simp [stored]) (by omega)
      subst root
      obtain ⟨t', deleted, run, settles⟩ :=
        coalesceOrRedistribute_root 0 linked sized leafMin internalMin stored underflows
      exact ⟨t', deleted, run, settles, linked.keepsAboveSafe_root stored underflows.not_safe⟩
  | fuel + 2 => fun t place node page linked sized leafMin internalMin stored underflows reach => by
      by_cases root : node = t.rootPageId
      · subst root
        obtain ⟨t', deleted, run, settles⟩ := coalesceOrRedistribute_root (fuel + 1) linked sized
          leafMin internalMin stored underflows
        exact ⟨t', deleted, run, settles, linked.keepsAboveSafe_root stored underflows.not_safe⟩
      · exact coalesceOrRedistribute_child (cascadeFramed fuel) linked sized leafMin internalMin
          stored underflows root reach

end Pass

/-! ## `Remove` -/

section RemoveSpec

variable {t : BPlusTree K V}

/-- `RemoveAndDeleteRecord` takes out at most one entry. -/
theorem BPlusTreeLeafPage.length_removeAndDeleteRecord (page : BPlusTreeLeafPage K V) (key : K) :
    page.array.length ≤ (page.removeAndDeleteRecord key).array.length + 1 := by
  dsimp only [BPlusTreeLeafPage.removeAndDeleteRecord]
  split_ifs
  · omega
  · omega
  · rw [List.length_eraseIdx]
    split <;> omega

/-- `Remove(key)` on a tree that is not empty, whose `FindLeafPage(key)` returns the leaf `X`:
the leaf without the key's entry is written back, and `CoalesceOrRedistribute` runs on it when
it underflows. -/
theorem remove_eq {key : K} {X : Int} {leaf : BPlusTreeLeafPage K V}
    (nonempty : t.rootPageId ≠ invalidPageId) (found : t.findLeafPage key false = .ok (some X))
    (stored : t.pages X = some (.leaf leaf)) :
    t.remove key =
      if (leaf.removeAndDeleteRecord key).array.length <
          (BPlusTreePage.leaf (leaf.removeAndDeleteRecord key)).getMinSize t.leafMaxSize
            t.internalMaxSize
      then ((t.writePage X (.leaf (leaf.removeAndDeleteRecord key))).coalesceOrRedistribute
          (2 * (t.writePage X (.leaf (leaf.removeAndDeleteRecord key))).fuel) X).map Prod.fst
      else .ok (t.writePage X (.leaf (leaf.removeAndDeleteRecord key))) := by
  have notEmpty : t.isEmpty = false := by simp [BPlusTree.isEmpty, nonempty]
  simp only [BPlusTree.remove, notEmpty, Bool.false_eq_true, if_false, found,
    BPlusTree.fetchLeaf_eq stored, bind, Except.bind, BPlusTree.writePage_leafMaxSize,
    BPlusTree.writePage_internalMaxSize]
  split_ifs
  · split <;> simp_all [Except.map, pure, Except.pure]
  · rfl

variable {place : Int → Place K}

/-- The leaf `Remove` writes back keeps the layout. -/
theorem Linked.removeRecord (linked : Linked t place) {X : Int} {leaf : BPlusTreeLeafPage K V}
    (stored : t.pages X = some (.leaf leaf)) (key : K) :
    Linked (t.writePage X (.leaf (leaf.removeAndDeleteRecord key))) place := by
  have placed := linked.leaf X leaf stored
  rw [BPlusTreeLeafPage.removeAndDeleteRecord_eq placed.sorted]
  exact linked.writeLeaf stored _ (placed.sorted.sublist ((List.filter_sublist _).map _))
    fun entry member => placed.inRange entry (List.mem_of_mem_filter member)

/-- A leaf that `Remove` leaves below its minimum is handed to a cascade that settles the tree,
with the passes `Remove` gives it. -/
theorem remove_cascade (linked : Linked t place) (sized : Sized t) (leafMin : 2 ≤ t.leafMaxSize)
    (internalMin : 4 ≤ t.internalMaxSize) {X : Int} {leaf : BPlusTreeLeafPage K V}
    (stored : t.pages X = some (.leaf leaf)) (key : K)
    (underflow : (leaf.removeAndDeleteRecord key).array.length <
      (BPlusTreePage.leaf (leaf.removeAndDeleteRecord key)).getMinSize t.leafMaxSize
        t.internalMaxSize) :
    ∃ t' deleted, (t.writePage X (.leaf (leaf.removeAndDeleteRecord key))).coalesceOrRedistribute
        (2 * (t.writePage X (.leaf (leaf.removeAndDeleteRecord key))).fuel) X = .ok (t', deleted) ∧
      Settles (t.writePage X (.leaf (leaf.removeAndDeleteRecord key))) t' ∧
      KeepsAboveSafe .delete (t.writePage X (.leaf (leaf.removeAndDeleteRecord key))) t' place X := by
  have placed := linked.leaf X leaf stored
  have shrunk := BPlusTreeLeafPage.length_removeAndDeleteRecord leaf key
  have sameMin : (BPlusTreePage.leaf (leaf.removeAndDeleteRecord key)).getMinSize t.leafMaxSize
      t.internalMaxSize = (BPlusTreePage.leaf leaf).getMinSize t.leafMaxSize t.internalMaxSize := by
    rw [BPlusTreeLeafPage.removeAndDeleteRecord_eq placed.sorted]; rfl
  have low := (sized X _ stored).1
  simp only [BPlusTreePage.getSize_leaf] at low
  refine cascadeFramed _ _ place X _ (linked.removeRecord stored key) (fun other page found isX => ?_)
    leafMin internalMin (show _ = some (BPlusTreePage.leaf (leaf.removeAndDeleteRecord key)) by simp)
    ?_ ?_
  · simp only [BPlusTree.writePage_pages, if_neg isX] at found
    exact sized other page found
  · rw [underflows_leaf]
    simp only [BPlusTree.writePage_leafMaxSize, BPlusTree.writePage_internalMaxSize, sameMin]
    rw [sameMin] at underflow
    exact ⟨by omega, underflow⟩
  · have := linked.short
    simp only [BPlusTree.writePage_rootPageId, BPlusTree.fuel, BPlusTree.writePage_nextPageId,
      placed.height]
    omega

/-- `Remove(key)` on a valid tree returns, with the entry of `key` deleted and every other entry
kept, and the tree valid again. -/
theorem remove_spec (valid : Valid t) (key : K) :
    ∃ t', t.remove key = .ok t' ∧ Valid t' ∧
      ∀ key' value, Holds t' key' value ↔ Holds t key' value ∧ key' ≠ key := by
  obtain ⟨⟨place, linked⟩, sized, leafMin, internalMin⟩ := valid
  by_cases empty : t.rootPageId = invalidPageId
  · have none := linked.empty empty
    refine ⟨t, by simp [BPlusTree.remove, BPlusTree.isEmpty, empty],
      ⟨⟨place, linked⟩, sized, leafMin, internalMin⟩, fun key' value => ?_⟩
    have nothing : ¬ Holds t key' value := fun ⟨_, _, found, _⟩ => by simp [none] at found
    simp [nothing]
  obtain ⟨X, leaf, found, stored, inside⟩ :=
    findLeafPage_spec linked empty (sized.twoSlots internalMin) key
  have placed := linked.leaf X leaf stored
  have holds1 : ∀ key' value, Holds (t.writePage X (.leaf (leaf.removeAndDeleteRecord key))) key'
      value ↔ Holds t key' value ∧ key' ≠ key := by
    intro key' value
    rw [holds_writePage_leaf, BPlusTreeLeafPage.removeAndDeleteRecord_array placed.sorted,
      List.mem_filter]
    constructor
    · rintro (⟨member, differs⟩ | ⟨other, isX, leaf', found', member⟩)
      · exact ⟨⟨X, leaf, stored, member⟩, by simpa using differs⟩
      · refine ⟨⟨other, leaf', found', member⟩, fun same => isX ?_⟩
        subst same
        exact linked.leaf_unique found' stored ((linked.leaf _ _ found').inRange _ member) inside
    · rintro ⟨⟨other, leaf', found', member⟩, differs⟩
      by_cases isX : other = X
      · subst isX
        rw [stored] at found'
        cases found'
        exact .inl ⟨member, by simpa using differs⟩
      · exact .inr ⟨other, isX, leaf', found', member⟩
  rw [remove_eq empty found stored]
  split_ifs with underflow
  · obtain ⟨t', deleted, run, ⟨linked', sized', keeps⟩, -⟩ :=
      remove_cascade linked sized leafMin internalMin stored key underflow
    refine ⟨t', by rw [run]; rfl, ⟨linked', sized', ?_, ?_⟩,
      fun key' value => (keeps.holds key' value).trans (holds1 key' value)⟩
    · rw [keeps.leafMaxSize]; exact leafMin
    · rw [keeps.internalMaxSize]; exact internalMin
  · have atMost : (leaf.removeAndDeleteRecord key).array.length ≤ leaf.array.length := by
      rw [BPlusTreeLeafPage.removeAndDeleteRecord_array placed.sorted]
      exact List.length_filter_le _ _
    have high := (sized X _ stored).2
    have sameMin : (BPlusTreePage.leaf (leaf.removeAndDeleteRecord key)).getMinSize
        t.leafMaxSize t.internalMaxSize =
          (BPlusTreePage.leaf leaf).getMinSize t.leafMaxSize t.internalMaxSize := by
      rw [BPlusTreeLeafPage.removeAndDeleteRecord_eq placed.sorted]; rfl
    have sized1 : SizedBut (t.writePage X (.leaf (leaf.removeAndDeleteRecord key))) X :=
      fun other page found' isX => by
        simp only [BPlusTree.writePage_pages, if_neg isX] at found'
        exact sized other page found'
    refine ⟨_, rfl, ⟨⟨place, linked.removeRecord stored key⟩, sized1.sized
      (show _ = some (BPlusTreePage.leaf (leaf.removeAndDeleteRecord key)) by simp) ⟨?_, ?_⟩,
      leafMin, internalMin⟩, holds1⟩
    · simp only [BPlusTree.writePage_leafMaxSize, BPlusTree.writePage_internalMaxSize,
        BPlusTreePage.getSize_leaf]
      omega
    · simp only [BPlusTree.writePage_leafMaxSize, BPlusTreePage.getSize_leaf,
        BPlusTreePage.getMaxSize_leaf] at high ⊢
      omega

/-- **`Remove(key)` stops below a safe page.** For a page at or above `key`'s leaf that
`IsSafeOperation(DELETE)` calls safe, `Remove` keeps the root and every page above it. -/
theorem remove_keepsAbove (linked : Linked t place) (sized : Sized t) (leafMin : 2 ≤ t.leafMaxSize)
    (internalMin : 4 ≤ t.internalMaxSize) {key : K} {X : Int} {leaf : BPlusTreeLeafPage K V}
    (nonempty : t.rootPageId ≠ invalidPageId) (found : t.findLeafPage key false = .ok (some X))
    (stored : t.pages X = some (.leaf leaf)) {N : Int} {depth : Nat} (descends : Descends t N X depth)
    {pageN : BPlusTreePage K V} (storedN : t.pages N = some pageN)
    (safe : pageN.isSafeOperation t.leafMaxSize t.internalMaxSize .delete) :
    ∃ t', t.remove key = .ok t' ∧ KeepsAbove t t' place (place N).height := by
  rw [remove_eq nonempty found stored]
  split_ifs with underflow
  · obtain ⟨t', deleted, run, -, frame⟩ :=
      remove_cascade linked sized leafMin internalMin stored key underflow
    refine ⟨t', by rw [run]; rfl, ?_⟩
    cases depth with
    | zero =>
        -- a safe leaf keeps its minimum after one entry goes
        cases descends
        rw [stored] at storedN
        cases storedN
        have shrunk := BPlusTreeLeafPage.length_removeAndDeleteRecord leaf key
        have sameMin : (BPlusTreePage.leaf (leaf.removeAndDeleteRecord key)).getMinSize
            t.leafMaxSize t.internalMaxSize =
              (BPlusTreePage.leaf leaf).getMinSize t.leafMaxSize t.internalMaxSize := by
          rw [BPlusTreeLeafPage.removeAndDeleteRecord_eq (linked.leaf X leaf stored).sorted]; rfl
        simp only [BPlusTreePage.isSafeOperation, BPlusTreePage.getSize_leaf,
          decide_eq_true_eq] at safe
        omega
    | succ depth => exact (frame.of_writeLeaf linked stored).above descends storedN safe
  · exact ⟨_, rfl, (linked.keepsAbove_writeLeaf stored _).mono (Nat.zero_le _)⟩

end RemoveSpec

end ScuDb.Index
