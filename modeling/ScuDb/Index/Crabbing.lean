import ScuDb.Index.Refinement

/-!
Contract: the crabbing protocol of the project2 `BPlusTree`
(src/project/project2/scudb_initial/src/index/b_plus_tree.cpp) releases, in
`CrabingProtocalFetchPage`, every page above a page that `IsSafeOperation` calls safe, and the
release is sound: on every reachable tree, for every page `FindLeafPage(key)` fetches that is
safe for the insert (or the delete), the `Insert(key, value)` (or `Remove(key)`) that follows keeps
`root_page_id_` and every proper ancestor of that page (`safe_page_keeps_ancestors`).

Owns: the pages `FindLeafPage` fetches (`OnPath`), that `key` lies in the interval of each of them
(`OnPath.inRange`) and that each of them is above `key`'s leaf (`Linked.descends_of_inRange`).

Does not own: the frame of the split climb and of the `CoalesceOrRedistribute` cascade
(`insertIntoLeaf_keepsAbove`, `remove_keepsAbove`), and the latches themselves, which order the
threads' sections and change no page (`ScuDb.Index.Concurrent`).

## Thresholds

`IsSafeOperation(INSERT)` is `size < max`, and `InsertIntoLeaf` and `InsertIntoParent` split at
`size > max` once a slot is added; `IsSafeOperation(DELETE)` is `size ≥ min + 1` on a leaf, where
`Remove` restructures at `size < min` after one entry goes, and `size > min + 1` on an internal
page, where `Coalesce` recurses at `size ≤ min` after one slot goes. The theorems below are where
the two sets of thresholds are shown to agree, for the root and the other pages alike.
-/

namespace ScuDb.Index

open ScuDb.Buffer (invalidPageId)

variable {K V : Type} [LinearOrder K] [Zero K]

/-! ## The pages `FindLeafPage` fetches -/

/-- The pages `FindLeafPage(key, false, op)` fetches through `CrabingProtocalFetchPage`: the root
of a tree that is not empty, then, on each internal page fetched, the child `Lookup(key)`
names. -/
inductive OnPath (t : BPlusTree K V) (key : K) : Int → Prop
  | root : t.rootPageId ≠ invalidPageId → OnPath t key t.rootPageId
  | child {pageId child : Int} {node : BPlusTreeInternalPage K} : OnPath t key pageId →
      t.pages pageId = some (.internal node) → node.lookup key = .ok child → OnPath t key child

section Path

variable {t : BPlusTree K V} {place : Int → Place K} {key : K}
  (linked : Linked t place)
  (twoSlots : ∀ pageId page, t.pages pageId = some (.internal page) → 2 ≤ page.array.length)
include linked twoSlots

/-- Every page on the path holds `key` in its interval. -/
theorem OnPath.inRange {pageId : Int} (onPath : OnPath t key pageId) :
    InRange (place pageId).lo (place pageId).hi key := by
  induction onPath with
  | root nonempty =>
      rcases linked.root with ⟨empty, -⟩ | ⟨-, lo, hi⟩
      · exact absurd empty nonempty
      · simp [InRange, lo, hi]
  | child _ stored found inductionHypothesis =>
      obtain ⟨child, found', -, inside⟩ :=
        lookup_step linked stored (twoSlots _ _ stored) inductionHypothesis
      rw [found, Except.ok.injEq] at found'
      exact found' ▸ inside

/-- A page whose interval holds `key` is above `key`'s leaf, by as many slots as its height. -/
theorem Linked.descends_of_inRange {X : Int} {leaf : BPlusTreeLeafPage K V}
    (storedX : t.pages X = some (.leaf leaf)) (insideX : InRange (place X).lo (place X).hi key) :
    ∀ (height : Nat) {pageId : Int}, (place pageId).height = height →
      t.pages pageId ≠ none → InRange (place pageId).lo (place pageId).hi key →
        Descends t pageId X height
  | 0, pageId, atHeight, present, inside => by
      rw [linked.eq_of_overlaps' present (by simp [storedX])
        (by rw [atHeight, (linked.leaf X leaf storedX).height])
        (overlaps_of_inRange inside insideX)]
      exact .refl _
  | height + 1, pageId, atHeight, present, inside => by
      obtain ⟨page, stored⟩ := Option.ne_none_iff_exists'.1 present
      cases page with
      | leaf leaf' =>
          have := (linked.leaf pageId leaf' stored).height
          omega
      | internal node =>
          obtain ⟨child, -, member, inside'⟩ :=
            lookup_step linked stored (twoSlots _ _ stored) inside
          obtain ⟨_, storedChild, -, heightChild⟩ := linked.child stored member
          exact .child stored member (Linked.descends_of_inRange storedX insideX height
            (by omega) (by simp [storedChild]) inside')

end Path

/-- A step that keeps every page above `N` keeps every proper ancestor of `N`. -/
theorem KeepsAbove.ancestors {t t' : BPlusTree K V} {place : Int → Place K} {N : Int}
    (linked : Linked t place) (keeps : KeepsAbove t t' place (place N).height)
    (present : t.pages N ≠ none) {M : Int} {depth : Nat} (descends : Descends t M N (depth + 1)) :
    t'.pages M = t.pages M := by
  have height := (linked.descends_place descends present).1
  cases descends with
  | child stored _ _ => exact keeps.pages M (by simp [stored]) (by omega)

/-! ## The release of the ancestors -/

section Crabbing

variable {t : BPlusTree K V} {key : K} {N : Int} {pageN : BPlusTreePage K V}

/-- **Crabbing releases the ancestors of a safe page soundly.** On a reachable tree, let `N` be a
page `FindLeafPage(key)` fetches. When `IsSafeOperation(INSERT)` holds of `N`, every
`Insert(key, value)` completes and keeps `root_page_id_` and every proper ancestor of `N`; when
`IsSafeOperation(DELETE)` holds of `N`, so does `Remove(key)`. -/
theorem safe_page_keeps_ancestors (reach : Reachable t) (onPath : OnPath t key N)
    (storedN : t.pages N = some pageN) :
    (pageN.isSafeOperation t.leafMaxSize t.internalMaxSize .insert → ∀ value : V,
      ∃ t' inserted, t.insert key value = .ok (t', inserted) ∧ t'.rootPageId = t.rootPageId ∧
        ∀ M depth, Descends t M N (depth + 1) → t'.pages M = t.pages M) ∧
    (pageN.isSafeOperation t.leafMaxSize t.internalMaxSize .delete →
      ∃ t', t.remove key = .ok t' ∧ t'.rootPageId = t.rootPageId ∧
        ∀ M depth, Descends t M N (depth + 1) → t'.pages M = t.pages M) := by
  obtain ⟨⟨place, linked⟩, sized, leafMin, internalMin⟩ := reach.valid
  have presentN : t.pages N ≠ none := by simp [storedN]
  have nonempty : t.rootPageId ≠ invalidPageId := fun empty => presentN (linked.empty empty N)
  have twoSlots := sized.twoSlots internalMin
  obtain ⟨X, leaf, found, storedX, insideX⟩ := findLeafPage_spec linked nonempty twoSlots key
  have descends := linked.descends_of_inRange twoSlots storedX insideX _ rfl presentN
    (onPath.inRange linked twoSlots)
  refine ⟨fun safe value => ?_, fun safe => ?_⟩
  · obtain ⟨t', inserted, run, keeps⟩ := insertIntoLeaf_keepsAbove found storedX linked sized
      leafMin internalMin insideX value descends storedN safe
    refine ⟨t', inserted, ?_, keeps.root, fun M depth => keeps.ancestors linked presentN⟩
    simpa [BPlusTree.insert, BPlusTree.isEmpty, nonempty] using run
  · obtain ⟨t', run, keeps⟩ := remove_keepsAbove linked sized leafMin internalMin nonempty
      found storedX descends storedN safe
    exact ⟨t', run, keeps.root, fun M depth => keeps.ancestors linked presentN⟩

/-- `Insert(35, 7)` into the tree of six ascending inserts: the leaf `4`, which holds `30`, is on
the path of `35` below the root `8` and the internal page `7`, and has room, so the insert keeps
the root and both pages above the leaf. -/
theorem safe_page_keeps_ancestors_three_levels :
    ∃ t replies, treeRun (BPlusTree.empty 2 4 1) (ascendingInserts 6) = .ok (t, replies) ∧
      t.rootPageId = 8 ∧ t.pages 4 = some (.leaf ⟨7, 5, [(30, 3)]⟩) ∧
      ∃ t' inserted, t.insert 35 7 = .ok (t', inserted) ∧ t'.rootPageId = 8 ∧
        t'.pages 8 = t.pages 8 ∧ t'.pages 7 = t.pages 7 := by
  obtain ⟨replies, ran, reach⟩ := treeRun_ascendingInserts_six
  have stored8 : sixInsertTree.pages 8 = some (.internal ⟨invalidPageId, [(0, 3), (30, 7)]⟩) := by
    decide
  have stored7 : sixInsertTree.pages 7 = some (.internal ⟨8, [(30, 4), (40, 5), (50, 6)]⟩) := by
    decide
  have stored4 : sixInsertTree.pages 4 = some (.leaf ⟨7, 5, [(30, 3)]⟩) := by decide
  have atRoot : OnPath sixInsertTree 35 8 := .root (by decide)
  have below7 : Descends sixInsertTree 7 4 1 := .child stored7 (by decide) (.refl 4)
  obtain ⟨t', inserted, run, keepsRoot, keeps⟩ := (safe_page_keeps_ancestors reach
    (.child (.child atRoot stored8 rfl) stored7 rfl) stored4).1 (by decide) 7
  exact ⟨sixInsertTree, replies, ran, rfl, stored4, t', inserted, run, keepsRoot,
    keeps 8 1 (.child stored8 (by decide) below7), keeps 7 0 below7⟩

end Crabbing

end ScuDb.Index
