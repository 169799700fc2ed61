import ScuDb.Index.Check

/-!
Contract: how many keys a tree of the project2 `BPlusTree` holds for its height. On every
reachable tree that is not empty, `isBalanced(root_page_id_)` returns a height `h`, and the tree
holds at least one key when `h = 0` and at least
`2 · ⌊internal_max_size / 2⌋ ^ (h - 1) · ⌊leaf_max_size / 2⌋` distinct keys otherwise:
`FindLeafPage` fetches `h + 1` pages, logarithmically many in the number of keys.

Owns: the keys held below a page (`HeldKeys`), joined along the separator chain
(`Fence.keys_join`), and the bound for a page below the root (`Linked.keys_below`).

Does not own: the size bounds every operation keeps (`Sized`: `insert_spec`, `remove_spec`) and
the height `isBalanced` returns (`Linked.isBalanced_eq`).

## Why the bound

A page other than the root holds at least `GetMinSize()` entries: `⌊leaf_max_size / 2⌋` on a leaf,
`⌊internal_max_size / 2⌋` children on an internal page; an internal root has at least 2
children. Each child's keys lie in the child's interval and the intervals of a page's children do
not overlap, so the keys below a page add up over its children with no key counted twice.
-/

set_option linter.unusedSectionVars false

namespace ScuDb.Index

open ScuDb.Buffer (invalidPageId)

variable {K V : Type} [LinearOrder K] [Zero K]

/-- At least `bound` distinct keys that the tree holds lie in `[lo, hi)`. -/
def HeldKeys (t : BPlusTree K V) (lo hi : Option K) (bound : Nat) : Prop :=
  ∃ keys : List K, keys.Nodup ∧ (∀ key ∈ keys, (∃ value, Holds t key value) ∧ InRange lo hi key) ∧
    bound ≤ keys.length

section Keys

variable {t : BPlusTree K V} {place : Int → Place K} {height bound : Nat}

theorem HeldKeys.mono {lo hi : Option K} {bound' : Nat} (held : HeldKeys t lo hi bound)
    (le : bound' ≤ bound) : HeldKeys t lo hi bound' :=
  let ⟨keys, nodup, inside, length⟩ := held
  ⟨keys, nodup, inside, le.trans length⟩

/-- Along a separator chain, children with `bound` held keys each in their intervals give
`length · bound` held keys in the chain's interval. -/
theorem Fence.keys_join : ∀ {lo hi : Option K} {array : List (K × Int)},
    Fence place height lo array hi →
      (∀ child ∈ children array, HeldKeys t (place child).lo (place child).hi bound) →
        HeldKeys t lo hi (array.length * bound)
  | _, _, [], chain, _ => chain.elim
  | _, _, [(_, child)], chain, each => by
      have held := each child (List.mem_singleton_self _)
      rw [chain.2] at held
      simpa using held
  | lo, hi, (_, child) :: (key, next) :: rest, chain, each => by
      obtain ⟨below, placed, later⟩ := chain
      obtain ⟨front, frontNodup, frontKeys, frontLength⟩ := each child (List.mem_cons_self _ _)
      rw [placed] at frontKeys
      obtain ⟨back, backNodup, backKeys, backLength⟩ :=
        later.keys_join fun other member => each other (List.mem_cons_of_mem _ member)
      have above := later.ascends
      refine ⟨front ++ back, List.nodup_append.2 ⟨frontNodup, backNodup, ?_⟩, ?_, ?_⟩
      · intro k inFront inBack
        exact absurd ((frontKeys k inFront).2.2 key rfl) (not_lt.2 ((backKeys k inBack).2.1 key rfl))
      · intro k member
        rcases List.mem_append.1 member with inFront | inBack
        · obtain ⟨held, atLeast, beforeKey⟩ := frontKeys k inFront
          exact ⟨held, atLeast, fun h isHi => (beforeKey key rfl).trans (above key rfl h isHi)⟩
        · obtain ⟨held, fromKey, atMost⟩ := backKeys k inBack
          exact ⟨held, fun l isLo => (below l isLo key rfl).le.trans (fromKey key rfl), atMost⟩
      · simp only [List.length_append, List.length_cons] at backLength ⊢
        rw [Nat.succ_mul]
        omega

/-- A leaf below the root holds at least `⌊leaf_max_size / 2⌋` keys of its interval. -/
theorem Linked.keys_of_leaf (linked : Linked t place) (sized : Sized t) {X : Int}
    {leaf : BPlusTreeLeafPage K V} (stored : t.pages X = some (.leaf leaf))
    (notRoot : leaf.parentPageId ≠ invalidPageId) :
    HeldKeys t (place X).lo (place X).hi (t.leafMaxSize / 2) := by
  have placed := linked.leaf _ _ stored
  have atLeast := (sized X _ stored).1
  simp only [BPlusTreePage.getMinSize_leaf, BPlusTreePage.getSize_leaf, if_neg notRoot]
    at atLeast
  refine ⟨leaf.array.map Prod.fst, placed.sorted.nodup, fun key member => ?_, by simpa using atLeast⟩
  obtain ⟨entry, inside, rfl⟩ := List.mem_map.1 member
  exact ⟨⟨entry.2, X, leaf, stored, inside⟩, placed.inRange entry inside⟩

/-- **The keys below a page.** A page below the root, `h` levels above the leaves, has at least
`⌊internal_max_size / 2⌋ ^ h · ⌊leaf_max_size / 2⌋` held keys in its interval. -/
theorem Linked.keys_below (linked : Linked t place) (sized : Sized t) :
    ∀ (h : Nat) {pageId : Int} {page : BPlusTreePage K V}, t.pages pageId = some page →
      page.parentPageId ≠ invalidPageId → (place pageId).height = h →
        HeldKeys t (place pageId).lo (place pageId).hi
          ((t.internalMaxSize / 2) ^ h * (t.leafMaxSize / 2))
  | h, pageId, .leaf leaf, stored, notRoot, atHeight => by
      rw [← atHeight, (linked.leaf _ _ stored).height, Nat.pow_zero, Nat.one_mul]
      exact linked.keys_of_leaf sized stored notRoot
  | 0, pageId, .internal node, stored, _, atHeight =>
      absurd atHeight (linked.internal _ _ stored).height
  | h + 1, pageId, .internal node, stored, notRoot, atHeight => by
      have placed := linked.internal _ _ stored
      have atLeast := (sized pageId _ stored).1
      simp only [BPlusTreePage.getMinSize_internal, BPlusTreePage.getSize_internal,
        BPlusTreePage.parentPageId_internal] at atLeast notRoot
      rw [if_neg notRoot] at atLeast
      have joined : HeldKeys t (place pageId).lo (place pageId).hi
          (node.array.length * ((t.internalMaxSize / 2) ^ h * (t.leafMaxSize / 2))) :=
        placed.fence.keys_join fun child member => by
          obtain ⟨childPage, found, pointsBack, below⟩ := linked.child stored member
          exact Linked.keys_below linked sized h found
            (by rw [pointsBack]; exact linked.ne_invalid (by simp [stored])) (by omega)
      refine joined.mono ?_
      calc (t.internalMaxSize / 2) ^ (h + 1) * (t.leafMaxSize / 2)
          = t.internalMaxSize / 2 * ((t.internalMaxSize / 2) ^ h * (t.leafMaxSize / 2)) := by
            rw [Nat.pow_succ, Nat.mul_comm _ (t.internalMaxSize / 2), Nat.mul_assoc]
        _ ≤ node.array.length * ((t.internalMaxSize / 2) ^ h * (t.leafMaxSize / 2)) :=
            Nat.mul_le_mul_right _ atLeast

end Keys

section Reachable

variable {t : BPlusTree K V}

/-- **A tree of height `h` holds exponentially many keys in `h`.** On every reachable tree that
is not empty, `isBalanced(root_page_id_)` returns a height `h`, and the tree holds at least one
key when `h = 0`, at least `2 · ⌊internal_max_size / 2⌋ ^ (h - 1) · ⌊leaf_max_size / 2⌋` distinct
keys otherwise. -/
theorem reachable_keys_of_height (reach : Reachable t) (nonempty : t.rootPageId ≠ invalidPageId) :
    ∃ h : Nat, t.isBalanced t.storePool t.fuel t.rootPageId = .ok (h : Int) ∧
      ∃ keys : List K, keys.Nodup ∧ (∀ key ∈ keys, ∃ value, Holds t key value) ∧
        (if h = 0 then 1 else 2 * (t.internalMaxSize / 2) ^ (h - 1) * (t.leafMaxSize / 2)) ≤
          keys.length := by
  obtain ⟨⟨place, linked⟩, sized, leafMin, internalMin⟩ := reach.valid
  have rootStored := linked.root_stored nonempty
  obtain ⟨page, stored⟩ := Option.ne_none_iff_exists'.1 rootStored
  have short := linked.short
  refine ⟨(place t.rootPageId).height,
    linked.isBalanced_eq t.fuel stored (by simp only [BPlusTree.fuel]; omega), ?_⟩
  have rootParent := (linked.isRoot _ _ stored).2 rfl
  cases page with
  | leaf leaf =>
      have placed := linked.leaf _ _ stored
      refine ⟨leaf.array.map Prod.fst, placed.sorted.nodup, fun key member => ?_, ?_⟩
      · obtain ⟨entry, inside, rfl⟩ := List.mem_map.1 member
        exact ⟨entry.2, _, leaf, stored, inside⟩
      · simpa [placed.height] using sized.leaf_nonempty leafMin stored
  | internal node =>
      have placed := linked.internal _ _ stored
      obtain ⟨h, atHeight⟩ : ∃ h, (place t.rootPageId).height = h + 1 :=
        ⟨_, (Nat.succ_pred_eq_of_ne_zero placed.height).symm⟩
      have twoSlots := sized.twoSlots internalMin _ _ stored
      obtain ⟨keys, nodup, inside, length⟩ : HeldKeys t (place t.rootPageId).lo
          (place t.rootPageId).hi
          (node.array.length * ((t.internalMaxSize / 2) ^ h * (t.leafMaxSize / 2))) :=
        placed.fence.keys_join fun child member => by
          obtain ⟨childPage, found, pointsBack, below⟩ := linked.child stored member
          exact linked.keys_below sized h found
            (by rw [pointsBack]; exact linked.ne_invalid rootStored) (by omega)
      refine ⟨keys, nodup, fun key member => (inside key member).1, ?_⟩
      rw [atHeight, if_neg (Nat.succ_ne_zero h), Nat.add_sub_cancel, Nat.mul_assoc]
      exact (Nat.mul_le_mul_right _ twoSlots).trans length

/-- The tree of six ascending inserts, of height 2 with leaves of at most two entries and
internal pages of at most four: it holds at least `2 · 2 ^ 1 · 1 = 4` keys. -/
theorem reachable_keys_of_height_three_levels :
    ∃ t replies, treeRun (BPlusTree.empty 2 4 1) (ascendingInserts 6) = .ok (t, replies) ∧
      (t.leafMaxSize = 2 ∧ t.internalMaxSize = 4 ∧ t.rootPageId = 8 ∧
        (t.isBalanced t.storePool t.fuel 8).toOption = some 2) ∧
      ∃ h : Nat, t.isBalanced t.storePool t.fuel t.rootPageId = .ok (h : Int) ∧
        ∃ keys : List Nat, keys.Nodup ∧ (∀ key ∈ keys, ∃ value, Holds t key value) ∧
          (if h = 0 then 1 else 2 * (t.internalMaxSize / 2) ^ (h - 1) * (t.leafMaxSize / 2)) ≤
            keys.length := by
  obtain ⟨replies, ran, reach⟩ := treeRun_ascendingInserts_six
  exact ⟨sixInsertTree, replies, ran, by decide, reachable_keys_of_height reach (by decide)⟩

end Reachable

end ScuDb.Index
