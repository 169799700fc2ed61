import ScuDb.Index.Update

/-!
Contract: `Insert` keeps the invariant: a leaf that overflows is split, the new page goes into
the parent after the old one, and a parent that overflows is split in turn, up to a new root.

Owns: the general split lemma `Linked.splitInto`, a new root over the old one (`Linked.addRoot`),
the two halves of a leaf split and of an internal split, the equations of `Split` and
`InsertIntoParent`, and the specification of `Insert`.

Does not own: the descent to the leaf (`ScuDb.Index.Shape`) and deletion.

## Why one split lemma

A leaf split and an internal split differ only in the two halves: a leaf hands its upper entries
and its place in the leaf chain to the new page, an internal page hands its upper slots and
re-parents their children. What the parent sees is the same: slot `(key, N)` after the old page,
whose interval `[lo, hi)` is cut at `key`. A split of the root is a split under a new root with
the one slot `(0, root)`, which `Linked.addRoot` builds, so the same lemma covers it.
-/

set_option linter.unusedSectionVars false

namespace ScuDb.Index

open ScuDb.Buffer (invalidPageId)

variable {K V : Type} [LinearOrder K] [Zero K]

/-! ## What `Split` and `InsertIntoParent` compute -/

namespace BPlusTree

theorem writePage_self {t : BPlusTree K V} {pageId : Int} {page : BPlusTreePage K V}
    (stored : t.pages pageId = some page) : t.writePage pageId page = t := by
  rw [writePage, ← stored, Function.update_eq_self]

/-- `Split` of a leaf: a new page `N` takes the entries from `(max_size + 1) / 2` on and the
leaf's place in the chain. -/
theorem split_leaf_eq {t : BPlusTree K V} {pageId : Int} {page : BPlusTreeLeafPage K V}
    (stored : t.pages pageId = some (.leaf page)) :
    t.split pageId = .ok ((((t.newPage.1).writePage pageId (.leaf { page with
        array := page.array.take ((t.leafMaxSize + 1) / 2), nextPageId := t.nextPageId })).writePage
        t.nextPageId (.leaf ⟨page.parentPageId, page.nextPageId,
          page.array.drop ((t.leafMaxSize + 1) / 2)⟩)), t.nextPageId) := by
  simp only [split, newPage, fetchPage, stored]
  rfl

/-- `Split` of an internal page: a new page `N` takes the slots from `GetSize() / 2` on, and their
children are re-parented to it. -/
theorem split_internal_eq {t : BPlusTree K V} {pageId : Int} {node : BPlusTreeInternalPage K}
    (stored : t.pages pageId = some (.internal node)) (fresh : t.pages t.nextPageId = none)
    (present : ∀ child ∈ children (node.array.drop (node.array.length / 2)),
      t.pages child ≠ none) :
    t.split pageId = .ok ((((t.newPage.1.writePage t.nextPageId
        (.internal ⟨node.parentPageId, []⟩)).reparented
          (children (node.array.drop (node.array.length / 2))) t.nextPageId).writePage pageId
        (.internal { node with array := node.array.take (node.array.length / 2) })).writePage
        t.nextPageId (.internal ⟨node.parentPageId, node.array.drop (node.array.length / 2)⟩),
      t.nextPageId) := by
  have differs : pageId ≠ t.nextPageId := fun same => by simp [same, fresh] at stored
  have reparented := reparent_eq t.nextPageId
    (t.newPage.1.writePage t.nextPageId (.internal ⟨node.parentPageId, []⟩))
    (children (node.array.drop (node.array.length / 2))) fun child member => by
      simp only [writePage_pages, newPage]
      split_ifs
      · simp
      · exact present child member
  simp only [children, newPage] at reparented
  simp only [split, newPage, fetchPage, stored, BPlusTreeInternalPage.moveHalfTo, fetchInternal,
    writePage_pages, if_neg differs, if_true, bind, Except.bind, pure, Except.pure, reparented]
  rfl

/-- `InsertIntoParent` when `old` is the root: a new root over the two pages. -/
theorem insertIntoParent_root_eq {t : BPlusTree K V} {old new : Int}
    (oldPage newPage : BPlusTreePage K V) (key : K) (fuel : Nat)
    (storedOld : t.pages old = some oldPage) (storedNew : t.pages new = some newPage)
    (isRoot : oldPage.parentPageId = invalidPageId) (distinct : new ≠ old)
    (fresh : t.pages t.nextPageId = none) :
    insertIntoParent (fuel + 1) t old key new = .ok
      ((({ t.newPage.1.writePage t.nextPageId
          (.internal ⟨invalidPageId, [(0, old), (key, new)]⟩) with
          rootPageId := t.nextPageId }).writePage old (oldPage.setParentPageId t.nextPageId)).writePage
        new (newPage.setParentPageId t.nextPageId)) := by
  have oldDiffers : old ≠ t.nextPageId := fun same => by simp [same, fresh] at storedOld
  have newDiffers : new ≠ t.nextPageId := fun same => by simp [same, fresh] at storedNew
  simp only [insertIntoParent, fetchPage, storedOld, isRoot, if_true, BPlusTree.newPage, setParentPageId,
    writePage_pages, if_neg oldDiffers, if_neg newDiffers, if_neg distinct, storedNew, bind,
    Except.bind, pure, Except.pure]

/-- `InsertIntoParent` below a parent: `(key, new)` goes in after `old`, and a parent that
overflows is split and handed up. -/
theorem insertIntoParent_parent_eq {t : BPlusTree K V} {old new : Int}
    {oldPage newPage : BPlusTreePage K V} {parent parent' : BPlusTreeInternalPage K} {key : K}
    (fuel : Nat) (storedOld : t.pages old = some oldPage)
    (notRoot : oldPage.parentPageId ≠ invalidPageId)
    (storedParent : t.pages oldPage.parentPageId = some (.internal parent))
    (storedNew : t.pages new = some newPage)
    (newParent : newPage.parentPageId = oldPage.parentPageId)
    (inserted : parent.insertNodeAfter old key new = .ok parent') :
    insertIntoParent (fuel + 1) t old key new =
      if t.internalMaxSize < parent'.array.length then do
        let (t', newPageId) ← (t.writePage oldPage.parentPageId (.internal parent')).split
          oldPage.parentPageId
        let firstKey ← (← t'.fetchInternal newPageId).keyAt 0
        insertIntoParent fuel t' oldPage.parentPageId firstKey newPageId
      else .ok (t.writePage oldPage.parentPageId (.internal parent')) := by
  have unchanged : t.writePage new (newPage.setParentPageId oldPage.parentPageId) = t := by
    rw [← newParent, BPlusTreePage.setParentPageId_self, writePage_self storedNew]
  have fetched : t.fetchInternal oldPage.parentPageId = .ok parent := fetchInternal_eq storedParent
  simp only [insertIntoParent, fetchPage_eq storedOld, if_neg notRoot, fetched,
    setParentPageId_eq storedNew, unchanged, inserted, bind, Except.bind, pure, Except.pure,
    writePage_internalMaxSize]

end BPlusTree

section Split

variable {t t' : BPlusTree K V} {place place' : Int → Place K}

/-- A page `X` at slot `j` of its parent, split at `key` into itself below `key` and a page `N`
new to the store above it, with `(key, N)` placed after slot `j` and the children `moved`
handed from `X` to `N`: the tree stays linked, given the two halves' own conditions. -/
theorem Linked.splitInto (linked : Linked t place) (moved : List Int)
    (pageX' pageN' : BPlusTreePage K V) {X N : Int} {pageX : BPlusTreePage K V}
    {parent : BPlusTreeInternalPage K} {j : Nat} {key : K}
    (storedX : t.pages X = some pageX) (notRoot : X ≠ t.rootPageId)
    (storedP : t.pages pageX.parentPageId = some (.internal parent))
    (inside : j < parent.array.length) (slot : parent.array[j].2 = X)
    (freshN : t.pages N = none) (validN : 0 ≤ N) (belowNext : N < t'.nextPageId)
    (lower : Ascends (place X).lo (some key)) (upper : Ascends (some key) (place X).hi)
    (movedChildren : ∀ child ∈ moved,
      (t.pages child).map BPlusTreePage.parentPageId = some X)
    (pagesP : t'.pages pageX.parentPageId = some (.internal { parent with
      array := parent.array.take (j + 1) ++ (key, N) :: parent.array.drop (j + 1) }))
    (pagesX : t'.pages X = some pageX') (parentX : pageX'.parentPageId = pageX.parentPageId)
    (pagesN : t'.pages N = some pageN') (parentN : pageN'.parentPageId = pageX.parentPageId)
    (pagesMoved : ∀ child ∈ moved, t'.pages child = (t.pages child).map (·.setParentPageId N))
    (pagesOther : ∀ pageId, pageId ≠ X → pageId ≠ N → pageId ≠ pageX.parentPageId →
      pageId ∉ moved → t'.pages pageId = t.pages pageId)
    (root : t'.rootPageId = t.rootPageId) (next : t.nextPageId ≤ t'.nextPageId)
    (placeX : place' X = ⟨(place X).height, (place X).lo, some key⟩)
    (placeN : place' N = ⟨(place X).height, some key, (place X).hi⟩)
    (placeOther : ∀ pageId, pageId ≠ X → pageId ≠ N → place' pageId = place pageId)
    (ownX : (∀ leaf, pageX' = .leaf leaf → LeafPlaced t' place' X leaf) ∧
      ∀ node, pageX' = .internal node → InternalPlaced t' place' X node)
    (ownN : (∀ leaf, pageN' = .leaf leaf → LeafPlaced t' place' N leaf) ∧
      ∀ node, pageN' = .internal node → InternalPlaced t' place' N node)
    (keptListed : ∀ child page, t.pages child = some page → page.parentPageId = X →
      child ∉ moved → ∃ node, pageX' = .internal node ∧ child ∈ children node.array)
    (movedListed : ∀ child ∈ moved,
      ∃ node, pageN' = .internal node ∧ child ∈ children node.array)
    (leafX : ∀ leaf, pageX = .leaf leaf → ∃ leaf', pageX' = .leaf leaf') :
    Linked t' place' := by
  set P := pageX.parentPageId with hP
  have member : X ∈ children parent.array := slot ▸ mem_children_of_getElem inside
  obtain ⟨_, storedX', -, heightX⟩ := linked.child storedP member
  rw [storedX'] at storedX
  cases storedX
  have ne : ∀ {a b : Int}, (place a).height ≠ (place b).height → a ≠ b := fun h same => h (by rw [same])
  have differsXP : X ≠ P := ne (by omega)
  have presentP : t.pages P ≠ none := by simp [storedP]
  have presentX : t.pages X ≠ none := by simp [storedX']
  have differsNX : N ≠ X := fun same => presentX (same ▸ freshN)
  have differsNP : N ≠ P := fun same => presentP (same ▸ freshN)
  -- the children handed over sit one level below `X`, which is internal
  have movedFacts : ∀ child ∈ moved, ∃ page, t.pages child = some page ∧ page.parentPageId = X ∧
      (place child).height + 1 = (place X).height := by
    intro child listed
    obtain ⟨page, found, pointsBack⟩ := Option.map_eq_some'.1 (movedChildren child listed)
    have notRoot' : child ≠ t.rootPageId := fun same => linked.ne_invalid presentX
      (pointsBack ▸ (linked.isRoot child page found).2 same)
    obtain ⟨node, storedX'', member'⟩ := linked.listed child page found notRoot'
    rw [pointsBack] at storedX''
    obtain ⟨_, _, _, height⟩ := linked.child storedX'' member'
    exact ⟨page, found, pointsBack, height⟩
  have movedDiffers : ∀ child ∈ moved, child ≠ X ∧ child ≠ N ∧ child ≠ P := by
    intro child listed
    obtain ⟨page, found, -, height⟩ := movedFacts child listed
    exact ⟨ne (by omega), fun same => by simp [same, freshN] at found, ne (by omega)⟩
  have storedBefore : ∀ pageId, t'.pages pageId ≠ none → pageId = N ∨ t.pages pageId ≠ none := by
    intro pageId present
    by_cases isX : pageId = X
    · exact .inr (isX ▸ presentX)
    by_cases isN : pageId = N
    · exact .inl isN
    by_cases isP : pageId = P
    · exact .inr (isP ▸ presentP)
    by_cases isMoved : pageId ∈ moved
    · obtain ⟨page, found, -⟩ := movedFacts pageId isMoved
      exact .inr (by simp [found])
    · exact .inr (pagesOther pageId isX isN isP isMoved ▸ present)
  have rootPresent := linked.root_present presentX
  have rootDiffersN : t.rootPageId ≠ N := fun same => rootPresent (same ▸ freshN)
  have parentValid : P ≠ invalidPageId := linked.ne_invalid presentP
  refine linked.of_placed (fun pageId present => (storedBefore pageId present).elim
      (fun isN => .inr (by rw [isN]; exact ⟨validN, belowNext⟩)) .inl) next root rootPresent ?_
    (placeOther _ (Ne.symm notRoot) rootDiffersN) (fun pageId present => ?_)
    fun pageId page stored' => ?_
  · by_cases isP : t.rootPageId = P
    · rw [isP, pagesP]; simp
    by_cases isMoved : t.rootPageId ∈ moved
    · obtain ⟨page, found, pointsBack, -⟩ := movedFacts _ isMoved
      exact absurd ((linked.isRoot _ page found).2 rfl) (pointsBack ▸ linked.ne_invalid presentX)
    rw [pagesOther _ (Ne.symm notRoot) rootDiffersN isP isMoved]
    exact rootPresent
  · by_cases isX : pageId = X
    · rw [isX, placeX]; exact linked.tall X presentX
    by_cases isN : pageId = N
    · rw [isN, placeN]; exact linked.tall X presentX
    rw [placeOther pageId isX isN]
    rcases storedBefore pageId present with same | present
    · exact absurd same isN
    · exact linked.tall pageId present
  -- the conditions of each page
  have rootSame : t'.rootPageId = t.rootPageId := root
  by_cases isX : pageId = X
  · subst isX
    rw [pagesX] at stored'
    cases stored'
    refine ⟨iff_of_false (by rw [parentX]; exact parentValid) (by rw [root]; exact notRoot),
      fun _ => ⟨_, by rw [parentX]; exact pagesP, ?_⟩, ownX.1, ownX.2⟩
    exact mem_children_insert.2 (.inr member)
  by_cases isN : pageId = N
  · subst isN
    rw [pagesN] at stored'
    cases stored'
    refine ⟨iff_of_false (by rw [parentN]; exact parentValid) (by rw [root]; exact Ne.symm rootDiffersN),
      fun _ => ⟨_, by rw [parentN]; exact pagesP, ?_⟩, ownN.1, ownN.2⟩
    exact mem_children_insert.2 (.inl rfl)
  by_cases isP : pageId = P
  · subst isP
    rw [pagesP] at stored'
    cases stored'
    have placedP := linked.internal _ _ storedP
    refine ⟨?_, fun notRoot' => ?_, fun _ isLeaf => (nomatch isLeaf), fun node isInternal => ?_⟩
    · rw [root]; exact linked.isRoot P (.internal parent) storedP
    · rw [root] at notRoot'
      obtain ⟨grand, grandStored, member'⟩ := linked.listed _ _ storedP notRoot'
      change t.pages parent.parentPageId = _ at grandStored
      obtain ⟨_, _, _, heightP⟩ := linked.child grandStored member'
      have presentGrand : t.pages parent.parentPageId ≠ none := by simp [grandStored]
      refine ⟨grand, ?_, member'⟩
      show t'.pages parent.parentPageId = _
      by_cases isMoved : parent.parentPageId ∈ moved
      · obtain ⟨_, _, _, height⟩ := movedFacts _ isMoved
        omega
      rw [pagesOther _ (ne (by omega)) (fun same => presentGrand (by rw [same]; exact freshN))
        (ne (by omega)) isMoved]
      exact grandStored
    · cases isInternal
      refine ⟨?_, ?_, fun child member' => ?_, ?_⟩
      · rw [placeOther _ isX isN]; exact placedP.height
      · rw [placeOther _ isX isN]
        refine placedP.fence.insertAfter ?_ ?_ lower upper (fun other d d' => placeOther other d d')
          placedP.fence.nodup (fun member' => ?_) inside slot
        · rw [placeX]; congr 1; omega
        · rw [placeN]; congr 1; omega
        · obtain ⟨_, found, -⟩ := linked.child storedP member'
          simp [found] at freshN
      · rcases mem_children_insert.1 member' with rfl | member'
        · rw [pagesN]; simp [parentN]
        by_cases isX' : child = X
        · subst isX'; rw [pagesX]; simp [parentX]
        obtain ⟨page, found, pointsBack, height⟩ := linked.child storedP member'
        have notMoved : child ∉ moved := fun listed => by
          obtain ⟨_, found', pointsBack', -⟩ := movedFacts child listed
          rw [found] at found'
          cases found'
          exact differsXP (pointsBack'.symm.trans pointsBack)
        rw [pagesOther child isX' (fun same => by simp [same, freshN] at found) (ne (by omega))
          notMoved, found]
        simp [pointsBack]
      · rw [placeOther _ isX isN]
        rcases placedP.firstKey with first | first
        · exact .inl first
        · exact .inr (first.trans (congrArg some (keyOf_insert_zero inside).symm))
  by_cases isMoved : pageId ∈ moved
  · obtain ⟨oldPage, found, pointsBack, height⟩ := movedFacts pageId isMoved
    rw [pagesMoved pageId isMoved, found] at stored'
    cases stored'
    have placedOld := linked.placed pageId oldPage found
    have samePlace := placeOther pageId isX isN
    refine ⟨iff_of_false (by simp only [BPlusTreePage.parentPageId_setParentPageId, invalidPageId]; omega) (by
        rw [root]; intro same; exact linked.ne_invalid presentX
          (pointsBack ▸ (placedOld.isRoot.2 same))),
      fun _ => ?_, fun leaf isLeaf => ?_, fun node isInternal => ?_⟩
    · obtain ⟨node, isInternal, member'⟩ := movedListed pageId isMoved
      exact ⟨node, by simp [pagesN, isInternal], member'⟩
    · cases oldPage with
      | internal => cases isLeaf
      | leaf oldLeaf =>
          cases isLeaf
          refine (placedOld.leaf oldLeaf rfl).transfer _ rfl rfl samePlace fun notLast => ?_
          obtain ⟨next, nextStored, -⟩ := (placedOld.leaf oldLeaf rfl).next notLast
          have presentNext : t.pages oldLeaf.nextPageId ≠ none := by simp [nextStored]
          have nextNotX : oldLeaf.nextPageId ≠ X := fun same => by
            obtain ⟨node, storedX'', -⟩ := linked.listed pageId _ found
              (fun same' => linked.ne_invalid presentX (pointsBack ▸ (placedOld.isRoot.2 same')))
            rw [pointsBack, ← same, nextStored] at storedX''
            cases storedX''
          have nextNotN : oldLeaf.nextPageId ≠ N := fun same => presentNext (same ▸ freshN)
          refine ⟨?_, by rw [placeOther _ nextNotX nextNotN]⟩
          by_cases nextMoved : oldLeaf.nextPageId ∈ moved
          · exact ⟨{ next with parentPageId := N }, by
              rw [pagesMoved _ nextMoved, nextStored]; rfl⟩
          · refine ⟨next, ?_⟩
            rw [pagesOther _ nextNotX nextNotN (fun same => by
              rw [same, storedP] at nextStored; cases nextStored) nextMoved]
            exact nextStored
    · cases oldPage with
      | leaf => cases isInternal
      | internal oldNode =>
          cases isInternal
          refine (placedOld.internal oldNode rfl).transfer _ rfl samePlace fun child member' => ?_
          obtain ⟨grandchild, grandStored, grandPoints, grandHeight⟩ := linked.child found member'
          have notMoved : child ∉ moved := fun listed => by
            obtain ⟨_, found', pointsBack', -⟩ := movedFacts child listed
            rw [grandStored] at found'
            cases found'
            exact isX (grandPoints.symm.trans pointsBack')
          have differsN : child ≠ N := fun same => by simp [same, freshN] at grandStored
          refine ⟨placeOther _ (ne (by omega)) differsN, ?_⟩
          rw [pagesOther child (ne (by omega)) differsN (ne (by omega)) notMoved, grandStored]
          simp [grandPoints]
  -- a page no split touched
  refine linked.untouched (fun pageId => pageId = X ∨ pageId = N ∨ pageId = P ∨ pageId ∈ moved)
    (fun pageId untouched => ?_) (fun _ _ => by rw [root]) (fun pageId page _ found touched notRoot' => ?_)
    (fun pageId leaf _ found touched notLast => ?_) (fun pageId node untouched found child member' touched => ?_)
    pageId page (by simp only [not_or]; exact ⟨isX, isN, isP, isMoved⟩) stored'
  · simp only [not_or] at untouched
    exact ⟨pagesOther pageId untouched.1 untouched.2.1 untouched.2.2.1 untouched.2.2.2,
      placeOther pageId untouched.1 untouched.2.1⟩
  · obtain ⟨grand, grandStored, member'⟩ := linked.listed pageId page found notRoot'
    simp only at touched
    rcases touched with same | same | same | same
    · obtain ⟨node, isInternal, member''⟩ := keptListed pageId page found same (by
        intro listed; simp_all)
      exact ⟨node, by rw [same, pagesX, isInternal], member''⟩
    · rw [same, freshN] at grandStored; cases grandStored
    · rw [same, storedP] at grandStored
      cases grandStored
      exact ⟨_, by rw [same]; exact pagesP, mem_children_insert.2 (.inr member')⟩
    · refine ⟨{ grand with parentPageId := N }, ?_, member'⟩
      rw [pagesMoved _ same, grandStored]
      rfl
  · obtain ⟨next, nextStored, -⟩ := (linked.leaf _ _ found).next notLast
    simp only at touched
    rcases touched with same | same | same | same
    · rw [same] at nextStored ⊢
      rw [storedX'] at nextStored
      cases nextStored
      obtain ⟨leaf', isLeaf⟩ := leafX next rfl
      exact ⟨⟨leaf', by rw [pagesX, isLeaf]⟩, by rw [placeX]⟩
    · rw [same, freshN] at nextStored; cases nextStored
    · rw [same, storedP] at nextStored; cases nextStored
    · have nextNotX : leaf.nextPageId ≠ X := (movedDiffers _ same).1
      have nextNotN : leaf.nextPageId ≠ N := (movedDiffers _ same).2.1
      exact ⟨⟨{ next with parentPageId := N }, by rw [pagesMoved _ same, nextStored]; rfl⟩,
        by rw [placeOther _ nextNotX nextNotN]⟩
  · obtain ⟨childPage, childStored, childPoints, -⟩ := linked.child found member'
    simp only [not_or] at untouched
    simp only at touched
    rcases touched with same | same | same | same
    · rw [same, storedX'] at childStored
      cases childStored
      exact absurd childPoints.symm untouched.2.2.1
    · rw [same, freshN] at childStored; cases childStored
    · refine ⟨placeOther _ (fun same' => differsXP (same'.symm.trans same))
        (fun same' => differsNP (same'.symm.trans same)), ?_⟩
      rw [same, pagesP]
      rw [same, storedP] at childStored
      cases childStored
      simpa using childPoints
    · obtain ⟨_, found', pointsBack', -⟩ := movedFacts child same
      rw [childStored] at found'
      cases found'
      exact absurd (childPoints.symm.trans pointsBack') untouched.1

/-- The key of slot `idx` of a leaf, `1 ≤ idx`, lies strictly inside the leaf's interval: it
can cut the leaf in two. -/
theorem Linked.leafSplitKey (linked : Linked t place) {X : Int} {page : BPlusTreeLeafPage K V}
    {idx : Nat} (stored : t.pages X = some (.leaf page)) (first : 1 ≤ idx)
    (inside : idx < page.array.length) :
    Ascends (place X).lo (some (keyOf page.array idx)) ∧
      Ascends (some (keyOf page.array idx)) (place X).hi := by
  have placed := linked.leaf X page stored
  have splitKey := placed.inRange _ (List.getElem_mem inside)
  rw [← keyOf_eq_getElem inside] at splitKey
  refine ⟨fun l member key same => ?_, fun key same h member => ?_⟩ <;> cases same
  · have firstKey := (placed.inRange _ (List.getElem_mem (show 0 < page.array.length by omega))).1
      l member
    rw [← keyOf_eq_getElem] at firstKey
    exact lt_of_le_of_lt firstKey (keyOf_lt_keyOf placed.sorted (by omega) inside)
  · exact splitKey.2 h member

/-- The lower half of a leaf split at slot `idx`: the entries below it, followed in the chain by
the new page `N`. -/
theorem Linked.leafLowerHalf (linked : Linked t place) {X N : Int} {page : BPlusTreeLeafPage K V}
    {idx : Nat} (stored : t.pages X = some (.leaf page)) (inside : idx < page.array.length)
    (validN : 0 ≤ N) (parentX : Int) (pagesN : ∃ upper, t'.pages N = some (.leaf upper))
    (placeX : place' X = ⟨(place X).height, (place X).lo, some (keyOf page.array idx)⟩)
    (placeN : (place' N).lo = some (keyOf page.array idx)) :
    LeafPlaced t' place' X ⟨parentX, N, page.array.take idx⟩ := by
  have placed := linked.leaf X page stored
  obtain ⟨upper, pagesN⟩ := pagesN
  refine ⟨?_, ?_, fun entry member => ?_, ?_, fun _ => ⟨_, pagesN, by rw [placeN, placeX]⟩⟩
  · rw [placeX]; exact placed.height
  · rw [List.map_take]; exact placed.sorted.sublist (List.take_sublist _ _)
  · rw [placeX]
    exact ⟨(placed.inRange entry (List.mem_of_mem_take member)).1, fun h same => by
      cases same
      exact BPlusTreeLeafPage.key_lt_of_mem_take member fun i before =>
        keyOf_lt_keyOf placed.sorted before inside⟩
  · rw [placeX]
    simp only [invalidPageId]
    constructor <;> intro absurd <;> first | omega | cases absurd

/-- The upper half of a leaf split at slot `idx`: the entries from it on, in the leaf's place in
the chain. -/
theorem Linked.leafUpperHalf (linked : Linked t place) {X N : Int} {page : BPlusTreeLeafPage K V}
    {idx : Nat} (stored : t.pages X = some (.leaf page)) (parentN : Int)
    (pagesNext : page.nextPageId ≠ invalidPageId →
      t'.pages page.nextPageId = t.pages page.nextPageId ∧
        place' page.nextPageId = place page.nextPageId)
    (placeN : place' N = ⟨(place X).height, some (keyOf page.array idx), (place X).hi⟩) :
    LeafPlaced t' place' N ⟨parentN, page.nextPageId, page.array.drop idx⟩ := by
  have placed := linked.leaf X page stored
  refine ⟨?_, ?_, fun entry member => ?_, ?_, fun notLast => ?_⟩
  · rw [placeN]; exact placed.height
  · rw [List.map_drop]; exact placed.sorted.sublist (List.drop_sublist _ _)
  · rw [placeN]
    exact ⟨fun l same => by
      cases same
      exact BPlusTreeLeafPage.key_le_of_mem_drop member fun i after inside' =>
        keyOf_le_keyOf placed.sorted after inside',
      (placed.inRange entry (List.mem_of_mem_drop member)).2⟩
  · rw [placeN]; exact placed.last
  · obtain ⟨next, nextStored, nextLo⟩ := placed.next notLast
    obtain ⟨sameNext, sameNextPlace⟩ := pagesNext notLast
    exact ⟨next, sameNext.trans nextStored, by rw [sameNextPlace, nextLo, placeN]⟩

/-- The separator chain of an internal page cut at slot `mid`: the slots below it end at the
key of `mid`, the slots from it start there. -/
theorem Linked.internalCut (linked : Linked t place) {X : Int} {node : BPlusTreeInternalPage K}
    {mid : Nat} (stored : t.pages X = some (.internal node)) (first : 1 ≤ mid)
    (inside : mid < node.array.length) :
    Fence place ((place X).height - 1) (place X).lo (node.array.take mid)
        (some (keyOf node.array mid)) ∧
      Fence place ((place X).height - 1) (some (keyOf node.array mid)) (node.array.drop mid)
        (place X).hi := by
  have whole := (linked.internal X node stored).fence
  rw [← List.take_append_drop mid node.array, List.drop_eq_getElem_cons inside,
    fence_append _ _ _ (List.ne_nil_of_length_pos (by simp; omega)),
    ← List.drop_eq_getElem_cons inside, ← keyOf_eq_getElem inside] at whole
  exact whole

theorem mem_children_take {array : List (K × Int)} {n : Nat} {child : Int}
    (member : child ∈ children (array.take n)) : child ∈ children array :=
  ((List.take_sublist n array).map Prod.snd).subset member

theorem mem_children_drop {array : List (K × Int)} {n : Nat} {child : Int}
    (member : child ∈ children (array.drop n)) : child ∈ children array :=
  ((List.drop_sublist n array).map Prod.snd).subset member

/-- The lower half of an internal split at slot `mid`: the slots below it, their children
staying put. -/
theorem Linked.internalLowerHalf (linked : Linked t place) {X : Int}
    {node : BPlusTreeInternalPage K} {mid : Nat} (stored : t.pages X = some (.internal node))
    (first : 1 ≤ mid) (inside : mid < node.array.length) (parentX : Int)
    (pagesKept : ∀ child ∈ children (node.array.take mid), t'.pages child = t.pages child)
    (placeChildren : ∀ child ∈ children node.array, place' child = place child)
    (placeX : place' X = ⟨(place X).height, (place X).lo, some (keyOf node.array mid)⟩) :
    InternalPlaced t' place' X ⟨parentX, node.array.take mid⟩ := by
  have placed := linked.internal X node stored
  refine ⟨?_, ?_, fun child member => ?_, ?_⟩
  · rw [placeX]; exact placed.height
  · rw [placeX]
    exact (linked.internalCut stored first inside).1.congr fun child member =>
      placeChildren child (mem_children_take member)
  · rw [pagesKept child member]
    exact placed.pointsBack child (mem_children_take member)
  · rw [placeX]
    rcases placed.firstKey with none | some
    · exact .inl none
    · refine .inr (some.trans ?_)
      cases array : node.array with
      | nil => simp [array] at inside
      | cons slot rest =>
          obtain ⟨mid, rfl⟩ : ∃ previous, mid = previous + 1 := ⟨mid - 1, by omega⟩
          simp [keyOf]

/-- The upper half of an internal split at slot `mid`: the slots from it on, their children
re-parented to the new page `N`, which starts at the key of `mid`. -/
theorem Linked.internalUpperHalf (linked : Linked t place) {X N : Int}
    {node : BPlusTreeInternalPage K} {mid : Nat} (stored : t.pages X = some (.internal node))
    (first : 1 ≤ mid) (inside : mid < node.array.length) (parentN : Int)
    (pagesMoved : ∀ child ∈ children (node.array.drop mid),
      t'.pages child = (t.pages child).map (·.setParentPageId N))
    (placeChildren : ∀ child ∈ children node.array, place' child = place child)
    (placeN : place' N = ⟨(place X).height, some (keyOf node.array mid), (place X).hi⟩) :
    InternalPlaced t' place' N ⟨parentN, node.array.drop mid⟩ := by
  have placed := linked.internal X node stored
  refine ⟨?_, ?_, fun child member => ?_, ?_⟩
  · rw [placeN]; exact placed.height
  · rw [placeN]
    exact (linked.internalCut stored first inside).2.congr fun child member =>
      placeChildren child (mem_children_drop member)
  · obtain ⟨page, found, -⟩ := Option.map_eq_some'.1
      (placed.pointsBack child (mem_children_drop member))
    rw [pagesMoved child member, found]
    simp
  · rw [placeN]
    refine .inr ?_
    rw [keyOf_eq_getElem inside, keyOf_eq_getElem (by simp; omega)]
    simp

/-- The store with a new root `R` over the old root `rootPage`, holding the one slot
`(0, old root)`: a split of the root is a split under it. -/
def BPlusTree.overRoot (t : BPlusTree K V) (rootPage : BPlusTreePage K V) (R : Int)
    (nextPageId : Nat) : BPlusTree K V :=
  { (t.writePage t.rootPageId (rootPage.setParentPageId R)).writePage R
      (.internal ⟨invalidPageId, [(0, t.rootPageId)]⟩) with rootPageId := R, nextPageId := nextPageId }

@[simp] theorem BPlusTree.overRoot_pages (t : BPlusTree K V) (rootPage : BPlusTreePage K V)
    (R : Int) (nextPageId : Nat) (pageId : Int) :
    (t.overRoot rootPage R nextPageId).pages pageId =
      if pageId = R then some (.internal ⟨invalidPageId, [(0, t.rootPageId)]⟩)
      else if pageId = t.rootPageId then some (rootPage.setParentPageId R) else t.pages pageId := by
  simp [overRoot]

@[simp] theorem BPlusTree.overRoot_rootPageId (t : BPlusTree K V) (rootPage : BPlusTreePage K V)
    (R : Int) (nextPageId : Nat) : (t.overRoot rootPage R nextPageId).rootPageId = R := rfl

@[simp] theorem BPlusTree.overRoot_nextPageId (t : BPlusTree K V) (rootPage : BPlusTreePage K V)
    (R : Int) (nextPageId : Nat) : (t.overRoot rootPage R nextPageId).nextPageId = nextPageId := rfl

@[simp] theorem BPlusTree.overRoot_leafMaxSize (t : BPlusTree K V) (rootPage : BPlusTreePage K V)
    (R : Int) (nextPageId : Nat) :
    (t.overRoot rootPage R nextPageId).leafMaxSize = t.leafMaxSize := rfl

@[simp] theorem BPlusTree.overRoot_internalMaxSize (t : BPlusTree K V)
    (rootPage : BPlusTreePage K V) (R : Int) (nextPageId : Nat) :
    (t.overRoot rootPage R nextPageId).internalMaxSize = t.internalMaxSize := rfl

/-- A new root `R` over the old one, with the one slot `(0, old root)`: the tree stays linked,
one level taller. -/
theorem Linked.addRoot (linked : Linked t place) {rootPage : BPlusTreePage K V}
    (stored : t.pages t.rootPageId = some rootPage) (R : Int) (nextPageId : Nat)
    (freshR : t.pages R = none) (validR : 0 ≤ R) (belowNext : R < nextPageId)
    (next : t.nextPageId < nextPageId) :
    Linked (t.overRoot rootPage R nextPageId)
      (fun pageId => if pageId = R then ⟨(place t.rootPageId).height + 1, none, none⟩
        else place pageId) := by
  have present : t.pages t.rootPageId ≠ none := by simp [stored]
  have differs : t.rootPageId ≠ R := fun same => present (same ▸ freshR)
  obtain ⟨rootLo, rootHi⟩ := linked.root_place present
  have placedRoot := linked.placed _ _ stored
  have rootParent : rootPage.parentPageId = invalidPageId := placedRoot.isRoot.2 rfl
  have validRoot : (0 : Int) ≤ t.rootPageId := linked.valid _ present
  have belowRoot := linked.lt_next present
  refine ⟨fun pageId present' => ?_, fun pageId high => ?_, ?_, fun pageId present' => ?_, ?_,
    fun pageId page stored' => ?_⟩
  · simp only [BPlusTree.overRoot_pages] at present'
    split_ifs at present' with isR isRoot
    · exact isR ▸ validR
    · exact isRoot ▸ validRoot
    · exact linked.valid pageId present'
  · simp only [BPlusTree.overRoot_nextPageId] at high
    simp only [BPlusTree.overRoot_pages]
    rw [if_neg (by omega), if_neg (by omega)]
    exact linked.fresh pageId (by omega)
  · exact .inr ⟨by simp, by simp, by simp⟩
  · simp only [BPlusTree.overRoot_pages] at present'
    simp only [BPlusTree.overRoot_rootPageId, if_true]
    split_ifs with isR
    · exact le_rfl
    · have := linked.tall pageId (by split_ifs at present' <;> simp_all)
      omega
  · simp only [BPlusTree.overRoot_rootPageId, BPlusTree.overRoot_nextPageId, if_true]
    have := linked.short
    omega
  simp only [BPlusTree.overRoot_pages] at stored'
  by_cases isR : pageId = R
  · subst isR
    simp only [if_true, Option.some.injEq] at stored'
    subst stored'
    refine ⟨iff_of_true rfl rfl, fun notRoot => absurd rfl notRoot, fun _ isLeaf => (nomatch isLeaf),
      fun node isInternal => ?_⟩
    cases isInternal
    have rootPlace : place t.rootPageId = ⟨(place t.rootPageId).height, none, none⟩ := by
      cases same : place t.rootPageId
      simp_all
    refine ⟨by simp, ?_, fun child member => ?_, .inl (by simp)⟩
    · simp only [if_true, Nat.add_sub_cancel]
      exact ⟨fun _ lower => (nomatch lower), by simp only [if_neg differs]; exact rootPlace⟩
    · simp only [children, List.map_cons, List.map_nil, List.mem_singleton] at member
      subst member
      simp [differs]
  rw [if_neg isR] at stored'
  by_cases isRoot : pageId = t.rootPageId
  · subst isRoot
    simp only [if_true, Option.some.injEq] at stored'
    subst stored'
    have parentR : (rootPage.setParentPageId R).parentPageId ≠ invalidPageId := by
      simp only [BPlusTreePage.parentPageId_setParentPageId, invalidPageId]
      omega
    refine ⟨iff_of_false parentR isR, fun _ => ⟨⟨invalidPageId, [(0, t.rootPageId)]⟩, ?_, by
      simp [children]⟩, fun leaf isLeaf => ?_, fun node isInternal => ?_⟩
    · dsimp only
      simp
    · cases rootPage with
      | internal => cases isLeaf
      | leaf rootLeaf =>
          cases isLeaf
          refine (placedRoot.leaf rootLeaf rfl).transfer _ rfl rfl (if_neg isR) fun notLast => ?_
          exact absurd ((placedRoot.leaf rootLeaf rfl).last.2 rootHi) notLast
    · cases rootPage with
      | leaf => cases isInternal
      | internal rootNode =>
          cases isInternal
          refine (placedRoot.internal rootNode rfl).transfer _ rfl (if_neg isR)
            fun child member => ?_
          obtain ⟨page, found, pointsBack, height⟩ := linked.child stored member
          have childNotR : child ≠ R := fun same => by simp [same, freshR] at found
          have childNotRoot : child ≠ t.rootPageId := fun same => by rw [same] at height; omega
          simp [childNotR, childNotRoot, found, pointsBack]
  refine linked.untouched (fun pageId => pageId = R ∨ pageId = t.rootPageId)
    (fun pageId untouched => ?_) (fun pageId untouched => ?_)
    (fun pageId page _ found touched notRoot => ?_) (fun pageId leaf _ found touched _ => ?_)
    (fun pageId node untouched found child member touched => ?_) pageId page
    (by simp only [not_or]; exact ⟨isR, isRoot⟩)
    (by simp only [BPlusTree.overRoot_pages, if_neg isR, if_neg isRoot]
        rwa [if_neg isRoot] at stored')
  · simp only [not_or] at untouched
    simp [untouched.1, untouched.2]
  · simp only [not_or] at untouched
    exact iff_of_false untouched.1 untouched.2
  · obtain ⟨parent, parentStored, member⟩ := linked.listed pageId page found notRoot
    simp only at touched
    rcases touched with same | same
    · rw [same, freshR] at parentStored; cases parentStored
    · rw [same, stored] at parentStored
      cases parentStored
      exact ⟨{ parent with parentPageId := R }, by simp [same, differs], member⟩
  · simp only at touched
    rcases touched with same | same
    · obtain ⟨next, nextStored, -⟩ := (linked.leaf _ _ found).next ‹_›
      rw [same, freshR] at nextStored; cases nextStored
    · obtain ⟨next, nextStored, -⟩ := (linked.leaf _ _ found).next ‹_›
      rw [same, stored] at nextStored
      cases nextStored
      exact ⟨⟨{ next with parentPageId := R }, by simp [same, differs]⟩, by simp [same, differs]⟩
  · simp only at touched
    obtain ⟨page', found', pointsBack, -⟩ := linked.child found member
    rcases touched with same | same
    · rw [same, freshR] at found'; cases found'
    · rw [same, stored] at found'
      cases found'
      rw [rootParent] at pointsBack
      exact absurd pointsBack.symm (linked.ne_invalid (by simp [found]))

/-- A leaf below a parent, split at slot `idx`, with the new page `N` placed after it in the
parent: the tree stays linked. -/
theorem Linked.splitLeafParent (linked : Linked t place) {X : Int} {page : BPlusTreeLeafPage K V}
    {parent : BPlusTreeInternalPage K} {j idx : Nat} (stored : t.pages X = some (.leaf page))
    (notRoot : X ≠ t.rootPageId) (storedP : t.pages page.parentPageId = some (.internal parent))
    (inside : j < parent.array.length) (slot : parent.array[j].2 = X) (first : 1 ≤ idx)
    (within : idx < page.array.length) :
    Linked ((((t.newPage.1).writePage X
        (.leaf { page with array := page.array.take idx, nextPageId := t.nextPageId })).writePage
        t.nextPageId
        (.leaf ⟨page.parentPageId, page.nextPageId, page.array.drop idx⟩)).writePage
        page.parentPageId (.internal { parent with array := parent.array.take (j + 1) ++
          (keyOf page.array idx, (t.nextPageId : Int)) :: parent.array.drop (j + 1) }))
      (fun pageId => if pageId = X then ⟨(place X).height, (place X).lo, some (keyOf page.array idx)⟩
        else if pageId = t.nextPageId then ⟨(place X).height, some (keyOf page.array idx), (place X).hi⟩
        else place pageId) := by
  have freshN : t.pages t.nextPageId = none := linked.fresh _ le_rfl
  have presentP : t.pages page.parentPageId ≠ none := by simp [storedP]
  have presentX : t.pages X ≠ none := by simp [stored]
  have differsXP : X ≠ page.parentPageId := fun same => by
    rw [same, storedP] at stored; cases stored
  have differsNX : (t.nextPageId : Int) ≠ X := fun same => presentX (same ▸ freshN)
  have differsNP : (t.nextPageId : Int) ≠ page.parentPageId := fun same => presentP (same ▸ freshN)
  have nextFacts : page.nextPageId ≠ invalidPageId →
      page.nextPageId ≠ X ∧ page.nextPageId ≠ t.nextPageId ∧ page.nextPageId ≠ page.parentPageId := by
    intro notLast
    obtain ⟨next, nextStored, -⟩ := (linked.leaf _ _ stored).next notLast
    exact ⟨linked.next_ne_self stored notLast, fun same => by simp [same, freshN] at nextStored,
      fun same => by rw [same, storedP] at nextStored; cases nextStored⟩
  obtain ⟨lower, upper⟩ := linked.leafSplitKey stored first within
  refine linked.splitInto [] (.leaf ⟨page.parentPageId, t.nextPageId, page.array.take idx⟩)
    (.leaf ⟨page.parentPageId, page.nextPageId, page.array.drop idx⟩) stored notRoot storedP inside
    slot freshN (by omega)
    (by simp only [BPlusTree.writePage_nextPageId, BPlusTree.newPage_nextPageId]; omega) lower upper
    (by simp) (by simp) (by simp [differsXP, Ne.symm differsNX]) rfl (by simp [differsNP]) rfl
    (by simp) (fun pageId isX isN isP _ => by simp at isP; simp [isX, isN, isP]) rfl (by simp)
    (by simp) (by simp [differsNX]) (fun pageId isX isN => by simp [isX, isN])
    ⟨fun leaf same => ?_, fun _ same => by cases same⟩
    ⟨fun leaf same => ?_, fun _ same => by cases same⟩
    (fun child childPage found pointsBack _ => ?_) (by simp) (fun leaf same => ⟨_, rfl⟩)
  · cases same
    exact linked.leafLowerHalf stored within (by omega) _
      ⟨⟨page.parentPageId, page.nextPageId, page.array.drop idx⟩, by simp [differsNP]⟩ (by simp)
      (by simp [differsNX])
  · cases same
    refine linked.leafUpperHalf stored _ (fun notLast => ?_) (by simp [differsNX])
    obtain ⟨differsX, differsN, differsP⟩ := nextFacts notLast
    exact ⟨by simp [differsX, differsN, differsP], by simp [differsX, differsN]⟩
  obtain ⟨node, storedX, -⟩ := linked.listed_of_parent found
    (pointsBack ▸ linked.ne_invalid presentX)
  rw [pointsBack, stored] at storedX
  cases storedX

theorem not_mem_children_drop {array : List (K × Int)} {n : Nat} (distinct : (children array).Nodup)
    {child : Int} (member : child ∈ children (array.take n)) : child ∉ children (array.drop n) := by
  rw [← List.take_append_drop n array] at distinct
  simp only [children, List.map_append] at distinct member ⊢
  exact List.disjoint_of_nodup_append distinct member

theorem mem_children_take_of_not_drop {array : List (K × Int)} {n : Nat} {child : Int}
    (member : child ∈ children array) (notMoved : child ∉ children (array.drop n)) :
    child ∈ children (array.take n) := by
  rw [← List.take_append_drop n array] at member
  simp only [children, List.map_append, List.mem_append] at member notMoved ⊢
  exact member.resolve_right notMoved

/-- The children of an internal page `X` are stored, point back to it, and differ from `X`, from
its parent and from any page the store does not hold. -/
theorem Linked.childFacts (linked : Linked t place) {X : Int} {node : BPlusTreeInternalPage K}
    (stored : t.pages X = some (.internal node)) {child : Int} (member : child ∈ children node.array) :
    ∃ page, t.pages child = some page ∧ page.parentPageId = X ∧ child ≠ X ∧
      child ≠ node.parentPageId ∧ ∀ other, t.pages other = none → child ≠ other := by
  obtain ⟨page, found, pointsBack, height⟩ := linked.child stored member
  refine ⟨page, found, pointsBack, fun same => by rw [same] at height; omega, fun same => ?_,
    fun other missing same => by rw [same, missing] at found; cases found⟩
  by_cases root : node.parentPageId = invalidPageId
  · exact linked.ne_invalid (by simp [found]) (same.trans root)
  obtain ⟨parent, storedP, memberX⟩ := linked.listed_of_parent stored root
  obtain ⟨-, -, -, heightX⟩ := linked.child storedP memberX
  simp only [BPlusTreePage.parentPageId_internal, ← same] at heightX
  omega

/-- An internal page below a parent, split at slot `mid`, the children of the upper slots
re-parented to the new page `N` placed after it in the parent: the tree stays linked. -/
theorem Linked.splitInternalParent (linked : Linked t place) {X : Int}
    {node parent : BPlusTreeInternalPage K} {j mid : Nat}
    (stored : t.pages X = some (.internal node)) (notRoot : X ≠ t.rootPageId)
    (storedP : t.pages node.parentPageId = some (.internal parent))
    (inside : j < parent.array.length) (slot : parent.array[j].2 = X) (first : 1 ≤ mid)
    (within : mid < node.array.length) :
    Linked (((((t.newPage.1.writePage t.nextPageId (.internal ⟨node.parentPageId, []⟩)).reparented
          (children (node.array.drop mid)) t.nextPageId).writePage X
          (.internal { node with array := node.array.take mid })).writePage t.nextPageId
          (.internal ⟨node.parentPageId, node.array.drop mid⟩)).writePage node.parentPageId
          (.internal { parent with array := parent.array.take (j + 1) ++
            (keyOf node.array mid, (t.nextPageId : Int)) :: parent.array.drop (j + 1) }))
      (fun pageId => if pageId = X then
          ⟨(place X).height, (place X).lo, some (keyOf node.array mid)⟩
        else if pageId = t.nextPageId then
          ⟨(place X).height, some (keyOf node.array mid), (place X).hi⟩
        else place pageId) := by
  have freshN : t.pages t.nextPageId = none := linked.fresh _ le_rfl
  have presentP : t.pages node.parentPageId ≠ none := by simp [storedP]
  have presentX : t.pages X ≠ none := by simp [stored]
  have differsXP : X ≠ node.parentPageId := fun same => by
    obtain ⟨-, -, -, height⟩ := linked.child storedP (slot ▸ mem_children_of_getElem inside)
    rw [← same] at height
    omega
  have differsNX : (t.nextPageId : Int) ≠ X := fun same => presentX (same ▸ freshN)
  have differsNP : (t.nextPageId : Int) ≠ node.parentPageId := fun same => presentP (same ▸ freshN)
  have placed := linked.internal X node stored
  have childFacts : ∀ child ∈ children node.array,
      child ≠ X ∧ child ≠ t.nextPageId ∧ child ≠ node.parentPageId := fun child member => by
    obtain ⟨_, _, _, isX, isP, isFresh⟩ := linked.childFacts stored member
    exact ⟨isX, isFresh _ freshN, isP⟩
  have cut := linked.internalCut stored first within
  have placeChildren : ∀ child ∈ children node.array,
      (if child = X then (⟨(place X).height, (place X).lo, some (keyOf node.array mid)⟩ : Place K)
        else if child = t.nextPageId then
          ⟨(place X).height, some (keyOf node.array mid), (place X).hi⟩
        else place child) = place child := fun child member => by
    simp [(childFacts child member).1, (childFacts child member).2.1]
  have pagesMoved : ∀ child ∈ children (node.array.drop mid),
      (((((t.newPage.1.writePage t.nextPageId (.internal ⟨node.parentPageId, []⟩)).reparented
          (children (node.array.drop mid)) t.nextPageId).writePage X
          (.internal { node with array := node.array.take mid })).writePage t.nextPageId
          (.internal ⟨node.parentPageId, node.array.drop mid⟩)).writePage node.parentPageId
          (.internal { parent with array := parent.array.take (j + 1) ++
            (keyOf node.array mid, (t.nextPageId : Int)) :: parent.array.drop (j + 1) })).pages
        child = (t.pages child).map (·.setParentPageId t.nextPageId) := fun child member => by
    obtain ⟨isX, isN, isP⟩ := childFacts child (mem_children_drop member)
    simp [isX, isN, isP, member]
  refine linked.splitInto (children (node.array.drop mid))
    (.internal { node with array := node.array.take mid })
    (.internal ⟨node.parentPageId, node.array.drop mid⟩) stored notRoot storedP inside slot freshN
    (by omega) (by simp only [BPlusTree.writePage_nextPageId, BPlusTree.reparented_nextPageId,
      BPlusTree.newPage_nextPageId]; omega) cut.1.ascends cut.2.ascends
    (fun child member => placed.pointsBack child (mem_children_drop member))
    (by simp) (by simp [differsXP, Ne.symm differsNX]) rfl (by simp [differsNP]) rfl pagesMoved
    (fun pageId isX isN isP notMoved => by simp at isP; simp [isX, isN, isP, notMoved]) (by simp)
    (by simp only [BPlusTree.writePage_nextPageId, BPlusTree.reparented_nextPageId,
      BPlusTree.newPage_nextPageId]; omega) (by simp)
    (by simp [differsNX]) (fun pageId isX isN => by simp [isX, isN])
    ⟨fun _ same => (by cases same), fun node' same => ?_⟩
    ⟨fun _ same => (by cases same), fun node' same => ?_⟩
    (fun child childPage found pointsBack notMoved => ?_) (fun child member => ⟨_, rfl, member⟩)
    (fun _ same => by cases same)
  · cases same
    refine linked.internalLowerHalf stored first within _ (fun child member => ?_) placeChildren
      (by simp)
    obtain ⟨isX, isN, isP⟩ := childFacts child (mem_children_take member)
    simp [isX, isN, isP, not_mem_children_drop placed.fence.nodup member]
  · cases same
    exact linked.internalUpperHalf stored first within _ pagesMoved placeChildren
      (by simp [differsNX])
  · obtain ⟨node', storedX, member⟩ := linked.listed_of_parent found
      (pointsBack ▸ linked.ne_invalid presentX)
    rw [pointsBack, stored] at storedX
    cases storedX
    exact ⟨_, rfl, mem_children_take_of_not_drop member notMoved⟩

end Split

/-! ## `Insert` -/

section Insert

variable {t : BPlusTree K V} {place : Int → Place K}

theorem pageSized_congr {t' : BPlusTree K V} (leafMaxSize : t'.leafMaxSize = t.leafMaxSize)
    (internalMaxSize : t'.internalMaxSize = t.internalMaxSize) (page : BPlusTreePage K V) :
    PageSized t' page ↔ PageSized t page := by
  simp [PageSized, leafMaxSize, internalMaxSize]

/-- The first key of the upper half of a split leaf. -/
theorem leaf_keyAt_drop {array : List (K × V)} {idx : Nat} (inside : idx < array.length)
    (parent next : Int) :
    (⟨parent, next, array.drop idx⟩ : BPlusTreeLeafPage K V).keyAt 0 = .ok (keyOf array idx) := by
  simp [BPlusTreeLeafPage.keyAt, BPlusTreeLeafPage.getItem, List.getElem?_drop,
    List.getElem?_eq_getElem inside, keyOf_eq_getElem inside, Except.map]

/-- The first key of the upper half of a split internal page. -/
theorem internal_keyAt_drop {array : List (K × Int)} {mid : Nat} (inside : mid < array.length)
    (parent : Int) :
    (⟨parent, array.drop mid⟩ : BPlusTreeInternalPage K).keyAt 0 = .ok (keyOf array mid) := by
  simp [BPlusTreeInternalPage.keyAt, List.getElem?_drop, List.getElem?_eq_getElem inside,
    keyOf_eq_getElem inside]

/-- A root leaf that overflows: `Split` hands its upper half to a new page, and
`InsertIntoParent` puts a new root over the two. -/
theorem splitLeafRoot_spec (linked : Linked t place) {page : BPlusTreeLeafPage K V}
    (stored : t.pages t.rootPageId = some (.leaf page))
    (overflow : page.array.length = t.leafMaxSize + 1) (leafMin : 2 ≤ t.leafMaxSize)
    (internalMin : 2 ≤ t.internalMaxSize) (sized : SizedBut t t.rootPageId) (fuel : Nat) :
    ∃ t2 t3, t.split t.rootPageId = .ok (t2, t.nextPageId) ∧
      t2.fetchLeaf t.nextPageId = .ok ⟨page.parentPageId, page.nextPageId,
        page.array.drop ((t.leafMaxSize + 1) / 2)⟩ ∧
      BPlusTree.insertIntoParent (fuel + 1) t2 t.rootPageId
        (keyOf page.array ((t.leafMaxSize + 1) / 2)) t.nextPageId = .ok t3 ∧ Settles t t3 := by
  set X := t.rootPageId
  set idx := (t.leafMaxSize + 1) / 2
  have first : 1 ≤ idx := by omega
  have within : idx < page.array.length := by omega
  have presentX : t.pages X ≠ none := by simp [stored]
  have freshN : t.pages t.nextPageId = none := linked.fresh _ le_rfl
  have freshR : t.pages ((t.nextPageId : Int) + 1) = none := linked.fresh _ (by omega)
  have differsNX : (t.nextPageId : Int) ≠ X := fun same => presentX (same ▸ freshN)
  have differsRX : (t.nextPageId : Int) + 1 ≠ X := fun same => presentX (same ▸ freshR)
  have differsRN : (t.nextPageId : Int) + 1 ≠ t.nextPageId := by omega
  have isRoot : page.parentPageId = invalidPageId := (linked.isRoot _ _ stored).2 rfl
  have last : page.nextPageId = invalidPageId :=
    (linked.leaf _ _ stored).last.2 (linked.root_place presentX).2
  refine ⟨_, _, BPlusTree.split_leaf_eq stored, by simp [BPlusTree.fetchLeaf, BPlusTree.fetchPage]; rfl,
    BPlusTree.insertIntoParent_root_eq
      (.leaf ⟨page.parentPageId, t.nextPageId, page.array.take idx⟩)
      (.leaf ⟨page.parentPageId, page.nextPageId, page.array.drop idx⟩) _ fuel
      (by simp [Ne.symm differsNX]) (by simp) isRoot differsNX
      (by simp [differsRX, differsRN, freshR]), ?_, ?_, by simp, by simp, ?_⟩
  · -- a split under the new root `(0, X)`
    have linkedR := linked.addRoot stored _ (t.nextPageId + 2) freshR (by omega) (by omega) (by omega)
    set R : Int := (t.nextPageId : Int) + 1
    set placeR := fun pageId => if pageId = R then (⟨(place X).height + 1, none, none⟩ : Place K)
      else place pageId
    have storedXR : (t.overRoot (.leaf page) R (t.nextPageId + 2)).pages X =
        some (.leaf { page with parentPageId := R }) := by simp [Ne.symm differsRX]
    obtain ⟨lower, upper⟩ := linkedR.leafSplitKey storedXR first within
    refine ⟨fun pageId => if pageId = X then
        ⟨(placeR X).height, (placeR X).lo, some (keyOf page.array idx)⟩
      else if pageId = t.nextPageId then
        ⟨(placeR X).height, some (keyOf page.array idx), (placeR X).hi⟩
      else placeR pageId, ?_⟩
    refine linkedR.splitInto [] (.leaf ⟨R, t.nextPageId, page.array.take idx⟩)
      (.leaf ⟨R, page.nextPageId, page.array.drop idx⟩) (N := t.nextPageId) (j := 0) storedXR
      (by simp [Ne.symm differsRX])
      (show (t.overRoot (.leaf page) R (t.nextPageId + 2)).pages R =
        some (.internal ⟨invalidPageId, [(0, X)]⟩) by simp)
      (by simp) rfl (by simp [differsNX, Ne.symm differsRN, freshN]) (by omega)
      (by simp; omega) lower upper (by simp) (by simp [differsRX, differsRN])
      (by simp [Ne.symm differsRX, Ne.symm differsNX]) rfl (by simp) rfl (by simp)
      (fun pageId isX isN isR _ => by simp at isR; simp [isX, isN, isR])
      rfl (by simp) (by simp) (by simp [differsNX]) (fun pageId isX isN => by simp [isX, isN])
      ⟨fun leaf same => ?_, fun _ same => by cases same⟩
      ⟨fun leaf same => ?_, fun _ same => by cases same⟩
      (fun child childPage found pointsBack _ => ?_) (by simp) (fun leaf same => ⟨_, rfl⟩)
    · cases same
      exact linkedR.leafLowerHalf storedXR within (by omega) _
        ⟨⟨R, page.nextPageId, page.array.drop idx⟩, by simp [Ne.symm differsRN, differsNX]⟩
        (by simp) (by simp [differsNX])
    · cases same
      exact linkedR.leafUpperHalf storedXR _ (fun notLast => absurd last notLast)
        (by simp [differsNX])
    · obtain ⟨node, storedX, -⟩ := linkedR.listed_of_parent found (by
        rw [pointsBack]; exact linkedR.ne_invalid (by rw [storedXR]; simp))
      rw [pointsBack, storedXR] at storedX
      cases storedX
  · have validR : (t.nextPageId : Int) + 1 ≠ -1 := by omega
    have sizeIdx : idx = (t.leafMaxSize + 1) / 2 := rfl
    intro pageId found' found
    refine (pageSized_congr (t := t) (by simp) (by simp) found').2 ?_
    simp only [BPlusTree.writePage_pages, BPlusTree.newPage_pages] at found
    split_ifs at found with isN isX isR <;> (try cases found)
    · simp [PageSized, BPlusTreePage.getMinSize, BPlusTreePage.getMaxSize, invalidPageId, validR]
      omega
    · simp [PageSized, BPlusTreePage.getMinSize, BPlusTreePage.getMaxSize, invalidPageId, validR]
      omega
    · simp [PageSized, BPlusTreePage.getMinSize, BPlusTreePage.getMaxSize]; omega
    · exact sized _ _ found isX
  · refine holds_split idx (show leafEntries (t.pages X) = some page.array by simp [stored])
      freshN (by simp [Ne.symm differsNX]) (by simp) (fun pageId isX isN => ?_)
    simp only [BPlusTree.writePage_pages, BPlusTree.newPage_pages, if_neg isX, if_neg isN]
    split_ifs with isR
    · simp only [BPlusTree.writePage_nextPageId, BPlusTree.newPage_nextPageId] at isR
      rw [show pageId = (t.nextPageId : Int) + 1 by omega, freshR]; rfl
    · rfl

/-- A root internal page that overflows: `Split` hands its upper slots and their children to a
new page, and `InsertIntoParent` puts a new root over the two. -/
theorem splitInternalRoot_spec (linked : Linked t place) {node : BPlusTreeInternalPage K}
    (stored : t.pages t.rootPageId = some (.internal node))
    (overflow : node.array.length = t.internalMaxSize + 1) (internalMin : 4 ≤ t.internalMaxSize)
    (sized : SizedBut t t.rootPageId) (fuel : Nat) :
    ∃ t2 t3, t.split t.rootPageId = .ok (t2, t.nextPageId) ∧
      t2.fetchInternal t.nextPageId =
        .ok ⟨node.parentPageId, node.array.drop (node.array.length / 2)⟩ ∧
      BPlusTree.insertIntoParent (fuel + 1) t2 t.rootPageId
        (keyOf node.array (node.array.length / 2)) t.nextPageId = .ok t3 ∧ Settles t t3 := by
  set X := t.rootPageId
  obtain ⟨mid, half⟩ : ∃ mid, node.array.length / 2 = mid := ⟨_, rfl⟩
  rw [half]
  have first : 1 ≤ mid := by omega
  have within : mid < node.array.length := by omega
  have presentX : t.pages X ≠ none := by simp [stored]
  have freshN : t.pages t.nextPageId = none := linked.fresh _ le_rfl
  have freshR : t.pages ((t.nextPageId : Int) + 1) = none := linked.fresh _ (by omega)
  have differsNX : (t.nextPageId : Int) ≠ X := fun same => presentX (same ▸ freshN)
  have differsRX : (t.nextPageId : Int) + 1 ≠ X := fun same => presentX (same ▸ freshR)
  have differsRN : (t.nextPageId : Int) + 1 ≠ t.nextPageId := by omega
  have isRoot : node.parentPageId = invalidPageId := (linked.isRoot _ _ stored).2 rfl
  have placed := linked.internal X node stored
  have childFacts : ∀ child ∈ children node.array, ∃ page, t.pages child = some page ∧
      page.parentPageId = X ∧ child ≠ X ∧ child ≠ t.nextPageId ∧ child ≠ (t.nextPageId : Int) + 1 :=
    fun child member => by
      obtain ⟨page, found, pointsBack, isX, -, isFresh⟩ := linked.childFacts stored member
      exact ⟨page, found, pointsBack, isX, isFresh _ freshN, isFresh _ freshR⟩
  have present : ∀ child ∈ children (node.array.drop mid), t.pages child ≠ none :=
    fun child member => by
      obtain ⟨page, found, -⟩ := childFacts child (mem_children_drop member)
      simp [found]
  have rootEq := BPlusTree.insertIntoParent_root_eq
    (.internal { node with array := node.array.take mid })
    (.internal ⟨node.parentPageId, node.array.drop mid⟩) (keyOf node.array mid) fuel
    (t := (((t.newPage.1.writePage t.nextPageId (.internal ⟨node.parentPageId, []⟩)).reparented
      (children (node.array.drop mid)) t.nextPageId).writePage X
      (.internal { node with array := node.array.take mid })).writePage t.nextPageId
      (.internal ⟨node.parentPageId, node.array.drop mid⟩))
    (by simp [Ne.symm differsNX]) (by simp) isRoot differsNX (by simp [differsRX, differsRN, freshR])
  have splitEq := BPlusTree.split_internal_eq stored freshN (by rw [half]; exact present)
  rw [half] at splitEq
  refine ⟨_, _, splitEq,
    BPlusTree.fetchInternal_eq (by simp), rootEq, ?_, ?_, by simp, by simp, ?_⟩
  · -- a split under the new root `(0, X)`
    have linkedR := linked.addRoot stored _ (t.nextPageId + 2) freshR (by omega) (by omega) (by omega)
    set R : Int := (t.nextPageId : Int) + 1
    set placeR := fun pageId => if pageId = R then (⟨(place X).height + 1, none, none⟩ : Place K)
      else place pageId
    have storedXR : (t.overRoot (.internal node) R (t.nextPageId + 2)).pages X =
        some (.internal { node with parentPageId := R }) := by simp [Ne.symm differsRX]
    have cut := linkedR.internalCut storedXR first within
    have placeChildren : ∀ child ∈ children node.array,
        (if child = X then (⟨(placeR X).height, (placeR X).lo, some (keyOf node.array mid)⟩ : Place K)
          else if child = t.nextPageId then
            ⟨(placeR X).height, some (keyOf node.array mid), (placeR X).hi⟩
          else placeR child) = placeR child := fun child member => by
      obtain ⟨_, _, _, isX, isN, -⟩ := childFacts child member
      simp [isX, isN]
    refine ⟨fun pageId => if pageId = X then
        ⟨(placeR X).height, (placeR X).lo, some (keyOf node.array mid)⟩
      else if pageId = t.nextPageId then
        ⟨(placeR X).height, some (keyOf node.array mid), (placeR X).hi⟩
      else placeR pageId, ?_⟩
    refine linkedR.splitInto (children (node.array.drop mid))
      (.internal ⟨R, node.array.take mid⟩) (.internal ⟨R, node.array.drop mid⟩)
      (N := t.nextPageId) (j := 0) storedXR (by simp [Ne.symm differsRX])
      (show (t.overRoot (.internal node) R (t.nextPageId + 2)).pages R =
        some (.internal ⟨invalidPageId, [(0, X)]⟩) by simp)
      (by simp) rfl (by simp [differsNX, Ne.symm differsRN, freshN]) (by omega)
      (by simp; omega) cut.1.ascends cut.2.ascends
      (fun child member => by
        obtain ⟨_, found, pointsBack, isX, -, isR⟩ := childFacts child (mem_children_drop member)
        simp [isX, isR, found, pointsBack])
      (by simp [differsRX, differsRN])
      (by simp [Ne.symm differsRX, Ne.symm differsNX]) rfl (by simp) rfl
      (fun child member => by
        obtain ⟨_, _, _, isX, isN, isR⟩ := childFacts child (mem_children_drop member)
        simp [isX, isN, isR, member])
      (fun pageId isX isN isR notMoved => by simp at isR; simp [isX, isN, isR, notMoved])
      rfl (by simp) (by simp) (by simp [differsNX]) (fun pageId isX isN => by simp [isX, isN])
      ⟨fun _ same => (by cases same), fun node' same => ?_⟩
      ⟨fun _ same => (by cases same), fun node' same => ?_⟩
      (fun child childPage found pointsBack notMoved => ?_) (fun child member => ⟨_, rfl, member⟩)
      (fun _ same => by cases same)
    · cases same
      refine linkedR.internalLowerHalf storedXR first within _ (fun child member => ?_)
        placeChildren (by simp)
      obtain ⟨_, _, _, isX, isN, isR⟩ := childFacts child (mem_children_take member)
      simp [isX, isN, isR, not_mem_children_drop placed.fence.nodup member]
    · cases same
      refine linkedR.internalUpperHalf storedXR first within _ (fun child member => ?_)
        placeChildren (by simp [differsNX])
      obtain ⟨_, _, _, isX, isN, isR⟩ := childFacts child (mem_children_drop member)
      simp [isX, isN, isR, member]
    · obtain ⟨node', storedX, member⟩ := linkedR.listed_of_parent found (by
        rw [pointsBack]; exact linkedR.ne_invalid (by rw [storedXR]; simp))
      rw [pointsBack, storedXR] at storedX
      cases storedX
      exact ⟨_, rfl, mem_children_take_of_not_drop member notMoved⟩
  · have validR : (t.nextPageId : Int) + 1 ≠ invalidPageId := by simp only [invalidPageId]; omega
    have validN : (t.nextPageId : Int) ≠ invalidPageId := by simp only [invalidPageId]; omega
    intro pageId page found
    simp only [PageSized, BPlusTree.writePage_leafMaxSize, BPlusTree.writePage_internalMaxSize,
      BPlusTree.reparented_leafMaxSize, BPlusTree.reparented_internalMaxSize,
      BPlusTree.newPage_leafMaxSize, BPlusTree.newPage_internalMaxSize]
    simp only [BPlusTree.writePage_pages, BPlusTree.reparented_pages, BPlusTree.newPage_pages,
      BPlusTree.writePage_nextPageId, BPlusTree.reparented_nextPageId,
      BPlusTree.newPage_nextPageId] at found
    by_cases isN : pageId = t.nextPageId
    · rw [if_pos isN] at found
      cases found
      simp [validR]; omega
    by_cases isX : pageId = X
    · rw [if_neg isN, if_pos isX] at found
      cases found
      simp [validR]; omega
    by_cases isR : pageId = ((t.nextPageId + 1 : Nat) : Int)
    · rw [if_neg isN, if_neg isX, if_pos isR] at found
      cases found
      simp; omega
    rw [if_neg isN, if_neg isX, if_neg isR, if_neg isN, if_neg isX, if_neg isN] at found
    split_ifs at found with isMoved
    · obtain ⟨page', found', rfl⟩ := Option.map_eq_some'.1 found
      obtain ⟨_, found'', pointsBack, -⟩ := childFacts pageId (mem_children_drop isMoved)
      rw [found''] at found'
      cases found'
      have validX : X ≠ invalidPageId := linked.ne_invalid presentX
      exact (sized _ _ found'' isX).setParentPageId (by rw [pointsBack]; exact validX) validN
    · exact sized _ _ found isX
  · refine holds_congr (fun pageId => ?_)
    simp only [BPlusTree.writePage_pages, BPlusTree.reparented_pages, BPlusTree.newPage_pages]
    split_ifs <;> simp [*]

/-! ## Overflow up the tree -/

/-- With `fuel` passes, a linked tree whose one overflowing page is the internal page `X` is
settled by `Split` and `InsertIntoParent`, when the passes reach the root, and the climb keeps
every page above a page above `X` that is safe for the insert. -/
def SplitsFramed (fuel : Nat) : Prop :=
  ∀ (t : BPlusTree K V) (place : Int → Place K) (X : Int) (node : BPlusTreeInternalPage K),
    Linked t place → t.pages X = some (.internal node) →
    node.array.length = t.internalMaxSize + 1 → 4 ≤ t.internalMaxSize → SizedBut t X →
    (place t.rootPageId).height < (place X).height + fuel →
    ∃ t2 N nodeN key t3, t.split X = .ok (t2, N) ∧ t2.fetchInternal N = .ok nodeN ∧
      nodeN.keyAt 0 = .ok key ∧ BPlusTree.insertIntoParent fuel t2 X key N = .ok t3 ∧
      Settles t t3 ∧ KeepsAboveSafe .insert t t3 place X

theorem exists_slot_of_mem {array : List (K × Int)} {child : Int}
    (member : child ∈ children array) : ∃ j, ∃ inside : j < array.length, array[j].2 = child := by
  obtain ⟨slot, listed, rfl⟩ := List.mem_map.1 member
  obtain ⟨j, inside, rfl⟩ := List.getElem_of_mem listed
  exact ⟨j, inside, rfl⟩

theorem length_insertSlot {α : Type} {array : List α} {j : Nat} (inside : j < array.length)
    (slot : α) : (array.take (j + 1) ++ slot :: array.drop (j + 1)).length = array.length + 1 := by
  simp only [List.length_append, List.length_take, List.length_cons, List.length_drop]
  omega

/-- One pass of `InsertIntoParent` below a parent: the new slot goes into the parent, which is
settled in place or, when it overflows, split in turn with the passes left. -/
theorem insertIntoParent_climb {fuel : Nat} (splitsFramed : SplitsFramed (K := K) (V := V) fuel)
    {t2 : BPlusTree K V} {place'' : Int → Place K} {X N : Int}
    (oldPage newPage : BPlusTreePage K V) {parent parent' : BPlusTreeInternalPage K} {key : K}
    (storedOld : t2.pages X = some oldPage) (notRoot : oldPage.parentPageId ≠ invalidPageId)
    (storedParent : t2.pages oldPage.parentPageId = some (.internal parent))
    (storedNew : t2.pages N = some newPage)
    (newParent : newPage.parentPageId = oldPage.parentPageId)
    (inserted : parent.insertNodeAfter X key N = .ok parent')
    (linked : Linked (t2.writePage oldPage.parentPageId (.internal parent')) place'')
    (grown : parent'.array.length ≤ t2.internalMaxSize + 1) (internalMin : 4 ≤ t2.internalMaxSize)
    (sized : SizedBut (t2.writePage oldPage.parentPageId (.internal parent')) oldPage.parentPageId)
    (fits : parent'.array.length ≤ t2.internalMaxSize → PageSized t2 (.internal parent'))
    (reach : (place'' t2.rootPageId).height < (place'' oldPage.parentPageId).height + fuel) :
    ∃ t3, BPlusTree.insertIntoParent (fuel + 1) t2 X key N = .ok t3 ∧
      Settles (t2.writePage oldPage.parentPageId (.internal parent')) t3 ∧
      KeepsAboveSafe .insert (t2.writePage oldPage.parentPageId (.internal parent')) t3 place''
        oldPage.parentPageId ∧
      (parent'.array.length ≤ t2.internalMaxSize →
        t3 = t2.writePage oldPage.parentPageId (.internal parent')) := by
  rw [BPlusTree.insertIntoParent_parent_eq fuel storedOld notRoot storedParent storedNew newParent
    inserted]
  split_ifs with overflow
  · obtain ⟨t2', N', nodeN, key', t3, splitEq, fetched, keyEq, climbed, settles, frame⟩ :=
      splitsFramed _ place'' _ parent' linked (by simp) (by simp; omega) internalMin sized reach
    refine ⟨t3, ?_, settles, frame, fun fits => by omega⟩
    simp only [splitEq, fetched, keyEq, bind, Except.bind]
    exact climbed
  · exact ⟨_, rfl, ⟨⟨_, linked⟩, sized.sized (by simp) (fits (by omega)), Keeps.refl _⟩,
      fun _ _ _ _ _ _ => KeepsAbove.refl _ _ _, fun _ => rfl⟩

/-- The frame of a split of `X` below its parent `P`: the climb from `P` keeps every page above a
page safe for the insert above `P`, and `P` itself, when safe, takes the new slot without
splitting; `X`, which overflows, is not safe. -/
theorem KeepsAboveSafe.of_split (linked : Linked t place) {X P : Int} {page : BPlusTreePage K V}
    (stored : t.pages X = some page) (parentX : page.parentPageId = P)
    {parent parent' : BPlusTreeInternalPage K} (storedP : t.pages P = some (.internal parent))
    (grown : parent'.array.length = parent.array.length + 1) {t2 t3 : BPlusTree K V}
    {place'' : Int → Place K}
    (above : KeepsAbove t (t2.writePage P (.internal parent')) place (place P).height)
    (heights : ∀ pageId, t.pages pageId ≠ none → (place'' pageId).height = (place pageId).height)
    (leafMaxSize : t2.leafMaxSize = t.leafMaxSize)
    (internalMaxSize : t2.internalMaxSize = t.internalMaxSize)
    (notSafe : ∀ node, page = .internal node →
      page.isSafeOperation t.leafMaxSize t.internalMaxSize .insert = false)
    (frame : KeepsAboveSafe .insert (t2.writePage P (.internal parent')) t3 place'' P)
    (noSplit : parent'.array.length ≤ t2.internalMaxSize →
      t3 = t2.writePage P (.internal parent')) :
    KeepsAboveSafe .insert t t3 place X := by
  intro N nodeN depth descends storedN safe
  rcases depth with _ | depth
  · cases descends
    rw [stored] at storedN
    cases storedN
    rw [notSafe nodeN rfl] at safe
    cases safe
  have descP := linked.descends_parent stored descends
  rw [parentX] at descP
  have presentP : t.pages P ≠ none := by simp [storedP]
  have height := (linked.descends_place descP presentP).1
  rcases depth with _ | depth
  · -- `P` is the safe page: it had room for the new slot
    cases descP
    rw [storedP] at storedN
    cases storedN
    simp only [BPlusTreePage.isSafeOperation, BPlusTreePage.getSize_internal,
      BPlusTreePage.getMaxSize_internal, decide_eq_true_eq] at safe
    rw [noSplit (by omega)]
    exact above
  · have frameN := frame N nodeN (depth + 1) (descP.of_keepsAbove linked above presentP le_rfl)
      (by rw [above.pages N (by simp [storedN]) (by omega), storedN])
      (by simpa [leafMaxSize, internalMaxSize] using safe)
    rw [heights N (by simp [storedN])] at frameN
    exact (above.mono (by omega)).trans frameN heights

/-- The layout after a split of `X` into `X` and the fresh page `N` puts every page of `t` at its
height. -/
theorem split_heights {N : Int} (freshN : t.pages N = none) (X : Int) (lo hi lo' hi' : Option K)
    (pageId : Int) (present : t.pages pageId ≠ none) :
    (if pageId = X then (⟨(place X).height, lo, hi⟩ : Place K)
      else if pageId = N then ⟨(place X).height, lo', hi'⟩ else place pageId).height =
        (place pageId).height := by
  split_ifs with isX isN
  · rw [isX]
  · exact absurd (isN ▸ freshN) present
  · rfl

/-- A leaf below a parent that overflows: `Split`, then `InsertIntoParent` with `fuel + 1` passes,
settle the tree when the passes reach the root. -/
theorem splitLeafParent_climb {fuel : Nat} (splitsFramed : SplitsFramed (K := K) (V := V) fuel)
    (linked : Linked t place) {X : Int} {page : BPlusTreeLeafPage K V}
    (stored : t.pages X = some (.leaf page)) (notRoot : X ≠ t.rootPageId)
    (overflow : page.array.length = t.leafMaxSize + 1) (leafMin : 2 ≤ t.leafMaxSize)
    (internalMin : 4 ≤ t.internalMaxSize) (sized : SizedBut t X)
    (reach : (place t.rootPageId).height < (place X).height + 1 + fuel) :
    ∃ t2 t3, t.split X = .ok (t2, t.nextPageId) ∧
      t2.fetchLeaf t.nextPageId = .ok ⟨page.parentPageId, page.nextPageId,
        page.array.drop ((t.leafMaxSize + 1) / 2)⟩ ∧
      BPlusTree.insertIntoParent (fuel + 1) t2 X
        (keyOf page.array ((t.leafMaxSize + 1) / 2)) t.nextPageId = .ok t3 ∧ Settles t t3 ∧
      KeepsAboveSafe .insert t t3 place X := by
  obtain ⟨idx, half⟩ : ∃ idx, (t.leafMaxSize + 1) / 2 = idx := ⟨_, rfl⟩
  rw [half]
  have first : 1 ≤ idx := by omega
  have within : idx < page.array.length := by omega
  have presentX : t.pages X ≠ none := by simp [stored]
  have freshN : t.pages t.nextPageId = none := linked.fresh _ le_rfl
  have differsNX : (t.nextPageId : Int) ≠ X := fun same => presentX (same ▸ freshN)
  have differsRootN : t.rootPageId ≠ t.nextPageId := fun same =>
    (linked.root_present presentX) (same ▸ freshN)
  obtain ⟨parent, storedP, member⟩ := linked.listed X _ stored notRoot
  change t.pages page.parentPageId = _ at storedP
  obtain ⟨j, inside, slot⟩ := exists_slot_of_mem member
  have presentP : t.pages page.parentPageId ≠ none := by simp [storedP]
  have differsPX : page.parentPageId ≠ X := fun same => by
    rw [same, stored] at storedP; cases storedP
  have differsPN : page.parentPageId ≠ t.nextPageId := fun same => presentP (same ▸ freshN)
  have validP : page.parentPageId ≠ invalidPageId := linked.ne_invalid presentP
  obtain ⟨-, -, -, heightX⟩ := linked.child storedP member
  have sizedP := sized _ _ storedP differsPX
  have roomP : parent.array.length ≤ t.internalMaxSize := by simpa using sizedP.2
  have splitEq := BPlusTree.split_leaf_eq stored
  rw [half] at splitEq
  have linked'' := linked.splitLeafParent stored notRoot storedP inside slot first within
  obtain ⟨t3, climbed, settles, frame, noSplit⟩ := insertIntoParent_climb splitsFramed
    (.leaf { page with array := page.array.take idx, nextPageId := t.nextPageId })
    (.leaf ⟨page.parentPageId, page.nextPageId, page.array.drop idx⟩)
    (by simp [Ne.symm differsNX]) validP (by simp [differsPX, differsPN, storedP]) (by simp) rfl
    (slot ▸ BPlusTreeInternalPage.insertNodeAfter_getElem (linked.internal _ _ storedP).fence.nodup
      inside _ _) linked''
    (by simp [length_insertSlot inside]; omega) internalMin
    (fun pageId page' found isP => by
      simp only [BPlusTree.writePage_pages, BPlusTree.newPage_pages, if_neg isP] at found
      simp only [PageSized, BPlusTree.writePage_leafMaxSize, BPlusTree.writePage_internalMaxSize,
        BPlusTree.newPage_leafMaxSize, BPlusTree.newPage_internalMaxSize]
      split_ifs at found with isN isX
      · cases found
        simp [validP]; omega
      · cases found
        simp [validP]; omega
      · exact sized _ _ found isX)
    (fun fits => ⟨by have := sizedP.1; simp [length_insertSlot inside] at this ⊢; omega, fits⟩)
    (by simp [differsPX, differsPN, Ne.symm notRoot, differsRootN]; omega)
  refine ⟨_, t3, splitEq, BPlusTree.fetchLeaf_eq (by simp), climbed, settles.of_keeps ?_,
    KeepsAboveSafe.of_split linked stored rfl storedP (length_insertSlot inside _)
      (KeepsAbove.of_changed (by simp) fun pageId present changed => ?_)
      (split_heights freshN X _ _ _ _) (by simp) (by simp) (fun _ same => by cases same) frame
      noSplit⟩
  · refine ⟨by simp, by simp, holds_split idx (show leafEntries (t.pages X) = some page.array by
      simp [stored]) freshN (by simp [Ne.symm differsPX, Ne.symm differsNX])
      (by simp [Ne.symm differsPN]) (fun pageId isX isN => ?_)⟩
    simp only [BPlusTree.writePage_pages, BPlusTree.newPage_pages, if_neg isX, if_neg isN]
    split_ifs with isP
    · simp [isP, storedP]
    · rfl
  · -- the split changes `X`, the fresh page and the parent
    by_cases isP : pageId = page.parentPageId
    · exact isP ▸ le_rfl
    by_cases isX : pageId = X
    · rw [isX]
      exact heightX ▸ Nat.le_succ _
    by_cases isN : pageId = t.nextPageId
    · exact absurd (isN ▸ freshN) present
    · simp [isP, isX, isN] at changed

/-- An internal page below a parent that overflows: `Split`, then `InsertIntoParent` with
`fuel + 1` passes, settle the tree when the passes reach the root. -/
theorem splitInternalParent_climb {fuel : Nat} (splitsFramed : SplitsFramed (K := K) (V := V) fuel)
    (linked : Linked t place) {X : Int} {node : BPlusTreeInternalPage K}
    (stored : t.pages X = some (.internal node)) (notRoot : X ≠ t.rootPageId)
    (overflow : node.array.length = t.internalMaxSize + 1) (internalMin : 4 ≤ t.internalMaxSize)
    (sized : SizedBut t X) (reach : (place t.rootPageId).height < (place X).height + 1 + fuel) :
    ∃ t2 t3, t.split X = .ok (t2, t.nextPageId) ∧
      t2.fetchInternal t.nextPageId =
        .ok ⟨node.parentPageId, node.array.drop (node.array.length / 2)⟩ ∧
      BPlusTree.insertIntoParent (fuel + 1) t2 X (keyOf node.array (node.array.length / 2))
        t.nextPageId = .ok t3 ∧ Settles t t3 ∧ KeepsAboveSafe .insert t t3 place X := by
  obtain ⟨mid, half⟩ : ∃ mid, node.array.length / 2 = mid := ⟨_, rfl⟩
  rw [half]
  have first : 1 ≤ mid := by omega
  have within : mid < node.array.length := by omega
  have presentX : t.pages X ≠ none := by simp [stored]
  have freshN : t.pages t.nextPageId = none := linked.fresh _ le_rfl
  have differsNX : (t.nextPageId : Int) ≠ X := fun same => presentX (same ▸ freshN)
  have differsRootN : t.rootPageId ≠ t.nextPageId := fun same =>
    (linked.root_present presentX) (same ▸ freshN)
  have validX : X ≠ invalidPageId := linked.ne_invalid presentX
  have validN : (t.nextPageId : Int) ≠ invalidPageId := by simp only [invalidPageId]; omega
  obtain ⟨parent, storedP, member⟩ := linked.listed X _ stored notRoot
  change t.pages node.parentPageId = _ at storedP
  obtain ⟨j, inside, slot⟩ := exists_slot_of_mem member
  have presentP : t.pages node.parentPageId ≠ none := by simp [storedP]
  obtain ⟨-, -, -, heightX⟩ := linked.child storedP member
  have differsPX : node.parentPageId ≠ X := fun same => by rw [same] at heightX; omega
  have differsPN : node.parentPageId ≠ t.nextPageId := fun same => presentP (same ▸ freshN)
  have validP : node.parentPageId ≠ invalidPageId := linked.ne_invalid presentP
  have sizedP := sized _ _ storedP differsPX
  have roomP : parent.array.length ≤ t.internalMaxSize := by simpa using sizedP.2
  have childFacts : ∀ child ∈ children node.array, ∃ page, t.pages child = some page ∧
      page.parentPageId = X ∧ child ≠ X ∧ child ≠ node.parentPageId ∧ child ≠ t.nextPageId :=
    fun child member => by
      obtain ⟨page, found, pointsBack, isX, isP, isFresh⟩ := linked.childFacts stored member
      exact ⟨page, found, pointsBack, isX, isP, isFresh _ freshN⟩
  have notMovedP : node.parentPageId ∉ children (node.array.drop mid) := fun member =>
    (childFacts _ (mem_children_drop member)).choose_spec.2.2.2.1 rfl
  have splitEq := BPlusTree.split_internal_eq stored freshN (by
    rw [half]
    intro child member
    obtain ⟨_, found, -⟩ := childFacts child (mem_children_drop member)
    simp [found])
  rw [half] at splitEq
  have linked'' := linked.splitInternalParent stored notRoot storedP inside slot first within
  obtain ⟨t3, climbed, settles, frame, noSplit⟩ := insertIntoParent_climb splitsFramed
    (.internal { node with array := node.array.take mid })
    (.internal ⟨node.parentPageId, node.array.drop mid⟩)
    (by simp [Ne.symm differsNX]) validP (by simp [differsPX, differsPN, notMovedP, storedP])
    (by simp) rfl
    (slot ▸ BPlusTreeInternalPage.insertNodeAfter_getElem (linked.internal _ _ storedP).fence.nodup
      inside _ _) linked''
    (by simp [length_insertSlot inside]; omega) internalMin
    (fun pageId page' found isP => by
      simp only [BPlusTree.writePage_pages, BPlusTree.reparented_pages, BPlusTree.newPage_pages,
        if_neg isP] at found
      simp only [PageSized, BPlusTree.writePage_leafMaxSize, BPlusTree.writePage_internalMaxSize,
        BPlusTree.reparented_leafMaxSize, BPlusTree.reparented_internalMaxSize,
        BPlusTree.newPage_leafMaxSize, BPlusTree.newPage_internalMaxSize]
      by_cases isN : pageId = t.nextPageId
      · rw [if_pos isN] at found
        cases found
        simp [validP]; omega
      by_cases isX : pageId = X
      · rw [if_neg isN, if_pos isX] at found
        cases found
        simp [validP]; omega
      rw [if_neg isN, if_neg isX, if_neg isN] at found
      split_ifs at found with isMoved
      · obtain ⟨page, found', rfl⟩ := Option.map_eq_some'.1 found
        obtain ⟨_, found'', pointsBack, -⟩ := childFacts pageId (mem_children_drop isMoved)
        rw [found''] at found'
        cases found'
        exact (sized _ _ found'' isX).setParentPageId (by rw [pointsBack]; exact validX) validN
      · exact sized _ _ found isX)
    (fun fits => ⟨by have := sizedP.1; simp [length_insertSlot inside] at this ⊢; omega, fits⟩)
    (by simp [differsPX, differsPN, Ne.symm notRoot, differsRootN]; omega)
  refine ⟨_, t3, splitEq, BPlusTree.fetchInternal_eq (by simp), climbed,
    settles.of_keeps ⟨by simp, by simp, holds_congr (fun pageId => ?_)⟩,
    KeepsAboveSafe.of_split linked stored rfl storedP (length_insertSlot inside _)
      (KeepsAbove.of_changed (by simp) fun pageId present changed => ?_)
      (split_heights freshN X _ _ _ _) (by simp) (by simp)
      (fun _ same => by cases same; simp [BPlusTreePage.isSafeOperation, overflow]) frame noSplit⟩
  · simp only [BPlusTree.writePage_pages, BPlusTree.reparented_pages, BPlusTree.newPage_pages]
    split_ifs <;> simp [*]
  · -- the split changes `X`, the fresh page, the parent and the children it moves
    by_cases isP : pageId = node.parentPageId
    · exact isP ▸ le_rfl
    by_cases isX : pageId = X
    · rw [isX]
      exact heightX ▸ Nat.le_succ _
    by_cases isN : pageId = t.nextPageId
    · exact absurd (isN ▸ freshN) present
    by_cases isMoved : pageId ∈ children (node.array.drop mid)
    · obtain ⟨-, -, -, heightChild⟩ := linked.child stored (mem_children_drop isMoved)
      show _ ≤ (place node.parentPageId).height
      omega
    · simp [isP, isX, isN, isMoved] at changed

/-- `Split` and `InsertIntoParent` settle an internal page that overflows, with any number of
passes that reach the root. -/
theorem splitsFramed : ∀ fuel, SplitsFramed (K := K) (V := V) fuel
  | 0 => fun t place X _ linked stored _ _ _ reach => by
      have := linked.tall X (by simp [stored])
      omega
  | fuel + 1 => fun t place X node linked stored overflow internalMin sized reach => by
      have within : node.array.length / 2 < node.array.length := by omega
      by_cases root : X = t.rootPageId
      · subst root
        obtain ⟨t2, t3, splitEq, fetched, climbed, settles⟩ :=
          splitInternalRoot_spec linked stored overflow internalMin sized fuel
        exact ⟨t2, _, _, _, t3, splitEq, fetched, internal_keyAt_drop within _, climbed, settles,
          linked.keepsAboveSafe_root stored fun _ same => by
            cases same; simp [BPlusTreePage.isSafeOperation, overflow]⟩
      · obtain ⟨t2, t3, splitEq, fetched, climbed, settles, frame⟩ :=
          splitInternalParent_climb (splitsFramed fuel) linked stored root overflow internalMin
            sized (by omega)
        exact ⟨t2, _, _, _, t3, splitEq, fetched, internal_keyAt_drop within _, climbed, settles,
          frame⟩

/-- A leaf that overflows is settled by `Split` and `InsertIntoParent` with the passes
`InsertIntoLeaf` gives it. -/
theorem splitLeaf_settles (linked : Linked t place) {X : Int} {page : BPlusTreeLeafPage K V}
    (stored : t.pages X = some (.leaf page)) (overflow : page.array.length = t.leafMaxSize + 1)
    (leafMin : 2 ≤ t.leafMaxSize) (internalMin : 4 ≤ t.internalMaxSize) (sized : SizedBut t X) :
    ∃ t2 t3, t.split X = .ok (t2, t.nextPageId) ∧
      t2.fetchLeaf t.nextPageId = .ok ⟨page.parentPageId, page.nextPageId,
        page.array.drop ((t.leafMaxSize + 1) / 2)⟩ ∧
      BPlusTree.insertIntoParent t2.fuel t2 X (keyOf page.array ((t.leafMaxSize + 1) / 2))
        t.nextPageId = .ok t3 ∧ Settles t t3 ∧ KeepsAboveSafe .insert t t3 place X := by
  have splitEq := BPlusTree.split_leaf_eq stored
  have short := linked.short
  by_cases root : X = t.rootPageId
  · subst root
    obtain ⟨t2, t3, splitEq', fetched, climbed, settles⟩ :=
      splitLeafRoot_spec linked stored overflow leafMin (by omega) sized (t.nextPageId + 1)
    rw [splitEq, Except.ok.injEq, Prod.mk.injEq] at splitEq'
    obtain ⟨rfl, -⟩ := splitEq'
    exact ⟨_, t3, splitEq, fetched, climbed, settles,
      linked.keepsAboveSafe_root stored fun _ same => by cases same⟩
  · obtain ⟨t2, t3, splitEq', fetched, climbed, settles, frame⟩ :=
      splitLeafParent_climb (splitsFramed (t.nextPageId + 1)) linked stored root overflow leafMin
        internalMin sized (by have := (linked.leaf X page stored).height; omega)
    rw [splitEq, Except.ok.injEq, Prod.mk.injEq] at splitEq'
    obtain ⟨rfl, -⟩ := splitEq'
    exact ⟨_, t3, splitEq, fetched, climbed, settles, frame⟩

end Insert

/-! ## `Insert` -/

section InsertSpec

variable {t : BPlusTree K V} {place : Int → Place K}

/-- An empty tree holds no page. -/
theorem Linked.empty (linked : Linked t place) (empty : t.rootPageId = invalidPageId)
    (pageId : Int) : t.pages pageId = none := by
  rcases linked.root with ⟨-, none⟩ | ⟨present, -⟩
  · exact none pageId
  · exact absurd empty (linked.ne_invalid present)

/-- `StartNewTree` on an empty tree: one root leaf holding the one entry. -/
theorem Linked.startNewTree (linked : Linked t place) (empty : t.rootPageId = invalidPageId)
    (key : K) (value : V) : Linked (t.startNewTree key value) (fun _ => ⟨0, none, none⟩) := by
  have none := linked.empty empty
  refine ⟨fun pageId present => ?_, fun pageId high => ?_, .inr ⟨by simp, rfl, rfl⟩,
    fun _ _ => le_rfl, Nat.zero_le _, fun pageId page stored => ?_⟩
  · simp only [BPlusTree.startNewTree_pages, none] at present
    split_ifs at present with isRoot
    · omega
    · exact absurd rfl present
  · simp only [BPlusTree.startNewTree_nextPageId] at high
    simp [none, show pageId ≠ t.nextPageId by omega]
  · simp only [BPlusTree.startNewTree_pages, none] at stored
    split_ifs at stored with isRoot
    · cases stored
      refine ⟨iff_of_true rfl isRoot, fun notRoot => absurd isRoot notRoot,
        fun leaf same => ?_, fun _ same => (by cases same)⟩
      cases same
      exact ⟨rfl, List.sorted_singleton _, fun _ _ => ⟨fun _ h => (nomatch h), fun _ h => nomatch h⟩,
        iff_of_true rfl rfl, fun notLast => absurd rfl notLast⟩

section Leaf

variable {key : K} {X : Int} {leaf : BPlusTreeLeafPage K V}
  (found : t.findLeafPage key false = .ok (some X)) (stored : t.pages X = some (.leaf leaf))
include found stored

/-- `InsertIntoLeaf` of a key its leaf holds: `false`, the tree unchanged. -/
theorem insertIntoLeaf_of_present {old : V} (lookedUp : leaf.lookup key = some old) (value : V) :
    t.insertIntoLeaf key value = .ok (t, false) := by
  simp [BPlusTree.insertIntoLeaf, found, BPlusTree.fetchLeaf_eq stored, lookedUp, bind,
    Except.bind, pure, Except.pure]

/-- `InsertIntoLeaf` of a key its leaf lacks, into a leaf with room: the leaf written back is the
whole change. -/
theorem insertIntoLeaf_of_fits (lookedUp : leaf.lookup key = none) (value : V)
    (fits : ¬ t.leafMaxSize < (leaf.insert key value).array.length) :
    t.insertIntoLeaf key value = .ok (t.writePage X (.leaf (leaf.insert key value)), true) := by
  simp [BPlusTree.insertIntoLeaf, found, BPlusTree.fetchLeaf_eq stored, lookedUp, fits, bind,
    Except.bind, pure, Except.pure]

/-- The leaf with the new entry written back keeps the layout. -/
theorem Linked.insertLeaf (linked : Linked t place) (inside : InRange (place X).lo (place X).hi key)
    (lookedUp : leaf.lookup key = none) (value : V) :
    Linked (t.writePage X (.leaf (leaf.insert key value))) place := by
  have placed := linked.leaf X leaf stored
  have absent := (BPlusTreeLeafPage.lookup_eq_none_iff placed.sorted key).1 lookedUp
  obtain ⟨sorted', member', -⟩ := BPlusTreeLeafPage.insert_spec placed.sorted value absent
  exact linked.writeLeaf stored _ sorted' fun entry member => by
    rcases (member' entry).1 member with rfl | old
    · exact inside
    · exact placed.inRange entry old

/-- `InsertIntoLeaf` of a key its leaf lacks, into a full leaf: `Split` and `InsertIntoParent`
settle the tree with the new entry written, and keep every page above a page above the leaf that
is safe for the insert. -/
theorem insertIntoLeaf_of_overflow (linked : Linked t place) (sized : Sized t)
    (leafMin : 2 ≤ t.leafMaxSize) (internalMin : 4 ≤ t.internalMaxSize)
    (inside : InRange (place X).lo (place X).hi key) (lookedUp : leaf.lookup key = none)
    (value : V) (overflow : t.leafMaxSize < (leaf.insert key value).array.length) :
    ∃ t3, t.insertIntoLeaf key value = .ok (t3, true) ∧
      Settles (t.writePage X (.leaf (leaf.insert key value))) t3 ∧
      KeepsAboveSafe .insert (t.writePage X (.leaf (leaf.insert key value))) t3 place X := by
  have placed := linked.leaf X leaf stored
  have absent := (BPlusTreeLeafPage.lookup_eq_none_iff placed.sorted key).1 lookedUp
  obtain ⟨-, -, length'⟩ := BPlusTreeLeafPage.insert_spec placed.sorted value absent
  have full : (leaf.insert key value).array.length = t.leafMaxSize + 1 := by
    have := (sized X _ stored).2
    simp only [BPlusTreePage.getSize_leaf, BPlusTreePage.getMaxSize_leaf] at this
    omega
  obtain ⟨t2, t3, splitEq, fetched, climbed, settles, frame⟩ :=
    splitLeaf_settles (linked.insertLeaf found stored inside lookedUp value) (by simp) full leafMin
      internalMin (sized.writePage X _)
  refine ⟨t3, ?_, settles, frame⟩
  have within : (t.leafMaxSize + 1) / 2 < (leaf.insert key value).array.length := by omega
  rw [BPlusTree.writePage_leafMaxSize] at climbed
  simp only [BPlusTree.insertIntoLeaf, found, BPlusTree.fetchLeaf_eq stored, bind, Except.bind,
    lookedUp, Option.isSome_none, Bool.false_eq_true, if_false, BPlusTree.writePage_leafMaxSize,
    if_pos overflow, splitEq, fetched, pure, Except.pure, leaf_keyAt_drop within, climbed]

/-- **`InsertIntoLeaf(key, value)` stops below a safe page.** For a page at or above `key`'s leaf
that `IsSafeOperation(INSERT)` calls safe, `InsertIntoLeaf` keeps the root and every page above
it. -/
theorem insertIntoLeaf_keepsAbove (linked : Linked t place) (sized : Sized t)
    (leafMin : 2 ≤ t.leafMaxSize) (internalMin : 4 ≤ t.internalMaxSize)
    (inside : InRange (place X).lo (place X).hi key) (value : V) {N : Int} {depth : Nat}
    (descends : Descends t N X depth) {pageN : BPlusTreePage K V}
    (storedN : t.pages N = some pageN)
    (safe : pageN.isSafeOperation t.leafMaxSize t.internalMaxSize .insert) :
    ∃ t' inserted, t.insertIntoLeaf key value = .ok (t', inserted) ∧
      KeepsAbove t t' place (place N).height := by
  cases lookedUp : leaf.lookup key with
  | some old => exact ⟨t, false, insertIntoLeaf_of_present found stored lookedUp value, .refl _ _ _⟩
  | none =>
      by_cases overflow : t.leafMaxSize < (leaf.insert key value).array.length
      · obtain ⟨t3, run, -, frame⟩ := insertIntoLeaf_of_overflow found stored linked sized leafMin
          internalMin inside lookedUp value overflow
        refine ⟨t3, true, run, ?_⟩
        cases depth with
        | zero =>
            -- a safe leaf has room for the new entry
            cases descends
            rw [stored] at storedN
            cases storedN
            have placed := linked.leaf X leaf stored
            obtain ⟨-, -, length'⟩ := BPlusTreeLeafPage.insert_spec placed.sorted value
              ((BPlusTreeLeafPage.lookup_eq_none_iff placed.sorted key).1 lookedUp)
            simp only [BPlusTreePage.isSafeOperation, BPlusTreePage.getSize_leaf,
              BPlusTreePage.getMaxSize_leaf, decide_eq_true_eq] at safe
            omega
        | succ depth => exact (frame.of_writeLeaf linked stored).above descends storedN safe
      · exact ⟨_, true, insertIntoLeaf_of_fits found stored lookedUp value overflow,
          (linked.keepsAbove_writeLeaf stored _).mono (Nat.zero_le _)⟩

end Leaf

/-- `Insert` into a tree that is not empty: `false` when the tree holds `key`, the tree
unchanged; otherwise `true`, with the entry added and the tree valid again. -/
theorem insertIntoLeaf_spec (valid : Valid t) (nonempty : t.rootPageId ≠ invalidPageId) (key : K)
    (value : V) : ∃ t' inserted, t.insertIntoLeaf key value = .ok (t', inserted) ∧ Valid t' ∧
      (inserted = false ↔ ∃ value', Holds t key value') ∧
      ∀ key' value', Holds t' key' value' ↔
        Holds t key' value' ∨ (inserted = true ∧ key' = key ∧ value' = value) := by
  obtain ⟨⟨place, linked⟩, sized, leafMin, internalMin⟩ := valid
  obtain ⟨X, leaf, found, stored, inside⟩ :=
    findLeafPage_spec linked nonempty (sized.twoSlots internalMin) key
  have placed := linked.leaf X leaf stored
  have holdsX := linked.holds_iff_mem stored inside
  cases lookedUp : leaf.lookup key with
  | some old =>
      refine ⟨t, false, insertIntoLeaf_of_present found stored lookedUp value,
        ⟨⟨place, linked⟩, sized, leafMin, internalMin⟩,
        iff_of_true rfl ⟨old, (holdsX old).2 ((BPlusTreeLeafPage.lookup_eq_some_iff placed.sorted
          key old).1 lookedUp)⟩, fun key' value' => by simp⟩
  | none =>
      have absent := (BPlusTreeLeafPage.lookup_eq_none_iff placed.sorted key).1 lookedUp
      obtain ⟨-, member', length'⟩ := BPlusTreeLeafPage.insert_spec placed.sorted value absent
      have holds1 : ∀ key' value', Holds (t.writePage X (.leaf (leaf.insert key value))) key' value' ↔
          Holds t key' value' ∨ (key' = key ∧ value' = value) := fun key' value' => by
        have before := holds_writePage_leaf (t := t) X leaf key' value'
        rw [BPlusTree.writePage_self stored] at before
        rw [holds_writePage_leaf, member', before, Prod.mk.injEq]
        simp only [or_assoc, or_comm, or_left_comm]
      have notHeld : ¬ ∃ value', Holds t key value' := fun ⟨value', held⟩ =>
        absent _ ((holdsX value').1 held) rfl
      by_cases overflow : t.leafMaxSize < (leaf.insert key value).array.length
      · obtain ⟨t3, run, ⟨linked3, sized3, keeps⟩, -⟩ := insertIntoLeaf_of_overflow found stored
          linked sized leafMin internalMin inside lookedUp value overflow
        exact ⟨t3, true, run, ⟨linked3, sized3, keeps.leafMaxSize ▸ leafMin,
          keeps.internalMaxSize ▸ internalMin⟩, iff_of_false (by simp) notHeld,
          fun key' value' => by rw [keeps.holds, holds1]; simp⟩
      · have fits : PageSized t (.leaf (leaf.insert key value)) :=
          ⟨(sized X _ stored).1.trans (by simp [length']), by simpa using overflow⟩
        exact ⟨_, true, insertIntoLeaf_of_fits found stored lookedUp value overflow,
          ⟨⟨place, linked.insertLeaf found stored inside lookedUp value⟩,
            (sized.writePage X _).sized (by simp) fits, leafMin, internalMin⟩,
          iff_of_false (by simp) notHeld, fun key' value' => by rw [holds1]; simp⟩

/-- `Insert(key, value)` on a valid tree: `false` exactly when the tree holds `key`, the tree
then unchanged; otherwise `true`, the tree holding the entry besides its old ones. The tree stays
valid. -/
theorem insert_spec (valid : Valid t) (key : K) (value : V) :
    ∃ t' inserted, t.insert key value = .ok (t', inserted) ∧ Valid t' ∧
      (inserted = false ↔ ∃ value', Holds t key value') ∧
      ∀ key' value', Holds t' key' value' ↔
        Holds t key' value' ∨ (inserted = true ∧ key' = key ∧ value' = value) := by
  by_cases empty : t.rootPageId = invalidPageId
  · obtain ⟨⟨place, linked⟩, sized, leafMin, internalMin⟩ := valid
    have none := linked.empty empty
    have nothing : ∀ key' value', ¬ Holds t key' value' := fun _ _ ⟨_, _, found, _⟩ => by
      simp [none] at found
    refine ⟨_, true, by simp [BPlusTree.insert, BPlusTree.isEmpty, empty],
      ⟨⟨_, linked.startNewTree empty key value⟩, fun pageId page found => ?_, leafMin, internalMin⟩,
      iff_of_false (by simp) fun ⟨_, held⟩ => nothing _ _ held, fun key' value' => ?_⟩
    · simp only [BPlusTree.startNewTree_pages, none] at found
      split_ifs at found
      cases found
      simp [PageSized]
      omega
    · simp only [nothing, false_or, true_and]
      constructor
      · rintro ⟨pageId, leaf, found, member⟩
        simp only [BPlusTree.startNewTree_pages, none] at found
        split_ifs at found
        cases found
        simpa using member
      · rintro ⟨rfl, rfl⟩
        exact ⟨t.nextPageId, ⟨invalidPageId, invalidPageId, [(key', value')]⟩, by simp,
          List.mem_singleton_self _⟩
  · simp only [BPlusTree.insert, BPlusTree.isEmpty, empty, decide_False, Bool.false_eq_true,
      if_false]
    exact insertIntoLeaf_spec valid empty key value

end InsertSpec

end ScuDb.Index
