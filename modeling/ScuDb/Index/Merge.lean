import ScuDb.Index.Insertion

/-!
Contract: the layout lemmas of deletion: two sibling pages merged into one, the boundary
between two siblings moved, and the root handed over to its only child or emptied.

Owns: the separator chain with a slot removed (`Fence.eraseAfter`), the facts two adjacent
slots of a parent give (`Linked.siblings`, and `Linked.siblings_stored`: both leaves or both
internal pages), the general merge lemma `Linked.mergeInto` with the conditions of a merged leaf
and of a merged internal page, the store after a merge (`BPlusTree.merged`, `Linked.mergeLeaves`,
`Linked.mergeInternals`), a redistribution between two siblings (`Linked.redistributeLeaves`,
`Linked.redistributeInternals`), and the two ends of `AdjustRoot` (`Linked.promoteChild`,
`linked_of_empty`).

Does not own: what the code's methods compute (`ScuDb.Index.Deletion`) and sizes.

## Why a redistribution is a merge and a split

Moving entries or slots between two siblings `A` and `B` moves the separator between them and
nothing else. The same tree comes out of merging `B` into `A`, which `Coalesce` does anyway,
and splitting the merged page at the new separator, which `Linked.splitInto` already covers;
the page `B` is new to the merged store, as the split lemma asks. So a redistribution costs the
conditions of the two halves and no layout argument of its own.
-/

set_option linter.unusedSectionVars false

namespace ScuDb.Index

open ScuDb.Buffer (invalidPageId)

variable {K V : Type} [LinearOrder K] [Zero K]

/-! ## The separator chain with a slot removed -/

section Fence

variable {place place' : Int → Place K} {height : Nat}

/-- Two slots of a chain hold the same child only when they are one slot. -/
theorem Fence.slot_inj {lo hi : Option K} {array : List (K × Int)}
    (chain : Fence place height lo array hi) {i j : Nat} (insideI : i < array.length)
    (insideJ : j < array.length) (same : array[i].2 = array[j].2) : i = j := by
  have distinct := chain.nodup
  rw [children] at distinct
  exact (@List.Nodup.getElem_inj_iff _ _ distinct i (by simpa using insideI) j
    (by simpa using insideJ)).1 (by simpa using same)

/-- A slot placed right after slot `j` leaves slot 0's key alone, and so does one removed. -/
theorem keyOf_eraseIdx_succ_zero {α : Type} (array : List (K × α)) (j : Nat) :
    keyOf (array.eraseIdx (j + 1)) 0 = keyOf array 0 := by
  cases array <;> simp [keyOf]

/-- The children of a chain with slot `j + 1` removed are the others. -/
theorem mem_children_eraseIdx {array : List (K × Int)} (distinct : (children array).Nodup)
    {j : Nat} (inside : j < array.length) {child : Int} :
    child ∈ children (array.eraseIdx j) ↔ child ∈ children array ∧ child ≠ array[j].2 := by
  have split : ∃ front back, array = front ++ array[j] :: back ∧ front.length = j :=
    ⟨array.take j, array.drop (j + 1), by rw [← List.drop_eq_getElem_cons inside,
      List.take_append_drop], by simp; omega⟩
  generalize array[j] = slot at split ⊢
  obtain ⟨front, back, rfl, rfl⟩ := split
  rw [List.eraseIdx_append_of_length_le le_rfl, Nat.sub_self, List.eraseIdx_cons_zero]
  simp only [children, List.map_append, List.map_cons, List.nodup_append, List.nodup_cons,
    List.mem_append, List.mem_cons] at distinct ⊢
  obtain ⟨-, ⟨notLater, -⟩, disjoint⟩ := distinct
  constructor
  · rintro (member | member)
    · exact ⟨.inl member, fun same => disjoint member (same ▸ List.mem_cons_self _ _)⟩
    · exact ⟨.inr (.inr member), fun same => notLater (same ▸ member)⟩
  · rintro ⟨(member | same | member), differs⟩
    · exact .inl member
    · exact absurd same differs
    · exact .inr member

/-- Slot `j + 1` removed, the child `A` of slot `j` taking over the interval of the child `B`
slot `j + 1` held, keeps the chain. -/
theorem Fence.eraseAfter {A B : Int}
    (placeA : place' A = ⟨height, (place A).lo, (place B).hi⟩)
    (others : ∀ other, other ≠ A → place' other = place other) :
    ∀ {lo hi : Option K} {array : List (K × Int)} {j : Nat}, Fence place height lo array hi →
      (inside : j + 1 < array.length) → array[j].2 = A → array[j + 1].2 = B →
      Fence place' height lo (array.eraseIdx (j + 1)) hi
  | _, _, [], _, chain, _, _, _ => chain.elim
  | _, _, [_], _, _, inside, _, _ => by simp at inside
  | lo, hi, (key₀, first) :: (key, second) :: rest, 0, chain, _, slotA, slotB => by
      have distinct := chain.nodup
      obtain ⟨below, placed, later⟩ := chain
      simp only [List.getElem_cons_zero, List.getElem_cons_succ] at slotA slotB
      subst slotA slotB
      simp only [List.eraseIdx_cons_succ, List.eraseIdx_cons_zero]
      cases rest with
      | nil =>
          obtain ⟨ascends, placedB⟩ := later
          refine ⟨below.trans ascends, ?_⟩
          rw [placeA, placed, placedB]
      | cons third rest =>
          obtain ⟨below', placedB, later'⟩ := later
          refine ⟨below.trans below', by rw [placeA, placed, placedB], later'.congr
            fun other member => others other fun same => ?_⟩
          subst same
          simp only [children, List.map_cons, List.nodup_cons, List.mem_cons] at distinct member
          exact distinct.1 (.inr member)
  | lo, hi, (key₀, first) :: (key, second) :: rest, j + 1, chain, inside, slotA, slotB => by
      have distinct := chain.nodup
      obtain ⟨below, placed, later⟩ := chain
      have firstDiffers : first ≠ A := fun same => by
        subst same
        refine (List.nodup_cons.1 distinct).1 ?_
        rw [← slotA]
        exact mem_children_of_getElem (by simp at inside ⊢; omega)
      have inductionHypothesis := later.eraseAfter placeA others (j := j) (by simpa using inside)
        slotA slotB
      simp only [List.eraseIdx_cons_succ] at inductionHypothesis ⊢
      exact ⟨below, by rw [others first firstDiffers]; exact placed, inductionHypothesis⟩

end Fence

/-! ## Two sibling pages -/

section Siblings

variable {t : BPlusTree K V} {place : Int → Place K}

/-- The children `A` and `B` of two adjacent slots `i` and `i + 1` of a parent `P`: stored,
pointing back, one level below `P`, distinct, and meeting at the key of slot `i + 1`. -/
theorem Linked.siblings (linked : Linked t place) {P A B : Int} {parent : BPlusTreeInternalPage K}
    {i : Nat} (storedP : t.pages P = some (.internal parent)) (inside : i + 1 < parent.array.length)
    (slotA : parent.array[i].2 = A) (slotB : parent.array[i + 1].2 = B) :
    ∃ pageA pageB, t.pages A = some pageA ∧ t.pages B = some pageB ∧
      pageA.parentPageId = P ∧ pageB.parentPageId = P ∧
      (place A).height + 1 = (place P).height ∧ (place B).height + 1 = (place P).height ∧
      (place A).hi = some (keyOf parent.array (i + 1)) ∧
      (place B).lo = some (keyOf parent.array (i + 1)) ∧ A ≠ B := by
  have fence := (linked.internal _ _ storedP).fence
  obtain ⟨pageA, storedA, parentA, heightA⟩ :=
    linked.child storedP (slotA ▸ mem_children_of_getElem (by omega))
  obtain ⟨pageB, storedB, parentB, heightB⟩ :=
    linked.child storedP (slotB ▸ mem_children_of_getElem inside)
  have placeA := fence.childOf_place i (by omega)
  have placeB := fence.childOf_place (i + 1) inside
  rw [childOf_eq_getElem (by omega), slotA] at placeA
  rw [childOf_eq_getElem inside, slotB] at placeB
  refine ⟨pageA, pageB, storedA, storedB, parentA, parentB, heightA, heightB, ?_, ?_,
    fun same => ?_⟩
  · rw [placeA, if_pos inside]
  · rw [placeB, if_neg (by omega)]
  · have := fence.slot_inj (i := i) (j := i + 1) (by omega) inside (by rw [slotA, slotB, same])
    omega

/-- `Linked.siblings` for the pages `A` and `B` hold: both point back to `P`, neither is `P`, and,
one level below `P`, both are leaves or both are internal pages. -/
theorem Linked.siblings_stored (linked : Linked t place) {P A B : Int}
    {parent : BPlusTreeInternalPage K} {i : Nat} (storedP : t.pages P = some (.internal parent))
    (inside : i + 1 < parent.array.length) (slotA : parent.array[i].2 = A)
    (slotB : parent.array[i + 1].2 = B) {pageA pageB : BPlusTreePage K V}
    (storedA : t.pages A = some pageA) (storedB : t.pages B = some pageB) :
    pageA.parentPageId = P ∧ pageB.parentPageId = P ∧ A ≠ B ∧ P ≠ A ∧ P ≠ B ∧
      ((∃ leafA leafB, pageA = .leaf leafA ∧ pageB = .leaf leafB) ∨
        ∃ nodeA nodeB, pageA = .internal nodeA ∧ pageB = .internal nodeB) := by
  obtain ⟨_, _, storedA', storedB', parentA, parentB, heightA, heightB, -, -, differsAB⟩ :=
    linked.siblings storedP inside slotA slotB
  rw [storedA] at storedA'
  rw [storedB] at storedB'
  cases storedA'
  cases storedB'
  refine ⟨parentA, parentB, differsAB, fun same => by rw [same] at heightA; omega,
    fun same => by rw [same] at heightB; omega, ?_⟩
  cases pageA with
  | leaf leafA =>
      cases pageB with
      | leaf leafB => exact .inl ⟨leafA, leafB, rfl, rfl⟩
      | internal nodeB =>
          have := (linked.leaf _ _ storedA).height
          have := (linked.internal _ _ storedB).height
          omega
  | internal nodeA =>
      cases pageB with
      | leaf leafB =>
          have := (linked.internal _ _ storedA).height
          have := (linked.leaf _ _ storedB).height
          omega
      | internal nodeB => exact .inr ⟨nodeA, nodeB, rfl, rfl⟩

/-- A step that changes only two siblings, their parent and children of the two keeps the root
and every page above the parent. -/
theorem Linked.keepsAbove_siblings (linked : Linked t place) {t' : BPlusTree K V} {P A B : Int}
    {parent : BPlusTreeInternalPage K} {i : Nat} (storedP : t.pages P = some (.internal parent))
    (inside : i + 1 < parent.array.length) (slotA : parent.array[i].2 = A)
    (slotB : parent.array[i + 1].2 = B) (root : t'.rootPageId = t.rootPageId)
    (changed : ∀ pageId page, t.pages pageId = some page → t'.pages pageId ≠ some page →
      pageId = A ∨ pageId = B ∨ pageId = P ∨ page.parentPageId = A ∨ page.parentPageId = B) :
    KeepsAbove t t' place (place P).height := by
  obtain ⟨_, _, storedA, storedB, -, -, heightA, heightB, -⟩ :=
    linked.siblings storedP inside slotA slotB
  refine KeepsAbove.of_changed root fun pageId present differs => ?_
  obtain ⟨page, stored⟩ := Option.ne_none_iff_exists'.1 present
  rw [stored] at differs
  -- a child of either sibling sits two levels below the parent
  have belowSibling : ∀ {X : Int}, t.pages X ≠ none → page.parentPageId = X →
      (place pageId).height + 1 = (place X).height := fun {X} presentX parent' => by
    have notRoot : pageId ≠ t.rootPageId := fun isRoot =>
      linked.ne_invalid presentX (parent' ▸ (linked.isRoot _ _ stored).2 isRoot)
    obtain ⟨-, -, -, height, -⟩ := linked.parent_placed stored notRoot
    rwa [parent'] at height
  rcases changed pageId page stored differs with rfl | rfl | rfl | parent' | parent'
  · omega
  · omega
  · exact le_rfl
  · have := belowSibling (by simp [storedA]) parent'; omega
  · have := belowSibling (by simp [storedB]) parent'; omega

end Siblings

/-! ## Two siblings merged -/

section Merge

variable {t t' : BPlusTree K V} {place place' : Int → Place K}

/-- The page `B` of slot `i + 1` of `P` merged into the page `A` of slot `i`: `A` takes over
`B`'s interval, `B` leaves the store and its slot leaves `P`, and `B`'s children, `moved`, are
handed to `A`: the tree stays linked, given `A`'s own conditions. -/
theorem Linked.mergeInto (linked : Linked t place) (moved : List Int) (pageA' : BPlusTreePage K V)
    {P A B : Int} {parent : BPlusTreeInternalPage K} {i : Nat}
    (storedP : t.pages P = some (.internal parent)) (inside : i + 1 < parent.array.length)
    (slotA : parent.array[i].2 = A) (slotB : parent.array[i + 1].2 = B)
    (movedIff : ∀ child, child ∈ moved ↔ ∃ page, t.pages child = some page ∧ page.parentPageId = B)
    (pagesP : t'.pages P = some (.internal { parent with array := parent.array.eraseIdx (i + 1) }))
    (pagesA : t'.pages A = some pageA') (parentA : pageA'.parentPageId = P)
    (pagesB : t'.pages B = none)
    (pagesMoved : ∀ child ∈ moved, t'.pages child = (t.pages child).map (·.setParentPageId A))
    (pagesOther : ∀ pageId, pageId ≠ A → pageId ≠ B → pageId ≠ P → pageId ∉ moved →
      t'.pages pageId = t.pages pageId)
    (root : t'.rootPageId = t.rootPageId) (next : t'.nextPageId = t.nextPageId)
    (placeA : place' A = ⟨(place A).height, (place A).lo, (place B).hi⟩)
    (placeOther : ∀ pageId, pageId ≠ A → place' pageId = place pageId)
    (ownA : (∀ leaf, pageA' = .leaf leaf → LeafPlaced t' place' A leaf) ∧
      ∀ node, pageA' = .internal node → InternalPlaced t' place' A node)
    (listedA : ∀ child page, t.pages child = some page →
      (page.parentPageId = A ∨ page.parentPageId = B) →
      ∃ node, pageA' = .internal node ∧ child ∈ children node.array)
    (leafA : ∀ leaf, t.pages A = some (.leaf leaf) → ∃ leaf', pageA' = .leaf leaf') :
    Linked t' place' := by
  obtain ⟨pageA, pageB, storedA, storedB, parentA₀, parentB₀, heightA, heightB, hiA, loB,
    differsAB⟩ := linked.siblings storedP inside slotA slotB
  have ne : ∀ {a b : Int}, (place a).height ≠ (place b).height → a ≠ b := fun h same =>
    h (by rw [same])
  have differsPA : P ≠ A := ne (by omega)
  have presentA : t.pages A ≠ none := by simp [storedA]
  have presentB : t.pages B ≠ none := by simp [storedB]
  have presentP : t.pages P ≠ none := by simp [storedP]
  have parentValid : P ≠ invalidPageId := linked.ne_invalid presentP
  have distinct := (linked.internal _ _ storedP).fence.nodup
  have notRoot : ∀ {pageId : Int} {page : BPlusTreePage K V}, t.pages pageId = some page →
      page.parentPageId ≠ invalidPageId → pageId ≠ t.rootPageId := fun found valid same =>
    valid ((linked.isRoot _ _ found).2 same)
  -- the children handed over sit one level below `B`
  have movedFacts : ∀ child ∈ moved, ∃ page, t.pages child = some page ∧
      page.parentPageId = B ∧ (place child).height + 1 = (place B).height := by
    intro child listed
    obtain ⟨page, found, pointsBack⟩ := (movedIff child).1 listed
    obtain ⟨node, storedB', member⟩ :=
      linked.listed_of_parent found (pointsBack ▸ linked.ne_invalid presentB)
    rw [pointsBack] at storedB'
    obtain ⟨_, _, _, height⟩ := linked.child storedB' member
    exact ⟨page, found, pointsBack, height⟩
  have storedBefore : ∀ pageId, t'.pages pageId ≠ none → t.pages pageId ≠ none := by
    intro pageId present
    by_cases isA : pageId = A
    · exact isA ▸ presentA
    by_cases isB : pageId = B
    · rw [isB, pagesB] at present; exact absurd rfl present
    by_cases isP : pageId = P
    · exact isP ▸ presentP
    by_cases isMoved : pageId ∈ moved
    · obtain ⟨page, found, -⟩ := movedFacts pageId isMoved
      simp [found]
    · rwa [← pagesOther pageId isA isB isP isMoved]
  have rootPresent := linked.root_present presentA
  have rootDiffersA : t.rootPageId ≠ A := fun same =>
    notRoot storedA (parentA₀ ▸ parentValid) same.symm
  refine linked.of_placed (fun pageId present => .inl (storedBefore pageId present)) next.ge root
    rootPresent ?_ (placeOther _ rootDiffersA) (fun pageId present => ?_)
    fun pageId page stored' => ?_
  · by_cases isP : t.rootPageId = P
    · rw [isP, pagesP]; simp
    have notMoved : t.rootPageId ∉ moved := fun isMoved => by
      obtain ⟨page, found, pointsBack, -⟩ := movedFacts _ isMoved
      exact notRoot found (pointsBack ▸ linked.ne_invalid presentB) rfl
    rw [pagesOther _ rootDiffersA (fun same => notRoot storedB (parentB₀ ▸ parentValid) same.symm)
      isP notMoved]
    exact rootPresent
  · by_cases isA : pageId = A
    · rw [isA, placeA]; exact linked.tall A presentA
    · rw [placeOther _ isA]; exact linked.tall pageId (storedBefore pageId present)
  -- the conditions of each page
  by_cases isA : pageId = A
  · subst isA
    rw [pagesA] at stored'
    cases stored'
    exact ⟨iff_of_false (by rw [parentA]; exact parentValid) (by rw [root]; exact Ne.symm rootDiffersA),
      fun _ => ⟨_, by rw [parentA]; exact pagesP, (mem_children_eraseIdx distinct inside).2
        ⟨slotA ▸ mem_children_of_getElem (by omega), by rw [slotB]; exact differsAB⟩⟩,
      ownA.1, ownA.2⟩
  by_cases isB : pageId = B
  · rw [isB, pagesB] at stored'; cases stored'
  by_cases isP : pageId = P
  · subst isP
    rw [pagesP] at stored'
    cases stored'
    have placedP := linked.internal _ _ storedP
    refine ⟨?_, fun notRoot' => ?_, fun _ isLeaf => (nomatch isLeaf), fun node isInternal => ?_⟩
    · rw [root]; exact linked.isRoot _ (.internal parent) storedP
    · rw [root] at notRoot'
      obtain ⟨grand, grandStored, member', heightP, -⟩ := linked.parent_placed storedP notRoot'
      simp only [BPlusTreePage.parentPageId_internal] at grandStored heightP ⊢
      refine ⟨grand, ?_, member'⟩
      rw [pagesOther parent.parentPageId (ne (by omega)) (ne (by omega)) (ne (by omega))
        fun isMoved => by obtain ⟨_, _, _, height⟩ := movedFacts _ isMoved; omega]
      exact grandStored
    · cases isInternal
      refine ⟨?_, ?_, fun child member' => ?_, ?_⟩
      · rw [placeOther _ differsPA]; exact placedP.height
      · rw [placeOther _ differsPA]
        exact placedP.fence.eraseAfter (by rw [placeA]; congr 1; omega) placeOther inside slotA
          slotB
      · obtain ⟨member', notB⟩ := (mem_children_eraseIdx distinct inside).1 member'
        rw [slotB] at notB
        by_cases isA' : child = A
        · subst isA'; rw [pagesA]; simp [parentA]
        obtain ⟨page, found, pointsBack, height⟩ := linked.child storedP member'
        rw [pagesOther child isA' notB (ne (by omega)) fun isMoved => by
          obtain ⟨_, _, _, height'⟩ := movedFacts _ isMoved; omega, found]
        simp [pointsBack]
      · rw [placeOther _ differsPA, keyOf_eraseIdx_succ_zero]; exact placedP.firstKey
  by_cases isMoved : pageId ∈ moved
  · obtain ⟨oldPage, found, pointsBack, height⟩ := movedFacts pageId isMoved
    rw [pagesMoved pageId isMoved, found] at stored'
    cases stored'
    have placedOld := linked.placed pageId oldPage found
    have samePlace := placeOther pageId isA
    refine ⟨iff_of_false (by simpa using linked.ne_invalid presentA)
        (by rw [root]; exact notRoot found (pointsBack ▸ linked.ne_invalid presentB)),
      fun _ => ?_, fun leaf isLeaf => ?_, fun node isInternal => ?_⟩
    · obtain ⟨node, isInternal, member'⟩ := listedA pageId oldPage found (.inr pointsBack)
      exact ⟨node, by simp [pagesA, isInternal], member'⟩
    · cases oldPage with
      | internal => cases isLeaf
      | leaf oldLeaf =>
          cases isLeaf
          have placedLeaf := placedOld.leaf oldLeaf rfl
          refine placedLeaf.transfer _ rfl rfl samePlace fun notLast => ?_
          obtain ⟨next', nextStored, -⟩ := placedLeaf.next notLast
          have nextHeight := (linked.leaf _ _ nextStored).height
          have leafHeight := placedLeaf.height
          have nextNotA : oldLeaf.nextPageId ≠ A := ne (by omega)
          refine ⟨?_, by rw [placeOther _ nextNotA]⟩
          by_cases nextMoved : oldLeaf.nextPageId ∈ moved
          · exact ⟨{ next' with parentPageId := A }, by rw [pagesMoved _ nextMoved, nextStored]; rfl⟩
          · exact ⟨next', by
              rw [pagesOther _ nextNotA (ne (by omega)) (ne (by omega)) nextMoved]; exact nextStored⟩
    · cases oldPage with
      | leaf => cases isInternal
      | internal oldNode =>
          cases isInternal
          refine (placedOld.internal oldNode rfl).transfer _ rfl samePlace fun child member' => ?_
          obtain ⟨grandchild, grandStored, grandPoints, grandHeight⟩ := linked.child found member'
          have notMoved : child ∉ moved := fun listed => by
            obtain ⟨_, _, _, height'⟩ := movedFacts child listed; omega
          refine ⟨placeOther _ (ne (by omega)), ?_⟩
          rw [pagesOther child (ne (by omega)) (ne (by omega)) (ne (by omega)) notMoved, grandStored]
          simp [grandPoints]
  -- a page no merge touched
  refine linked.untouched (fun pageId => pageId = A ∨ pageId = B ∨ pageId = P ∨ pageId ∈ moved)
    (fun pageId untouched => ?_) (fun _ _ => by rw [root])
    (fun pageId page untouched found touched notRoot' => ?_)
    (fun pageId leaf untouched found touched notLast => ?_)
    (fun pageId node untouched found child member' touched => ?_) pageId page
    (by simp only [not_or]; exact ⟨isA, isB, isP, isMoved⟩) stored'
  · simp only [not_or] at untouched
    exact ⟨pagesOther pageId untouched.1 untouched.2.1 untouched.2.2.1 untouched.2.2.2,
      placeOther pageId untouched.1⟩
  · obtain ⟨grand, grandStored, member'⟩ := linked.listed pageId page found notRoot'
    simp only at touched
    rcases touched with same | same | same | same
    · obtain ⟨node, isInternal, member''⟩ := listedA pageId page found (.inl same)
      exact ⟨node, by rw [same, pagesA, isInternal], member''⟩
    · exact absurd (.inr (.inr (.inr ((movedIff pageId).2 ⟨page, found, same⟩)))) untouched
    · rw [same, storedP] at grandStored
      cases grandStored
      refine ⟨_, by rw [same]; exact pagesP, (mem_children_eraseIdx distinct inside).2
        ⟨member', ?_⟩⟩
      rw [slotB]
      exact fun isB' => untouched (.inr (.inl isB'))
    · refine ⟨{ grand with parentPageId := A }, ?_, member'⟩
      rw [pagesMoved _ same, grandStored]
      rfl
  · obtain ⟨next', nextStored, nextLo⟩ := (linked.leaf _ _ found).next notLast
    simp only at touched
    rcases touched with same | same | same | same
    · rw [same] at nextStored ⊢
      obtain ⟨leaf', isLeaf⟩ := leafA next' nextStored
      exact ⟨⟨leaf', by rw [pagesA, isLeaf]⟩, by rw [placeA]⟩
    · -- the leaf before `B` is `A`
      rw [same] at nextStored nextLo
      have leafHeightB := (linked.leaf _ _ nextStored).height
      obtain ⟨leafA', storedA'⟩ : ∃ leaf, t.pages A = some (.leaf leaf) := by
        cases pageA with
        | leaf leaf => exact ⟨leaf, storedA⟩
        | internal node => exact absurd (linked.internal _ _ storedA).height (by omega)
      exact absurd (.inl (linked.leaf_unique_hi found storedA' (nextLo.symm.trans loB) hiA))
        untouched
    · rw [same, storedP] at nextStored; cases nextStored
    · obtain ⟨_, _, _, height⟩ := movedFacts _ same
      exact ⟨⟨{ next' with parentPageId := A }, by rw [pagesMoved _ same, nextStored]; rfl⟩,
        by rw [placeOther _ (ne (by omega))]⟩
  · obtain ⟨childPage, childStored, childPoints, -⟩ := linked.child found member'
    simp only at touched
    rcases touched with same | same | same | same
    · rw [same, storedA] at childStored
      cases childStored
      exact absurd (.inr (.inr (.inl (childPoints.symm.trans parentA₀)))) untouched
    · rw [same, storedB] at childStored
      cases childStored
      exact absurd (.inr (.inr (.inl (childPoints.symm.trans parentB₀)))) untouched
    · refine ⟨placeOther _ (same ▸ differsPA), ?_⟩
      rw [same, pagesP]
      rw [same, storedP] at childStored
      cases childStored
      simpa using childPoints
    · obtain ⟨_, found', pointsBack', -⟩ := movedFacts child same
      rw [childStored] at found'
      cases found'
      exact absurd (.inr (.inl (childPoints.symm.trans pointsBack'))) untouched

/-- A leaf `A` merged with the leaf `B` that follows it at `key`: the entries of both, `B`'s next
leaf, and both intervals. -/
theorem Linked.mergedLeaf (linked : Linked t place) {A B : Int}
    {leafA leafB : BPlusTreeLeafPage K V} (storedA : t.pages A = some (.leaf leafA))
    (storedB : t.pages B = some (.leaf leafB)) {key : K} (hiA : (place A).hi = some key)
    (loB : (place B).lo = some key) (parent : Int)
    (pagesNext : leafB.nextPageId ≠ invalidPageId →
      t'.pages leafB.nextPageId = t.pages leafB.nextPageId ∧
        place' leafB.nextPageId = place leafB.nextPageId)
    (placeA : place' A = ⟨(place A).height, (place A).lo, (place B).hi⟩) :
    LeafPlaced t' place' A ⟨parent, leafB.nextPageId, leafA.array ++ leafB.array⟩ := by
  have placedA := linked.leaf A leafA storedA
  have placedB := linked.leaf B leafB storedB
  have ascendsA := linked.ascends (show t.pages A ≠ none by simp [storedA])
  have ascendsB := linked.ascends (show t.pages B ≠ none by simp [storedB])
  have belowKey : ∀ entry ∈ leafA.array, entry.1 < key := fun entry member =>
    (placedA.inRange entry member).2 key hiA
  have fromKey : ∀ entry ∈ leafB.array, key ≤ entry.1 := fun entry member =>
    (placedB.inRange entry member).1 key loB
  refine ⟨by rw [placeA]; exact placedA.height, ?_, fun entry member => ?_, ?_,
    fun notLast => ?_⟩
  · rw [List.map_append]
    refine List.pairwise_append.2 ⟨placedA.sorted, placedB.sorted, fun low lowMember high highMember => ?_⟩
    obtain ⟨entry, entryMember, rfl⟩ := List.mem_map.1 lowMember
    obtain ⟨entry', entryMember', rfl⟩ := List.mem_map.1 highMember
    exact lt_of_lt_of_le (belowKey entry entryMember) (fromKey entry' entryMember')
  · rw [placeA]
    rcases List.mem_append.1 member with member | member
    · exact ⟨(placedA.inRange entry member).1, fun h bound =>
        (belowKey entry member).trans (ascendsB key loB h bound)⟩
    · exact ⟨fun l bound => ((ascendsA l bound key hiA).trans_le (fromKey entry member)).le,
        (placedB.inRange entry member).2⟩
  · rw [placeA]; exact placedB.last
  · obtain ⟨next', nextStored, nextLo⟩ := placedB.next notLast
    obtain ⟨sameNext, sameNextPlace⟩ := pagesNext notLast
    exact ⟨next', sameNext.trans nextStored, by rw [sameNextPlace, nextLo, placeA]⟩

/-- An internal page `A` merged with the internal page `B` that follows it at `key`: `A`'s slots,
then `B`'s with slot 0 keyed by `key`, every child pointing back to `A`, over both
intervals. -/
theorem Linked.mergedInternal (linked : Linked t place) {A B : Int}
    {nodeA nodeB : BPlusTreeInternalPage K} (storedA : t.pages A = some (.internal nodeA))
    (storedB : t.pages B = some (.internal nodeB)) (sameHeight : (place A).height = (place B).height)
    {key : K} (hiA : (place A).hi = some key) (loB : (place B).lo = some key)
    {keyB : K} {firstB : Int} {restB : List (K × Int)}
    (slotsB : nodeB.array = (keyB, firstB) :: restB) (parent : Int)
    (pagesChildren : ∀ child ∈ children nodeA.array ++ children nodeB.array,
      (t'.pages child).map BPlusTreePage.parentPageId = some A)
    (placeChildren : ∀ child ∈ children nodeA.array ++ children nodeB.array,
      place' child = place child)
    (placeA : place' A = ⟨(place A).height, (place A).lo, (place B).hi⟩) :
    InternalPlaced t' place' A ⟨parent, nodeA.array ++ (key, firstB) :: restB⟩ := by
  have placedA := linked.internal A nodeA storedA
  have placedB := linked.internal B nodeB storedB
  have nonempty : nodeA.array ≠ [] := fun empty => by
    have := placedA.fence; rw [empty] at this; exact this
  have childrenEq : children (nodeA.array ++ (key, firstB) :: restB) =
      children nodeA.array ++ children nodeB.array := by
    simp [children, slotsB]
  refine ⟨by rw [placeA]; exact placedA.height, ?_, fun child member => ?_, ?_⟩
  · rw [placeA, fence_append _ _ _ nonempty]
    have fenceA := placedA.fence
    have fenceB := placedB.fence
    rw [hiA] at fenceA
    rw [loB, slotsB, ← sameHeight, fence_cons_key _ _ _ key] at fenceB
    exact ⟨fenceA.congr fun child member => placeChildren child (List.mem_append_left _ member),
      fenceB.congr fun child member => placeChildren child (List.mem_append_right _ (by
        simpa [children, slotsB] using member))⟩
  · exact pagesChildren child (childrenEq ▸ member)
  · rw [placeA]
    rcases placedA.firstKey with first | first
    · exact .inl first
    · refine .inr (first.trans ?_)
      obtain ⟨slot, rest, slots⟩ := List.exists_cons_of_ne_nil nonempty
      simp [slots, keyOf]

end Merge

/-! ## Two siblings merged -/

/-- The store with the page `B` merged into `A` under `P`: `A` holding `pageA`, `B` gone, `P`
holding `parentP`, and `B`'s children `moved` under `A`. It is what `Coalesce` leaves; a
redistribution is proved through it. -/
def BPlusTree.merged (t : BPlusTree K V) (P A B : Int) (parentP : BPlusTreeInternalPage K)
    (pageA : BPlusTreePage K V) (moved : List Int) : BPlusTree K V :=
  { t with pages := fun pageId =>
      if pageId = A then some pageA
      else if pageId = B then none
      else if pageId = P then some (.internal parentP)
      else if pageId ∈ moved then (t.pages pageId).map (·.setParentPageId A)
      else t.pages pageId }

@[simp] theorem BPlusTree.merged_pages (t : BPlusTree K V) (P A B : Int)
    (parentP : BPlusTreeInternalPage K) (pageA : BPlusTreePage K V) (moved : List Int)
    (pageId : Int) :
    (t.merged P A B parentP pageA moved).pages pageId =
      if pageId = A then some pageA
      else if pageId = B then none
      else if pageId = P then some (.internal parentP)
      else if pageId ∈ moved then (t.pages pageId).map (·.setParentPageId A)
      else t.pages pageId := rfl

@[simp] theorem BPlusTree.merged_rootPageId (t : BPlusTree K V) (P A B : Int)
    (parentP : BPlusTreeInternalPage K) (pageA : BPlusTreePage K V) (moved : List Int) :
    (t.merged P A B parentP pageA moved).rootPageId = t.rootPageId := rfl

@[simp] theorem BPlusTree.merged_nextPageId (t : BPlusTree K V) (P A B : Int)
    (parentP : BPlusTreeInternalPage K) (pageA : BPlusTreePage K V) (moved : List Int) :
    (t.merged P A B parentP pageA moved).nextPageId = t.nextPageId := rfl

@[simp] theorem BPlusTree.merged_leafMaxSize (t : BPlusTree K V) (P A B : Int)
    (parentP : BPlusTreeInternalPage K) (pageA : BPlusTreePage K V) (moved : List Int) :
    (t.merged P A B parentP pageA moved).leafMaxSize = t.leafMaxSize := rfl

@[simp] theorem BPlusTree.merged_internalMaxSize (t : BPlusTree K V) (P A B : Int)
    (parentP : BPlusTreeInternalPage K) (pageA : BPlusTreePage K V) (moved : List Int) :
    (t.merged P A B parentP pageA moved).internalMaxSize = t.internalMaxSize := rfl

section Merged

variable {t : BPlusTree K V} {place : Int → Place K} {P A B : Int}
  {parent : BPlusTreeInternalPage K} {i : Nat}

/-- The leaf after the leaf `B` of slot `i + 1` of `P`, when there is one, is none of `B`, the
leaf `A` of slot `i` and `P`. -/
theorem Linked.next_of_right (linked : Linked t place)
    (storedP : t.pages P = some (.internal parent)) (inside : i + 1 < parent.array.length)
    (slotA : parent.array[i].2 = A) (slotB : parent.array[i + 1].2 = B)
    {leafB : BPlusTreeLeafPage K V} (storedB : t.pages B = some (.leaf leafB))
    (notLast : leafB.nextPageId ≠ invalidPageId) :
    leafB.nextPageId ≠ A ∧ leafB.nextPageId ≠ B ∧ leafB.nextPageId ≠ P := by
  obtain ⟨_, _, storedA, -, -, -, -, heightB, hiA, loB, -⟩ :=
    linked.siblings storedP inside slotA slotB
  obtain ⟨next, nextStored, nextLo⟩ := (linked.leaf _ _ storedB).next notLast
  have nextHeight := (linked.leaf _ _ nextStored).height
  refine ⟨fun same => ?_, linked.next_ne_self storedB notLast, fun same => ?_⟩
  · obtain ⟨bound, hiB⟩ : ∃ bound, (place B).hi = some bound :=
      Option.ne_none_iff_exists'.1 fun last => notLast ((linked.leaf _ _ storedB).last.2 last)
    have ascendsA := linked.ascends (show t.pages A ≠ none by simp [storedA])
    have ascendsB := linked.ascends (show t.pages B ≠ none by simp [storedB])
    rw [same, hiB] at nextLo
    rw [nextLo, hiA] at ascendsA
    rw [loB, hiB] at ascendsB
    exact lt_asymm (ascendsA bound rfl _ rfl) (ascendsB _ rfl bound rfl)
  · rw [same] at nextHeight
    omega

/-- The leaf `B` of slot `i + 1` of `P` merged into the leaf `A` of slot `i`: `A` takes `B`'s
entries, its next leaf and the end of its interval, and `B`'s slot leaves `P`. -/
theorem Linked.mergeLeaves (linked : Linked t place)
    (storedP : t.pages P = some (.internal parent)) (inside : i + 1 < parent.array.length)
    (slotA : parent.array[i].2 = A) (slotB : parent.array[i + 1].2 = B)
    {leafA leafB : BPlusTreeLeafPage K V} (storedA : t.pages A = some (.leaf leafA))
    (storedB : t.pages B = some (.leaf leafB)) :
    Linked (t.merged P A B { parent with array := parent.array.eraseIdx (i + 1) }
      (.leaf ⟨leafA.parentPageId, leafB.nextPageId, leafA.array ++ leafB.array⟩) [])
      (fun pageId => if pageId = A then ⟨(place A).height, (place A).lo, (place B).hi⟩
        else place pageId) := by
  obtain ⟨parentA, -, differsAB, differsPA, differsPB, -⟩ :=
    linked.siblings_stored storedP inside slotA slotB storedA storedB
  obtain ⟨-, -, -, -, -, -, -, -, hiA, loB, -⟩ := linked.siblings storedP inside slotA slotB
  simp only [BPlusTreePage.parentPageId_leaf] at parentA
  have heightLeaf := (linked.leaf _ _ storedA).height
  have noChildren : ∀ child page, t.pages child = some page →
      page.parentPageId = A ∨ page.parentPageId = B → False := by
    rintro child page found (pointsBack | pointsBack) <;>
    · obtain ⟨node, stored', -⟩ := linked.listed_of_parent found
        (pointsBack ▸ linked.ne_invalid (by simp [storedA, storedB]))
      simp [pointsBack, storedA, storedB] at stored'
  refine linked.mergeInto [] (.leaf ⟨leafA.parentPageId, leafB.nextPageId,
    leafA.array ++ leafB.array⟩) storedP inside slotA slotB (fun child => ⟨fun member => absurd member (List.not_mem_nil _),
      fun ⟨page, found, pointsBack⟩ => (noChildren child page found (.inr pointsBack)).elim⟩)
    (by simp [differsPA, differsPB]) (by simp) parentA (by simp [differsAB.symm])
    (fun _ member => absurd member (List.not_mem_nil _))
    (fun pageId isA isB isP _ => by simp [isA, isB, isP]) rfl rfl (by simp)
    (fun pageId isA => by simp [isA]) ⟨fun leaf isLeaf => ?_, fun _ isInternal => nomatch isInternal⟩
    (fun child page found pointsBack => (noChildren child page found pointsBack).elim)
    (fun _ _ => ⟨_, rfl⟩)
  cases isLeaf
  refine linked.mergedLeaf storedA storedB hiA loB _ (fun notLast => ?_) (by simp)
  obtain ⟨notA, notB, notP⟩ := linked.next_of_right storedP inside slotA slotB storedB notLast
  exact ⟨by simp [notA, notB, notP], by simp [notA]⟩

/-- The slots of the internal page `B` of slot `i + 1` of `P` start with the key of slot
`i + 1`. -/
theorem Linked.slots_of_right (linked : Linked t place)
    (storedP : t.pages P = some (.internal parent)) (inside : i + 1 < parent.array.length)
    (slotA : parent.array[i].2 = A) (slotB : parent.array[i + 1].2 = B)
    {nodeB : BPlusTreeInternalPage K} (storedB : t.pages B = some (.internal nodeB)) :
    ∃ firstB restB, nodeB.array = (keyOf parent.array (i + 1), firstB) :: restB := by
  obtain ⟨-, -, -, -, -, -, -, -, -, loB, -⟩ := linked.siblings storedP inside slotA slotB
  have placedB := linked.internal _ _ storedB
  obtain ⟨⟨keyB, firstB⟩, restB, slots⟩ := List.exists_cons_of_ne_nil
    (show nodeB.array ≠ [] from fun empty => by have := placedB.fence; rw [empty] at this; exact this)
  rcases placedB.firstKey with none | some
  · rw [loB] at none; cases none
  · rw [loB, slots, Option.some.injEq] at some
    exact ⟨firstB, restB, by rw [slots, some]; rfl⟩

/-- A child of the internal page `A` of slot `i` of `P` or of the internal page `B` of slot
`i + 1` is stored, points back to one of them, and is none of `A`, `B` and `P`. -/
theorem Linked.child_of_siblings (linked : Linked t place)
    (storedP : t.pages P = some (.internal parent)) (inside : i + 1 < parent.array.length)
    (slotA : parent.array[i].2 = A) (slotB : parent.array[i + 1].2 = B)
    {nodeA nodeB : BPlusTreeInternalPage K} (storedA : t.pages A = some (.internal nodeA))
    (storedB : t.pages B = some (.internal nodeB)) {child : Int}
    (member : child ∈ children nodeA.array ∨ child ∈ children nodeB.array) :
    ∃ page, t.pages child = some page ∧ (page.parentPageId = A ∨ page.parentPageId = B) ∧
      child ≠ A ∧ child ≠ B ∧ child ≠ P := by
  obtain ⟨-, -, -, -, -, -, heightA, heightB, -, -, -⟩ := linked.siblings storedP inside slotA slotB
  have ne : ∀ {a b : Int}, (place a).height ≠ (place b).height → a ≠ b := fun h same =>
    h (by rw [same])
  rcases member with member | member
  · obtain ⟨page, found, pointsBack, height⟩ := linked.child storedA member
    exact ⟨page, found, .inl pointsBack, ne (by omega), ne (by omega), ne (by omega)⟩
  · obtain ⟨page, found, pointsBack, height⟩ := linked.child storedB member
    exact ⟨page, found, .inr pointsBack, ne (by omega), ne (by omega), ne (by omega)⟩

/-- The internal page `B` of slot `i + 1` of `P` merged into the internal page `A` of slot `i`:
`A` takes `B`'s slots, its children and the end of its interval, and `B`'s slot leaves `P`. -/
theorem Linked.mergeInternals (linked : Linked t place)
    (storedP : t.pages P = some (.internal parent)) (inside : i + 1 < parent.array.length)
    (slotA : parent.array[i].2 = A) (slotB : parent.array[i + 1].2 = B)
    {nodeA nodeB : BPlusTreeInternalPage K} (storedA : t.pages A = some (.internal nodeA))
    (storedB : t.pages B = some (.internal nodeB)) :
    Linked (t.merged P A B { parent with array := parent.array.eraseIdx (i + 1) }
      (.internal ⟨nodeA.parentPageId, nodeA.array ++ nodeB.array⟩) (children nodeB.array))
      (fun pageId => if pageId = A then ⟨(place A).height, (place A).lo, (place B).hi⟩
        else place pageId) := by
  obtain ⟨parentA, -, differsAB, differsPA, differsPB, -⟩ :=
    linked.siblings_stored storedP inside slotA slotB storedA storedB
  obtain ⟨-, -, -, -, -, -, heightA, heightB, hiA, loB, -⟩ :=
    linked.siblings storedP inside slotA slotB
  simp only [BPlusTreePage.parentPageId_internal] at parentA
  obtain ⟨firstB, restB, slotsB⟩ := linked.slots_of_right storedP inside slotA slotB storedB
  have childDiffers := fun {child : Int}
      (member : child ∈ children nodeA.array ∨ child ∈ children nodeB.array) =>
    linked.child_of_siblings storedP inside slotA slotB storedA storedB member
  have movedIff : ∀ child, child ∈ children nodeB.array ↔
      ∃ page, t.pages child = some page ∧ page.parentPageId = B := fun child =>
    ⟨fun member => by obtain ⟨page, found, pointsBack, -⟩ := linked.child storedB member
                      exact ⟨page, found, pointsBack⟩,
      fun ⟨page, found, pointsBack⟩ => by
        obtain ⟨node, stored', member⟩ := linked.listed_of_parent found
          (pointsBack ▸ linked.ne_invalid (by simp [storedB]))
        rw [pointsBack, storedB] at stored'
        cases stored'
        exact member⟩
  refine linked.mergeInto (children nodeB.array)
    (.internal ⟨nodeA.parentPageId, nodeA.array ++ nodeB.array⟩) storedP inside slotA slotB movedIff
    (by simp [differsPA, differsPB]) (by simp) parentA (by simp [differsAB.symm])
    (fun child member => ?_) (fun pageId isA isB isP isMoved => by simp [isA, isB, isP, isMoved])
    rfl rfl (by simp) (fun pageId isA => by simp [isA])
    ⟨fun _ isLeaf => (nomatch isLeaf), fun node isInternal => ?_⟩
    (fun child page found pointsBack => ⟨_, rfl, ?_⟩)
    (fun _ stored => by rw [storedA] at stored; cases stored)
  · obtain ⟨-, -, -, notA, notB, notP⟩ := childDiffers (.inr member)
    simp [notA, notB, notP, member]
  · cases isInternal
    rw [slotsB]
    refine linked.mergedInternal storedA storedB (by omega) hiA loB slotsB _
      (fun child member => ?_) (fun child member => ?_) (by simp)
    · obtain ⟨page, found, -, notA, notB, notP⟩ := childDiffers (List.mem_append.1 member)
      by_cases moved : child ∈ children nodeB.array
      · simp [← slotsB, notA, notB, notP, moved, found]
      · obtain ⟨page', found', pointsBack', -⟩ := linked.child storedA
          ((List.mem_append.1 member).resolve_right moved)
        simp [← slotsB, notA, notB, notP, moved, found', pointsBack']
    · obtain ⟨-, -, -, notA, -⟩ := childDiffers (List.mem_append.1 member)
      simp [notA]
  · obtain ⟨node, stored', member⟩ := linked.listed_of_parent found (by
      rcases pointsBack with same | same <;> rw [same]
      exacts [linked.ne_invalid (by simp [storedA]), linked.ne_invalid (by simp [storedB])])
    rcases pointsBack with same | same <;> rw [same] at stored'
    · rw [storedA] at stored'; cases stored'
      simp only [children, List.map_append, List.mem_append]; exact .inl member
    · rw [storedB] at stored'; cases stored'
      simp only [children, List.map_append, List.mem_append]; exact .inr member

end Merged

/-! ## Redistribution between two siblings -/

section Redistribute

variable {t t' : BPlusTree K V} {place : Int → Place K}

theorem take_eraseIdx_succ {α : Type} {array : List α} {i : Nat} (inside : i + 1 < array.length) :
    (array.eraseIdx (i + 1)).take (i + 1) = array.take (i + 1) := by
  rw [List.eraseIdx_eq_take_drop_succ, List.take_left' (by simp; omega)]

theorem drop_eraseIdx_succ {α : Type} {array : List α} {i : Nat} (inside : i + 1 < array.length) :
    (array.eraseIdx (i + 1)).drop (i + 1) = array.drop (i + 2) := by
  rw [List.eraseIdx_eq_take_drop_succ, List.drop_left' (by simp; omega)]

/-- The leaf `A` of slot `i` of `P` and the leaf `B` of slot `i + 1` sharing out their entries
`E = A ++ B` at slot `m`, and the key of slot `i + 1` of `P` becoming the key of slot `m` of `E`:
the tree stays linked. -/
theorem Linked.redistributeLeaves (linked : Linked t place) {P A B : Int}
    {parent : BPlusTreeInternalPage K} {i m : Nat} {leafA leafB : BPlusTreeLeafPage K V}
    (storedP : t.pages P = some (.internal parent)) (inside : i + 1 < parent.array.length)
    (slotA : parent.array[i].2 = A) (slotB : parent.array[i + 1].2 = B)
    (storedA : t.pages A = some (.leaf leafA)) (storedB : t.pages B = some (.leaf leafB))
    (first : 1 ≤ m) (within : m < (leafA.array ++ leafB.array).length)
    (pagesP : t'.pages P = some (.internal { parent with array := parent.array.take (i + 1) ++
      (keyOf (leafA.array ++ leafB.array) m, B) :: parent.array.drop (i + 2) }))
    (pagesA : t'.pages A = some (.leaf { leafA with array := (leafA.array ++ leafB.array).take m }))
    (pagesB : t'.pages B = some (.leaf { leafB with array := (leafA.array ++ leafB.array).drop m }))
    (pagesOther : ∀ pageId, pageId ≠ A → pageId ≠ B → pageId ≠ P → t'.pages pageId = t.pages pageId)
    (root : t'.rootPageId = t.rootPageId) (next : t'.nextPageId = t.nextPageId) :
    ∃ place', Linked t' place' := by
  obtain ⟨parentA, parentB, differsAB, differsPA, differsPB, -⟩ :=
    linked.siblings_stored storedP inside slotA slotB storedA storedB
  obtain ⟨-, -, -, -, -, -, -, -, hiA, loB, -⟩ := linked.siblings storedP inside slotA slotB
  simp only [BPlusTreePage.parentPageId_leaf] at parentA parentB
  have heightLeaf := (linked.leaf _ _ storedA).height
  have presentB : t.pages B ≠ none := by simp [storedB]
  -- `A`'s next leaf is `B`
  have nextA : leafA.nextPageId = B := by
    have placedA := linked.leaf _ _ storedA
    have notLast : leafA.nextPageId ≠ invalidPageId := fun last =>
      absurd (placedA.last.1 last) (by rw [hiA]; simp)
    obtain ⟨next', nextStored, nextLo⟩ := placedA.next notLast
    exact linked.leaf_unique_lo nextStored storedB (nextLo.trans hiA) loB
  set E := leafA.array ++ leafB.array with hE
  set key := keyOf E m with hKey
  let parentMid : BPlusTreeInternalPage K := { parent with array := parent.array.eraseIdx (i + 1) }
  let placeMid : Int → Place K := fun pageId =>
    if pageId = A then ⟨(place A).height, (place A).lo, (place B).hi⟩ else place pageId
  have linkedMid : Linked (t.merged P A B parentMid (.leaf ⟨leafA.parentPageId, leafB.nextPageId,
      E⟩) []) placeMid := linked.mergeLeaves storedP inside slotA slotB storedA storedB
  have storedMid : (t.merged P A B parentMid (.leaf ⟨leafA.parentPageId, leafB.nextPageId, E⟩)
      []).pages A = some (.leaf ⟨leafA.parentPageId, leafB.nextPageId, E⟩) := by simp
  have presentP : t.pages P ≠ none := by simp [storedP]
  have notRootA : A ≠ t.rootPageId := fun same =>
    linked.ne_invalid presentP (parentA ▸ (linked.isRoot A _ storedA).2 same)
  obtain ⟨lower, upper⟩ := linkedMid.leafSplitKey storedMid first within
  have insideMid : i < parentMid.array.length := by
    simp only [parentMid, List.length_eraseIdx_of_lt inside]; omega
  have slotMid : parentMid.array[i].2 = A := by
    simp only [parentMid, List.getElem_eraseIdx_of_lt _ _ _ _ (Nat.lt_succ_self i)]; exact slotA
  have pagesPMid : t'.pages leafA.parentPageId = some (.internal { parentMid with
      array := parentMid.array.take (i + 1) ++ (key, B) :: parentMid.array.drop (i + 1) }) := by
    rw [parentA, pagesP]
    simp only [parentMid, take_eraseIdx_succ inside, drop_eraseIdx_succ inside]
  refine ⟨fun pageId => if pageId = A then ⟨(place A).height, (place A).lo, some key⟩
    else if pageId = B then ⟨(place A).height, some key, (place B).hi⟩ else place pageId, ?_⟩
  refine linkedMid.splitInto [] (.leaf { leafA with array := E.take m })
    (.leaf { leafB with array := E.drop m }) (X := A) (N := B) (j := i) storedMid notRootA
    (by rw [BPlusTreePage.parentPageId_leaf, parentA]; simp [differsPA, differsPB]) insideMid
    slotMid (by simp [differsAB.symm]) (linked.valid B presentB)
    (by rw [next]; exact linked.lt_next presentB)
    (by simpa [placeMid] using lower) (by simpa [placeMid] using upper)
    (fun _ member => absurd member (List.not_mem_nil _)) pagesPMid pagesA rfl pagesB
    (parentB.trans parentA.symm) (fun _ member => absurd member (List.not_mem_nil _))
    (fun pageId isA isB isP _ => ?_) root (by simp [next]) (by simp [placeMid])
    (by simp [placeMid, differsAB.symm]) (fun pageId isA isB => by simp [placeMid, isA, isB])
    ⟨fun leaf isLeaf => ?_, fun _ isInternal => nomatch isInternal⟩
    ⟨fun leaf isLeaf => ?_, fun _ isInternal => nomatch isInternal⟩
    (fun child page found pointsBack _ => ?_) (fun _ member => absurd member (List.not_mem_nil _))
    (fun _ _ => ⟨_, rfl⟩)
  · simp only [BPlusTreePage.parentPageId_leaf, parentA] at isP
    rw [pagesOther pageId isA isB isP]
    simp [isA, isB, isP]
  · cases isLeaf
    rw [nextA]
    exact linkedMid.leafLowerHalf storedMid within (linked.valid B presentB) _ ⟨_, pagesB⟩
      (by simp [placeMid, hKey]) (by simp [differsAB.symm, hKey])
  · cases isLeaf
    refine linkedMid.leafUpperHalf storedMid _ (fun notLast => ?_)
      (by simp [placeMid, differsAB.symm, hKey])
    obtain ⟨notA, notB, notP⟩ := linked.next_of_right storedP inside slotA slotB storedB notLast
    exact ⟨by rw [pagesOther _ notA notB notP]; simp [notA, notB, notP],
      by simp [placeMid, notA, notB]⟩
  · obtain ⟨node, stored', -⟩ := linkedMid.listed_of_parent found
      (pointsBack ▸ linked.ne_invalid (by simp [storedA]))
    rw [pointsBack, storedMid] at stored'
    cases stored'

/-- The internal page `A` of slot `i` of `P` and the internal page `B` of slot `i + 1` sharing
out their slots `E = A ++ B` at slot `m`, each child re-parented to the page that now holds it,
and the key of slot `i + 1` of `P` becoming the key of slot `m` of `E`: the tree stays linked. -/
theorem Linked.redistributeInternals (linked : Linked t place) {P A B : Int}
    {parent : BPlusTreeInternalPage K} {i m : Nat} {nodeA nodeB : BPlusTreeInternalPage K}
    (storedP : t.pages P = some (.internal parent)) (inside : i + 1 < parent.array.length)
    (slotA : parent.array[i].2 = A) (slotB : parent.array[i + 1].2 = B)
    (storedA : t.pages A = some (.internal nodeA)) (storedB : t.pages B = some (.internal nodeB))
    (first : 1 ≤ m) (within : m < (nodeA.array ++ nodeB.array).length)
    (pagesP : t'.pages P = some (.internal { parent with array := parent.array.take (i + 1) ++
      (keyOf (nodeA.array ++ nodeB.array) m, B) :: parent.array.drop (i + 2) }))
    (pagesA : t'.pages A =
      some (.internal { nodeA with array := (nodeA.array ++ nodeB.array).take m }))
    (pagesB : t'.pages B =
      some (.internal { nodeB with array := (nodeA.array ++ nodeB.array).drop m }))
    (pagesLeft : ∀ child ∈ children ((nodeA.array ++ nodeB.array).take m),
      t'.pages child = (t.pages child).map (·.setParentPageId A))
    (pagesRight : ∀ child ∈ children ((nodeA.array ++ nodeB.array).drop m),
      t'.pages child = (t.pages child).map (·.setParentPageId B))
    (pagesOther : ∀ pageId, pageId ≠ A → pageId ≠ B → pageId ≠ P →
      pageId ∉ children (nodeA.array ++ nodeB.array) → t'.pages pageId = t.pages pageId)
    (root : t'.rootPageId = t.rootPageId) (next : t'.nextPageId = t.nextPageId) :
    ∃ place', Linked t' place' := by
  obtain ⟨parentA, parentB, differsAB, differsPA, differsPB, -⟩ :=
    linked.siblings_stored storedP inside slotA slotB storedA storedB
  obtain ⟨-, -, -, -, -, -, -, -, hiA, loB, -⟩ := linked.siblings storedP inside slotA slotB
  simp only [BPlusTreePage.parentPageId_internal] at parentA parentB
  have presentA : t.pages A ≠ none := by simp [storedA]
  have presentB : t.pages B ≠ none := by simp [storedB]
  have presentP : t.pages P ≠ none := by simp [storedP]
  have linkedMid := linked.mergeInternals storedP inside slotA slotB storedA storedB
  set E := nodeA.array ++ nodeB.array with hE
  set key := keyOf E m with hKey
  let parentMid : BPlusTreeInternalPage K := { parent with array := parent.array.eraseIdx (i + 1) }
  let placeMid : Int → Place K := fun pageId =>
    if pageId = A then ⟨(place A).height, (place A).lo, (place B).hi⟩ else place pageId
  replace linkedMid : Linked (t.merged P A B parentMid (.internal ⟨nodeA.parentPageId, E⟩)
      (children nodeB.array)) placeMid := linkedMid
  have childrenE : ∀ {child}, child ∈ children E ↔
      child ∈ children nodeA.array ∨ child ∈ children nodeB.array := by
    simp [children, hE]
  have childDiffers : ∀ child ∈ children E, child ≠ A ∧ child ≠ B ∧ child ≠ P := fun child member => by
    obtain ⟨-, -, -, differs⟩ :=
      linked.child_of_siblings storedP inside slotA slotB storedA storedB (childrenE.1 member)
    exact differs
  have storedMid : (t.merged P A B parentMid (.internal ⟨nodeA.parentPageId, E⟩)
      (children nodeB.array)).pages A = some (.internal ⟨nodeA.parentPageId, E⟩) := by simp
  have notRootA : A ≠ t.rootPageId := fun same =>
    linked.ne_invalid presentP (parentA ▸ (linked.isRoot A _ storedA).2 same)
  obtain ⟨lower, upper⟩ := (linkedMid.internal A _ storedMid).fence.key_inside first within
  have insideMid : i < parentMid.array.length := by
    simp only [parentMid, List.length_eraseIdx_of_lt inside]; omega
  have slotMid : parentMid.array[i].2 = A := by
    simp only [parentMid, List.getElem_eraseIdx_of_lt _ _ _ _ (Nat.lt_succ_self i)]; exact slotA
  have pagesPMid : t'.pages nodeA.parentPageId = some (.internal { parentMid with
      array := parentMid.array.take (i + 1) ++ (key, B) :: parentMid.array.drop (i + 1) }) := by
    rw [parentA, pagesP]
    simp only [parentMid, take_eraseIdx_succ inside, drop_eraseIdx_succ inside]
  have keptLeft : ∀ child ∈ children (E.take m), t'.pages child = (t.merged P A B parentMid
      (.internal ⟨nodeA.parentPageId, E⟩) (children nodeB.array)).pages child := by
    intro child member
    obtain ⟨notA, notB, notP⟩ := childDiffers child (mem_children_take member)
    rw [pagesLeft child member, BPlusTree.merged_pages, if_neg notA, if_neg notB, if_neg notP]
    split_ifs with moved
    · rfl
    · obtain ⟨page, found, pointsBack, -⟩ := linked.child storedA
        ((childrenE.1 (mem_children_take member)).resolve_right moved)
      rw [found, Option.map_some', ← pointsBack, BPlusTreePage.setParentPageId_self]
  have movedRight : ∀ child ∈ children (E.drop m), t'.pages child = ((t.merged P A B parentMid
      (.internal ⟨nodeA.parentPageId, E⟩) (children nodeB.array)).pages child).map
        (·.setParentPageId B) := by
    intro child member
    obtain ⟨notA, notB, notP⟩ := childDiffers child (mem_children_drop member)
    rw [pagesRight child member, BPlusTree.merged_pages, if_neg notA, if_neg notB, if_neg notP]
    split_ifs <;> cases t.pages child <;> simp
  have placeChildren : ∀ child ∈ children E, (fun pageId => if pageId = A then
      (⟨(place A).height, (place A).lo, some key⟩ : Place K) else if pageId = B then
        ⟨(place A).height, some key, (place B).hi⟩ else place pageId) child = placeMid child := by
    intro child member
    obtain ⟨notA, notB, -⟩ := childDiffers child member
    simp [placeMid, notA, notB]
  refine ⟨fun pageId => if pageId = A then ⟨(place A).height, (place A).lo, some key⟩
    else if pageId = B then ⟨(place A).height, some key, (place B).hi⟩ else place pageId, ?_⟩
  refine linkedMid.splitInto (children (E.drop m)) (.internal { nodeA with array := E.take m })
    (.internal { nodeB with array := E.drop m }) (X := A) (N := B) (j := i) storedMid notRootA
    (by rw [BPlusTreePage.parentPageId_internal, parentA]; simp [differsPA, differsPB]) insideMid
    slotMid (by simp [differsAB.symm]) (linked.valid B presentB)
    (by rw [next]; exact linked.lt_next presentB)
    (by simpa [placeMid] using lower) (by simpa [placeMid] using upper)
    (fun child member => (linkedMid.internal A _ storedMid).pointsBack child
      (mem_children_drop member)) pagesPMid pagesA rfl pagesB (parentB.trans parentA.symm)
    movedRight (fun pageId isA isB isP notMoved => ?_) root (by simp [next]) (by simp [placeMid])
    (by simp [placeMid, differsAB.symm]) (fun pageId isA isB => by simp [placeMid, isA, isB])
    ⟨fun _ isLeaf => (nomatch isLeaf), fun node isInternal => ?_⟩
    ⟨fun _ isLeaf => (nomatch isLeaf), fun node isInternal => ?_⟩
    (fun child page found pointsBack notMoved => ?_) (fun _ member => ⟨_, rfl, member⟩)
    (fun _ isLeaf => nomatch isLeaf)
  · simp only [BPlusTreePage.parentPageId_internal, parentA] at isP
    by_cases left : pageId ∈ children (E.take m)
    · exact keptLeft pageId left
    have notE : pageId ∉ children E := fun member =>
      left (mem_children_take_of_not_drop member notMoved)
    have notB' : pageId ∉ children nodeB.array := fun member => notE (childrenE.2 (.inr member))
    rw [pagesOther pageId isA isB isP notE]
    simp [isA, isB, isP, notB']
  · cases isInternal
    exact linkedMid.internalLowerHalf storedMid first within _ keptLeft placeChildren
      (by simp [placeMid, hKey])
  · cases isInternal
    exact linkedMid.internalUpperHalf storedMid first within _ movedRight placeChildren
      (by simp [placeMid, differsAB.symm, hKey])
  · obtain ⟨node, stored', member⟩ := linkedMid.listed_of_parent found
      (pointsBack ▸ linked.ne_invalid presentA)
    rw [pointsBack, storedMid] at stored'
    cases stored'
    exact ⟨_, rfl, mem_children_take_of_not_drop member notMoved⟩

end Redistribute

/-! ## The root given up -/

section Root

variable {t t' : BPlusTree K V} {place : Int → Place K}

/-- The root `R` with the one slot `(key, C)` handed over to `C`: `R` leaves the store and `C`,
with no parent, becomes the root; the tree stays linked, one level shorter. -/
theorem Linked.promoteChild (linked : Linked t place) {C : Int}
    {rootNode : BPlusTreeInternalPage K} {key : K}
    (storedR : t.pages t.rootPageId = some (.internal rootNode)) (only : rootNode.array = [(key, C)])
    (pagesR : t'.pages t.rootPageId = none)
    (pagesC : t'.pages C = (t.pages C).map (·.setParentPageId invalidPageId))
    (pagesOther : ∀ pageId, pageId ≠ t.rootPageId → pageId ≠ C → t'.pages pageId = t.pages pageId)
    (root : t'.rootPageId = C) (next : t'.nextPageId = t.nextPageId) : Linked t' place := by
  have presentR : t.pages t.rootPageId ≠ none := by simp [storedR]
  have placedR := linked.internal _ _ storedR
  obtain ⟨rootLo, rootHi⟩ := linked.root_place presentR
  have placeC : place C = ⟨(place t.rootPageId).height - 1, none, none⟩ := by
    have fence := placedR.fence
    rw [only, rootLo, rootHi] at fence
    exact fence.2
  have memberC : C ∈ children rootNode.array := by simp [only, children]
  obtain ⟨pageC, foundC, parentC, heightC⟩ := linked.child storedR memberC
  have ne : ∀ {a b : Int}, (place a).height ≠ (place b).height → a ≠ b := fun h same =>
    h (by rw [same])
  have differsCR : C ≠ t.rootPageId := ne (by omega)
  have storedBefore : ∀ pageId, t'.pages pageId ≠ none →
      t.pages pageId ≠ none ∧ pageId ≠ t.rootPageId := by
    intro pageId present
    by_cases isR : pageId = t.rootPageId
    · rw [isR, pagesR] at present; exact absurd rfl present
    by_cases isC : pageId = C
    · exact ⟨by simp [isC, foundC], isR⟩
    · exact ⟨by rwa [← pagesOther pageId isR isC], isR⟩
  refine ⟨fun pageId present => linked.valid pageId (storedBefore pageId present).1,
    fun pageId high => ?_, .inr ⟨by rw [root, pagesC, foundC]; simp, by rw [root, placeC],
      by rw [root, placeC]⟩, fun pageId present => ?_, ?_, fun pageId page stored' => ?_⟩
  · by_contra present
    exact (storedBefore pageId present).1 (linked.fresh pageId (by rw [next] at high; exact high))
  · obtain ⟨present, notR⟩ := storedBefore pageId present
    have below : (place pageId).height < (place t.rootPageId).height := by
      by_contra high
      exact notR (linked.eq_root present (by omega))
    rw [root]
    omega
  · rw [root, next]
    have := linked.short
    omega
  by_cases isC : pageId = C
  · subst isC
    rw [pagesC, foundC] at stored'
    cases stored'
    have placedC := linked.placed _ _ foundC
    refine ⟨iff_of_true (by simp) root.symm, fun notRoot => absurd root.symm notRoot,
      fun leaf isLeaf => ?_, fun node isInternal => ?_⟩
    · cases pageC with
      | internal => cases isLeaf
      | leaf leafC =>
          cases isLeaf
          refine (placedC.leaf leafC rfl).transfer _ rfl rfl rfl fun notLast => ?_
          exact absurd ((placedC.leaf leafC rfl).last.2 (by rw [placeC])) notLast
    · cases pageC with
      | leaf => cases isInternal
      | internal nodeC =>
          cases isInternal
          refine (placedC.internal nodeC rfl).transfer _ rfl rfl fun child member => ?_
          obtain ⟨page, found, pointsBack, height⟩ := linked.child foundC member
          rw [pagesOther child (ne (by omega)) (ne (by omega)), found]
          exact ⟨rfl, by simp [pointsBack]⟩
  have isR : pageId ≠ t.rootPageId := (storedBefore pageId (by simp [stored'])).2
  refine linked.untouched (fun pageId => pageId = t.rootPageId ∨ pageId = C)
    (fun pageId untouched => ?_) (fun pageId untouched => ?_)
    (fun pageId page untouched found touched notRoot => ?_)
    (fun pageId leaf _ found touched _ => ?_)
    (fun pageId node untouched found child member touched => ?_) pageId page
    (by simp only [not_or]; exact ⟨isR, isC⟩) stored'
  · simp only [not_or] at untouched
    exact ⟨pagesOther pageId untouched.1 untouched.2, rfl⟩
  · simp only [not_or] at untouched
    rw [root]
    exact iff_of_false untouched.2 untouched.1
  · obtain ⟨parent, parentStored, member'⟩ := linked.listed pageId page found notRoot
    simp only at touched
    rcases touched with same | same
    · rw [same, storedR] at parentStored
      cases parentStored
      simp only [only, children, List.map_cons, List.map_nil, List.mem_singleton] at member'
      exact absurd (.inr member') untouched
    · rw [same, foundC] at parentStored
      cases parentStored
      exact ⟨{ parent with parentPageId := invalidPageId }, by rw [same, pagesC, foundC]; rfl,
        member'⟩
  · obtain ⟨next', nextStored, -⟩ := (linked.leaf _ _ found).next ‹_›
    simp only at touched
    rcases touched with same | same
    · rw [same, storedR] at nextStored; cases nextStored
    · rw [same, foundC] at nextStored
      cases nextStored
      exact ⟨⟨{ next' with parentPageId := invalidPageId }, by rw [same, pagesC, foundC]; rfl⟩, rfl⟩
  · obtain ⟨page', found', pointsBack, -⟩ := linked.child found member
    simp only at touched
    rcases touched with same | same
    · rw [same, storedR] at found'
      cases found'
      exact absurd (pointsBack.symm.trans ((linked.isRoot _ _ storedR).2 rfl))
        (linked.ne_invalid (by simp [found]))
    · rw [same, foundC] at found'
      cases found'
      exact absurd (.inl (pointsBack.symm.trans parentC)) untouched

/-- A tree with no page and no root is linked. -/
theorem linked_of_empty (empty : ∀ pageId, t.pages pageId = none)
    (noRoot : t.rootPageId = invalidPageId) : Linked t (fun _ => ⟨0, none, none⟩) :=
  ⟨fun pageId present => absurd (empty pageId) present, fun pageId _ => empty pageId,
    .inl ⟨noRoot, empty⟩, fun _ _ => le_rfl, Nat.zero_le _,
    fun pageId page stored => by rw [empty] at stored; cases stored⟩

/-- In a tree whose root is a leaf, the root is the only page. -/
theorem Linked.eq_root_of_leaf (linked : Linked t place) {rootLeaf : BPlusTreeLeafPage K V}
    (storedR : t.pages t.rootPageId = some (.leaf rootLeaf)) {pageId : Int}
    (present : t.pages pageId ≠ none) : pageId = t.rootPageId :=
  linked.eq_root present (by rw [(linked.leaf _ _ storedR).height]; exact Nat.zero_le _)

end Root

end ScuDb.Index
