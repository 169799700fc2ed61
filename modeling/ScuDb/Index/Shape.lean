import ScuDb.Index.Invariant

/-!
Contract: what `Linked` says about the whole store: pages of one height never overlap, every page
descends from the root by as many child slots as it sits below it, and `FindLeafPage` walks down
to the leaf whose interval holds the key.

Owns: `Overlaps` and `Descends` with their lemmas, the specification of `FindLeafPage`, and
what the layout says of every page: the keys a page stores (`StoresKey`) between the separators
of each slot above it, the leaves at the root's height, and each page listed once by its
parent.

Does not own: the leaf chain and the iterator (`ScuDb.Index.Scan`), and what the operations do
to the invariant.

## Why overlap

Two leaves with the same upper bound, or two pages that both hold a key, are one page. Both are
cases of one fact: pages of the same height whose intervals overlap are equal. It holds at the
root's height, where only the root lives, and it climbs down one level at a time, since the
parents of overlapping pages overlap and siblings along a separator chain do not.
-/

set_option linter.unusedSectionVars false

namespace ScuDb.Index

open ScuDb.Buffer (invalidPageId)

variable {K V : Type} [LinearOrder K] [Zero K]

/-- Two places share a stretch of keys: each starts below where the other ends. -/
def Overlaps (a b : Place K) : Prop := Ascends a.lo b.hi ∧ Ascends b.lo a.hi

theorem Overlaps.symm {a b : Place K} (overlap : Overlaps a b) : Overlaps b a :=
  ⟨overlap.2, overlap.1⟩

/-- Places that overlap lie in places that overlap. -/
theorem Overlaps.mono {a b a' b' : Place K} (overlap : Overlaps a b)
    (within : Within a'.lo a'.hi a.lo a.hi) (within' : Within b'.lo b'.hi b.lo b.hi) :
    Overlaps a' b' := by
  constructor <;> intro l lower h upper
  · obtain ⟨l', lower', below⟩ := within.1 l lower
    obtain ⟨h', upper', above⟩ := within'.2 h upper
    exact lt_of_le_of_lt below ((overlap.1 l' lower' h' upper').trans_le above)
  · obtain ⟨l', lower', below⟩ := within'.1 l lower
    obtain ⟨h', upper', above⟩ := within.2 h upper
    exact lt_of_le_of_lt below ((overlap.2 l' lower' h' upper').trans_le above)

/-- A place overlaps itself when its bounds ascend. -/
theorem overlaps_self {a : Place K} (ascends : Ascends a.lo a.hi) : Overlaps a a :=
  ⟨ascends, ascends⟩

/-- Two intervals that both hold a key overlap. -/
theorem overlaps_of_inRange {a b : Place K} {key : K} (inside : InRange a.lo a.hi key)
    (inside' : InRange b.lo b.hi key) : Overlaps a b :=
  ⟨fun l lower h upper => lt_of_le_of_lt (inside.1 l lower) (inside'.2 h upper),
    fun l lower h upper => lt_of_le_of_lt (inside'.1 l lower) (inside.2 h upper)⟩

theorem Within.refl (lo hi : Option K) : Within lo hi lo hi :=
  ⟨fun l lower => ⟨l, lower, le_rfl⟩, fun h upper => ⟨h, upper, le_rfl⟩⟩

theorem Within.trans {lo hi lo' hi' lo'' hi'' : Option K} (outer : Within lo hi lo' hi')
    (inner : Within lo' hi' lo'' hi'') : Within lo hi lo'' hi'' := by
  refine ⟨fun l lower => ?_, fun h upper => ?_⟩
  · obtain ⟨l', lower', below⟩ := outer.1 l lower
    obtain ⟨l'', lower'', below'⟩ := inner.1 l' lower'
    exact ⟨l'', lower'', below.trans below'⟩
  · obtain ⟨h', upper', above⟩ := outer.2 h upper
    obtain ⟨h'', upper'', above'⟩ := inner.2 h' upper'
    exact ⟨h'', upper'', above'.trans above⟩

/-- Distinct children of a separator chain do not overlap. -/
theorem Fence.eq_of_overlaps {place : Int → Place K} {height : Nat} :
    ∀ {lo hi : Option K} {array : List (K × Int)}, Fence place height lo array hi →
      ∀ {child child' : Int}, child ∈ children array → child' ∈ children array →
        Overlaps (place child) (place child') → child = child'
  | _, _, [], chain, _, _, _, _, _ => chain.elim
  | _, _, [_], _, _, _, member, member', _ => by
      simp only [children, List.map_cons, List.map_nil, List.mem_singleton] at member member'
      rw [member, member']
  | lo, hi, (_, first) :: (key, next) :: rest, chain, child, child', member, member',
      overlap => by
      have later : ∀ other ∈ children ((key, next) :: rest), other ≠ first →
          Overlaps (place first) (place other) → False := by
        intro other member'' _ overlap'
        obtain ⟨-, -, within⟩ := chain.2.2.place_of_mem other member''
        obtain ⟨l, lower, above⟩ := within.1 key rfl
        rw [chain.2.1] at overlap'
        exact absurd (overlap'.2 l lower key rfl) (not_lt.2 above)
      simp only [children, List.map_cons, List.mem_cons] at member member'
      rcases member with rfl | member <;> rcases member' with rfl | member'
      · rfl
      · by_contra differs
        exact later child' (by simpa [children] using member') (Ne.symm differs) overlap
      · by_contra differs
        exact later child (by simpa [children] using member) differs overlap.symm
      · exact chain.2.2.eq_of_overlaps (by simpa [children] using member)
          (by simpa [children] using member') overlap

section Linked

variable {t : BPlusTree K V} {place : Int → Place K}

/-- A stored page's id is no `INVALID_PAGE_ID`. -/
theorem Linked.ne_invalid (linked : Linked t place) {pageId : Int} (stored : t.pages pageId ≠ none) :
    pageId ≠ invalidPageId := by
  have := linked.valid pageId stored
  simp only [invalidPageId]
  omega

/-- A stored page's id is below `nextPageId`. -/
theorem Linked.lt_next (linked : Linked t place) {pageId : Int} (stored : t.pages pageId ≠ none) :
    pageId < t.nextPageId := by
  by_contra high
  exact stored (linked.fresh pageId (by omega))

/-- A child of an internal page is stored, points back, and sits one level below. -/
theorem Linked.child (linked : Linked t place) {pageId : Int} {node : BPlusTreeInternalPage K}
    (stored : t.pages pageId = some (.internal node)) {child : Int}
    (member : child ∈ children node.array) :
    ∃ page, t.pages child = some page ∧ page.parentPageId = pageId ∧
      (place child).height + 1 = (place pageId).height := by
  have placed := linked.internal _ _ stored
  obtain ⟨page, found, pointsBack⟩ := Option.map_eq_some'.1 (placed.pointsBack child member)
  obtain ⟨height, -⟩ := placed.fence.place_of_mem child member
  exact ⟨page, found, pointsBack, by have := placed.height; omega⟩

/-- A page whose parent pointer is valid is listed by the internal page it names. -/
theorem Linked.listed_of_parent (linked : Linked t place) {pageId : Int} {page : BPlusTreePage K V}
    (stored : t.pages pageId = some page) (valid : page.parentPageId ≠ invalidPageId) :
    ∃ parent, t.pages page.parentPageId = some (.internal parent) ∧
      pageId ∈ children parent.array :=
  linked.listed pageId page stored fun root => valid ((linked.isRoot pageId page stored).2 root)

/-- A page other than the root sits one level below the internal page its parent pointer
names, inside that page's interval, at an interval whose bounds ascend. -/
theorem Linked.parent_placed (linked : Linked t place) {pageId : Int} {page : BPlusTreePage K V}
    (stored : t.pages pageId = some page) (notRoot : pageId ≠ t.rootPageId) :
    ∃ parent, t.pages page.parentPageId = some (.internal parent) ∧
      pageId ∈ children parent.array ∧
      (place pageId).height + 1 = (place page.parentPageId).height ∧
      Ascends (place pageId).lo (place pageId).hi ∧
      Within (place page.parentPageId).lo (place page.parentPageId).hi (place pageId).lo
        (place pageId).hi := by
  obtain ⟨parent, parentStored, member⟩ := linked.listed pageId page stored notRoot
  have placed := linked.internal _ parent parentStored
  obtain ⟨height, ascends, within⟩ := placed.fence.place_of_mem pageId member
  exact ⟨parent, parentStored, member, by have := placed.height; omega, ascends, within⟩

/-- The root holds the whole key space. -/
theorem Linked.root_place (linked : Linked t place) (stored : t.pages t.rootPageId ≠ none) :
    (place t.rootPageId).lo = none ∧ (place t.rootPageId).hi = none := by
  rcases linked.root with ⟨-, empty⟩ | ⟨-, lo, hi⟩
  · exact absurd (empty _) stored
  · exact ⟨lo, hi⟩

/-- A tree that stores a page stores its root. -/
theorem Linked.root_present (linked : Linked t place) {pageId : Int} (stored : t.pages pageId ≠ none) :
    t.pages t.rootPageId ≠ none := by
  rcases linked.root with ⟨-, empty⟩ | ⟨present, -⟩
  · exact absurd (empty _) stored
  · exact present

/-- Every page's interval has ascending bounds. -/
theorem Linked.ascends (linked : Linked t place) {pageId : Int} (stored : t.pages pageId ≠ none) :
    Ascends (place pageId).lo (place pageId).hi := by
  obtain ⟨page, stored⟩ := Option.ne_none_iff_exists'.1 stored
  by_cases root : pageId = t.rootPageId
  · subst root
    rw [(linked.root_place (by simp [stored])).1]
    intro l lower
    cases lower
  · obtain ⟨-, -, -, -, ascends, -⟩ := linked.parent_placed stored root
    exact ascends

/-- A leaf's next pointer names another leaf. -/
theorem Linked.next_ne_self (linked : Linked t place) {pageId : Int}
    {leaf : BPlusTreeLeafPage K V} (stored : t.pages pageId = some (.leaf leaf))
    (notLast : leaf.nextPageId ≠ invalidPageId) : leaf.nextPageId ≠ pageId := by
  intro same
  have placed := linked.leaf _ _ stored
  obtain ⟨-, -, lo⟩ := placed.next notLast
  rw [same] at lo
  have ascends := linked.ascends (show t.pages pageId ≠ none by simp [stored])
  cases hi : (place pageId).hi with
  | none => exact notLast (placed.last.2 hi)
  | some bound =>
      rw [lo, hi] at ascends
      exact lt_irrefl _ (ascends bound rfl bound rfl)

/-- A page at the root's height or above is the root. -/
theorem Linked.eq_root (linked : Linked t place) {pageId : Int} (stored : t.pages pageId ≠ none)
    (high : (place t.rootPageId).height ≤ (place pageId).height) : pageId = t.rootPageId := by
  obtain ⟨page, stored⟩ := Option.ne_none_iff_exists'.1 stored
  by_contra notRoot
  obtain ⟨parent, parentStored, -, height, -⟩ := linked.parent_placed stored notRoot
  have := linked.tall page.parentPageId (by simp [parentStored])
  omega

/-- Pages of one height whose intervals overlap are one page. -/
theorem Linked.eq_of_overlaps (linked : Linked t place) :
    ∀ (depth : Nat) {pageId pageId' : Int}, t.pages pageId ≠ none → t.pages pageId' ≠ none →
      (place pageId).height = (place pageId').height →
      (place t.rootPageId).height = (place pageId).height + depth →
      Overlaps (place pageId) (place pageId') → pageId = pageId'
  | 0, _, _, stored, stored', sameHeight, depth, _ => by
      rw [linked.eq_root stored (by omega), linked.eq_root stored' (by omega)]
  | depth + 1, pageId, pageId', stored, stored', sameHeight, atDepth, overlap => by
      obtain ⟨page, stored⟩ := Option.ne_none_iff_exists'.1 stored
      obtain ⟨page', stored'⟩ := Option.ne_none_iff_exists'.1 stored'
      have tall := linked.tall
      by_cases root : pageId = t.rootPageId
      · subst root; omega
      by_cases root' : pageId' = t.rootPageId
      · subst root'; omega
      obtain ⟨parent, parentStored, member, height, -, within⟩ := linked.parent_placed stored root
      obtain ⟨parent', parentStored', member', height', -, within'⟩ :=
        linked.parent_placed stored' root'
      have sameParent : page.parentPageId = page'.parentPageId :=
        linked.eq_of_overlaps depth (by simp [parentStored]) (by simp [parentStored'])
          (by omega) (by omega) (overlap.mono within within')
      rw [← sameParent, parentStored] at parentStored'
      cases parentStored'
      exact (linked.internal _ parent parentStored).fence.eq_of_overlaps member member' overlap

/-- Pages of one height whose intervals overlap are one page. -/
theorem Linked.eq_of_overlaps' (linked : Linked t place) {pageId pageId' : Int}
    (stored : t.pages pageId ≠ none) (stored' : t.pages pageId' ≠ none)
    (sameHeight : (place pageId).height = (place pageId').height)
    (overlap : Overlaps (place pageId) (place pageId')) : pageId = pageId' :=
  linked.eq_of_overlaps _ stored stored' sameHeight
    (Nat.add_sub_cancel' (linked.tall pageId stored)).symm overlap

/-- Two leaves whose intervals both hold `key` are one leaf. -/
theorem Linked.leaf_unique (linked : Linked t place) {pageId pageId' : Int}
    {page page' : BPlusTreeLeafPage K V} (stored : t.pages pageId = some (.leaf page))
    (stored' : t.pages pageId' = some (.leaf page')) {key : K}
    (inside : InRange (place pageId).lo (place pageId).hi key)
    (inside' : InRange (place pageId').lo (place pageId').hi key) : pageId = pageId' :=
  linked.eq_of_overlaps' (by simp [stored]) (by simp [stored'])
    (by rw [(linked.leaf _ _ stored).height, (linked.leaf _ _ stored').height])
    (overlaps_of_inRange inside inside')

/-- Two leaves that end at the same bound are one leaf. -/
theorem Linked.leaf_unique_hi (linked : Linked t place) {pageId pageId' : Int}
    {page page' : BPlusTreeLeafPage K V} (stored : t.pages pageId = some (.leaf page))
    (stored' : t.pages pageId' = some (.leaf page')) {bound : K}
    (hi : (place pageId).hi = some bound) (hi' : (place pageId').hi = some bound) :
    pageId = pageId' := by
  have ascends := linked.ascends (show t.pages pageId ≠ none by simp [stored])
  have ascends' := linked.ascends (show t.pages pageId' ≠ none by simp [stored'])
  refine linked.eq_of_overlaps' (by simp [stored]) (by simp [stored'])
    (by rw [(linked.leaf _ _ stored).height, (linked.leaf _ _ stored').height]) ⟨?_, ?_⟩
  · rw [hi']; rw [hi] at ascends; exact ascends
  · rw [hi]; rw [hi'] at ascends'; exact ascends'

/-- Two leaves that start at the same bound are one leaf. -/
theorem Linked.leaf_unique_lo (linked : Linked t place) {pageId pageId' : Int}
    {page page' : BPlusTreeLeafPage K V} (stored : t.pages pageId = some (.leaf page))
    (stored' : t.pages pageId' = some (.leaf page')) {bound : Option K}
    (lo : (place pageId).lo = bound) (lo' : (place pageId').lo = bound) :
    pageId = pageId' := by
  have ascends := linked.ascends (show t.pages pageId ≠ none by simp [stored])
  have ascends' := linked.ascends (show t.pages pageId' ≠ none by simp [stored'])
  refine linked.eq_of_overlaps' (by simp [stored]) (by simp [stored'])
    (by rw [(linked.leaf _ _ stored).height, (linked.leaf _ _ stored').height]) ⟨?_, ?_⟩
  · rw [lo, ← lo']; exact ascends'
  · rw [lo', ← lo]; exact ascends

end Linked

/-! ## Descent from the root -/

/-- `Descends t pageId descendant depth`: following a child slot `depth` times from `pageId`
reaches `descendant`. -/
inductive Descends (t : BPlusTree K V) : Int → Int → Nat → Prop
  | refl (pageId : Int) : Descends t pageId pageId 0
  | child {pageId child descendant : Int} {page : BPlusTreeInternalPage K} {depth : Nat} :
      t.pages pageId = some (.internal page) → child ∈ children page.array →
      Descends t child descendant depth → Descends t pageId descendant (depth + 1)

theorem Descends.snoc {t : BPlusTree K V} {pageId descendant child : Int} {depth : Nat}
    {page : BPlusTreeInternalPage K} :
    Descends t pageId descendant depth → t.pages descendant = some (.internal page) →
      child ∈ children page.array → Descends t pageId child (depth + 1)
  | .refl _, stored, member => .child stored member (.refl _)
  | .child stored' member' rest, stored, member => .child stored' member' (rest.snoc stored member)

section Linked

variable {t : BPlusTree K V} {place : Int → Place K}

/-- A descendant sits as many levels lower as the slots followed, inside the interval it
descends from. -/
theorem Linked.descends_place (linked : Linked t place) {pageId descendant : Int} {depth : Nat} :
    Descends t pageId descendant depth → t.pages descendant ≠ none →
      (place descendant).height + depth = (place pageId).height ∧
        Within (place pageId).lo (place pageId).hi (place descendant).lo (place descendant).hi
  | .refl _, _ => ⟨rfl, Within.refl _ _⟩
  | .child stored member rest, stored' => by
      have placed := linked.internal _ _ stored
      obtain ⟨height, -, within⟩ := placed.fence.place_of_mem _ member
      obtain ⟨height', within'⟩ := linked.descends_place rest stored'
      exact ⟨by have := placed.height; omega, within.trans within'⟩

/-- Every page descends from the root by as many slots as it sits below it. -/
theorem Linked.descends_root (linked : Linked t place) :
    ∀ (depth : Nat) {pageId : Int}, t.pages pageId ≠ none →
      (place t.rootPageId).height = (place pageId).height + depth →
      Descends t t.rootPageId pageId depth
  | 0, pageId, stored, atDepth => by
      rw [← linked.eq_root stored (by omega)]
      exact .refl _
  | depth + 1, pageId, stored, atDepth => by
      obtain ⟨page, stored⟩ := Option.ne_none_iff_exists'.1 stored
      by_cases root : pageId = t.rootPageId
      · subst root; omega
      obtain ⟨parent, parentStored, member, height, -⟩ := linked.parent_placed stored root
      exact (linked.descends_root depth (by simp [parentStored]) (by omega)).snoc parentStored
        member

end Linked

/-! ## `FindLeafPage` -/

section FindLeafPage

variable {t : BPlusTree K V} {place : Int → Place K}

/-- The walk of `FindLeafPage` keeps any property of places that each step down keeps, and
ends on a leaf. -/
theorem findLeafPageLoop_spec (linked : Linked t place) (goal : Place K → Prop) (key : K)
    (leftMost : Bool)
    (step : ∀ pageId page, t.pages pageId = some (.internal page) → goal (place pageId) →
      ∃ child, (if leftMost then page.valueAt 0 else page.lookup key) = .ok child ∧
        child ∈ children page.array ∧ goal (place child)) :
    ∀ (fuel : Nat) (pageId : Int), t.pages pageId ≠ none → (place pageId).height < fuel →
      goal (place pageId) → ∃ leafPageId leaf, t.findLeafPageLoop key leftMost fuel pageId =
        .ok leafPageId ∧ t.pages leafPageId = some (.leaf leaf) ∧ goal (place leafPageId)
  | 0, _, _, low, _ => absurd low (Nat.not_lt_zero _)
  | fuel + 1, pageId, stored, low, reached => by
      obtain ⟨page, stored⟩ := Option.ne_none_iff_exists'.1 stored
      cases page with
      | leaf leaf =>
          refine ⟨pageId, leaf, ?_, stored, reached⟩
          simp only [BPlusTree.findLeafPageLoop, BPlusTree.fetchPage_eq stored]
          rfl
      | internal page =>
          obtain ⟨child, chosen, member, reached'⟩ := step pageId page stored reached
          have placed := linked.internal _ _ stored
          obtain ⟨height, -⟩ := placed.fence.place_of_mem child member
          have childStored : t.pages child ≠ none := by
            have := placed.pointsBack child member
            intro missing
            simp [missing] at this
          obtain ⟨leafPageId, leaf, found, leafStored, goalHolds⟩ :=
            findLeafPageLoop_spec linked goal key leftMost step fuel child childStored
              (by have := placed.height; omega) reached'
          refine ⟨leafPageId, leaf, ?_, leafStored, goalHolds⟩
          simp only [BPlusTree.findLeafPageLoop, BPlusTree.fetchPage_eq stored, bind, Except.bind]
          cases leftMost <;> simp only [Bool.false_eq_true, ↓reduceIte] at chosen ⊢ <;>
            rw [chosen] <;> exact found

/-- `Lookup(key)` on an internal page of two slots or more goes down to the child whose interval
holds `key`. -/
theorem lookup_step (linked : Linked t place) {key : K} {pageId : Int}
    {page : BPlusTreeInternalPage K} (stored : t.pages pageId = some (.internal page))
    (twoSlots : 2 ≤ page.array.length)
    (inside : InRange (place pageId).lo (place pageId).hi key) :
    ∃ child, page.lookup key = .ok child ∧ child ∈ children page.array ∧
      InRange (place child).lo (place child).hi key := by
  have fence := (linked.internal _ _ stored).fence
  obtain ⟨j, inside', found, below, above⟩ := page.lookup_spec key fence.keyOf_lt twoSlots
  refine ⟨childOf page.array j, found, ?_, ?_⟩
  · rw [childOf_eq_getElem inside']
    exact List.mem_map_of_mem _ (List.getElem_mem _)
  · rw [fence.childOf_place j inside']
    refine ⟨fun l lower => ?_, fun h upper => ?_⟩
    · dsimp only at lower
      split_ifs at lower with first
      · exact inside.1 l lower
      · obtain rfl := Option.some_inj.1 lower
        exact below j (by omega) le_rfl
    · dsimp only at upper
      split_ifs at upper with last
      · obtain rfl := Option.some_inj.1 upper
        exact above (j + 1) (by omega) last
      · exact inside.2 h upper

/-- Slot 0's child of a page that starts the key space starts it too. -/
theorem valueAt_zero_step (linked : Linked t place) {pageId : Int}
    {page : BPlusTreeInternalPage K} (stored : t.pages pageId = some (.internal page))
    (first : (place pageId).lo = none) :
    ∃ child, page.valueAt 0 = .ok child ∧ child ∈ children page.array ∧
      (place child).lo = none := by
  have fence := (linked.internal _ _ stored).fence
  have nonempty : 0 < page.array.length := by
    cases h : page.array with
    | nil => rw [h] at fence; exact fence.elim
    | cons _ _ => simp
  refine ⟨childOf page.array 0, ?_, ?_, ?_⟩
  · obtain ⟨slot, rest, split⟩ := List.exists_cons_of_ne_nil (List.ne_nil_of_length_pos nonempty)
    simp [BPlusTreeInternalPage.valueAt, childOf, split]
  · rw [childOf_eq_getElem nonempty]
    exact List.mem_map_of_mem _ (List.getElem_mem _)
  · rw [fence.childOf_place 0 nonempty]
    exact first

/-- `FindLeafPage(key)` on a tree that is not empty, whose internal pages hold two slots or
more, returns the leaf whose interval holds `key`. -/
theorem findLeafPage_spec (linked : Linked t place) (nonempty : t.rootPageId ≠ invalidPageId)
    (twoSlots : ∀ pageId page, t.pages pageId = some (.internal page) → 2 ≤ page.array.length)
    (key : K) : ∃ leafPageId leaf, t.findLeafPage key false = .ok (some leafPageId) ∧
      t.pages leafPageId = some (.leaf leaf) ∧
      InRange (place leafPageId).lo (place leafPageId).hi key := by
  have rootStored : t.pages t.rootPageId ≠ none := by
    rcases linked.root with ⟨empty, -⟩ | ⟨stored, -⟩
    · exact absurd empty nonempty
    · exact stored
  obtain ⟨lo, hi⟩ := linked.root_place rootStored
  obtain ⟨leafPageId, leaf, found, stored, inside⟩ :=
    findLeafPageLoop_spec linked (fun place => InRange place.lo place.hi key) key false
      (fun pageId page stored inside => lookup_step linked stored (twoSlots _ _ stored) inside)
      t.fuel t.rootPageId rootStored (by have := linked.short; simp [BPlusTree.fuel]; omega)
      (by show InRange _ _ key; rw [lo, hi]; exact ⟨fun _ h => (nomatch h), fun _ h => nomatch h⟩)
  refine ⟨leafPageId, leaf, ?_, stored, inside⟩
  simp [BPlusTree.findLeafPage, BPlusTree.isEmpty, nonempty, found, Except.map]

/-- `FindLeafPage(_, true)` on a tree that is not empty returns the leaf that starts the key
space. -/
theorem findLeafPage_leftMost (linked : Linked t place) (nonempty : t.rootPageId ≠ invalidPageId)
    (key : K) : ∃ leafPageId leaf, t.findLeafPage key true = .ok (some leafPageId) ∧
      t.pages leafPageId = some (.leaf leaf) ∧ (place leafPageId).lo = none := by
  have rootStored : t.pages t.rootPageId ≠ none := by
    rcases linked.root with ⟨empty, -⟩ | ⟨stored, -⟩
    · exact absurd empty nonempty
    · exact stored
  obtain ⟨leafPageId, leaf, found, stored, first⟩ :=
    findLeafPageLoop_spec linked (fun place => place.lo = none) key true
      (fun pageId page stored first => valueAt_zero_step linked stored first)
      t.fuel t.rootPageId rootStored (by have := linked.short; simp [BPlusTree.fuel]; omega)
      (linked.root_place rootStored).1
  refine ⟨leafPageId, leaf, ?_, stored, first⟩
  simp [BPlusTree.findLeafPage, BPlusTree.isEmpty, nonempty, found, Except.map]

/-- The leaf whose interval holds `key` holds every entry of the tree under `key`. -/
theorem Linked.holds_iff_mem (linked : Linked t place) {X : Int} {leaf : BPlusTreeLeafPage K V}
    (stored : t.pages X = some (.leaf leaf)) {key : K}
    (inside : InRange (place X).lo (place X).hi key) (value : V) :
    Holds t key value ↔ (key, value) ∈ leaf.array := by
  refine ⟨fun ⟨other, page, found, member⟩ => ?_, fun member => ⟨X, leaf, stored, member⟩⟩
  have same := linked.leaf_unique found stored ((linked.leaf _ _ found).inRange _ member) inside
  rw [same, stored] at found
  cases found
  exact member

end FindLeafPage

/-! ## Keys, depth and parents of every page -/

/-- `key` is stored in page `pageId`: as the key of an entry of a leaf, or as a separator (slot 1
on) of an internal page. -/
def StoresKey (t : BPlusTree K V) (pageId : Int) (key : K) : Prop :=
  (∃ leaf, t.pages pageId = some (.leaf leaf) ∧ key ∈ leaf.array.map Prod.fst) ∨
    ∃ node, t.pages pageId = some (.internal node) ∧
      ∃ j, 1 ≤ j ∧ j < node.array.length ∧ keyOf node.array j = key

section Layout

variable {t : BPlusTree K V} {place : Int → Place K}

/-- A stored key lies in its page's interval. -/
theorem Linked.inRange_of_storesKey (linked : Linked t place) {pageId : Int} {key : K}
    (stores : StoresKey t pageId key) : InRange (place pageId).lo (place pageId).hi key := by
  rcases stores with ⟨leaf, stored, member⟩ | ⟨node, stored, j, first, inside, rfl⟩
  · obtain ⟨entry, inLeaf, rfl⟩ := List.mem_map.1 member
    exact (linked.leaf _ _ stored).inRange entry inLeaf
  · obtain ⟨below, above⟩ := (linked.internal _ _ stored).fence.key_inside first inside
    exact ⟨fun l lower => le_of_lt (below l lower _ rfl), fun h upper => above _ rfl h upper⟩

/-- **Separators bound subtrees.** Every key stored in the subtree of slot `i` of an internal page
lies at or above the slot's key and below the next slot's, with no bound below slot 0 or past the
last slot. -/
theorem Linked.storesKey_between (linked : Linked t place) {pageId : Int}
    {node : BPlusTreeInternalPage K} (stored : t.pages pageId = some (.internal node)) {i : Nat}
    (inside : i < node.array.length) {descendant : Int} {depth : Nat}
    (descends : Descends t (childOf node.array i) descendant depth) {key : K}
    (stores : StoresKey t descendant key) :
    InRange (if i = 0 then none else some (keyOf node.array i))
      (if i + 1 < node.array.length then some (keyOf node.array (i + 1)) else none) key := by
  have present : t.pages descendant ≠ none := by
    rcases stores with ⟨_, found, _⟩ | ⟨_, found, _⟩ <;> simp [found]
  have inChild := (linked.descends_place descends present).2.inRange
    (linked.inRange_of_storesKey stores)
  rw [(linked.internal _ _ stored).fence.childOf_place i inside] at inChild
  obtain ⟨lower, upper⟩ := inChild
  refine ⟨fun l member => ?_, fun h member => ?_⟩
  · by_cases first : i = 0
    · simp [first] at member
    · exact lower l (by simpa [first] using member)
  · by_cases last : i + 1 < node.array.length
    · exact upper h (by simpa [last] using member)
    · simp [last] at member

/-- **All leaves sit at one depth**: a leaf descends from the root exactly by the root's
height. -/
theorem Linked.descends_leaf_iff (linked : Linked t place) {pageId : Int}
    {leaf : BPlusTreeLeafPage K V} (stored : t.pages pageId = some (.leaf leaf)) (depth : Nat) :
    Descends t t.rootPageId pageId depth ↔ depth = (place t.rootPageId).height := by
  have height := (linked.leaf _ _ stored).height
  have present : t.pages pageId ≠ none := by simp [stored]
  constructor
  · intro descends
    have := (linked.descends_place descends present).1
    omega
  · rintro rfl
    exact linked.descends_root _ present (by omega)

/-- A page other than the root is listed in exactly one slot of the internal page its parent
pointer names. -/
theorem Linked.listed_once (linked : Linked t place) {pageId : Int} {page : BPlusTreePage K V}
    (stored : t.pages pageId = some page) (notRoot : pageId ≠ t.rootPageId) :
    ∃ parent, t.pages page.parentPageId = some (.internal parent) ∧
      (children parent.array).count pageId = 1 := by
  obtain ⟨parent, parentStored, member⟩ := linked.listed pageId page stored notRoot
  exact ⟨parent, parentStored,
    List.count_eq_one_of_mem (linked.internal _ _ parentStored).fence.nodup member⟩

end Layout

end ScuDb.Index
