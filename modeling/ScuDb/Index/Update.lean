import ScuDb.Index.Shape

/-!
Contract: how the invariant of `ScuDb.Index.Invariant` meets the store updates the tree's methods
are made of: a page written, a page's parent pointer reset, a list of children re-parented.

Owns: the frame lemma `Linked.untouched` (a page no update touched keeps its conditions when its
touched neighbours still look the same to it), the store-wide fields of `Linked` for a step that
keeps the root (`Linked.of_placed`), the result of `reparent`, the entries (`Holds`)
under each kind of write, the empty tree, `StartNewTree`, a leaf's entries rewritten in place,
which is what `Insert` and `Remove` do when nothing overflows or underflows, and the frame of a
whole operation over heights (`KeepsAbove`): the root and every page above a height kept.

Does not own: splits, merges and redistributions (`ScuDb.Index.Insertion`,
`ScuDb.Index.Deletion`).

## Why a frame lemma

Every operation of the tree rewrites a handful of pages. Each rewritten page has its conditions
proved by hand; every other page keeps its record and its place, and only needs its touched
neighbours (its parent, the leaf after it, its children) to look to it as they did. The frame
lemma asks exactly for that, so an operation's proof names what it changed and nothing else.
-/

set_option linter.unusedSectionVars false

namespace ScuDb.Index

open ScuDb.Buffer (invalidPageId)

variable {K V : Type} [LinearOrder K] [Zero K]

@[simp] theorem BPlusTreePage.setParentPageId_setParentPageId (parent parent' : Int)
    (page : BPlusTreePage K V) :
    (page.setParentPageId parent).setParentPageId parent' = page.setParentPageId parent' := by
  cases page <;> rfl

theorem BPlusTreePage.setParentPageId_self (page : BPlusTreePage K V) :
    page.setParentPageId page.parentPageId = page := by
  cases page <;> rfl

namespace BPlusTree

/-- The store `reparent children parent` leaves: each listed page with `parent` as its parent. -/
def reparented (t : BPlusTree K V) (children : List Int) (parent : Int) : BPlusTree K V :=
  { t with pages := fun pageId =>
      if pageId ∈ children then (t.pages pageId).map (·.setParentPageId parent) else t.pages pageId }

@[simp] theorem reparented_pages (t : BPlusTree K V) (children : List Int) (parent pageId : Int) :
    (t.reparented children parent).pages pageId =
      if pageId ∈ children then (t.pages pageId).map (·.setParentPageId parent)
      else t.pages pageId := rfl

@[simp] theorem reparented_rootPageId (t : BPlusTree K V) (children : List Int) (parent : Int) :
    (t.reparented children parent).rootPageId = t.rootPageId := rfl

@[simp] theorem reparented_nextPageId (t : BPlusTree K V) (children : List Int) (parent : Int) :
    (t.reparented children parent).nextPageId = t.nextPageId := rfl

@[simp] theorem reparented_leafMaxSize (t : BPlusTree K V) (children : List Int) (parent : Int) :
    (t.reparented children parent).leafMaxSize = t.leafMaxSize := rfl

@[simp] theorem reparented_internalMaxSize (t : BPlusTree K V) (children : List Int)
    (parent : Int) : (t.reparented children parent).internalMaxSize = t.internalMaxSize := rfl

theorem reparented_nil (t : BPlusTree K V) (parent : Int) : t.reparented [] parent = t := by
  simp [reparented]

/-- The loop of re-parenting succeeds on pages the store holds. -/
theorem reparent_eq (parent : Int) :
    ∀ (t : BPlusTree K V) (children : List Int), (∀ child ∈ children, t.pages child ≠ none) →
      t.reparent children parent = .ok (t.reparented children parent)
  | t, [], _ => by rw [reparented_nil]; rfl
  | t, child :: rest, stored => by
      obtain ⟨page, found⟩ := Option.ne_none_iff_exists'.1 (stored child (List.mem_cons_self _ _))
      have step := setParentPageId_eq found parent
      have later := reparent_eq parent (t.writePage child (page.setParentPageId parent)) rest
        (fun other member => by
          simp only [writePage_pages]
          split_ifs
          · simp
          · exact stored other (List.mem_cons_of_mem _ member))
      simp only [reparent, List.foldlM_cons, step, bind, Except.bind] at later ⊢
      rw [later]
      congr 1
      simp only [reparented, writePage, mk.injEq, true_and, and_true]
      funext other
      by_cases same : other = child
      · subst same; simp [found]
      · simp [same, Function.update_apply]

end BPlusTree

/-! ## The frame lemma -/

section Frame

variable {t t' : BPlusTree K V} {place place' : Int → Place K}

/-- A leaf's conditions read only its entries, its next pointer and the leaf that follows. -/
theorem LeafPlaced.transfer {pageId : Int} {leaf : BPlusTreeLeafPage K V}
    (placed : LeafPlaced t place pageId leaf) (leaf' : BPlusTreeLeafPage K V)
    (sameArray : leaf'.array = leaf.array) (sameNext : leaf'.nextPageId = leaf.nextPageId)
    (samePlace : place' pageId = place pageId)
    (nextOf : leaf.nextPageId ≠ invalidPageId →
      (∃ next, t'.pages leaf.nextPageId = some (.leaf next)) ∧
        (place' leaf.nextPageId).lo = (place leaf.nextPageId).lo) :
    LeafPlaced t' place' pageId leaf' := by
  refine ⟨?_, sameArray ▸ placed.sorted, ?_, ?_, fun notLast => ?_⟩
  · rw [samePlace]; exact placed.height
  · rw [samePlace, sameArray]; exact placed.inRange
  · rw [samePlace, sameNext]; exact placed.last
  rw [sameNext] at notLast ⊢
  obtain ⟨⟨next, nextStored⟩, lo⟩ := nextOf notLast
  exact ⟨next, nextStored, by rw [lo, (placed.next notLast).choose_spec.2, samePlace]⟩

/-- An internal page's conditions read only its slots and its children's places and parent
pointers. -/
theorem InternalPlaced.transfer {pageId : Int} {node : BPlusTreeInternalPage K}
    (placed : InternalPlaced t place pageId node) (node' : BPlusTreeInternalPage K)
    (sameArray : node'.array = node.array) (samePlace : place' pageId = place pageId)
    (childrenOf : ∀ child ∈ children node.array, place' child = place child ∧
      (t'.pages child).map BPlusTreePage.parentPageId = some pageId) :
    InternalPlaced t' place' pageId node' := by
  refine ⟨?_, ?_, fun child member => ?_, ?_⟩
  · rw [samePlace]; exact placed.height
  · rw [samePlace, sameArray]
    exact placed.fence.congr fun child member => (childrenOf child member).1
  · rw [sameArray] at member; exact (childrenOf child member).2
  · rw [samePlace, sameArray]; exact placed.firstKey

/-- A page no update touched keeps its conditions: its record and place are unchanged, and each
touched neighbour still looks to it as it did: a touched parent still lists it, a touched next
leaf is still a leaf starting at the same bound, a touched child keeps its place and still
points back. -/
theorem Linked.untouched (linked : Linked t place) (touched : Int → Prop)
    (same : ∀ pageId, ¬ touched pageId →
      t'.pages pageId = t.pages pageId ∧ place' pageId = place pageId)
    (sameRoot : ∀ pageId, ¬ touched pageId → (pageId = t'.rootPageId ↔ pageId = t.rootPageId))
    (parentOf : ∀ pageId page, ¬ touched pageId → t.pages pageId = some page →
      touched page.parentPageId → pageId ≠ t.rootPageId →
      ∃ parent, t'.pages page.parentPageId = some (.internal parent) ∧
        pageId ∈ children parent.array)
    (nextOf : ∀ pageId leaf, ¬ touched pageId → t.pages pageId = some (.leaf leaf) →
      touched leaf.nextPageId → leaf.nextPageId ≠ invalidPageId →
      (∃ next, t'.pages leaf.nextPageId = some (.leaf next)) ∧
        (place' leaf.nextPageId).lo = (place leaf.nextPageId).lo)
    (childrenOf : ∀ pageId node, ¬ touched pageId → t.pages pageId = some (.internal node) →
      ∀ child ∈ children node.array, touched child →
        place' child = place child ∧
          (t'.pages child).map BPlusTreePage.parentPageId = some pageId) :
    ∀ pageId page, ¬ touched pageId → t'.pages pageId = some page →
      PagePlaced t' place' pageId page := by
  intro pageId page untouched stored'
  obtain ⟨samePage, samePlace⟩ := same pageId untouched
  have stored : t.pages pageId = some page := samePage ▸ stored'
  have placed := linked.placed pageId page stored
  refine ⟨?_, fun notRoot => ?_, fun leaf isLeaf => ?_, fun node isInternal => ?_⟩
  · rw [sameRoot pageId untouched]
    exact placed.isRoot
  · replace notRoot : pageId ≠ t.rootPageId := fun root => notRoot ((sameRoot _ untouched).2 root)
    by_cases parentTouched : touched page.parentPageId
    · exact parentOf pageId page untouched stored parentTouched notRoot
    · obtain ⟨parent, parentStored, member⟩ := placed.listed notRoot
      exact ⟨parent, (same _ parentTouched).1.trans parentStored, member⟩
  · subst isLeaf
    refine (placed.leaf leaf rfl).transfer leaf rfl rfl samePlace fun notLast => ?_
    by_cases nextTouched : touched leaf.nextPageId
    · exact nextOf pageId leaf untouched stored nextTouched notLast
    · obtain ⟨sameNext, sameNextPlace⟩ := same _ nextTouched
      obtain ⟨next, nextStored, -⟩ := (placed.leaf leaf rfl).next notLast
      exact ⟨⟨next, sameNext.trans nextStored⟩, by rw [sameNextPlace]⟩
  · subst isInternal
    refine (placed.internal node rfl).transfer node rfl samePlace fun child member => ?_
    by_cases childTouched : touched child
    · exact childrenOf pageId node untouched stored child member childTouched
    · obtain ⟨sameChildPage, sameChildPlace⟩ := same child childTouched
      exact ⟨sameChildPlace, sameChildPage ▸ (placed.internal node rfl).pointsBack child member⟩

/-- The fields of `Linked` that read no page's record, for a step that keeps the root stored and in
its place, and stores only pages stored before or new ones below its `nextPageId`: what is left is
each page's own condition. -/
theorem Linked.of_placed (linked : Linked t place)
    (storedBefore : ∀ pageId, t'.pages pageId ≠ none →
      t.pages pageId ≠ none ∨ 0 ≤ pageId ∧ pageId < t'.nextPageId)
    (next : t.nextPageId ≤ t'.nextPageId) (root : t'.rootPageId = t.rootPageId)
    (rootStored : t.pages t.rootPageId ≠ none) (rootPresent : t'.pages t.rootPageId ≠ none)
    (placeRoot : place' t.rootPageId = place t.rootPageId)
    (tall : ∀ pageId, t'.pages pageId ≠ none →
      (place' pageId).height ≤ (place t.rootPageId).height)
    (placed : ∀ pageId page, t'.pages pageId = some page → PagePlaced t' place' pageId page) :
    Linked t' place' := by
  obtain ⟨rootLo, rootHi⟩ := linked.root_place rootStored
  refine ⟨fun pageId present => ?_, fun pageId high => ?_,
    .inr ⟨root ▸ rootPresent, by rw [root, placeRoot, rootLo], by rw [root, placeRoot, rootHi]⟩,
    fun pageId present => root ▸ placeRoot ▸ tall pageId present,
    root ▸ placeRoot ▸ linked.short.trans next, placed⟩
  · rcases storedBefore pageId present with present | ⟨valid, -⟩
    · exact linked.valid pageId present
    · exact valid
  · by_contra present
    rcases storedBefore pageId present with present | ⟨-, below⟩
    · exact present (linked.fresh pageId (by omega))
    · omega

end Frame

/-! ## Entries under writes -/

section Holds

variable {t : BPlusTree K V}

/-- The entries of a stored page when it is a leaf. -/
def leafEntries : Option (BPlusTreePage K V) → Option (List (K × V))
  | some (.leaf page) => some page.array
  | _ => none

@[simp] theorem leafEntries_leaf (page : BPlusTreeLeafPage K V) :
    leafEntries (some (.leaf page)) = some page.array := rfl

@[simp] theorem leafEntries_internal (page : BPlusTreeInternalPage K) :
    leafEntries (some (.internal page) : Option (BPlusTreePage K V)) = none := rfl

@[simp] theorem leafEntries_none : leafEntries (none : Option (BPlusTreePage K V)) = none := rfl

@[simp] theorem leafEntries_setParentPageId (parent : Int) (page : Option (BPlusTreePage K V)) :
    leafEntries (page.map (·.setParentPageId parent)) = leafEntries page := by
  rcases page with _ | _ | _ <;> rfl

theorem holds_iff_leafEntries {key : K} {value : V} :
    Holds t key value ↔ ∃ pageId entries, leafEntries (t.pages pageId) = some entries ∧
      (key, value) ∈ entries := by
  constructor
  · rintro ⟨pageId, page, stored, member⟩
    exact ⟨pageId, page.array, by simp [stored], member⟩
  · rintro ⟨pageId, entries, found, member⟩
    cases stored : t.pages pageId with
    | none => simp [stored] at found
    | some page =>
        cases page with
        | internal => simp [stored] at found
        | leaf page =>
            simp only [stored, leafEntries_leaf, Option.some.injEq] at found
            exact ⟨pageId, page, stored, found ▸ member⟩

/-- The entries depend only on the leaves' entries. -/
theorem holds_congr {t' : BPlusTree K V}
    (same : ∀ pageId, leafEntries (t'.pages pageId) = leafEntries (t.pages pageId))
    (key : K) (value : V) : Holds t' key value ↔ Holds t key value := by
  simp only [holds_iff_leafEntries, same]

/-- A leaf's entries cut in two, the upper part going to a page new to the store: the entries
are kept. -/
theorem holds_split {t' : BPlusTree K V} {X N : Int} {entries : List (K × V)} (idx : Nat)
    (storedX : leafEntries (t.pages X) = some entries) (freshN : t.pages N = none)
    (lowerX : leafEntries (t'.pages X) = some (entries.take idx))
    (upperN : leafEntries (t'.pages N) = some (entries.drop idx))
    (others : ∀ pageId, pageId ≠ X → pageId ≠ N →
      leafEntries (t'.pages pageId) = leafEntries (t.pages pageId))
    (key : K) (value : V) : Holds t' key value ↔ Holds t key value := by
  simp only [holds_iff_leafEntries]
  constructor
  · rintro ⟨pageId, found, stored, member⟩
    by_cases isX : pageId = X
    · rw [isX, lowerX, Option.some.injEq] at stored
      subst stored
      exact ⟨X, entries, storedX, List.mem_of_mem_take member⟩
    by_cases isN : pageId = N
    · rw [isN, upperN, Option.some.injEq] at stored
      subst stored
      exact ⟨X, entries, storedX, List.mem_of_mem_drop member⟩
    · exact ⟨pageId, found, others pageId isX isN ▸ stored, member⟩
  · rintro ⟨pageId, found, stored, member⟩
    by_cases isX : pageId = X
    · rw [isX, storedX, Option.some.injEq] at stored
      subst stored
      rw [← List.take_append_drop idx entries, List.mem_append] at member
      rcases member with member | member
      · exact ⟨X, _, lowerX, member⟩
      · exact ⟨N, _, upperN, member⟩
    by_cases isN : pageId = N
    · rw [isN, freshN] at stored; cases stored
    · exact ⟨pageId, found, (others pageId isX isN).trans stored, member⟩

/-- Writing a leaf: the entries are the leaf's new ones and those of the other leaves. -/
theorem holds_writePage_leaf (pageId : Int) (leaf : BPlusTreeLeafPage K V) (key : K) (value : V) :
    Holds (t.writePage pageId (.leaf leaf)) key value ↔ (key, value) ∈ leaf.array ∨
      ∃ other ≠ pageId, ∃ leaf', t.pages other = some (.leaf leaf') ∧ (key, value) ∈ leaf'.array := by
  constructor
  · rintro ⟨other, leaf', stored, member⟩
    simp only [BPlusTree.writePage_pages] at stored
    split_ifs at stored with same
    · cases stored
      exact .inl member
    · exact .inr ⟨other, same, leaf', stored, member⟩
  · rintro (member | ⟨other, differs, leaf', stored, member⟩)
    · exact ⟨pageId, leaf, by simp, member⟩
    · exact ⟨other, leaf', by simp [differs, stored], member⟩

/-- What a whole operation keeps: the two maximum sizes and the entries. -/
structure Keeps (t t' : BPlusTree K V) : Prop where
  leafMaxSize : t'.leafMaxSize = t.leafMaxSize
  internalMaxSize : t'.internalMaxSize = t.internalMaxSize
  holds : ∀ key value, Holds t' key value ↔ Holds t key value

theorem Keeps.refl (t : BPlusTree K V) : Keeps t t := ⟨rfl, rfl, fun _ _ => Iff.rfl⟩

theorem Keeps.trans {t' t'' : BPlusTree K V} (first : Keeps t t') (second : Keeps t' t'') :
    Keeps t t'' :=
  ⟨second.leafMaxSize.trans first.leafMaxSize, second.internalMaxSize.trans first.internalMaxSize,
    fun key value => (second.holds key value).trans (first.holds key value)⟩

/-- The end of a fix-up: the tree meets the whole invariant again and keeps what `t` held. -/
structure Settles (t t' : BPlusTree K V) : Prop where
  linked : ∃ place, Linked t' place
  sized : Sized t'
  keeps : Keeps t t'

theorem Settles.of_keeps {t' t'' : BPlusTree K V} (second : Settles t' t'') (first : Keeps t t') :
    Settles t t'' :=
  ⟨second.linked, second.sized, first.trans second.keeps⟩

end Holds

/-! ## A leaf rewritten in place -/

section WriteLeaf

variable {t : BPlusTree K V} {place : Int → Place K}

/-- A leaf whose entries are replaced by sorted entries inside its interval keeps the tree
linked. -/
theorem Linked.writeLeaf (linked : Linked t place) {pageId : Int} {leaf : BPlusTreeLeafPage K V}
    (stored : t.pages pageId = some (.leaf leaf)) (array : List (K × V))
    (sorted : (array.map Prod.fst).Sorted (· < ·))
    (inRange : ∀ entry ∈ array, InRange (place pageId).lo (place pageId).hi entry.1) :
    Linked (t.writePage pageId (.leaf { leaf with array := array })) place := by
  have leafPlaced := linked.leaf _ _ stored
  have written : ∀ other, other ≠ pageId →
      (t.writePage pageId (.leaf { leaf with array := array })).pages other = t.pages other :=
    fun other differs => by simp [differs]
  have storedBefore : ∀ other,
      (t.writePage pageId (.leaf { leaf with array := array })).pages other ≠ none →
        t.pages other ≠ none := fun other present => by
    by_cases same : other = pageId
    · rw [same, stored]; simp
    · rwa [← written other same]
  have rootStored := linked.root_present (show t.pages pageId ≠ none by simp [stored])
  refine linked.of_placed (fun other present => .inl (storedBefore other present)) le_rfl rfl
    rootStored (by by_cases same : t.rootPageId = pageId <;> simp [same, rootStored]) rfl
    (fun other present => linked.tall other (storedBefore other present))
    fun other page stored' => ?_
  by_cases same : other = pageId
  · subst same
    simp only [BPlusTree.writePage_pages, if_true, Option.some.injEq] at stored'
    subst stored'
    have placed := linked.placed other _ stored
    refine ⟨placed.isRoot, fun notRoot => ?_, fun leaf' isLeaf => ?_, fun _ isInternal => ?_⟩
    · obtain ⟨parent, parentStored, member⟩ := placed.listed notRoot
      change t.pages leaf.parentPageId = _ at parentStored
      refine ⟨parent, ?_, member⟩
      show (t.writePage other _).pages leaf.parentPageId = _
      rw [written _ fun same => by rw [same, stored] at parentStored; cases parentStored]
      exact parentStored
    · cases isLeaf
      refine ⟨leafPlaced.height, sorted, inRange, leafPlaced.last, fun notLast => ?_⟩
      obtain ⟨next, nextStored, nextLo⟩ := leafPlaced.next notLast
      by_cases nextSame : leaf.nextPageId = other
      · refine ⟨{ leaf with array := array }, ?_, nextLo⟩
        show (t.writePage other _).pages leaf.nextPageId = _
        rw [BPlusTree.writePage_pages, if_pos nextSame]
      · exact ⟨next, by rw [written _ nextSame]; exact nextStored, nextLo⟩
    · cases isInternal
  · refine linked.untouched (· = pageId) (fun other differs => ⟨written other differs, rfl⟩)
      (fun _ _ => Iff.rfl) (fun other page _ stored' touched notRoot => ?_)
      (fun other leaf' _ stored' touched _ => ⟨⟨{ leaf with array := array }, by
        rw [BPlusTree.writePage_pages, if_pos (show leaf'.nextPageId = pageId from touched)]⟩, rfl⟩)
      (fun other node _ stored' child member touched => ?_) other page same stored'
    · obtain ⟨parent, parentStored, -⟩ := linked.listed other page stored' notRoot
      rw [touched, stored] at parentStored
      cases parentStored
    · refine ⟨rfl, ?_⟩
      have pointsBack := (linked.internal _ _ stored').pointsBack child member
      rw [touched] at pointsBack ⊢
      simpa [stored] using pointsBack

end WriteLeaf

/-! ## Pages above a height -/

/-- `t'` has the root of `t` and, unchanged, every page `t` stores above `height` in `place`. -/
structure KeepsAbove (t t' : BPlusTree K V) (place : Int → Place K) (height : Nat) : Prop where
  root : t'.rootPageId = t.rootPageId
  pages : ∀ pageId, t.pages pageId ≠ none → height < (place pageId).height →
    t'.pages pageId = t.pages pageId

section Above

variable {t t' t'' : BPlusTree K V} {place place' : Int → Place K} {height height' : Nat}

theorem KeepsAbove.refl (t : BPlusTree K V) (place : Int → Place K) (height : Nat) :
    KeepsAbove t t place height :=
  ⟨rfl, fun _ _ _ => rfl⟩

theorem KeepsAbove.mono (keeps : KeepsAbove t t' place height) (le : height ≤ height') :
    KeepsAbove t t' place height' :=
  ⟨keeps.root, fun pageId stored above => keeps.pages pageId stored (by omega)⟩

/-- Two steps keep what both keep, when the second step's layout puts the pages of `t` at their
heights. -/
theorem KeepsAbove.trans (first : KeepsAbove t t' place height)
    (second : KeepsAbove t' t'' place' height)
    (heights : ∀ pageId, t.pages pageId ≠ none → (place' pageId).height = (place pageId).height) :
    KeepsAbove t t'' place height := by
  refine ⟨second.root.trans first.root, fun pageId stored above => ?_⟩
  have same := first.pages pageId stored above
  rw [second.pages pageId (same ▸ stored) (heights pageId stored ▸ above), same]

/-- A step keeps the pages above `height` when every stored page it changes sits at or below
`height`. -/
theorem KeepsAbove.of_changed (root : t'.rootPageId = t.rootPageId)
    (changed : ∀ pageId, t.pages pageId ≠ none → t'.pages pageId ≠ t.pages pageId →
      (place pageId).height ≤ height) :
    KeepsAbove t t' place height :=
  ⟨root, fun pageId stored above => by
    by_contra differs
    have := changed pageId stored differs
    omega⟩

/-- A descent to a page at or above `height` reads only pages above it, so a step that keeps them
keeps the descent. -/
theorem Descends.of_keepsAbove (linked : Linked t place) (keeps : KeepsAbove t t' place height) :
    ∀ {pageId descendant : Int} {depth : Nat}, Descends t pageId descendant depth →
      t.pages descendant ≠ none → height ≤ (place descendant).height →
      Descends t' pageId descendant depth
  | _, _, _, .refl _, _, _ => .refl _
  | _, _, _, .child stored member rest, present, low => by
      have below := (linked.descends_place rest present).1
      obtain ⟨-, -, -, heightChild⟩ := linked.child stored member
      refine .child ?_ member (Descends.of_keepsAbove linked keeps rest present low)
      rw [keeps.pages _ (by simp [stored]) (by omega), stored]

/-- The last step of a descent is from the descendant's parent. -/
theorem Linked.descends_parent (linked : Linked t place) {pageId descendant : Int} {depth : Nat}
    {page : BPlusTreePage K V} (stored : t.pages descendant = some page) :
    Descends t pageId descendant (depth + 1) → Descends t pageId page.parentPageId depth := by
  intro descends
  generalize deeper : depth + 1 = depth' at descends
  induction descends generalizing depth with
  | refl => omega
  | @child pageId child descendant node depth' storedTop member rest inductionHypothesis =>
      cases depth with
      | zero =>
          obtain rfl : depth' = 0 := by omega
          cases rest
          obtain ⟨page', found, pointsBack, -⟩ := linked.child storedTop member
          rw [stored] at found
          cases found
          rw [pointsBack]
          exact .refl _
      | succ depth =>
          exact .child storedTop member (inductionHypothesis stored (by omega))

/-- The frame of a climb from `pageId`: for every page at or above it that
`IsSafeOperation(operation)` calls safe, the root and every page placed above that page are
kept. -/
def KeepsAboveSafe (operation : OperationType) (t t' : BPlusTree K V) (place : Int → Place K)
    (pageId : Int) : Prop :=
  ∀ N (nodeN : BPlusTreeInternalPage K) depth, Descends t N pageId depth →
    t.pages N = some (.internal nodeN) →
    (BPlusTreePage.internal (V := V) nodeN).isSafeOperation t.leafMaxSize t.internalMaxSize
      operation →
    KeepsAbove t t' place (place N).height

variable {operation : OperationType}

/-- A step that keeps everything above `pageId` keeps everything above every page above it. -/
theorem KeepsAbove.aboveSafe (linked : Linked t place) {pageId : Int}
    (keeps : KeepsAbove t t' place (place pageId).height) (present : t.pages pageId ≠ none) :
    KeepsAboveSafe operation t t' place pageId := fun _ _ _ descends _ _ =>
  keeps.mono (by have := (linked.descends_place descends present).1; omega)

/-- The frame from a page's parent is the frame from the page, when the page is not safe. -/
theorem KeepsAboveSafe.of_parent (linked : Linked t place) {pageId : Int}
    {page : BPlusTreePage K V} (stored : t.pages pageId = some page)
    (notSafe : ∀ node, page = .internal node →
      page.isSafeOperation t.leafMaxSize t.internalMaxSize operation = false)
    (frame : KeepsAboveSafe operation t t' place page.parentPageId) :
    KeepsAboveSafe operation t t' place pageId
  | _, nodeN, 0, .refl _, storedN, safe => by
      rw [stored] at storedN
      cases storedN
      rw [notSafe nodeN rfl] at safe
      cases safe
  | N, nodeN, depth + 1, descends, storedN, safe =>
      frame N nodeN depth (linked.descends_parent stored descends) storedN safe

/-- Nothing is above the root: the frame from the root holds when the root is not safe. -/
theorem Linked.keepsAboveSafe_root (linked : Linked t place) {page : BPlusTreePage K V}
    (stored : t.pages t.rootPageId = some page)
    (notSafe : ∀ node, page = .internal node →
      page.isSafeOperation t.leafMaxSize t.internalMaxSize operation = false) :
    KeepsAboveSafe operation t t' place t.rootPageId
  | _, nodeN, 0, .refl _, storedN, safe => by
      rw [stored] at storedN
      cases storedN
      rw [notSafe nodeN rfl] at safe
      cases safe
  | N, _, depth + 1, descends, storedN, _ => by
      have := (linked.descends_place descends (by simp [stored])).1
      have := linked.tall N (by simp [storedN])
      omega

/-- The frame reaches every page strictly above `pageId`: such a page is internal. -/
theorem KeepsAboveSafe.above (frame : KeepsAboveSafe operation t t' place pageId) {N : Int}
    {depth : Nat} (descends : Descends t N pageId (depth + 1)) {pageN : BPlusTreePage K V}
    (storedN : t.pages N = some pageN)
    (safe : pageN.isSafeOperation t.leafMaxSize t.internalMaxSize operation) :
    KeepsAbove t t' place (place N).height := by
  cases descends with
  | child storedTop _ _ =>
      rw [storedTop] at storedN
      cases storedN
      exact frame N _ _ (.child storedTop ‹_› ‹_›) storedTop safe

/-- Writing back a leaf changes no page above the leaves. -/
theorem Linked.keepsAbove_writeLeaf (linked : Linked t place) {X : Int}
    {leaf : BPlusTreeLeafPage K V} (stored : t.pages X = some (.leaf leaf))
    (page : BPlusTreePage K V) : KeepsAbove t (t.writePage X page) place 0 :=
  KeepsAbove.of_changed rfl fun pageId _ changed => by
    by_cases isX : pageId = X
    · rw [isX, (linked.leaf X leaf stored).height]
    · simp [isX] at changed

/-- A frame over a leaf taken once the leaf is written back is a frame over it before. -/
theorem KeepsAboveSafe.of_writeLeaf (linked : Linked t place) {X : Int}
    {leaf : BPlusTreeLeafPage K V} (stored : t.pages X = some (.leaf leaf))
    {page : BPlusTreePage K V} (frame : KeepsAboveSafe operation (t.writePage X page) t' place X) :
    KeepsAboveSafe operation t t' place X := fun N nodeN depth descends storedN safe => by
  have written := linked.keepsAbove_writeLeaf stored page
  have high := Nat.pos_of_ne_zero (linked.internal N nodeN storedN).height
  exact (written.mono (Nat.zero_le _)).trans
    (frame N nodeN depth (descends.of_keepsAbove linked written (by simp [stored]) (Nat.zero_le _))
      (by rw [written.pages N (by simp [storedN]) high, storedN]) safe) fun _ _ => rfl

end Above

/-- Writing a page keeps every other page within its bounds. -/
theorem Sized.writePage {t : BPlusTree K V} (sized : Sized t) (pageId : Int)
    (page : BPlusTreePage K V) : SizedBut (t.writePage pageId page) pageId :=
  fun other page' found isOther => by
    simp only [BPlusTree.writePage_pages, if_neg isOther] at found
    exact sized other page' found

end ScuDb.Index
