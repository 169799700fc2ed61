import ScuDb.Index.BPlusTree

/-!
Contract: the invariant of the project2 `BPlusTree` pages, as one local condition per page over a
layout that places every page at a height and a key interval.

Owns: `Place`, the separator chain `Fence` of an internal page with its lemmas, the conditions of
leaf and internal pages (`LeafPlaced`, `InternalPlaced`) and of any page (`PagePlaced`), the
whole-store condition `Linked`, the occupancy condition `Sized`, and the entries of the tree
(`Holds`).

Does not own: what the operations do to these (`ScuDb.Index.Update`, `ScuDb.Index.Insertion`,
`ScuDb.Index.Deletion`) and the global consequences (`ScuDb.Index.Shape`, `ScuDb.Index.Scan`).

## Why a layout

Every condition of the spec's list is about a page and its neighbours: its keys against the
separators of its parent, its parent pointer against its parent's slots, its next pointer against
the leaf that follows. Placing each page at `[lo, hi)` and a height, with `lo` and `hi` taken from
the parent's keys, turns each into a condition of one page, so that an operation re-proves only
the conditions of the pages it writes. The layout is a witness, not state of the code: `Linked`
says one exists.
-/

set_option linter.unusedSectionVars false

namespace ScuDb.Index

open ScuDb.Buffer (invalidPageId)

/-- Where a layout puts a page: its height above the leaves and the keys `[lo, hi)` it covers,
`none` standing for an open end. -/
structure Place (K : Type) where
  height : Nat
  lo : Option K
  hi : Option K

variable {K V : Type} [LinearOrder K] [Zero K]

/-- `key` lies in `[lo, hi)`. -/
def InRange (lo hi : Option K) (key : K) : Prop := (∀ l ∈ lo, l ≤ key) ∧ ∀ h ∈ hi, key < h

/-- `lo` is below `hi` where both are bounds. -/
def Ascends (lo hi : Option K) : Prop := ∀ l ∈ lo, ∀ h ∈ hi, l < h

/-- The separator chain of an internal page at `[lo, hi)` with slots `array`: child `i` is placed
one level down at `[key i, key (i + 1))`, with `lo` for the first child and `hi` past the last, and
these bounds ascend strictly. Slot 0's key takes no part. -/
def Fence (place : Int → Place K) (height : Nat) : Option K → List (K × Int) → Option K → Prop
  | _, [], _ => False
  | lo, [(_, child)], hi => Ascends lo hi ∧ place child = ⟨height, lo, hi⟩
  | lo, (_, child) :: (key, next) :: rest, hi =>
      Ascends lo (some key) ∧ place child = ⟨height, lo, some key⟩ ∧
        Fence place height (some key) ((key, next) :: rest) hi

/-- The children of an internal page's slots. -/
def children (array : List (K × Int)) : List Int := array.map Prod.snd

/-- A leaf placed at `place pageId`: keys sorted and inside its interval, and its next pointer the
leaf that starts where it ends, `INVALID_PAGE_ID` when nothing follows. -/
structure LeafPlaced (t : BPlusTree K V) (place : Int → Place K) (pageId : Int)
    (page : BPlusTreeLeafPage K V) : Prop where
  height : (place pageId).height = 0
  sorted : (page.array.map Prod.fst).Sorted (· < ·)
  inRange : ∀ entry ∈ page.array, InRange (place pageId).lo (place pageId).hi entry.1
  last : page.nextPageId = invalidPageId ↔ (place pageId).hi = none
  next : page.nextPageId ≠ invalidPageId → ∃ next, t.pages page.nextPageId = some (.leaf next) ∧
    (place page.nextPageId).lo = (place pageId).hi

/-- An internal page placed at `place pageId`: its children one level down along its separator
chain, each pointing back to it, and slot 0's key the lower bound of its interval when it has
one. -/
structure InternalPlaced (t : BPlusTree K V) (place : Int → Place K) (pageId : Int)
    (page : BPlusTreeInternalPage K) : Prop where
  height : (place pageId).height ≠ 0
  fence : Fence place ((place pageId).height - 1) (place pageId).lo page.array (place pageId).hi
  pointsBack : ∀ child ∈ children page.array,
    (t.pages child).map BPlusTreePage.parentPageId = some pageId
  firstKey : (place pageId).lo = none ∨ (place pageId).lo = some (keyOf page.array 0)

/-- The conditions a page of the store meets: its parent pointer is `INVALID_PAGE_ID` exactly at
the root, the parent of any other page lists it, and the page is placed. -/
structure PagePlaced (t : BPlusTree K V) (place : Int → Place K) (pageId : Int)
    (page : BPlusTreePage K V) : Prop where
  isRoot : page.parentPageId = invalidPageId ↔ pageId = t.rootPageId
  listed : pageId ≠ t.rootPageId →
    ∃ parent, t.pages page.parentPageId = some (.internal parent) ∧ pageId ∈ children parent.array
  leaf : ∀ leaf, page = .leaf leaf → LeafPlaced t place pageId leaf
  internal : ∀ node, page = .internal node → InternalPlaced t place pageId node

/-- The pages of the store form a tree laid out by `place`: the root at `(-∞, +∞)` and highest,
every page placed, and page ids below `nextPageId`. -/
structure Linked (t : BPlusTree K V) (place : Int → Place K) : Prop where
  valid : ∀ pageId, t.pages pageId ≠ none → 0 ≤ pageId
  fresh : ∀ pageId, (t.nextPageId : Int) ≤ pageId → t.pages pageId = none
  root : t.rootPageId = invalidPageId ∧ (∀ pageId, t.pages pageId = none) ∨
    t.pages t.rootPageId ≠ none ∧ (place t.rootPageId).lo = none ∧ (place t.rootPageId).hi = none
  tall : ∀ pageId, t.pages pageId ≠ none → (place pageId).height ≤ (place t.rootPageId).height
  short : (place t.rootPageId).height ≤ t.nextPageId
  placed : ∀ pageId page, t.pages pageId = some page → PagePlaced t place pageId page

section Linked

variable {t : BPlusTree K V} {place : Int → Place K}

theorem Linked.isRoot (linked : Linked t place) (pageId : Int) (page : BPlusTreePage K V)
    (stored : t.pages pageId = some page) :
    page.parentPageId = invalidPageId ↔ pageId = t.rootPageId :=
  (linked.placed pageId page stored).isRoot

theorem Linked.listed (linked : Linked t place) (pageId : Int) (page : BPlusTreePage K V)
    (stored : t.pages pageId = some page) (notRoot : pageId ≠ t.rootPageId) :
    ∃ parent, t.pages page.parentPageId = some (.internal parent) ∧
      pageId ∈ children parent.array :=
  (linked.placed pageId page stored).listed notRoot

theorem Linked.leaf (linked : Linked t place) (pageId : Int) (leaf : BPlusTreeLeafPage K V)
    (stored : t.pages pageId = some (.leaf leaf)) : LeafPlaced t place pageId leaf :=
  (linked.placed pageId _ stored).leaf leaf rfl

theorem Linked.internal (linked : Linked t place) (pageId : Int) (node : BPlusTreeInternalPage K)
    (stored : t.pages pageId = some (.internal node)) : InternalPlaced t place pageId node :=
  (linked.placed pageId _ stored).internal node rfl

end Linked

/-- A page holds between `GetMinSize()` and `GetMaxSize()` entries. -/
def PageSized (t : BPlusTree K V) (page : BPlusTreePage K V) : Prop :=
  page.getMinSize t.leafMaxSize t.internalMaxSize ≤ page.getSize ∧
    page.getSize ≤ page.getMaxSize t.leafMaxSize t.internalMaxSize

/-- Re-parenting a page below one internal page to another keeps its size bounds. -/
theorem PageSized.setParentPageId {t : BPlusTree K V} {page : BPlusTreePage K V}
    (sized : PageSized t page) (child : page.parentPageId ≠ invalidPageId) {parent : Int}
    (valid : parent ≠ invalidPageId) : PageSized t (page.setParentPageId parent) := by
  cases page <;> simp_all [PageSized]

/-- Every page is `PageSized`. -/
def Sized (t : BPlusTree K V) : Prop :=
  ∀ pageId page, t.pages pageId = some page → PageSized t page

/-- Every page but `pageId` is `PageSized`: the state while an overflow or an underflow at
`pageId` is being fixed. -/
def SizedBut (t : BPlusTree K V) (pageId : Int) : Prop :=
  ∀ other page, t.pages other = some page → other ≠ pageId → PageSized t page

theorem SizedBut.sized {t : BPlusTree K V} {pageId : Int} {page : BPlusTreePage K V}
    (sized : SizedBut t pageId) (stored : t.pages pageId = some page) (fits : PageSized t page) :
    Sized t := fun other page' found => by
  by_cases same : other = pageId
  · rw [same, stored] at found
    cases found
    exact fits
  · exact sized other page' found same

/-- The tree maps `key` to `value`: some leaf holds the entry. -/
def Holds (t : BPlusTree K V) (key : K) (value : V) : Prop :=
  ∃ pageId page, t.pages pageId = some (.leaf page) ∧ (key, value) ∈ page.array

/-- The invariant of every tree the operations reach: linked and sized, with the maximum sizes
`Init` gives the pages of every key type the code instantiates (at least 2 entries a leaf and 4
slots an internal page). -/
structure Valid (t : BPlusTree K V) : Prop where
  linked : ∃ place, Linked t place
  sized : Sized t
  leafMin : 2 ≤ t.leafMaxSize
  internalMin : 4 ≤ t.internalMaxSize

/-- In a sized tree every internal page has the two slots internal `Lookup` asserts. -/
theorem Sized.twoSlots {t : BPlusTree K V} (sized : Sized t) (internalMin : 4 ≤ t.internalMaxSize)
    (pageId : Int) (page : BPlusTreeInternalPage K) (stored : t.pages pageId = some (.internal page)) :
    2 ≤ page.array.length := by
  have atLeast := (sized pageId _ stored).1
  simp only [BPlusTreePage.getMinSize_internal, BPlusTreePage.getSize_internal] at atLeast
  split_ifs at atLeast <;> omega

/-! ## The separator chain -/

section Fence

variable {place place' : Int → Place K} {height : Nat}

@[simp] theorem fence_nil (lo hi : Option K) : ¬ Fence place height lo [] hi := id

theorem fence_singleton (lo hi : Option K) (key : K) (child : Int) :
    Fence place height lo [(key, child)] hi ↔ Ascends lo hi ∧ place child = ⟨height, lo, hi⟩ :=
  Iff.rfl

theorem fence_cons_cons (lo hi : Option K) (key key' : K) (child next : Int)
    (rest : List (K × Int)) :
    Fence place height lo ((key, child) :: (key', next) :: rest) hi ↔
      Ascends lo (some key') ∧ place child = ⟨height, lo, some key'⟩ ∧
        Fence place height (some key') ((key', next) :: rest) hi :=
  Iff.rfl

theorem Ascends.trans {lo : Option K} {key : K} {hi : Option K} (below : Ascends lo (some key))
    (above : Ascends (some key) hi) : Ascends lo hi := fun l member h member' =>
  (below l member key rfl).trans (above key rfl h member')

/-- The bounds of a chain ascend. -/
theorem Fence.ascends : ∀ {lo hi : Option K} {array : List (K × Int)},
    Fence place height lo array hi → Ascends lo hi
  | _, _, [], chain => chain.elim
  | _, _, [_], chain => chain.1
  | _, _, _ :: _ :: _, chain => chain.1.trans chain.2.2.ascends

/-- Slot 0's key takes no part in the chain. -/
theorem fence_cons_key (lo hi : Option K) (key key' : K) (child : Int) (rest : List (K × Int)) :
    Fence place height lo ((key, child) :: rest) hi ↔
      Fence place height lo ((key', child) :: rest) hi := by
  cases rest <;> exact Iff.rfl

/-- A chain stays a chain under a layout that agrees on its children. -/
theorem Fence.congr : ∀ {lo hi : Option K} {array : List (K × Int)},
    (∀ child ∈ children array, place' child = place child) →
    Fence place height lo array hi → Fence place' height lo array hi
  | _, _, [], _, chain => chain.elim
  | _, _, [(_, child)], same, chain => by
      refine ⟨chain.1, ?_⟩
      rw [same child (by simp [children])]
      exact chain.2
  | _, _, (_, child) :: (_, _) :: _, same, chain => by
      refine ⟨chain.1, ?_, Fence.congr (fun child' member => same child' ?_) chain.2.2⟩
      · rw [same child (by simp [children])]
        exact chain.2.1
      · simp only [children, List.map_cons, List.mem_cons] at member ⊢
        tauto

/-- A chain cut before a slot: the slots before it end at its key, the slots from it start
there. -/
theorem fence_append : ∀ {lo hi : Option K} {front : List (K × Int)} (key : K) (child : Int)
    (back : List (K × Int)), front ≠ [] →
    (Fence place height lo (front ++ (key, child) :: back) hi ↔
      Fence place height lo front (some key) ∧ Fence place height (some key) ((key, child) :: back) hi)
  | _, _, [], _, _, _, nonempty => absurd rfl nonempty
  | _, _, [(_, _)], _, _, _, _ => by
      simp only [List.singleton_append, fence_cons_cons, fence_singleton, and_assoc]
  | lo, hi, (_, _) :: (key', next) :: rest, key, child, back, _ => by
      have inductionHypothesis :
          Fence place height (some key') (((key', next) :: rest) ++ (key, child) :: back) hi ↔
            Fence place height (some key') ((key', next) :: rest) (some key) ∧
              Fence place height (some key) ((key, child) :: back) hi :=
        fence_append key child back (List.cons_ne_nil _ _)
      simp only [List.cons_append] at inductionHypothesis ⊢
      rw [fence_cons_cons, inductionHypothesis, fence_cons_cons]
      exact ⟨fun ⟨below, placed, front, back⟩ => ⟨⟨below, placed, front⟩, back⟩,
        fun ⟨⟨below, placed, front⟩, back⟩ => ⟨below, placed, front, back⟩⟩

/-- A child's interval lies inside its parent's. -/
def Within (lo hi lo' hi' : Option K) : Prop :=
  (∀ l ∈ lo, ∃ l' ∈ lo', l ≤ l') ∧ ∀ h ∈ hi, ∃ h' ∈ hi', h' ≤ h

theorem Within.inRange {lo hi lo' hi' : Option K} (within : Within lo hi lo' hi') {key : K}
    (inside : InRange lo' hi' key) : InRange lo hi key := by
  refine ⟨fun l member => ?_, fun h member => ?_⟩
  · obtain ⟨l', member', below⟩ := within.1 l member
    exact below.trans (inside.1 l' member')
  · obtain ⟨h', member', above⟩ := within.2 h member
    exact lt_of_lt_of_le (inside.2 h' member') above

/-- Each child of a chain sits one level down, inside the chain's interval, at an interval that
holds some key. -/
theorem Fence.place_of_mem : ∀ {lo hi : Option K} {array : List (K × Int)},
    Fence place height lo array hi → ∀ child ∈ children array,
      (place child).height = height ∧ Ascends (place child).lo (place child).hi ∧
        Within lo hi (place child).lo (place child).hi
  | _, _, [], chain, _, _ => chain.elim
  | lo, hi, [(_, child)], chain, child', member => by
      obtain rfl : child' = child := by simpa [children] using member
      rw [chain.2]
      exact ⟨rfl, chain.1, fun l member => ⟨l, member, le_rfl⟩, fun h member => ⟨h, member, le_rfl⟩⟩
  | lo, hi, (_, child) :: (key, next) :: rest, chain, child', member => by
      have rest_within := chain.2.2.ascends
      simp only [children, List.map_cons, List.mem_cons] at member
      rcases member with rfl | member
      · rw [chain.2.1]
        exact ⟨rfl, chain.1, fun l member => ⟨l, member, le_rfl⟩,
          fun h member => ⟨key, rfl, (rest_within key rfl h member).le⟩⟩
      · obtain ⟨placed, ascends, within⟩ :=
          chain.2.2.place_of_mem child' (by simpa [children] using member)
        refine ⟨placed, ascends, fun l member' => ?_, within.2⟩
        obtain ⟨l', member'', above⟩ := within.1 key rfl
        exact ⟨l', member'', (chain.1 l member' key rfl).le.trans above⟩

/-- No two slots of a chain hold the same child: their lower bounds ascend. -/
theorem Fence.nodup : ∀ {lo hi : Option K} {array : List (K × Int)},
    Fence place height lo array hi → (children array).Nodup
  | _, _, [], chain => chain.elim
  | _, _, [_], _ => List.nodup_singleton _
  | lo, hi, (_, child) :: (key, next) :: rest, chain => by
      refine List.nodup_cons.2 ⟨fun member => ?_, chain.2.2.nodup⟩
      obtain ⟨-, -, within⟩ := chain.2.2.place_of_mem child member
      obtain ⟨l', member', above⟩ := within.1 key rfl
      rw [chain.2.1] at member'
      exact absurd (chain.1 l' member' key rfl) (not_lt.2 above)

/-- The child of slot `j` sits at `[key j, key (j + 1))`, with `lo` for slot 0 and `hi` past the
last slot. -/
theorem Fence.childOf_place : ∀ {lo hi : Option K} {array : List (K × Int)},
    Fence place height lo array hi → ∀ j < array.length,
      place (childOf array j) = ⟨height, if j = 0 then lo else some (keyOf array j),
        if j + 1 < array.length then some (keyOf array (j + 1)) else hi⟩
  | _, _, [], chain, _, _ => chain.elim
  | _, _, [(_, child)], chain, j, inside => by
      obtain rfl : j = 0 := by simpa using inside
      simpa [childOf] using chain.2
  | lo, hi, (key₀, child) :: (key, next) :: rest, chain, j, inside => by
      cases j with
      | zero => simpa [childOf, keyOf] using chain.2.1
      | succ j =>
          have later := chain.2.2.childOf_place j (by simpa using inside)
          have shift : childOf ((key₀, child) :: (key, next) :: rest) (j + 1) =
              childOf ((key, next) :: rest) j := by
            simp [childOf]
          rw [shift, later]
          cases j <;> simp [keyOf]

/-- The keys of a chain's slots from slot 1 on ascend. -/
theorem Fence.keyOf_lt {lo hi : Option K} {array : List (K × Int)}
    (chain : Fence place height lo array hi) :
    ∀ i j : Nat, 1 ≤ i → i < j → j < array.length → keyOf array i < keyOf array j := by
  have step : ∀ i, 1 ≤ i → i + 1 < array.length → keyOf array i < keyOf array (i + 1) := by
    intro i first inside
    have placed := chain.childOf_place i (by omega)
    obtain ⟨-, ascends, -⟩ := chain.place_of_mem (childOf array i)
      (by rw [childOf_eq_getElem (by omega)]; exact List.mem_map_of_mem _ (List.getElem_mem _))
    rw [placed] at ascends
    simp only [if_neg (show i ≠ 0 by omega), if_pos inside] at ascends
    exact ascends _ rfl _ rfl
  intro i j first before inside
  induction j with
  | zero => omega
  | succ j inductionHypothesis =>
      rcases Nat.lt_or_eq_of_le (Nat.le_of_lt_succ before) with before | rfl
      · exact (inductionHypothesis before (by omega)).trans (step j (by omega) inside)
      · exact step i first inside

theorem mem_children_insert {array : List (K × Int)} {n : Nat} {key : K} {new child : Int} :
    child ∈ children (array.take n ++ (key, new) :: array.drop n) ↔
      child = new ∨ child ∈ children array := by
  conv_rhs => rw [← List.take_append_drop n array]
  simp only [children, List.map_append, List.map_cons, List.mem_append, List.mem_cons]
  tauto

theorem mem_children_of_getElem {array : List (K × Int)} {j : Nat} (inside : j < array.length) :
    array[j].2 ∈ children array :=
  List.mem_map_of_mem _ (List.getElem_mem _)

/-- A slot placed after slot `n` leaves slot 0's key alone. -/
theorem keyOf_insert_zero {α : Type} {array : List (K × α)} {n : Nat} {slot : K × α}
    (nonempty : n < array.length) :
    keyOf (array.take (n + 1) ++ slot :: array.drop (n + 1)) 0 = keyOf array 0 := by
  cases array with
  | nil => simp at nonempty
  | cons first rest => simp [keyOf]

/-- A slot key from slot 1 on lies strictly inside the chain's interval. -/
theorem Fence.key_inside : ∀ {lo hi : Option K} {array : List (K × Int)},
    Fence place height lo array hi → ∀ {j : Nat}, 1 ≤ j → j < array.length →
      Ascends lo (some (keyOf array j)) ∧ Ascends (some (keyOf array j)) hi
  | _, _, [], chain, _, _, _ => chain.elim
  | _, _, [_], _, _, first, inside => by simp at inside; omega
  | _, _, (_, _) :: (key, next) :: rest, chain, j, first, inside => by
      obtain ⟨below, -, later⟩ := chain
      match j, first, inside with
      | 1, _, _ => exact ⟨below, later.ascends⟩
      | j + 2, _, inside =>
          obtain ⟨below', above⟩ := later.key_inside (j := j + 1) (by omega) (by simpa using inside)
          exact ⟨below.trans below', above⟩

/-- A slot `(key, new)` placed right after the slot of `child`, `child` giving up `[key, hi)` to
`new`, keeps the chain. -/
theorem Fence.insertAfter {child new : Int} {key : K}
    (placeChild : place' child = ⟨height, (place child).lo, some key⟩)
    (placeNew : place' new = ⟨height, some key, (place child).hi⟩)
    (lower : Ascends (place child).lo (some key)) (upper : Ascends (some key) (place child).hi)
    (others : ∀ other, other ≠ child → other ≠ new → place' other = place other) :
    ∀ {lo hi : Option K} {array : List (K × Int)} {j : Nat}, Fence place height lo array hi →
      (children array).Nodup → new ∉ children array → (h : j < array.length) → array[j].2 = child →
      Fence place' height lo (array.take (j + 1) ++ (key, new) :: array.drop (j + 1)) hi
  | _, _, [], _, chain, _, _, _, _ => chain.elim
  | lo, hi, [(_, first)], 0, chain, _, _, _, slot => by
      obtain ⟨ascends, placed⟩ := chain
      simp only [List.getElem_cons_zero] at slot
      subst slot
      rw [placed] at lower upper placeNew
      rw [placed] at placeChild
      exact ⟨lower, placeChild, upper, placeNew⟩
  | _, _, [_], _ + 1, _, _, _, inside, _ => by simp at inside
  | lo, hi, (_, first) :: (key', next) :: rest, 0, chain, distinct, missing, _, slot => by
      obtain ⟨below, placed, later⟩ := chain
      simp only [List.getElem_cons_zero] at slot
      subst slot
      rw [placed] at lower upper placeNew
      rw [placed] at placeChild
      refine ⟨lower, placeChild, upper, placeNew, later.congr fun other member => ?_⟩
      refine others other (fun same => ?_) (fun same => missing ?_)
      · subst same
        exact (List.nodup_cons.1 distinct).1 member
      · subst same
        exact List.mem_cons_of_mem _ member
  | lo, hi, (key₀, first) :: (key', next) :: rest, j + 1, chain, distinct, missing, inside,
      slot => by
      obtain ⟨below, placed, later⟩ := chain
      have firstDiffers : first ≠ child := fun same => by
        subst same
        refine (List.nodup_cons.1 distinct).1 ?_
        rw [← slot]
        simp only [List.getElem_cons_succ, children]
        exact List.mem_map_of_mem _ (List.getElem_mem _)
      have inductionHypothesis := later.insertAfter placeChild placeNew lower upper others
        (List.nodup_cons.1 distinct).2 (fun member => missing (List.mem_cons_of_mem _ member))
        (j := j) (by simpa using inside) slot
      simp only [List.take_succ_cons, List.drop_succ_cons, List.cons_append] at inductionHypothesis ⊢
      refine ⟨below, ?_, inductionHypothesis⟩
      rw [others first firstDiffers fun same => missing (by simp [same, children])]
      exact placed

end Fence

end ScuDb.Index
