import ScuDb.Index.Refinement

/-!
Contract: the scan the project2 `IndexIterator` makes from `Begin()`
(src/project/project2/scudb_initial/src/index/b_plus_tree.cpp, and the iterator at the end of
src/project/project2/scudb_initial/src/page/b_plus_tree_internal_page.cpp): `operator*` then
`operator++` until `isEnd()` reads every entry of a reachable tree exactly once, in strictly
ascending key order (`scan_begin_reads_entries`).

Owns: one equation per branch of `operator*` and `operator++`, what a scan reads (`ReadsFrom`),
the scan from any slot of any leaf (`scan_from_slot`), one slot at a time (`Linked.readsFrom_cons`),
and the count of the tree's entries at or above a key (`countFrom`), which bounds the passes the
scan needs.

Does not own: the leaf chain itself. That each leaf's `next_page_id` is the leaf placed right after
it, and `INVALID_PAGE_ID` for the last one, is part of the layout invariant (`LeafPlaced.next`,
`LeafPlaced.last`), which `Insert` (through `MoveHalfTo`) and `Remove` (through `MoveAllTo`) keep:
`insert_spec`, `remove_spec`.

## Passes

The model's `scan` takes a number of passes. A scan that reads `n` entries needs `n + 1` of them,
the last for `isEnd()`, and the theorems give it any number above `n`.
-/

set_option linter.unusedSectionVars false

namespace ScuDb.Index

open ScuDb.Buffer (invalidPageId)

variable {K V : Type} [LinearOrder K] [Zero K]

/-! ## One step of the iterator -/

namespace IndexIterator

section Step

variable {t : BPlusTree K V} {X : Int} {leaf : BPlusTreeLeafPage K V}
  (stored : t.pages X = some (.leaf leaf))
include stored

/-- `operator*` on a slot of the leaf: the entry there. -/
theorem deref_eq {i : Nat} (inside : i < leaf.array.length) :
    deref t ⟨some X, i⟩ = .ok leaf.array[i] := by
  simp [deref, BPlusTree.fetchLeaf_eq stored, BPlusTreeLeafPage.getItem, inside, bind,
    Except.bind, Int.ofNat_zero_le]

/-- `operator++` before the last slot of the leaf: the next slot. -/
theorem advance_of_lt {i : Nat} (next : i + 1 < leaf.array.length) :
    advance t ⟨some X, i⟩ = .ok ⟨some X, i + 1⟩ := by
  simp [advance, BPlusTree.fetchLeaf_eq stored, not_le.2 next, bind, Except.bind, pure,
    Except.pure]

/-- `operator++` on the last slot of the last leaf: the end. -/
theorem advance_of_last {i : Nat} (past : leaf.array.length ≤ i + 1)
    (last : leaf.nextPageId = invalidPageId) : advance t ⟨some X, i⟩ = .ok ⟨none, i + 1⟩ := by
  simp [advance, BPlusTree.fetchLeaf_eq stored, past, last, bind, Except.bind, pure, Except.pure]

/-- `operator++` on the last slot of a leaf that has a next leaf: slot 0 of that leaf. -/
theorem advance_of_next {i : Nat} (past : leaf.array.length ≤ i + 1)
    (notLast : leaf.nextPageId ≠ invalidPageId) {next : BPlusTreeLeafPage K V}
    (storedNext : t.pages leaf.nextPageId = some (.leaf next)) :
    advance t ⟨some X, i⟩ = .ok ⟨some leaf.nextPageId, 0⟩ := by
  simp [advance, BPlusTree.fetchLeaf_eq stored, BPlusTree.fetchLeaf_eq storedNext, past, notLast,
    bind, Except.bind, pure, Except.pure]

end Step

/-- One pass of the scan: the entry `operator*` reads, then the scan from where `operator++`
goes. -/
theorem scan_cons {t : BPlusTree K V} {it it' : IndexIterator} {entry : K × V}
    (notEnd : it.isEnd = false) (read : deref t it = .ok entry) (next : advance t it = .ok it')
    {fuel : Nat} {entries : List (K × V)} (rest : scan t fuel it' = .ok entries) :
    scan t (fuel + 1) it = .ok (entry :: entries) := by
  simp [scan, notEnd, read, next, rest, bind, Except.bind, pure, Except.pure]

/-- The scan from the end reads nothing. -/
theorem scan_end (t : BPlusTree K V) (index fuel : Nat) :
    scan t (fuel + 1) ⟨none, index⟩ = .ok [] := by
  simp [scan, isEnd]

end IndexIterator

/-! ## The entries at or above a key -/

/-- The entries of the leaves of the store, page by page. -/
def storedEntries (t : BPlusTree K V) : List (K × V) :=
  (List.range t.nextPageId).flatMap fun n => (leafEntries (t.pages n)).getD []

/-- How many entries of the tree lie at or above `key`. -/
def countFrom (t : BPlusTree K V) (key : K) : Nat :=
  ((storedEntries t).filter fun entry => key ≤ entry.1).length

section Count

variable {t : BPlusTree K V} {place : Int → Place K}

theorem Linked.mem_storedEntries (linked : Linked t place) {key : K} {value : V}
    (held : Holds t key value) : (key, value) ∈ storedEntries t := by
  obtain ⟨pageId, page, stored, member⟩ := held
  have present : t.pages pageId ≠ none := by simp [stored]
  have low := linked.valid pageId present
  have high : pageId < t.nextPageId := by
    by_contra atLeast
    exact present (linked.fresh pageId (by omega))
  refine List.mem_flatMap.2 ⟨pageId.toNat, List.mem_range.2 (by omega), ?_⟩
  rwa [Int.toNat_of_nonneg low, stored]

/-- A held entry at or above `key` and below `key'` makes fewer entries at or above `key'`. -/
theorem Linked.countFrom_lt (linked : Linked t place) {key key' : K} {value : V}
    (held : Holds t key value) (below : key < key') {lower : K} (atLeast : lower ≤ key) :
    countFrom t key' < countFrom t lower := by
  have sub : (storedEntries t).filter (fun entry => key' ≤ entry.1) =
      ((storedEntries t).filter fun entry => lower ≤ entry.1).filter
        fun entry => key' ≤ entry.1 := by
    rw [List.filter_filter]
    refine List.filter_congr fun entry _ => ?_
    by_cases above : key' ≤ entry.1
    · simp [above, atLeast.trans (below.le.trans above)]
    · simp [above]
  rw [countFrom, countFrom, sub]
  exact List.length_filter_lt_length_iff_exists.2 ⟨(key, value),
    List.mem_filter.2 ⟨linked.mem_storedEntries held, by simpa using atLeast⟩, by simpa using below⟩

end Count

/-! ## The scan from a slot -/

/-- In a leaf of strictly ascending keys, an entry whose key is at or above slot `i`'s sits at or
after slot `i`. -/
theorem exists_index_of_key_le {array : List (K × V)} (sorted : (array.map Prod.fst).Sorted (· < ·))
    {entry : K × V} (member : entry ∈ array) {i : Nat} (inside : i < array.length)
    (atLeast : array[i].1 ≤ entry.1) : ∃ j, ∃ within : j < array.length, i ≤ j ∧ array[j] = entry := by
  obtain ⟨j, within, rfl⟩ := List.mem_iff_getElem.1 member
  refine ⟨j, within, ?_, rfl⟩
  by_contra before
  have ordered := keyOf_lt_keyOf sorted (show j < i by omega) inside
  rw [keyOf_eq_getElem within, keyOf_eq_getElem inside] at ordered
  exact absurd atLeast (not_le.2 ordered)

/-- Slot 0 of a leaf of strictly ascending keys holds its least key. -/
theorem first_key_le {array : List (K × V)} (sorted : (array.map Prod.fst).Sorted (· < ·))
    (nonempty : 0 < array.length) {entry : K × V} (member : entry ∈ array) :
    array[0].1 ≤ entry.1 := by
  obtain ⟨j, within, rfl⟩ := List.mem_iff_getElem.1 member
  have ordered := keyOf_le_keyOf sorted (Nat.zero_le j) within
  rwa [keyOf_eq_getElem nonempty, keyOf_eq_getElem within] at ordered

section Scan

variable {t : BPlusTree K V} {place : Int → Place K}

theorem Sized.leaf_nonempty (sized : Sized t) (leafMin : 2 ≤ t.leafMaxSize) {X : Int}
    {leaf : BPlusTreeLeafPage K V} (stored : t.pages X = some (.leaf leaf)) :
    0 < leaf.array.length := by
  have atLeast := (sized X _ stored).1
  simp only [BPlusTreePage.getMinSize_leaf, BPlusTreePage.getSize_leaf] at atLeast
  split_ifs at atLeast <;> omega

/-- The scan from `it` reads `entries`, in every number of passes above their number: the
entries of the tree from `lower` on, in strictly ascending key order. -/
def ReadsFrom (t : BPlusTree K V) (it : IndexIterator) (lower : K) (entries : List (K × V)) :
    Prop :=
  (∀ fuel, entries.length < fuel → IndexIterator.scan t fuel it = .ok entries) ∧
    (entries.map Prod.fst).Sorted (· < ·) ∧
    ∀ key value, (key, value) ∈ entries ↔ Holds t key value ∧ lower ≤ key

section Slot

variable (linked : Linked t place) {X : Int} {leaf : BPlusTreeLeafPage K V}
  (stored : t.pages X = some (.leaf leaf)) {i : Nat} (inside : i < leaf.array.length)
include linked stored inside

/-- An entry of the tree from slot `i`'s key up to the next slot's, or up to the end of the
leaf's interval past the last slot, is the entry of slot `i`. -/
theorem Linked.eq_getElem_of_between {key : K} {value : V} (held : Holds t key value)
    (atLeast : leaf.array[i].1 ≤ key) (upper : ∀ h ∈ (place X).hi, key < h)
    (beforeNext : ∀ next : i + 1 < leaf.array.length, key < leaf.array[i + 1].1) :
    (key, value) = leaf.array[i] := by
  have placed := linked.leaf X leaf stored
  have rangeI := placed.inRange _ (List.getElem_mem inside)
  obtain ⟨j, within, after, found⟩ := exists_index_of_key_le placed.sorted
    ((linked.holds_iff_mem stored ⟨fun l lower => (rangeI.1 l lower).trans atLeast, upper⟩
      value).1 held) inside atLeast
  obtain rfl : j = i := by
    by_contra differs
    have ordered := keyOf_le_keyOf placed.sorted (show i + 1 ≤ j by omega) within
    rw [keyOf_eq_getElem (by omega), keyOf_eq_getElem within, found] at ordered
    exact absurd (beforeNext (by omega)) (not_lt.2 ordered)
  exact found.symm

/-- The scan from slot `i` is the entry of slot `i`, then the scan from where `operator++` goes,
when that scan reads the entries from a `threshold` above slot `i`'s key and the tree holds no
other entry between the two keys. -/
theorem Linked.readsFrom_cons {it : IndexIterator} {threshold : K} {rest : List (K × V)}
    (next : IndexIterator.advance t ⟨some X, i⟩ = .ok it) (below : leaf.array[i].1 < threshold)
    (reads : ReadsFrom t it threshold rest)
    (between : ∀ key value, Holds t key value → leaf.array[i].1 < key → key < threshold →
      (key, value) = leaf.array[i]) :
    ReadsFrom t ⟨some X, i⟩ leaf.array[i].1 (leaf.array[i] :: rest) := by
  obtain ⟨scanned, sorted, members⟩ := reads
  have placed := linked.leaf X leaf stored
  refine ⟨fun fuel long => ?_, List.sorted_cons.2 ⟨fun key member => ?_, sorted⟩,
    fun key value => ?_⟩
  · obtain ⟨fuel, rfl⟩ : ∃ fuel', fuel = fuel' + 1 := ⟨fuel - 1, by simp at long; omega⟩
    exact IndexIterator.scan_cons (by rfl) (IndexIterator.deref_eq stored inside) next
      (scanned fuel (by simpa using long))
  · obtain ⟨⟨key, value⟩, inRest, rfl⟩ := List.mem_map.1 member
    exact below.trans_le ((members key value).1 inRest).2
  · rw [List.mem_cons, members]
    constructor
    · rintro (same | ⟨held, atLeast⟩)
      · obtain ⟨rfl, rfl⟩ : key = leaf.array[i].1 ∧ value = leaf.array[i].2 := Prod.ext_iff.1 same
        exact ⟨⟨X, leaf, stored, List.getElem_mem _⟩, le_rfl⟩
      · exact ⟨held, below.le.trans atLeast⟩
    · rintro ⟨held, atLeast⟩
      by_cases high : threshold ≤ key
      · exact .inr ⟨held, high⟩
      rcases atLeast.lt_or_eq with above | same
      · exact .inl (between key value held above (not_le.1 high))
      · refine .inl (linked.eq_getElem_of_between stored inside held atLeast
          (fun h upper => same ▸ (placed.inRange _ (List.getElem_mem inside)).2 h upper)
          fun next => ?_)
        have ordered := keyOf_lt_keyOf placed.sorted (Nat.lt_succ_self i) next
        rwa [keyOf_eq_getElem inside, keyOf_eq_getElem next, same] at ordered

end Slot

/-- **The scan from a slot.** From slot `i` of a leaf, `operator*` then `operator++` until
`isEnd()` reads every entry of the tree from slot `i`'s key on, in strictly ascending key order:
in every number of passes above the number of entries it reads. -/
theorem scan_from_slot (linked : Linked t place) (sized : Sized t) (leafMin : 2 ≤ t.leafMaxSize) :
    ∀ (count : Nat) {X : Int} {leaf : BPlusTreeLeafPage K V} {i : Nat},
      t.pages X = some (.leaf leaf) → (inside : i < leaf.array.length) →
      countFrom t leaf.array[i].1 = count →
      ∃ entries, ReadsFrom t ⟨some X, i⟩ leaf.array[i].1 entries := by
  intro count
  induction count using Nat.strong_induction_on with
  | _ count inductionHypothesis =>
  intro X leaf i stored inside counted
  have placed := linked.leaf X leaf stored
  have heldI : Holds t leaf.array[i].1 leaf.array[i].2 := ⟨X, leaf, stored, List.getElem_mem _⟩
  by_cases next : i + 1 < leaf.array.length
  · -- the next slot of the same leaf
    have ordered := keyOf_lt_keyOf placed.sorted (Nat.lt_succ_self i) next
    rw [keyOf_eq_getElem inside, keyOf_eq_getElem next] at ordered
    obtain ⟨rest, reads⟩ := inductionHypothesis _
      (counted ▸ linked.countFrom_lt heldI ordered le_rfl) stored next rfl
    exact ⟨_, linked.readsFrom_cons stored inside (IndexIterator.advance_of_lt stored next) ordered
      reads fun key value held above under => linked.eq_getElem_of_between stored inside held
        above.le (fun h upper => under.trans ((placed.inRange _ (List.getElem_mem next)).2 h upper))
        fun _ => under⟩
  by_cases last : leaf.nextPageId = invalidPageId
  · -- the last slot of the last leaf
    refine ⟨[leaf.array[i]], fun fuel long => ?_, List.sorted_singleton _, fun key value => ?_⟩
    · obtain ⟨fuel, rfl⟩ : ∃ fuel', fuel = fuel' + 2 := ⟨fuel - 2, by simp at long; omega⟩
      exact IndexIterator.scan_cons (by rfl) (IndexIterator.deref_eq stored inside)
        (IndexIterator.advance_of_last stored (by omega) last) (IndexIterator.scan_end t _ _)
    · rw [List.mem_singleton]
      constructor
      · intro same
        obtain ⟨rfl, rfl⟩ : key = leaf.array[i].1 ∧ value = leaf.array[i].2 := Prod.ext_iff.1 same
        exact ⟨heldI, le_rfl⟩
      · rintro ⟨held, atLeast⟩
        exact linked.eq_getElem_of_between stored inside held atLeast
          (fun h upper => by rw [placed.last.1 last] at upper; cases upper)
          fun beyond => absurd beyond next
  · -- the last slot of a leaf with a next leaf: slot 0 of that leaf
    obtain ⟨next', storedNext, nextLo⟩ := placed.next last
    have placedNext := linked.leaf _ next' storedNext
    have nonempty := sized.leaf_nonempty leafMin storedNext
    obtain ⟨bound, hi⟩ : ∃ bound, (place X).hi = some bound := by
      cases h : (place X).hi with
      | none => exact absurd (placed.last.2 h) last
      | some bound => exact ⟨bound, rfl⟩
    have rangeFirst := placedNext.inRange _ (List.getElem_mem nonempty)
    have belowBound : leaf.array[i].1 < bound :=
      (placed.inRange _ (List.getElem_mem inside)).2 bound hi
    have boundFirst : bound ≤ next'.array[0].1 := rangeFirst.1 bound (by rw [nextLo, hi]; rfl)
    obtain ⟨rest, reads⟩ := inductionHypothesis _
      (counted ▸ linked.countFrom_lt heldI (belowBound.trans_le boundFirst) le_rfl)
      storedNext nonempty rfl
    refine ⟨_, linked.readsFrom_cons stored inside
      (IndexIterator.advance_of_next stored (by omega) last storedNext)
      (belowBound.trans_le boundFirst) reads fun key value held above under => ?_⟩
    by_cases inX : key < bound
    · exact linked.eq_getElem_of_between stored inside held above.le
        (fun h upper => by rw [hi] at upper; cases upper; exact inX) fun beyond => absurd beyond next
    · -- a key from the bound on and below slot 0 of the next leaf would sit in that leaf
      have member := (linked.holds_iff_mem storedNext
        ⟨fun l lower => by rw [nextLo, hi] at lower; cases lower; exact not_lt.1 inX,
          fun h upper => under.trans (rangeFirst.2 h upper)⟩ value).1 held
      exact absurd under (not_lt.2 (first_key_le placedNext.sorted nonempty member))

/-- **A full scan reads every entry once, in order.** On every reachable tree, `Begin()`, then
`operator*` and `operator++` until `isEnd()`, reads exactly the tree's entries, in strictly
ascending key order, in every number of passes above their number. -/
theorem scan_begin_reads_entries (reach : Reachable t) :
    ∃ entries : List (K × V),
      (∀ fuel, entries.length < fuel → (t.begin >>= IndexIterator.scan t fuel) = .ok entries) ∧
      (entries.map Prod.fst).Sorted (· < ·) ∧
      ∀ key value, (key, value) ∈ entries ↔ Holds t key value := by
  obtain ⟨⟨place, linked⟩, sized, leafMin, -⟩ := reach.valid
  by_cases empty : t.rootPageId = invalidPageId
  · -- `FindLeafPage` returns `nullptr`, and the iterator is at its end
    have noPages := linked.empty empty
    refine ⟨[], fun fuel long => ?_, List.sorted_nil, fun key value => ?_⟩
    · obtain ⟨fuel, rfl⟩ : ∃ fuel', fuel = fuel' + 1 := ⟨fuel - 1, by simp at long; omega⟩
      simp [BPlusTree.begin, BPlusTree.findLeafPage, BPlusTree.isEmpty, empty,
        IndexIterator.scan_end, bind, Except.bind, pure, Except.pure]
    · refine iff_of_false (List.not_mem_nil _) fun ⟨_, _, found, _⟩ => ?_
      simp [noPages] at found
  obtain ⟨X, leaf, found, stored, first⟩ := findLeafPage_leftMost linked empty 0
  have placed := linked.leaf X leaf stored
  have nonempty := sized.leaf_nonempty leafMin stored
  obtain ⟨entries, scanned, sorted, members⟩ :=
    scan_from_slot linked sized leafMin _ stored nonempty rfl
  refine ⟨entries, fun fuel long => ?_, sorted, fun key value => ?_⟩
  · simp [BPlusTree.begin, found, scanned fuel long, bind, Except.bind, pure, Except.pure]
  · -- no entry lies below slot 0 of the leftmost leaf, whose interval starts the key space
    refine (members key value).trans ⟨And.left, fun held => ⟨held, ?_⟩⟩
    by_contra below
    have member := (linked.holds_iff_mem stored
      ⟨fun l lower => (by rw [first] at lower; cases lower),
        fun h upper => (not_le.1 below).trans ((placed.inRange _ (List.getElem_mem nonempty)).2 h
          upper)⟩ value).1 held
    exact below (first_key_le placed.sorted nonempty member)

/-- The tree of six ascending inserts, whose five leaves are chained from the leaf `1` on: the
scan crosses every link of the chain and reads the six entries in order. -/
theorem scan_begin_reads_entries_five_leaves :
    ∃ t replies, treeRun (BPlusTree.empty 2 4 1) (ascendingInserts 6) = .ok (t, replies) ∧
      (t.pages 1 = some (.leaf ⟨3, 2, [(10, 1)]⟩) ∧
        (t.begin >>= IndexIterator.scan t 7).toOption =
          some [(10, 1), (20, 2), (30, 3), (40, 4), (50, 5), (60, 6)]) ∧
      ∃ entries : List (Nat × Nat),
        (∀ fuel, entries.length < fuel → (t.begin >>= IndexIterator.scan t fuel) = .ok entries) ∧
        (entries.map Prod.fst).Sorted (· < ·) ∧
        ∀ key value, (key, value) ∈ entries ↔ Holds t key value := by
  obtain ⟨replies, ran, reach⟩ := treeRun_ascendingInserts_six
  exact ⟨sixInsertTree, replies, ran, by decide, scan_begin_reads_entries reach⟩

end Scan

end ScuDb.Index
