import Mathlib.Data.List.Sort
import ScuDb.Buffer.BufferPoolManager

/-!
Contract: the two kinds of page of the project2 `BPlusTree`, the leaf page
(src/project/project2/scudb_initial/src/page/b_plus_tree_leaf_page.cpp) and the internal page
(src/project/project2/scudb_initial/src/page/b_plus_tree_internal_page.cpp), with the methods
that read or change one page only, and the header helpers of `BPlusTreePage`.

Owns: the page records, the binary searches `KeyIndex` and internal `Lookup` with their
specifications, and the slot edits (`Insert`, `RemoveAndDeleteRecord`, `InsertNodeAfter`,
`Remove`, `CopyLastFrom`, the list part of `MoveHalfTo`).

Does not own: the methods that reach other pages through the buffer pool (children re-parented,
the parent's key rewritten); they act on the whole tree (`ScuDb.Index.BPlusTree`).

## Model

A page's `array` is the list of its first `GetSize()` slots, so `GetSize()` is its length. Every
page of a kind gets the same `max_size_` from `Init`; the tree keeps the two values
(`ScuDb.Index.BPlusTree`), and the store keeps each page under its `page_id_`. The comparator is
the order of a `LinearOrder`, and `0 : K` is the key of a zeroed slot. An `assert` that fails ends
the call in `Except.error` with the text of the check.
-/

set_option linter.unusedSectionVars false

namespace ScuDb.Index

open ScuDb.Buffer (invalidPageId)

/-- A leaf page (`BPlusTreeLeafPage`): its parent, the next leaf of the chain and its entries. -/
structure BPlusTreeLeafPage (K V : Type) where
  parentPageId : Int
  nextPageId : Int
  array : List (K × V)
deriving DecidableEq

/-- An internal page (`BPlusTreeInternalPage<KeyType, page_id_t>`): its parent and its
`(key, child page id)` slots; slot 0's key bounds nothing the page routes by. -/
structure BPlusTreeInternalPage (K : Type) where
  parentPageId : Int
  array : List (K × Int)
deriving DecidableEq

/-- The operation `FindLeafPage` fetches pages for: `READ`, `INSERT` or `DELETE`. -/
inductive OperationType
  | read
  | insert
  | delete
deriving DecidableEq

/-- A page of the tree, by its `page_type_`. -/
inductive BPlusTreePage (K V : Type)
  | leaf (page : BPlusTreeLeafPage K V)
  | internal (page : BPlusTreeInternalPage K)
deriving DecidableEq

namespace BPlusTreePage

variable {K V : Type}

/-- `GetParentPageId()`. -/
def parentPageId : BPlusTreePage K V → Int
  | .leaf page => page.parentPageId
  | .internal page => page.parentPageId

/-- `SetParentPageId(parent)`. -/
def setParentPageId (parent : Int) : BPlusTreePage K V → BPlusTreePage K V
  | .leaf page => .leaf { page with parentPageId := parent }
  | .internal page => .internal { page with parentPageId := parent }

/-- `GetSize()`. -/
def getSize : BPlusTreePage K V → Nat
  | .leaf page => page.array.length
  | .internal page => page.array.length

/-- `GetMaxSize()`, from the two values `Init` gives leaves and internal pages. -/
def getMaxSize (leafMaxSize internalMaxSize : Nat) : BPlusTreePage K V → Nat
  | .leaf _ => leafMaxSize
  | .internal _ => internalMaxSize

/-- `GetMinSize()`: 1 for a root leaf, 2 for an internal root, half the maximum otherwise. -/
def getMinSize (leafMaxSize internalMaxSize : Nat) (page : BPlusTreePage K V) : Nat :=
  if page.parentPageId = invalidPageId then
    match page with
    | .leaf _ => 1
    | .internal _ => 2
  else page.getMaxSize leafMaxSize internalMaxSize / 2

/-- `IsSafeOperation(operation)`: whether the operation leaves the page's size within bounds,
so that crabbing may release the pages above it. A read always does; an insert when the page is
below its maximum; a delete when a leaf is at least one entry above its minimum and an internal
page more than one slot above it. -/
def isSafeOperation (leafMaxSize internalMaxSize : Nat) (page : BPlusTreePage K V) :
    OperationType → Bool
  | .read => true
  | .insert => page.getSize < page.getMaxSize leafMaxSize internalMaxSize
  | .delete =>
      match page with
      | .leaf _ => page.getMinSize leafMaxSize internalMaxSize + 1 ≤ page.getSize
      | .internal _ => page.getMinSize leafMaxSize internalMaxSize + 1 < page.getSize

@[simp] theorem parentPageId_leaf (page : BPlusTreeLeafPage K V) :
    (BPlusTreePage.leaf page).parentPageId = page.parentPageId := rfl

@[simp] theorem parentPageId_internal (page : BPlusTreeInternalPage K) :
    (BPlusTreePage.internal (V := V) page).parentPageId = page.parentPageId := rfl

@[simp] theorem setParentPageId_leaf (parent : Int) (page : BPlusTreeLeafPage K V) :
    (BPlusTreePage.leaf page).setParentPageId parent =
      .leaf { page with parentPageId := parent } := rfl

@[simp] theorem setParentPageId_internal (parent : Int) (page : BPlusTreeInternalPage K) :
    (BPlusTreePage.internal (V := V) page).setParentPageId parent =
      .internal { page with parentPageId := parent } := rfl

@[simp] theorem getSize_leaf (page : BPlusTreeLeafPage K V) :
    (BPlusTreePage.leaf page).getSize = page.array.length := rfl

@[simp] theorem getSize_internal (page : BPlusTreeInternalPage K) :
    (BPlusTreePage.internal (V := V) page).getSize = page.array.length := rfl

@[simp] theorem getMaxSize_leaf (leafMaxSize internalMaxSize : Nat) (page : BPlusTreeLeafPage K V) :
    (BPlusTreePage.leaf page).getMaxSize leafMaxSize internalMaxSize = leafMaxSize := rfl

@[simp] theorem getMaxSize_internal (leafMaxSize internalMaxSize : Nat)
    (page : BPlusTreeInternalPage K) :
    (BPlusTreePage.internal (V := V) page).getMaxSize leafMaxSize internalMaxSize =
      internalMaxSize := rfl

@[simp] theorem getMinSize_leaf (leafMaxSize internalMaxSize : Nat) (page : BPlusTreeLeafPage K V) :
    (BPlusTreePage.leaf page).getMinSize leafMaxSize internalMaxSize =
      if page.parentPageId = invalidPageId then 1 else leafMaxSize / 2 := rfl

@[simp] theorem getMinSize_internal (leafMaxSize internalMaxSize : Nat)
    (page : BPlusTreeInternalPage K) :
    (BPlusTreePage.internal (V := V) page).getMinSize leafMaxSize internalMaxSize =
      if page.parentPageId = invalidPageId then 2 else internalMaxSize / 2 := rfl

@[simp] theorem parentPageId_setParentPageId (parent : Int) (page : BPlusTreePage K V) :
    (page.setParentPageId parent).parentPageId = parent := by
  cases page <;> rfl

@[simp] theorem getSize_setParentPageId (parent : Int) (page : BPlusTreePage K V) :
    (page.setParentPageId parent).getSize = page.getSize := by
  cases page <;> rfl

end BPlusTreePage

variable {K V : Type} [LinearOrder K] [Zero K]

/-- The key of slot `index`, or the zeroed key past the last slot. -/
def keyOf {α : Type} (array : List (K × α)) (index : Nat) : K :=
  (array.map Prod.fst).getD index 0

/-- The child of slot `index` of an internal page, or `INVALID_PAGE_ID` past the last slot. -/
def childOf (array : List (K × Int)) (index : Nat) : Int :=
  (array.map Prod.snd).getD index invalidPageId

theorem keyOf_eq_getElem {α : Type} {array : List (K × α)} {index : Nat}
    (inside : index < array.length) : keyOf array index = array[index].1 := by
  simp [keyOf, inside]

theorem childOf_eq_getElem {array : List (K × Int)} {index : Nat} (inside : index < array.length) :
    childOf array index = array[index].2 := by
  simp [childOf, inside]

/-- Slot keys of sorted slots are ordered as their slots are. -/
theorem keyOf_lt_keyOf {α : Type} {array : List (K × α)} (sorted : (array.map Prod.fst).Sorted (· < ·))
    {i j : Nat} (before : i < j) (inside : j < array.length) : keyOf array i < keyOf array j := by
  rw [keyOf_eq_getElem (by omega), keyOf_eq_getElem inside]
  have ordered := List.pairwise_iff_getElem.1 sorted i j (by simp; omega) (by simpa using inside) before
  simpa only [List.getElem_map] using ordered

theorem keyOf_le_keyOf {α : Type} {array : List (K × α)} (sorted : (array.map Prod.fst).Sorted (· < ·))
    {i j : Nat} (before : i ≤ j) (inside : j < array.length) : keyOf array i ≤ keyOf array j := by
  rcases Nat.lt_or_eq_of_le before with before | rfl
  · exact (keyOf_lt_keyOf sorted before inside).le
  · exact le_rfl

namespace BPlusTreeLeafPage

/-- The loop of `KeyIndex`: a binary search of slots `start ..= end` for the first key that is at
least `key`. The code's `while` becomes recursion on `rounds`, a bound on the rounds left that
`keyIndex` sets to one more than the slot count: every round shrinks `end + 1 - start`, so the
bound never runs out first (`keyIndexLoop_spec`). -/
def keyIndexLoop (array : List (K × V)) (key : K) : Nat → Int → Int → Int
  | 0, _, «end» => «end» + 1
  | rounds + 1, start, «end» =>
    if start ≤ «end» then
      let mid := («end» - start) / 2 + start
      if key ≤ keyOf array mid.toNat then keyIndexLoop array key rounds start (mid - 1)
      else keyIndexLoop array key rounds (mid + 1) «end»
    else «end» + 1

/-- `KeyIndex(key)`: the first slot whose key is at least `key`. -/
def keyIndex (page : BPlusTreeLeafPage K V) (key : K) : Int :=
  keyIndexLoop page.array key (page.array.length + 1) 0 (page.array.length - 1)

/-- `Lookup(key)`: the value stored under `key`, `none` when `Lookup` returns `false`. -/
def lookup (page : BPlusTreeLeafPage K V) (key : K) : Option V :=
  let idxToFind := page.keyIndex key
  if 0 ≤ idxToFind then
    match page.array[idxToFind.toNat]? with
    | some (found, value) => if found = key then some value else none
    | none => none
  else none

/-- `Insert(key, value)`: the entry goes in at `KeyIndex(key)`, the later slots move up one. -/
def insert (page : BPlusTreeLeafPage K V) (key : K) (value : V) : BPlusTreeLeafPage K V :=
  let idxToInsert := (page.keyIndex key).toNat
  { page with array := page.array.take idxToInsert ++ (key, value) :: page.array.drop idxToInsert }

/-- `RemoveAndDeleteRecord(key)`: delete the entry at `KeyIndex(key)` when it holds `key`. -/
def removeAndDeleteRecord (page : BPlusTreeLeafPage K V) (key : K) : BPlusTreeLeafPage K V :=
  let index := page.keyIndex key
  if (page.array.length : Int) ≤ index then page
  else if keyOf page.array index.toNat ≠ key then page
  else { page with array := page.array.eraseIdx index.toNat }

/-- `GetItem(index)`. -/
def getItem (page : BPlusTreeLeafPage K V) (index : Int) : Except String (K × V) :=
  match page.array[index.toNat]? with
  | some item => if 0 ≤ index then .ok item else .error "assert(index >= 0 && index < GetSize())"
  | none => .error "assert(index >= 0 && index < GetSize())"

/-- `KeyAt(index)`. -/
def keyAt (page : BPlusTreeLeafPage K V) (index : Int) : Except String K :=
  (page.getItem index).map Prod.fst

/-- `MoveHalfTo(recipient)` on a page holding `max_size + 1` entries: the slots from
`(max_size + 1) / 2` on go to `recipient`, which takes this page's place in the leaf chain. -/
def moveHalfTo (page recipient : BPlusTreeLeafPage K V) (recipientPageId : Int) (maxSize : Nat) :
    BPlusTreeLeafPage K V × BPlusTreeLeafPage K V :=
  let idxToCopy := (maxSize + 1) / 2
  ({ page with array := page.array.take idxToCopy, nextPageId := recipientPageId },
    { recipient with array := page.array.drop idxToCopy, nextPageId := page.nextPageId })

/-- `MoveAllTo(recipient)`: every entry goes to the end of `recipient`, which takes over this
page's next leaf. -/
def moveAllTo (page recipient : BPlusTreeLeafPage K V) :
    BPlusTreeLeafPage K V × BPlusTreeLeafPage K V :=
  ({ page with array := [] },
    { recipient with array := recipient.array ++ page.array, nextPageId := page.nextPageId })

/-- `CopyLastFrom(item)`. -/
def copyLastFrom (page : BPlusTreeLeafPage K V) (item : K × V) (maxSize : Nat) :
    Except String (BPlusTreeLeafPage K V) :=
  if page.array.length < maxSize then .ok { page with array := page.array ++ [item] }
  else .error "assert(pageSize < GetMaxSize())"


/-- The binary search of `KeyIndex` returns the boundary between the keys below `key` and the
others, given that it holds on the slots outside `start ..= end` and that `rounds` exceeds the
width of the range. -/
theorem keyIndexLoop_spec {array : List (K × V)} (key : K)
    (sorted : (array.map Prod.fst).Sorted (· < ·)) (rounds : Nat) (start «end» : Int)
    (nonneg : 0 ≤ start) (ordered : start ≤ «end» + 1) (inside : «end» < array.length)
    (enough : «end» + 1 - start < rounds)
    (below : ∀ i : Nat, (i : Int) < start → keyOf array i < key)
    (above : ∀ i : Nat, «end» < i → i < array.length → key ≤ keyOf array i) :
    start ≤ keyIndexLoop array key rounds start «end» ∧
      keyIndexLoop array key rounds start «end» ≤ «end» + 1 ∧
      (∀ i : Nat, (i : Int) < keyIndexLoop array key rounds start «end» → keyOf array i < key) ∧
      ∀ i : Nat, keyIndexLoop array key rounds start «end» ≤ i → i < array.length →
        key ≤ keyOf array i := by
  induction rounds generalizing start «end» with
  | zero => omega
  | succ rounds inductionHypothesis =>
    dsimp only [keyIndexLoop]
    split_ifs with searching atLeast
    · -- the key at `mid` is at least `key`: search `start ..= mid - 1`
      have ⟨low, high, belowResult, aboveResult⟩ := inductionHypothesis start ((«end» - start) / 2 + start - 1) nonneg (by omega)
        (by omega) (by omega) below fun i after inside' => by
          by_cases later : «end» < i
          · exact above i later inside'
          · exact atLeast.trans (keyOf_le_keyOf sorted (by omega) inside')
      exact ⟨low, by omega, belowResult, aboveResult⟩
    · -- the key at `mid` is below `key`: search `mid + 1 ..= end`
      have ⟨low, high, belowResult, aboveResult⟩ := inductionHypothesis ((«end» - start) / 2 + start + 1) «end»
        (by omega) (by omega) inside (by omega)
        (fun i before => by
          by_cases earlier : (i : Int) < start
          · exact below i earlier
          · exact lt_of_le_of_lt (keyOf_le_keyOf sorted (by omega) (by omega)) (not_le.1 atLeast))
        above
      exact ⟨by omega, high, belowResult, aboveResult⟩
    · exact ⟨by omega, le_rfl, fun i before => below i (by omega), fun i after => above i (by omega)⟩

/-- `KeyIndex` on sorted slots: the first slot whose key is at least `key`. -/
theorem keyIndex_spec {page : BPlusTreeLeafPage K V} (key : K)
    (sorted : (page.array.map Prod.fst).Sorted (· < ·)) :
    0 ≤ page.keyIndex key ∧ page.keyIndex key ≤ page.array.length ∧
      (∀ i : Nat, (i : Int) < page.keyIndex key → keyOf page.array i < key) ∧
      ∀ i : Nat, page.keyIndex key ≤ i → i < page.array.length → key ≤ keyOf page.array i := by
  have ⟨low, high, below, above⟩ := keyIndexLoop_spec key sorted (page.array.length + 1) 0
    (page.array.length - 1) le_rfl (by omega) (by omega) (by omega) (fun i negative => by omega)
    (fun i after inside => by omega)
  exact ⟨low, by simpa [keyIndex] using high, below, above⟩

theorem key_lt_of_mem_take {array : List (K × V)} {key : K} {n : Nat} {entry : K × V}
    (member : entry ∈ array.take n) (below : ∀ i : Nat, i < n → keyOf array i < key) :
    entry.1 < key := by
  obtain ⟨i, inside, rfl⟩ := List.mem_take_iff_getElem.1 member
  rw [← keyOf_eq_getElem]
  exact below i (by omega)

theorem key_le_of_mem_drop {array : List (K × V)} {key : K} {n : Nat} {entry : K × V}
    (member : entry ∈ array.drop n)
    (above : ∀ i : Nat, n ≤ i → i < array.length → key ≤ keyOf array i) : key ≤ entry.1 := by
  obtain ⟨i, inside, rfl⟩ := List.mem_drop_iff_getElem.1 member
  rw [← keyOf_eq_getElem]
  exact above _ (by omega) (by omega)

/-- The only slot of sorted slots that holds `key` is `KeyIndex(key)`. -/
theorem keyIndex_eq_of_keyOf_eq {page : BPlusTreeLeafPage K V}
    (sorted : (page.array.map Prod.fst).Sorted (· < ·)) {key : K} {j : Nat}
    (inside : j < page.array.length) (atKey : keyOf page.array j = key) :
    (page.keyIndex key).toNat = j := by
  obtain ⟨nonneg, -, below, above⟩ := keyIndex_spec key sorted
  have notBelow : ¬ (j : Int) < page.keyIndex key := fun before => (below j before).ne atKey
  have notAbove : ¬ page.keyIndex key < j := fun after =>
    (lt_of_le_of_lt (above (page.keyIndex key).toNat (by omega) (by omega))
      (keyOf_lt_keyOf sorted (by omega) inside)).ne' atKey
  omega

/-- `Lookup` on sorted slots finds exactly the stored entries. -/
theorem lookup_eq_some_iff {page : BPlusTreeLeafPage K V}
    (sorted : (page.array.map Prod.fst).Sorted (· < ·)) (key : K) (value : V) :
    page.lookup key = some value ↔ (key, value) ∈ page.array := by
  unfold lookup
  simp only [if_pos (keyIndex_spec key sorted).1]
  constructor
  · intro found
    split at found
    · rename_i stored value' slot
      split_ifs at found with same
      cases found; subst same
      exact List.getElem?_mem slot
    · cases found
  · intro member
    obtain ⟨j, inside, slot⟩ := List.mem_iff_getElem.1 member
    have index := keyIndex_eq_of_keyOf_eq sorted inside (by rw [keyOf_eq_getElem inside, slot])
    simp [index, List.getElem?_eq_getElem inside, slot]

theorem lookup_eq_none_iff {page : BPlusTreeLeafPage K V}
    (sorted : (page.array.map Prod.fst).Sorted (· < ·)) (key : K) :
    page.lookup key = none ↔ ∀ entry ∈ page.array, entry.1 ≠ key := by
  rw [Option.eq_none_iff_forall_not_mem]
  refine ⟨fun absent entry member same => absent entry.2 ?_, fun absent value found => ?_⟩
  · rw [Option.mem_def, lookup_eq_some_iff sorted, ← same]
    exact member
  · exact absent _ ((lookup_eq_some_iff sorted key value).1 found) rfl

/-- `Insert` of a key the page does not hold keeps the slots sorted and adds one entry. -/
theorem insert_spec {page : BPlusTreeLeafPage K V}
    (sorted : (page.array.map Prod.fst).Sorted (· < ·)) {key : K} (value : V)
    (absent : ∀ entry ∈ page.array, entry.1 ≠ key) :
    ((page.insert key value).array.map Prod.fst).Sorted (· < ·) ∧
      (∀ entry, entry ∈ (page.insert key value).array ↔ entry = (key, value) ∨ entry ∈ page.array) ∧
      (page.insert key value).array.length = page.array.length + 1 := by
  obtain ⟨nonneg, inside, below, above⟩ := keyIndex_spec key sorted
  set index := (page.keyIndex key).toNat
  have belowTake : ∀ entry ∈ page.array.take index, entry.1 < key :=
    fun entry member => key_lt_of_mem_take member fun i before => below i (by omega)
  have aboveDrop : ∀ entry ∈ page.array.drop index, key < entry.1 :=
    fun entry member => lt_of_le_of_ne (key_le_of_mem_drop member fun i after =>
      above i (by omega)) (absent entry (List.mem_of_mem_drop member)).symm
  refine ⟨?_, fun entry => ?_, ?_⟩
  · have takeSorted := sorted.sublist ((List.take_sublist index _).map Prod.fst)
    have dropSorted := sorted.sublist ((List.drop_sublist index _).map Prod.fst)
    simp only [insert, List.map_append, List.map_cons]
    refine List.pairwise_append.2 ⟨takeSorted, List.sorted_cons.2 ⟨?_, dropSorted⟩, ?_⟩
    · intro high member
      obtain ⟨entry, entryMember, rfl⟩ := List.mem_map.1 member
      exact aboveDrop entry entryMember
    · simp only [List.mem_map, List.mem_cons]
      rintro _ ⟨low, lowMember, rfl⟩ _ (same | ⟨high, highMember, rfl⟩)
      · exact same ▸ belowTake low lowMember
      · exact (belowTake low lowMember).trans (aboveDrop high highMember)
  · conv_rhs => rw [← List.take_append_drop index page.array]
    simp only [insert, List.mem_append, List.mem_cons]
    tauto
  · simp only [insert, List.length_append, List.length_take, List.length_cons, List.length_drop]
    omega

/-- `RemoveAndDeleteRecord` on sorted slots deletes the entry of `key`, if any. -/
theorem removeAndDeleteRecord_array {page : BPlusTreeLeafPage K V}
    (sorted : (page.array.map Prod.fst).Sorted (· < ·)) (key : K) :
    (page.removeAndDeleteRecord key).array = page.array.filter (fun entry => entry.1 ≠ key) := by
  obtain ⟨nonneg, inside, -, -⟩ := keyIndex_spec key sorted
  have only : ∀ j (inside : j < page.array.length), page.array[j].1 = key →
      (page.keyIndex key).toNat = j := fun j inside same =>
    keyIndex_eq_of_keyOf_eq sorted inside ((keyOf_eq_getElem inside).trans same)
  dsimp only [removeAndDeleteRecord]
  split_ifs with past differs
  · refine (List.filter_eq_self.2 fun entry member => ?_).symm
    obtain ⟨j, inside', rfl⟩ := List.mem_iff_getElem.1 member
    simpa using fun same => by have := only j inside' same; omega
  · refine (List.filter_eq_self.2 fun entry member => ?_).symm
    obtain ⟨j, inside', rfl⟩ := List.mem_iff_getElem.1 member
    simpa using fun same => differs (by rw [only j inside' same, keyOf_eq_getElem inside', same])
  · have inside' : (page.keyIndex key).toNat < page.array.length := by omega
    have atKey : page.array[(page.keyIndex key).toNat].1 = key := by
      rw [← keyOf_eq_getElem inside']; exact not_not.1 differs
    rw [List.eraseIdx_eq_take_drop_succ]
    conv_rhs => rw [← List.take_append_drop (page.keyIndex key).toNat page.array,
      List.drop_eq_getElem_cons inside']
    rw [List.filter_append, List.filter_cons_of_neg (by simpa using atKey)]
    show _ ++ _ = _ ++ _
    congr 1 <;> refine (List.filter_eq_self.2 fun entry member => ?_).symm
    · obtain ⟨j, inside'', rfl⟩ := List.mem_take_iff_getElem.1 member
      simpa using fun same => by have := only j (by omega) same; omega
    · obtain ⟨j, inside'', rfl⟩ := List.mem_drop_iff_getElem.1 member
      simpa using fun same => by have := only (_ + 1 + j) (by omega) same; omega

theorem removeAndDeleteRecord_eq {page : BPlusTreeLeafPage K V}
    (sorted : (page.array.map Prod.fst).Sorted (· < ·)) (key : K) :
    page.removeAndDeleteRecord key =
      { page with array := page.array.filter (fun entry => entry.1 ≠ key) } := by
  rw [← removeAndDeleteRecord_array sorted key]
  dsimp only [removeAndDeleteRecord]
  split_ifs <;> rfl

/-- **`KeyIndex` is a lower-bound search.** On a leaf whose keys ascend, `KeyIndex(key)` is the
least slot `i ≤ GetSize()` such that `i = GetSize()` or the key of `i` is at least `key`, and the
methods built on it act on the ascending entries as a sorted map does: `Lookup(key)` finds exactly
the entry of `key`, `Insert` of an absent `key` adds `(key, value)` in its place, and
`RemoveAndDeleteRecord(key)` takes the entry of `key` out, leaving the page as it is when there is
none. -/
theorem keyIndex_lower_bound (page : BPlusTreeLeafPage K V)
    (sorted : (page.array.map Prod.fst).Sorted (· < ·)) (key : K) :
    (∃ i : Nat, page.keyIndex key = i ∧ i ≤ page.array.length ∧
      (i = page.array.length ∨ key ≤ keyOf page.array i) ∧ ∀ j < i, keyOf page.array j < key) ∧
    (∀ value, page.lookup key = some value ↔ (key, value) ∈ page.array) ∧
    (page.lookup key = none ↔ key ∉ page.array.map Prod.fst) ∧
    (key ∉ page.array.map Prod.fst → ∀ value : V,
      ((page.insert key value).array.map Prod.fst).Sorted (· < ·) ∧
        (page.insert key value).array.Perm ((key, value) :: page.array)) ∧
    (page.removeAndDeleteRecord key).array = page.array.filter (fun entry => entry.1 ≠ key) ∧
    (key ∉ page.array.map Prod.fst → page.removeAndDeleteRecord key = page) := by
  obtain ⟨nonneg, atMost, below, above⟩ := keyIndex_spec key sorted
  have absentIff : key ∉ page.array.map Prod.fst ↔ ∀ entry ∈ page.array, entry.1 ≠ key := by
    simp only [List.mem_map, not_exists, not_and, ne_eq]
  refine ⟨⟨(page.keyIndex key).toNat, by omega, by omega, ?_, fun j before => below j (by omega)⟩,
    lookup_eq_some_iff sorted key, (lookup_eq_none_iff sorted key).trans absentIff.symm,
    fun absent value => ⟨(insert_spec sorted value (absentIff.1 absent)).1,
      List.perm_middle.trans (by rw [List.take_append_drop])⟩,
    removeAndDeleteRecord_array sorted key, fun absent => ?_⟩
  · rcases Nat.lt_or_ge (page.keyIndex key).toNat page.array.length with inside | last
    · exact .inr (above _ (by omega) inside)
    · exact .inl (by omega)
  · rw [removeAndDeleteRecord_eq sorted,
      List.filter_eq_self.2 fun entry member => by simpa using absentIff.1 absent entry member]

/-- On the leaf of keys 1 and 3, `KeyIndex(2)` is slot 1 and `Lookup(2)` finds nothing. -/
theorem keyIndex_lower_bound_two_keys :
    (⟨invalidPageId, invalidPageId, [(1, 10), (3, 30)]⟩ : BPlusTreeLeafPage Nat Nat).keyIndex 2 = 1 ∧
      (⟨invalidPageId, invalidPageId, [(1, 10), (3, 30)]⟩ : BPlusTreeLeafPage Nat Nat).lookup 2 =
        none := by
  obtain ⟨⟨i, index, atMost, atLeast, below⟩, -, missing, -⟩ := keyIndex_lower_bound
    (⟨invalidPageId, invalidPageId, [(1, 10), (3, 30)]⟩ : BPlusTreeLeafPage Nat Nat) (by decide) 2
  refine ⟨?_, missing.2 (by decide)⟩
  obtain rfl | rfl | rfl : i = 0 ∨ i = 1 ∨ i = 2 := by simp at atMost; omega
  · simp [keyOf] at atLeast
  · exact index
  · exact absurd (below 1 (by decide)) (by decide)
end BPlusTreeLeafPage

namespace BPlusTreeInternalPage

/-- The loop of internal `Lookup`: a binary search of slots `start ..= end` for the first key
above `key`, on a bound `rounds` of the rounds left as in `keyIndexLoop`. -/
def lookupLoop (array : List (K × Int)) (key : K) : Nat → Int → Int → Int
  | 0, start, _ => start
  | rounds + 1, start, «end» =>
    if start ≤ «end» then
      let mid := («end» - start) / 2 + start
      if keyOf array mid.toNat ≤ key then lookupLoop array key rounds (mid + 1) «end»
      else lookupLoop array key rounds start (mid - 1)
    else start

/-- `Lookup(key)`: the child of the last slot from 1 on whose key is at most `key`, slot 0's
child when there is none. -/
def lookup (page : BPlusTreeInternalPage K) (key : K) : Except String Int :=
  if page.array.length ≤ 1 then .error "assert(pageSize > 1)"
  else
    let start := lookupLoop page.array key page.array.length 1 (page.array.length - 1)
    .ok (childOf page.array (start - 1).toNat)

/-- `ValueIndex(value)`: the first slot holding child `value`, `-1` when none does. -/
def valueIndex (page : BPlusTreeInternalPage K) (value : Int) : Int :=
  match page.array.findIdx? (·.2 = value) with
  | some index => index
  | none => -1

/-- `ValueAt(index)`. -/
def valueAt (page : BPlusTreeInternalPage K) (index : Int) : Except String Int :=
  match page.array[index.toNat]? with
  | some slot => if 0 ≤ index then .ok slot.2 else .error "assert(index >= 0 && index < GetSize())"
  | none => .error "assert(index >= 0 && index < GetSize())"

/-- `KeyAt(index)`. -/
def keyAt (page : BPlusTreeInternalPage K) (index : Int) : Except String K :=
  match page.array[index.toNat]? with
  | some slot => if 0 ≤ index then .ok slot.1 else .error "assert(index >= 0 && index < GetSize())"
  | none => .error "assert(index >= 0 && index < GetSize())"

/-- `SetKeyAt(index, key)`. -/
def setKeyAt (page : BPlusTreeInternalPage K) (index : Int) (key : K) :
    Except String (BPlusTreeInternalPage K) :=
  if 0 ≤ index ∧ index < page.array.length then
    .ok { page with array := page.array.modify (fun slot => (key, slot.2)) index.toNat }
  else .error "assert(index >= 0 && index < GetSize())"

/-- `InsertNodeAfter(old_value, new_key, new_value)`: the new slot goes right after the slot of
`old_value`. -/
def insertNodeAfter (page : BPlusTreeInternalPage K) (oldValue : Int) (newKey : K)
    (newValue : Int) : Except String (BPlusTreeInternalPage K) :=
  let indexPosToInsert := page.valueIndex oldValue + 1
  if 0 < indexPosToInsert then
    let index := indexPosToInsert.toNat
    .ok { page with array := page.array.take index ++ (newKey, newValue) :: page.array.drop index }
  else .error "assert(indexPosToInsert > 0)"

/-- `Remove(index)`: the later slots move down one. -/
def remove (page : BPlusTreeInternalPage K) (index : Int) :
    Except String (BPlusTreeInternalPage K) :=
  if 0 ≤ index ∧ index < page.array.length then
    .ok { page with array := page.array.eraseIdx index.toNat }
  else .error "assert(index >= 0 && index < curPageSize)"

/-- `RemoveAndReturnOnlyChild()`: the child of slot 0, and the page one slot shorter. -/
def removeAndReturnOnlyChild (page : BPlusTreeInternalPage K) :
    Except String (Int × BPlusTreeInternalPage K) := do
  let res ← page.valueAt 0
  pure (res, { page with array := page.array.dropLast })

/-- `CopyLastFrom(pair)`. -/
def copyLastFrom (page : BPlusTreeInternalPage K) (pair : K × Int) (maxSize : Nat) :
    Except String (BPlusTreeInternalPage K) :=
  if page.array.length < maxSize then .ok { page with array := page.array ++ [pair] }
  else .error "assert(pageSize < GetMaxSize())"


/-- The binary search of internal `Lookup` returns the boundary between the keys of slots `1..`
that are at most `key` and the others, given that it holds outside `start ..= end` and that
`rounds` exceeds the width of the range. -/
theorem lookupLoop_spec {array : List (K × Int)} (key : K)
    (sorted : ∀ i j : Nat, 1 ≤ i → i < j → j < array.length → keyOf array i < keyOf array j)
    (rounds : Nat) (start «end» : Int) (positive : 1 ≤ start) (ordered : start ≤ «end» + 1)
    (inside : «end» < array.length) (enough : «end» + 1 - start < rounds)
    (below : ∀ i : Nat, 1 ≤ i → (i : Int) < start → keyOf array i ≤ key)
    (above : ∀ i : Nat, «end» < i → i < array.length → key < keyOf array i) :
    start ≤ lookupLoop array key rounds start «end» ∧
      lookupLoop array key rounds start «end» ≤ «end» + 1 ∧
      (∀ i : Nat, 1 ≤ i → (i : Int) < lookupLoop array key rounds start «end» →
        keyOf array i ≤ key) ∧
      ∀ i : Nat, lookupLoop array key rounds start «end» ≤ i → i < array.length →
        key < keyOf array i := by
  induction rounds generalizing start «end» with
  | zero => omega
  | succ rounds inductionHypothesis =>
    dsimp only [lookupLoop]
    split_ifs with searching atMost
    · -- the key at `mid` is at most `key`: search `mid + 1 ..= end`
      have ⟨low, high, belowResult, aboveResult⟩ := inductionHypothesis ((«end» - start) / 2 + start + 1) «end»
        (by omega) (by omega) inside (by omega)
        (fun i first before => by
          by_cases earlier : (i : Int) < start
          · exact below i first earlier
          · rcases Nat.lt_or_eq_of_le (show i ≤ ((«end» - start) / 2 + start).toNat by omega)
              with earlier' | same
            · exact ((sorted i _ first earlier' (by omega)).trans_le atMost).le
            · exact same ▸ atMost)
        above
      exact ⟨by omega, high, belowResult, aboveResult⟩
    · -- the key at `mid` is above `key`: search `start ..= mid - 1`
      have ⟨low, high, belowResult, aboveResult⟩ := inductionHypothesis start ((«end» - start) / 2 + start - 1) positive
        (by omega) (by omega) (by omega) below fun i after inside' => by
          by_cases later : «end» < i
          · exact above i later inside'
          · rcases Nat.lt_or_eq_of_le (show ((«end» - start) / 2 + start).toNat ≤ i by omega)
              with later' | same
            · exact (not_le.1 atMost).trans (sorted _ i (by omega) later' inside')
            · exact same ▸ not_le.1 atMost
      exact ⟨low, by omega, belowResult, aboveResult⟩
    · exact ⟨le_rfl, by omega, fun i _ before => below i (by omega) before,
        fun i after => above i (by omega)⟩

/-- Internal `Lookup` on a page of at least two slots whose keys from slot 1 on ascend: the child
of the last slot `j` such that `j = 0` or the key of `j` is at most `key`. -/
theorem lookup_spec {page : BPlusTreeInternalPage K} (key : K)
    (sorted : ∀ i j : Nat, 1 ≤ i → i < j → j < page.array.length →
      keyOf page.array i < keyOf page.array j)
    (twoSlots : 2 ≤ page.array.length) :
    ∃ j < page.array.length, page.lookup key = .ok (childOf page.array j) ∧
      (∀ i : Nat, 1 ≤ i → i ≤ j → keyOf page.array i ≤ key) ∧
      ∀ i : Nat, j < i → i < page.array.length → key < keyOf page.array i := by
  have ⟨low, high, below, above⟩ := lookupLoop_spec key sorted page.array.length 1
    (page.array.length - 1) le_rfl (by omega) (by omega) (by omega) (fun i first before => by omega)
    (fun i after inside => by omega)
  refine ⟨(lookupLoop page.array key page.array.length 1 (page.array.length - 1) - 1).toNat, by omega, ?_,
    fun i first before => below i first (by omega), fun i after => above i (by omega)⟩
  simp only [lookup]
  rw [if_neg (by omega)]

/-- `ValueIndex` of the child of slot `j`, when no two slots hold the same child. -/
theorem valueIndex_getElem {page : BPlusTreeInternalPage K}
    (distinct : (page.array.map Prod.snd).Nodup) {j : Nat} (inside : j < page.array.length) :
    page.valueIndex page.array[j].2 = j := by
  have found : page.array.findIdx? (·.2 = page.array[j].2) = some j := by
    refine List.findIdx?_eq_some_iff_getElem.2 ⟨inside, by simp, fun i before same => ?_⟩
    have differs := List.pairwise_iff_getElem.1 distinct i j (by simp; omega)
      (by simpa using inside) before
    simp only [List.getElem_map] at differs
    exact differs (by simpa using same)
  simp [valueIndex, found]

theorem valueIndex_of_not_mem {page : BPlusTreeInternalPage K} {value : Int}
    (absent : ∀ slot ∈ page.array, slot.2 ≠ value) : page.valueIndex value = -1 := by
  have missing : page.array.findIdx? (·.2 = value) = none :=
    List.findIdx?_eq_none_iff.2 fun slot member => by simpa using absent slot member
  simp [valueIndex, missing]

/-- `InsertNodeAfter` when the slot of `oldValue` is `j` and no two slots hold the same child. -/
theorem insertNodeAfter_getElem {page : BPlusTreeInternalPage K}
    (distinct : (page.array.map Prod.snd).Nodup) {j : Nat} (inside : j < page.array.length)
    (newKey : K) (newValue : Int) :
    page.insertNodeAfter page.array[j].2 newKey newValue = .ok { page with
      array := page.array.take (j + 1) ++ (newKey, newValue) :: page.array.drop (j + 1) } := by
  simp only [insertNodeAfter, valueIndex_getElem distinct inside]
  rw [if_pos (by omega)]
  rfl

/-- **Internal `Lookup` picks the child whose interval holds `key`.** On a page of at least two
slots whose keys from slot 1 on ascend, `Lookup(key)` returns `array[i].second` for the greatest
slot `i` such that `i = 0` or the key of `i` is at most `key`: every later slot's key is above
`key`, so `key` lies in `[k_i, k_{i+1})`. -/
theorem lookup_greatest_at_most (page : BPlusTreeInternalPage K) (twoSlots : 2 ≤ page.array.length)
    (sorted : ∀ i j : Nat, 1 ≤ i → i < j → j < page.array.length →
      keyOf page.array i < keyOf page.array j) (key : K) :
    ∃ (i : Nat) (inside : i < page.array.length), page.lookup key = .ok page.array[i].2 ∧
      (i = 0 ∨ keyOf page.array i ≤ key) ∧
      ∀ j, i < j → j < page.array.length → key < keyOf page.array j := by
  obtain ⟨i, inside, found, below, above⟩ := lookup_spec key sorted twoSlots
  refine ⟨i, inside, childOf_eq_getElem inside ▸ found, ?_, above⟩
  rcases Nat.eq_zero_or_pos i with first | later
  · exact .inl first
  · exact .inr (below i later le_rfl)

/-- On the page of children 5, 6 and 7 split at keys 10 and 20, `Lookup(15)` is child 6. -/
theorem lookup_greatest_at_most_three_children :
    (⟨invalidPageId, [(0, 5), (10, 6), (20, 7)]⟩ : BPlusTreeInternalPage Nat).lookup 15 = .ok 6 := by
  obtain ⟨i, inside, found, atMost, above⟩ := lookup_greatest_at_most
    (⟨invalidPageId, [(0, 5), (10, 6), (20, 7)]⟩ : BPlusTreeInternalPage Nat) (by decide)
    (fun i j first before inside => by
      obtain ⟨rfl, rfl⟩ : i = 1 ∧ j = 2 := by simp at inside; omega
      decide) 15
  obtain rfl | rfl | rfl : i = 0 ∨ i = 1 ∨ i = 2 := by simp at inside; omega
  · exact absurd (above 1 (by decide) (by decide)) (by decide)
  · exact found
  · simp [keyOf] at atMost
end BPlusTreeInternalPage


end ScuDb.Index
