import ScuDb.Index.Scan
import ScuDb.Buffer.NoLostWrite

/-!
Contract: the integrity check of the project2 `BPlusTree`
(src/project/project2/scudb_initial/src/index/b_plus_tree.cpp): `isBalanced`, `isPageCorr` and
`Check`, modelled from their source, and what the two checks return on the trees the operations
reach when they read the tree's own store. `isBalanced(pid)` is the height of `pid` on every page
of such a tree, and `isPageCorr` finds no problem in page order or page size. On such a tree
`IsEmpty()` is `true` exactly when the tree holds no key.

Owns: the pool the checks call (`PagePool`), with the tree's store (`BPlusTree.storePool`) and the
project2 `BufferPoolManager` (`bufferPool`) as its two instances; the two recursive checks with
their loops, written once over any pool; `Check` over the `BufferPoolManager`; and what the checks
return over the store on linked trees (`Linked.isBalanced_eq`, `Linked.isPageCorr_eq`).

Does not own: the checks run over the `BufferPoolManager`, and what `Check(true)` returns there
(`ScuDb.Index.PoolCheck`); `CheckAllUnpined()` itself
(`ScuDb.Buffer.BufferPoolManager.checkAllUnpined`).

## Why the checks pass

`isBalanced` returns `0` on a leaf and one more than its first child on an internal page whose
children all agree; on a linked tree every child sits one level down, so it returns the height of
the layout. `isPageCorr` returns a page's first and last key; the check at slot `i` asks the last
key of child `i - 1` to be below `KeyAt(i)` and the first key of child `i` to be at least
`KeyAt(i)`. A leaf's keys lie in its interval, an internal page's last key is a separator inside
its interval, and its first key is its lower bound when it has one (`firstKey`), which is all
slot `i ≥ 1` asks of its child.
-/

set_option linter.unusedSectionVars false

namespace ScuDb.Index

open ScuDb.Buffer (invalidPageId BufferPoolManager)

variable {K V : Type} [LinearOrder K] [Zero K]

/-! ## The pool the checks fetch through -/

/-- What the checks call on `buffer_pool_manager_`, in the monad `m` of the pool:
`FetchPage(pid)` as the page its frame holds, `none` for `nullptr`, and `UnpinPage(pid, false)`. -/
structure PagePool (m : Type → Type) (K V : Type) where
  fetchPage : Int → m (Option (BPlusTreePage K V))
  unpinPage : Int → m Unit

/-- The tree's own store as a pool that never fails: `FetchPage` returns the page the tree holds
and `UnpinPage` changes nothing. -/
def BPlusTree.storePool (t : BPlusTree K V) : PagePool (Except String) K V where
  fetchPage pid := (t.fetchPage pid).map some
  unpinPage _ := pure ()

/-- A zeroed frame read as a tree page: `page_type_` 0 is not `LEAF_PAGE`, so the frame reads as
an internal page, with parent page id 0 and no entries. -/
instance : Zero (BPlusTreePage K V) := ⟨.internal ⟨0, []⟩⟩

/-- The project2 `BufferPoolManager` whose frames hold tree pages: `FetchPage` pins a frame and
returns the page in it, `UnpinPage(pid, false)` drops the pin. -/
def bufferPool : PagePool (StateT (BufferPoolManager (BPlusTreePage K V)) (Except String)) K V where
  fetchPage pid s := (s.fetchPage pid).map fun (s, frame) => (frame.map fun f => (s.pages f).data, s)
  unpinPage pid s := (s.unpinPage pid false).map fun (s, _) => ((), s)

theorem bufferPool_fetchPage_run (pageId : Int) (s : BufferPoolManager (BPlusTreePage K V)) :
    (bufferPool.fetchPage pageId).run s =
      (s.fetchPage pageId).map fun (s, frame) => (frame.map fun f => (s.pages f).data, s) := rfl

theorem bufferPool_unpinPage_run (pageId : Int) (s : BufferPoolManager (BPlusTreePage K V)) :
    (bufferPool.unpinPage pageId).run s = (s.unpinPage pageId false).map fun (s, _) => ((), s) :=
  rfl

/-- `if (node == nullptr) throw Exception(..., message)` after `FetchPage`. -/
def fetched (message : String) : Option (BPlusTreePage K V) → Except String (BPlusTreePage K V)
  | some node => .ok node
  | none => .error message

namespace BPlusTree

/-! ## The checks -/

section Checks

variable {m : Type → Type} [Monad m] [MonadLiftT (Except String) m]

/-- The loop of `isBalanced` on an internal page: slots `i, i + 1, …`, `n` of them left, with
the `last` height seen (`-2` before the first child) and `ret`; `check` is the recursive call on
a child. -/
def isBalancedLoop (check : Int → m Int) (page : BPlusTreeInternalPage K) :
    Nat → Nat → Int → Int → m Int
  | 0, _, _, ret => pure ret
  | n + 1, i, last, ret => do
      let cur ← check (← page.valueAt i)
      if 0 ≤ cur ∧ last = -2 then isBalancedLoop check page n (i + 1) cur (cur + 1)
      else if cur ≠ last then pure (-1)
      else isBalancedLoop check page n (i + 1) last ret

/-- What both checks do with a page: `FetchPage(pid)`, the exception with `message` on `nullptr`,
`body` on the page, then `UnpinPage(pid, false)` and the result of `body`. -/
def withPage {α : Type} (pool : PagePool m K V) (message : String) (pid : Int)
    (body : BPlusTreePage K V → m α) : m α := do
  let node ← fetched message (← pool.fetchPage pid)
  let ret ← body node
  pool.unpinPage pid
  pure ret

/-- `isBalanced(pid)`: `0` on a leaf; on an internal page one more than the height of its
children when they all return the same height, `-1` when they do not; `true`, that is `1`, on the
empty tree. Each page is fetched from `pool` and unpinned clean once its children are checked. It
goes one level a pass, with `fuel` passes. -/
def isBalanced (t : BPlusTree K V) (pool : PagePool m K V) : Nat → Int → m Int
  | 0, _ => monadLift (Except.error "isBalanced ran out of passes" : Except String Int)
  | fuel + 1, pid =>
      if t.isEmpty then pure 1
      else withPage pool "all page are pinned while isBalanced" pid fun
        | .leaf _ => pure 0
        | .internal page => isBalancedLoop (t.isBalanced pool fuel) page page.array.length 0 (-2) 0

/-- The loop of `isPageCorr` on a leaf: keys `i, i + 1, …`, `n` of them left; `false` at the first
key below the key before it. -/
def isPageCorrLeafLoop (page : BPlusTreeLeafPage K V) : Nat → Nat → Bool → Except String Bool
  | 0, _, ret => pure ret
  | n + 1, i, ret => do
      let before ← page.keyAt ((i : Int) - 1)
      let key ← page.keyAt i
      if key < before then pure false else isPageCorrLeafLoop page n (i + 1) ret

/-- `ret = ret && isPageCorr(pid, out)`: the call, and the read of `pid`, are made only while
`ret` holds; `check` is the call. -/
def andCheck (check : Int → K × K → m (Bool × K × K)) (ret : Bool)
    (pid : Except String Int) (out : K × K) : m (Bool × K × K) :=
  if ret then do check (← pid) out else pure (false, out)

/-- The body of the loop of `isPageCorr` on an internal page at slot `i`: the child of slot 0
checked into `left` when `i = 1`, the child of slot `i` into `right`, then `KeyAt(i)` against the
last key of `left` and the first key of `right`, and against `KeyAt(i - 1)` from slot 2 on. -/
def isPageCorrStep (check : Int → K × K → m (Bool × K × K))
    (page : BPlusTreeInternalPage K) (i : Nat) (ret : Bool) (left right : K × K) :
    m (Bool × (K × K) × (K × K)) := do
  let (ret, left) ← (if i = 1 then andCheck check ret (page.valueAt 0) left else pure (ret, left))
  let (ret, right) ← andCheck check ret (page.valueAt i) right
  let ret ← (if ret then do
      let key ← page.keyAt i
      pure (decide (left.2 < key ∧ key ≤ right.1)) else pure false : Except String Bool)
  let ret ← (if ret ∧ i ≠ 1 then do
      let before ← page.keyAt ((i : Int) - 1)
      pure (decide (before < (← page.keyAt i))) else pure ret : Except String Bool)
  pure (ret, left, right)

/-- The loop of `isPageCorr` on an internal page: slots `i, i + 1, …`, `n` of them left, with
`ret` and the `out` pairs `left` and `right` of the children before and at slot `i`; it breaks
when `ret` fails, and `left = right` carries the bounds on. -/
def isPageCorrLoop (check : Int → K × K → m (Bool × K × K))
    (page : BPlusTreeInternalPage K) : Nat → Nat → Bool → K × K → K × K → m Bool
  | 0, _, ret, _, _ => pure ret
  | n + 1, i, ret, left, right =>
      isPageCorrStep check page i ret left right >>= fun (ret, _, right) =>
        if ret then isPageCorrLoop check page n (i + 1) ret right right else pure false

/-- `isPageCorr(pid, out)`: whether every page below `pid` holds between `GetMinSize()` and
`GetMaxSize()` entries with its keys in order, each child's keys on the right side of the
separators around it, with the page's first and last key as the new `out`; `true` with `out` as
it was on the empty tree. Each page is fetched from `pool` and unpinned clean once it is checked.
It goes one level a pass, with `fuel` passes. -/
def isPageCorr (t : BPlusTree K V) (pool : PagePool m K V) : Nat → Int → K × K → m (Bool × K × K)
  | 0, _, _ => monadLift (Except.error "isPageCorr ran out of passes" : Except String (Bool × K × K))
  | fuel + 1, pid, out =>
      if t.isEmpty then pure (true, out)
      else withPage pool "all page are pinned while isPageCorr" pid fun node =>
        let sized := decide (node.getMinSize t.leafMaxSize t.internalMaxSize ≤ node.getSize ∧
          node.getSize ≤ node.getMaxSize t.leafMaxSize t.internalMaxSize)
        match node with
        | .leaf page => do
            let ret ← isPageCorrLeafLoop page (page.array.length - 1) 1 sized
            pure (ret, ← page.keyAt 0, ← page.keyAt ((page.array.length : Int) - 1))
        | .internal page => do
            let ret ← isPageCorrLoop (t.isPageCorr pool fuel) page (page.array.length - 1) 1 sized
              (0, 0) (0, 0)
            pure (ret, ← page.keyAt 0, ← page.keyAt ((page.array.length : Int) - 1))

end Checks

/-- `Check(forceCheck)` over the buffer pool: `true` at once unless `forceCheck` or `openCheck`
is set; else whether `isPageCorr` and `isBalanced` pass from the root and then
`CheckAllUnpined()` holds of the pool. -/
def check (t : BPlusTree K V) (forceCheck openCheck : Bool) :
    StateT (BufferPoolManager (BPlusTreePage K V)) (Except String) Bool :=
  if !forceCheck && !openCheck then pure true
  else do
    let (isPageInOrderAndSizeCorr, _) ← t.isPageCorr bufferPool t.fuel t.rootPageId (0, 0)
    let isBal := decide (0 ≤ (← t.isBalanced bufferPool t.fuel t.rootPageId))
    let isAllUnpin := (← get).checkAllUnpined
    pure (isPageInOrderAndSizeCorr && isBal && isAllUnpin)

theorem storePool_fetchPage {t : BPlusTree K V} {pageId : Int} {page : BPlusTreePage K V}
    (stored : t.pages pageId = some page) : t.storePool.fetchPage pageId = .ok (some page) := by
  simp [storePool, fetchPage_eq stored, Except.map]

/-- Over the tree's store, a page's check is its body on the page the tree holds. -/
theorem withPage_storePool {t : BPlusTree K V} {pageId : Int} {page : BPlusTreePage K V}
    (stored : t.pages pageId = some page) {α : Type} (message : String)
    (body : BPlusTreePage K V → Except String α) :
    withPage t.storePool message pageId body = body page := by
  simp only [withPage, storePool_fetchPage stored, monadLift_self, fetched, bind, Except.bind]
  cases body page <;> rfl

end BPlusTree

/-! ## `isBalanced` returns the height -/

section Balanced

variable {t : BPlusTree K V} {place : Int → Place K}

/-- A page of a linked tree makes the tree not empty. -/
theorem Linked.not_isEmpty (linked : Linked t place) {pageId : Int}
    (present : t.pages pageId ≠ none) : ¬ t.isEmpty = true := by
  simpa [BPlusTree.isEmpty] using linked.ne_invalid (linked.root_present present)

/-- A linked tree that is not empty stores its root. -/
theorem Linked.root_stored (linked : Linked t place) (nonempty : t.rootPageId ≠ invalidPageId) :
    t.pages t.rootPageId ≠ none := by
  rcases linked.root with ⟨empty, -⟩ | ⟨present, -⟩
  · exact absurd empty nonempty
  · exact present

/-- An internal page of a linked tree has a child: its separator chain is not empty. -/
theorem InternalPlaced.length_pos {pageId : Int} {node : BPlusTreeInternalPage K}
    (placed : InternalPlaced t place pageId node) : 0 < node.array.length :=
  List.length_pos.2 fun empty => fence_nil _ _ (empty ▸ placed.fence)

/-- Once the first child has returned `h`, slots whose children all return `h` keep `ret`. -/
theorem isBalancedLoop_same {check : Int → Except String Int} {page : BPlusTreeInternalPage K}
    {h : Int} (nonneg : 0 ≤ h) :
    ∀ n i, (∀ j, i ≤ j → j < i + n → ∃ inside : j < page.array.length,
      check page.array[j].2 = .ok h) →
      BPlusTree.isBalancedLoop check page n i h (h + 1) = .ok (h + 1)
  | 0, _, _ => rfl
  | n + 1, i, children => by
      obtain ⟨inside, found⟩ := children i le_rfl (by omega)
      have notFirst : ¬ (0 ≤ h ∧ h = -2) := fun ⟨_, first⟩ => by omega
      simp only [BPlusTree.isBalancedLoop, BPlusTreeInternalPage.valueAt_eq inside, found, bind,
        Except.bind, pure, Except.pure, if_neg notFirst, ne_eq, not_true_eq_false, if_false,
        monadLift_self]
      exact isBalancedLoop_same nonneg n (i + 1) fun j after before =>
        children j (by omega) (by omega)

/-- A page whose children all return `h ≥ 0` gets `h + 1`. -/
theorem isBalancedLoop_eq {check : Int → Except String Int} {page : BPlusTreeInternalPage K}
    {h : Int} (nonneg : 0 ≤ h) (nonempty : 0 < page.array.length)
    (children : ∀ j (inside : j < page.array.length), check page.array[j].2 = .ok h) :
    BPlusTree.isBalancedLoop check page page.array.length 0 (-2) 0 = .ok (h + 1) := by
  obtain ⟨n, length⟩ : ∃ n, page.array.length = n + 1 := ⟨_, (Nat.succ_pred_eq_of_pos nonempty).symm⟩
  rw [length]
  simp only [BPlusTree.isBalancedLoop, BPlusTreeInternalPage.valueAt_eq nonempty,
    children 0 nonempty, bind, Except.bind, and_true, if_pos nonneg, monadLift_self]
  exact isBalancedLoop_same nonneg n 1 fun j _ before => ⟨by omega, children j (by omega)⟩

/-- **`isBalanced` returns the height.** On a linked tree, `isBalanced(pid)` with more passes
than `pid`'s height returns that height. -/
theorem Linked.isBalanced_eq (linked : Linked t place) :
    ∀ fuel {pageId : Int} {page : BPlusTreePage K V}, t.pages pageId = some page →
      (place pageId).height < fuel →
        t.isBalanced t.storePool fuel pageId = .ok ((place pageId).height : Int)
  | 0, _, _, _, short => absurd short (Nat.not_lt_zero _)
  | fuel + 1, pageId, page, stored, short => by
      have nonempty := linked.not_isEmpty (show t.pages pageId ≠ none by simp [stored])
      rw [BPlusTree.isBalanced, if_neg nonempty, BPlusTree.withPage_storePool stored]
      cases page with
      | leaf leaf => simp [(linked.leaf _ _ stored).height, pure, Except.pure]
      | internal node =>
          have placed := linked.internal _ _ stored
          have slots := placed.length_pos
          have below : ((place pageId).height : Int) = ((place pageId).height - 1 : Nat) + 1 := by
            have := placed.height; omega
          have loop : BPlusTree.isBalancedLoop (t.isBalanced t.storePool fuel) node node.array.length
              0 (-2) 0 = .ok ((place pageId).height : Int) := by
            rw [below]
            refine isBalancedLoop_eq (Int.natCast_nonneg _) slots fun j inside => ?_
            obtain ⟨_, found, -, height⟩ := linked.child stored (mem_children_of_getElem inside)
            rw [Linked.isBalanced_eq linked fuel found (by omega)]
            congr 2
            omega
          simp only [loop, pure, Except.pure]

end Balanced

/-! ## `isPageCorr` passes -/

section PageCorr

theorem BPlusTreeInternalPage.valueAt_childOf {page : BPlusTreeInternalPage K} {j : Nat}
    (inside : j < page.array.length) : page.valueAt j = .ok (childOf page.array j) := by
  rw [BPlusTreeInternalPage.valueAt_eq inside, childOf_eq_getElem inside]

theorem BPlusTreeInternalPage.keyAt_keyOf {page : BPlusTreeInternalPage K} {j : Nat}
    (inside : j < page.array.length) : page.keyAt j = .ok (keyOf page.array j) := by
  rw [BPlusTreeInternalPage.keyAt_eq inside, keyOf_eq_getElem inside]

theorem BPlusTreeLeafPage.keyAt_keyOf {page : BPlusTreeLeafPage K V} {j : Nat}
    (inside : j < page.array.length) : page.keyAt j = .ok (keyOf page.array j) := by
  simp [BPlusTreeLeafPage.keyAt, BPlusTreeLeafPage.getItem_eq inside, keyOf_eq_getElem inside,
    Except.map]

/-- The leaf loop passes over keys that ascend. -/
theorem isPageCorrLeafLoop_sorted {page : BPlusTreeLeafPage K V}
    (sorted : (page.array.map Prod.fst).Sorted (· < ·)) (ret : Bool) :
    ∀ n i, 1 ≤ i → i + n ≤ page.array.length → BPlusTree.isPageCorrLeafLoop page n i ret = .ok ret
  | 0, _, _, _ => rfl
  | n + 1, i, first, inside => by
      have ordered := keyOf_lt_keyOf sorted (show i - 1 < i by omega) (by omega)
      rw [BPlusTree.isPageCorrLeafLoop, show ((i : Int) - 1) = ((i - 1 : Nat) : Int) by omega,
        BPlusTreeLeafPage.keyAt_keyOf (by omega), BPlusTreeLeafPage.keyAt_keyOf (by omega)]
      simp only [bind, Except.bind, if_neg (not_lt.2 ordered.le)]
      exact isPageCorrLeafLoop_sorted sorted ret n (i + 1) (by omega) (by omega)

variable {check : Int → K × K → Except String (Bool × K × K)} {page : BPlusTreeInternalPage K}
  (children : ∀ j < page.array.length, ∀ out, ∃ first last,
    check (childOf page.array j) out = .ok (true, first, last) ∧
      (1 ≤ j → keyOf page.array j ≤ first) ∧
      (j + 1 < page.array.length → last < keyOf page.array (j + 1)))
  (ascends : ∀ i j : Nat, 1 ≤ i → i < j → j < page.array.length →
    keyOf page.array i < keyOf page.array j)
include children ascends

/-- One pass at slot `i ≥ 1`, given the bound of the child before it from slot 2 on: it passes,
and the child it checks ends below the next slot's key. -/
theorem isPageCorrStep_eq {i : Nat} (first : 1 ≤ i) (inside : i < page.array.length)
    {left : K × K} (bound : 2 ≤ i → left.2 < keyOf page.array i) (right : K × K) :
    ∃ left' right', BPlusTree.isPageCorrStep check page i true left right =
        .ok (true, left', right') ∧
      (i + 1 < page.array.length → right'.2 < keyOf page.array (i + 1)) := by
  obtain ⟨firstI, lastI, foundI, loI, hiI⟩ := children i inside right
  have keyI := BPlusTreeInternalPage.keyAt_keyOf inside
  have childI := BPlusTreeInternalPage.valueAt_childOf inside
  by_cases one : i = 1
  · subst one
    obtain ⟨first0, last0, found0, -, hi0⟩ := children 0 (by omega) left
    have child0 : page.valueAt 0 = .ok (childOf page.array 0) :=
      BPlusTreeInternalPage.valueAt_childOf (show 0 < page.array.length by omega)
    have child1 : page.valueAt 1 = .ok (childOf page.array 1) := childI
    have key1 : page.keyAt 1 = .ok (keyOf page.array 1) := keyI
    refine ⟨(first0, last0), (firstI, lastI), ?_, hiI⟩
    simp [BPlusTree.isPageCorrStep, BPlusTree.andCheck, bind, Except.bind, pure, Except.pure,
      monadLift_self, child0, found0, child1, foundI, key1, hi0 inside, loI le_rfl]
  · have keyBefore := BPlusTreeInternalPage.keyAt_keyOf (show i - 1 < page.array.length by omega)
    rw [show ((i - 1 : Nat) : Int) = (i : Int) - 1 by omega] at keyBefore
    refine ⟨left, (firstI, lastI), ?_, hiI⟩
    simp [BPlusTree.isPageCorrStep, BPlusTree.andCheck, bind, Except.bind, pure, Except.pure, one,
      monadLift_self,
      childI, foundI, keyI, keyBefore, bound (by omega), loI first,
      ascends (i - 1) i (by omega) (by omega) inside]

/-- The loop passes from every slot `i ≥ 1` on, given the bound of the child before `i`. -/
theorem isPageCorrLoop_eq :
    ∀ n i (left right : K × K), 1 ≤ i → i + n = page.array.length →
      (2 ≤ i → 0 < n → left.2 < keyOf page.array i) →
        BPlusTree.isPageCorrLoop check page n i true left right = .ok true
  | 0, _, _, _, _, _, _ => rfl
  | n + 1, i, left, right, first, length, bound => by
      obtain ⟨left', right', step, next⟩ :=
        isPageCorrStep_eq children ascends first (by omega) (fun two => bound two (by omega)) right
      simp only [BPlusTree.isPageCorrLoop, step, bind, Except.bind, if_true]
      exact isPageCorrLoop_eq n (i + 1) right' right' (by omega) (by omega)
        fun _ more => next (by omega)

end PageCorr

section PageCorrTree

variable {t : BPlusTree K V} {place : Int → Place K}

/-- **`isPageCorr` passes on a sized linked tree.** With more passes than `pid`'s height, it
returns `true` with a first key at least the lower bound of `pid`'s interval and a last key below
its upper bound. -/
theorem Linked.isPageCorr_eq (linked : Linked t place) (sized : Sized t)
    (leafMin : 2 ≤ t.leafMaxSize) (internalMin : 4 ≤ t.internalMaxSize) :
    ∀ fuel {pageId : Int} {page : BPlusTreePage K V}, t.pages pageId = some page →
      (place pageId).height < fuel → ∀ out, ∃ first last,
        t.isPageCorr t.storePool fuel pageId out = .ok (true, first, last) ∧
          (∀ lo ∈ (place pageId).lo, lo ≤ first) ∧ (∀ hi ∈ (place pageId).hi, last < hi)
  | 0, _, _, _, short, _ => absurd short (Nat.not_lt_zero _)
  | fuel + 1, pageId, page, stored, short, out => by
      have nonempty := linked.not_isEmpty (show t.pages pageId ≠ none by simp [stored])
      have fits : decide (page.getMinSize t.leafMaxSize t.internalMaxSize ≤ page.getSize ∧
          page.getSize ≤ page.getMaxSize t.leafMaxSize t.internalMaxSize) = true :=
        decide_eq_true (sized pageId page stored)
      rw [BPlusTree.isPageCorr, if_neg nonempty, BPlusTree.withPage_storePool stored]
      simp only [fits]
      cases page with
      | leaf leaf =>
          have placed := linked.leaf _ _ stored
          have length := sized.leaf_nonempty leafMin stored
          have lastSlot : ((leaf.array.length : Int) - 1) = ((leaf.array.length - 1 : Nat) : Int) := by
            omega
          refine ⟨keyOf leaf.array 0, keyOf leaf.array (leaf.array.length - 1), ?_, fun lo isLo => ?_,
            fun hi isHi => ?_⟩
          · simp [isPageCorrLeafLoop_sorted placed.sorted true (leaf.array.length - 1) 1 le_rfl
              (by omega), lastSlot,
              show leaf.keyAt 0 = .ok (keyOf leaf.array 0) from BPlusTreeLeafPage.keyAt_keyOf length,
              BPlusTreeLeafPage.keyAt_keyOf (show leaf.array.length - 1 < leaf.array.length by omega),
              bind, Except.bind, pure, Except.pure]
          · rw [keyOf_eq_getElem length]
            exact (placed.inRange _ (List.getElem_mem _)).1 lo isLo
          · rw [keyOf_eq_getElem (by omega)]
            exact (placed.inRange _ (List.getElem_mem _)).2 hi isHi
      | internal node =>
          have placed := linked.internal _ _ stored
          have length := sized.twoSlots internalMin _ _ stored
          have lastSlot : ((node.array.length : Int) - 1) = ((node.array.length - 1 : Nat) : Int) := by
            omega
          have children : ∀ j < node.array.length, ∀ out, ∃ first last,
              t.isPageCorr t.storePool fuel (childOf node.array j) out = .ok (true, first, last) ∧
                (1 ≤ j → keyOf node.array j ≤ first) ∧
                (j + 1 < node.array.length → last < keyOf node.array (j + 1)) := by
            intro j inside out
            have member : childOf node.array j ∈ children node.array := by
              rw [childOf_eq_getElem inside]; exact mem_children_of_getElem inside
            obtain ⟨_, found, -, height⟩ := linked.child stored member
            obtain ⟨first, last, passes, lo, hi⟩ :=
              Linked.isPageCorr_eq linked sized leafMin internalMin fuel found (by omega) out
            have childPlace := placed.fence.childOf_place j inside
            refine ⟨first, last, passes, fun later => lo _ ?_, fun next => hi _ ?_⟩
            · rw [childPlace, if_neg (by omega)]; rfl
            · rw [childPlace, if_pos next]; rfl
          have loop := isPageCorrLoop_eq children placed.fence.keyOf_lt (node.array.length - 1) 1
            (0, 0) (0, 0) le_rfl (by omega) (fun two => absurd two (by omega))
          refine ⟨keyOf node.array 0, keyOf node.array (node.array.length - 1), ?_,
            fun lo isLo => ?_, fun hi isHi => ?_⟩
          · dsimp only
            rw [loop]
            simp [lastSlot, show node.keyAt 0 = .ok (keyOf node.array 0) from
                BPlusTreeInternalPage.keyAt_keyOf (show 0 < node.array.length by omega),
              BPlusTreeInternalPage.keyAt_keyOf
                (show node.array.length - 1 < node.array.length by omega), bind, Except.bind, pure,
              Except.pure]
          · rcases placed.firstKey with unbounded | bound
            · rw [unbounded] at isLo; cases isLo
            · rw [bound] at isLo; cases isLo; exact le_rfl
          · exact (placed.fence.key_inside (j := node.array.length - 1) (by omega) (by omega)).2 _
              rfl hi isHi

end PageCorrTree

/-! ## On every reachable tree -/

section Reachable

variable {t : BPlusTree K V}

/-- Below every page some leaf lies as many levels down as the page's height, by slot 0. -/
theorem Linked.exists_leaf_below {place : Int → Place K} (linked : Linked t place) :
    ∀ (height : Nat) {pageId : Int} {page : BPlusTreePage K V}, t.pages pageId = some page →
      (place pageId).height = height →
        ∃ X leaf, t.pages X = some (.leaf leaf) ∧ Descends t pageId X height
  | height, pageId, .leaf leaf, stored, atHeight => by
      rw [← atHeight, (linked.leaf _ _ stored).height]
      exact ⟨pageId, leaf, stored, .refl _⟩
  | 0, pageId, .internal node, stored, atHeight =>
      absurd atHeight (linked.internal _ _ stored).height
  | height + 1, pageId, .internal node, stored, atHeight => by
      have placed := linked.internal _ _ stored
      have slots := placed.length_pos
      obtain ⟨_, found, -, below⟩ := linked.child stored (mem_children_of_getElem slots)
      obtain ⟨X, leaf, storedX, descends⟩ :=
        Linked.exists_leaf_below linked height found (by omega)
      exact ⟨X, leaf, storedX, .child stored (mem_children_of_getElem slots) descends⟩

/-- **`isBalanced` returns every page's height.** On every reachable tree and for every page
`pid` it holds, `isBalanced(pid)` returns a depth `h`: some leaf lies `h` levels below `pid`, and
every leaf below `pid` lies exactly `h` levels below it. -/
theorem reachable_isBalanced (reach : Reachable t) {pageId : Int} {page : BPlusTreePage K V}
    (stored : t.pages pageId = some page) :
    ∃ h : Nat, t.isBalanced t.storePool t.fuel pageId = .ok (h : Int) ∧
      (∃ X leaf, t.pages X = some (.leaf leaf) ∧ Descends t pageId X h) ∧
      ∀ X leaf depth, t.pages X = some (.leaf leaf) → Descends t pageId X depth → depth = h := by
  obtain ⟨⟨place, linked⟩, -, -, -⟩ := reach.valid
  have present : t.pages pageId ≠ none := by simp [stored]
  have tall := linked.tall pageId present
  have short := linked.short
  refine ⟨(place pageId).height,
    linked.isBalanced_eq t.fuel stored (by simp only [BPlusTree.fuel]; omega),
    linked.exists_leaf_below _ stored rfl, fun X leaf depth storedX descends => ?_⟩
  have height := (linked.descends_place descends (by simp [storedX])).1
  rw [(linked.leaf _ _ storedX).height] at height
  omega

/-- The tree of six ascending inserts: `isBalanced` of the root `8` returns the height 2 of its
three levels, every leaf being two slots below it. -/
theorem reachable_isBalanced_three_levels :
    ∃ t replies, treeRun (BPlusTree.empty 2 4 1) (ascendingInserts 6) = .ok (t, replies) ∧
      (t.pages 8 = some (.internal ⟨invalidPageId, [(0, 3), (30, 7)]⟩) ∧
        (t.isBalanced t.storePool t.fuel 8).toOption = some 2) ∧
      ∃ h : Nat, t.isBalanced t.storePool t.fuel 8 = .ok (h : Int) ∧
        (∃ X leaf, t.pages X = some (.leaf leaf) ∧ Descends t 8 X h) ∧
        ∀ X leaf depth, t.pages X = some (.leaf leaf) → Descends t 8 X depth → depth = h := by
  obtain ⟨replies, ran, reach⟩ := treeRun_ascendingInserts_six
  have stored : sixInsertTree.pages 8 = some (.internal ⟨invalidPageId, [(0, 3), (30, 7)]⟩) := by
    decide
  exact ⟨sixInsertTree, replies, ran, ⟨stored, by decide⟩, reachable_isBalanced reach stored⟩

/-- **`IsEmpty()` says whether the tree holds a key.** On every reachable tree, `IsEmpty()` is
`true` exactly when no key is held: a tree that is not empty has a leaf below its root, and every
leaf holds an entry, since `AdjustRoot` drops the root once its last entry is removed. -/
theorem reachable_isEmpty_iff (reach : Reachable t) :
    t.isEmpty = true ↔ ∀ key value, ¬ Holds t key value := by
  obtain ⟨⟨place, linked⟩, sized, leafMin, -⟩ := reach.valid
  constructor
  · rintro empty key value ⟨X, leaf, stored, -⟩
    have noPage := linked.empty (by simpa [BPlusTree.isEmpty] using empty) X
    rw [noPage] at stored
    cases stored
  · intro nothing
    by_contra nonempty
    obtain ⟨page, stored⟩ := Option.ne_none_iff_exists'.1
      (linked.root_stored (by simpa [BPlusTree.isEmpty] using nonempty))
    obtain ⟨X, leaf, storedX, -⟩ := linked.exists_leaf_below _ stored rfl
    obtain ⟨entry, member⟩ := List.exists_mem_of_length_pos (sized.leaf_nonempty leafMin storedX)
    exact nothing entry.1 entry.2 ⟨X, leaf, storedX, member⟩

/-- Three ascending inserts, then the removes of the three keys: the remove of `10` empties the
first leaf, which takes in its sibling, and `AdjustRoot` makes it the root; the remove of `30`
empties that root leaf and `AdjustRoot` drops it, so the tree, after four pages, is empty and holds
no key. -/
theorem reachable_isEmpty_iff_all_removed :
    ∃ t replies, treeRun (BPlusTree.empty 2 4 1) (ascendingInserts 3 ++
        [.remove 10, .remove 20, .remove 30]) = .ok (t, replies) ∧
      (t.nextPageId = 4 ∧ t.isEmpty = true) ∧ ∀ key value, ¬ Holds t key value := by
  obtain ⟨replies, ran, reach⟩ := treeRun_ascendingInserts_three
  obtain ⟨t, replies', ran', ⟨pages, empty⟩, reach'⟩ :=
    reach.exists_of_treeRunEndsIn_from [.remove 10, .remove 20, .remove 30]
      (P := fun t : BPlusTree Nat Nat => t.nextPageId = 4 ∧ t.isEmpty = true) (by decide)
  exact ⟨t, replies ++ replies', treeRun_append_of_ok ran ran', ⟨pages, empty⟩,
    (reachable_isEmpty_iff reach').1 empty⟩

end Reachable

end ScuDb.Index
