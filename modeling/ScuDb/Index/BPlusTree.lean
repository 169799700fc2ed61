import ScuDb.Index.TreePage

/-!
Contract: the project2 `BPlusTree` (src/project/project2/scudb_initial/src/index/b_plus_tree.cpp)
run one call at a time over a buffer pool whose `FetchPage` and `NewPage` never return `nullptr`:
`GetValue`, `Insert` with its splits, `Remove` with its merges and redistributions, and the
`IndexIterator` of `Begin()`.

Owns: the tree state (`root_page_id_` and the pages), the page methods that reach other pages
through the buffer pool (children re-parented, the parent's key rewritten), and the tree's own
methods.

Does not own: the latches, the pins and the transaction's page set, which order and release the
work but change no page; the header page's root record, which no tree method reads back.

## Model

The buffer pool is the store `pages`: the tree's pages by page id, as `FetchPage` returns them
(the pool loses no write: `ScuDb.Buffer.BufferPoolManager.no_lost_write`). Where the tree is run
over the `BufferPoolManager` itself, the two agree: `ScuDb.Index.PoolCheck` runs the `FetchPage`
and `UnpinPage` calls of `Check` on the pool, and `ScuDb.Index.FullPool` the `NewPage` of
`StartNewTree`. `NewPage` hands out
`nextPageId`, the counter of the disk manager's `AllocatePage`. A page put in the transaction's
deleted set is dropped from the store there and then, since no later step of the call reads it.
`FindLeafPage`, `InsertIntoParent` and `CoalesceOrRedistribute` go one level a pass; they get
`nextPageId + 1` passes, and two passes a level for the mutual recursion of
`CoalesceOrRedistribute` and `Coalesce`.
-/

set_option linter.unusedSectionVars false

namespace ScuDb.Index

open ScuDb.Buffer (invalidPageId)

/-- The state of a `BPlusTree`: the `max_size_` every leaf and every internal page gets from
`Init`, `root_page_id_`, the pages, and the next page id `AllocatePage` returns. -/
structure BPlusTree (K V : Type) where
  leafMaxSize : Nat
  internalMaxSize : Nat
  rootPageId : Int
  pages : Int → Option (BPlusTreePage K V)
  nextPageId : Nat

variable {K V : Type} [LinearOrder K] [Zero K]

namespace BPlusTree

/-- A tree with no page: `root_page_id_` is `INVALID_PAGE_ID`. -/
def empty (leafMaxSize internalMaxSize nextPageId : Nat) : BPlusTree K V :=
  ⟨leafMaxSize, internalMaxSize, invalidPageId, fun _ => none, nextPageId⟩

/-- `IsEmpty()`. -/
def isEmpty (t : BPlusTree K V) : Bool := t.rootPageId = invalidPageId

/-- The passes a walk of the tree is given. -/
def fuel (t : BPlusTree K V) : Nat := t.nextPageId + 1

/-- `NewPage(page_id)`: the id `AllocatePage` hands out. -/
def newPage (t : BPlusTree K V) : BPlusTree K V × Int :=
  ({ t with nextPageId := t.nextPageId + 1 }, t.nextPageId)

@[simp] theorem newPage_pages (t : BPlusTree K V) : t.newPage.1.pages = t.pages := rfl

@[simp] theorem newPage_rootPageId (t : BPlusTree K V) : t.newPage.1.rootPageId = t.rootPageId :=
  rfl

@[simp] theorem newPage_nextPageId (t : BPlusTree K V) :
    t.newPage.1.nextPageId = t.nextPageId + 1 := rfl

@[simp] theorem newPage_leafMaxSize (t : BPlusTree K V) :
    t.newPage.1.leafMaxSize = t.leafMaxSize := rfl

@[simp] theorem newPage_internalMaxSize (t : BPlusTree K V) :
    t.newPage.1.internalMaxSize = t.internalMaxSize := rfl

/-- `FetchPage(page_id)`. -/
def fetchPage (t : BPlusTree K V) (pageId : Int) : Except String (BPlusTreePage K V) :=
  match t.pages pageId with
  | some page => .ok page
  | none => .error "FetchPage of a page the tree does not hold"

/-- A fetched page read as a leaf page. -/
def fetchLeaf (t : BPlusTree K V) (pageId : Int) : Except String (BPlusTreeLeafPage K V) := do
  match ← t.fetchPage pageId with
  | .leaf page => pure page
  | .internal _ => .error "reinterpret_cast of an internal page to a leaf page"

/-- A fetched page read as an internal page. -/
def fetchInternal (t : BPlusTree K V) (pageId : Int) : Except String (BPlusTreeInternalPage K) := do
  match ← t.fetchPage pageId with
  | .internal page => pure page
  | .leaf _ => .error "reinterpret_cast of a leaf page to an internal page"

/-- A change to a fetched page. -/
def writePage (t : BPlusTree K V) (pageId : Int) (page : BPlusTreePage K V) : BPlusTree K V :=
  { t with pages := Function.update t.pages pageId (some page) }

/-- `DeletePage(page_id)` of a page in the transaction's deleted set. -/
def deletePage (t : BPlusTree K V) (pageId : Int) : BPlusTree K V :=
  { t with pages := Function.update t.pages pageId none }

/-- A fetched page's `SetParentPageId(parent)`. -/
def setParentPageId (t : BPlusTree K V) (pageId parent : Int) : Except String (BPlusTree K V) := do
  let page ← t.fetchPage pageId
  pure (t.writePage pageId (page.setParentPageId parent))

@[simp] theorem writePage_pages (t : BPlusTree K V) (pageId : Int) (page : BPlusTreePage K V)
    (other : Int) :
    (t.writePage pageId page).pages other = if other = pageId then some page else t.pages other := by
  simp [writePage, Function.update_apply]

@[simp] theorem deletePage_pages (t : BPlusTree K V) (pageId other : Int) :
    (t.deletePage pageId).pages other = if other = pageId then none else t.pages other := by
  simp [deletePage, Function.update_apply]

@[simp] theorem writePage_rootPageId (t : BPlusTree K V) (pageId : Int) (page : BPlusTreePage K V) :
    (t.writePage pageId page).rootPageId = t.rootPageId := rfl

@[simp] theorem writePage_nextPageId (t : BPlusTree K V) (pageId : Int) (page : BPlusTreePage K V) :
    (t.writePage pageId page).nextPageId = t.nextPageId := rfl

@[simp] theorem writePage_leafMaxSize (t : BPlusTree K V) (pageId : Int) (page : BPlusTreePage K V) :
    (t.writePage pageId page).leafMaxSize = t.leafMaxSize := rfl

@[simp] theorem writePage_internalMaxSize (t : BPlusTree K V) (pageId : Int)
    (page : BPlusTreePage K V) : (t.writePage pageId page).internalMaxSize = t.internalMaxSize := rfl

@[simp] theorem deletePage_rootPageId (t : BPlusTree K V) (pageId : Int) :
    (t.deletePage pageId).rootPageId = t.rootPageId := rfl

@[simp] theorem deletePage_nextPageId (t : BPlusTree K V) (pageId : Int) :
    (t.deletePage pageId).nextPageId = t.nextPageId := rfl

@[simp] theorem deletePage_leafMaxSize (t : BPlusTree K V) (pageId : Int) :
    (t.deletePage pageId).leafMaxSize = t.leafMaxSize := rfl

@[simp] theorem deletePage_internalMaxSize (t : BPlusTree K V) (pageId : Int) :
    (t.deletePage pageId).internalMaxSize = t.internalMaxSize := rfl

theorem fetchPage_eq {t : BPlusTree K V} {pageId : Int} {page : BPlusTreePage K V}
    (stored : t.pages pageId = some page) : t.fetchPage pageId = .ok page := by
  simp [fetchPage, stored]

theorem fetchLeaf_eq {t : BPlusTree K V} {pageId : Int} {page : BPlusTreeLeafPage K V}
    (stored : t.pages pageId = some (.leaf page)) : t.fetchLeaf pageId = .ok page := by
  simp [fetchLeaf, fetchPage_eq stored]; rfl

theorem fetchInternal_eq {t : BPlusTree K V} {pageId : Int} {page : BPlusTreeInternalPage K}
    (stored : t.pages pageId = some (.internal page)) : t.fetchInternal pageId = .ok page := by
  simp [fetchInternal, fetchPage_eq stored]; rfl

theorem setParentPageId_eq {t : BPlusTree K V} {pageId : Int} {page : BPlusTreePage K V}
    (stored : t.pages pageId = some page) (parent : Int) :
    t.setParentPageId pageId parent = .ok (t.writePage pageId (page.setParentPageId parent)) := by
  simp [setParentPageId, fetchPage_eq stored]

/-- The loop that re-parents each of `children` to `parent`. -/
def reparent (t : BPlusTree K V) (children : List Int) (parent : Int) :
    Except String (BPlusTree K V) :=
  children.foldlM (fun t child => t.setParentPageId child parent) t

/-- The loop of `FindLeafPage`: from page `pageId` down to a leaf, by slot 0 when `leftMost`,
else by `Lookup(key)`. -/
def findLeafPageLoop (t : BPlusTree K V) (key : K) (leftMost : Bool) :
    Nat → Int → Except String Int
  | 0, _ => .error "FindLeafPage ran out of passes"
  | fuel + 1, pageId => do
      match ← t.fetchPage pageId with
      | .leaf _ => pure pageId
      | .internal page =>
          let nextPageId ← if leftMost then page.valueAt 0 else page.lookup key
          t.findLeafPageLoop key leftMost fuel nextPageId

/-- `FindLeafPage(key, leftMost)`: `nullptr` (`none`) for the empty tree. -/
def findLeafPage (t : BPlusTree K V) (key : K) (leftMost : Bool) : Except String (Option Int) :=
  if t.isEmpty then .ok none
  else (t.findLeafPageLoop key leftMost t.fuel t.rootPageId).map some

/-- `GetValue(key, result)`: `result[0]` when it returns `true`, `none` when `false`. -/
def getValue (t : BPlusTree K V) (key : K) : Except String (Option V) := do
  match ← t.findLeafPage key false with
  | none => pure none
  | some leafPageId => pure ((← t.fetchLeaf leafPageId).lookup key)

/-! ## Insertion -/

/-- `StartNewTree(key, value)`: a new root leaf holding the one entry. -/
def startNewTree (t : BPlusTree K V) (key : K) (value : V) : BPlusTree K V :=
  let (t, rootPageId) := t.newPage
  let root : BPlusTreeLeafPage K V := ⟨invalidPageId, invalidPageId, []⟩
  { t.writePage rootPageId (.leaf (root.insert key value)) with rootPageId := rootPageId }

@[simp] theorem startNewTree_pages (t : BPlusTree K V) (key : K) (value : V) (pageId : Int) :
    (t.startNewTree key value).pages pageId = if pageId = t.nextPageId then
      some (.leaf ⟨invalidPageId, invalidPageId, [(key, value)]⟩) else t.pages pageId := by
  simp [startNewTree, newPage, BPlusTreeLeafPage.insert]

@[simp] theorem startNewTree_rootPageId (t : BPlusTree K V) (key : K) (value : V) :
    (t.startNewTree key value).rootPageId = t.nextPageId := rfl

@[simp] theorem startNewTree_nextPageId (t : BPlusTree K V) (key : K) (value : V) :
    (t.startNewTree key value).nextPageId = t.nextPageId + 1 := rfl

@[simp] theorem startNewTree_leafMaxSize (t : BPlusTree K V) (key : K) (value : V) :
    (t.startNewTree key value).leafMaxSize = t.leafMaxSize := rfl

@[simp] theorem startNewTree_internalMaxSize (t : BPlusTree K V) (key : K) (value : V) :
    (t.startNewTree key value).internalMaxSize = t.internalMaxSize := rfl

end BPlusTree

/-- Internal `MoveHalfTo(recipient)`: the slots from `GetSize() / 2` on go to `recipient`, and the
child of each is re-parented to it. -/
def BPlusTreeInternalPage.moveHalfTo (t : BPlusTree K V) (pageId recipientPageId : Int) :
    Except String (BPlusTree K V) := do
  let page ← t.fetchInternal pageId
  let recipient ← t.fetchInternal recipientPageId
  let mid := page.array.length / 2
  let t ← t.reparent ((page.array.drop mid).map Prod.snd) recipientPageId
  pure ((t.writePage pageId (.internal { page with array := page.array.take mid })).writePage
    recipientPageId (.internal { recipient with array := page.array.drop mid }))

namespace BPlusTree

/-- `Split(node)`: a new page of the node's kind, under the node's parent, takes the upper half of
the node. -/
def split (t : BPlusTree K V) (pageId : Int) : Except String (BPlusTree K V × Int) := do
  let (t, newPageId) := t.newPage
  match ← t.fetchPage pageId with
  | .leaf page =>
      let (page, recipient) :=
        page.moveHalfTo ⟨page.parentPageId, invalidPageId, []⟩ newPageId t.leafMaxSize
      pure ((t.writePage pageId (.leaf page)).writePage newPageId (.leaf recipient), newPageId)
  | .internal page =>
      let t := t.writePage newPageId (.internal ⟨page.parentPageId, []⟩)
      let t ← BPlusTreeInternalPage.moveHalfTo t pageId newPageId
      pure (t, newPageId)

/-- `InsertIntoParent(old_node, key, new_node)`: a new root over the two pages when `old_node` is
the root; otherwise `(key, new_node)` goes into the parent after `old_node`, and a parent that
overflows is split in turn. -/
def insertIntoParent : Nat → BPlusTree K V → Int → K → Int → Except String (BPlusTree K V)
  | 0, _, _, _, _ => .error "InsertIntoParent ran out of passes"
  | fuel + 1, t, oldNode, key, newNode => do
      let old ← t.fetchPage oldNode
      if old.parentPageId = invalidPageId then
        let (t, rootPageId) := t.newPage
        let t := { t.writePage rootPageId
          (.internal ⟨invalidPageId, [(0, oldNode), (key, newNode)]⟩) with rootPageId := rootPageId }
        let t ← t.setParentPageId oldNode rootPageId
        t.setParentPageId newNode rootPageId
      else
        let parentId := old.parentPageId
        let parent ← t.fetchInternal parentId
        let t ← t.setParentPageId newNode parentId
        let parent ← parent.insertNodeAfter oldNode key newNode
        let t := t.writePage parentId (.internal parent)
        if t.internalMaxSize < parent.array.length then
          let (t, newPageId) ← t.split parentId
          let firstKey ← (← t.fetchInternal newPageId).keyAt 0
          insertIntoParent fuel t parentId firstKey newPageId
        else pure t

/-- `InsertIntoLeaf(key, value)`: `false` when the leaf holds `key`; otherwise the entry goes into
the leaf, which is split when it overflows. -/
def insertIntoLeaf (t : BPlusTree K V) (key : K) (value : V) :
    Except String (BPlusTree K V × Bool) := do
  let some leafPageId ← t.findLeafPage key false | .error "FindLeafPage returned nullptr"
  let leaf ← t.fetchLeaf leafPageId
  if (leaf.lookup key).isSome then return (t, false)
  let leaf := leaf.insert key value
  let t := t.writePage leafPageId (.leaf leaf)
  if t.leafMaxSize < leaf.array.length then
    let (t, newPageId) ← t.split leafPageId
    let firstKey ← (← t.fetchLeaf newPageId).keyAt 0
    let t ← insertIntoParent t.fuel t leafPageId firstKey newPageId
    pure (t, true)
  else pure (t, true)

/-- `Insert(key, value)`. -/
def insert (t : BPlusTree K V) (key : K) (value : V) : Except String (BPlusTree K V × Bool) :=
  if t.isEmpty then .ok (t.startNewTree key value, true) else t.insertIntoLeaf key value

end BPlusTree

/-! ## The page methods of deletion -/

/-- Leaf `MoveFirstToEndOf(recipient)`: the first entry goes to the end of `recipient`, and the
parent's key for this page becomes its new first key. -/
def BPlusTreeLeafPage.moveFirstToEndOf (t : BPlusTree K V) (pageId recipientPageId : Int) :
    Except String (BPlusTree K V) := do
  let page ← t.fetchLeaf pageId
  let pair ← page.getItem 0
  let page := { page with array := page.array.tail }
  let t := t.writePage pageId (.leaf page)
  let recipient ← (← t.fetchLeaf recipientPageId).copyLastFrom pair t.leafMaxSize
  let t := t.writePage recipientPageId (.leaf recipient)
  let parent ← t.fetchInternal page.parentPageId
  let parent ← parent.setKeyAt (parent.valueIndex pageId) (keyOf page.array 0)
  pure (t.writePage page.parentPageId (.internal parent))

/-- Leaf `CopyFirstFrom(item, parentIndex)`: the entry goes first, and the parent's key at
`parentIndex` becomes its key. -/
def BPlusTreeLeafPage.copyFirstFrom (t : BPlusTree K V) (pageId : Int) (item : K × V)
    (parentIndex : Int) : Except String (BPlusTree K V) := do
  let page ← t.fetchLeaf pageId
  let page := { page with array := item :: page.array }
  let t := t.writePage pageId (.leaf page)
  let parent ← t.fetchInternal page.parentPageId
  let parent ← parent.setKeyAt parentIndex (keyOf page.array 0)
  pure (t.writePage page.parentPageId (.internal parent))

/-- Leaf `MoveLastToFrontOf(recipient, parentIndex)`. -/
def BPlusTreeLeafPage.moveLastToFrontOf (t : BPlusTree K V) (pageId recipientPageId : Int)
    (parentIndex : Int) : Except String (BPlusTree K V) := do
  let page ← t.fetchLeaf pageId
  let lastPair ← page.getItem (page.array.length - 1)
  let t := t.writePage pageId (.leaf { page with array := page.array.dropLast })
  BPlusTreeLeafPage.copyFirstFrom t recipientPageId lastPair parentIndex

/-- Internal `MoveAllTo(recipient, index_in_parent)`: slot 0 takes the parent's key at
`index_in_parent`, then every slot goes to the end of `recipient`, its child re-parented to it. -/
def BPlusTreeInternalPage.moveAllTo (t : BPlusTree K V) (pageId recipientPageId : Int)
    (indexInParent : Int) : Except String (BPlusTree K V) := do
  let page ← t.fetchInternal pageId
  let parent ← t.fetchInternal page.parentPageId
  let page ← page.setKeyAt 0 (← parent.keyAt indexInParent)
  let recipient ← t.fetchInternal recipientPageId
  let t ← t.reparent (page.array.map Prod.snd) recipientPageId
  pure ((t.writePage recipientPageId
      (.internal { recipient with array := recipient.array ++ page.array })).writePage pageId
    (.internal { page with array := [] }))

/-- Internal `MoveFirstToEndOf(recipient)`: the first slot goes to the end of `recipient`, its child
is re-parented to it, and the parent's key for this page becomes the new first key. -/
def BPlusTreeInternalPage.moveFirstToEndOf (t : BPlusTree K V) (pageId recipientPageId : Int) :
    Except String (BPlusTree K V) := do
  let page ← t.fetchInternal pageId
  let firstPair := (← page.keyAt 0, ← page.valueAt 0)
  let page := { page with array := page.array.tail }
  let t := t.writePage pageId (.internal page)
  let recipient ← (← t.fetchInternal recipientPageId).copyLastFrom firstPair t.internalMaxSize
  let t := t.writePage recipientPageId (.internal recipient)
  let t ← t.setParentPageId firstPair.2 recipientPageId
  let parent ← t.fetchInternal page.parentPageId
  let parent ← parent.setKeyAt (parent.valueIndex pageId) (keyOf page.array 0)
  pure (t.writePage page.parentPageId (.internal parent))

/-- Internal `CopyFirstFrom(pair, parent_index)`: the slot goes first, its child is re-parented to
this page, and the parent's key at `parent_index` becomes the slot's key. -/
def BPlusTreeInternalPage.copyFirstFrom (t : BPlusTree K V) (pageId : Int) (pair : K × Int)
    (parentIndex : Int) : Except String (BPlusTree K V) := do
  let page ← t.fetchInternal pageId
  let page := { page with array := pair :: page.array }
  let t := t.writePage pageId (.internal page)
  let t ← t.setParentPageId pair.2 pageId
  let parent ← t.fetchInternal page.parentPageId
  let parent ← parent.setKeyAt parentIndex (keyOf page.array 0)
  pure (t.writePage page.parentPageId (.internal parent))

/-- Internal `MoveLastToFrontOf(recipient, parent_index)`. -/
def BPlusTreeInternalPage.moveLastToFrontOf (t : BPlusTree K V) (pageId recipientPageId : Int)
    (parentIndex : Int) : Except String (BPlusTree K V) := do
  let page ← t.fetchInternal pageId
  let pair := (← page.keyAt (page.array.length - 1), ← page.valueAt (page.array.length - 1))
  let t := t.writePage pageId (.internal { page with array := page.array.dropLast })
  BPlusTreeInternalPage.copyFirstFrom t recipientPageId pair parentIndex

namespace BPlusTree

/-! ## Deletion -/

/-- `FindLeftSibling(node, sibling)`: the left sibling, or the right one (`true`) for the first
child. -/
def findLeftSibling (t : BPlusTree K V) (node : Int) : Except String (Bool × Int) := do
  let page ← t.fetchPage node
  let parent ← t.fetchInternal page.parentPageId
  let idx := parent.valueIndex node
  let siblingIndex := if idx = 0 then idx + 1 else idx - 1
  let sibling ← parent.valueAt siblingIndex
  pure (idx = 0, sibling)

/-- `AdjustRoot(old_root_node)`: an empty root leaf empties the tree, an internal root with one
child hands the root over to it; `true` when the old root is to be deleted. -/
def adjustRoot (t : BPlusTree K V) (oldRootNode : Int) : Except String (BPlusTree K V × Bool) := do
  match ← t.fetchPage oldRootNode with
  | .leaf page =>
      if page.parentPageId ≠ invalidPageId then
        .error "assert(old_root_node->GetParentPageId() == INVALID_PAGE_ID)"
      else if page.array.length ≠ 0 then .error "assert(old_root_node->GetSize() == 0)"
      else pure ({ t with rootPageId := invalidPageId }, true)
  | .internal page =>
      if page.array.length = 1 then
        let (newRootId, page) ← page.removeAndReturnOnlyChild
        let t := { t.writePage oldRootNode (.internal page) with rootPageId := newRootId }
        let t ← t.setParentPageId newRootId invalidPageId
        pure (t, true)
      else pure (t, false)

/-- `Redistribute(neighbor_node, node, index)`: from the right sibling when `index` is 0, else
from the left one. -/
def redistribute (t : BPlusTree K V) (neighborNode node index : Int) :
    Except String (BPlusTree K V) := do
  match ← t.fetchPage neighborNode with
  | .leaf _ =>
      if index = 0 then BPlusTreeLeafPage.moveFirstToEndOf t neighborNode node
      else BPlusTreeLeafPage.moveLastToFrontOf t neighborNode node index
  | .internal _ =>
      if index = 0 then BPlusTreeInternalPage.moveFirstToEndOf t neighborNode node
      else BPlusTreeInternalPage.moveLastToFrontOf t neighborNode node index

/-- `node->MoveAllTo(neighbor_node, index)` of `Coalesce`, by the node's kind. -/
def moveAllTo (t : BPlusTree K V) (node neighborNode index : Int) :
    Except String (BPlusTree K V) := do
  match ← t.fetchPage node with
  | .leaf page =>
      let (page, recipient) := page.moveAllTo (← t.fetchLeaf neighborNode)
      pure ((t.writePage node (.leaf page)).writePage neighborNode (.leaf recipient))
  | .internal _ => BPlusTreeInternalPage.moveAllTo t node neighborNode index

mutual

/-- `CoalesceOrRedistribute(node)`: merge the node into its sibling, or the sibling into it, when
one page holds both; otherwise move one entry over from the sibling. `true` when a page is
deleted. -/
def coalesceOrRedistribute : Nat → BPlusTree K V → Int → Except String (BPlusTree K V × Bool)
  | 0, _, _ => .error "CoalesceOrRedistribute ran out of passes"
  | fuel + 1, t, node => do
      let page ← t.fetchPage node
      if page.parentPageId = invalidPageId then
        let (t, oldRootNeedDelete) ← t.adjustRoot node
        pure (if oldRootNeedDelete then t.deletePage node else t, oldRootNeedDelete)
      else
        let (isRightNode, nearNode) ← t.findLeftSibling node
        let parent ← t.fetchInternal page.parentPageId
        let near ← t.fetchPage nearNode
        if page.getSize + near.getSize ≤ page.getMaxSize t.leafMaxSize t.internalMaxSize then
          let (nearNode, node) := if isRightNode then (node, nearNode) else (nearNode, node)
          let (t, _) ← coalesce fuel t nearNode node page.parentPageId (parent.valueIndex node)
          pure (t, true)
        else
          let t ← t.redistribute nearNode node (parent.valueIndex node)
          pure (t, false)

/-- `Coalesce(neighbor_node, node, parent, index)`: the node's entries go to its left neighbour,
the node is deleted and its slot removed from the parent, which is fixed in turn when it
underflows. -/
def coalesce : Nat → BPlusTree K V → Int → Int → Int → Int → Except String (BPlusTree K V × Bool)
  | 0, _, _, _, _, _ => .error "Coalesce ran out of passes"
  | fuel + 1, t, neighborNode, node, parentId, index => do
      let t ← t.moveAllTo node neighborNode index
      let t := t.deletePage node
      let parent ← (← t.fetchInternal parentId).remove index
      let t := t.writePage parentId (.internal parent)
      if parent.array.length ≤ (BPlusTreePage.internal (V := V) parent).getMinSize t.leafMaxSize
          t.internalMaxSize then
        coalesceOrRedistribute fuel t parentId
      else pure (t, false)

end

/-- `Remove(key)`: delete the entry from its leaf and fix the leaf when it underflows. -/
def remove (t : BPlusTree K V) (key : K) : Except String (BPlusTree K V) :=
  if t.isEmpty then .ok t
  else do
    let some leafPageId ← t.findLeafPage key false | .error "FindLeafPage returned nullptr"
    let leaf := (← t.fetchLeaf leafPageId).removeAndDeleteRecord key
    let t := t.writePage leafPageId (.leaf leaf)
    if leaf.array.length < (BPlusTreePage.leaf leaf).getMinSize t.leafMaxSize t.internalMaxSize then
      let (t, _) ← coalesceOrRedistribute (2 * t.fuel) t leafPageId
      pure t
    else pure t

end BPlusTree

/-! ## The iterator -/

/-- An `IndexIterator`: the leaf it stands on (`nullptr` is `none`) and the slot in it. -/
structure IndexIterator where
  leafPage : Option Int
  indexInPage : Nat
deriving DecidableEq

namespace IndexIterator

/-- `isEnd()`. -/
def isEnd (it : IndexIterator) : Bool := it.leafPage.isNone

/-- `operator*`: the entry at the iterator's slot. -/
def deref (t : BPlusTree K V) (it : IndexIterator) : Except String (K × V) :=
  match it.leafPage with
  | none => .error "null leaf page dereferenced"
  | some leafPageId => do (← t.fetchLeaf leafPageId).getItem it.indexInPage

/-- `operator++`: the next slot, else the first slot of the next leaf, else the end. -/
def advance (t : BPlusTree K V) (it : IndexIterator) : Except String IndexIterator :=
  match it.leafPage with
  | none => .error "null leaf page dereferenced"
  | some leafPageId => do
      let leaf ← t.fetchLeaf leafPageId
      let indexInPage := it.indexInPage + 1
      if leaf.array.length ≤ indexInPage then
        if leaf.nextPageId = invalidPageId then pure ⟨none, indexInPage⟩
        else
          let _ ← t.fetchLeaf leaf.nextPageId
          pure ⟨some leaf.nextPageId, 0⟩
      else pure ⟨some leafPageId, indexInPage⟩

/-- The entries read by `operator*` then `operator++` until `isEnd()`, in `fuel` steps at most. -/
def scan (t : BPlusTree K V) : Nat → IndexIterator → Except String (List (K × V))
  | 0, _ => .error "scan ran out of steps"
  | fuel + 1, it =>
      if it.isEnd then .ok []
      else do
        let entry ← it.deref t
        let it ← it.advance t
        pure (entry :: (← scan t fuel it))

end IndexIterator

namespace BPlusTree

/-- `Begin()`: the first slot of the leftmost leaf. -/
def begin (t : BPlusTree K V) : Except String IndexIterator := do
  let leafPage ← t.findLeafPage 0 true
  pure ⟨leafPage, 0⟩

/-- `Begin(key)`: the slot `KeyIndex(key)` of the leaf `FindLeafPage(key)` selects. -/
def beginAt (t : BPlusTree K V) (key : K) : Except String IndexIterator := do
  match ← t.findLeafPage key false with
  | none => pure ⟨none, 0⟩
  | some leafPageId => pure ⟨some leafPageId, ((← t.fetchLeaf leafPageId).keyIndex key).toNat⟩

end BPlusTree

end ScuDb.Index
