import ScuDb.Index.BPlusTree
import ScuDb.Buffer.Failures

/-!
Contract: `Insert` of the project2 `BPlusTree` (src/project/project2/scudb_initial/src/index/
b_plus_tree.cpp) on an empty tree, over a buffer pool whose `NewPage` can return `nullptr`.

Owns: `StartNewTree` over the buffer pool (`startNewTreeIn`), `Insert` with it (`insertIn`), and
what they do when every frame of the pool is pinned.

Does not own: the pool (`ScuDb.Buffer.BufferPoolManager`) and when its `NewPage` fails
(`ScuDb.Buffer.Failures`); `InsertIntoLeaf`, whose `FetchPage` and `NewPage` the tree's model
takes never to fail (`ScuDb.Index.BPlusTree`).

## Model

`StartNewTree` asks the pool for a page and makes the id the pool's `AllocatePage` handed out the
root; on `nullptr` it returns `false` and changes nothing. `Insert` ignores that result and
returns `true`.
-/

namespace ScuDb.Index

open ScuDb.Buffer (BufferPoolManager invalidPageId)

variable {K V D : Type} [LinearOrder K] [Zero K] [Zero D]

namespace BPlusTree

/-- `StartNewTree(key, value)` over the pool: `NewPage`, then the new root leaf with the entry,
then `UnpinPage(root_page_id_, true)`; `false` when `NewPage` returns `nullptr`. -/
def startNewTreeIn (pool : BufferPoolManager D) (t : BPlusTree K V) (key : K) (value : V) :
    Except String (BufferPoolManager D × BPlusTree K V × Bool) := do
  let pageId := pool.nextPageId
  let (pool, rootPage) ← pool.newPage
  match rootPage with
  | none => pure (pool, t, false)
  | some _ =>
      let t := { t with nextPageId := pageId.toNat }.startNewTree key value
      let (pool, _) ← pool.unpinPage t.rootPageId true
      pure (pool, t, true)

/-- `Insert(key, value)` over the pool: on an empty tree `StartNewTree`, whose result is dropped;
otherwise `InsertIntoLeaf`. -/
def insertIn (pool : BufferPoolManager D) (t : BPlusTree K V) (key : K) (value : V) :
    Except String (BufferPoolManager D × BPlusTree K V × Bool) :=
  if t.isEmpty then do
    let (pool, t, _) ← t.startNewTreeIn pool key value
    pure (pool, t, true)
  else (t.insertIntoLeaf key value).map fun (t, inserted) => (pool, t, inserted)

end BPlusTree

/-- On an empty tree and a pool with every frame pinned, `Insert` returns `true` and leaves the
pool and the tree as they were. -/
theorem insertIn_pinned_pool {pool : BufferPoolManager D} (inv : BufferPoolManager.FrameInvariant pool)
    (pinned : ∀ f < pool.poolSize, 0 < (pool.pages f).pinCount) {t : BPlusTree K V}
    (empty : t.isEmpty = true) (key : K) (value : V) :
    t.insertIn pool key value = .ok (pool, t, true) := by
  have failed := inv.newPage_none_iff.2 pinned
  simp [BPlusTree.insertIn, BPlusTree.startNewTreeIn, empty, failed, bind, Except.bind, pure,
    Except.pure]

/-- **`Insert` reports success into a full pool.** One frame, holding the page a client got from
`NewPage` and still pins; on the empty tree, `Insert(1, 10)` returns `true`, yet the tree is still
empty and `GetValue(1)` finds nothing. -/
theorem insert_full_pool_reports_true :
    ∃ pool : BufferPoolManager Nat,
      (BufferPoolManager.init 1 fun _ => 0).newPage = .ok (pool, some 0) ∧
      (BPlusTree.empty 253 338 1 : BPlusTree Nat Nat).insertIn pool 1 10 =
        .ok (pool, BPlusTree.empty 253 338 1, true) ∧
      (BPlusTree.empty 253 338 1 : BPlusTree Nat Nat).getValue 1 = .ok none := by
  refine ⟨_, rfl, insertIn_pinned_pool ?_ (by decide) (by rfl) 1 10, rfl⟩
  exact (BufferPoolManager.Reachable.newPage (.init 1 _) rfl).allocatedInvariant.frames

end ScuDb.Index
