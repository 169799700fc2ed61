import ScuDb.Buffer.LRUReplacer
import Mathlib.Algebra.Order.Ring.Nat

/-!
Contract: the project2 `BufferPoolManager` (src/project/project2/scudb_initial/src/buffer/
buffer_pool_manager.cpp) as the code runs it: the constructor, `FetchPage`, `UnpinPage`,
`FlushPage`, `DeletePage`, `NewPage`, `GetVictimPage` and the debug check `CheckAllUnpined`.

Owns: the frames `pages_`, the page table, the free list, the replacer (the `LRUReplacer` model
over frame numbers) and the disk contents the pool reads and writes.

Does not own: the invariants of these states (`ScuDb.Buffer.FrameInvariant`) and the clients'
writes (`ScuDb.Buffer.NoLostWrite`).

## Model

A `Page *` is the number of its frame in `pages_`. The page table
`ExtendibleHash<page_id_t, Page *>` is a finite map `Int → Option Nat` (the table refines a map
on keys whose hashes differ in their low 30 bits, as page ids below `2 ^ 30` do:
`ScuDb.Hash.tableRun_refines_map`). An `assert` that fails, and a null pointer
dereferenced, end the call in `Except.error` with the text of the failed check. The disk
manager's side of the state is the disk contents and the id its `AllocatePage` hands out next.
-/

set_option linter.unusedSectionVars false

namespace ScuDb.Buffer

/-- Modelled from the spec: `INVALID_PAGE_ID`, the sentinel page id −1 (the constant's header is
not under src/). -/
def invalidPageId : Int := -1

/-- Modelled from the spec: a frame of the pool (`Page`, whose class is not under src/): its
`page_id_`, `pin_count_`, `is_dirty_` and the `PAGE_SIZE` bytes `data_`, of type `D`; `0 : D` is
the zeroed buffer `ResetMemory` leaves. -/
structure Page (D : Type) where
  pageId : Int
  pinCount : Int
  isDirty : Bool
  data : D

/-- The state of a `BufferPoolManager`; `disk` is what the disk manager's file holds and
`nextPageId` the id its `AllocatePage` hands out next. -/
structure BufferPoolManager (D : Type) where
  poolSize : Nat
  pages : Nat → Page D
  pageTable : Int → Option Nat
  replacer : LRUReplacer Nat
  freeList : List Nat
  disk : Int → D
  nextPageId : Int

namespace BufferPoolManager

variable {D : Type} [Zero D]

/-- The constructor: every frame is a fresh `Page` and on the free list, over a disk manager
that has handed out no page id yet. -/
def init (poolSize : Nat) (disk : Int → D) : BufferPoolManager D where
  poolSize := poolSize
  pages _ := ⟨invalidPageId, 0, false, 0⟩
  pageTable _ := none
  replacer := LRUReplacer.init
  freeList := List.range poolSize
  disk := disk
  nextPageId := 0

/-- Modelled from the spec: the disk manager's `AllocatePage()` (its class is not under src/),
which hands out `nextPageId` and counts up. -/
def allocatePage (s : BufferPoolManager D) : BufferPoolManager D × Int :=
  ({ s with nextPageId := s.nextPageId + 1 }, s.nextPageId)

/-- A call into the replacer; the model's `none` is a null `shared_ptr` dereference. -/
def callReplacer {α : Type} : Option α → Except String α
  | some a => .ok a
  | none => .error "null shared_ptr dereference in LRUReplacer"

/-- `GetVictimPage()`: the front of the free list, else the replacer's victim; `none` when the
replacer is empty too. `Victim`'s out-parameter starts as `nullptr` (here `0`) and is read only
when `Victim` returns `true`. -/
def getVictimPage (s : BufferPoolManager D) : Except String (BufferPoolManager D × Option Nat) :=
  match s.freeList with
  | page :: rest =>
      if (s.pages page).pageId ≠ invalidPageId then
        .error "assert(page->GetPageId() == INVALID_PAGE_ID)"
      else if (s.pages page).pinCount ≠ 0 then .error "assert(page->GetPinCount() == 0)"
      else .ok ({ s with freeList := rest }, some page)
  | [] =>
      if s.replacer.size = 0 then .ok (s, none)
      else
        match s.replacer.victim 0 with
        | some (true, page, replacer) =>
            if (s.pages page).pinCount ≠ 0 then .error "assert(page->GetPinCount() == 0)"
            else .ok ({ s with replacer := replacer }, some page)
        | some (false, _, _) => .error "null pointer dereference of page after Victim"
        | none => .error "null shared_ptr dereference in LRUReplacer"

/-- The part of `FetchPage` and `NewPage` after a victim frame `target` is found: write it back if
dirty, then remove its old page id from the page table. -/
def evict (s : BufferPoolManager D) (target : Nat) : BufferPoolManager D :=
  { s with
    disk := if (s.pages target).isDirty then Function.update s.disk (s.pages target).pageId
      (s.pages target).data else s.disk
    pageTable := Function.update s.pageTable (s.pages target).pageId none }

/-- `FetchPage(page_id)`: pin the frame the page table names, else read the page into a victim
frame; `none` is `nullptr`. -/
def fetchPage (s : BufferPoolManager D) (pageId : Int) :
    Except String (BufferPoolManager D × Option Nat) :=
  match s.pageTable pageId with
  | some target =>
      (callReplacer (s.replacer.erase target)).map fun erased =>
        ({ s with
            pages := Function.update s.pages target
              { s.pages target with pinCount := (s.pages target).pinCount + 1 }
            replacer := erased.2 }, some target)
  | none =>
      (getVictimPage s).map fun
        | (s, none) => (s, none)
        | (s, some target) =>
            let s := evict s target
            ({ s with
                pages := Function.update s.pages target ⟨pageId, 1, false, s.disk pageId⟩
                pageTable := Function.update s.pageTable pageId (some target) }, some target)

/-- `UnpinPage(page_id, is_dirty)`: or-in `is_dirty`, drop one pin, and hand the frame to the
replacer when no pin is left. -/
def unpinPage (s : BufferPoolManager D) (pageId : Int) (isDirty : Bool) :
    Except String (BufferPoolManager D × Bool) :=
  match s.pageTable pageId with
  | none => .ok (s, false)
  | some target =>
      if (s.pages target).pinCount ≤ 0 then .error "assert(target->GetPinCount() > 0)"
      else
        let pages := Function.update s.pages target
          { s.pages target with
            isDirty := (s.pages target).isDirty || isDirty
            pinCount := (s.pages target).pinCount - 1 }
        if (s.pages target).pinCount - 1 = 0 then
          (callReplacer (s.replacer.insert target)).map fun replacer =>
            ({ s with pages := pages, replacer := replacer }, true)
        else .ok ({ s with pages := pages }, true)

/-- `FlushPage(page_id)`: write a dirty frame back and clear its dirty flag. -/
def flushPage (s : BufferPoolManager D) (pageId : Int) :
    Except String (BufferPoolManager D × Bool) :=
  match s.pageTable pageId with
  | none => .ok (s, false)
  | some target =>
      if (s.pages target).pageId = invalidPageId then
        .error "assert(target->page_id_ != INVALID_PAGE_ID)"
      else if (s.pages target).isDirty then
        .ok ({ s with
          disk := Function.update s.disk pageId (s.pages target).data
          pages := Function.update s.pages target { s.pages target with isDirty := false } }, true)
      else .ok (s, true)

/-- `DeletePage(page_id)`: refuse a pinned page; otherwise take its frame out of the replacer and
the page table, reset it and put it on the free list. `DeallocatePage` leaves the disk contents
alone. -/
def deletePage (s : BufferPoolManager D) (pageId : Int) :
    Except String (BufferPoolManager D × Bool) :=
  match s.pageTable pageId with
  | none => .ok (s, true)
  | some target =>
      if 0 < (s.pages target).pinCount then .ok (s, false)
      else
        (callReplacer (s.replacer.erase target)).map fun erased =>
          ({ s with
              replacer := erased.2
              pageTable := Function.update s.pageTable pageId none
              pages := Function.update s.pages target
                ⟨invalidPageId, (s.pages target).pinCount, false, 0⟩
              freeList := s.freeList ++ [target] }, true)

/-- `NewPage(page_id)`: a victim frame, written back if dirty and out of the page table, becomes
the zeroed, pinned page whose id `AllocatePage()` then hands out; `none` is `nullptr`, returned
before `AllocatePage` is called. -/
def newPage (s : BufferPoolManager D) : Except String (BufferPoolManager D × Option Nat) :=
  (getVictimPage s).map fun
    | (s, none) => (s, none)
    | (s, some target) =>
        let (s, pageId) := (evict s target).allocatePage
        ({ s with
            pages := Function.update s.pages target ⟨pageId, 1, false, 0⟩
            pageTable := Function.update s.pageTable pageId (some target) }, some target)

/-- `CheckAllUnpined()`: whether every frame from 1 to `pool_size_ - 1` has pin count 0. The loop
starts at frame 1, so frame 0 is not looked at. -/
def checkAllUnpined (s : BufferPoolManager D) : Bool :=
  (List.range' 1 (s.poolSize - 1)).all fun i => (s.pages i).pinCount = 0

/-! ## `AllocatePage` runs in `NewPage` only -/

section Allocator

variable {s s' : BufferPoolManager D}

theorem getVictimPage_nextPageId {r : Option Nat} (run : s.getVictimPage = .ok (s', r)) :
    s'.nextPageId = s.nextPageId := by
  unfold getVictimPage at run
  split at run
  · split_ifs at run; cases run; rfl
  · split_ifs at run
    · cases run; rfl
    · split at run <;> (try split_ifs at run) <;> cases run; rfl

theorem fetchPage_nextPageId {p : Int} {r : Option Nat} (run : s.fetchPage p = .ok (s', r)) :
    s'.nextPageId = s.nextPageId := by
  unfold fetchPage callReplacer at run
  split at run
  · split at run <;> simp only [Except.map, reduceCtorEq, Except.ok.injEq] at run
    cases run; rfl
  · cases victim : s.getVictimPage with
    | error => simp [victim, Except.map] at run
    | ok result =>
        obtain ⟨s₁, frame⟩ := result
        have kept := getVictimPage_nextPageId victim
        cases frame <;> simp only [victim, Except.map, Except.ok.injEq] at run <;> cases run <;>
          exact kept

/-- `NewPage` moves the allocator by one exactly when it returns a frame. -/
theorem newPage_nextPageId {r : Option Nat} (run : s.newPage = .ok (s', r)) :
    s'.nextPageId = if r.isSome then s.nextPageId + 1 else s.nextPageId := by
  unfold newPage at run
  cases victim : s.getVictimPage with
  | error => simp [victim, Except.map] at run
  | ok result =>
      obtain ⟨s₁, frame⟩ := result
      have kept := getVictimPage_nextPageId victim
      cases frame <;> simp only [victim, Except.map, Except.ok.injEq] at run <;> cases run
      · exact kept
      · simp [allocatePage, evict, kept]

theorem unpinPage_nextPageId {p : Int} {isDirty r : Bool}
    (run : s.unpinPage p isDirty = .ok (s', r)) : s'.nextPageId = s.nextPageId := by
  unfold unpinPage at run
  split at run
  · cases run; rfl
  · split_ifs at run
    · unfold callReplacer at run
      split at run <;> simp only [Except.map, reduceCtorEq, Except.ok.injEq] at run
      cases run; rfl
    · cases run; rfl

theorem flushPage_nextPageId {p : Int} {r : Bool} (run : s.flushPage p = .ok (s', r)) :
    s'.nextPageId = s.nextPageId := by
  unfold flushPage at run
  split at run
  · cases run; rfl
  · split_ifs at run <;> cases run <;> rfl

theorem deletePage_nextPageId {p : Int} {r : Bool} (run : s.deletePage p = .ok (s', r)) :
    s'.nextPageId = s.nextPageId := by
  unfold deletePage at run
  split at run
  · cases run; rfl
  · split_ifs at run
    · cases run; rfl
    · unfold callReplacer at run
      split at run <;> simp only [Except.map, reduceCtorEq, Except.ok.injEq] at run
      cases run; rfl

end Allocator

end BufferPoolManager

end ScuDb.Buffer
