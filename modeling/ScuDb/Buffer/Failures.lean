import ScuDb.Buffer.FrameInvariant

/-!
Contract: the failing calls of the project2 `BufferPoolManager` (src/project/project2/
scudb_initial/src/buffer/buffer_pool_manager.cpp): `FetchPage` and `NewPage` returning `nullptr`,
and `UnpinPage`, `FlushPage` and `DeletePage` returning `false`.

Owns: when each call fails, and that a failed call leaves the whole pool as it was.

Does not own: the frame bookkeeping these facts are read from (`ScuDb.Buffer.FrameInvariant`).

## Model

The disk manager's next page id is part of the state, so "the whole pool as it was" covers it:
a failing `NewPage` returns before `AllocatePage` runs, and a `NewPage` that returns a frame moves
the id by one and gives the frame the id it handed out.
-/

set_option linter.unusedSectionVars false

namespace ScuDb.Buffer

namespace BufferPoolManager

variable {D : Type} [Zero D]

section Failures

variable {s : BufferPoolManager D} (inv : FrameInvariant s)
include inv

/-- The free list and the replacer are both empty exactly when every frame of the pool is
pinned. -/
theorem FrameInvariant.nothing_free_iff :
    (s.freeList = [] ∧ s.replacer.recencyList = []) ↔
      ∀ f < s.poolSize, 0 < (s.pages f).pinCount := by
  constructor
  · rintro ⟨free, empty⟩ f inPool
    rcases inv.place inPool with ⟨member, -⟩ | ⟨-, member, -⟩ | ⟨-, -, -, pinned⟩
    · simp [free] at member
    · simp [empty] at member
    · exact pinned
  · intro pinned
    refine ⟨List.eq_nil_iff_forall_not_mem.2 fun f member => ?_,
      List.eq_nil_iff_forall_not_mem.2 fun f member => ?_⟩
    · obtain ⟨inPool, invalid⟩ := (inv.freeList f).1 member
      have := pinned f inPool
      simp [(inv.freeFrames f invalid).1] at this
    · obtain ⟨inPool, -, unpinned⟩ := (inv.replacer f).1 member
      have := pinned f inPool
      omega

/-- `FetchPage` returns `nullptr` only for a page not in the pool when every frame is pinned, and
then changes nothing. -/
theorem FrameInvariant.fetchPage_none {p : Int} {s' : BufferPoolManager D}
    (run : s.fetchPage p = .ok (s', none)) :
    s' = s ∧ s.pageTable p = none ∧ ∀ f < s.poolSize, 0 < (s.pages f).pinCount := by
  cases named : s.pageTable p with
  | some target =>
      obtain ⟨_, -, -, hit⟩ := inv.fetchPage_hit named
      cases run.symm.trans hit
  | none =>
      rcases inv.fetchPage_miss named with ⟨free, empty, miss⟩ | ⟨_, _, _, _, _, _, miss⟩ <;>
        cases run.symm.trans miss
      exact ⟨rfl, rfl, (inv.nothing_free_iff).1 ⟨free, empty⟩⟩

/-- `FetchPage` of a page not in the pool returns `nullptr` exactly when every frame is pinned. -/
theorem FrameInvariant.fetchPage_none_iff {p : Int} (unnamed : s.pageTable p = none) :
    (∃ s', s.fetchPage p = .ok (s', none)) ↔ ∀ f < s.poolSize, 0 < (s.pages f).pinCount := by
  refine ⟨fun ⟨_, run⟩ => (inv.fetchPage_none run).2.2, fun pinned => ?_⟩
  rcases inv.fetchPage_miss unnamed with ⟨-, -, miss⟩ | ⟨target, _, inPool, unpinned, -, -, -⟩
  · exact ⟨s, miss⟩
  · have := pinned target inPool
    omega

/-- `NewPage` returns `nullptr` exactly when every frame is pinned, and then changes nothing. -/
theorem FrameInvariant.newPage_none_iff :
    s.newPage = .ok (s, none) ↔ ∀ f < s.poolSize, 0 < (s.pages f).pinCount := by
  rcases inv.newPage_spec with ⟨free, empty, run⟩ |
    ⟨target, _, inPool, unpinned, -, -, run⟩
  · exact iff_of_true run ((inv.nothing_free_iff).1 ⟨free, empty⟩)
  · rw [run]
    refine iff_of_false (by simp) fun pinned => ?_
    have := pinned target inPool
    omega

/-- A `NewPage` that returns a frame has called `AllocatePage` once: the next page id moved by
one, and the frame holds the id handed out. -/
theorem FrameInvariant.newPage_some {s' : BufferPoolManager D} {target : Nat}
    (run : s.newPage = .ok (s', some target)) :
    s'.nextPageId = s.nextPageId + 1 ∧ (s'.pages target).pageId = s.nextPageId := by
  rcases inv.newPage_spec with ⟨-, -, run'⟩ | ⟨_, _, -, -, -, -, run'⟩ <;>
    cases run.symm.trans run'
  simp

end Failures

/-- `UnpinPage` returns `false` only for a page not in the pool, and then changes nothing. -/
theorem unpinPage_false {s s' : BufferPoolManager D} {p : Int} {isDirty : Bool}
    (run : s.unpinPage p isDirty = .ok (s', false)) : s' = s := by
  simp only [unpinPage] at run
  split at run
  · cases run; rfl
  · split_ifs at run with spent last
    · simp only [callReplacer] at run
      split at run <;> simp [Except.map] at run
    · cases run

/-- `FlushPage` returns `false` only for a page not in the pool, and then changes nothing. -/
theorem flushPage_false {s s' : BufferPoolManager D} {p : Int}
    (run : s.flushPage p = .ok (s', false)) : s' = s := by
  simp only [flushPage] at run
  split at run
  · cases run; rfl
  · split_ifs at run <;> cases run

/-- `DeletePage` returns `false` only for a pinned page, and then changes nothing. -/
theorem deletePage_false {s s' : BufferPoolManager D} {p : Int}
    (run : s.deletePage p = .ok (s', false)) : s' = s := by
  simp only [deletePage] at run
  split at run
  · cases run
  · split_ifs at run
    · cases run; rfl
    · simp only [callReplacer] at run
      split at run <;> simp [Except.map] at run

/-- **Failures are clean.** In every reachable state of the pool: `FetchPage` of a page not in
the pool, and `NewPage`, return `nullptr` exactly when every frame is pinned; a `nullptr` from
either, and a `false` from `UnpinPage`, `FlushPage` or `DeletePage`, leaves the page table, the
free list, the replacer, every frame, the disk and the disk manager's next page id as they were.
So a failing `NewPage` never calls `AllocatePage`, and one that returns a frame calls it once,
for the id the frame then holds. -/
theorem failures_leave_pool_unchanged {s : BufferPoolManager D} {allocated : List Int}
    (reachable : Reachable s allocated) :
    (∀ p, s.pageTable p = none →
      ((∃ s', s.fetchPage p = .ok (s', none)) ↔ ∀ f < s.poolSize, 0 < (s.pages f).pinCount)) ∧
    ((∃ s', s.newPage = .ok (s', none)) ↔ ∀ f < s.poolSize, 0 < (s.pages f).pinCount) ∧
    (∀ p s', s.fetchPage p = .ok (s', none) → s' = s) ∧
    (∀ s', s.newPage = .ok (s', none) → s' = s) ∧
    (∀ s' target, s.newPage = .ok (s', some target) →
      s'.nextPageId = s.nextPageId + 1 ∧ (s'.pages target).pageId = s.nextPageId) ∧
    (∀ p isDirty s', s.unpinPage p isDirty = .ok (s', false) → s' = s) ∧
    (∀ p s', s.flushPage p = .ok (s', false) → s' = s) ∧
    (∀ p s', s.deletePage p = .ok (s', false) → s' = s) := by
  have inv := reachable.allocatedInvariant.frames
  refine ⟨fun p unnamed => inv.fetchPage_none_iff unnamed, ?_,
    fun p s' run => (inv.fetchPage_none run).1, fun s' run => inv.newPage_none run,
    fun s' target run => inv.newPage_some run,
    fun _ _ _ => unpinPage_false, fun _ _ => flushPage_false, fun _ _ => deletePage_false⟩
  rw [← inv.newPage_none_iff]
  exact ⟨fun ⟨s', run⟩ => inv.newPage_none run ▸ run, fun run => ⟨s, run⟩⟩

/-- Two frames, pinned by the pages `0` and `1` that two `NewPage`s handed out: a third `NewPage`
returns `nullptr`, and the disk manager's next page id stays at `2`. -/
theorem failures_leave_pool_unchanged_both_pinned :
    ∃ s : BufferPoolManager Nat, Reachable s [1, 0] ∧
      (s.newPage = .ok (s, none) ∧ s.nextPageId = 2) ∧
      (∀ p, s.pageTable p = none →
        ((∃ s', s.fetchPage p = .ok (s', none)) ↔ ∀ f < s.poolSize, 0 < (s.pages f).pinCount)) ∧
      ((∃ s', s.newPage = .ok (s', none)) ↔ ∀ f < s.poolSize, 0 < (s.pages f).pinCount) ∧
      (∀ p s', s.fetchPage p = .ok (s', none) → s' = s) ∧
      (∀ s', s.newPage = .ok (s', none) → s' = s) ∧
      (∀ s' target, s.newPage = .ok (s', some target) →
        s'.nextPageId = s.nextPageId + 1 ∧ (s'.pages target).pageId = s.nextPageId) ∧
      (∀ p isDirty s', s.unpinPage p isDirty = .ok (s', false) → s' = s) ∧
      (∀ p s', s.flushPage p = .ok (s', false) → s' = s) ∧
      (∀ p s', s.deletePage p = .ok (s', false) → s' = s) := by
  have both := Reachable.newPage (.newPage (.init 2 fun _ => (0 : Nat)) rfl) rfl
  exact ⟨_, both, ⟨rfl, rfl⟩, failures_leave_pool_unchanged both⟩

end BufferPoolManager

end ScuDb.Buffer
