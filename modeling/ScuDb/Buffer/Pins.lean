import ScuDb.Buffer.Failures

/-!
Contract: the pin counts of the project2 `BufferPoolManager`
(src/project/project2/scudb_initial/src/buffer/buffer_pool_manager.cpp) count the pins its
clients hold. Over every run in which a client unpins only a page it holds a pin on, the frame the
page table names for a page has as its `pin_count_` the number of pins held on that page, and a
page no frame holds has none held; `CheckAllUnpined()` returns `true` exactly when no pin is held
on a page of frames 1 to `pool_size_ - 1`, so a pin on the page of frame 0 goes unreported.

Owns: the pins of each page read off the pool (`pinsHeld`), the runs of the pool with the pins its
clients hold (`PinRun`), and what each operation does to the pins.

Does not own: the frame bookkeeping (`ScuDb.Buffer.FrameInvariant`), whose step lemmas this module
reuses, and the pins a client takes and gives back around one page (`ScuDb.Buffer.Borrow`).

## Why two lemmas for the writes

`FetchPage` on a hit, `UnpinPage` and `FlushPage` rewrite the frame the page table names for their
page and leave the table alone, so only that page's pins can change (`pinsHeld_update`).
`FetchPage` on a miss and `NewPage` install their page in an unpinned frame, which takes no pin
from the page it held before (`pinsHeld_install`).
-/

set_option linter.unusedSectionVars false

namespace ScuDb.Buffer

namespace BufferPoolManager

variable {D : Type} [Zero D]

/-- The pins held on page `p`, read off the pool: the pin count of the frame the page table names
for `p`, none when it names no frame. -/
def pinsHeld (s : BufferPoolManager D) (p : Int) : Int :=
  match s.pageTable p with
  | some f => (s.pages f).pinCount
  | none => 0

theorem pinsHeld_of_named {s : BufferPoolManager D} {p : Int} {f : Nat}
    (named : s.pageTable p = some f) : s.pinsHeld p = (s.pages f).pinCount := by
  simp [pinsHeld, named]

theorem pinsHeld_of_unnamed {s : BufferPoolManager D} {p : Int} (unnamed : s.pageTable p = none) :
    s.pinsHeld p = 0 := by
  simp [pinsHeld, unnamed]

/-! ## What each operation does to the pins -/

section Operations

variable {s s' : BufferPoolManager D} (inv : FrameInvariant s)
include inv

/-- The page table names a frame for one page at most. -/
theorem FrameInvariant.eq_of_named {p q : Int} {f : Nat} (named : s.pageTable p = some f)
    (namedQ : s.pageTable q = some f) : q = p :=
  (inv.pageId_ne_of_pageTable namedQ).1.symm.trans (inv.pageId_ne_of_pageTable named).1

/-- A write to the frame the page table names for `p`, with the table left as it is, changes the
pins of `p` only. -/
theorem FrameInvariant.pinsHeld_update (s' : BufferPoolManager D) {p : Int} {target : Nat}
    (named : s.pageTable p = some target) {page : Page D} (table : s'.pageTable = s.pageTable)
    (pages : s'.pages = Function.update s.pages target page) :
    s'.pinsHeld = Function.update s.pinsHeld p page.pinCount := by
  funext q
  by_cases atP : q = p
  · subst atP
    simp [pinsHeld, table, pages, named]
  rw [Function.update_noteq atP]
  cases namedQ : s.pageTable q with
  | none => simp [pinsHeld, table, namedQ]
  | some f =>
      have other : f ≠ target := fun same => atP (inv.eq_of_named named (same ▸ namedQ))
      simp [pinsHeld, table, pages, namedQ, Function.update_noteq other]

/-- Page `p` installed in the unpinned frame `target`, whose old page leaves the page table: the
pins of `p` are those of the frame, and no other page's pins change. -/
theorem FrameInvariant.pinsHeld_install (s' : BufferPoolManager D) {p : Int} {target : Nat}
    (inPool : target < s.poolSize)
    (unpinned : (s.pages target).pinCount = 0) {page : Page D}
    (table : s'.pageTable =
      Function.update (Function.update s.pageTable (s.pages target).pageId none) p (some target))
    (pages : s'.pages = Function.update s.pages target page) :
    s'.pinsHeld = Function.update s.pinsHeld p page.pinCount := by
  funext q
  by_cases atP : q = p
  · subst atP
    simp [pinsHeld, table, pages]
  rw [Function.update_noteq atP]
  by_cases old : q = (s.pages target).pageId
  · subst old
    have before : s.pinsHeld (s.pages target).pageId = 0 := by
      by_cases invalid : (s.pages target).pageId = invalidPageId
      · cases namedQ : s.pageTable (s.pages target).pageId with
        | none => exact pinsHeld_of_unnamed namedQ
        | some f => exact absurd invalid (inv.pageId_ne_of_pageTable namedQ).2
      · rw [pinsHeld_of_named ((inv.pageTable _ target).2 ⟨inPool, rfl, invalid⟩), unpinned]
    rw [before]
    simp [pinsHeld, table, Function.update_noteq atP]
  cases namedQ : s.pageTable q with
  | none => simp [pinsHeld, table, Function.update_noteq atP, Function.update_noteq old, namedQ]
  | some f =>
      have other : f ≠ target := fun same =>
        old ((inv.pageId_ne_of_pageTable (same ▸ namedQ)).1.symm)
      simp [pinsHeld, table, pages, Function.update_noteq atP, Function.update_noteq old, namedQ,
        Function.update_noteq other]

/-- `FetchPage(p)` that returns a frame gives one more pin on `p`. -/
theorem FrameInvariant.fetchPage_pinsHeld {p : Int} {target : Nat}
    (run : s.fetchPage p = .ok (s', some target)) :
    s'.pinsHeld = Function.update s.pinsHeld p (s.pinsHeld p + 1) := by
  cases named : s.pageTable p with
  | some target =>
      obtain ⟨replacer, -, -, run'⟩ := inv.fetchPage_hit named
      have same := (Prod.mk.inj (Except.ok.inj (run.symm.trans run'))).1
      rw [inv.pinsHeld_update s' named (by rw [same]) (by rw [same]), pinsHeld_of_named named]
  | none =>
      rcases inv.fetchPage_miss named with ⟨-, -, run'⟩ |
        ⟨target, replacer, inPool, unpinned, -, -, run'⟩
      · cases run.symm.trans run'
      have same := (Prod.mk.inj (Except.ok.inj (run.symm.trans run'))).1
      rw [inv.pinsHeld_install s' inPool unpinned (by rw [same]) (by rw [same]),
        pinsHeld_of_unnamed named]
      rfl

/-- `NewPage` returning a frame gives one pin on the new page. -/
theorem FrameInvariant.newPage_pinsHeld {target : Nat} (run : s.newPage = .ok (s', some target)) :
    s'.pinsHeld = Function.update s.pinsHeld s.nextPageId 1 := by
  rcases inv.newPage_spec with ⟨-, -, run'⟩ | ⟨target, replacer, inPool, unpinned, -, -, run'⟩
  · cases run.symm.trans run'
  have same := (Prod.mk.inj (Except.ok.inj (run.symm.trans run'))).1
  exact inv.pinsHeld_install s' inPool unpinned (by rw [same]) (by rw [same])

/-- `UnpinPage(p)` of a page some pin is held on gives one pin back. -/
theorem FrameInvariant.unpinPage_pinsHeld {p : Int} {isDirty r : Bool} (pinned : 0 < s.pinsHeld p)
    (run : s.unpinPage p isDirty = .ok (s', r)) :
    s'.pinsHeld = Function.update s.pinsHeld p (s.pinsHeld p - 1) := by
  cases named : s.pageTable p with
  | none => rw [pinsHeld_of_unnamed named] at pinned; exact absurd pinned (lt_irrefl 0)
  | some target =>
      rw [pinsHeld_of_named named] at pinned ⊢
      obtain ⟨replacer, -, -, run'⟩ := inv.unpinPage_pinned named pinned isDirty
      have same := (Prod.mk.inj (Except.ok.inj (run.symm.trans run'))).1
      exact inv.pinsHeld_update s' named (by rw [same]) (by rw [same])

theorem FrameInvariant.flushPage_pinsHeld {p : Int} {r : Bool} (run : s.flushPage p = .ok (s', r)) :
    s'.pinsHeld = s.pinsHeld := by
  cases named : s.pageTable p with
  | none =>
      cases run.symm.trans (show s.flushPage p = .ok (s, false) by
        simp [BufferPoolManager.flushPage, named])
      rfl
  | some target =>
      have same := (Prod.mk.inj (Except.ok.inj (run.symm.trans (inv.flushPage_named named)))).1
      split_ifs at same
      · rw [inv.pinsHeld_update s' named (by rw [same]) (by rw [same]), ← pinsHeld_of_named named,
          Function.update_eq_self]
      · rw [same]

theorem FrameInvariant.deletePage_pinsHeld {p : Int} {r : Bool} (run : s.deletePage p = .ok (s', r)) :
    s'.pinsHeld = s.pinsHeld := by
  cases named : s.pageTable p with
  | none =>
      cases run.symm.trans (show s.deletePage p = .ok (s, true) by
        simp [BufferPoolManager.deletePage, named])
      rfl
  | some target =>
      by_cases pinned : 0 < (s.pages target).pinCount
      · cases run.symm.trans (show s.deletePage p = .ok (s, false) by
          simp [BufferPoolManager.deletePage, named, pinned])
        rfl
      have unpinned : (s.pages target).pinCount = 0 := by
        have := inv.pinCountNonneg target; omega
      obtain ⟨replacer, -, -, run'⟩ := inv.deletePage_unpinned named unpinned
      cases run.symm.trans run'
      funext q
      by_cases atP : q = p
      · subst atP
        simp [pinsHeld, named, unpinned]
      cases namedQ : s.pageTable q with
      | none => simp [pinsHeld, Function.update_noteq atP, namedQ]
      | some f =>
          have other : f ≠ target := fun same => atP (inv.eq_of_named named (same ▸ namedQ))
          simp [pinsHeld, Function.update_noteq atP, namedQ, Function.update_noteq other]

end Operations

/-! ## Runs with the clients' pins -/

/-- The runs of the pool with the pins its clients hold on each page. A `FetchPage` or `NewPage`
that returns a frame hands the client one more pin on its page; a client calls `UnpinPage` only
on a page it holds a pin on, and gives that pin back. The page ids are as in `Reachable`. -/
inductive PinRun : BufferPoolManager D → List Int → (Int → Nat) → Prop
  | init (poolSize : Nat) (disk : Int → D) : PinRun (init poolSize disk) [] fun _ => 0
  | fetchPage {s s' : BufferPoolManager D} {allocated : List Int} {held : Int → Nat} {p : Int}
      {target : Nat} :
      PinRun s allocated held → p ∈ allocated → s.fetchPage p = .ok (s', some target) →
      PinRun s' allocated (Function.update held p (held p + 1))
  | fetchPageNull {s s' : BufferPoolManager D} {allocated : List Int} {held : Int → Nat} {p : Int} :
      PinRun s allocated held → p ∈ allocated → s.fetchPage p = .ok (s', none) →
      PinRun s' allocated held
  | newPage {s s' : BufferPoolManager D} {allocated : List Int} {held : Int → Nat} {target : Nat} :
      PinRun s allocated held → s.newPage = .ok (s', some target) →
      PinRun s' (s.nextPageId :: allocated) (Function.update held s.nextPageId 1)
  | newPageNull {s s' : BufferPoolManager D} {allocated : List Int} {held : Int → Nat} :
      PinRun s allocated held → s.newPage = .ok (s', none) → PinRun s' allocated held
  | unpinPage {s s' : BufferPoolManager D} {allocated : List Int} {held : Int → Nat} {p : Int}
      {isDirty r : Bool} :
      PinRun s allocated held → 0 < held p → s.unpinPage p isDirty = .ok (s', r) →
      PinRun s' allocated (Function.update held p (held p - 1))
  | flushPage {s s' : BufferPoolManager D} {allocated : List Int} {held : Int → Nat} {p : Int}
      {r : Bool} :
      PinRun s allocated held → s.flushPage p = .ok (s', r) → PinRun s' allocated held
  | deletePage {s s' : BufferPoolManager D} {allocated : List Int} {held : Int → Nat} {p : Int}
      {r : Bool} :
      PinRun s allocated held → s.deletePage p = .ok (s', r) → PinRun s' allocated held

/-- A pin ledger that agrees with the pool's pins still agrees after both change at one page. -/
theorem cast_update_apply (held : Int → Nat) (pins : Int → Int)
    (counted : ∀ q, (held q : Int) = pins q) (p : Int) (n : Nat) (q : Int) :
    (Function.update held p n q : Int) = Function.update pins p n q := by
  by_cases atP : q = p
  · subst atP; simp
  · simp [atP, counted]

/-- Every run with pins is a run of `Reachable`, and the pins the pool counts are those held. -/
theorem PinRun.counted {s : BufferPoolManager D} {allocated : List Int} {held : Int → Nat}
    (run : PinRun s allocated held) : Reachable s allocated ∧ ∀ p, (held p : Int) = s.pinsHeld p := by
  induction run with
  | init poolSize disk =>
      exact ⟨.init poolSize disk, fun p => by rw [pinsHeld_of_unnamed rfl]; rfl⟩
  | @fetchPage s _ _ held p _ _ member step inductionHypothesis =>
      obtain ⟨reach, counted⟩ := inductionHypothesis
      have more : ((held p + 1 : Nat) : Int) = s.pinsHeld p + 1 := by have := counted p; omega
      refine ⟨reach.fetchPage member step, fun q => ?_⟩
      rw [reach.allocatedInvariant.frames.fetchPage_pinsHeld step, ← more]
      exact cast_update_apply _ _ counted _ _ q
  | fetchPageNull _ member step inductionHypothesis =>
      obtain ⟨reach, counted⟩ := inductionHypothesis
      exact ⟨reach.fetchPage member step, by
        rwa [(reach.allocatedInvariant.frames.fetchPage_none step).1]⟩
  | newPage _ step inductionHypothesis =>
      obtain ⟨reach, counted⟩ := inductionHypothesis
      refine ⟨reach.newPage step, fun q => ?_⟩
      rw [reach.allocatedInvariant.frames.newPage_pinsHeld step]
      exact cast_update_apply _ _ counted _ _ q
  | newPageNull _ step inductionHypothesis =>
      obtain ⟨reach, counted⟩ := inductionHypothesis
      exact ⟨reach.newPageNull step, by rwa [reach.allocatedInvariant.frames.newPage_none step]⟩
  | @unpinPage s _ _ held p _ _ _ positive step inductionHypothesis =>
      obtain ⟨reach, counted⟩ := inductionHypothesis
      have pinned : 0 < s.pinsHeld p := by have := counted p; omega
      have less : ((held p - 1 : Nat) : Int) = s.pinsHeld p - 1 := by have := counted p; omega
      refine ⟨reach.unpinPage (fun f named => pinsHeld_of_named named ▸ pinned) step, fun q => ?_⟩
      rw [reach.allocatedInvariant.frames.unpinPage_pinsHeld pinned step, ← less]
      exact cast_update_apply _ _ counted _ _ q
  | flushPage _ step inductionHypothesis =>
      obtain ⟨reach, counted⟩ := inductionHypothesis
      exact ⟨reach.flushPage step, by rwa [reach.allocatedInvariant.frames.flushPage_pinsHeld step]⟩
  | deletePage _ step inductionHypothesis =>
      obtain ⟨reach, counted⟩ := inductionHypothesis
      exact ⟨reach.deletePage step, by rwa [reach.allocatedInvariant.frames.deletePage_pinsHeld step]⟩

/-- **Pin counts count the pins held.** Over every run in which a client unpins only a page it
holds a pin on, the frame the page table names for a page has as its pin count the pins held on
that page, a page no frame holds has no pin held, and `CheckAllUnpined()` returns `true` exactly
when no pin is held on the page of a frame other than frame 0. -/
theorem pins_counted {s : BufferPoolManager D} {allocated : List Int} {held : Int → Nat}
    (run : PinRun s allocated held) :
    (∀ p f, s.pageTable p = some f → (s.pages f).pinCount = held p) ∧
      (∀ p, s.pageTable p = none → held p = 0) ∧
      (s.checkAllUnpined = true ↔ ∀ p f, s.pageTable p = some f → 1 ≤ f → held p = 0) := by
  obtain ⟨reach, counted⟩ := run.counted
  have inv := reach.allocatedInvariant.frames
  have pinCount_eq : ∀ p f, s.pageTable p = some f → (s.pages f).pinCount = held p :=
    fun p f named => (pinsHeld_of_named named).symm.trans (counted p).symm
  refine ⟨pinCount_eq, fun p unnamed => by
    exact_mod_cast (counted p).trans (pinsHeld_of_unnamed unnamed), ?_⟩
  simp only [checkAllUnpined, List.all_eq_true, List.mem_range'_1, decide_eq_true_eq]
  constructor
  · intro unpinned p f named one
    have inPool := ((inv.pageTable p f).1 named).1
    exact_mod_cast (pinCount_eq p f named).symm.trans (unpinned f ⟨one, by omega⟩)
  · intro free f ⟨one, below⟩
    by_cases invalid : (s.pages f).pageId = invalidPageId
    · exact (inv.freeFrames f invalid).1
    · have named := (inv.pageTable _ f).2 ⟨by omega, rfl, invalid⟩
      rw [pinCount_eq _ f named, free _ f named one]
      rfl

/-- `NewPage` on a fresh pool of two frames puts page 0 in frame 0 with one pin held, and
`CheckAllUnpined()` still returns `true`. -/
theorem pins_counted_frame_zero :
    ∃ s, (init (D := Nat) 2 fun _ => 0).newPage = .ok (s, some 0) ∧
      PinRun s [0] (Function.update (fun _ => 0) 0 1) ∧ (s.pages 0).pinCount = 1 ∧
        s.checkAllUnpined = true := by
  refine ⟨_, rfl, .newPage (.init 2 _) rfl, ?_, rfl⟩
  exact (pins_counted (.newPage (.init 2 _) rfl)).1 0 0 rfl

end BufferPoolManager

end ScuDb.Buffer
