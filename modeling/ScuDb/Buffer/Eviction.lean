import ScuDb.Buffer.FrameInvariant

/-!
Contract: the eviction order of the project2 `BufferPoolManager` (src/project/project2/
scudb_initial/src/buffer/buffer_pool_manager.cpp): `FetchPage` on a miss and `NewPage` take the
front of the free list, and otherwise the frame whose pin count dropped to 0 least recently.

Owns: the runs of the pool with the time each frame's pin count last dropped to 0 in `UnpinPage`
(`TimedRun`), the order of the replacer's list by those times (`ReleaseOrdered`), and the frame an
eviction should take (`LruChoice`).

Does not own: the frame bookkeeping (`ScuDb.Buffer.FrameInvariant`) and the replacer's list
(`ScuDb.Buffer.LRUReplacer`).

## Model

A drop of a pin count to 0 in `UnpinPage` is an event of the run; `clock` counts the `UnpinPage`
calls, and `released f` is the count at the last drop of `f`. A `FetchPage` hit takes the frame
out of the replacer, so a later drop gives it a new, later time.
-/

set_option linter.unusedSectionVars false

namespace ScuDb.Buffer

namespace BufferPoolManager

variable {D : Type} [Zero D]

/-- The release times after `UnpinPage(p)`: the frame of `p` gets time `clock` when its last pin
goes. -/
def releaseTime (s : BufferPoolManager D) (p : Int) (released : Nat → Nat) (clock : Nat) :
    Nat → Nat :=
  match s.pageTable p with
  | some target =>
      if (s.pages target).pinCount - 1 = 0 then Function.update released target clock else released
  | none => released

/-- The runs of `Reachable`, with the release time of each frame and the number of `UnpinPage`
calls so far. -/
inductive TimedRun : BufferPoolManager D → List Int → (Nat → Nat) → Nat → Prop
  | init (poolSize : Nat) (disk : Int → D) : TimedRun (init poolSize disk) [] (fun _ => 0) 0
  | fetchPage {s s' : BufferPoolManager D} {allocated : List Int} {released : Nat → Nat}
      {clock : Nat} {p : Int} {r : Option Nat} :
      TimedRun s allocated released clock → p ∈ allocated → s.fetchPage p = .ok (s', r) →
      TimedRun s' allocated released clock
  | newPage {s s' : BufferPoolManager D} {allocated : List Int} {released : Nat → Nat}
      {clock : Nat} {target : Nat} :
      TimedRun s allocated released clock → s.newPage = .ok (s', some target) →
      TimedRun s' (s.nextPageId :: allocated) released clock
  | newPageNull {s s' : BufferPoolManager D} {allocated : List Int} {released : Nat → Nat}
      {clock : Nat} :
      TimedRun s allocated released clock → s.newPage = .ok (s', none) →
      TimedRun s' allocated released clock
  | unpinPage {s s' : BufferPoolManager D} {allocated : List Int} {released : Nat → Nat}
      {clock : Nat} {p : Int} {isDirty r : Bool} :
      TimedRun s allocated released clock →
      (∀ f, s.pageTable p = some f → 0 < (s.pages f).pinCount) →
      s.unpinPage p isDirty = .ok (s', r) →
      TimedRun s' allocated (releaseTime s p released clock) (clock + 1)
  | flushPage {s s' : BufferPoolManager D} {allocated : List Int} {released : Nat → Nat}
      {clock : Nat} {p : Int} {r : Bool} :
      TimedRun s allocated released clock → s.flushPage p = .ok (s', r) →
      TimedRun s' allocated released clock
  | deletePage {s s' : BufferPoolManager D} {allocated : List Int} {released : Nat → Nat}
      {clock : Nat} {p : Int} {r : Bool} :
      TimedRun s allocated released clock → s.deletePage p = .ok (s', r) →
      TimedRun s' allocated released clock

/-- A timed run is a run of `Reachable`. -/
theorem TimedRun.reachable {s : BufferPoolManager D} {allocated : List Int}
    {released : Nat → Nat} {clock : Nat} (run : TimedRun s allocated released clock) :
    Reachable s allocated := by
  induction run with
  | init poolSize disk => exact .init poolSize disk
  | fetchPage _ member step reachable => exact reachable.fetchPage member step
  | newPage _ step reachable => exact reachable.newPage step
  | newPageNull _ step reachable => exact reachable.newPageNull step
  | unpinPage _ pinned step reachable => exact reachable.unpinPage pinned step
  | flushPage _ step reachable => exact reachable.flushPage step
  | deletePage _ step reachable => exact reachable.deletePage step

/-- Every run of `Reachable` has its release times. -/
theorem Reachable.exists_timedRun {s : BufferPoolManager D} {allocated : List Int}
    (reachable : Reachable s allocated) : ∃ released clock, TimedRun s allocated released clock := by
  induction reachable with
  | init poolSize disk => exact ⟨_, _, .init poolSize disk⟩
  | fetchPage _ member step timed =>
      obtain ⟨_, _, run⟩ := timed; exact ⟨_, _, run.fetchPage member step⟩
  | newPage _ step timed => obtain ⟨_, _, run⟩ := timed; exact ⟨_, _, run.newPage step⟩
  | newPageNull _ step timed => obtain ⟨_, _, run⟩ := timed; exact ⟨_, _, run.newPageNull step⟩
  | unpinPage _ pinned step timed =>
      obtain ⟨_, _, run⟩ := timed; exact ⟨_, _, run.unpinPage pinned step⟩
  | flushPage _ step timed => obtain ⟨_, _, run⟩ := timed; exact ⟨_, _, run.flushPage step⟩
  | deletePage _ step timed => obtain ⟨_, _, run⟩ := timed; exact ⟨_, _, run.deletePage step⟩

/-! ## The replacer's list is ordered by release time -/

/-- The replacer's list, most recent first, is in decreasing order of release time, and every
time in it is before `clock`. -/
structure ReleaseOrdered (s : BufferPoolManager D) (released : Nat → Nat) (clock : Nat) : Prop where
  ordered : s.replacer.recencyList.Pairwise fun a b => released b < released a
  past : ∀ f ∈ s.replacer.recencyList, released f < clock

theorem ReleaseOrdered.sublist {s s' : BufferPoolManager D} {released : Nat → Nat} {clock : Nat}
    (order : ReleaseOrdered s released clock)
    (sub : s'.replacer.recencyList.Sublist s.replacer.recencyList) :
    ReleaseOrdered s' released clock :=
  ⟨order.ordered.sublist sub, fun f member => order.past f (sub.subset member)⟩

section Steps

variable {s s' : BufferPoolManager D} (inv : FrameInvariant s)
include inv

theorem FrameInvariant.fetchPage_sublist {p : Int} {r : Option Nat}
    (run : s.fetchPage p = .ok (s', r)) :
    s'.replacer.recencyList.Sublist s.replacer.recencyList := by
  cases named : s.pageTable p with
  | some target =>
      obtain ⟨_, -, recency, hit⟩ := inv.fetchPage_hit named
      cases run.symm.trans hit
      exact recency ▸ List.erase_sublist _ _
  | none =>
      rcases inv.fetchPage_miss named with ⟨-, -, miss⟩ | ⟨_, _, -, -, -, recency, miss⟩ <;>
        cases run.symm.trans miss
      · exact List.Sublist.refl _
      · exact recency ▸ List.erase_sublist _ _

theorem FrameInvariant.newPage_sublist {r : Option Nat} (run : s.newPage = .ok (s', r)) :
    s'.replacer.recencyList.Sublist s.replacer.recencyList := by
  rcases inv.newPage_spec with ⟨-, -, spec⟩ | ⟨_, _, -, -, -, recency, spec⟩ <;>
    cases run.symm.trans spec
  · exact List.Sublist.refl _
  · exact recency ▸ List.erase_sublist _ _

theorem FrameInvariant.flushPage_sublist {p : Int} {r : Bool} (run : s.flushPage p = .ok (s', r)) :
    s'.replacer.recencyList.Sublist s.replacer.recencyList := by
  cases named : s.pageTable p with
  | some target =>
      cases run.symm.trans (inv.flushPage_named named)
      split_ifs <;> exact List.Sublist.refl _
  | none =>
      simp only [BufferPoolManager.flushPage, named, Except.ok.injEq, Prod.mk.injEq] at run
      exact run.1 ▸ List.Sublist.refl _

theorem FrameInvariant.deletePage_sublist {p : Int} {r : Bool} (run : s.deletePage p = .ok (s', r)) :
    s'.replacer.recencyList.Sublist s.replacer.recencyList := by
  cases named : s.pageTable p with
  | some target =>
      by_cases pinned : 0 < (s.pages target).pinCount
      · simp only [BufferPoolManager.deletePage, named, pinned, if_true, Except.ok.injEq, Prod.mk.injEq] at run
        exact run.1 ▸ List.Sublist.refl _
      · obtain ⟨_, -, recency, spec⟩ := inv.deletePage_unpinned named
          (by have := inv.pinCountNonneg target; omega)
        cases run.symm.trans spec
        exact recency ▸ List.erase_sublist _ _
  | none =>
      simp only [BufferPoolManager.deletePage, named, Except.ok.injEq, Prod.mk.injEq] at run
      exact run.1 ▸ List.Sublist.refl _

/-- `UnpinPage` puts a frame whose last pin goes at the front of the replacer's list, with the
latest release time. -/
theorem ReleaseOrdered.unpinPage {released : Nat → Nat} {clock : Nat}
    (order : ReleaseOrdered s released clock) {p : Int} {isDirty r : Bool}
    (pinned : ∀ f, s.pageTable p = some f → 0 < (s.pages f).pinCount)
    (run : s.unpinPage p isDirty = .ok (s', r)) :
    ReleaseOrdered s' (releaseTime s p released clock) (clock + 1) := by
  cases named : s.pageTable p with
  | none =>
      simp only [BufferPoolManager.unpinPage, named, Except.ok.injEq, Prod.mk.injEq] at run
      obtain ⟨rfl, -⟩ := run
      simp only [releaseTime, named]
      exact ⟨order.ordered, fun f member => Nat.lt_succ_of_lt (order.past f member)⟩
  | some target =>
      obtain ⟨_, -, recency, spec⟩ := inv.unpinPage_pinned named (pinned target named) isDirty
      have sameList : s'.replacer.recencyList = if (s.pages target).pinCount - 1 = 0 then
          target :: s.replacer.recencyList.erase target else s.replacer.recencyList := by cases run.symm.trans spec; exact recency
      simp only [releaseTime, named]
      split_ifs at sameList ⊢ with last
      · have others : ∀ f ∈ s.replacer.recencyList.erase target,
            Function.update released target clock f = released f := fun f member =>
          Function.update_noteq ((inv.replacerValid.recencyList_nodup.mem_erase_iff.1 member).1) _ _
        refine ⟨sameList ▸ List.pairwise_cons.2 ⟨fun f member => ?_, ?_⟩, fun f member => ?_⟩
        · rw [others f member, Function.update_same]
          exact order.past f (List.mem_of_mem_erase member)
        · refine ((order.ordered.sublist (List.erase_sublist _ _)).imp_of_mem ?_)
          intro a b aIn bIn before
          rwa [others a aIn, others b bIn]
        · rcases List.mem_cons.1 (sameList ▸ member) with rfl | member
          · simp
          · rw [others f member]
            exact Nat.lt_succ_of_lt (order.past f (List.mem_of_mem_erase member))
      · exact ⟨sameList ▸ order.ordered,
          fun f member => Nat.lt_succ_of_lt (order.past f (sameList ▸ member))⟩

end Steps

/-- Along every timed run the frame invariant holds and the replacer's list is ordered by release
time. -/
theorem TimedRun.releaseOrdered {s : BufferPoolManager D} {allocated : List Int}
    {released : Nat → Nat} {clock : Nat} (run : TimedRun s allocated released clock) :
    ReleaseOrdered s released clock := by
  induction run with
  | init poolSize disk =>
      have empty : (BufferPoolManager.init poolSize disk : BufferPoolManager D).replacer.recencyList =
          [] := by
        simp [BufferPoolManager.init, (wellformed_init (T := Nat)).recencyList_eq]
      exact ⟨empty ▸ List.Pairwise.nil, fun f member => by simp [empty] at member⟩
  | fetchPage prior _ step order =>
      exact order.sublist (prior.reachable.allocatedInvariant.frames.fetchPage_sublist step)
  | newPage prior step order =>
      exact order.sublist (prior.reachable.allocatedInvariant.frames.newPage_sublist step)
  | newPageNull prior step order =>
      exact order.sublist (prior.reachable.allocatedInvariant.frames.newPage_sublist step)
  | unpinPage prior pinned step order =>
      exact order.unpinPage prior.reachable.allocatedInvariant.frames pinned step
  | flushPage prior step order =>
      exact order.sublist (prior.reachable.allocatedInvariant.frames.flushPage_sublist step)
  | deletePage prior step order =>
      exact order.sublist (prior.reachable.allocatedInvariant.frames.deletePage_sublist step)

/-! ## The victim -/

/-- The frame released least recently: a frame of the pool holding a page, unpinned, whose pin
count dropped to 0 before that of every other unpinned frame holding a page. -/
def LeastRecentlyReleased (s : BufferPoolManager D) (released : Nat → Nat) (target : Nat) : Prop :=
  target < s.poolSize ∧ (s.pages target).pageId ≠ invalidPageId ∧ (s.pages target).pinCount = 0 ∧
    ∀ g < s.poolSize, (s.pages g).pageId ≠ invalidPageId → (s.pages g).pinCount = 0 → g ≠ target →
      released target < released g

/-- With a frame on the free list, `GetVictimPage` returns the front one, which is unpinned. -/
theorem FrameInvariant.getVictimPage_front {s : BufferPoolManager D} (inv : FrameInvariant s)
    {front : Nat} {rest : List Nat} (free : s.freeList = front :: rest) :
    (s.pages front).pinCount = 0 ∧ ∃ s', s.getVictimPage = .ok (s', some front) := by
  obtain ⟨-, invalid⟩ := (inv.freeList front).1 (free ▸ List.mem_cons_self front rest)
  have unpinned := (inv.freeFrames front invalid).1
  exact ⟨unpinned, { s with freeList := rest },
    by simp [BufferPoolManager.getVictimPage, free, invalid, unpinned]⟩

/-- With the free list empty and the replacer not, `GetVictimPage` returns the last frame of the
replacer's list, the one released least recently. -/
theorem ReleaseOrdered.getVictimPage_last {s : BufferPoolManager D} {released : Nat → Nat}
    {clock : Nat} (order : ReleaseOrdered s released clock) (inv : FrameInvariant s)
    (free : s.freeList = []) (nonempty : s.replacer.recencyList ≠ []) :
    ∃ target, LeastRecentlyReleased s released target ∧
      ∃ s', s.getVictimPage = .ok (s', some target) := by
  obtain ⟨found, out, replacer, victim, -, last, -⟩ := inv.replacerValid.victim 0
  obtain ⟨x, lastX⟩ := Option.ne_none_iff_exists'.1 (mt List.getLast?_eq_none_iff.1 nonempty)
  obtain ⟨rfl, rfl⟩ : found = true ∧ out = x := by cases found <;> simp_all
  obtain ⟨inPool, valid, unpinned⟩ := (inv.replacer out).1 (List.mem_of_getLast?_eq_some lastX)
  refine ⟨out, ⟨inPool, valid, unpinned, fun g gInPool gValid gUnpinned other => ?_⟩,
    { s with replacer := replacer }, ?_⟩
  · have member := (inv.replacer g).2 ⟨gInPool, gValid, gUnpinned⟩
    obtain ⟨front, split⟩ : ∃ front, s.replacer.recencyList = front ++ [out] :=
      ⟨_, (List.dropLast_append_getLast? _ lastX).symm⟩
    have ordered := order.ordered
    rw [split, List.pairwise_append] at ordered
    rw [split, List.mem_append, List.mem_singleton] at member
    exact ordered.2.2 g (member.resolve_right other) out (List.mem_singleton_self _)
  · simp [BufferPoolManager.getVictimPage, free, inv.replacerValid.size_eq, nonempty, victim,
      unpinned]

/-- A `FetchPage` miss returns the frame `GetVictimPage` returns. -/
theorem fetchPage_of_getVictimPage {s s'' : BufferPoolManager D} {p : Int} {target : Nat}
    (unnamed : s.pageTable p = none) (victim : s.getVictimPage = .ok (s'', some target)) :
    ∃ s', s.fetchPage p = .ok (s', some target) :=
  ⟨_, by simp only [BufferPoolManager.fetchPage, unnamed, victim, Except.map]; rfl⟩

/-- `NewPage` returns the frame `GetVictimPage` returns. -/
theorem newPage_of_getVictimPage {s s'' : BufferPoolManager D} {target : Nat}
    (victim : s.getVictimPage = .ok (s'', some target)) :
    ∃ s', s.newPage = .ok (s', some target) :=
  ⟨_, by simp only [BufferPoolManager.newPage, victim, Except.map]; rfl⟩

/-- **The pool evicts in LRU order.** Along every run, with the time each frame's pin count last
dropped to 0 in `UnpinPage`: while the free list is not empty, a `FetchPage` miss and a `NewPage`
return its front frame, which is unpinned; once it is empty and the replacer is not, they return
the frame holding a page whose pin count dropped to 0 before that of every other unpinned frame
holding a page. -/
theorem evicts_least_recently_released {s : BufferPoolManager D} {allocated : List Int}
    {released : Nat → Nat} {clock : Nat} (run : TimedRun s allocated released clock) :
    (∀ front rest, s.freeList = front :: rest → (s.pages front).pinCount = 0 ∧
      (∀ p, s.pageTable p = none → ∃ s', s.fetchPage p = .ok (s', some front)) ∧
      ∃ s', s.newPage = .ok (s', some front)) ∧
    (s.freeList = [] → s.replacer.recencyList ≠ [] → ∃ target,
      LeastRecentlyReleased s released target ∧
      (∀ p, s.pageTable p = none → ∃ s', s.fetchPage p = .ok (s', some target)) ∧
      ∃ s', s.newPage = .ok (s', some target)) := by
  have inv := run.reachable.allocatedInvariant.frames
  refine ⟨fun front rest free => ?_, fun free nonempty => ?_⟩
  · obtain ⟨unpinned, _, victim⟩ := inv.getVictimPage_front free
    exact ⟨unpinned, fun p unnamed => fetchPage_of_getVictimPage unnamed victim,
      newPage_of_getVictimPage victim⟩
  · obtain ⟨target, least, _, victim⟩ := run.releaseOrdered.getVictimPage_last inv free nonempty
    exact ⟨target, least, fun p unnamed => fetchPage_of_getVictimPage unnamed victim,
      newPage_of_getVictimPage victim⟩

/-- Two frames. `NewPage` twice (pages `0` and `1`), then `UnpinPage(1, false)` before
`UnpinPage(0, false)`: the free list is empty, both frames are in the replacer, and frame `1`,
released first, is the one a `FetchPage` miss or a `NewPage` takes. -/
theorem evicts_least_recently_released_two_released :
    ∃ (s : BufferPoolManager Nat) (released : Nat → Nat),
      TimedRun s [1, 0] released 2 ∧
      (s.freeList = [] ∧ s.replacer.recencyList = [0, 1] ∧ released 1 < released 0) ∧
      (∀ front rest, s.freeList = front :: rest → (s.pages front).pinCount = 0 ∧
        (∀ p, s.pageTable p = none → ∃ s', s.fetchPage p = .ok (s', some front)) ∧
        ∃ s', s.newPage = .ok (s', some front)) ∧
      (s.freeList = [] → s.replacer.recencyList ≠ [] → ∃ target,
        LeastRecentlyReleased s released target ∧
        (∀ p, s.pageTable p = none → ∃ s', s.fetchPage p = .ok (s', some target)) ∧
        ∃ s', s.newPage = .ok (s', some target)) := by
  have both := TimedRun.newPage (.newPage (.init 2 fun _ => (0 : Nat)) rfl) rfl
  have first := TimedRun.unpinPage (p := 1) both (fun _ named => by cases named; decide)
    (show unpinPage _ 1 false = .ok (_, true) from rfl)
  have second := TimedRun.unpinPage (p := 0) first (fun _ named => by cases named; decide)
    (show unpinPage _ 0 false = .ok (_, true) from rfl)
  exact ⟨_, _, second, ⟨rfl, rfl, by decide⟩, evicts_least_recently_released second⟩

end BufferPoolManager

end ScuDb.Buffer
