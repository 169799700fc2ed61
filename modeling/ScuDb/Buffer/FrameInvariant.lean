import ScuDb.Buffer.BufferPoolManager

/-!
Contract: the bookkeeping invariant of the project2 `BufferPoolManager`. In every state reachable
from the constructor, the page table names exactly the frames holding valid page ids, and every
frame is on the free list, in the replacer, or pinned, with the fields each place requires. So
`GetVictimPage`'s asserts hold and it never hands out a pinned frame.

Owns: `FrameInvariant`, one preservation lemma per operation, `Reachable` and the theorem over
every reachable state.

Does not own: the data the frames hold (`ScuDb.Buffer.NoLostWrite`).

## Why one `install` lemma

`FetchPage` on a miss and `NewPage` do the same thing to the bookkeeping: take a victim frame,
drop its old page id from the page table and enter the frame under a page id no frame holds.
`FrameInvariant.install` proves that once; the two operations differ only in the bytes they put
in the frame, which the invariant does not read.
-/

set_option linter.unusedSectionVars false

namespace ScuDb.Buffer

namespace BufferPoolManager

variable {D : Type} [Zero D]

/-- Where the frames of the pool are. -/
structure FrameInvariant (s : BufferPoolManager D) : Prop where
  /-- The page table names a frame exactly for the valid page id the frame holds. -/
  pageTable : ∀ p f, s.pageTable p = some f ↔
    f < s.poolSize ∧ (s.pages f).pageId = p ∧ p ≠ invalidPageId
  /-- The free list holds the frames of the pool that hold no page. -/
  freeList : ∀ f, f ∈ s.freeList ↔ f < s.poolSize ∧ (s.pages f).pageId = invalidPageId
  /-- The replacer holds the frames of the pool that hold a page and no pin. -/
  replacer : ∀ f, f ∈ s.replacer.recencyList ↔
    f < s.poolSize ∧ (s.pages f).pageId ≠ invalidPageId ∧ (s.pages f).pinCount = 0
  /-- A frame holding no page is unpinned and clean. -/
  freeFrames : ∀ f, (s.pages f).pageId = invalidPageId →
    (s.pages f).pinCount = 0 ∧ (s.pages f).isDirty = false
  pinCountNonneg : ∀ f, 0 ≤ (s.pages f).pinCount
  freeListNodup : s.freeList.Nodup
  replacerValid : s.replacer.Valid

theorem frameInvariant_init (poolSize : Nat) (disk : Int → D) :
    FrameInvariant (init poolSize disk) where
  pageTable p f := by
    simp only [init, reduceCtorEq, false_iff, not_and]
    exact fun _ held valid => valid held.symm
  freeList f := by simp [init]
  replacer f := by
    simp only [init]
    rw [(wellformed_init (T := Nat)).recencyList_eq]
    simp
  freeFrames f _ := ⟨rfl, rfl⟩
  pinCountNonneg f := le_refl 0
  freeListNodup := List.nodup_range poolSize
  replacerValid := ⟨[], wellformed_init⟩

/-- Erasing the last element of a list without repetitions drops it. -/
theorem erase_getLast_eq_dropLast {l : List Nat} {x : Nat} (distinct : l.Nodup)
    (last : l.getLast? = some x) : l.erase x = l.dropLast := by
  obtain ⟨l', rfl⟩ : ∃ l', l = l' ++ [x] := by
    rcases List.eq_nil_or_concat l with rfl | ⟨l', y, rfl⟩
    · simp at last
    · simp only [List.concat_eq_append, List.getLast?_concat, Option.some.injEq] at last
      subst last
      exact ⟨l', List.concat_eq_append _ _⟩
  have notIn : x ∉ l' := List.disjoint_singleton.1 (List.nodup_append.1 distinct).2.2
  rw [List.erase_append_right _ notIn, List.erase_cons_head, List.dropLast_concat]
  simp

theorem pageId_update_of_eq {pages : Nat → Page D} {target : Nat} {page : Page D}
    (keepsId : page.pageId = (pages target).pageId) (f : Nat) :
    (Function.update pages target page f).pageId = (pages f).pageId := by
  by_cases atTarget : f = target
  · subst atTarget; simp [keepsId]
  · simp [atTarget]

theorem pageId_update_or {pages : Nat → Page D} {target : Nat} {page : Page D} (f : Nat) :
    (Function.update pages target page f).pageId = (pages f).pageId ∨
      (Function.update pages target page f).pageId = page.pageId := by
  by_cases atTarget : f = target
  · subst atTarget; simp
  · simp [atTarget]

section Operations

variable {s : BufferPoolManager D} (inv : FrameInvariant s)
include inv

theorem FrameInvariant.not_mem_replacer_of_pinned {f : Nat} (pinned : (s.pages f).pinCount ≠ 0) :
    f ∉ s.replacer.recencyList := fun member => pinned ((inv.replacer f).1 member).2.2

theorem FrameInvariant.pageId_ne_of_pageTable {p : Int} {f : Nat} (named : s.pageTable p = some f) :
    (s.pages f).pageId = p ∧ p ≠ invalidPageId :=
  ((inv.pageTable p f).1 named).2

/-- `GetVictimPage` passes its asserts and returns an unpinned frame of the pool, taken off the
free list or out of the replacer; it returns `nullptr` only when both are empty. -/
theorem FrameInvariant.getVictimPage :
    (s.freeList = [] ∧ s.replacer.recencyList = [] ∧ s.getVictimPage = .ok (s, none)) ∨
    ∃ target replacer, s.getVictimPage =
        .ok ({ s with freeList := s.freeList.erase target, replacer := replacer }, some target) ∧
      target < s.poolSize ∧ (s.pages target).pinCount = 0 ∧ replacer.Valid ∧
      replacer.recencyList = s.replacer.recencyList.erase target := by
  cases free : s.freeList with
  | cons page rest =>
      obtain ⟨inPool, invalid⟩ := (inv.freeList page).1 (free ▸ List.mem_cons_self page rest)
      have unpinned := (inv.freeFrames page invalid).1
      have outside : page ∉ s.replacer.recencyList := fun member =>
        ((inv.replacer page).1 member).2.1 invalid
      refine Or.inr ⟨page, s.replacer, ?_, inPool, unpinned, inv.replacerValid,
        (List.erase_of_not_mem outside).symm⟩
      simp [BufferPoolManager.getVictimPage, free, invalid, unpinned]
  | nil =>
      have size := inv.replacerValid.size_eq
      by_cases empty : s.replacer.recencyList = []
      · refine Or.inl ⟨rfl, empty, ?_⟩
        simp [BufferPoolManager.getVictimPage, free, size, empty]
      · obtain ⟨found, out, replacer, run, valid, last, recency⟩ := inv.replacerValid.victim 0
        obtain ⟨x, lastX⟩ := Option.ne_none_iff_exists'.1 (mt List.getLast?_eq_none_iff.1 empty)
        obtain ⟨rfl, rfl⟩ : found = true ∧ out = x := by
          cases found <;> simp_all
        have member := List.mem_of_getLast?_eq_some lastX
        obtain ⟨inPool, -, unpinned⟩ := (inv.replacer out).1 member
        refine Or.inr ⟨out, replacer, ?_, inPool, unpinned, valid, ?_⟩
        · simp [BufferPoolManager.getVictimPage, free, size, empty, run, unpinned]
        · rw [recency, erase_getLast_eq_dropLast inv.replacerValid.recencyList_nodup lastX]

/-- The bookkeeping of `FetchPage` on a miss and of `NewPage`: the victim `target`, off the free
list and out of the replacer, enters the page table under `p`, a valid page id no frame holds,
after its old page id leaves it. -/
theorem FrameInvariant.install {target : Nat} {replacer : LRUReplacer Nat}
    (inPool : target < s.poolSize) (valid : replacer.Valid)
    (recency : replacer.recencyList = s.replacer.recencyList.erase target) {p : Int}
    (validId : p ≠ invalidPageId) (unheld : ∀ g < s.poolSize, (s.pages g).pageId ≠ p)
    (disk : Int → D) (data : D) (nextPageId : Int) :
    FrameInvariant { s with
      pages := Function.update s.pages target ⟨p, 1, false, data⟩
      pageTable := Function.update (Function.update s.pageTable (s.pages target).pageId none) p
        (some target)
      freeList := s.freeList.erase target
      replacer := replacer
      disk := disk
      nextPageId := nextPageId } where
  pageTable q g := by
    simp only [Function.update_apply]
    by_cases atP : q = p
    · subst atP
      by_cases atTarget : g = target
      · subst atTarget; simp [inPool, validId]
      · simp only [atTarget, ↓reduceIte, Option.some.injEq, Ne.symm atTarget, false_iff, not_and]
        exact fun gInPool held => absurd held (unheld g gInPool)
    · rw [if_neg atP]
      by_cases atOld : q = (s.pages target).pageId
      · rw [if_pos atOld]
        by_cases atTarget : g = target
        · simp [atTarget, Ne.symm atP]
        · simp only [atTarget, if_false, reduceCtorEq, false_iff, not_and]
          intro gInPool held valid'
          have named := (inv.pageTable q g).2 ⟨gInPool, held, valid'⟩
          have named' := (inv.pageTable q target).2 ⟨inPool, atOld.symm, valid'⟩
          exact atTarget (Option.some.inj (named.symm.trans named'))
      · rw [if_neg atOld, inv.pageTable]
        by_cases atTarget : g = target
        · subst atTarget; simp [Ne.symm atP, Ne.symm atOld]
        · simp [atTarget]
  freeList g := by
    rw [inv.freeListNodup.mem_erase_iff, inv.freeList]
    by_cases atTarget : g = target
    · subst atTarget; simp [validId]
    · simp [atTarget]
  replacer g := by
    rw [recency, inv.replacerValid.recencyList_nodup.mem_erase_iff, inv.replacer]
    by_cases atTarget : g = target
    · subst atTarget; simp
    · simp [atTarget]
  freeFrames g := by
    by_cases atTarget : g = target
    · subst atTarget; simp [validId]
    · simpa [atTarget] using inv.freeFrames g
  pinCountNonneg g := by
    by_cases atTarget : g = target
    · subst atTarget; simp
    · simpa [atTarget] using inv.pinCountNonneg g
  freeListNodup := inv.freeListNodup.erase target
  replacerValid := valid

/-! ### What each operation does to a state with the invariant -/

theorem FrameInvariant.fetchPage_hit {p : Int} {target : Nat} (named : s.pageTable p = some target) :
    ∃ replacer, replacer.Valid ∧ replacer.recencyList = s.replacer.recencyList.erase target ∧
      s.fetchPage p = .ok ({ s with
        pages := Function.update s.pages target
          { s.pages target with pinCount := (s.pages target).pinCount + 1 }
        replacer := replacer }, some target) := by
  obtain ⟨replacer, run, valid, recency⟩ := inv.replacerValid.erase target
  exact ⟨replacer, valid, recency, by simp [BufferPoolManager.fetchPage, named, run, callReplacer,
    Except.map]⟩

theorem FrameInvariant.fetchPage_miss {p : Int} (unnamed : s.pageTable p = none) :
    (s.freeList = [] ∧ s.replacer.recencyList = [] ∧ s.fetchPage p = .ok (s, none)) ∨
    ∃ target replacer, target < s.poolSize ∧ (s.pages target).pinCount = 0 ∧ replacer.Valid ∧
      replacer.recencyList = s.replacer.recencyList.erase target ∧
      s.fetchPage p = .ok ({ s with
        pages := Function.update s.pages target ⟨p, 1, false, (evict s target).disk p⟩
        pageTable := Function.update (Function.update s.pageTable (s.pages target).pageId none) p
          (some target)
        freeList := s.freeList.erase target
        replacer := replacer
        disk := (evict s target).disk }, some target) := by
  rcases inv.getVictimPage with ⟨free, empty, run⟩ | ⟨target, replacer, run, rest⟩
  · exact Or.inl ⟨free, empty, by simp [BufferPoolManager.fetchPage, unnamed, run, Except.map]⟩
  · exact Or.inr ⟨target, replacer, rest.1, rest.2.1, rest.2.2.1, rest.2.2.2,
      by simp only [BufferPoolManager.fetchPage, unnamed, run, Except.map]; rfl⟩

theorem FrameInvariant.newPage_spec :
    (s.freeList = [] ∧ s.replacer.recencyList = [] ∧ s.newPage = .ok (s, none)) ∨
    ∃ target replacer, target < s.poolSize ∧ (s.pages target).pinCount = 0 ∧ replacer.Valid ∧
      replacer.recencyList = s.replacer.recencyList.erase target ∧
      s.newPage = .ok ({ s with
        pages := Function.update s.pages target ⟨s.nextPageId, 1, false, 0⟩
        pageTable := Function.update (Function.update s.pageTable (s.pages target).pageId none)
          s.nextPageId (some target)
        freeList := s.freeList.erase target
        replacer := replacer
        disk := (evict s target).disk
        nextPageId := s.nextPageId + 1 }, some target) := by
  rcases inv.getVictimPage with ⟨free, empty, run⟩ | ⟨target, replacer, run, rest⟩
  · exact Or.inl ⟨free, empty, by simp [BufferPoolManager.newPage, run, Except.map]⟩
  · exact Or.inr ⟨target, replacer, rest.1, rest.2.1, rest.2.2.1, rest.2.2.2,
      by simp only [BufferPoolManager.newPage, run, Except.map]; rfl⟩

theorem FrameInvariant.unpinPage_pinned {p : Int} {target : Nat} (named : s.pageTable p = some target)
    (pinned : 0 < (s.pages target).pinCount) (isDirty : Bool) :
    ∃ replacer, replacer.Valid ∧
      replacer.recencyList = (if (s.pages target).pinCount - 1 = 0 then
        target :: s.replacer.recencyList.erase target else s.replacer.recencyList) ∧
      s.unpinPage p isDirty = .ok ({ s with
        pages := Function.update s.pages target
          { s.pages target with
            isDirty := (s.pages target).isDirty || isDirty
            pinCount := (s.pages target).pinCount - 1 }
        replacer := replacer }, true) := by
  have positive : ¬(s.pages target).pinCount ≤ 0 := not_le.2 pinned
  by_cases last : (s.pages target).pinCount - 1 = 0
  · obtain ⟨replacer, run, valid, recency⟩ := inv.replacerValid.insert target
    exact ⟨replacer, valid, by rw [if_pos last, recency],
      by simp [BufferPoolManager.unpinPage, named, positive, last, run, callReplacer, Except.map]⟩
  · exact ⟨s.replacer, inv.replacerValid, by rw [if_neg last],
      by simp [BufferPoolManager.unpinPage, named, positive, last]⟩

theorem FrameInvariant.flushPage_named {p : Int} {target : Nat} (named : s.pageTable p = some target) :
    s.flushPage p = .ok ((if (s.pages target).isDirty then { s with
        disk := Function.update s.disk p (s.pages target).data
        pages := Function.update s.pages target { s.pages target with isDirty := false } }
      else s), true) := by
  have valid := (inv.pageId_ne_of_pageTable named)
  by_cases dirty : (s.pages target).isDirty <;>
    simp [BufferPoolManager.flushPage, named, valid.1, valid.2, dirty]

theorem FrameInvariant.deletePage_unpinned {p : Int} {target : Nat}
    (named : s.pageTable p = some target) (unpinned : (s.pages target).pinCount = 0) :
    ∃ replacer, replacer.Valid ∧ replacer.recencyList = s.replacer.recencyList.erase target ∧
      s.deletePage p = .ok ({ s with
        replacer := replacer
        pageTable := Function.update s.pageTable p none
        pages := Function.update s.pages target ⟨invalidPageId, 0, false, 0⟩
        freeList := s.freeList ++ [target] }, true) := by
  obtain ⟨replacer, run, valid, recency⟩ := inv.replacerValid.erase target
  exact ⟨replacer, valid, recency, by
    simp [BufferPoolManager.deletePage, named, unpinned, run, callReplacer, Except.map]⟩

/-! ### The invariant is kept -/

/-- A frame holding a valid page changes its pin count or dirty flag, and the replacer follows
its pin count. -/
theorem FrameInvariant.retouch {target : Nat} (page : Page D) {replacer : LRUReplacer Nat}
    (inPool : target < s.poolSize) (validFrame : (s.pages target).pageId ≠ invalidPageId)
    (keepsId : page.pageId = (s.pages target).pageId) (nonneg : 0 ≤ page.pinCount)
    (valid : replacer.Valid) (recency : ∀ g, g ∈ replacer.recencyList ↔
      if g = target then page.pinCount = 0 else g ∈ s.replacer.recencyList) (disk : Int → D) :
    FrameInvariant { s with
      pages := Function.update s.pages target page
      replacer := replacer
      disk := disk } := by
  have ids : ∀ g, (Function.update s.pages target page g).pageId = (s.pages g).pageId := fun g => by
    by_cases atTarget : g = target
    · subst atTarget; simp [keepsId]
    · simp [atTarget]
  refine ⟨fun q g => by simp only [ids]; exact inv.pageTable q g,
    fun g => by simp only [ids]; exact inv.freeList g, fun g => ?_, fun g => ?_, fun g => ?_,
    inv.freeListNodup, valid⟩
  · simp only [recency, ids]
    by_cases atTarget : g = target
    · subst atTarget; simp [inPool, validFrame]
    · simp [atTarget, inv.replacer]
  · by_cases atTarget : g = target
    · subst atTarget; simp [keepsId, validFrame]
    · simpa [atTarget] using inv.freeFrames g
  · by_cases atTarget : g = target
    · subst atTarget; simpa using nonneg
    · simpa [atTarget] using inv.pinCountNonneg g

theorem FrameInvariant.fetchPage {p : Int} (validId : p ≠ invalidPageId) :
    ∃ r, s.fetchPage p = .ok r ∧ FrameInvariant r.1 ∧
      ∀ f, (r.1.pages f).pageId = (s.pages f).pageId ∨ (r.1.pages f).pageId = p := by
  cases named : s.pageTable p with
  | some target =>
      obtain ⟨replacer, valid, recency, run⟩ := inv.fetchPage_hit named
      obtain ⟨inPool, -, validFrame⟩ := (inv.pageTable p target).1 named
      have held := (inv.pageId_ne_of_pageTable named).1
      have nonneg := inv.pinCountNonneg target
      refine ⟨_, run, inv.retouch { s.pages target with pinCount := (s.pages target).pinCount + 1 }
        inPool (held ▸ validFrame) rfl (by dsimp only; omega) valid (fun g => ?_) s.disk,
        fun f => Or.inl (pageId_update_of_eq (by rfl) f)⟩
      rw [recency, inv.replacerValid.recencyList_nodup.mem_erase_iff]
      by_cases atTarget : g = target
      · subst atTarget; simp only [ne_eq, not_true_eq_false, false_and, if_true, false_iff]; omega
      · simp [atTarget]
  | none =>
      have unheld : ∀ g < s.poolSize, (s.pages g).pageId ≠ p := fun g inPool held => by
        simpa [named] using (inv.pageTable p g).2 ⟨inPool, held, validId⟩
      rcases inv.fetchPage_miss named with ⟨-, -, run⟩ |
        ⟨target, replacer, inPool, -, valid, recency, run⟩
      · exact ⟨_, run, inv, fun _ => Or.inl rfl⟩
      · exact ⟨_, run, inv.install inPool valid recency validId unheld _ _ _,
          fun f => pageId_update_or f⟩

theorem FrameInvariant.newPage (validId : s.nextPageId ≠ invalidPageId)
    (unheld : ∀ g < s.poolSize, (s.pages g).pageId ≠ s.nextPageId) :
    ∃ r, s.newPage = .ok r ∧ FrameInvariant r.1 ∧
      ∀ f, (r.1.pages f).pageId = (s.pages f).pageId ∨ (r.1.pages f).pageId = s.nextPageId := by
  rcases inv.newPage_spec with ⟨-, -, run⟩ |
    ⟨target, replacer, inPool, -, valid, recency, run⟩
  · exact ⟨_, run, inv, fun _ => Or.inl rfl⟩
  · exact ⟨_, run, inv.install inPool valid recency validId unheld _ _ _,
      fun f => pageId_update_or f⟩

theorem FrameInvariant.unpinPage {p : Int}
    (pinned : ∀ f, s.pageTable p = some f → 0 < (s.pages f).pinCount) (isDirty : Bool) :
    ∃ r, s.unpinPage p isDirty = .ok r ∧ FrameInvariant r.1 ∧
      ∀ f, (r.1.pages f).pageId = (s.pages f).pageId := by
  cases named : s.pageTable p with
  | none => exact ⟨(s, false), by simp [BufferPoolManager.unpinPage, named], inv, fun _ => rfl⟩
  | some target =>
      have positive := pinned target named
      obtain ⟨replacer, valid, recency, run⟩ := inv.unpinPage_pinned named positive isDirty
      obtain ⟨inPool, -, validFrame⟩ := (inv.pageTable p target).1 named
      have held := (inv.pageId_ne_of_pageTable named).1
      refine ⟨_, run, inv.retouch { s.pages target with
          isDirty := (s.pages target).isDirty || isDirty
          pinCount := (s.pages target).pinCount - 1 }
        inPool (held ▸ validFrame) rfl (by dsimp only; omega) valid (fun g => ?_) s.disk,
        pageId_update_of_eq (by rfl)⟩
      have outside := inv.not_mem_replacer_of_pinned (Int.ne_of_gt positive)
      rw [recency]
      by_cases last : (s.pages target).pinCount - 1 = 0
      · rw [if_pos last, List.mem_cons, inv.replacerValid.recencyList_nodup.mem_erase_iff]
        by_cases atTarget : g = target
        · simp [atTarget, last]
        · simp [atTarget]
      · rw [if_neg last]
        by_cases atTarget : g = target
        · subst atTarget; simp [last, outside]
        · simp [atTarget]

theorem FrameInvariant.flushPage (p : Int) :
    ∃ r, s.flushPage p = .ok r ∧ FrameInvariant r.1 ∧
      ∀ f, (r.1.pages f).pageId = (s.pages f).pageId := by
  cases named : s.pageTable p with
  | none => exact ⟨(s, false), by simp [BufferPoolManager.flushPage, named], inv, fun _ => rfl⟩
  | some target =>
      refine ⟨_, inv.flushPage_named named, ?_, fun f => ?_⟩
      swap
      · by_cases dirty : (s.pages target).isDirty
        · simp only [dirty, if_true]; exact pageId_update_of_eq (by rfl) f
        · simp [dirty]
      by_cases dirty : (s.pages target).isDirty
      · obtain ⟨inPool, held, validId⟩ := (inv.pageTable p target).1 named
        have validFrame : (s.pages target).pageId ≠ invalidPageId := held ▸ validId
        simp only [dirty, if_true]
        refine inv.retouch { s.pages target with isDirty := false } inPool validFrame rfl
          (inv.pinCountNonneg target) inv.replacerValid (fun g => ?_) _
        by_cases atTarget : g = target
        · subst atTarget; simp [inv.replacer, inPool, held, validId]
        · simp [atTarget]
      · simpa [dirty] using inv

theorem FrameInvariant.deletePage (p : Int) :
    ∃ r, s.deletePage p = .ok r ∧ FrameInvariant r.1 ∧
      ∀ f, (r.1.pages f).pageId = (s.pages f).pageId ∨ (r.1.pages f).pageId = invalidPageId := by
  cases named : s.pageTable p with
  | none => exact ⟨(s, true), by simp [BufferPoolManager.deletePage, named], inv, fun _ => Or.inl rfl⟩
  | some target =>
      by_cases pinned : 0 < (s.pages target).pinCount
      · exact ⟨(s, false), by simp [BufferPoolManager.deletePage, named, pinned], inv,
          fun _ => Or.inl rfl⟩
      have unpinned : (s.pages target).pinCount = 0 := by
        have := inv.pinCountNonneg target; omega
      obtain ⟨replacer, valid, recency, run⟩ := inv.deletePage_unpinned named unpinned
      obtain ⟨inPool, held, validId⟩ := (inv.pageTable p target).1 named
      have outside : target ∉ s.freeList := fun member =>
        validId (held ▸ ((inv.freeList target).1 member).2)
      refine ⟨_, run, ⟨fun q g => ?_, fun g => ?_, fun g => ?_, fun g => ?_, fun g => ?_,
        inv.freeListNodup.append (List.nodup_singleton _) (List.disjoint_singleton.2 outside),
        valid⟩, fun f => ?_⟩
      · simp only [Function.update_apply]
        by_cases atP : q = p
        · subst atP
          simp only [if_true, reduceCtorEq, false_iff, not_and]
          intro gInPool held' validId'
          by_cases atTarget : g = target
          · simp [atTarget] at held'; exact validId' held'.symm
          · rw [if_neg atTarget] at held'
            have := (inv.pageTable q g).2 ⟨gInPool, held', validId'⟩
            exact atTarget (Option.some.inj (this.symm.trans named))
        · rw [if_neg atP, inv.pageTable]
          by_cases atTarget : g = target
          · subst atTarget
            simp only [held, Ne.symm atP, false_and, and_false, Function.update_same, false_iff,
              not_and]
            exact fun _ invalid valid => valid invalid.symm
          · simp [atTarget]
      · rw [List.mem_append, List.mem_singleton, inv.freeList]
        by_cases atTarget : g = target
        · subst atTarget; simp [inPool]
        · simp [atTarget]
      · rw [recency, inv.replacerValid.recencyList_nodup.mem_erase_iff, inv.replacer]
        by_cases atTarget : g = target
        · subst atTarget; simp
        · simp [atTarget]
      · by_cases atTarget : g = target
        · subst atTarget; simp
        · simpa [atTarget] using inv.freeFrames g
      · by_cases atTarget : g = target
        · subst atTarget; simp
        · simpa [atTarget] using inv.pinCountNonneg g
      · by_cases atTarget : f = target
        · subst atTarget; simp
        · simp [atTarget]

end Operations

/-! ## Reachable states -/

/-- The states reachable from the constructor, with the page ids `AllocatePage` has returned so
far. `FetchPage` gets such an id and `UnpinPage` only a page that is pinned. -/
inductive Reachable : BufferPoolManager D → List Int → Prop
  | init (poolSize : Nat) (disk : Int → D) : Reachable (init poolSize disk) []
  | fetchPage {s s' : BufferPoolManager D} {allocated : List Int} {p : Int} {r : Option Nat} :
      Reachable s allocated → p ∈ allocated → s.fetchPage p = .ok (s', r) → Reachable s' allocated
  | newPage {s s' : BufferPoolManager D} {allocated : List Int} {target : Nat} :
      Reachable s allocated → s.newPage = .ok (s', some target) →
      Reachable s' (s.nextPageId :: allocated)
  | newPageNull {s s' : BufferPoolManager D} {allocated : List Int} :
      Reachable s allocated → s.newPage = .ok (s', none) → Reachable s' allocated
  | unpinPage {s s' : BufferPoolManager D} {allocated : List Int} {p : Int} {isDirty r : Bool} :
      Reachable s allocated → (∀ f, s.pageTable p = some f → 0 < (s.pages f).pinCount) →
      s.unpinPage p isDirty = .ok (s', r) → Reachable s' allocated
  | flushPage {s s' : BufferPoolManager D} {allocated : List Int} {p : Int} {r : Bool} :
      Reachable s allocated → s.flushPage p = .ok (s', r) → Reachable s' allocated
  | deletePage {s s' : BufferPoolManager D} {allocated : List Int} {p : Int} {r : Bool} :
      Reachable s allocated → s.deletePage p = .ok (s', r) → Reachable s' allocated

/-- The invariant together with what it needs of the page ids handed out: `AllocatePage` has
returned each of them once, below the id it hands out next, which is never `INVALID_PAGE_ID`. -/
structure AllocatedInvariant (s : BufferPoolManager D) (allocated : List Int) : Prop where
  frames : FrameInvariant s
  /-- Every page a frame holds was handed out by `AllocatePage`. -/
  held : ∀ f, (s.pages f).pageId ≠ invalidPageId → (s.pages f).pageId ∈ allocated
  invalid : invalidPageId ∉ allocated
  below : ∀ p ∈ allocated, p < s.nextPageId
  counter : 0 ≤ s.nextPageId

theorem allocatedInvariant_init (poolSize : Nat) (disk : Int → D) :
    AllocatedInvariant (init poolSize disk) [] :=
  ⟨frameInvariant_init poolSize disk, fun _ invalid => absurd rfl invalid, List.not_mem_nil _,
    fun _ member => absurd member (List.not_mem_nil _), le_refl 0⟩

theorem FrameInvariant.newPage_none {s s' : BufferPoolManager D} (inv : FrameInvariant s)
    (run : s.newPage = .ok (s', none)) : s' = s := by
  rcases inv.newPage_spec with ⟨-, -, run'⟩ | ⟨_, _, _, _, _, _, run'⟩ <;>
    cases run.symm.trans run'
  rfl

section Steps

variable {s s' : BufferPoolManager D} {allocated : List Int} (inv : AllocatedInvariant s allocated)
include inv

theorem AllocatedInvariant.fetchPage {p : Int} {r : Option Nat} (member : p ∈ allocated)
    (run : s.fetchPage p = .ok (s', r)) : AllocatedInvariant s' allocated := by
  obtain ⟨_, run', frames, ids⟩ := inv.frames.fetchPage fun same => inv.invalid (same ▸ member)
  cases run.symm.trans run'
  have kept := fetchPage_nextPageId run
  refine ⟨frames, fun f valid => ?_, inv.invalid, kept ▸ inv.below, kept ▸ inv.counter⟩
  rcases ids f with same | same <;> rw [same] at valid ⊢
  · exact inv.held f valid
  · exact member

/-- The id `AllocatePage` hands out next is valid and was never handed out. -/
theorem AllocatedInvariant.nextPageId_fresh :
    s.nextPageId ≠ invalidPageId ∧ s.nextPageId ∉ allocated :=
  ⟨by have := inv.counter; unfold invalidPageId; omega,
    fun member => lt_irrefl _ (inv.below _ member)⟩

theorem AllocatedInvariant.newPage {target : Nat} (run : s.newPage = .ok (s', some target)) :
    AllocatedInvariant s' (s.nextPageId :: allocated) := by
  obtain ⟨validId, fresh⟩ := inv.nextPageId_fresh
  obtain ⟨_, run', frames, ids⟩ := inv.frames.newPage validId fun g _ held =>
    fresh (held ▸ inv.held g (held ▸ validId))
  cases run.symm.trans run'
  have moved : s'.nextPageId = s.nextPageId + 1 := by simpa using newPage_nextPageId run
  refine ⟨frames, fun f valid => ?_, fun member => ?_, fun q member => ?_, by
    have := inv.counter; omega⟩
  · rcases ids f with same | same <;> rw [same] at valid ⊢
    · exact List.mem_cons_of_mem _ (inv.held f valid)
    · exact List.mem_cons_self _ _
  · rcases List.mem_cons.1 member with same | member
    · exact validId same.symm
    · exact inv.invalid member
  · rcases List.mem_cons.1 member with same | member
    · omega
    · have := inv.below q member; omega

theorem AllocatedInvariant.unpinPage {p : Int} {isDirty r : Bool}
    (pinned : ∀ f, s.pageTable p = some f → 0 < (s.pages f).pinCount)
    (run : s.unpinPage p isDirty = .ok (s', r)) : AllocatedInvariant s' allocated := by
  obtain ⟨_, run', frames, ids⟩ := inv.frames.unpinPage pinned isDirty
  cases run.symm.trans run'
  have kept := unpinPage_nextPageId run
  exact ⟨frames, fun f valid => ids f ▸ inv.held f (ids f ▸ valid), inv.invalid,
    kept ▸ inv.below, kept ▸ inv.counter⟩

theorem AllocatedInvariant.flushPage {p : Int} {r : Bool} (run : s.flushPage p = .ok (s', r)) :
    AllocatedInvariant s' allocated := by
  obtain ⟨_, run', frames, ids⟩ := inv.frames.flushPage p
  cases run.symm.trans run'
  have kept := flushPage_nextPageId run
  exact ⟨frames, fun f valid => ids f ▸ inv.held f (ids f ▸ valid), inv.invalid,
    kept ▸ inv.below, kept ▸ inv.counter⟩

theorem AllocatedInvariant.deletePage {p : Int} {r : Bool} (run : s.deletePage p = .ok (s', r)) :
    AllocatedInvariant s' allocated := by
  obtain ⟨_, run', frames, ids⟩ := inv.frames.deletePage p
  cases run.symm.trans run'
  have kept := deletePage_nextPageId run
  refine ⟨frames, fun f valid => ?_, inv.invalid, kept ▸ inv.below, kept ▸ inv.counter⟩
  rcases ids f with same | same
  · exact same ▸ inv.held f (same ▸ valid)
  · exact absurd same valid

end Steps

theorem Reachable.allocatedInvariant {s : BufferPoolManager D} {allocated : List Int}
    (reachable : Reachable s allocated) : AllocatedInvariant s allocated := by
  induction reachable with
  | init poolSize disk => exact allocatedInvariant_init poolSize disk
  | fetchPage _ member run inv => exact inv.fetchPage member run
  | newPage _ run inv => exact inv.newPage run
  | newPageNull _ run inv => exact inv.frames.newPage_none run ▸ inv
  | unpinPage _ pinned run inv => exact inv.unpinPage pinned run
  | flushPage _ run inv => exact inv.flushPage run
  | deletePage _ run inv => exact inv.deletePage run

/-- Each frame of the pool is in exactly one place: on the free list, in the replacer, or
pinned. -/
theorem FrameInvariant.place {s : BufferPoolManager D} (inv : FrameInvariant s) {f : Nat}
    (inPool : f < s.poolSize) :
    (f ∈ s.freeList ∧ f ∉ s.replacer.recencyList ∧ (s.pages f).pageId = invalidPageId ∧
      (s.pages f).pinCount = 0 ∧ (s.pages f).isDirty = false) ∨
    (f ∉ s.freeList ∧ f ∈ s.replacer.recencyList ∧ (s.pages f).pageId ≠ invalidPageId ∧
      (s.pages f).pinCount = 0) ∨
    (f ∉ s.freeList ∧ f ∉ s.replacer.recencyList ∧ (s.pages f).pageId ≠ invalidPageId ∧
      0 < (s.pages f).pinCount) := by
  rw [inv.freeList, inv.replacer]
  by_cases invalid : (s.pages f).pageId = invalidPageId
  · exact Or.inl ⟨⟨inPool, invalid⟩, fun member => member.2.1 invalid, invalid,
      inv.freeFrames f invalid⟩
  · have := inv.pinCountNonneg f
    by_cases unpinned : (s.pages f).pinCount = 0
    · exact Or.inr (Or.inl ⟨fun member => invalid member.2, ⟨inPool, invalid, unpinned⟩, invalid,
        unpinned⟩)
    · exact Or.inr (Or.inr ⟨fun member => invalid member.2, fun member => unpinned member.2.2,
        invalid, by omega⟩)

/-- **The frame invariant of the buffer pool.** In every reachable state the page table maps a
page id to a frame exactly when the frame holds that valid page id, so no two frames hold the same
page; every frame of the pool is on the free list (holding no page, unpinned, clean), in the
replacer (holding a page, unpinned) or pinned (holding a page); and `GetVictimPage` passes both
its asserts and never returns a pinned frame. -/
theorem frame_invariant_of_reachable {s : BufferPoolManager D} {allocated : List Int}
    (reachable : Reachable s allocated) :
    (∀ p f, s.pageTable p = some f ↔ f < s.poolSize ∧ (s.pages f).pageId = p ∧ p ≠ invalidPageId) ∧
    (∀ f < s.poolSize, ∀ g < s.poolSize, (s.pages f).pageId = (s.pages g).pageId →
      (s.pages f).pageId ≠ invalidPageId → f = g) ∧
    (∀ f, f ∈ s.freeList ∨ f ∈ s.replacer.recencyList → f < s.poolSize) ∧ s.freeList.Nodup ∧
    (∀ f < s.poolSize,
      (f ∈ s.freeList ∧ f ∉ s.replacer.recencyList ∧ (s.pages f).pageId = invalidPageId ∧
        (s.pages f).pinCount = 0 ∧ (s.pages f).isDirty = false) ∨
      (f ∉ s.freeList ∧ f ∈ s.replacer.recencyList ∧ (s.pages f).pageId ≠ invalidPageId ∧
        (s.pages f).pinCount = 0) ∨
      (f ∉ s.freeList ∧ f ∉ s.replacer.recencyList ∧ (s.pages f).pageId ≠ invalidPageId ∧
        0 < (s.pages f).pinCount)) ∧
    ∃ r, s.getVictimPage = .ok r ∧ ∀ f, r.2 = some f → f < s.poolSize ∧ (s.pages f).pinCount = 0 := by
  have inv := reachable.allocatedInvariant.frames
  refine ⟨inv.pageTable, fun f fInPool g gInPool same valid => ?_, fun f member => ?_,
    inv.freeListNodup, fun f inPool => inv.place inPool, ?_⟩
  · have named := (inv.pageTable _ f).2 ⟨fInPool, rfl, valid⟩
    have named' := (inv.pageTable _ g).2 ⟨gInPool, same.symm, valid⟩
    exact Option.some.inj (named.symm.trans named')
  · rcases member with member | member
    · exact ((inv.freeList f).1 member).1
    · exact ((inv.replacer f).1 member).1
  · rcases inv.getVictimPage with ⟨-, -, run⟩ | ⟨target, replacer, run, inPool, unpinned, -⟩
    · exact ⟨_, run, fun f none => by cases none⟩
    · exact ⟨_, run, fun f chosen => by cases chosen; exact ⟨inPool, unpinned⟩⟩

/-- Two frames. `NewPage` twice (pages `0` and `1`), `UnpinPage(0, true)`, and a third `NewPage`
evicts page `0` for page `2`; after `UnpinPage(1, false)`, `FetchPage(0)` evicts page `1` and
reads page `0` back. Every frame has changed pages, and the bookkeeping holds. -/
theorem frame_invariant_of_reachable_after_evictions :
    ∃ s : BufferPoolManager Nat, Reachable s [2, 1, 0] ∧
      ((s.pages 0).pageId = 2 ∧ (s.pages 1).pageId = 0 ∧ s.pageTable 1 = none) ∧
      (∀ p f, s.pageTable p = some f ↔ f < s.poolSize ∧ (s.pages f).pageId = p ∧ p ≠ invalidPageId) ∧
      (∀ f < s.poolSize, ∀ g < s.poolSize, (s.pages f).pageId = (s.pages g).pageId →
        (s.pages f).pageId ≠ invalidPageId → f = g) ∧
      (∀ f, f ∈ s.freeList ∨ f ∈ s.replacer.recencyList → f < s.poolSize) ∧ s.freeList.Nodup ∧
      (∀ f < s.poolSize,
        (f ∈ s.freeList ∧ f ∉ s.replacer.recencyList ∧ (s.pages f).pageId = invalidPageId ∧
          (s.pages f).pinCount = 0 ∧ (s.pages f).isDirty = false) ∨
        (f ∉ s.freeList ∧ f ∈ s.replacer.recencyList ∧ (s.pages f).pageId ≠ invalidPageId ∧
          (s.pages f).pinCount = 0) ∨
        (f ∉ s.freeList ∧ f ∉ s.replacer.recencyList ∧ (s.pages f).pageId ≠ invalidPageId ∧
          0 < (s.pages f).pinCount)) ∧
      ∃ r, s.getVictimPage = .ok r ∧
        ∀ f, r.2 = some f → f < s.poolSize ∧ (s.pages f).pinCount = 0 := by
  have first := Reachable.newPage (.init 2 fun _ => (0 : Nat)) rfl
  have second := Reachable.newPage first rfl
  have released := Reachable.unpinPage (p := 0) second (fun _ named => by cases named; decide)
    (show unpinPage _ 0 true = .ok (_, true) from rfl)
  have third := Reachable.newPage released rfl
  have releasedAgain := Reachable.unpinPage (p := 1) third (fun _ named => by cases named; decide)
    (show unpinPage _ 1 false = .ok (_, true) from rfl)
  have fetched := Reachable.fetchPage (p := 0) releasedAgain (by decide) rfl
  exact ⟨_, fetched, ⟨rfl, rfl, rfl⟩, frame_invariant_of_reachable fetched⟩

end BufferPoolManager

end ScuDb.Buffer
