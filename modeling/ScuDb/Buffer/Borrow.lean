import ScuDb.Buffer.NoLostWrite
import Mathlib.Data.Finset.Card

/-!
Contract: a client of the project2 `BufferPoolManager` that pins a live page with `FetchPage`,
reads it and gives the pin back with `UnpinPage(page_id, false)`. While some frame is unpinned,
`FetchPage` of a live page returns a frame holding the page's latest data with one pin more; the
`UnpinPage` drops that pin again; and a run of such borrows, nested in any way, leaves every pin
count as it found it.

Owns: the unpinned frames (`unpinnedFrames`), the pools holding the same pins (`SamePins`), one pin
more on a frame (`OnePinMore`), and the fetch and the unpin of one borrow.

Does not own: the runs of the pool with its clients (`ScuDb.Buffer.NoLostWrite`), whose
`FetchPage` and `UnpinPage` steps a borrow takes.

## Why a pinned frame keeps its page

`GetVictimPage` takes a frame from the free list or the replacer, and neither holds a pinned frame
(`FrameInvariant.place`). So while a borrow holds its pin, the borrows nested in it may evict any
other page, but not the borrowed one, and its `UnpinPage` finds the page where its `FetchPage` put
it.
-/

set_option linter.unusedSectionVars false

namespace ScuDb.Buffer

namespace BufferPoolManager

variable {D : Type} [Zero D]

/-- The frames of the pool that no pin holds. -/
def unpinnedFrames (s : BufferPoolManager D) : Nat :=
  ((Finset.range s.poolSize).filter fun f => (s.pages f).pinCount = 0).card

/-- `s'` holds the pins `s` holds, and every frame pinned in `s` holds the page it held. -/
structure SamePins (s s' : BufferPoolManager D) : Prop where
  poolSize : s'.poolSize = s.poolSize
  pinCount : ∀ f, (s'.pages f).pinCount = (s.pages f).pinCount
  pageId : ∀ f, (s.pages f).pinCount ≠ 0 → (s'.pages f).pageId = (s.pages f).pageId

/-- `s'` is `s` with one pin more on the frame `f`: the other frames are as they were, and `f`
holds its page if it was pinned. -/
structure OnePinMore (s s' : BufferPoolManager D) (f : Nat) : Prop where
  poolSize : s'.poolSize = s.poolSize
  pinCount : (s'.pages f).pinCount = (s.pages f).pinCount + 1
  others : ∀ g ≠ f, s'.pages g = s.pages g
  pageId : (s.pages f).pinCount ≠ 0 → (s'.pages f).pageId = (s.pages f).pageId

section Pins

variable {s s' s'' : BufferPoolManager D}

theorem SamePins.refl (s : BufferPoolManager D) : SamePins s s :=
  ⟨rfl, fun _ => rfl, fun _ _ => rfl⟩

theorem SamePins.trans (first : SamePins s s') (second : SamePins s' s'') : SamePins s s'' where
  poolSize := second.poolSize.trans first.poolSize
  pinCount f := (second.pinCount f).trans (first.pinCount f)
  pageId f pinned := (second.pageId f (by rwa [first.pinCount])).trans (first.pageId f pinned)

theorem SamePins.unpinnedFrames_eq (same : SamePins s s') : s'.unpinnedFrames = s.unpinnedFrames := by
  simp only [unpinnedFrames, same.poolSize, same.pinCount]

theorem SamePins.checkAllUnpined_eq (same : SamePins s s') :
    s'.checkAllUnpined = s.checkAllUnpined := by
  simp only [checkAllUnpined, same.poolSize, same.pinCount]

/-- A page in a pinned frame is still named for that frame while the frame keeps its page. -/
theorem SamePins.pageTable_eq (same : SamePins s s') (frames : FrameInvariant s)
    (frames' : FrameInvariant s') {p : Int} {f : Nat} (named : s.pageTable p = some f)
    (pinned : (s.pages f).pinCount ≠ 0) : s'.pageTable p = some f := by
  obtain ⟨inPool, held, validId⟩ := (frames.pageTable p f).1 named
  exact (frames'.pageTable p f).2 ⟨same.poolSize ▸ inPool, (same.pageId f pinned).trans held, validId⟩

/-- One pin more on a frame leaves at most one unpinned frame fewer. -/
theorem OnePinMore.unpinnedFrames_le {f : Nat} (more : OnePinMore s s' f) :
    s.unpinnedFrames ≤ s'.unpinnedFrames + 1 := by
  unfold unpinnedFrames
  calc _ ≤ (insert f ((Finset.range s'.poolSize).filter fun g => (s'.pages g).pinCount = 0)).card :=
        Finset.card_le_card fun g member => by
          rw [Finset.mem_filter, Finset.mem_range] at member
          by_cases atF : g = f
          · exact Finset.mem_insert.2 (Or.inl atF)
          · refine Finset.mem_insert_of_mem (Finset.mem_filter.2 ⟨?_, ?_⟩)
            · exact Finset.mem_range.2 (more.poolSize ▸ member.1)
            · rw [more.others g atF]; exact member.2
    _ ≤ _ := Finset.card_insert_le _ _

/-- **A borrow gives its pin back.** A pin taken on `f`, then runs that keep the pins, then the pin
dropped again: every frame has the pins it had, and holds its page if it was pinned. -/
theorem SamePins.borrow {s₀ s₁ s₂ s₃ : BufferPoolManager D} {f : Nat}
    (nonneg : 0 ≤ (s₀.pages f).pinCount) (take : OnePinMore s₀ s₁ f) (between : SamePins s₁ s₂)
    (give : OnePinMore s₃ s₂ f) : SamePins s₀ s₃ := by
  have pins : ∀ g, (s₃.pages g).pinCount = (s₀.pages g).pinCount := fun g => by
    by_cases atF : g = f
    · subst atF
      have := give.pinCount; have := between.pinCount g; have := take.pinCount; omega
    · rw [← give.others g atF, between.pinCount, take.others g atF]
  refine ⟨give.poolSize.symm.trans (between.poolSize.trans take.poolSize), pins, fun g pinned => ?_⟩
  by_cases atF : g = f
  · subst atF
    rw [← give.pageId (by rw [pins]; exact pinned), between.pageId g (by rw [take.pinCount]; omega),
      take.pageId pinned]
  · rw [← give.others g atF, between.pageId g (by rw [take.others g atF]; exact pinned),
      take.others g atF]

end Pins

/-! ## The fetch and the unpin of a borrow -/

section Borrow

variable {s : BufferPoolManager D} {allocated live : List Int} {clients : Clients D}

/-- `FetchPage` of a live page while a frame is unpinned returns a frame holding the page's latest
data, named for the page, with one pin more than the writes through it hold. -/
theorem NoLostWriteInvariant.fetchPage_pinned (inv : NoLostWriteInvariant s allocated live clients)
    {p : Int} (member : p ∈ live) (room : 0 < s.unpinnedFrames) :
    ∃ s' f, s.fetchPage p = .ok (s', some f) ∧ s'.pageTable p = some f ∧
      (s'.pages f).data = clients.latest p ∧ (clients.writers p : Int) < (s'.pages f).pinCount ∧
      OnePinMore s s' f := by
  have frames := inv.allocatedInvariant.frames
  cases named : s.pageTable p with
  | some target =>
      obtain ⟨replacer, -, -, run⟩ := frames.fetchPage_hit named
      obtain ⟨data, pins, -⟩ := inv.coherent.resident p target named
      refine ⟨_, target, run, named, by simpa using data, by simp; omega,
        ⟨rfl, by simp, fun g other => by simp [other], fun _ => by simp⟩⟩
  | none =>
      rcases frames.fetchPage_miss named with ⟨free, empty, -⟩ |
        ⟨target, replacer, inPool, unpinned, -, -, run⟩
      · obtain ⟨f, found⟩ := Finset.card_pos.1 room
        rw [Finset.mem_filter, Finset.mem_range] at found
        rcases frames.place found.1 with ⟨mem, -⟩ | ⟨-, mem, -⟩ | ⟨-, -, -, pinned⟩
        · simp [free] at mem
        · simp [empty] at mem
        · exact absurd found.2 (Int.ne_of_gt pinned)
      · obtain ⟨onDisk, unwritten⟩ := inv.coherent.evicted p member named
        have read : (evict s target).disk p = clients.latest p :=
          (evict_disk_of_ne s (frames.pageId_ne_of_unnamed named (inv.liveValid p member)
            inPool).symm).trans onDisk
        refine ⟨_, target, run, by simp, by simpa using read, by simp [unwritten],
          ⟨rfl, by simp [unpinned], fun g other => by simp [other], fun pinned => absurd unpinned pinned⟩⟩

/-- `UnpinPage(p, false)` of a page in a pinned frame drops one pin of that frame. -/
theorem FrameInvariant.unpinPage_clean (frames : FrameInvariant s) {p : Int} {f : Nat}
    (named : s.pageTable p = some f) (pinned : 0 < (s.pages f).pinCount) :
    ∃ s', s.unpinPage p false = .ok (s', true) ∧ OnePinMore s' s f := by
  obtain ⟨replacer, -, -, run⟩ := frames.unpinPage_pinned named pinned false
  exact ⟨_, run, ⟨rfl, by simp, fun g other => by simp [other], fun _ => by simp⟩⟩

end Borrow

end BufferPoolManager

end ScuDb.Buffer
