import ScuDb.Buffer.NoLostWrite

/-!
Contract: the project1 `BufferPoolManager` (src/project/project1/scudb_initial/src/buffer/
lru_replacer.cpp): its `UnpinPage`, with its `FetchPage` and `GetVictimPage`.

Owns: the project1 `UnpinPage`, and the runs in which it loses a write.

Does not own: `FetchPage` and `GetVictimPage`, which are line for line those of project2
(`ScuDb.Buffer.BufferPoolManager`) and are reused from there; `FlushPage`, `DeletePage` and
`NewPage`, which project1 leaves as stubs returning `false` and `nullptr`.

## Model

Project1's `UnpinPage` assigns `is_dirty_ = is_dirty` where project2 or-s it in, and does so
before it checks the pin count, so also on the path that returns `false`. A clean `UnpinPage` of
one pin holder then clears the flag another holder's write set, and the frame is evicted without
being written back.
-/

namespace ScuDb.Buffer.Project1

open BufferPoolManager

variable {D : Type}

/-- The project1 `UnpinPage(page_id, is_dirty)`: set `is_dirty_` to `is_dirty`; refuse a frame with
no pin left; otherwise drop one pin and hand the frame to the replacer when no pin is left. -/
def unpinPage (s : BufferPoolManager D) (pageId : Int) (isDirty : Bool) :
    Except String (BufferPoolManager D × Bool) :=
  match s.pageTable pageId with
  | none => .ok (s, false)
  | some target =>
      if (s.pages target).pinCount ≤ 0 then
        .ok ({ s with
          pages := Function.update s.pages target { s.pages target with isDirty := isDirty } }, false)
      else
        let pages := Function.update s.pages target
          { s.pages target with isDirty := isDirty, pinCount := (s.pages target).pinCount - 1 }
        if (s.pages target).pinCount - 1 = 0 then
          (callReplacer (s.replacer.insert target)).map fun replacer =>
            ({ s with pages := pages, replacer := replacer }, true)
        else .ok ({ s with pages := pages }, true)

/-- **A write is lost.** A pool of one frame over a disk of zeros. Two clients fetch page 1; the
first writes 7 and reports it by `UnpinPage(1, true)`, the second, which wrote nothing, releases
its pin by `UnpinPage(1, false)` and clears the flag. Fetching page 2 evicts page 1 without
writing it back, and fetching page 1 again reads 0. A second run loses the write through the
failing path: `UnpinPage(1, false)` of the unpinned, dirty page returns `false` but clears the
flag. -/
theorem unpinPage_loses_write :
    (∃ s1 s2 s3 s4 s5 s6 s7 : BufferPoolManager Nat,
      (init 1 fun _ => 0).fetchPage 1 = .ok (s1, some 0) ∧
      s1.fetchPage 1 = .ok (s2, some 0) ∧
      unpinPage (s2.write 0 7) 1 true = .ok (s3, true) ∧
      unpinPage s3 1 false = .ok (s4, true) ∧
      s4.fetchPage 2 = .ok (s5, some 0) ∧
      unpinPage s5 2 false = .ok (s6, true) ∧
      s6.fetchPage 1 = .ok (s7, some 0) ∧ (s7.pages 0).data = 0) ∧
    (∃ s1 s2 s3 s4 s5 s6 : BufferPoolManager Nat,
      (init 1 fun _ => 0).fetchPage 1 = .ok (s1, some 0) ∧
      unpinPage (s1.write 0 7) 1 true = .ok (s2, true) ∧
      unpinPage s2 1 false = .ok (s3, false) ∧
      s3.fetchPage 2 = .ok (s4, some 0) ∧
      unpinPage s4 2 false = .ok (s5, true) ∧
      s5.fetchPage 1 = .ok (s6, some 0) ∧ (s6.pages 0).data = 0) :=
  ⟨⟨_, _, _, _, _, _, _, rfl, rfl, rfl, rfl, rfl, rfl, rfl, rfl⟩,
    ⟨_, _, _, _, _, _, rfl, rfl, rfl, rfl, rfl, rfl, rfl⟩⟩

end ScuDb.Buffer.Project1
