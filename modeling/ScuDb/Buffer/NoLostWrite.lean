import ScuDb.Buffer.FrameInvariant

/-!
Contract: no write is lost in the project2 `BufferPoolManager`, for clients that write a frame
only while they hold a pin on it and report the write through the `is_dirty` of the `UnpinPage`
that releases that pin: `FetchPage` of a live page returns its latest data.

Owns: the clients' side of a run (`Clients`: the data last written to each page and the pins
holding a write not reported yet), the runs of the pool with its clients (`ClientRun`), the
coherence of frames, disk and latest data (`Coherent`), and the theorem over every run.

Does not own: the frame bookkeeping (`ScuDb.Buffer.FrameInvariant`), which this module reuses.

## Why the disk holds zeros at a new id

`NewPage` zeroes the frame it hands out but leaves it clean, so the zeros reach the disk only if
a client writes the page. `newPage_zeroes_not_persisted` runs a pool in which a new page, never
written, is evicted and fetched again: the second `FetchPage` reads what the disk held at that id
before. `no_lost_write` runs over disks that hold a zeroed page at every id `AllocatePage` hands
out.
-/

set_option linter.unusedSectionVars false

namespace ScuDb.Buffer

namespace BufferPoolManager

variable {D : Type} [Zero D]

/-- The clients' side of a run: the data last written to each page (the zeroed page `NewPage`
returns, until a client writes it), and the number of pins of each page through which a client
wrote and has not unpinned yet. -/
structure Clients (D : Type) where
  latest : Int → D
  writers : Int → Nat

/-- A client holding a pin on the frame `target` writes `data` into it. -/
def write (s : BufferPoolManager D) (target : Nat) (data : D) : BufferPoolManager D :=
  { s with pages := Function.update s.pages target { s.pages target with data := data } }

/-- The runs of the pool with clients that write only through a pin and report each write in the
`UnpinPage` releasing that pin; the two lists are the page ids `AllocatePage` returned and the
pages not deleted since. The disk holds a zeroed page at the id `AllocatePage` hands out. -/
inductive ClientRun : BufferPoolManager D → List Int → List Int → Clients D → Prop
  | init (poolSize : Nat) (disk : Int → D) : ClientRun (init poolSize disk) [] [] ⟨disk, fun _ => 0⟩
  | fetchPage {s s' : BufferPoolManager D} {allocated live : List Int} {clients : Clients D} {p : Int}
      {r : Option Nat} :
      ClientRun s allocated live clients → p ∈ live → s.fetchPage p = .ok (s', r) →
      ClientRun s' allocated live clients
  | newPage {s s' : BufferPoolManager D} {allocated live : List Int} {clients : Clients D}
      {target : Nat} :
      ClientRun s allocated live clients → s.disk s.nextPageId = 0 →
      s.newPage = .ok (s', some target) →
      ClientRun s' (s.nextPageId :: allocated) (s.nextPageId :: live)
        ⟨Function.update clients.latest s.nextPageId 0,
          Function.update clients.writers s.nextPageId 0⟩
  | newPageNull {s s' : BufferPoolManager D} {allocated live : List Int} {clients : Clients D} :
      ClientRun s allocated live clients → s.newPage = .ok (s', none) →
      ClientRun s' allocated live clients
  /-- A client releases a pin it wrote nothing through. -/
  | unpinPage {s s' : BufferPoolManager D} {allocated live : List Int} {clients : Clients D}
      {p : Int} {target : Nat} {isDirty r : Bool} :
      ClientRun s allocated live clients → s.pageTable p = some target →
      (clients.writers p : Int) < (s.pages target).pinCount →
      s.unpinPage p isDirty = .ok (s', r) → ClientRun s' allocated live clients
  /-- A client releases a pin it wrote through, reporting the write. -/
  | unpinWrittenPage {s s' : BufferPoolManager D} {allocated live : List Int} {clients : Clients D}
      {p : Int} {target : Nat} {r : Bool} :
      ClientRun s allocated live clients → s.pageTable p = some target → 0 < clients.writers p →
      s.unpinPage p true = .ok (s', r) →
      ClientRun s' allocated live
        { clients with writers := Function.update clients.writers p (clients.writers p - 1) }
  | flushPage {s s' : BufferPoolManager D} {allocated live : List Int} {clients : Clients D} {p : Int}
      {r : Bool} :
      ClientRun s allocated live clients → s.flushPage p = .ok (s', r) →
      ClientRun s' allocated live clients
  | deletePage {s s' : BufferPoolManager D} {allocated live : List Int} {clients : Clients D}
      {p : Int} {r : Bool} :
      ClientRun s allocated live clients → s.deletePage p = .ok (s', r) →
      ClientRun s' allocated (if r then live.filter (· ≠ p) else live) clients
  /-- A client writes through a pin it had not written through yet. -/
  | writePage {s : BufferPoolManager D} {allocated live : List Int} {clients : Clients D} {p : Int}
      {target : Nat} (data : D) :
      ClientRun s allocated live clients → s.pageTable p = some target →
      (clients.writers p : Int) < (s.pages target).pinCount →
      ClientRun (s.write target data) allocated live
        ⟨Function.update clients.latest p data,
          Function.update clients.writers p (clients.writers p + 1)⟩
  /-- A client writes again through a pin it already wrote through. -/
  | rewritePage {s : BufferPoolManager D} {allocated live : List Int} {clients : Clients D} {p : Int}
      {target : Nat} (data : D) :
      ClientRun s allocated live clients → s.pageTable p = some target → 0 < clients.writers p →
      ClientRun (s.write target data) allocated live
        { clients with latest := Function.update clients.latest p data }

/-- Frames, disk and the clients' latest data agree. -/
structure Coherent (s : BufferPoolManager D) (live : List Int) (clients : Clients D) : Prop where
  residentLive : ∀ p f, s.pageTable p = some f → p ∈ live
  /-- A resident page is in its frame; when the frame is clean and no pin holds an unreported
  write, the disk has it too. -/
  resident : ∀ p f, s.pageTable p = some f →
    (s.pages f).data = clients.latest p ∧ (clients.writers p : Int) ≤ (s.pages f).pinCount ∧
    ((s.pages f).isDirty = false → clients.writers p = 0 → s.disk p = clients.latest p)
  /-- A live page that is not resident is on the disk. -/
  evicted : ∀ p ∈ live, s.pageTable p = none → s.disk p = clients.latest p ∧ clients.writers p = 0

/-- What holds along every run. -/
structure NoLostWriteInvariant (s : BufferPoolManager D) (allocated live : List Int)
    (clients : Clients D) : Prop where
  allocatedInvariant : AllocatedInvariant s allocated
  liveAllocated : ∀ p ∈ live, p ∈ allocated
  coherent : Coherent s live clients

theorem evict_disk_of_ne (s : BufferPoolManager D) {target : Nat} {q : Int}
    (other : q ≠ (s.pages target).pageId) : (evict s target).disk q = s.disk q := by
  by_cases dirty : (s.pages target).isDirty <;> simp [evict, dirty, other]

theorem evict_disk_self (s : BufferPoolManager D) (target : Nat) :
    (evict s target).disk (s.pages target).pageId =
      if (s.pages target).isDirty then (s.pages target).data else s.disk (s.pages target).pageId := by
  by_cases dirty : (s.pages target).isDirty <;> simp [evict, dirty]

/-- A frame of the pool holds no valid page the page table does not name. -/
theorem FrameInvariant.pageId_ne_of_unnamed {s : BufferPoolManager D} (frames : FrameInvariant s)
    {p : Int} (unnamed : s.pageTable p = none) (validId : p ≠ invalidPageId) {target : Nat}
    (inPool : target < s.poolSize) : (s.pages target).pageId ≠ p := fun held => by
  simpa [unnamed] using (frames.pageTable p target).2 ⟨inPool, held, validId⟩

/-- Two page ids the page table sends to one frame are equal. -/
theorem FrameInvariant.pageTable_injective {s : BufferPoolManager D} (frames : FrameInvariant s)
    {p q : Int} {f : Nat} (named : s.pageTable p = some f) (named' : s.pageTable q = some f) :
    q = p :=
  (frames.pageId_ne_of_pageTable named').1.symm.trans (frames.pageId_ne_of_pageTable named).1

/-- The coherence part of `FetchPage` on a miss and of `NewPage`: the victim `target`, unpinned,
is written back if dirty and receives page `p`, which was on disk; `live'` adds `p` to `live` and
`clients'` changes only at `p`. -/
theorem Coherent.install {s : BufferPoolManager D} {live : List Int} {clients : Clients D}
    (coherent : Coherent s live clients) (frames : FrameInvariant s)
    (liveValid : ∀ q ∈ live, q ≠ invalidPageId) {target : Nat} (inPool : target < s.poolSize)
    (unpinned : (s.pages target).pinCount = 0) {p : Int} (unnamed : s.pageTable p = none)
    (validId : p ≠ invalidPageId) {live' : List Int} (liveIff : ∀ q, q ∈ live' ↔ q = p ∨ q ∈ live)
    {clients' : Clients D}
    (others : ∀ q ≠ p, clients'.latest q = clients.latest q ∧ clients'.writers q = clients.writers q)
    (fresh : clients'.writers p = 0) {data : D} (dataLatest : data = clients'.latest p)
    (diskLatest : (evict s target).disk p = clients'.latest p) (freeList : List Nat)
    (replacer : LRUReplacer Nat) (nextPageId : Int) :
    Coherent { s with
      pages := Function.update s.pages target ⟨p, 1, false, data⟩
      pageTable := Function.update (Function.update s.pageTable (s.pages target).pageId none) p
        (some target)
      freeList := freeList
      replacer := replacer
      disk := (evict s target).disk
      nextPageId := nextPageId } live' clients' := by
  refine ⟨fun q f named => ?_, fun q f named => ?_, fun q member unnamed' => ?_⟩
  · simp only [Function.update_apply] at named
    split_ifs at named with atP atOld
    · exact (liveIff q).2 (Or.inl atP)
    · exact (liveIff q).2 (Or.inr (coherent.residentLive q f named))
  · simp only [Function.update_apply] at named
    split_ifs at named with atP atOld
    · cases named; subst atP
      simp [fresh, dataLatest, diskLatest]
    · have notTarget : f ≠ target := fun same =>
        atOld (frames.pageId_ne_of_pageTable (same ▸ named)).1.symm
      obtain ⟨latest, writers⟩ := others q atP
      simpa [notTarget, latest, writers, evict_disk_of_ne s atOld] using
        coherent.resident q f named
  · obtain ⟨latest, writers⟩ := others q fun same => by
      subst same; simp at unnamed'
    have atP : q ≠ p := fun same => by subst same; simp at unnamed'
    have member' := ((liveIff q).1 member).resolve_left atP
    simp only [Function.update_apply, if_neg atP] at unnamed'
    rw [latest, writers]
    by_cases atOld : q = (s.pages target).pageId
    · subst atOld
      obtain ⟨data, pins, clean⟩ := coherent.resident _ target
        ((frames.pageTable _ target).2 ⟨inPool, rfl, liveValid _ member'⟩)
      have none : clients.writers (s.pages target).pageId = 0 := by omega
      rw [evict_disk_self]
      by_cases dirty : (s.pages target).isDirty
      · simp [dirty, data, none]
      · simp [dirty, clean (by simpa using dirty) none, none]
    · rw [if_neg atOld] at unnamed'
      rw [evict_disk_of_ne s atOld]
      exact coherent.evicted q member' unnamed'

/-- The coherence part of an operation that changes only the frame `target` of the resident
page `p`, the disk at `p` and the clients' record of `p`, and leaves `p` coherent. -/
theorem Coherent.retouch {s : BufferPoolManager D} {live : List Int} {clients : Clients D}
    (coherent : Coherent s live clients) (frames : FrameInvariant s) {p : Int} {target : Nat}
    (named : s.pageTable p = some target) (page : Page D) {disk : Int → D} {clients' : Clients D}
    (diskOthers : ∀ q ≠ p, disk q = s.disk q)
    (others : ∀ q ≠ p, clients'.latest q = clients.latest q ∧ clients'.writers q = clients.writers q)
    (dataLatest : page.data = clients'.latest p) (pins : (clients'.writers p : Int) ≤ page.pinCount)
    (clean : page.isDirty = false → clients'.writers p = 0 → disk p = clients'.latest p)
    (replacer : LRUReplacer Nat) :
    Coherent { s with
      pages := Function.update s.pages target page
      replacer := replacer
      disk := disk } live clients' := by
  refine ⟨coherent.residentLive, fun q f named' => ?_, fun q member unnamed => ?_⟩
  · by_cases atP : q = p
    · subst atP
      cases named.symm.trans named'
      simpa using ⟨dataLatest, pins, clean⟩
    · have notTarget : f ≠ target := fun same =>
        atP (frames.pageTable_injective named (same ▸ named'))
      obtain ⟨latest, writers⟩ := others q atP
      simpa [notTarget, latest, writers, diskOthers q atP] using coherent.resident q f named'
  · have atP : q ≠ p := fun same => by simp_all
    obtain ⟨latest, writers⟩ := others q atP
    show disk q = _ ∧ _
    rw [latest, writers, diskOthers q atP]
    exact coherent.evicted q member unnamed

/-- A client write keeps the frame bookkeeping. -/
theorem AllocatedInvariant.write {s : BufferPoolManager D} {allocated : List Int}
    (inv : AllocatedInvariant s allocated) {p : Int} {target : Nat}
    (named : s.pageTable p = some target) (data : D) :
    AllocatedInvariant (s.write target data) allocated := by
  have frames := inv.frames
  obtain ⟨inPool, held, validId⟩ := (frames.pageTable p target).1 named
  have validFrame : (s.pages target).pageId ≠ invalidPageId := held ▸ validId
  refine ⟨frames.retouch { s.pages target with data := data } inPool validFrame rfl
    (frames.pinCountNonneg target) frames.replacerValid (fun g => ?_) s.disk,
    fun f valid => ?_, inv.invalid, inv.below, inv.counter⟩
  · by_cases atTarget : g = target
    · subst atTarget; simp [frames.replacer, inPool, validFrame]
    · simp [atTarget]
  · rw [show (s.write target data).pages f = Function.update s.pages target
      { s.pages target with data := data } f from rfl, pageId_update_of_eq (by rfl)] at valid ⊢
    exact inv.held f valid

/-! ## Every step keeps the invariant -/

section Steps

variable {s s' : BufferPoolManager D} {allocated live : List Int} {clients : Clients D}
  (inv : NoLostWriteInvariant s allocated live clients)
include inv

theorem NoLostWriteInvariant.liveValid : ∀ q ∈ live, q ≠ invalidPageId := fun q member same =>
  inv.allocatedInvariant.invalid (same ▸ inv.liveAllocated q member)

theorem NoLostWriteInvariant.fetchPage {p : Int} {r : Option Nat} (member : p ∈ live)
    (run : s.fetchPage p = .ok (s', r)) : NoLostWriteInvariant s' allocated live clients := by
  have frames := inv.allocatedInvariant.frames
  refine ⟨inv.allocatedInvariant.fetchPage (inv.liveAllocated p member) run, inv.liveAllocated, ?_⟩
  cases named : s.pageTable p with
  | some target =>
      obtain ⟨replacer, -, -, run'⟩ := frames.fetchPage_hit named
      cases run.symm.trans run'
      obtain ⟨data, pins, clean⟩ := inv.coherent.resident p target named
      refine inv.coherent.retouch frames named _ ?_ ?_ ?_ ?_ ?_ replacer
      · exact fun _ _ => rfl
      · exact fun _ _ => ⟨rfl, rfl⟩
      · exact data
      · show _ ≤ (s.pages target).pinCount + 1; omega
      · exact clean
  | none =>
      rcases frames.fetchPage_miss named with ⟨-, -, run'⟩ |
        ⟨target, replacer, inPool, unpinned, -, -, run'⟩
      · cases run.symm.trans run'; exact inv.coherent
      · cases run.symm.trans run'
        have validId := inv.liveValid p member
        have onDisk : (evict s target).disk p = clients.latest p :=
          (evict_disk_of_ne s (frames.pageId_ne_of_unnamed named validId inPool).symm).trans
            (inv.coherent.evicted p member named).1
        exact inv.coherent.install frames inv.liveValid inPool unpinned named validId
          (fun q => ⟨Or.inr, fun either => either.elim (· ▸ member) id⟩) (fun _ _ => ⟨rfl, rfl⟩)
          (inv.coherent.evicted p member named).2 onDisk onDisk _ _ _

theorem NoLostWriteInvariant.newPage {target : Nat} (zeroed : s.disk s.nextPageId = 0)
    (run : s.newPage = .ok (s', some target)) :
    NoLostWriteInvariant s' (s.nextPageId :: allocated) (s.nextPageId :: live)
      ⟨Function.update clients.latest s.nextPageId 0,
        Function.update clients.writers s.nextPageId 0⟩ := by
  have frames := inv.allocatedInvariant.frames
  obtain ⟨validId, fresh⟩ := inv.allocatedInvariant.nextPageId_fresh
  have unnamed : s.pageTable s.nextPageId = none := by
    cases named : s.pageTable s.nextPageId with
    | none => rfl
    | some f =>
        obtain ⟨-, held, -⟩ := (frames.pageTable _ f).1 named
        exact absurd (held ▸ inv.allocatedInvariant.held f (held ▸ validId)) fresh
  refine ⟨inv.allocatedInvariant.newPage run, fun q member => ?_, ?_⟩
  · rcases List.mem_cons.1 member with rfl | member
    · exact List.mem_cons_self _ _
    · exact List.mem_cons_of_mem _ (inv.liveAllocated q member)
  · rcases frames.newPage_spec with ⟨-, -, run'⟩ |
      ⟨target, replacer, inPool, unpinned, -, -, run'⟩ <;> cases run.symm.trans run'
    have onDisk : (evict s target).disk s.nextPageId = 0 :=
      (evict_disk_of_ne s (frames.pageId_ne_of_unnamed unnamed validId inPool).symm).trans zeroed
    refine inv.coherent.install frames inv.liveValid inPool unpinned unnamed validId
      (fun _ => List.mem_cons) ?_ ?_ ?_ ?_ _ _ _
    · exact fun _ other => ⟨Function.update_noteq other _ _, Function.update_noteq other _ _⟩
    · simp
    · simp
    · simp [onDisk]

theorem NoLostWriteInvariant.unpinPage {p : Int} {target : Nat} {isDirty r : Bool}
    (named : s.pageTable p = some target)
    (spare : (clients.writers p : Int) < (s.pages target).pinCount)
    (run : s.unpinPage p isDirty = .ok (s', r)) : NoLostWriteInvariant s' allocated live clients := by
  have frames := inv.allocatedInvariant.frames
  have positive : 0 < (s.pages target).pinCount := by omega
  refine ⟨inv.allocatedInvariant.unpinPage (fun f named' => by
    cases named.symm.trans named'; exact positive) run, inv.liveAllocated, ?_⟩
  obtain ⟨replacer, -, -, run'⟩ := frames.unpinPage_pinned named positive isDirty
  cases run.symm.trans run'
  obtain ⟨data, -, clean⟩ := inv.coherent.resident p target named
  refine inv.coherent.retouch frames named _ ?_ ?_ ?_ ?_ ?_ replacer
  · exact fun _ _ => rfl
  · exact fun _ _ => ⟨rfl, rfl⟩
  · exact data
  · show _ ≤ (s.pages target).pinCount - 1; omega
  · exact fun dirty none => clean (Bool.or_eq_false_iff.1 dirty).1 none

theorem NoLostWriteInvariant.unpinWrittenPage {p : Int} {target : Nat} {r : Bool}
    (named : s.pageTable p = some target) (wrote : 0 < clients.writers p)
    (run : s.unpinPage p true = .ok (s', r)) :
    NoLostWriteInvariant s' allocated live
      { clients with writers := Function.update clients.writers p (clients.writers p - 1) } := by
  have frames := inv.allocatedInvariant.frames
  obtain ⟨data, pins, -⟩ := inv.coherent.resident p target named
  have positive : 0 < (s.pages target).pinCount := by omega
  refine ⟨inv.allocatedInvariant.unpinPage (fun f named' => by
    cases named.symm.trans named'; exact positive) run, inv.liveAllocated, ?_⟩
  obtain ⟨replacer, -, -, run'⟩ := frames.unpinPage_pinned named positive true
  cases run.symm.trans run'
  refine inv.coherent.retouch frames named _ ?_ ?_ ?_ ?_ ?_ replacer
  · exact fun _ _ => rfl
  · exact fun _ other => ⟨rfl, Function.update_noteq other _ _⟩
  · exact data
  · show ((Function.update clients.writers p (clients.writers p - 1) p : Nat) : Int) ≤
      (s.pages target).pinCount - 1
    simp only [Function.update_same]; omega
  · exact fun dirty => by simp at dirty

theorem NoLostWriteInvariant.flushPage {p : Int} {r : Bool} (run : s.flushPage p = .ok (s', r)) :
    NoLostWriteInvariant s' allocated live clients := by
  have frames := inv.allocatedInvariant.frames
  refine ⟨inv.allocatedInvariant.flushPage run, inv.liveAllocated, ?_⟩
  cases named : s.pageTable p with
  | none =>
      cases run.symm.trans (show s.flushPage p = .ok (s, false) by
        simp [BufferPoolManager.flushPage, named])
      exact inv.coherent
  | some target =>
      cases run.symm.trans (frames.flushPage_named named)
      by_cases dirty : (s.pages target).isDirty
      · simp only [dirty, if_true]
        obtain ⟨data, pins, -⟩ := inv.coherent.resident p target named
        refine inv.coherent.retouch frames named _ ?_ ?_ ?_ ?_ ?_ _
        · exact fun _ other => Function.update_noteq other _ _
        · exact fun _ _ => ⟨rfl, rfl⟩
        · exact data
        · exact pins
        · exact fun _ _ => by simp [data]
      · simpa [dirty] using inv.coherent

theorem NoLostWriteInvariant.deletePage {p : Int} {r : Bool} (run : s.deletePage p = .ok (s', r)) :
    NoLostWriteInvariant s' allocated (if r then live.filter (· ≠ p) else live) clients := by
  have frames := inv.allocatedInvariant.frames
  have kept : ∀ q ∈ live.filter (· ≠ p), q ∈ live ∧ q ≠ p := fun q member => by simpa using member
  cases named : s.pageTable p with
  | none =>
      cases run.symm.trans (show s.deletePage p = .ok (s, true) by
        simp [BufferPoolManager.deletePage, named])
      refine ⟨inv.allocatedInvariant, fun q member => inv.liveAllocated q (kept q member).1,
        ⟨fun q f named' => ?_, inv.coherent.resident,
          fun q member => inv.coherent.evicted q (kept q member).1⟩⟩
      have other : q ≠ p := fun same => by simp_all
      simpa [other] using inv.coherent.residentLive q f named'
  | some target =>
      by_cases pinned : 0 < (s.pages target).pinCount
      · cases run.symm.trans (show s.deletePage p = .ok (s, false) by
          simp [BufferPoolManager.deletePage, named, pinned])
        exact inv
      have unpinned : (s.pages target).pinCount = 0 := by
        have := frames.pinCountNonneg target; omega
      obtain ⟨replacer, -, -, run'⟩ := frames.deletePage_unpinned named unpinned
      cases run.symm.trans run'
      refine ⟨inv.allocatedInvariant.deletePage run, fun q member =>
        inv.liveAllocated q (kept q member).1, ⟨fun q f named' => ?_, fun q f named' => ?_,
          fun q member unnamed => ?_⟩⟩
      · have other : q ≠ p := fun same => by subst same; simp at named'
        simp only [Function.update_noteq other] at named'
        simpa [other] using inv.coherent.residentLive q f named'
      · have other : q ≠ p := fun same => by subst same; simp at named'
        simp only [Function.update_noteq other] at named'
        have notTarget : f ≠ target := fun same =>
          other (frames.pageTable_injective named (same ▸ named'))
        simpa [notTarget] using inv.coherent.resident q f named'
      · obtain ⟨member, other⟩ := kept q member
        exact inv.coherent.evicted q member (by simpa [other] using unnamed)

theorem NoLostWriteInvariant.writePage {p : Int} {target : Nat}
    (named : s.pageTable p = some target)
    (spare : (clients.writers p : Int) < (s.pages target).pinCount) (data : D) :
    NoLostWriteInvariant (s.write target data) allocated live
      ⟨Function.update clients.latest p data,
        Function.update clients.writers p (clients.writers p + 1)⟩ := by
  refine ⟨inv.allocatedInvariant.write named data, inv.liveAllocated,
    inv.coherent.retouch inv.allocatedInvariant.frames named _ ?_ ?_ ?_ ?_ ?_ s.replacer⟩
  · exact fun _ _ => rfl
  · exact fun _ other => ⟨Function.update_noteq other _ _, Function.update_noteq other _ _⟩
  · simp
  · show ((Function.update clients.writers p (clients.writers p + 1) p : Nat) : Int) ≤
      (s.pages target).pinCount
    simp only [Function.update_same]; omega
  · exact fun _ none => by simp at none

theorem NoLostWriteInvariant.rewritePage {p : Int} {target : Nat}
    (named : s.pageTable p = some target) (wrote : 0 < clients.writers p) (data : D) :
    NoLostWriteInvariant (s.write target data) allocated live
      { clients with latest := Function.update clients.latest p data } := by
  refine ⟨inv.allocatedInvariant.write named data, inv.liveAllocated,
    inv.coherent.retouch inv.allocatedInvariant.frames named _ ?_ ?_ ?_ ?_ ?_ s.replacer⟩
  · exact fun _ _ => rfl
  · exact fun _ other => ⟨Function.update_noteq other _ _, rfl⟩
  · simp
  · exact (inv.coherent.resident p target named).2.1
  · exact fun _ none => absurd none (Nat.pos_iff_ne_zero.1 wrote)

end Steps

theorem ClientRun.invariant {s : BufferPoolManager D} {allocated live : List Int}
    {clients : Clients D} (run : ClientRun s allocated live clients) :
    NoLostWriteInvariant s allocated live clients := by
  induction run with
  | init poolSize disk =>
      exact ⟨allocatedInvariant_init poolSize disk, fun _ member => absurd member (List.not_mem_nil _),
        ⟨fun _ _ named => Option.noConfusion named, fun _ _ named => Option.noConfusion named,
          fun _ member => absurd member (List.not_mem_nil _)⟩⟩
  | fetchPage _ member run inv => exact inv.fetchPage member run
  | newPage _ zeroed run inv => exact inv.newPage zeroed run
  | newPageNull _ run inv => exact inv.allocatedInvariant.frames.newPage_none run ▸ inv
  | unpinPage _ named spare run inv => exact inv.unpinPage named spare run
  | unpinWrittenPage _ named wrote run inv => exact inv.unpinWrittenPage named wrote run
  | flushPage _ run inv => exact inv.flushPage run
  | deletePage _ run inv => exact inv.deletePage run
  | writePage data _ named spare inv => exact inv.writePage named spare data
  | rewritePage data _ named wrote inv => exact inv.rewritePage named wrote data

/-- **No write is lost.** Along every run of the pool with clients that write only through a pin
and report each write in the `UnpinPage` releasing that pin, and over disks that hold a zeroed
page at every id `AllocatePage` returns: the frame of a resident live page holds its latest data,
and so does the disk when that frame is clean and no pin holds an unreported write; the disk holds
the latest data of a live page that is not resident; and `FetchPage` of a live page returns a frame
holding that page with its latest data, or `nullptr` only when the page is not resident and every
frame of the pool is pinned. -/
theorem no_lost_write {s : BufferPoolManager D} {allocated live : List Int} {clients : Clients D}
    (run : ClientRun s allocated live clients) :
    (∀ p ∈ live, ∀ f, s.pageTable p = some f → (s.pages f).data = clients.latest p ∧
      ((s.pages f).isDirty = false → clients.writers p = 0 → s.disk p = clients.latest p)) ∧
    (∀ p ∈ live, s.pageTable p = none → s.disk p = clients.latest p) ∧
    ∀ p ∈ live, ∃ s' r, s.fetchPage p = .ok (s', r) ∧
      (∀ f, r = some f → (s'.pages f).pageId = p ∧ (s'.pages f).data = clients.latest p) ∧
      (r = none → s.pageTable p = none ∧ ∀ f < s.poolSize, 0 < (s.pages f).pinCount) := by
  have inv := run.invariant
  have frames := inv.allocatedInvariant.frames
  refine ⟨fun p _ f named => ?_, fun p member unnamed => (inv.coherent.evicted p member unnamed).1,
    fun p member => ?_⟩
  · obtain ⟨data, -, clean⟩ := inv.coherent.resident p f named
    exact ⟨data, clean⟩
  cases named : s.pageTable p with
  | some target =>
      obtain ⟨replacer, -, -, fetched⟩ := frames.fetchPage_hit named
      refine ⟨_, _, fetched, fun f chosen => ?_, fun none => by cases none⟩
      cases chosen
      simpa using ⟨(frames.pageId_ne_of_pageTable named).1, (inv.coherent.resident p target named).1⟩
  | none =>
      rcases frames.fetchPage_miss named with ⟨free, empty, fetched⟩ |
        ⟨target, replacer, inPool, unpinned, -, -, fetched⟩
      · refine ⟨_, _, fetched, fun f chosen => (by cases chosen), fun _ => ⟨rfl, fun f inPool => ?_⟩⟩
        rcases frames.place inPool with ⟨member, -⟩ | ⟨-, member, -⟩ | ⟨-, -, -, pinned⟩
        · simp [free] at member
        · simp [empty] at member
        · exact pinned
      · refine ⟨_, _, fetched, fun f chosen => ?_, fun none => by cases none⟩
        cases chosen
        have unheld := frames.pageId_ne_of_unnamed named (inv.liveValid p member) inPool
        simpa using (evict_disk_of_ne s unheld.symm).trans (inv.coherent.evicted p member named).1

/-- One frame over a disk of zeros. A client writes `7` into the new page `0` and reports it in
`UnpinPage(0, true)`; the next `NewPage` evicts page `0`, writing it back, and its page `1` is
unpinned clean. Page `0` is then on disk only, holding the data last written, and `FetchPage(0)`
brings it back. -/
theorem no_lost_write_after_eviction :
    ∃ (s : BufferPoolManager Nat) (clients : Clients Nat),
      ClientRun s [1, 0] [1, 0] clients ∧
      (s.pageTable 0 = none ∧ s.disk 0 = 7 ∧ clients.latest 0 = 7) ∧
      (∀ p ∈ [1, 0], ∀ f, s.pageTable p = some f → (s.pages f).data = clients.latest p ∧
        ((s.pages f).isDirty = false → clients.writers p = 0 → s.disk p = clients.latest p)) ∧
      (∀ p ∈ [1, 0], s.pageTable p = none → s.disk p = clients.latest p) ∧
      ∀ p ∈ [1, 0], ∃ s' r, s.fetchPage p = .ok (s', r) ∧
        (∀ f, r = some f → (s'.pages f).pageId = p ∧ (s'.pages f).data = clients.latest p) ∧
        (r = none → s.pageTable p = none ∧ ∀ f < s.poolSize, 0 < (s.pages f).pinCount) := by
  have created := ClientRun.newPage (.init 1 fun _ => (0 : Nat)) rfl rfl
  have written := ClientRun.writePage (p := 0) 7 created rfl (by decide)
  have reported := ClientRun.unpinWrittenPage (p := 0) written rfl (by decide) rfl
  have evicted := ClientRun.newPage reported rfl rfl
  have released := ClientRun.unpinPage (p := 1) evicted rfl (by decide)
    (show unpinPage _ 1 false = .ok (_, true) from rfl)
  exact ⟨_, _, released, ⟨rfl, rfl, rfl⟩, no_lost_write released⟩

/-- `NewPage` leaves the zeroed frame it returns clean, so a page no client wrote is read back
from whatever the disk held at its id. With one frame and a disk holding `7` everywhere,
`FetchPage(0)` of the new page `0` reads `0`; after two clean unpins, `NewPage` evicts page `0`
without writing it back, `FetchPage(0)` returns `nullptr` while page `1` pins the only frame, and
once page `1` is unpinned it reads `7`, though no client ever wrote page `0`. -/
theorem newPage_zeroes_not_persisted :
    (do
      let (s, _) ← (init (D := Nat) 1 fun _ => 7).newPage
      let (s, first) ← s.fetchPage 0
      let firstData := first.map fun f => (s.pages f).data
      let (s, _) ← s.unpinPage 0 false
      let (s, _) ← s.unpinPage 0 false
      let (s, _) ← s.newPage
      let (s, pinned) ← s.fetchPage 0
      let (s, _) ← s.unpinPage 1 false
      let (s, second) ← s.fetchPage 0
      pure (firstData, pinned, second.map fun f => (s.pages f).data)).toOption =
      some (some 0, none, some 7) := by
  decide

end BufferPoolManager

end ScuDb.Buffer
