import ScuDb.Index.Iterator

/-!
Contract: concurrent calls of `Insert`, `Remove` and `GetValue` on the project2 `BPlusTree`
(src/project/project2/scudb_initial/src/index/b_plus_tree.cpp), each thread with its own
`Transaction`.

Owns: the calls (`TreeCall`), where a thread is in its call (`TreePc`), a thread's sections
(`treeStep`), the run of a schedule (`runTree`), that a thread run alone makes its sequential
call, and a schedule in which `Insert` uses the `nullptr` that `FindLeafPage` returns.

Does not own: the sequential calls (`ScuDb.Index.BPlusTree`).

## Model

`Insert` takes the root-id latch, reads `root_page_id_` through `IsEmpty()` and, on a tree that
is not empty, releases the latch; `InsertIntoLeaf` then takes it again in `FindLeafPage`. A step
of a thread here is a section of consecutive atomic steps of the code (latch operations, reads
and changes of latched pages and of `root_page_id_`): `Insert` up to the release of the root-id
latch, `InsertIntoLeaf`, a whole `Remove`, a whole `GetValue`. A schedule of sections is one
interleaving of the atomic steps, which is all a schedule that goes wrong needs.
-/

namespace ScuDb.Index

open ScuDb.Buffer (invalidPageId)

variable {K V : Type} [LinearOrder K] [Zero K]

/-- A call a thread makes on the tree. -/
inductive TreeCall (K V : Type)
  | insert (key : K) (value : V)
  | remove (key : K)
  | getValue (key : K)
deriving DecidableEq

/-- What a call returns: `Insert` whether the key was new, `Remove` nothing, `GetValue` the value
it reports. -/
inductive TreeReply (V : Type)
  | inserted (fresh : Bool)
  | removed
  | found (value : Option V)
deriving DecidableEq

/-- Where a thread is in its call: not started; in an `Insert` that released the root-id latch on
a tree that was not empty, before `InsertIntoLeaf`; returned; or stopped at a failed check (an
`assert`, or a null pointer used). -/
inductive TreePc (V : Type)
  | start
  | intoLeaf
  | returned (reply : TreeReply V)
  | failed (message : String)
deriving DecidableEq

/-- A thread and where it is in its call. -/
structure TreeThread (K V : Type) where
  call : TreeCall K V
  pc : TreePc V
deriving DecidableEq

/-- The end of a section: the tree and the reply, or the check that failed. -/
def finishSection (t : BPlusTree K V) :
    Except String (BPlusTree K V × TreeReply V) → BPlusTree K V × TreePc V
  | .ok (t', reply) => (t', .returned reply)
  | .error message => (t, .failed message)

/-- One section of a thread's call. -/
def treeStep (t : BPlusTree K V) (thread : TreeThread K V) : BPlusTree K V × TreeThread K V :=
  match thread.pc, thread.call with
  | .start, .insert key value =>
      if t.isEmpty then (t.startNewTree key value, ⟨thread.call, .returned (.inserted true)⟩)
      else (t, ⟨thread.call, .intoLeaf⟩)
  | .intoLeaf, .insert key value =>
      let (t, pc) := finishSection t ((t.insertIntoLeaf key value).map fun (t, fresh) =>
        (t, .inserted fresh))
      (t, ⟨thread.call, pc⟩)
  | .start, .remove key =>
      let (t, pc) := finishSection t ((t.remove key).map fun t => (t, .removed))
      (t, ⟨thread.call, pc⟩)
  | .start, .getValue key =>
      let (t, pc) := finishSection t ((t.getValue key).map fun value => (t, .found value))
      (t, ⟨thread.call, pc⟩)
  | _, _ => (t, thread)

/-- Thread `i` runs one section; an index past the threads changes nothing. -/
def stepTree (state : BPlusTree K V × List (TreeThread K V)) (i : Nat) :
    BPlusTree K V × List (TreeThread K V) :=
  match state.2[i]? with
  | some thread =>
      let (t, thread) := treeStep state.1 thread
      (t, state.2.set i thread)
  | none => state

/-- The run of a schedule: the threads it names run one section each, in its order. -/
def runTree (t : BPlusTree K V) (threads : List (TreeThread K V)) (schedule : List Nat) :
    BPlusTree K V × List (TreeThread K V) :=
  schedule.foldl stepTree (t, threads)

/-- **A thread run alone makes its sequential `Insert`.** -/
theorem runTree_solo_insert {t t' : BPlusTree K V} {key : K} {value : V} {fresh : Bool}
    (done : t.insert key value = .ok (t', fresh)) :
    ∃ n, runTree t [⟨.insert key value, .start⟩] (List.replicate n 0) =
      (t', [⟨.insert key value, .returned (.inserted fresh)⟩]) := by
  by_cases empty : t.isEmpty
  · simp only [BPlusTree.insert, empty, if_true, Except.ok.injEq, Prod.mk.injEq] at done
    obtain ⟨rfl, rfl⟩ := done
    exact ⟨1, by simp [runTree, stepTree, treeStep, empty]⟩
  · simp only [BPlusTree.insert, empty, Bool.false_eq_true, if_false] at done
    exact ⟨2, by simp [runTree, stepTree, treeStep, empty, done, finishSection, Except.map]⟩

/-! ## `Insert` and a concurrent `Remove` of the last key -/

theorem BPlusTreeLeafPage.removeAndDeleteRecord_single (parent next : Int) (key : K) (value : V) :
    (⟨parent, next, [(key, value)]⟩ : BPlusTreeLeafPage K V).removeAndDeleteRecord key =
      ⟨parent, next, []⟩ := by
  have emptied : (BPlusTreeLeafPage.removeAndDeleteRecord
      ⟨parent, next, [(key, value)]⟩ key).array = [] := by
    rw [BPlusTreeLeafPage.removeAndDeleteRecord_array (by simp)]; simp
  revert emptied
  dsimp only [BPlusTreeLeafPage.removeAndDeleteRecord]
  split_ifs <;> simp

/-- `Remove` of the one key of a root leaf empties the tree. -/
theorem remove_last_key_empties :
    ∃ t, ((BPlusTree.empty 253 338 1 : BPlusTree Nat Nat).startNewTree 1 10).remove 1 = .ok t ∧
      t.isEmpty = true := by
  have emptied : (((BPlusTree.empty 253 338 1 : BPlusTree Nat Nat).startNewTree 1 10).remove 1).map
      BPlusTree.isEmpty = .ok true := by
    simp [BPlusTree.remove, BPlusTree.isEmpty, BPlusTree.findLeafPage, BPlusTree.findLeafPageLoop,
      BPlusTree.fetchPage, BPlusTree.fetchLeaf, BPlusTree.empty, BPlusTree.fuel,
      BPlusTreeLeafPage.removeAndDeleteRecord_single, bind, Except.bind, pure, Except.pure,
      BPlusTree.coalesceOrRedistribute, BPlusTree.adjustRoot, Except.map, invalidPageId]
  cases removed : ((BPlusTree.empty 253 338 1 : BPlusTree Nat Nat).startNewTree 1 10).remove 1 with
  | error message => simp [removed, Except.map] at emptied
  | ok t => exact ⟨t, rfl, by simpa [removed, Except.map] using emptied⟩

/-- **`Insert` uses the `nullptr` of `FindLeafPage`.** From the tree holding the one key 1, thread
0 runs `Insert(2, 20)` up to the release of the root-id latch (the tree is not empty); thread 1
runs the whole `Remove(1)`, which empties the tree; thread 0's `InsertIntoLeaf` then gets
`nullptr` from `FindLeafPage` and dereferences it. -/
theorem insert_uses_null_leaf :
    ∃ t0 t1 : BPlusTree Nat Nat, (BPlusTree.empty 253 338 1).insert 1 10 = .ok (t0, true) ∧
      runTree t0 [⟨.insert 2 20, .start⟩, ⟨.remove 1, .start⟩] [0, 1, 0] =
        (t1, [⟨.insert 2 20, .failed "FindLeafPage returned nullptr"⟩,
          ⟨.remove 1, .returned .removed⟩]) := by
  obtain ⟨t1, removed, empty⟩ := remove_last_key_empties
  refine ⟨_, t1, rfl, ?_⟩
  have full : ((BPlusTree.empty 253 338 1 : BPlusTree Nat Nat).startNewTree 1 10).isEmpty = false := rfl
  simp [runTree, stepTree, treeStep, full, removed, finishSection, Except.map,
    BPlusTree.insertIntoLeaf, BPlusTree.findLeafPage, empty, bind, Except.bind]

end ScuDb.Index
