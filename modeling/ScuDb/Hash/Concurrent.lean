import ScuDb.Hash.Directory

/-!
Contract: concurrent calls of `Insert` on the project1 `ExtendibleHash` (src/project/project1/
scudb_initial/src/hash/extendible_hash.cpp), one latched section at a time.

Owns: where a thread running `Insert` is in its code (`InsertPc`), one atomic step of such a
thread (`insertStep`), the run of a schedule of threads (`runSchedule`), that a thread run alone
is the sequential `Insert`, and a schedule that loses an insert.

Does not own: the table and its sequential calls (`ScuDb.Hash.ExtendibleHash`).

## Model

A step is a section under the directory latch (`getIdx`), the unlatched read `cur = buckets[idx]`,
or a section under `cur->latch`: the test and the assignment, or the split with its directory
doubling. A schedule lists the thread that takes each step. `Insert` reads `cur` once and, once it
holds `cur->latch`, never checks that `cur` still owns the key's slot, so a split by another
thread between the read and the lock can hand the slot to a new bucket while the key goes into
`cur`. `Find` is run after every thread has returned, where it is the sequential `find`.
-/

set_option linter.unusedSectionVars false

namespace ScuDb.Hash

variable {K V : Type} [LinearOrder K] (hashKey : K → Nat)

/-- Where a thread running `Insert(key, value)` is: before `idx = getIdx(key)`, before
`cur = buckets[idx]`, before `lock_guard<mutex> lck(cur->latch)`, or returned. -/
inductive InsertPc
  | start
  | atSlot (idx : Nat)
  | atBucket (cur : Nat)
  | returned
deriving DecidableEq

/-- A thread running `Insert(key, value)`. -/
structure InsertThread (K V : Type) where
  key : K
  value : V
  pc : InsertPc
deriving DecidableEq

/-- One atomic step of a thread running `Insert`: `getIdx`, the read of `buckets[idx]`, or the
section under `cur->latch`, which assigns the pair when `cur` holds the key or has room and
otherwise splits `cur` and goes back to `getIdx`. A step fails where the sequential code does. -/
def insertStep (s : ExtendibleHash K V) (thread : InsertThread K V) :
    Except String (ExtendibleHash K V × InsertThread K V) :=
  match thread.pc with
  | .start => (getIdx hashKey s thread.key).map fun idx => (s, { thread with pc := .atSlot idx })
  | .atSlot idx => .ok (s, { thread with pc := .atBucket (s.slot idx) })
  | .atBucket cur =>
      let bucket := s.store cur
      if (mapFind thread.key bucket.keyMap).isSome ∨ bucket.keyMap.length < s.bucketSize then
        .ok (s.assign cur thread.key thread.value, { thread with pc := .returned })
      else (split hashKey s cur).map fun s' => (s', { thread with pc := .start })
  | .returned => .ok (s, thread)

/-- Thread `i` takes one step; an index past the threads changes nothing. -/
def stepThread (state : ExtendibleHash K V × List (InsertThread K V)) (i : Nat) :
    Except String (ExtendibleHash K V × List (InsertThread K V)) :=
  match state.2[i]? with
  | some thread => (insertStep hashKey state.1 thread).map fun (s, thread) => (s, state.2.set i thread)
  | none => .ok state

/-- The run of a schedule: the threads it names take one step each, in its order, until a step
fails. -/
def runSchedule (s : ExtendibleHash K V) (threads : List (InsertThread K V)) (schedule : List Nat) :
    Except String (ExtendibleHash K V × List (InsertThread K V)) :=
  schedule.foldlM (stepThread hashKey) (s, threads)

theorem runSchedule_cons (s : ExtendibleHash K V) (threads : List (InsertThread K V)) (i : Nat)
    (schedule : List Nat) :
    runSchedule hashKey s threads (i :: schedule) =
      (stepThread hashKey (s, threads) i).bind fun state =>
        runSchedule hashKey state.1 state.2 schedule := rfl

/-! ## A thread run alone -/

/-- A thread alone at the lock of `cur` runs `Insert`'s loop from `cur`. -/
theorem runSchedule_solo_insertLoop (key : K) (value : V) :
    ∀ (fuel : Nat) (s s' : ExtendibleHash K V) (cur : Nat),
      insertLoop hashKey key value fuel s cur = .ok s' →
      ∃ n, runSchedule hashKey s [⟨key, value, .atBucket cur⟩] (List.replicate n 0) =
        .ok (s', [⟨key, value, .returned⟩])
  | 0, _, _, _, done => nomatch done
  | fuel + 1, s, s', cur, done => by
      rw [insertLoop_succ] at done
      split_ifs at done with room
      · cases done
        exact ⟨1, by simp [runSchedule, stepThread, insertStep, room, Except.map]⟩
      · cases splits : split hashKey s cur with
        | error message => rw [splits] at done; nomatch done
        | ok t =>
            rw [splits] at done
            cases atIdx : getIdx hashKey t key with
            | error message => simp only [Except.bind, atIdx] at done; nomatch done
            | ok idx =>
                simp only [Except.bind, atIdx] at done
                obtain ⟨n, solo⟩ := runSchedule_solo_insertLoop key value fuel _ s' _ done
                exact ⟨n + 3, by
                  simpa [List.replicate_succ, runSchedule_cons, stepThread, insertStep, room, splits,
                    atIdx, Except.map, Except.bind] using solo⟩

/-- **A thread run alone is the sequential `Insert`.** -/
theorem runSchedule_solo_insert {key : K} {value : V} {fuel : Nat} {s s' : ExtendibleHash K V}
    (done : insert hashKey fuel s key value = .ok s') :
    ∃ n, runSchedule hashKey s [⟨key, value, .start⟩] (List.replicate n 0) =
      .ok (s', [⟨key, value, .returned⟩]) := by
  cases atIdx : getIdx hashKey s key with
  | error message => simp only [insert, Except.bind, atIdx] at done; nomatch done
  | ok idx =>
      simp only [insert, Except.bind, atIdx] at done
      obtain ⟨n, solo⟩ := runSchedule_solo_insertLoop hashKey key value fuel s s' _ done
      exact ⟨n + 2, by
        simpa [List.replicate_succ, runSchedule_cons, stepThread, insertStep, atIdx, Except.map,
          Except.bind] using solo⟩

/-! ## A lost insert -/

/-- **An insert is lost.** `HashKey` the identity, `ExtendibleHash(2)` holding keys 0 and 1 in its
one bucket. Thread 0 runs `Insert(3, 30)` up to `cur = buckets[0]`; thread 1 runs the whole
`Insert(5, 50)`, which splits that bucket and repoints slot 1 (key 3's slot) to the new bucket;
thread 0 then locks its stale `cur`, which has room, and stores key 3 there. Both threads have
returned, and `Find(3)` answers that the key is absent. -/
theorem insert_lost_by_concurrent_split :
    ∃ s0 s1 : ExtendibleHash Nat Nat, Reachable id 2 s0 ∧
      runSchedule id s0 [⟨3, 30, .start⟩, ⟨5, 50, .start⟩] [0, 0, 1, 1, 1, 1, 1, 1, 0] =
        .ok (s1, [⟨3, 30, .returned⟩, ⟨5, 50, .returned⟩]) ∧
      find id s1 3 = .ok none ∧ find id s1 5 = .ok (some 50) :=
  ⟨_, _, .insert (.insert .init (show insert id 1 (ExtendibleHash.init 2) (0 : Nat) (0 : Nat) =
      .ok _ from rfl)) (show insert id 1 _ (1 : Nat) (1 : Nat) = .ok _ from rfl), rfl, rfl, rfl⟩

end ScuDb.Hash
