import ScuDb.Hash.Directory

/-!
Contract: the project2 copy of `ExtendibleHash::Insert` (src/unnamed/part_001, lines 111-169),
compared with the project1 `Insert`.

Owns: the copy's two-pass split (copy the entries whose hash has bit `L` set to the new bucket,
then erase them from `cur` in a second loop), its `Insert` loop, and the comparison at one table.

The copy declares its capacity as `bucketMaxSize` (src/unnamed/part_000); the model reuses the
`bucketSize` field of `ExtendibleHash` for it. The only difference from project1 is the erase
loop:

    for (auto it = cur->keyMap.begin(); it != cur->keyMap.end(); it++)
      if (HashKey(it->first) & mask) it = cur->keyMap.erase(it);

`erase` returns the iterator to the next entry and the loop header then steps past it, so the
entry after each erased one is never examined, and erasing the last entry leaves `it` at `end()`
before `it++`.
-/

set_option linter.unusedSectionVars false

namespace ScuDb.Hash

variable {K V : Type} [LinearOrder K] (hashKey : K → Nat)

/-- What the copy's erase loop meets when it erases the last entry: `erase` returns `end()`
and the loop header's `it++` steps past it. -/
def iteratorPastEnd : String := "Insert: it++ past keyMap.end()"

/-- The copy's erase loop over the entries from `it` on. An erased entry's successor is stepped
over and kept; erasing the last entry applies `it++` to `end()`. -/
def eraseMarked (mask : Nat) : List (K × V) → Except String (List (K × V))
  | [] => .ok []
  | [entry] => if movesOut hashKey mask entry then .error iteratorPastEnd else .ok [entry]
  | entry :: next :: rest =>
      if movesOut hashKey mask entry then (next :: ·) <$> eraseMarked mask rest
      else (entry :: ·) <$> eraseMarked mask (next :: rest)

/-- The copy's split of the full bucket `cur` (lines 125-162): as in project1, with the same
`int` mask, except that the entries are erased from `cur` by `eraseMarked`. -/
def splitCopy (s : ExtendibleHash K V) (cur : Nat) : Except String (ExtendibleHash K V) :=
  let bucket := s.store cur
  if bucket.localDepth ≤ 30 then
    let mask := 1 <<< bucket.localDepth
    let depth := bucket.localDepth + 1
    let grows := decide (depth > s.globalDepth)
    let directory := if grows then s.buckets ++ s.buckets else s.buckets
    let newBuc := s.nextBucket
    let moved := (bucket.keyMap.filter (movesOut hashKey mask)).foldl
      (fun keyMap entry => mapAssign entry.1 entry.2 keyMap) []
    (eraseMarked hashKey mask bucket.keyMap).map fun kept =>
      { globalDepth := if grows then s.globalDepth + 1 else s.globalDepth
        bucketNum := s.bucketNum + 1
        bucketSize := s.bucketSize
        buckets := directory.mapIdx fun i id => if id = cur ∧ i &&& mask != 0 then newBuc else id
        store := Function.update (Function.update s.store cur ⟨depth, kept⟩) newBuc ⟨depth, moved⟩
        nextBucket := newBuc + 1 }
  else .error maskOverflow

/-- The copy's `while (true)` loop: overwrite the value when `key` is in `cur`, store it when
`cur` is not full, split otherwise. -/
def insertLoopCopy (key : K) (value : V) :
    Nat → ExtendibleHash K V → Nat → Except String (ExtendibleHash K V)
  | 0, _, _ => .error outOfPasses
  | fuel + 1, s, cur =>
      let bucket := s.store cur
      if (mapFind key bucket.keyMap).isSome ∨ bucket.keyMap.length < s.bucketSize then
        .ok (s.assign cur key value)
      else
        (splitCopy hashKey s cur).bind fun s' =>
          (getIdx hashKey s' key).bind fun idx => insertLoopCopy key value fuel s' (s'.slot idx)

theorem insertLoopCopy_succ (key : K) (value : V) (fuel : Nat) (s : ExtendibleHash K V) (cur : Nat) :
    insertLoopCopy hashKey key value (fuel + 1) s cur =
      if (mapFind key (s.store cur).keyMap).isSome ∨ (s.store cur).keyMap.length < s.bucketSize then
        .ok (s.assign cur key value)
      else (splitCopy hashKey s cur).bind fun s' =>
        (getIdx hashKey s' key).bind fun idx => insertLoopCopy hashKey key value fuel s' (s'.slot idx) :=
  rfl

/-- The copy's `Insert(key, value)`, with `fuel` passes of its loop. -/
def insertCopy (fuel : Nat) (s : ExtendibleHash K V) (key : K) (value : V) :
    Except String (ExtendibleHash K V) :=
  (getIdx hashKey s key).bind fun idx => insertLoopCopy hashKey key value fuel s (s.slot idx)

theorem insertCopy_eq {s : ExtendibleHash K V} (shallow : s.globalDepth ≤ 30) (fuel : Nat) (key : K)
    (value : V) :
    insertCopy hashKey fuel s key value =
      insertLoopCopy hashKey key value fuel s (s.slot (hashKey key % 2 ^ s.globalDepth)) := by
  rw [insertCopy, getIdx_eq hashKey shallow]; rfl

/-- `ExtendibleHash(3)` holding the keys `0, 1, 3` in its single bucket, `HashKey` the identity. -/
def fullTable : Except String (ExtendibleHash Nat Nat) :=
  (insert id 1 (ExtendibleHash.init 3) 0 0).bind fun s =>
    (insert id 1 s 1 1).bind fun s => insert id 1 s 3 3

/-- Inserting `2` splits the full bucket on bit 0. Project1 moves `1` and `3` to the new bucket;
the copy erases `1`, steps over `3` and leaves it behind in bucket 0, where no slot leads. And
in `ExtendibleHash(2)` holding `0, 1`, inserting `3` makes the copy erase its last entry `1` and
then apply `it++` to `end()`, where project1 completes the insert. -/
theorem insertCopy_leaves_moved_key :
    ((fullTable.bind fun s => insertCopy id 2 s 2 2).map
        (fun s => ((s.store 0).keyMap, (s.store 1).keyMap))).toOption =
      some ([(0, 0), (2, 2), (3, 3)], [(1, 1), (3, 3)]) ∧
    ((fullTable.bind fun s => insert id 2 s 2 2).map
        (fun s => ((s.store 0).keyMap, (s.store 1).keyMap))).toOption =
      some ([(0, 0), (2, 2)], [(1, 1), (3, 3)]) ∧
    ((insert id 1 (ExtendibleHash.init 2) 0 0).bind fun s =>
      (insert id 1 s 1 1).bind fun s => splitCopy id s 0) = .error iteratorPastEnd ∧
    (((insert id 1 (ExtendibleHash.init 2) 0 0).bind fun s =>
      (insert id 1 s 1 1).bind fun s => insert id 2 s 3 3).map
        fun s => ((s.store 0).keyMap, (s.store 1).keyMap)).toOption =
      some ([(0, 0)], [(1, 1), (3, 3)]) :=
  ⟨by decide, by decide, rfl, by decide⟩

end ScuDb.Hash
