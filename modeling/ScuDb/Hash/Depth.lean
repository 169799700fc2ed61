import ScuDb.Hash.SplitCopy

/-!
Contract: how deep the directory of `ExtendibleHash`
(src/project/project1/scudb_initial/src/hash/extendible_hash.cpp, and the project2 copy in
src/unnamed/part_001) gets on `ExtendibleHash<int, V>` with `HashKey = std::hash<int>`. In a table
of buckets of one entry holding key 0, `Insert(1 << 30, value)` splits bucket 0 thirty-one times
before the two keys part, so `globalDepth` becomes 31 and the `getIdx` after the last split meets
`(1 << 31) - 1`, which overflows `int` (`insert_exceeds_depth_30`).

Owns: `std::hash<int>` (`hashInt`), the tables the loop passes through on that run (`DeepChain`),
the run for any two keys whose hashes are `0` and `2 ^ d`, `d ≤ 30` (`insertLoop_deepChain`), and
its end at `d = 30` (`insert_deepKey_fails`).

## Why the key stays in bucket 0

Both hashes are 0 modulo `2 ^ k` for every `k ≤ d`, so the key's slot is slot 0 at each of those
depths, bucket 0 stays behind slot 0 with its one entry, which no split moves, and each pass finds
it full. The split at local depth `d` finally sends slot `2 ^ d` to a new, empty bucket, in a
directory of depth `d + 1`; at `d = 30` that depth is one the next `getIdx` cannot mask.
-/

set_option linter.unusedSectionVars false

namespace ScuDb.Hash

variable {K V : Type} [LinearOrder K]

/-- `std::hash<int>` as libstdc++ computes it: the `int` converted to `size_t`. -/
def hashInt (key : Int) : Nat := (key % 2 ^ 64).toNat

/-! ## The tables of the run -/

/-- The table after `k` splits of bucket 0: bucket 0 sits behind slot 0 at local depth
`k = globalDepth` and holds only `entry`, in buckets of one entry. -/
structure DeepChain (hashKey : K → Nat) (k : Nat) (entry : K × V) (s : ExtendibleHash K V) :
    Prop where
  inv : DirectoryInvariant hashKey s
  globalDepth : s.globalDepth = k
  bucketSize : s.bucketSize = 1
  firstSlot : s.slot 0 = 0
  firstBucket : s.store 0 = ⟨k, [entry]⟩

section Chain

variable {hashKey : K → Nat} {entry : K × V} {k d : Nat} {s : ExtendibleHash K V} {key : K}

theorem DeepChain.zero_mem (chain : DeepChain hashKey k entry s) : 0 ∈ s.buckets := by
  rw [← chain.firstSlot]
  exact slot_mem (by rw [chain.inv.length_buckets]; exact Nat.two_pow_pos _)

theorem DeepChain.zero_ne_nextBucket (chain : DeepChain hashKey k entry s) : 0 ≠ s.nextBucket :=
  fun fresh => nextBucket_not_mem chain.inv (fresh ▸ chain.zero_mem)

/-- Bucket 0 has no room for a key other than its entry's. -/
theorem DeepChain.full (chain : DeepChain hashKey k entry s) (differs : entry.1 ≠ key) :
    ¬ ((mapFind key (s.store 0).keyMap).isSome ∨ (s.store 0).keyMap.length < s.bucketSize) := by
  simp [chain.firstBucket, chain.bucketSize, mapFind_cons, differs]

/-- A key whose hash is `2 ^ d` has slot 0 while the depth is at most `d`. -/
theorem DeepChain.keySlot (chain : DeepChain hashKey k entry s) (atBit : hashKey key = 2 ^ d)
    (shallow : k ≤ d) : s.slot (hashKey key % 2 ^ s.globalDepth) = 0 := by
  rw [atBit, chain.globalDepth, Nat.mod_eq_zero_of_dvd (Nat.pow_dvd_pow 2 shallow), chain.firstSlot]

variable (unmoved : hashKey entry.1 = 0)
include unmoved

theorem movesOut_of_hash_zero (mask : Nat) : movesOut hashKey mask entry = false := by
  simp [movesOut, unmoved]

/-- Splitting bucket 0 keeps the entry there, one level deeper. -/
theorem DeepChain.split_zero (chain : DeepChain hashKey k entry s) :
    DeepChain hashKey (k + 1) entry (splitTable hashKey s 0) := by
  refine ⟨directoryInvariant_split chain.inv chain.zero_mem, ?_, chain.bucketSize, ?_, ?_⟩
  · simp [split_globalDepth, chain.firstBucket, chain.globalDepth]
  · rw [slot_split chain.inv (by rw [split_length chain.inv]; exact Nat.two_pow_pos _)]
    simp [chain.firstSlot]
  · rw [split_store, if_neg chain.zero_ne_nextBucket, if_pos rfl, chain.firstBucket]
    simp [movesOut_of_hash_zero unmoved]

/-- The project2 split of bucket 0 is the project1 one: its erase loop sees one entry, which
stays. -/
theorem DeepChain.splitCopy_zero (chain : DeepChain hashKey k entry s) (shallow : k ≤ 30) :
    splitCopy hashKey s 0 = .ok (splitTable hashKey s 0) := by
  simp [splitCopy, splitTable, chain.firstBucket, eraseMarked, movesOut_of_hash_zero unmoved, shallow]
  rfl

/-- The split at depth `d` sends the slot of a key whose hash is `2 ^ d` to the new bucket,
which is empty. -/
theorem DeepChain.keySlot_split (chain : DeepChain hashKey d entry s) (atBit : hashKey key = 2 ^ d) :
    (splitTable hashKey s 0).slot (hashKey key % 2 ^ (splitTable hashKey s 0).globalDepth) =
        s.nextBucket ∧
      (splitTable hashKey s 0).store s.nextBucket = ⟨d + 1, []⟩ := by
  have inside : 2 ^ d < 2 ^ (d + 1) := Nat.pow_lt_pow_right (by decide) (Nat.lt_succ_self d)
  constructor
  · rw [atBit, (chain.split_zero unmoved).globalDepth, Nat.mod_eq_of_lt inside,
      slot_split chain.inv (by rwa [split_length chain.inv, (chain.split_zero unmoved).globalDepth])]
    simp [chain.globalDepth, chain.firstSlot, chain.firstBucket]
  · rw [split_store, if_pos rfl, chain.firstBucket]
    simp [movesOut_of_hash_zero unmoved]

/-- **The loop splits bucket 0 until the keys part.** From the table after `k` splits, with
`k + j = d ≤ 30`, both copies of `Insert`'s loop for a key whose hash is `2 ^ d` make `j + 1` more
splits of bucket 0. They reach a table `t` of depth `d + 1` in which the key's slot names a new,
empty bucket, and the passes left start there with `getIdx`. -/
theorem insertLoop_deepChain (atBit : hashKey key = 2 ^ d) (shallow : d ≤ 30) (value : V) :
    ∀ (j : Nat) {k : Nat} {s : ExtendibleHash K V}, k + j = d → DeepChain hashKey k entry s →
      ∃ t, DeepChain hashKey (d + 1) entry t ∧
        t.store (t.slot (hashKey key % 2 ^ (d + 1))) = ⟨d + 1, []⟩ ∧
        ∀ fuel, insertLoop hashKey key value (fuel + (j + 1)) s 0 =
            (getIdx hashKey t key).bind (fun idx => insertLoop hashKey key value fuel t (t.slot idx)) ∧
          insertLoopCopy hashKey key value (fuel + (j + 1)) s 0 =
            (getIdx hashKey t key).bind (fun idx => insertLoopCopy hashKey key value fuel t (t.slot idx)) := by
  have differs : entry.1 ≠ key := fun same => by
    have := Nat.two_pow_pos d; rw [← atBit, ← same, unmoved] at this; omega
  intro j
  induction j with
  | zero =>
      intro k s depth chain
      obtain rfl : k = d := depth
      obtain ⟨atNew, emptyNew⟩ := chain.keySlot_split unmoved atBit
      have deeper := chain.split_zero unmoved
      refine ⟨_, deeper, by rw [← deeper.globalDepth, atNew, emptyNew, deeper.globalDepth],
        fun fuel => ⟨?_, ?_⟩⟩
      · rw [insertLoop_succ, if_neg (chain.full differs), split, chain.firstBucket, if_pos shallow]
        rfl
      · rw [insertLoopCopy_succ, if_neg (chain.full differs), chain.splitCopy_zero unmoved shallow]
        rfl
  | succ j inductionHypothesis =>
      intro k s depth chain
      have deeper := chain.split_zero unmoved
      have shallow' : (splitTable hashKey s 0).globalDepth ≤ 30 := by rw [deeper.globalDepth]; omega
      have keySlot := deeper.keySlot atBit (by omega)
      obtain ⟨t, chainT, emptyT, runs⟩ := inductionHypothesis (by omega) deeper
      refine ⟨t, chainT, emptyT, fun fuel => ⟨?_, ?_⟩⟩
      · rw [← (runs fuel).1, Nat.add_succ,
          insertLoop_succ_of_full hashKey value _ (chain.full differs)
            (by simp only [chain.firstBucket]; omega) shallow', keySlot]
      · rw [← (runs fuel).2, Nat.add_succ, insertLoopCopy_succ, if_neg (chain.full differs),
          chain.splitCopy_zero unmoved (by omega)]
        show (getIdx hashKey _ key).bind _ = _
        rw [getIdx_eq hashKey shallow']
        exact congrArg (insertLoopCopy hashKey key value _ _) keySlot

end Chain

/-! ## Depth 31 on `int` keys -/

/-- `ExtendibleHash<int, int>(1)` after `Insert(0, 0)`: whatever the passes, both copies of
`Insert(1 << 30, value)` fail once they have 31 of them, at the `getIdx` after the split at local
depth 30. -/
theorem insert_deepKey_fails (value : Int) {fuel : Nat} (enough : 31 ≤ fuel) :
    insert hashInt fuel ((ExtendibleHash.init 1 : ExtendibleHash Int Int).assign 0 0 0) (2 ^ 30) value =
        .error getIdxOverflow ∧
      insertCopy hashInt fuel ((ExtendibleHash.init 1 : ExtendibleHash Int Int).assign 0 0 0) (2 ^ 30)
        value = .error getIdxOverflow := by
  have chain : DeepChain hashInt 0 ((0 : Int), (0 : Int)) ((ExtendibleHash.init 1).assign 0 0 0) :=
    ⟨directoryInvariant_assign (directoryInvariant_init hashInt 1) (0 : Int) 0 (by decide),
      rfl, rfl, rfl, rfl⟩
  obtain ⟨t, chainT, -, runs⟩ := insertLoop_deepChain (by rfl)
    (show hashInt (2 ^ 30) = 2 ^ 30 from rfl) le_rfl value 30 (Nat.zero_add 30) chain
  have shallow := chain.globalDepth ▸ Nat.zero_le 30
  have overflow := getIdx_of_deep hashInt (by rw [chainT.globalDepth]; omega) (2 ^ 30)
  obtain ⟨fuel, rfl⟩ := Nat.exists_eq_add_of_le' enough
  rw [insert_eq hashInt shallow, insertCopy_eq hashInt shallow,
    chain.keySlot (show hashInt (2 ^ 30) = 2 ^ 30 from rfl) (Nat.zero_le 30),
    show fuel + 31 = fuel + (30 + 1) from rfl, (runs fuel).1, (runs fuel).2, overflow]
  exact ⟨rfl, rfl⟩

/-- `ExtendibleHash<int, int>(1)`: `Insert(0, 0)`, then `Insert(1 << 30, 1)`. Both copies of
`Insert` split bucket 0 thirty-one times, at local depths 0 to 30, and reach a table of global
depth 31 in which bucket 0 and the new bucket behind the key's slot have local depth 31; the
`getIdx` that follows meets `(1 << 31) - 1` and fails, whatever the passes left. -/
theorem insert_exceeds_depth_30 :
    ∃ s t, insert hashInt 1 (ExtendibleHash.init 1 : ExtendibleHash Int Int) 0 0 = .ok s ∧
      insertCopy hashInt 1 (ExtendibleHash.init 1 : ExtendibleHash Int Int) 0 0 = .ok s ∧
      Reachable hashInt 1 s ∧ DirectoryInvariant hashInt t ∧ t.globalDepth = 31 ∧
      (t.store 0).localDepth = 31 ∧ (t.store (t.slot (hashInt (2 ^ 30) % 2 ^ 31))).localDepth = 31 ∧
      getIdx hashInt t (2 ^ 30) = .error getIdxOverflow ∧
      ∀ fuel, insert hashInt (fuel + 31) s (2 ^ 30) 1 =
          (getIdx hashInt t (2 ^ 30)).bind (fun idx => insertLoop hashInt (2 ^ 30) 1 fuel t (t.slot idx)) ∧
        insertCopy hashInt (fuel + 31) s (2 ^ 30) 1 =
          (getIdx hashInt t (2 ^ 30)).bind (fun idx => insertLoopCopy hashInt (2 ^ 30) 1 fuel t (t.slot idx)) := by
  have first : insert hashInt 1 (ExtendibleHash.init 1 : ExtendibleHash Int Int) 0 0 =
      .ok ((ExtendibleHash.init 1 : ExtendibleHash Int Int).assign 0 0 0) := rfl
  have reach := Reachable.insert Reachable.init first
  have chain : DeepChain hashInt 0 ((0 : Int), (0 : Int)) _ :=
    ⟨reach.directoryInvariant.1, rfl, rfl, rfl, rfl⟩
  obtain ⟨t, chainT, emptyT, runs⟩ := insertLoop_deepChain (by rfl)
    (show hashInt (2 ^ 30) = 2 ^ 30 from rfl) le_rfl 1 30 (Nat.zero_add 30) chain
  have shallow := chain.globalDepth ▸ Nat.zero_le 30
  have start := chain.keySlot (show hashInt (2 ^ 30) = 2 ^ 30 from rfl) (Nat.zero_le 30)
  refine ⟨_, t, first, rfl, reach, chainT.inv, chainT.globalDepth, by rw [chainT.firstBucket],
    congrArg Bucket.localDepth emptyT,
    getIdx_of_deep hashInt (by rw [chainT.globalDepth]; omega) _, fun fuel => ⟨?_, ?_⟩⟩
  · rw [insert_eq hashInt shallow, start]; exact (runs fuel).1
  · rw [insertCopy_eq hashInt shallow, start]; exact (runs fuel).2

end ScuDb.Hash
