import Mathlib.Data.List.Dedup
import Mathlib.Data.List.Sort
import Mathlib.Data.Nat.Bitwise

/-!
Contract: the project1 `ExtendibleHash<K, V>`
(src/project/project1/scudb_initial/src/hash/extendible_hash.cpp), run sequentially.

Owns: the table's fields; the `std::map` operations a bucket uses; `getIdx`, `Find`, `Remove`;
the split that one pass of `Insert`'s `while (true)` loop performs; `Insert` itself, with fuel
for that loop; and the width of the `int` shifts `1 << globalDepth` and `1 << localDepth`, which
hold `2 ^ depth` up to depth 30 and fail from 31 on.

Does not own: the latches (the model is sequential) and `GetLocalDepth`, `GetGlobalDepth`,
`GetNumBuckets` (field reads).

`buckets` is a `vector<shared_ptr<Bucket>>`: two slots share a bucket exactly when they hold the
same pointer. The model keeps the buckets in `store`, keyed by an id handed out in allocation
order, and a slot holds an id; `buckets[i] == cur` is equality of ids.
-/

set_option linter.unusedSectionVars false

namespace ScuDb.Hash

/-! ## `std::map` on a key-ordered association list -/

section KeyMap

variable {K V : Type} [LinearOrder K]

/-- `keyMap.find(key)`: the value stored under `key`, if any. -/
def mapFind (key : K) : List (K × V) → Option V
  | [] => none
  | entry :: rest => if entry.1 = key then some entry.2 else mapFind key rest

/-- `keyMap[key] = value`: overwrite the entry of `key`, or insert it in key order. -/
def mapAssign (key : K) (value : V) : List (K × V) → List (K × V)
  | [] => [(key, value)]
  | entry :: rest =>
      if key < entry.1 then (key, value) :: entry :: rest
      else if key = entry.1 then (key, value) :: rest
      else entry :: mapAssign key value rest

/-- `keyMap.erase(key)`. -/
def mapErase (key : K) (entries : List (K × V)) : List (K × V) :=
  entries.filter fun entry => entry.1 ≠ key

@[simp] theorem mapFind_nil (key : K) : mapFind key ([] : List (K × V)) = none := rfl

theorem mapFind_cons (key : K) (entry : K × V) (rest : List (K × V)) :
    mapFind key (entry :: rest) = if entry.1 = key then some entry.2 else mapFind key rest := rfl

theorem mapFind_eq_none_iff (key : K) (entries : List (K × V)) :
    mapFind key entries = none ↔ key ∉ entries.map Prod.fst := by
  induction entries with
  | nil => simp
  | cons entry rest inductionHypothesis =>
      by_cases here : entry.1 = key
      · simp [mapFind_cons, here]
      · simp [mapFind_cons, here, inductionHypothesis, Ne.symm here]

theorem mapFind_isSome_iff (key : K) (entries : List (K × V)) :
    (mapFind key entries).isSome ↔ key ∈ entries.map Prod.fst := by
  rw [← not_iff_not, Option.not_isSome_iff_eq_none, mapFind_eq_none_iff]

theorem mapFind_filter (key : K) (keep : K × V → Bool) (entries : List (K × V))
    (kept : ∀ entry ∈ entries, entry.1 = key → keep entry = true) :
    mapFind key (entries.filter keep) = mapFind key entries := by
  induction entries with
  | nil => rfl
  | cons entry rest inductionHypothesis =>
      have restKept := inductionHypothesis fun e member => kept e (by simp [member])
      by_cases here : entry.1 = key
      · simp [List.filter_cons, kept entry (by simp) here, mapFind_cons, here]
      · by_cases keepEntry : keep entry = true
        · simp [List.filter_cons, keepEntry, mapFind_cons, here, restKept]
        · simp [List.filter_cons, keepEntry, mapFind_cons, here, restKept]

theorem mapFind_filter_of_not (key : K) (keep : K × V → Bool) (entries : List (K × V))
    (dropped : ∀ entry ∈ entries, entry.1 = key → keep entry = false) :
    mapFind key (entries.filter keep) = none := by
  rw [mapFind_eq_none_iff]
  simp only [List.mem_map, List.mem_filter, not_exists, not_and]
  intro entry member sameKey
  simp [dropped entry member.1 sameKey] at member

theorem mapFind_mapAssign_self (key : K) (value : V) (entries : List (K × V)) :
    mapFind key (mapAssign key value entries) = some value := by
  induction entries with
  | nil => simp [mapAssign, mapFind_cons]
  | cons entry rest inductionHypothesis =>
      unfold mapAssign
      split_ifs with below same
      · simp [mapFind_cons]
      · simp [mapFind_cons]
      · simp [mapFind_cons, Ne.symm same, inductionHypothesis]

theorem mapFind_mapAssign_of_ne {key other : K} (value : V) (entries : List (K × V))
    (distinct : other ≠ key) :
    mapFind other (mapAssign key value entries) = mapFind other entries := by
  induction entries with
  | nil => simp [mapAssign, mapFind_cons, Ne.symm distinct]
  | cons entry rest inductionHypothesis =>
      unfold mapAssign
      split_ifs with below same
      · simp [mapFind_cons, Ne.symm distinct]
      · subst same; simp [mapFind_cons, Ne.symm distinct]
      · simp [mapFind_cons, inductionHypothesis]

theorem mapFind_mapErase_self (key : K) (entries : List (K × V)) :
    mapFind key (mapErase key entries) = none :=
  mapFind_filter_of_not key _ entries fun _ _ same => by simp [same]

theorem mapFind_mapErase_of_ne {key other : K} (entries : List (K × V)) (distinct : other ≠ key) :
    mapFind other (mapErase key entries) = mapFind other entries :=
  mapFind_filter other _ entries fun _ _ same => by simp [same, distinct]

theorem keys_mapAssign (key : K) (value : V) (entries : List (K × V)) :
    ∀ other, other ∈ (mapAssign key value entries).map Prod.fst ↔
      other = key ∨ other ∈ entries.map Prod.fst := by
  intro other
  rw [← mapFind_isSome_iff, ← mapFind_isSome_iff]
  by_cases same : other = key
  · subst same; simp [mapFind_mapAssign_self]
  · simp [mapFind_mapAssign_of_ne value entries same, same]

theorem length_mapAssign_le (key : K) (value : V) (entries : List (K × V)) :
    (mapAssign key value entries).length ≤ entries.length + 1 := by
  induction entries with
  | nil => simp [mapAssign]
  | cons entry rest inductionHypothesis =>
      unfold mapAssign
      split_ifs <;> simp; omega

/-- The keys of a `std::map`, in iteration order, strictly ascend. -/
def KeysSorted (entries : List (K × V)) : Prop :=
  (entries.map Prod.fst).Sorted (· < ·)

theorem keysSorted_cons {entry : K × V} {rest : List (K × V)} :
    KeysSorted (entry :: rest) ↔ (∀ key ∈ rest.map Prod.fst, entry.1 < key) ∧ KeysSorted rest := by
  simp [KeysSorted, List.Sorted]

theorem keysSorted_filter {entries : List (K × V)} (keep : K × V → Bool)
    (sorted : KeysSorted entries) : KeysSorted (entries.filter keep) := by
  unfold KeysSorted at *
  exact (sorted.sublist ((List.filter_sublist entries).map Prod.fst))

theorem keysSorted_mapAssign (key : K) (value : V) {entries : List (K × V)}
    (sorted : KeysSorted entries) : KeysSorted (mapAssign key value entries) := by
  induction entries with
  | nil => simp [mapAssign, KeysSorted]
  | cons entry rest inductionHypothesis =>
      rw [keysSorted_cons] at sorted
      unfold mapAssign
      split_ifs with below same
      · exact keysSorted_cons.2 ⟨fun other member => by
          simp only [List.map_cons, List.mem_cons] at member
          rcases member with rfl | later
          · exact below
          · exact lt_trans below (sorted.1 other later), keysSorted_cons.2 sorted⟩
      · exact keysSorted_cons.2 ⟨fun other member => same ▸ sorted.1 other member, sorted.2⟩
      · refine keysSorted_cons.2 ⟨fun other member => ?_, inductionHypothesis sorted.2⟩
        rcases (keys_mapAssign key value rest other).1 member with rfl | later
        · exact lt_of_le_of_ne (not_lt.1 below) (Ne.symm same)
        · exact sorted.1 other later

theorem length_mapAssign_of_mem {key : K} (value : V) {entries : List (K × V)}
    (sorted : KeysSorted entries) (present : key ∈ entries.map Prod.fst) :
    (mapAssign key value entries).length = entries.length := by
  induction entries with
  | nil => simp at present
  | cons entry rest inductionHypothesis =>
      rw [keysSorted_cons] at sorted
      simp only [List.map_cons, List.mem_cons] at present
      unfold mapAssign
      split_ifs with below same
      · rcases present with here | later
        · exact absurd (here ▸ below) (lt_irrefl _)
        · exact absurd (lt_trans below (sorted.1 key later)) (lt_irrefl _)
      · simp
      · rcases present with here | later
        · exact absurd here same
        · simp [inductionHypothesis sorted.2 later]

/-- Inserting entries one by one: the result's keys are the inserted keys and the old ones. -/
theorem keys_foldl_mapAssign (entries acc : List (K × V)) (key : K) :
    key ∈ (entries.foldl (fun keyMap entry => mapAssign entry.1 entry.2 keyMap) acc).map Prod.fst ↔
      key ∈ entries.map Prod.fst ∨ key ∈ acc.map Prod.fst := by
  induction entries generalizing acc with
  | nil => simp
  | cons entry rest inductionHypothesis =>
      rw [List.foldl_cons, inductionHypothesis, keys_mapAssign]
      simp only [List.map_cons, List.mem_cons]
      tauto

theorem length_foldl_mapAssign_le (entries acc : List (K × V)) :
    (entries.foldl (fun keyMap entry => mapAssign entry.1 entry.2 keyMap) acc).length ≤
      entries.length + acc.length := by
  induction entries generalizing acc with
  | nil => simp
  | cons entry rest inductionHypothesis =>
      rw [List.foldl_cons]
      have step := length_mapAssign_le entry.1 entry.2 acc
      have := inductionHypothesis (mapAssign entry.1 entry.2 acc)
      simp only [List.length_cons]
      omega

theorem keysSorted_foldl_mapAssign (entries : List (K × V)) {acc : List (K × V)}
    (sorted : KeysSorted acc) :
    KeysSorted (entries.foldl (fun keyMap entry => mapAssign entry.1 entry.2 keyMap) acc) := by
  induction entries generalizing acc with
  | nil => exact sorted
  | cons entry rest inductionHypothesis =>
      exact inductionHypothesis (keysSorted_mapAssign entry.1 entry.2 sorted)

/-- Inserting entries with distinct keys one by one: a key's value is its inserted value, or
else its old one. -/
theorem mapFind_foldl_mapAssign (key : K) {entries : List (K × V)}
    (distinct : (entries.map Prod.fst).Nodup) (acc : List (K × V)) :
    mapFind key (entries.foldl (fun keyMap entry => mapAssign entry.1 entry.2 keyMap) acc) =
      (mapFind key entries).or (mapFind key acc) := by
  induction entries generalizing acc with
  | nil => simp
  | cons entry rest inductionHypothesis =>
      rw [List.map_cons, List.nodup_cons] at distinct
      rw [List.foldl_cons, inductionHypothesis distinct.2, mapFind_cons]
      by_cases here : entry.1 = key
      · subst here
        rw [(mapFind_eq_none_iff _ _).2 distinct.1, mapFind_mapAssign_self]
        simp
      · rw [mapFind_mapAssign_of_ne _ _ (Ne.symm here)]
        simp [here]

theorem KeysSorted.nodup {entries : List (K × V)} (sorted : KeysSorted entries) :
    (entries.map Prod.fst).Nodup :=
  List.Sorted.nodup sorted

end KeyMap

/-! ## Masks -/

/-- `x & (1 << L)` is zero exactly when bit `L` of `x` is clear. -/
theorem and_two_pow_eq_zero_iff (x L : Nat) : x &&& 2 ^ L = 0 ↔ x / 2 ^ L % 2 = 0 := by
  constructor
  · intro isZero
    have bit := congrArg (fun n => n.testBit L) isZero
    simp only [Nat.testBit_and, Nat.testBit_two_pow, decide_True, Bool.and_true,
      Nat.zero_testBit] at bit
    simpa [Nat.testBit_to_div_mod] using bit
  · intro even
    apply Nat.eq_of_testBit_eq
    intro i
    simp only [Nat.testBit_and, Nat.testBit_two_pow, Nat.zero_testBit, Bool.and_eq_false_iff,
      decide_eq_false_iff_not]
    by_cases same : L = i
    · subst same; left; simp [Nat.testBit_to_div_mod, even]
    · right; exact same

/-- Splitting a residue modulo `2 ^ (L + 1)` by bit `L`. -/
theorem mod_two_pow_succ_eq_iff {x c L : Nat} (small : c < 2 ^ L) :
    (x % 2 ^ (L + 1) = c ↔ x % 2 ^ L = c ∧ x / 2 ^ L % 2 = 0) ∧
      (x % 2 ^ (L + 1) = c + 2 ^ L ↔ x % 2 ^ L = c ∧ x / 2 ^ L % 2 = 1) := by
  have split := Nat.mod_pow_succ (x := x) (b := 2) (k := L)
  have below := Nat.mod_lt x (Nat.two_pow_pos L)
  have bit := Nat.mod_two_eq_zero_or_one (x / 2 ^ L)
  constructor <;> constructor
  · intro eq
    rcases bit with bit | bit <;> rw [bit] at split <;> constructor <;> omega
  · rintro ⟨low, high⟩; rw [split, low, high]; omega
  · intro eq
    rcases bit with bit | bit <;> rw [bit] at split <;> constructor <;> omega
  · rintro ⟨low, high⟩; rw [split, low, high]; omega

/-! ## The table -/

/-- `Bucket`: its local depth and its `std::map<K, V> keyMap`. -/
structure Bucket (K V : Type) where
  localDepth : Nat
  keyMap : List (K × V)

/-- The fields of `ExtendibleHash<K, V>`. `buckets[i]` is the id, in `store`, of the bucket slot
`i` points to; `nextBucket` is the id the next `make_shared<Bucket>` receives. -/
structure ExtendibleHash (K V : Type) where
  globalDepth : Nat
  bucketNum : Nat
  bucketSize : Nat
  buckets : List Nat
  store : Nat → Bucket K V
  nextBucket : Nat

/-- What `getIdx` meets at `globalDepth ≥ 31`: `(1 << globalDepth) - 1` leaves the range of `int`. -/
def getIdxOverflow : String := "getIdx: (1 << globalDepth) - 1 overflows int"

/-- What `Insert` meets at `localDepth ≥ 31`: `int mask = (1 << (cur->localDepth))` is no longer
`2 ^ localDepth`. -/
def maskOverflow : String := "Insert: 1 << localDepth overflows int"

/-- `Insert`'s loop has used the passes the model gives it. -/
def outOfPasses : String := "Insert: out of passes"

section Table

variable {K V : Type} [LinearOrder K] (hashKey : K → Nat)

/-- `ExtendibleHash(size)`: one bucket of local depth 0 behind the single slot. -/
def ExtendibleHash.init (size : Nat) : ExtendibleHash K V where
  globalDepth := 0
  bucketNum := 1
  bucketSize := size
  buckets := [0]
  store := fun _ => ⟨0, []⟩
  nextBucket := 1

/-- `buckets[idx]`: the id a slot holds (in range for every reachable table). -/
def ExtendibleHash.slot (s : ExtendibleHash K V) (idx : Nat) : Nat :=
  s.buckets.getD idx 0

/-- `getIdx`: `HashKey(key) & ((1 << globalDepth) - 1)`. The shift is on a 32-bit `int`: up to
depth 30 the mask is `2 ^ globalDepth - 1`; from 31 on `1 << 31` is the sign bit and subtracting
one overflows, so `getIdx` fails. -/
def getIdx (s : ExtendibleHash K V) (key : K) : Except String Nat :=
  if s.globalDepth ≤ 30 then .ok (hashKey key &&& ((1 <<< s.globalDepth) - 1))
  else .error getIdxOverflow

/-- `Find`: the value stored under `key` in the bucket its slot names. -/
def find (s : ExtendibleHash K V) (key : K) : Except String (Option V) :=
  (getIdx hashKey s key).map fun idx => mapFind key (s.store (s.slot idx)).keyMap

/-- `Remove` once `idx = getIdx(key)` is known: erase `key` from the bucket `buckets[idx]` names;
`true` when it was there. -/
def ExtendibleHash.removeAt (s : ExtendibleHash K V) (idx : Nat) (key : K) : ExtendibleHash K V × Bool :=
  let cur := s.slot idx
  let bucket := s.store cur
  if (mapFind key bucket.keyMap).isSome then
    ({ s with store := Function.update s.store cur { bucket with keyMap := mapErase key bucket.keyMap } },
      true)
  else (s, false)

/-- `Remove(key)`. -/
def remove (s : ExtendibleHash K V) (key : K) : Except String (ExtendibleHash K V × Bool) :=
  (getIdx hashKey s key).map fun idx => s.removeAt idx key

/-- The entries the split moves to the new bucket: `HashKey(key) & mask` is nonzero. -/
def movesOut (mask : Nat) (entry : K × V) : Bool :=
  hashKey entry.1 &&& mask != 0

/-- The table after the split of the full bucket `cur` in one pass of `Insert`'s loop (lines
125-148), with `mask = 1 << localDepth`: raise its local depth, double the directory when that
depth passes the global one, move the entries whose hash has bit `mask` set to a new bucket
(inserted one by one into its empty `keyMap`, erased from `cur` by `it = cur->keyMap.erase(it)`),
and repoint to the new bucket every slot of `cur` whose index has that bit set. -/
def splitTable (s : ExtendibleHash K V) (cur : Nat) : ExtendibleHash K V :=
  let bucket := s.store cur
  let mask := 1 <<< bucket.localDepth
  let depth := bucket.localDepth + 1
  let grows := decide (depth > s.globalDepth)
  let directory := if grows then s.buckets ++ s.buckets else s.buckets
  let newBuc := s.nextBucket
  let moved := (bucket.keyMap.filter (movesOut hashKey mask)).foldl
    (fun keyMap entry => mapAssign entry.1 entry.2 keyMap) []
  let kept := bucket.keyMap.filter fun entry => !movesOut hashKey mask entry
  { globalDepth := if grows then s.globalDepth + 1 else s.globalDepth
    bucketNum := s.bucketNum + 1
    bucketSize := s.bucketSize
    buckets := directory.mapIdx fun i id => if id = cur ∧ i &&& mask != 0 then newBuc else id
    store := Function.update (Function.update s.store cur ⟨depth, kept⟩) newBuc ⟨depth, moved⟩
    nextBucket := newBuc + 1 }

/-- The split section of `Insert`'s loop. `int mask = (1 << (cur->localDepth))` is
`2 ^ localDepth` up to depth 30; from 31 on it is not (`INT_MIN`, then undefined), and the split
fails. A bucket reaches depth 31 only behind a directory of depth 31, where `getIdx` has already
failed. -/
def split (s : ExtendibleHash K V) (cur : Nat) : Except String (ExtendibleHash K V) :=
  if (s.store cur).localDepth ≤ 30 then .ok (splitTable hashKey s cur) else .error maskOverflow

/-- `cur->keyMap[key] = value`, the last pass of `Insert`'s loop. -/
def ExtendibleHash.assign (s : ExtendibleHash K V) (cur : Nat) (key : K) (value : V) :
    ExtendibleHash K V :=
  { s with store := (Function.update s.store cur
      { (s.store cur) with keyMap := mapAssign key value (s.store cur).keyMap }) }

/-- The `while (true)` loop of `Insert`, from the bucket `cur`, with `fuel` passes: store the
pair when `key` is already in `cur` or `cur` has room, otherwise split `cur`, look the slot up
again and retry. -/
def insertLoop (key : K) (value : V) :
    Nat → ExtendibleHash K V → Nat → Except String (ExtendibleHash K V)
  | 0, _, _ => .error outOfPasses
  | fuel + 1, s, cur =>
      let bucket := s.store cur
      if (mapFind key bucket.keyMap).isSome ∨ bucket.keyMap.length < s.bucketSize then
        .ok (s.assign cur key value)
      else
        (split hashKey s cur).bind fun s' =>
          (getIdx hashKey s' key).bind fun idx => insertLoop key value fuel s' (s'.slot idx)

/-- `Insert(key, value)`, with `fuel` passes of its loop. -/
def insert (fuel : Nat) (s : ExtendibleHash K V) (key : K) (value : V) :
    Except String (ExtendibleHash K V) :=
  (getIdx hashKey s key).bind fun idx => insertLoop hashKey key value fuel s (s.slot idx)

/-- The value the table holds under `key`: the entry of the bucket behind slot
`HashKey(key) mod 2 ^ globalDepth`. `Find` returns it wherever `getIdx` is defined. -/
def lookup (s : ExtendibleHash K V) (key : K) : Option V :=
  mapFind key (s.store (s.slot (hashKey key % 2 ^ s.globalDepth))).keyMap

/-! ### Spec lemmas -/

theorem getIdx_eq {s : ExtendibleHash K V} (shallow : s.globalDepth ≤ 30) (key : K) :
    getIdx hashKey s key = .ok (hashKey key % 2 ^ s.globalDepth) := by
  rw [getIdx, if_pos shallow, Nat.one_shiftLeft, Nat.and_pow_two_sub_one_eq_mod]

theorem getIdx_eq_ok_iff {s : ExtendibleHash K V} {key : K} {idx : Nat} :
    getIdx hashKey s key = .ok idx ↔ s.globalDepth ≤ 30 ∧ hashKey key % 2 ^ s.globalDepth = idx := by
  by_cases shallow : s.globalDepth ≤ 30
  · simp [getIdx_eq hashKey shallow, shallow]
  · simp [getIdx, shallow]

theorem getIdx_of_deep {s : ExtendibleHash K V} (deep : 30 < s.globalDepth) (key : K) :
    getIdx hashKey s key = .error getIdxOverflow := by
  rw [getIdx, if_neg (by omega)]

theorem find_eq {s : ExtendibleHash K V} (shallow : s.globalDepth ≤ 30) (key : K) :
    find hashKey s key = .ok (lookup hashKey s key) := by
  rw [find, getIdx_eq hashKey shallow]; rfl

theorem remove_eq_ok_iff {s : ExtendibleHash K V} {key : K} {r : ExtendibleHash K V × Bool} :
    remove hashKey s key = .ok r ↔
      s.globalDepth ≤ 30 ∧ s.removeAt (hashKey key % 2 ^ s.globalDepth) key = r := by
  by_cases shallow : s.globalDepth ≤ 30
  · rw [remove, getIdx_eq hashKey shallow]; simp [shallow, Except.map]
  · simp [remove, getIdx, shallow, Except.map]

@[simp] theorem removeAt_globalDepth (s : ExtendibleHash K V) (idx : Nat) (key : K) :
    (s.removeAt idx key).1.globalDepth = s.globalDepth := by
  dsimp only [ExtendibleHash.removeAt]; split_ifs <;> rfl

@[simp] theorem removeAt_bucketSize (s : ExtendibleHash K V) (idx : Nat) (key : K) :
    (s.removeAt idx key).1.bucketSize = s.bucketSize := by
  dsimp only [ExtendibleHash.removeAt]; split_ifs <;> rfl

theorem split_eq_ok_iff {s t : ExtendibleHash K V} {cur : Nat} :
    split hashKey s cur = .ok t ↔ (s.store cur).localDepth ≤ 30 ∧ splitTable hashKey s cur = t := by
  unfold split
  split_ifs with shallow <;> simp [shallow]

theorem insertLoop_succ (key : K) (value : V) (fuel : Nat) (s : ExtendibleHash K V) (cur : Nat) :
    insertLoop hashKey key value (fuel + 1) s cur =
      if (mapFind key (s.store cur).keyMap).isSome ∨ (s.store cur).keyMap.length < s.bucketSize then
        .ok (s.assign cur key value)
      else (split hashKey s cur).bind fun s' =>
        (getIdx hashKey s' key).bind fun idx => insertLoop hashKey key value fuel s' (s'.slot idx) :=
  rfl

/-- A pass that splits: with the shift in range, `Insert`'s loop goes on from the split table,
at the bucket the key's slot names there. -/
theorem insertLoop_succ_of_full {key : K} (value : V) (fuel : Nat) {s : ExtendibleHash K V}
    {cur : Nat}
    (full : ¬((mapFind key (s.store cur).keyMap).isSome ∨ (s.store cur).keyMap.length < s.bucketSize))
    (shallow : (s.store cur).localDepth ≤ 30) (shallow' : (splitTable hashKey s cur).globalDepth ≤ 30) :
    insertLoop hashKey key value (fuel + 1) s cur =
      insertLoop hashKey key value fuel (splitTable hashKey s cur)
        ((splitTable hashKey s cur).slot (hashKey key % 2 ^ (splitTable hashKey s cur).globalDepth)) := by
  rw [insertLoop_succ, if_neg full, split, if_pos shallow]
  show (getIdx hashKey _ key).bind _ = _
  rw [getIdx_eq hashKey shallow' key]; rfl

/-- **What one pass of `Insert`'s loop can do.** Store the pair in `cur`, or split `cur`, with
both shifts in range, and go on from the key's bucket in the split table. -/
theorem insertLoop_succ_eq_ok {key : K} {value : V} {fuel : Nat} {s s' : ExtendibleHash K V}
    {cur : Nat} :
    insertLoop hashKey key value (fuel + 1) s cur = .ok s' ↔
      ((mapFind key (s.store cur).keyMap).isSome ∨ (s.store cur).keyMap.length < s.bucketSize) ∧
          s.assign cur key value = s' ∨
        ¬((mapFind key (s.store cur).keyMap).isSome ∨ (s.store cur).keyMap.length < s.bucketSize) ∧
          (s.store cur).localDepth ≤ 30 ∧ (splitTable hashKey s cur).globalDepth ≤ 30 ∧
          insertLoop hashKey key value fuel (splitTable hashKey s cur)
            ((splitTable hashKey s cur).slot
              (hashKey key % 2 ^ (splitTable hashKey s cur).globalDepth)) = .ok s' := by
  by_cases room : (mapFind key (s.store cur).keyMap).isSome ∨ (s.store cur).keyMap.length < s.bucketSize
  · rw [insertLoop_succ, if_pos room]; simp [room]
  by_cases shallow : (s.store cur).localDepth ≤ 30
  · by_cases shallow' : (splitTable hashKey s cur).globalDepth ≤ 30
    · rw [insertLoop_succ_of_full hashKey value fuel room shallow shallow']; simp [room, shallow, shallow']
    · rw [insertLoop_succ, if_neg room, split, if_pos shallow]
      show (getIdx hashKey _ key).bind _ = _ ↔ _
      rw [getIdx_of_deep hashKey (by omega)]; simp [room, shallow', Except.bind]
  · rw [insertLoop_succ, if_neg room, split, if_neg shallow]; simp [room, shallow, Except.bind]

theorem insert_eq {s : ExtendibleHash K V} (shallow : s.globalDepth ≤ 30) (fuel : Nat) (key : K)
    (value : V) :
    insert hashKey fuel s key value =
      insertLoop hashKey key value fuel s (s.slot (hashKey key % 2 ^ s.globalDepth)) := by
  rw [insert, getIdx_eq hashKey shallow]; rfl

theorem insert_eq_ok {s s' : ExtendibleHash K V} {fuel : Nat} {key : K} {value : V} :
    insert hashKey fuel s key value = .ok s' ↔ s.globalDepth ≤ 30 ∧
      insertLoop hashKey key value fuel s (s.slot (hashKey key % 2 ^ s.globalDepth)) = .ok s' := by
  by_cases shallow : s.globalDepth ≤ 30
  · rw [insert_eq hashKey shallow]; simp [shallow]
  · simp [insert, getIdx, shallow, Except.bind]

@[simp] theorem slot_with_store (s : ExtendibleHash K V) (store : Nat → Bucket K V) (i : Nat) :
    ExtendibleHash.slot { s with store := store } i = s.slot i := rfl

@[simp] theorem assign_globalDepth (s : ExtendibleHash K V) (cur : Nat) (key : K) (value : V) :
    (s.assign cur key value).globalDepth = s.globalDepth := rfl

@[simp] theorem assign_bucketSize (s : ExtendibleHash K V) (cur : Nat) (key : K) (value : V) :
    (s.assign cur key value).bucketSize = s.bucketSize := rfl

@[simp] theorem slot_assign (s : ExtendibleHash K V) (cur : Nat) (key : K) (value : V) (i : Nat) :
    (s.assign cur key value).slot i = s.slot i := rfl

theorem movesOut_iff (L : Nat) (entry : K × V) :
    movesOut hashKey (1 <<< L) entry = true ↔ hashKey entry.1 / 2 ^ L % 2 = 1 := by
  have bit := Nat.mod_two_eq_zero_or_one (hashKey entry.1 / 2 ^ L)
  rw [movesOut, Nat.one_shiftLeft, bne_iff_ne, ne_eq, and_two_pow_eq_zero_iff]
  omega

end Table

end ScuDb.Hash
