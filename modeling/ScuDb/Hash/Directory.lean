import ScuDb.Hash.ExtendibleHash
import Mathlib.Data.Finset.Card
import Mathlib.Data.Set.Card

/-!
Contract: the directory invariant of the project1 `ExtendibleHash`, over every table reachable
from `ExtendibleHash(n)` by `Insert` and `Remove`.

Owns: `Owns` (a bucket's slots and its keys share one residue modulo `2 ^ localDepth`),
`DirectoryInvariant`, the step lemmas for `split`, the final store of `Insert`'s loop and
`Remove`, and `directoryInvariant_of_reachable`.

The split is where the invariant is earned. Doubling copies slot `i` to slot `i + 2 ^ G`, so a
bucket's slot set stays a residue class; the new bucket takes the slots of the old one whose
bit `L` is set and the keys whose hash has that bit set, which turns one class modulo `2 ^ L`
into two classes modulo `2 ^ (L + 1)`.
-/

set_option linter.unusedSectionVars false

namespace ScuDb.Hash

variable {K V : Type} [LinearOrder K] (hashKey : K → Nat)

/-- Bucket `id` owns the residue `c` modulo `2 ^ L`, `L` its local depth: the slots that point to
it are exactly the indices congruent to `c`, and every key it stores hashes to `c`. -/
def Owns (s : ExtendibleHash K V) (id c : Nat) : Prop :=
  c < 2 ^ (s.store id).localDepth ∧
    (∀ i < s.buckets.length, s.slot i = id ↔ i % 2 ^ (s.store id).localDepth = c) ∧
    ∀ key ∈ (s.store id).keyMap.map Prod.fst, hashKey key % 2 ^ (s.store id).localDepth = c

/-- The directory invariant: the directory has `2 ^ globalDepth` slots, every bucket behind it
has local depth at most the global one, owns a residue class of slots and keys, holds at most
`bucketSize` entries in key order, and `bucketNum` counts the distinct buckets. -/
structure DirectoryInvariant (s : ExtendibleHash K V) : Prop where
  length_buckets : s.buckets.length = 2 ^ s.globalDepth
  localDepth_le : ∀ id ∈ s.buckets, (s.store id).localDepth ≤ s.globalDepth
  owns : ∀ id ∈ s.buckets, ∃ c, Owns hashKey s id c
  size_le : ∀ id ∈ s.buckets, (s.store id).keyMap.length ≤ s.bucketSize
  bucketNum_eq : s.bucketNum = s.buckets.toFinset.card
  sorted : ∀ id ∈ s.buckets, KeysSorted (s.store id).keyMap
  lt_nextBucket : ∀ id ∈ s.buckets, id < s.nextBucket

/-! ## Slots -/

theorem slot_mem {s : ExtendibleHash K V} {i : Nat} (inRange : i < s.buckets.length) :
    s.slot i ∈ s.buckets := by
  rw [ExtendibleHash.slot, List.getD_eq_getElem _ _ inRange]
  exact List.getElem_mem inRange

theorem mem_iff_exists_slot {s : ExtendibleHash K V} {id : Nat} :
    id ∈ s.buckets ↔ ∃ i < s.buckets.length, s.slot i = id := by
  constructor
  · intro member
    obtain ⟨i, inRange, eq⟩ := List.getElem_of_mem member
    exact ⟨i, inRange, by rw [ExtendibleHash.slot, List.getD_eq_getElem _ _ inRange, eq]⟩
  · rintro ⟨i, inRange, rfl⟩
    exact slot_mem inRange

section Invariant

variable {hashKey} {s : ExtendibleHash K V} (inv : DirectoryInvariant hashKey s)
include inv

/-- A key's slot lies in the directory. -/
theorem keySlot_lt (key : K) : hashKey key % 2 ^ s.globalDepth < s.buckets.length := by
  rw [inv.length_buckets]; exact Nat.mod_lt _ (Nat.two_pow_pos _)

/-- A stored key sits in the bucket its slot names. -/
theorem slot_of_mem {id : Nat} (member : id ∈ s.buckets) {key : K}
    (stored : key ∈ (s.store id).keyMap.map Prod.fst) :
    s.slot (hashKey key % 2 ^ s.globalDepth) = id := by
  obtain ⟨c, _, slots, keys⟩ := inv.owns id member
  have divides : 2 ^ (s.store id).localDepth ∣ 2 ^ s.globalDepth :=
    Nat.pow_dvd_pow 2 (inv.localDepth_le id member)
  rw [slots _ (keySlot_lt inv key), Nat.mod_mod_of_dvd _ divides]
  exact keys key stored

/-- The bucket a key's slot names owns the key's hash residue. -/
theorem residue_of_slot {id c : Nat} (member : id ∈ s.buckets) (owns : Owns hashKey s id c)
    {key : K} (atSlot : s.slot (hashKey key % 2 ^ s.globalDepth) = id) :
    hashKey key % 2 ^ (s.store id).localDepth = c := by
  have divides : 2 ^ (s.store id).localDepth ∣ 2 ^ s.globalDepth :=
    Nat.pow_dvd_pow 2 (inv.localDepth_le id member)
  rw [← Nat.mod_mod_of_dvd _ divides]
  exact (owns.2.1 _ (keySlot_lt inv key)).1 atSlot

end Invariant

/-! ## The split -/

theorem getD_append_self (l : List Nat) {i : Nat} (inRange : i < l.length + l.length) :
    (l ++ l).getD i 0 = l.getD (i % l.length) 0 := by
  by_cases low : i < l.length
  · rw [List.getD_append _ _ _ _ low, Nat.mod_eq_of_lt low]
  · rw [List.getD_append_right _ _ _ _ (by omega), Nat.mod_eq_sub_mod (by omega),
      Nat.mod_eq_of_lt (by omega)]

theorem bit_of_and_ne_zero (i L : Nat) : (i &&& 1 <<< L != 0) = true ↔ i / 2 ^ L % 2 = 1 := by
  have bit := Nat.mod_two_eq_zero_or_one (i / 2 ^ L)
  rw [Nat.one_shiftLeft, bne_iff_ne, ne_eq, and_two_pow_eq_zero_iff]
  omega

section Split

variable {s : ExtendibleHash K V} {cur : Nat}

theorem split_store (id : Nat) :
    (splitTable hashKey s cur).store id =
      if id = s.nextBucket then
        ⟨(s.store cur).localDepth + 1, ((s.store cur).keyMap.filter
          (movesOut hashKey (1 <<< (s.store cur).localDepth))).foldl
            (fun keyMap entry => mapAssign entry.1 entry.2 keyMap) []⟩
      else if id = cur then
        ⟨(s.store cur).localDepth + 1, (s.store cur).keyMap.filter
          fun entry => !movesOut hashKey (1 <<< (s.store cur).localDepth) entry⟩
      else s.store id := by
  simp only [splitTable, Function.update_apply]

theorem split_globalDepth :
    (splitTable hashKey s cur).globalDepth =
      if (s.store cur).localDepth + 1 > s.globalDepth then s.globalDepth + 1 else s.globalDepth := by
  simp only [splitTable, gt_iff_lt, decide_eq_true_eq]

theorem split_nextBucket : (splitTable hashKey s cur).nextBucket = s.nextBucket + 1 := rfl

theorem split_bucketNum : (splitTable hashKey s cur).bucketNum = s.bucketNum + 1 := rfl

theorem split_bucketSize : (splitTable hashKey s cur).bucketSize = s.bucketSize := rfl

variable {hashKey}

theorem split_length (inv : DirectoryInvariant hashKey s) :
    (splitTable hashKey s cur).buckets.length = 2 ^ (splitTable hashKey s cur).globalDepth := by
  simp only [splitTable, gt_iff_lt, decide_eq_true_eq, List.length_mapIdx]
  split_ifs <;> simp [inv.length_buckets, Nat.pow_succ]; omega

/-- A slot after the split: the old slot it copies, repointed to the new bucket when it held
`cur` and has bit `L` set. -/
theorem slot_split (inv : DirectoryInvariant hashKey s) {i : Nat}
    (inRange : i < (splitTable hashKey s cur).buckets.length) :
    (splitTable hashKey s cur).slot i =
      if s.slot (i % 2 ^ s.globalDepth) = cur ∧ i / 2 ^ (s.store cur).localDepth % 2 = 1 then
        s.nextBucket
      else s.slot (i % 2 ^ s.globalDepth) := by
  have lengthEq : (splitTable hashKey s cur).buckets.length = _ := split_length inv
  rw [split_globalDepth] at lengthEq
  have copy : (if (s.store cur).localDepth + 1 > s.globalDepth then s.buckets ++ s.buckets
      else s.buckets).getD i 0 = s.slot (i % 2 ^ s.globalDepth) := by
    rw [ExtendibleHash.slot, ← inv.length_buckets]
    split_ifs with grows
    · rw [if_pos grows, Nat.pow_succ] at lengthEq
      exact getD_append_self _ (by rw [inv.length_buckets]; omega)
    · rw [if_neg grows] at lengthEq
      rw [Nat.mod_eq_of_lt (by rw [inv.length_buckets]; omega)]
  have inRange' : i < (if (s.store cur).localDepth + 1 > s.globalDepth then s.buckets ++ s.buckets
      else s.buckets).length := by
    simpa [splitTable] using inRange
  simp only [ExtendibleHash.slot] at copy ⊢
  simp only [splitTable, gt_iff_lt, decide_eq_true_eq, List.getD_eq_getElem?_getD,
    List.getElem?_mapIdx] at copy ⊢
  rw [List.getElem?_eq_getElem inRange'] at copy ⊢
  simp only [Option.map_some', Option.getD_some] at copy ⊢
  simp only [copy, bit_of_and_ne_zero]

end Split

/-! ## The split keeps the invariant -/

section SplitInvariant

variable {hashKey} {s : ExtendibleHash K V} {cur : Nat}

/-- Slot `i mod 2 ^ G` holds `id` exactly when `i` is in `id`'s residue class. -/
theorem slot_mod_eq_iff (inv : DirectoryInvariant hashKey s) {id c : Nat} (member : id ∈ s.buckets)
    (owns : Owns hashKey s id c) (i : Nat) :
    s.slot (i % 2 ^ s.globalDepth) = id ↔ i % 2 ^ (s.store id).localDepth = c := by
  rw [owns.2.1 _ (by rw [inv.length_buckets]; exact Nat.mod_lt _ (Nat.two_pow_pos _)),
    Nat.mod_mod_of_dvd _ (Nat.pow_dvd_pow 2 (inv.localDepth_le id member))]

theorem nextBucket_not_mem (inv : DirectoryInvariant hashKey s) : s.nextBucket ∉ s.buckets :=
  fun member => lt_irrefl _ (inv.lt_nextBucket _ member)

theorem slot_split_eq_of_ne (inv : DirectoryInvariant hashKey s) {id i : Nat} (notCur : id ≠ cur)
    (notNew : id ≠ s.nextBucket) (inRange : i < (splitTable hashKey s cur).buckets.length) :
    (splitTable hashKey s cur).slot i = id ↔ s.slot (i % 2 ^ s.globalDepth) = id := by
  rw [slot_split inv inRange]
  split_ifs with repointed
  · exact ⟨fun eq => absurd eq.symm notNew, fun eq => absurd (eq.symm.trans repointed.1) notCur⟩
  · rfl

theorem slot_split_eq_cur (inv : DirectoryInvariant hashKey s) (member : cur ∈ s.buckets) {i : Nat}
    (inRange : i < (splitTable hashKey s cur).buckets.length) :
    (splitTable hashKey s cur).slot i = cur ↔
      s.slot (i % 2 ^ s.globalDepth) = cur ∧ i / 2 ^ (s.store cur).localDepth % 2 = 0 := by
  have notNew : cur ≠ s.nextBucket := fun eq => nextBucket_not_mem inv (eq ▸ member)
  have bit := Nat.mod_two_eq_zero_or_one (i / 2 ^ (s.store cur).localDepth)
  rw [slot_split inv inRange]
  split_ifs with repointed
  · exact ⟨fun eq => absurd eq.symm notNew, fun both => by omega⟩
  · constructor
    · intro atCur; exact ⟨atCur, by by_contra odd; exact repointed ⟨atCur, by omega⟩⟩
    · exact And.left

theorem slot_split_eq_new (inv : DirectoryInvariant hashKey s) {i : Nat}
    (inRange : i < (splitTable hashKey s cur).buckets.length) :
    (splitTable hashKey s cur).slot i = s.nextBucket ↔
      s.slot (i % 2 ^ s.globalDepth) = cur ∧ i / 2 ^ (s.store cur).localDepth % 2 = 1 := by
  have old := slot_mem (s := s) (i := i % 2 ^ s.globalDepth)
    (by rw [inv.length_buckets]; exact Nat.mod_lt _ (Nat.two_pow_pos _))
  rw [slot_split inv inRange]
  split_ifs with repointed
  · exact ⟨fun _ => repointed, fun _ => rfl⟩
  · exact ⟨fun eq => absurd (eq ▸ old) (nextBucket_not_mem inv), fun both => absurd both repointed⟩

theorem split_depth_le (inv : DirectoryInvariant hashKey s) (member : cur ∈ s.buckets) :
    (s.store cur).localDepth + 1 ≤ (splitTable hashKey s cur).globalDepth ∧
      s.globalDepth ≤ (splitTable hashKey s cur).globalDepth := by
  have := inv.localDepth_le cur member
  rw [split_globalDepth]
  split_ifs <;> omega

theorem owns_split_of_ne (inv : DirectoryInvariant hashKey s) {id c : Nat} (member : id ∈ s.buckets)
    (notCur : id ≠ cur) (owns : Owns hashKey s id c) : Owns hashKey (splitTable hashKey s cur) id c := by
  have notNew : id ≠ s.nextBucket := fun eq => nextBucket_not_mem inv (eq ▸ member)
  have same : (splitTable hashKey s cur).store id = s.store id := by
    rw [split_store, if_neg notNew, if_neg notCur]
  refine ⟨same ▸ owns.1, fun i inRange => ?_, same ▸ owns.2.2⟩
  rw [slot_split_eq_of_ne inv notCur notNew inRange, same, slot_mod_eq_iff inv member owns]

theorem owns_split_cur (inv : DirectoryInvariant hashKey s) (member : cur ∈ s.buckets) {c : Nat}
    (owns : Owns hashKey s cur c) : Owns hashKey (splitTable hashKey s cur) cur c := by
  have notNew : cur ≠ s.nextBucket := fun eq => nextBucket_not_mem inv (eq ▸ member)
  rw [Owns, split_store, if_neg notNew, if_pos rfl]
  dsimp only
  refine ⟨lt_of_lt_of_le owns.1 (Nat.pow_le_pow_right (by omega) (by omega)),
    fun i inRange => ?_, fun key stored => ?_⟩
  · rw [slot_split_eq_cur inv member inRange, slot_mod_eq_iff inv member owns,
      (mod_two_pow_succ_eq_iff owns.1).1]
  · simp only [List.mem_map, List.mem_filter, Bool.not_eq_true'] at stored
    obtain ⟨entry, ⟨inCur, stays⟩, rfl⟩ := stored
    have bit := Nat.mod_two_eq_zero_or_one (hashKey entry.1 / 2 ^ (s.store cur).localDepth)
    have notMoved := (movesOut_iff hashKey (s.store cur).localDepth entry).not.1 (by simp [stays])
    exact (mod_two_pow_succ_eq_iff owns.1).1.2
      ⟨owns.2.2 _ (List.mem_map_of_mem _ inCur), by omega⟩

theorem owns_split_new (inv : DirectoryInvariant hashKey s) (member : cur ∈ s.buckets) {c : Nat}
    (owns : Owns hashKey s cur c) :
    Owns hashKey (splitTable hashKey s cur) s.nextBucket (c + 2 ^ (s.store cur).localDepth) := by
  rw [Owns, split_store, if_pos rfl]
  dsimp only
  refine ⟨by rw [Nat.pow_succ]; have := owns.1; omega, fun i inRange => ?_, fun key stored => ?_⟩
  · rw [slot_split_eq_new inv inRange, (mod_two_pow_succ_eq_iff owns.1).2,
      slot_mod_eq_iff inv member owns]
  · rw [keys_foldl_mapAssign] at stored
    simp only [List.mem_map, List.mem_filter, List.map_nil, List.not_mem_nil, or_false] at stored
    obtain ⟨entry, ⟨inCur, moves⟩, rfl⟩ := stored
    exact (mod_two_pow_succ_eq_iff owns.1).2.2
      ⟨owns.2.2 _ (List.mem_map_of_mem _ inCur), (movesOut_iff hashKey _ entry).1 moves⟩

theorem mem_split_iff (inv : DirectoryInvariant hashKey s) (member : cur ∈ s.buckets) {c : Nat}
    (owns : Owns hashKey s cur c) (id : Nat) :
    id ∈ (splitTable hashKey s cur).buckets ↔ id ∈ s.buckets ∨ id = s.nextBucket := by
  have depths := split_depth_le inv member
  have lengthEq : (splitTable hashKey s cur).buckets.length = _ := split_length inv
  have widen : 2 ^ ((s.store cur).localDepth + 1) ≤ (splitTable hashKey s cur).buckets.length :=
    lengthEq ▸ Nat.pow_le_pow_right (by omega) depths.1
  have positive := Nat.two_pow_pos (s.store cur).localDepth
  have small := owns.1
  constructor
  · intro inSplit
    obtain ⟨i, inRange, rfl⟩ := mem_iff_exists_slot.1 inSplit
    rw [slot_split inv inRange]
    split_ifs
    · exact Or.inr rfl
    · exact Or.inl (slot_mem (by rw [inv.length_buckets]; exact Nat.mod_lt _ (Nat.two_pow_pos _)))
  · rintro (old | rfl)
    · by_cases isCur : id = cur
      · subst isCur
        refine mem_iff_exists_slot.2 ⟨c, by rw [Nat.pow_succ] at widen; omega, ?_⟩
        rw [slot_split_eq_cur inv member (by rw [Nat.pow_succ] at widen; omega),
          slot_mod_eq_iff inv member owns, Nat.mod_eq_of_lt small, Nat.div_eq_of_lt small]
        exact ⟨rfl, rfl⟩
      · have notNew : id ≠ s.nextBucket := fun eq => nextBucket_not_mem inv (eq ▸ old)
        obtain ⟨j, inRange, atJ⟩ := mem_iff_exists_slot.1 old
        have grow : s.buckets.length ≤ (splitTable hashKey s cur).buckets.length := by
          rw [inv.length_buckets, lengthEq]; exact Nat.pow_le_pow_right (by omega) depths.2
        refine mem_iff_exists_slot.2 ⟨j, by omega, ?_⟩
        rw [slot_split_eq_of_ne inv isCur notNew (by omega),
          Nat.mod_eq_of_lt (by rw [← inv.length_buckets]; exact inRange)]
        exact atJ
    · refine mem_iff_exists_slot.2 ⟨c + 2 ^ (s.store cur).localDepth,
        by rw [Nat.pow_succ] at widen; omega, ?_⟩
      rw [slot_split_eq_new inv (by rw [Nat.pow_succ] at widen; omega),
        slot_mod_eq_iff inv member owns, Nat.add_mod_right, Nat.mod_eq_of_lt small,
        Nat.add_div_right _ positive, Nat.div_eq_of_lt small]
      exact ⟨rfl, rfl⟩

/-- The three kinds of bucket behind the split directory: an untouched one, `cur` with the
entries it keeps, and the new bucket with the entries it receives. -/
theorem mem_split_cases (inv : DirectoryInvariant hashKey s) (member : cur ∈ s.buckets) {c : Nat}
    (owns : Owns hashKey s cur c) {id : Nat} (inSplit : id ∈ (splitTable hashKey s cur).buckets) :
    (id ∈ s.buckets ∧ id ≠ cur ∧ (splitTable hashKey s cur).store id = s.store id) ∨
      id = cur ∨ id = s.nextBucket := by
  rcases (mem_split_iff inv member owns id).1 inSplit with old | fresh
  · by_cases isCur : id = cur
    · exact Or.inr (Or.inl isCur)
    · have notNew : id ≠ s.nextBucket := fun eq => nextBucket_not_mem inv (eq ▸ old)
      exact Or.inl ⟨old, isCur, by rw [split_store, if_neg notNew, if_neg isCur]⟩
  · exact Or.inr (Or.inr fresh)

/-- **The split keeps the directory invariant.** -/
theorem directoryInvariant_split (inv : DirectoryInvariant hashKey s) (member : cur ∈ s.buckets) :
    DirectoryInvariant hashKey (splitTable hashKey s cur) := by
  obtain ⟨c, owns⟩ := inv.owns cur member
  have depths := split_depth_le inv member
  have notNew : cur ≠ s.nextBucket := fun eq => nextBucket_not_mem inv (eq ▸ member)
  have curStore : (splitTable hashKey s cur).store cur = _ := split_store hashKey cur
  rw [if_neg notNew, if_pos rfl] at curStore
  have newStore : (splitTable hashKey s cur).store s.nextBucket = _ := split_store hashKey s.nextBucket
  rw [if_pos rfl] at newStore
  have curSize := inv.size_le cur member
  have curSorted := inv.sorted cur member
  refine ⟨split_length inv, fun id inSplit => ?_, fun id inSplit => ?_, fun id inSplit => ?_, ?_,
    fun id inSplit => ?_, fun id inSplit => ?_⟩
  · rcases mem_split_cases inv member owns inSplit with ⟨old, -, same⟩ | rfl | rfl
    · rw [same]; exact le_trans (inv.localDepth_le id old) depths.2
    · rw [curStore]; exact depths.1
    · rw [newStore]; exact depths.1
  · rcases mem_split_cases inv member owns inSplit with ⟨old, isNotCur, -⟩ | rfl | rfl
    · obtain ⟨c', owns'⟩ := inv.owns id old
      exact ⟨c', owns_split_of_ne inv old isNotCur owns'⟩
    · exact ⟨c, owns_split_cur inv member owns⟩
    · exact ⟨_, owns_split_new inv member owns⟩
  · rw [split_bucketSize]
    rcases mem_split_cases inv member owns inSplit with ⟨old, -, same⟩ | rfl | rfl
    · rw [same]; exact inv.size_le id old
    · rw [curStore]; exact le_trans (List.length_filter_le _ _) curSize
    · rw [newStore]
      have := length_foldl_mapAssign_le
        ((s.store cur).keyMap.filter (movesOut hashKey (1 <<< (s.store cur).localDepth))) []
      have := List.length_filter_le (movesOut hashKey (1 <<< (s.store cur).localDepth))
        (s.store cur).keyMap
      simp only [List.length_nil, add_zero] at *
      omega
  · have finsetEq : (splitTable hashKey s cur).buckets.toFinset = Insert.insert s.nextBucket s.buckets.toFinset := by
      ext id
      simp only [List.mem_toFinset, Finset.mem_insert, mem_split_iff inv member owns id]
      exact or_comm
    rw [split_bucketNum, inv.bucketNum_eq, finsetEq,
      Finset.card_insert_of_not_mem (by simpa using nextBucket_not_mem inv)]
  · rcases mem_split_cases inv member owns inSplit with ⟨old, -, same⟩ | rfl | rfl
    · rw [same]; exact inv.sorted id old
    · rw [curStore]; exact keysSorted_filter _ curSorted
    · rw [newStore]; exact keysSorted_foldl_mapAssign _ (by simp [KeysSorted])
  · rw [split_nextBucket]
    rcases (mem_split_iff inv member owns id).1 inSplit with old | rfl
    · exact Nat.lt_succ_of_lt (inv.lt_nextBucket id old)
    · exact Nat.lt_succ_self _

end SplitInvariant

/-! ## Storing and erasing keep the invariant -/

section Update

variable {hashKey} {s : ExtendibleHash K V}

/-- Replacing the contents of a bucket behind the directory keeps the invariant, as long as the
local depth stays, every key is an old key of the bucket or one whose slot names it, and the
entries stay in key order within `bucketSize`. -/
theorem directoryInvariant_update (inv : DirectoryInvariant hashKey s) {cur : Nat}
    (member : cur ∈ s.buckets) (bucket : Bucket K V)
    (depth : bucket.localDepth = (s.store cur).localDepth)
    (keys : ∀ key ∈ bucket.keyMap.map Prod.fst,
      key ∈ (s.store cur).keyMap.map Prod.fst ∨ s.slot (hashKey key % 2 ^ s.globalDepth) = cur)
    (size : bucket.keyMap.length ≤ s.bucketSize) (sorted : KeysSorted bucket.keyMap) :
    DirectoryInvariant hashKey { s with store := Function.update s.store cur bucket } := by
  have storeOf : ∀ id, Function.update s.store cur bucket id = if id = cur then bucket else s.store id :=
    fun id => Function.update_apply _ _ _ _
  refine ⟨inv.length_buckets, fun id inDir => ?_, fun id inDir => ?_, fun id inDir => ?_,
    inv.bucketNum_eq, fun id inDir => ?_, inv.lt_nextBucket⟩
  all_goals dsimp only [Owns] at inDir ⊢
  all_goals rw [storeOf]
  · split_ifs with isCur
    · subst isCur; rw [depth]; exact inv.localDepth_le id inDir
    · exact inv.localDepth_le id inDir
  · obtain ⟨c, small, slots, stored⟩ := inv.owns id inDir
    split_ifs with isCur
    · subst isCur
      refine ⟨c, depth ▸ small, fun i inRange => depth ▸ slots i inRange, fun key member => ?_⟩
      rw [depth]
      rcases keys key member with old | atSlot
      · exact stored key old
      · exact residue_of_slot inv inDir ⟨small, slots, stored⟩ atSlot
    · exact ⟨c, small, slots, stored⟩
  · split_ifs with isCur
    · exact size
    · exact inv.size_le id inDir
  · split_ifs with isCur
    · exact sorted
    · exact inv.sorted id inDir

/-- The store at the end of `Insert`'s loop: `cur` is the key's bucket and the key is already
there or `cur` has room. -/
theorem directoryInvariant_assign (inv : DirectoryInvariant hashKey s) (key : K) (value : V)
    (room : (mapFind key (s.store (s.slot (hashKey key % 2 ^ s.globalDepth))).keyMap).isSome ∨
      (s.store (s.slot (hashKey key % 2 ^ s.globalDepth))).keyMap.length < s.bucketSize) :
    DirectoryInvariant hashKey (s.assign (s.slot (hashKey key % 2 ^ s.globalDepth)) key value) := by
  have member := slot_mem (keySlot_lt inv key)
  have sorted := inv.sorted _ member
  refine directoryInvariant_update inv member _ rfl (fun other stored => ?_) ?_
    (keysSorted_mapAssign key value sorted)
  · rcases (keys_mapAssign key value _ other).1 stored with rfl | old
    · exact Or.inr rfl
    · exact Or.inl old
  · rcases room with present | roomLeft
    · rw [length_mapAssign_of_mem value sorted ((mapFind_isSome_iff _ _).1 present)]
      exact inv.size_le _ member
    · have := length_mapAssign_le key value (s.store (s.slot (hashKey key % 2 ^ s.globalDepth))).keyMap
      dsimp only
      omega

theorem directoryInvariant_removeAt (inv : DirectoryInvariant hashKey s) (key : K) :
    DirectoryInvariant hashKey (s.removeAt (hashKey key % 2 ^ s.globalDepth) key).1 := by
  dsimp only [ExtendibleHash.removeAt]
  split_ifs
  · have member := slot_mem (keySlot_lt inv key)
    refine directoryInvariant_update inv member _ rfl (fun other stored => ?_)
      (le_trans (List.length_filter_le _ _) (inv.size_le _ member))
      (keysSorted_filter _ (inv.sorted _ member))
    simp only [mapErase, List.mem_map, List.mem_filter] at stored
    obtain ⟨entry, ⟨inCur, -⟩, rfl⟩ := stored
    exact Or.inl (List.mem_map_of_mem _ inCur)
  · exact inv

/-- **`Insert`'s loop keeps the invariant**, whatever its fuel: a run that returned ends at a
table with the invariant, the same bucket size and a directory on which `getIdx` is defined. -/
theorem insertLoop_keeps (key : K) (value : V) :
    ∀ (fuel : Nat) (s s' : ExtendibleHash K V), DirectoryInvariant hashKey s → s.globalDepth ≤ 30 →
      insertLoop hashKey key value fuel s (s.slot (hashKey key % 2 ^ s.globalDepth)) = .ok s' →
      DirectoryInvariant hashKey s' ∧ s'.bucketSize = s.bucketSize ∧ s'.globalDepth ≤ 30
  | 0, _, _, _, _, done => nomatch done
  | fuel + 1, s, s', inv, shallow, done => by
      rcases (insertLoop_succ_eq_ok hashKey).1 done with ⟨room, rfl⟩ | ⟨-, -, deeper, rest⟩
      · exact ⟨directoryInvariant_assign inv key value room, rfl, shallow⟩
      · obtain ⟨inv', size, bounded⟩ := insertLoop_keeps key value fuel _ s'
          (directoryInvariant_split inv (slot_mem (keySlot_lt inv key))) deeper rest
        exact ⟨inv', size.trans (split_bucketSize hashKey), bounded⟩

end Update

/-! ## Reachable tables -/

/-- The tables that `ExtendibleHash(n)` reaches by `Insert` and `Remove` calls that returned. -/
inductive Reachable (n : Nat) : ExtendibleHash K V → Prop
  | init : Reachable n (ExtendibleHash.init n)
  | insert {s s' : ExtendibleHash K V} {fuel : Nat} {key : K} {value : V} :
      Reachable n s → ScuDb.Hash.insert hashKey fuel s key value = .ok s' → Reachable n s'
  | remove {s : ExtendibleHash K V} {key : K} {r : ExtendibleHash K V × Bool} :
      Reachable n s → ScuDb.Hash.remove hashKey s key = .ok r → Reachable n r.1

theorem directoryInvariant_init (n : Nat) :
    DirectoryInvariant hashKey (ExtendibleHash.init n : ExtendibleHash K V) := by
  refine ⟨rfl, fun id _ => by simp [ExtendibleHash.init], fun id inDir => ?_,
    fun id inDir => by simp [ExtendibleHash.init], rfl, fun id _ => by simp [ExtendibleHash.init, KeysSorted],
    fun id inDir => by simp_all [ExtendibleHash.init]⟩
  refine ⟨0, by simp [ExtendibleHash.init], fun i inRange => ?_, fun key stored => by
    simp [ExtendibleHash.init] at stored⟩
  simp_all [ExtendibleHash.init, ExtendibleHash.slot]

variable {hashKey}

/-- Every reachable table has the invariant, bucket size `n`, and a directory of depth at most 30:
a call returns only after a `getIdx` that was defined. -/
theorem Reachable.directoryInvariant {n : Nat} {s : ExtendibleHash K V} (reachable : Reachable hashKey n s) :
    DirectoryInvariant hashKey s ∧ s.bucketSize = n ∧ s.globalDepth ≤ 30 := by
  induction reachable with
  | init => exact ⟨directoryInvariant_init hashKey n, rfl, Nat.zero_le _⟩
  | @insert s s' fuel key value _ done inductionHypothesis =>
      obtain ⟨inv, size, shallow⟩ := inductionHypothesis
      obtain ⟨inv', size', shallow'⟩ :=
        insertLoop_keeps key value fuel s s' inv shallow ((insert_eq_ok hashKey).1 done).2
      exact ⟨inv', size'.trans size, shallow'⟩
  | @remove s key r _ done inductionHypothesis =>
      obtain ⟨inv, size, shallow⟩ := inductionHypothesis
      obtain ⟨-, rfl⟩ := (remove_eq_ok_iff hashKey).1 done
      exact ⟨directoryInvariant_removeAt inv key, by simpa using size, by simpa using shallow⟩

/-! ## Keys of the table -/

/-- The keys of the table: those of every distinct bucket behind the directory. -/
def tableKeys (s : ExtendibleHash K V) : List K :=
  s.buckets.dedup.flatMap fun id => (s.store id).keyMap.map Prod.fst

section Keys

variable {s : ExtendibleHash K V} (inv : DirectoryInvariant hashKey s)
include inv

theorem lookup_eq_of_mem {id : Nat} (member : id ∈ s.buckets) (key : K)
    (stored : key ∈ (s.store id).keyMap.map Prod.fst) :
    lookup hashKey s key = mapFind key (s.store id).keyMap := by
  rw [lookup, slot_of_mem inv member stored]

theorem mem_tableKeys_iff (key : K) : key ∈ tableKeys s ↔ (lookup hashKey s key).isSome := by
  simp only [tableKeys, List.mem_flatMap, List.mem_dedup]
  constructor
  · rintro ⟨id, member, stored⟩
    rw [lookup_eq_of_mem inv member key stored, mapFind_isSome_iff]
    exact stored
  · intro found
    refine ⟨_, slot_mem (keySlot_lt inv key), ?_⟩
    rw [lookup, mapFind_isSome_iff] at found
    exact found

theorem tableKeys_nodup : (tableKeys s).Nodup := by
  refine List.nodup_flatMap.2 ⟨fun id member => (inv.sorted id (List.mem_dedup.1 member)).nodup, ?_⟩
  refine (List.nodup_dedup s.buckets).imp_of_mem fun {a b} aIn bIn distinct => ?_
  rw [List.mem_dedup] at aIn bIn
  refine List.disjoint_left.2 fun {key} inA inB => distinct ?_
  exact (slot_of_mem inv aIn inA).symm.trans (slot_of_mem inv bIn inB)

/-- The sizes of the distinct buckets add up to the number of keys the table holds. -/
theorem sum_bucket_sizes :
    (s.buckets.dedup.map fun id => (s.store id).keyMap.length).sum =
      Set.ncard {key | (lookup hashKey s key).isSome} := by
  have asFinset : {key | (lookup hashKey s key).isSome} = ↑(tableKeys s).toFinset := by
    ext key; simp [mem_tableKeys_iff inv]
  rw [asFinset, Set.ncard_coe_Finset, List.toFinset_card_of_nodup (tableKeys_nodup inv), tableKeys,
    List.flatMap, List.length_flatten, List.map_map]
  simp [Function.comp_def]

end Keys

/-- **The directory invariant of every reachable table.** (a) the directory has `2 ^ G` slots;
(b) local depths are at most `G`; (c, d) the slots of a bucket and its keys share one residue
modulo `2 ^ L`; so every stored key sits in the bucket its slot names, which `getIdx` computes;
(e) no bucket holds more than `n` entries; (f) `bucketNum` counts the distinct buckets; (g) the
bucket sizes add up to the number of keys `Find` reports. -/
theorem directory_invariant_of_reachable {n : Nat} {s : ExtendibleHash K V}
    (reachable : Reachable hashKey n s) :
    s.buckets.length = 2 ^ s.globalDepth ∧
    (∀ id ∈ s.buckets, (s.store id).localDepth ≤ s.globalDepth) ∧
    (∀ id ∈ s.buckets, ∃ c < 2 ^ (s.store id).localDepth,
      (∀ i < s.buckets.length, s.slot i = id ↔ i % 2 ^ (s.store id).localDepth = c) ∧
      ∀ key ∈ (s.store id).keyMap.map Prod.fst, hashKey key % 2 ^ (s.store id).localDepth = c) ∧
    (∀ id ∈ s.buckets, ∀ key ∈ (s.store id).keyMap.map Prod.fst,
      ∃ idx, getIdx hashKey s key = .ok idx ∧ s.slot idx = id) ∧
    (∀ id ∈ s.buckets, (s.store id).keyMap.length ≤ n) ∧
    s.bucketNum = s.buckets.toFinset.card ∧
    (s.buckets.dedup.map fun id => (s.store id).keyMap.length).sum =
      Set.ncard {key | ∃ value, find hashKey s key = .ok (some value)} := by
  obtain ⟨inv, sizeEq, shallow⟩ := reachable.directoryInvariant
  have found : {key | ∃ value, find hashKey s key = .ok (some value)} =
      {key | (lookup hashKey s key).isSome} := by
    ext key; simp [find_eq hashKey shallow, Option.isSome_iff_exists]
  refine ⟨inv.length_buckets, inv.localDepth_le, fun id member => ?_,
    fun id member key stored => ⟨_, getIdx_eq hashKey shallow key, slot_of_mem inv member stored⟩,
    fun id member => sizeEq ▸ inv.size_le id member, inv.bucketNum_eq, found ▸ sum_bucket_sizes inv⟩
  obtain ⟨c, small, slots, keys⟩ := inv.owns id member
  exact ⟨c, small, slots, keys⟩

/-- `ExtendibleHash(2)`, `HashKey` the identity, after `Insert` of 0, 1, 2 and 4: the third insert
splits bucket 0 on bit 0 and the fourth on bit 1, doubling the directory each time, so that bucket 1
of local depth 1 sits behind the two slots 1 and 3 of a directory of depth 2. -/
theorem directory_invariant_of_reachable_after_splits :
    ∃ s : ExtendibleHash Nat Nat, Reachable id 2 s ∧
      s.globalDepth = 2 ∧ s.buckets = [0, 1, 2, 1] ∧ (s.store 1).localDepth = 1 ∧
      s.buckets.length = 2 ^ s.globalDepth ∧
      (∀ b ∈ s.buckets, (s.store b).localDepth ≤ s.globalDepth) ∧
      (∀ b ∈ s.buckets, ∃ c < 2 ^ (s.store b).localDepth,
        (∀ i < s.buckets.length, s.slot i = b ↔ i % 2 ^ (s.store b).localDepth = c) ∧
        ∀ key ∈ (s.store b).keyMap.map Prod.fst, id key % 2 ^ (s.store b).localDepth = c) ∧
      (∀ b ∈ s.buckets, ∀ key ∈ (s.store b).keyMap.map Prod.fst,
        ∃ idx, getIdx id s key = .ok idx ∧ s.slot idx = b) ∧
      (∀ b ∈ s.buckets, (s.store b).keyMap.length ≤ 2) ∧
      s.bucketNum = s.buckets.toFinset.card ∧
      (s.buckets.dedup.map fun b => (s.store b).keyMap.length).sum =
        Set.ncard {key | ∃ value, find id s key = .ok (some value)} := by
  have r1 := Reachable.insert
    (Reachable.init : Reachable id 2 (ExtendibleHash.init 2 : ExtendibleHash Nat Nat))
    (show insert id 1 (ExtendibleHash.init 2 : ExtendibleHash Nat Nat) 0 0 = .ok _ from rfl)
  have r2 := Reachable.insert r1 (show insert id 1 _ 1 1 = .ok _ from rfl)
  have r3 := Reachable.insert r2 (show insert id 2 _ 2 2 = .ok _ from rfl)
  have r4 := Reachable.insert r3 (show insert id 2 _ 4 4 = .ok _ from rfl)
  exact ⟨_, r4, rfl, rfl, rfl, directory_invariant_of_reachable r4⟩

end ScuDb.Hash
