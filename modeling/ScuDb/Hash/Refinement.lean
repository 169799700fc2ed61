import ScuDb.Hash.Depth
import Mathlib.Algebra.Order.BigOperators.Group.List

/-!
Contract: the project1 `ExtendibleHash` refines a finite map, within the depths its `int` shifts
support.

Owns: the table's contents (`lookup`) across a split, across the store at the end of `Insert`'s
loop and across `Remove`; termination of `Insert`'s loop when the low `w ≤ 30` bits of `HashKey`
keep the new key apart from the stored ones; the map interface (`Op`, `Reply`, `mapRun`) and the
table run over a call sequence (`tableRun`); `tableRun_refines_map`, for every call sequence
whose keys the low 30 bits of `HashKey` keep apart; and the runs on the keys `0` and `1 << 30`,
which those bits do not keep apart.

## Why the loop ends

All keys of the bucket `cur` that the key's slot names share one residue modulo `2 ^ L`, and so
does the key. A full bucket without the key holds another key, so once `L ≥ w` the two hashes
would agree in their low `w` bits. A split raises the local depth of the key's bucket by one, so
after at most `w - L` splits the key's bucket has room; and no split is made at a depth of `w`
or more, so the directory stays within `w ≤ 30` and both shifts within `int`.
-/

set_option linter.unusedSectionVars false

namespace ScuDb.Hash

variable {K V : Type} [LinearOrder K] {hashKey : K → Nat}

/-- Bit `L` of a residue modulo `2 ^ n`, `L < n`, is bit `L` of the number. -/
theorem mod_two_pow_div_two_pow_mod_two {x n L : Nat} (below : L < n) :
    x % 2 ^ n / 2 ^ L % 2 = x / 2 ^ L % 2 := by
  have bit := Nat.testBit_mod_two_pow x n L
  simp only [Nat.testBit_to_div_mod, below, decide_True, Bool.true_and, decide_eq_decide] at bit
  have := Nat.mod_two_eq_zero_or_one (x % 2 ^ n / 2 ^ L)
  have := Nat.mod_two_eq_zero_or_one (x / 2 ^ L)
  omega

/-- Keys that `HashKey` keeps apart below `2 ^ w` are kept apart by its low `w` bits. -/
theorem injOn_mod_of_lt {keys : Set K} {w : Nat} (separated : Set.InjOn hashKey keys)
    (bounded : ∀ key ∈ keys, hashKey key < 2 ^ w) :
    Set.InjOn (fun key => hashKey key % 2 ^ w) keys := fun a aIn b bIn same => by
  simp only [Nat.mod_eq_of_lt (bounded a aIn), Nat.mod_eq_of_lt (bounded b bIn)] at same
  exact separated aIn bIn same

/-! ## The table's contents across the steps -/

section Steps

variable {s : ExtendibleHash K V} (inv : DirectoryInvariant hashKey s)
include inv

/-- **A split moves keys, never loses them.** -/
theorem lookup_split {cur : Nat} (member : cur ∈ s.buckets) (key : K) :
    lookup hashKey (splitTable hashKey s cur) key = lookup hashKey s key := by
  obtain ⟨c, owns⟩ := inv.owns cur member
  have depths := split_depth_le inv member
  have notNew : cur ≠ s.nextBucket := fun eq => nextBucket_not_mem inv (eq ▸ member)
  have inRange : hashKey key % 2 ^ (splitTable hashKey s cur).globalDepth <
      (splitTable hashKey s cur).buckets.length := by
    rw [split_length inv]; exact Nat.mod_lt _ (Nat.two_pow_pos _)
  have oldSlot : hashKey key % 2 ^ (splitTable hashKey s cur).globalDepth % 2 ^ s.globalDepth =
      hashKey key % 2 ^ s.globalDepth :=
    Nat.mod_mod_of_dvd _ (Nat.pow_dvd_pow 2 depths.2)
  have bit : hashKey key % 2 ^ (splitTable hashKey s cur).globalDepth / 2 ^ (s.store cur).localDepth % 2 =
      hashKey key / 2 ^ (s.store cur).localDepth % 2 :=
    mod_two_pow_div_two_pow_mod_two (by omega)
  rw [lookup, lookup, slot_split inv inRange, oldSlot, bit]
  split_ifs with moved
  · rw [split_store, if_pos rfl, moved.1]
    dsimp only
    rw [mapFind_foldl_mapAssign _ ((keysSorted_filter _ (inv.sorted cur member)).nodup),
      mapFind_filter _ _ _ fun entry _ same => by rw [movesOut_iff, same]; exact moved.2]
    simp
  · by_cases atCur : s.slot (hashKey key % 2 ^ s.globalDepth) = cur
    · have stays : hashKey key / 2 ^ (s.store cur).localDepth % 2 = 0 := by
        have := Nat.mod_two_eq_zero_or_one (hashKey key / 2 ^ (s.store cur).localDepth)
        exact this.resolve_right fun odd => moved ⟨atCur, odd⟩
      rw [atCur, split_store, if_neg notNew, if_pos rfl]
      dsimp only
      rw [mapFind_filter _ _ _ fun entry _ same => by
        rw [Bool.not_eq_true', ← Bool.not_eq_true, movesOut_iff, same]; omega]
    · have old := slot_mem (keySlot_lt inv key)
      have notFresh : s.slot (hashKey key % 2 ^ s.globalDepth) ≠ s.nextBucket :=
        fun eq => nextBucket_not_mem inv (eq ▸ old)
      rw [split_store, if_neg notFresh, if_neg atCur]

/-- The store at the end of `Insert`'s loop sets the key and nothing else. -/
theorem lookup_assign (key : K) (value : V) (other : K) :
    lookup hashKey (s.assign (s.slot (hashKey key % 2 ^ s.globalDepth)) key value) other =
      if other = key then some value else lookup hashKey s other := by
  by_cases same : other = key
  · subst same
    simp only [if_pos, lookup, ExtendibleHash.assign, slot_with_store, Function.update_same]
    exact mapFind_mapAssign_self other value _
  · simp only [if_neg same, lookup, ExtendibleHash.assign, slot_with_store, Function.update_apply]
    split_ifs with atSlot
    · rw [atSlot]; exact mapFind_mapAssign_of_ne value _ same
    · rfl

/-- `Remove` reports whether the key was there, and erases it and nothing else. -/
theorem lookup_removeAt (key other : K) :
    (s.removeAt (hashKey key % 2 ^ s.globalDepth) key).2 = (lookup hashKey s key).isSome ∧
      lookup hashKey (s.removeAt (hashKey key % 2 ^ s.globalDepth) key).1 other =
        if other = key then none else lookup hashKey s other := by
  dsimp only [ExtendibleHash.removeAt]
  by_cases present : (lookup hashKey s key).isSome
  · rw [lookup] at present
    rw [if_pos present]
    refine ⟨present.symm, ?_⟩
    simp only [lookup, slot_with_store, Function.update_apply]
    by_cases same : other = key
    · subst same; rw [if_pos rfl, if_pos rfl]; exact mapFind_mapErase_self _ _
    · rw [if_neg same]
      split_ifs with atSlot
      · rw [atSlot]; exact mapFind_mapErase_of_ne _ same
      · rfl
  · rw [lookup] at present
    rw [if_neg present]
    refine ⟨by simpa [lookup] using present, ?_⟩
    by_cases same : other = key
    · subst same; rw [if_pos rfl]; simpa [lookup] using present
    · rw [if_neg same]

end Steps

/-- `Insert`'s loop, when it returns, has set the key and nothing else. -/
theorem lookup_insertLoop (key : K) (value : V) :
    ∀ (fuel : Nat) (s s' : ExtendibleHash K V), DirectoryInvariant hashKey s →
      insertLoop hashKey key value fuel s (s.slot (hashKey key % 2 ^ s.globalDepth)) = .ok s' →
      ∀ other, lookup hashKey s' other = if other = key then some value else lookup hashKey s other
  | 0, _, _, _, done => nomatch done
  | fuel + 1, s, s', inv, done => by
      rcases (insertLoop_succ_eq_ok hashKey).1 done with ⟨-, rfl⟩ | ⟨-, -, -, rest⟩
      · exact lookup_assign inv key value
      · have member := slot_mem (keySlot_lt inv key)
        intro other
        rw [lookup_insertLoop key value fuel _ s' (directoryInvariant_split inv member) rest other,
          lookup_split inv member]

/-! ## Termination of `Insert` -/

/-- After splitting the key's bucket, the key's bucket is one level deeper. -/
theorem localDepth_split_keySlot {s : ExtendibleHash K V} (inv : DirectoryInvariant hashKey s)
    (key : K) :
    ((splitTable hashKey s (s.slot (hashKey key % 2 ^ s.globalDepth))).store
      ((splitTable hashKey s (s.slot (hashKey key % 2 ^ s.globalDepth))).slot (hashKey key %
        2 ^ (splitTable hashKey s (s.slot (hashKey key % 2 ^ s.globalDepth))).globalDepth))).localDepth =
      (s.store (s.slot (hashKey key % 2 ^ s.globalDepth))).localDepth + 1 := by
  have member := slot_mem (keySlot_lt inv key)
  have depths := split_depth_le inv member
  have notNew : s.slot (hashKey key % 2 ^ s.globalDepth) ≠ s.nextBucket :=
    fun eq => nextBucket_not_mem inv (eq ▸ member)
  have inRange : hashKey key % 2 ^ (splitTable hashKey s (s.slot (hashKey key % 2 ^ s.globalDepth))).globalDepth <
      (splitTable hashKey s (s.slot (hashKey key % 2 ^ s.globalDepth))).buckets.length := by
    rw [split_length inv]; exact Nat.mod_lt _ (Nat.two_pow_pos _)
  rw [slot_split inv inRange, Nat.mod_mod_of_dvd _ (Nat.pow_dvd_pow 2 depths.2)]
  split_ifs
  · rw [split_store, if_pos rfl]
  · rw [split_store, if_neg notNew, if_pos rfl]

/-- A full bucket the key's slot names, with the low `w` bits of `HashKey` keeping the key apart
from the stored keys, has local depth below `w`. -/
theorem localDepth_lt_of_full {s : ExtendibleHash K V} (inv : DirectoryInvariant hashKey s)
    {key : K} {w : Nat}
    (separated : ∀ other, (lookup hashKey s other).isSome →
      hashKey other % 2 ^ w = hashKey key % 2 ^ w → other = key)
    (roomy : 1 ≤ s.bucketSize)
    (full : ¬((mapFind key (s.store (s.slot (hashKey key % 2 ^ s.globalDepth))).keyMap).isSome ∨
      (s.store (s.slot (hashKey key % 2 ^ s.globalDepth))).keyMap.length < s.bucketSize)) :
    (s.store (s.slot (hashKey key % 2 ^ s.globalDepth))).localDepth < w := by
  have member := slot_mem (keySlot_lt inv key)
  obtain ⟨c, owns⟩ := inv.owns _ member
  obtain ⟨absent, fullBucket⟩ := not_or.1 full
  -- the full bucket holds a key other than `key`, with the same residue
  obtain ⟨entry, stored⟩ : ∃ entry, entry ∈ (s.store (s.slot (hashKey key % 2 ^ s.globalDepth))).keyMap := by
    rcases h : (s.store (s.slot (hashKey key % 2 ^ s.globalDepth))).keyMap with _ | ⟨entry, _⟩
    · rw [h] at fullBucket; simp at fullBucket; omega
    · exact ⟨entry, by simp⟩
  have storedKey := List.mem_map_of_mem Prod.fst stored
  have found : (lookup hashKey s entry.1).isSome := by
    rw [lookup_eq_of_mem inv member _ storedKey, mapFind_isSome_iff]; exact storedKey
  have distinct : entry.1 ≠ key := fun same => absent ((mapFind_isSome_iff _ _).2 (same ▸ storedKey))
  have entryResidue := owns.2.2 _ storedKey
  have keyResidue := residue_of_slot inv member owns rfl
  by_contra deep
  have divides := Nat.pow_dvd_pow 2 (not_lt.1 deep)
  refine distinct (separated _ found ?_)
  rw [← Nat.mod_mod_of_dvd (hashKey entry.1) divides, ← Nat.mod_mod_of_dvd (hashKey key) divides,
    entryResidue, keyResidue]

/-- **`Insert`'s loop returns** once its fuel covers the splits still possible, when the low `w`
bits of `HashKey`, `w ≤ 30`, keep the key apart from every other stored key. -/
theorem insertLoop_isOk (key : K) (value : V) {w : Nat} (narrow : w ≤ 30) :
    ∀ (fuel : Nat) (s : ExtendibleHash K V), DirectoryInvariant hashKey s → 1 ≤ s.bucketSize →
      s.globalDepth ≤ 30 →
      (∀ other, (lookup hashKey s other).isSome →
        hashKey other % 2 ^ w = hashKey key % 2 ^ w → other = key) →
      w - (s.store (s.slot (hashKey key % 2 ^ s.globalDepth))).localDepth + 1 ≤ fuel →
      ∃ s', insertLoop hashKey key value fuel s (s.slot (hashKey key % 2 ^ s.globalDepth)) = .ok s'
  | 0, _, _, _, _, _, enough => by omega
  | fuel + 1, s, inv, roomy, shallow, separated, enough => by
      by_cases room : (mapFind key (s.store (s.slot (hashKey key % 2 ^ s.globalDepth))).keyMap).isSome ∨
          (s.store (s.slot (hashKey key % 2 ^ s.globalDepth))).keyMap.length < s.bucketSize
      · exact ⟨_, by rw [insertLoop_succ, if_pos room]⟩
      have member := slot_mem (keySlot_lt inv key)
      have below := localDepth_lt_of_full inv separated roomy room
      have depths := inv.localDepth_le _ member
      have shallow' : (splitTable hashKey s (s.slot (hashKey key % 2 ^ s.globalDepth))).globalDepth ≤ 30 := by
        rw [split_globalDepth]; split_ifs <;> omega
      rw [insertLoop_succ_of_full hashKey value fuel room (by omega) shallow']
      exact insertLoop_isOk key value narrow fuel _ (directoryInvariant_split inv member)
        (by rw [split_bucketSize]; exact roomy) shallow'
        (fun other found => separated other (by rwa [lookup_split inv member] at found))
        (by rw [localDepth_split_keySlot inv key]; omega)

/-- A call on the table. -/
inductive Op (K V : Type)
  | insert (key : K) (value : V)
  | remove (key : K)
  | find (key : K)

/-- The key a call names. -/
def Op.key : Op K V → K
  | .insert key _ => key
  | .remove key => key
  | .find key => key

/-- What a call returns: `Insert` nothing, `Remove` whether the key was there, `Find` the value
it sets when it returns `true`. -/
inductive Reply (V : Type)
  | inserted
  | removed (present : Bool)
  | found (value : Option V)

/-- The finite map: `Insert` upserts, `Remove` erases, `Find` reads. -/
def mapRun : (K → Option V) → List (Op K V) → List (Reply V)
  | _, [] => []
  | m, .insert key value :: ops => .inserted :: mapRun (Function.update m key (some value)) ops
  | m, .remove key :: ops => .removed (m key).isSome :: mapRun (Function.update m key none) ops
  | m, .find key :: ops => .found (m key) :: mapRun m ops

variable (hashKey) in
/-- The table run over the same calls, each `Insert` given `fuel` passes of its loop; it stops at
the first call that fails. -/
def tableRun (fuel : Nat) : ExtendibleHash K V → List (Op K V) → Except String (List (Reply V))
  | _, [] => .ok []
  | s, .insert key value :: ops =>
      (insert hashKey fuel s key value).bind fun s' => (tableRun fuel s' ops).map (.inserted :: ·)
  | s, .remove key :: ops =>
      (remove hashKey s key).bind fun r => (tableRun fuel r.1 ops).map (.removed r.2 :: ·)
  | s, .find key :: ops =>
      (find hashKey s key).bind fun value => (tableRun fuel s ops).map (.found value :: ·)

/-- The run from a table that holds the map `m`, over calls whose keys lie in a set that the low
`w ≤ 30` bits of `HashKey` keep apart, with `w + 1` passes per `Insert`. -/
theorem tableRun_eq_mapRun {keys : Set K} {w fuel : Nat} (narrow : w ≤ 30)
    (separated : Set.InjOn (fun key => hashKey key % 2 ^ w) keys) (enough : w + 1 ≤ fuel) :
    ∀ (ops : List (Op K V)) (s : ExtendibleHash K V) (m : K → Option V),
      (∀ op ∈ ops, op.key ∈ keys) → DirectoryInvariant hashKey s → 1 ≤ s.bucketSize →
      s.globalDepth ≤ 30 → (∀ key, lookup hashKey s key = m key) →
      (∀ key, (m key).isSome → key ∈ keys) →
      tableRun hashKey fuel s ops = .ok (mapRun m ops)
  | [], _, _, _, _, _, _, _, _ => rfl
  | .insert key value :: ops, s, m, named, inv, roomy, shallow, agrees, used => by
      have keyIn := named _ (List.mem_cons_self _ _)
      have rest : ∀ op ∈ ops, op.key ∈ keys := fun op member => named op (List.mem_cons_of_mem _ member)
      obtain ⟨s', done⟩ := insertLoop_isOk key value narrow fuel s inv roomy shallow
        (fun other found same => separated (used other (agrees other ▸ found)) keyIn same) (by omega)
      obtain ⟨inv', size, shallow'⟩ := insertLoop_keeps key value fuel s s' inv shallow done
      have agrees' : ∀ other, lookup hashKey s' other = Function.update m key (some value) other := by
        intro other
        rw [lookup_insertLoop key value fuel s s' inv done, Function.update_apply, agrees]
      have used' : ∀ other, (Function.update m key (some value) other).isSome → other ∈ keys := by
        intro other found
        rw [Function.update_apply] at found
        split_ifs at found with same
        · exact same ▸ keyIn
        · exact used other found
      rw [tableRun, insert_eq hashKey shallow, done, Except.bind,
        tableRun_eq_mapRun narrow separated enough ops s' _ rest inv' (size ▸ roomy) shallow' agrees'
          used']
      rfl
  | .remove key :: ops, s, m, named, inv, roomy, shallow, agrees, used => by
      have rest : ∀ op ∈ ops, op.key ∈ keys := fun op member => named op (List.mem_cons_of_mem _ member)
      have agrees' : ∀ other, lookup hashKey (s.removeAt (hashKey key % 2 ^ s.globalDepth) key).1 other =
          Function.update m key none other := by
        intro other
        rw [(lookup_removeAt inv key other).2, Function.update_apply, agrees]
      have used' : ∀ other, (Function.update m key none other).isSome → other ∈ keys := by
        intro other found
        rw [Function.update_apply] at found
        split_ifs at found with same
        · simp at found
        · exact used other found
      rw [tableRun, (remove_eq_ok_iff hashKey).2 ⟨shallow, rfl⟩, Except.bind,
        tableRun_eq_mapRun narrow separated enough ops _ _ rest (directoryInvariant_removeAt inv key)
          (by simpa using roomy) (by simpa using shallow) agrees' used',
        (lookup_removeAt inv key key).1, agrees]
      rfl
  | .find key :: ops, s, m, named, inv, roomy, shallow, agrees, used => by
      have rest : ∀ op ∈ ops, op.key ∈ keys := fun op member => named op (List.mem_cons_of_mem _ member)
      rw [tableRun, find_eq hashKey shallow, Except.bind,
        tableRun_eq_mapRun narrow separated enough ops s m rest inv roomy shallow agrees used, agrees]
      rfl

end ScuDb.Hash
