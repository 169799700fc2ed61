import ScuDb.Index.Deletion
import ScuDb.Index.Concurrent

/-!
Contract: the project2 `BPlusTree` (src/project/project2/scudb_initial/src/index/b_plus_tree.cpp)
refines a finite map over every sequential run of `Insert`, `Remove` and `GetValue` from the
empty tree, and every tree such a run reaches has the shape and the parent pointers the spec
lists; on such a tree `Insert` of a key it holds and `Remove` of a key it lacks change nothing.

Owns: the specification of `GetValue`, a call run alone to its end (`BPlusTree.call`) and a run
of calls (`treeRun`), the map of the spec (`mapCall`, `mapRun`) with the relation between the two
(`Represents`), the trees the calls reach (`Reachable`), and what the invariant says of each of
them: keys in order, keys of a subtree between the separators of its slot, leaves at one depth,
page sizes, and parent pointers both ways.

Does not own: that `Insert` and `Remove` keep the invariant (`insert_spec`, `remove_spec`), and
the leaf chain the iterator walks (`ScuDb.Index.Scan`).

## Model

Sequentially a thread's sections run back to back (`ScuDb.Index.Concurrent`), so a call is the
whole method: `Insert` as `BPlusTree.insert`, `Remove` as `BPlusTree.remove`, `GetValue` as
`BPlusTree.getValue`. The map's `Insert` adds a key only when it is absent, as the code's unique
keys ask.
-/

set_option linter.unusedSectionVars false

namespace ScuDb.Index

open ScuDb.Buffer (invalidPageId)

variable {K V : Type} [LinearOrder K] [Zero K]

/-! ## `GetValue` -/

section GetValue

variable {t : BPlusTree K V}

/-- `GetValue(key)` on a valid tree returns the value the tree holds under `key`, `none` when it
holds none. -/
theorem getValue_spec (valid : Valid t) (key : K) :
    ∃ found, t.getValue key = .ok found ∧ ∀ value, found = some value ↔ Holds t key value := by
  obtain ⟨⟨place, linked⟩, sized, -, internalMin⟩ := valid
  by_cases empty : t.rootPageId = invalidPageId
  · have noPages := linked.empty empty
    refine ⟨none, by simp [BPlusTree.getValue, BPlusTree.findLeafPage, BPlusTree.isEmpty, empty,
      bind, Except.bind, pure, Except.pure], fun value => ?_⟩
    simp only [reduceCtorEq, false_iff]
    exact fun ⟨_, _, found, _⟩ => by simp [noPages] at found
  obtain ⟨X, leaf, found, stored, inside⟩ :=
    findLeafPage_spec linked empty (sized.twoSlots internalMin) key
  refine ⟨leaf.lookup key, by simp [BPlusTree.getValue, found, BPlusTree.fetchLeaf_eq stored, bind,
    Except.bind, pure, Except.pure], fun value => ?_⟩
  rw [BPlusTreeLeafPage.lookup_eq_some_iff (linked.leaf X leaf stored).sorted,
    linked.holds_iff_mem stored inside]

end GetValue

/-! ## Runs of calls -/

/-- A call run alone to its end: the tree after it and its reply. -/
def BPlusTree.call (t : BPlusTree K V) : TreeCall K V → Except String (BPlusTree K V × TreeReply V)
  | .insert key value => (t.insert key value).map fun (t, fresh) => (t, .inserted fresh)
  | .remove key => (t.remove key).map fun t => (t, .removed)
  | .getValue key => (t.getValue key).map fun value => (t, .found value)

/-- The calls run one after another: the last tree and the replies, or the check that failed. -/
def treeRun : BPlusTree K V → List (TreeCall K V) → Except String (BPlusTree K V × List (TreeReply V))
  | t, [] => .ok (t, [])
  | t, call :: calls => do
      let (t, reply) ← t.call call
      let (t, replies) ← treeRun t calls
      pure (t, reply :: replies)

/-- The finite map of the spec: `Insert` adds a key only when it is absent and says whether it
did, `Remove` erases the key, `GetValue` reads it. -/
def mapCall (m : K → Option V) : TreeCall K V → (K → Option V) × TreeReply V
  | .insert key value =>
      if (m key).isSome then (m, .inserted false)
      else (Function.update m key (some value), .inserted true)
  | .remove key => (Function.update m key none, .removed)
  | .getValue key => (m, .found (m key))

/-- The map run over the same calls: the last map and the replies. -/
def mapRun : (K → Option V) → List (TreeCall K V) → (K → Option V) × List (TreeReply V)
  | m, [] => (m, [])
  | m, call :: calls =>
      ((mapRun (mapCall m call).1 calls).1, (mapCall m call).2 :: (mapRun (mapCall m call).1 calls).2)

/-- A valid tree that holds exactly the entries of the map. -/
structure Represents (t : BPlusTree K V) (m : K → Option V) : Prop where
  valid : Valid t
  holds : ∀ key value, Holds t key value ↔ m key = some value

section Refines

variable {t : BPlusTree K V} {m : K → Option V}

theorem Represents.insert (represents : Represents t m) (key : K) (value : V) :
    ∃ t', t.call (.insert key value) = .ok (t', (mapCall m (.insert key value)).2) ∧
      Represents t' (mapCall m (.insert key value)).1 := by
  obtain ⟨t', inserted, run, valid', known, holds'⟩ := insert_spec represents.valid key value
  have present : inserted = false ↔ (m key).isSome := by
    rw [known, Option.isSome_iff_exists]
    exact exists_congr fun value' => represents.holds key value'
  have reply : t.call (.insert key value) = .ok (t', .inserted inserted) := by
    simp [BPlusTree.call, run, Except.map]
  cases inserted with
  | false =>
    simp only [mapCall, if_pos (present.1 rfl)]
    refine ⟨t', reply, valid', fun key' value' => ?_⟩
    simp [holds', represents.holds]
  | true =>
    have absent : m key = none := by simpa using mt present.2 (by decide)
    simp only [mapCall, absent, Option.isSome_none, Bool.false_eq_true, if_false]
    refine ⟨t', reply, valid', fun key' value' => ?_⟩
    rw [holds', represents.holds]
    by_cases same : key' = key
    · subst same
      simp [absent, eq_comm]
    · simp [same]

theorem Represents.remove (represents : Represents t m) (key : K) :
    ∃ t', t.call (.remove key) = .ok (t', (mapCall m (.remove key)).2) ∧
      Represents t' (mapCall m (.remove key)).1 := by
  obtain ⟨t', run, valid', holds'⟩ := remove_spec represents.valid key
  refine ⟨t', by simp [BPlusTree.call, run, Except.map, mapCall], valid', fun key' value => ?_⟩
  rw [holds', represents.holds]
  by_cases same : key' = key
  · subst same
    simp [mapCall]
  · simp [mapCall, same]

theorem Represents.getValue (represents : Represents t m) (key : K) :
    t.call (.getValue key) = .ok (t, (mapCall m (.getValue key)).2) ∧
      (mapCall m (.getValue key)).1 = m := by
  obtain ⟨found, run, holds⟩ := getValue_spec represents.valid key
  have same : found = m key :=
    Option.ext fun value => (holds value).trans (represents.holds key value)
  simp [BPlusTree.call, run, Except.map, mapCall, same]

/-- **One call refines the map.** -/
theorem Represents.call (represents : Represents t m) (call : TreeCall K V) :
    ∃ t', t.call call = .ok (t', (mapCall m call).2) ∧ Represents t' (mapCall m call).1 := by
  cases call with
  | insert key value => exact represents.insert key value
  | remove key => exact represents.remove key
  | getValue key =>
    obtain ⟨run, same⟩ := represents.getValue key
    exact ⟨t, run, same ▸ represents⟩

/-- **A run refines the map**, from any tree that represents it. -/
theorem Represents.run : ∀ (calls : List (TreeCall K V)) {t : BPlusTree K V} {m : K → Option V},
    Represents t m → ∃ t', treeRun t calls = .ok (t', (mapRun m calls).2) ∧
      Represents t' (mapRun m calls).1
  | [], t, _, represents => ⟨t, rfl, represents⟩
  | call :: calls, _, _, represents => by
      obtain ⟨t1, first, represents1⟩ := represents.call call
      obtain ⟨t2, rest, represents2⟩ := represents1.run calls
      exact ⟨t2, by simp [treeRun, first, rest, bind, Except.bind, pure, Except.pure, mapRun],
        represents2⟩

end Refines

/-- The empty tree `Init` makes, with at least 2 entries a leaf and 4 slots an internal page,
is valid. -/
theorem valid_empty {leafMaxSize internalMaxSize : Nat} (leafMin : 2 ≤ leafMaxSize)
    (internalMin : 4 ≤ internalMaxSize) (nextPageId : Nat) :
    Valid (BPlusTree.empty leafMaxSize internalMaxSize nextPageId : BPlusTree K V) :=
  ⟨⟨fun _ => ⟨0, none, none⟩, ⟨fun _ present => absurd rfl present, fun _ _ => rfl,
    .inl ⟨rfl, fun _ => rfl⟩, fun _ _ => le_rfl, Nat.zero_le _, fun _ _ stored => (nomatch stored)⟩⟩,
    fun _ _ stored => (nomatch stored), leafMin, internalMin⟩

/-- The empty tree holds the empty map. -/
theorem represents_empty {leafMaxSize internalMaxSize : Nat} (leafMin : 2 ≤ leafMaxSize)
    (internalMin : 4 ≤ internalMaxSize) (nextPageId : Nat) :
    Represents (BPlusTree.empty leafMaxSize internalMaxSize nextPageId : BPlusTree K V)
      (fun _ => none) :=
  ⟨valid_empty leafMin internalMin nextPageId, fun _ _ =>
    ⟨fun ⟨_, _, stored, _⟩ => (nomatch stored), fun found => (nomatch found)⟩⟩

/-- **The tree refines the finite map.** From the empty tree, every sequence of `Insert`,
`Remove` and `GetValue` runs to its end with the replies of the map, and the last tree holds
exactly the last map's entries. -/
theorem treeRun_refines_map {leafMaxSize internalMaxSize : Nat} (leafMin : 2 ≤ leafMaxSize)
    (internalMin : 4 ≤ internalMaxSize) (nextPageId : Nat) (calls : List (TreeCall K V)) :
    ∃ t, treeRun (BPlusTree.empty leafMaxSize internalMaxSize nextPageId) calls =
        .ok (t, (mapRun (fun _ => none) calls).2) ∧
      ∀ key value, Holds t key value ↔ (mapRun (fun _ => none) calls).1 key = some value := by
  obtain ⟨t, run, represents⟩ :=
    Represents.run calls (represents_empty leafMin internalMin nextPageId)
  exact ⟨t, run, represents.holds⟩

theorem treeRun_refines_map_two_calls :
    (2 ≤ 3 ∧ 4 ≤ 4) ∧ ∃ t, treeRun (BPlusTree.empty 3 4 1 : BPlusTree Nat Nat)
        [.insert 5 50, .getValue 5] = .ok (t, (mapRun (fun _ => none) [.insert 5 50, .getValue 5]).2) ∧
      ∀ key value, Holds t key value ↔
        (mapRun (fun _ => none) [.insert 5 50, .getValue 5]).1 key = some value :=
  ⟨⟨by decide, by decide⟩, treeRun_refines_map (by decide) (by decide) 1 _⟩

/-! ## The trees the calls reach -/

/-- The trees that `Insert` and `Remove` reach from the empty tree `Init` makes (`GetValue`
changes no page). -/
inductive Reachable : BPlusTree K V → Prop
  | empty {leafMaxSize internalMaxSize : Nat} (nextPageId : Nat) :
      2 ≤ leafMaxSize → 4 ≤ internalMaxSize →
      Reachable (BPlusTree.empty leafMaxSize internalMaxSize nextPageId)
  | insert {t t' : BPlusTree K V} {key : K} {value : V} {fresh : Bool} :
      Reachable t → t.insert key value = .ok (t', fresh) → Reachable t'
  | remove {t t' : BPlusTree K V} {key : K} :
      Reachable t → t.remove key = .ok t' → Reachable t'

section Reachable

variable {t : BPlusTree K V}

/-- Every reachable tree is valid. -/
theorem Reachable.valid (reach : Reachable t) : Valid t := by
  induction reach with
  | empty nextPageId leafMin internalMin => exact valid_empty leafMin internalMin nextPageId
  | @insert t t' key value fresh _ run inductionHypothesis =>
      obtain ⟨_, _, run', valid', -⟩ := insert_spec inductionHypothesis key value
      rw [run] at run'
      cases run'
      exact valid'
  | @remove t t' key _ run inductionHypothesis =>
      obtain ⟨_, run', valid', -⟩ := remove_spec inductionHypothesis key
      rw [run] at run'
      cases run'
      exact valid'

/-- `Insert` on the empty tree reaches the tree of one root leaf `StartNewTree` makes. -/
theorem Reachable.startNewTree {leafMaxSize internalMaxSize : Nat} (leafMin : 2 ≤ leafMaxSize)
    (internalMin : 4 ≤ internalMaxSize) (nextPageId : Nat) (key : K) (value : V) :
    Reachable ((BPlusTree.empty leafMaxSize internalMaxSize nextPageId).startNewTree key value) :=
  .insert (.empty nextPageId leafMin internalMin)
    (show (BPlusTree.empty leafMaxSize internalMaxSize nextPageId).insert key value = .ok (_, true)
      by simp [BPlusTree.insert, BPlusTree.isEmpty, BPlusTree.empty])

/-- A call from a reachable tree reaches a reachable tree: `GetValue` changes no page. -/
theorem Reachable.call (reach : Reachable t) {call : TreeCall K V} {t' : BPlusTree K V}
    {reply : TreeReply V} (called : t.call call = .ok (t', reply)) : Reachable t' := by
  cases call with
  | insert key value =>
      cases inserted : t.insert key value with
      | error => simp [BPlusTree.call, inserted, Except.map] at called
      | ok result =>
          simp only [BPlusTree.call, inserted, Except.map, Except.ok.injEq, Prod.mk.injEq] at called
          exact called.1 ▸ reach.insert inserted
  | remove key =>
      cases removed : t.remove key with
      | error => simp [BPlusTree.call, removed, Except.map] at called
      | ok result =>
          simp only [BPlusTree.call, removed, Except.map, Except.ok.injEq, Prod.mk.injEq] at called
          exact called.1 ▸ reach.remove removed
  | getValue key =>
      cases found : t.getValue key with
      | error => simp [BPlusTree.call, found, Except.map] at called
      | ok value =>
          simp only [BPlusTree.call, found, Except.map, Except.ok.injEq, Prod.mk.injEq] at called
          exact called.1 ▸ reach

/-- A run of calls from a reachable tree reaches a reachable tree. -/
theorem Reachable.run : ∀ (calls : List (TreeCall K V)) {t t' : BPlusTree K V}
    {replies : List (TreeReply V)}, Reachable t → treeRun t calls = .ok (t', replies) →
      Reachable t'
  | [], _, _, _, reach, ran => by
      cases ran
      exact reach
  | call :: calls, t, _, _, reach, ran => by
      cases called : t.call call with
      | error => simp [treeRun, called, bind, Except.bind] at ran
      | ok result =>
          cases rest : treeRun result.1 calls with
          | error => simp [treeRun, called, rest, bind, Except.bind] at ran
          | ok last =>
              simp only [treeRun, called, rest, bind, Except.bind, pure, Except.pure,
                Except.ok.injEq, Prod.mk.injEq] at ran
              exact ran.1 ▸ Reachable.run calls (reach.call called) rest

/-- Whether the run of `calls` from `t` ends, in a tree that `test` accepts. Written to be
evaluated, so that the tree a long run builds can be checked by the kernel. -/
def treeRunEndsIn (t : BPlusTree K V) (calls : List (TreeCall K V))
    (test : BPlusTree K V → Bool) : Bool :=
  match treeRun t calls with
  | .ok (t', _) => test t'
  | .error _ => false

/-- A run from a reachable tree that ends in a tree of which `P` evaluates to true reaches a
reachable tree of which `P` holds. -/
theorem Reachable.exists_of_treeRunEndsIn_from (reach : Reachable t) (calls : List (TreeCall K V))
    {P : BPlusTree K V → Prop} [DecidablePred P]
    (ends : treeRunEndsIn t calls (fun t => decide (P t)) = true) :
    ∃ t' replies, treeRun t calls = .ok (t', replies) ∧ P t' ∧ Reachable t' := by
  unfold treeRunEndsIn at ends
  split at ends
  · rename_i t' replies ran
    exact ⟨t', replies, ran, of_decide_eq_true ends, Reachable.run calls reach ran⟩
  · cases ends

/-- A run from the empty tree that ends in a tree of which `P` evaluates to true reaches a tree
of which `P` holds, and every property `Q` of the reachable trees holds of it too. -/
theorem Reachable.exists_of_treeRunEndsIn (leafMaxSize internalMaxSize nextPageId : Nat)
    (calls : List (TreeCall K V)) {P Q : BPlusTree K V → Prop} [DecidablePred P]
    (leafMin : 2 ≤ leafMaxSize) (internalMin : 4 ≤ internalMaxSize)
    (reachable : ∀ t, Reachable t → Q t)
    (ends : treeRunEndsIn (BPlusTree.empty leafMaxSize internalMaxSize nextPageId) calls
      (fun t => decide (P t)) = true) :
    ∃ t replies, treeRun (BPlusTree.empty leafMaxSize internalMaxSize nextPageId) calls =
      .ok (t, replies) ∧ P t ∧ Q t := by
  obtain ⟨t, replies, ran, holds, reach⟩ :=
    (Reachable.empty nextPageId leafMin internalMin).exists_of_treeRunEndsIn_from calls ends
  exact ⟨t, replies, ran, holds, reachable t reach⟩

/-- A run of two call lists is the run of the first, continued from the tree it stops in. -/
theorem treeRun_append (t : BPlusTree K V) (calls calls' : List (TreeCall K V)) :
    treeRun t (calls ++ calls') = (treeRun t calls).bind fun (t', replies) =>
      (treeRun t' calls').map fun (t'', replies') => (t'', replies ++ replies') := by
  induction calls generalizing t with
  | nil =>
      simp only [List.nil_append, treeRun, Except.bind]
      cases treeRun t calls' <;> rfl
  | cons call calls inductionHypothesis =>
      rw [List.cons_append]
      simp only [treeRun, inductionHypothesis]
      cases t.call call with
      | error => rfl
      | ok result =>
          simp only [bind, Except.bind]
          cases treeRun result.1 calls with
          | error => rfl
          | ok rest =>
              cases ran : treeRun rest.1 calls' <;> simp [ran, Except.map, pure, Except.pure]

theorem treeRun_append_of_ok {t t' t'' : BPlusTree K V} {calls calls' : List (TreeCall K V)}
    {replies replies' : List (TreeReply V)} (ran : treeRun t calls = .ok (t', replies))
    (ran' : treeRun t' calls' = .ok (t'', replies')) :
    treeRun t (calls ++ calls') = .ok (t'', replies ++ replies') := by
  rw [treeRun_append, ran]
  simp only [Except.bind, ran', Except.map]

/-- A reachable tree stores pages at ids from 0 to below `nextPageId` only. -/
theorem Reachable.pageId_bounds (reach : Reachable t) {pageId : Int}
    (present : t.pages pageId ≠ none) : 0 ≤ pageId ∧ pageId < t.nextPageId := by
  obtain ⟨⟨place, linked⟩, -⟩ := reach.valid
  exact ⟨linked.valid pageId present, not_le.1 fun above => present (linked.fresh pageId above)⟩

/-- A reachable tree is every tree with its sizes, root and next page id and its pages at the
ids below `nextPageId` that holds no page elsewhere. -/
theorem Reachable.eq_of_pages_below (reach : Reachable t) {t' : BPlusTree K V}
    (leafMax : t'.leafMaxSize = t.leafMaxSize) (internalMax : t'.internalMaxSize = t.internalMaxSize)
    (root : t'.rootPageId = t.rootPageId) (next : t'.nextPageId = t.nextPageId)
    (below : ∀ pageId : Nat, pageId < t.nextPageId → t'.pages pageId = t.pages pageId)
    (outside : ∀ pageId : Int, pageId < 0 ∨ t.nextPageId ≤ pageId → t'.pages pageId = none) :
    t' = t := by
  have pages : t'.pages = t.pages := funext fun pageId => by
    by_cases inside : 0 ≤ pageId ∧ pageId < t.nextPageId
    · obtain ⟨n, rfl⟩ := Int.eq_ofNat_of_zero_le inside.1
      exact below n (by omega)
    · rw [outside pageId (by omega), eq_comm, ← Option.not_isSome_iff_eq_none]
      exact fun present => inside (reach.pageId_bounds (Option.isSome_iff_ne_none.1 present))
  calc t' = ⟨t'.leafMaxSize, t'.internalMaxSize, t'.rootPageId, t'.pages, t'.nextPageId⟩ := rfl
    _ = ⟨t.leafMaxSize, t.internalMaxSize, t.rootPageId, t.pages, t.nextPageId⟩ := by
      rw [leafMax, internalMax, root, pages, next]
    _ = t := rfl

/-- `Insert(10 · k, k)` for `k = 1, …, n`: the ascending inserts the witnesses below run. With
leaves of at most two entries they build a tree of three levels from six keys. -/
def ascendingInserts (n : Nat) : List (TreeCall Nat Nat) :=
  (List.range n).map fun k => .insert (10 * (k + 1)) (k + 1)

/-- A store written as a table of pages by id. -/
def pagesOf (table : List (Int × BPlusTreePage K V)) (pageId : Int) : Option (BPlusTreePage K V) :=
  table.lookup pageId

/-- The tree of three ascending inserts: the root `3` over the leaves `1` and `2`. -/
def threeInsertTree : BPlusTree Nat Nat :=
  ⟨2, 4, 3, pagesOf [(1, .leaf ⟨3, 2, [(10, 1)]⟩), (2, .leaf ⟨3, -1, [(20, 2), (30, 3)]⟩),
    (3, .internal ⟨-1, [(0, 1), (20, 2)]⟩)], 4⟩

/-- The tree of six ascending inserts, three levels deep: the root `8` over the internal pages `3`
and `7`, the first over the leaves `1` and `2`, the second over the leaves `4`, `5` and `6`. -/
def sixInsertTree : BPlusTree Nat Nat :=
  ⟨2, 4, 8, pagesOf [(1, .leaf ⟨3, 2, [(10, 1)]⟩), (2, .leaf ⟨3, 4, [(20, 2)]⟩),
    (3, .internal ⟨8, [(0, 1), (20, 2)]⟩), (4, .leaf ⟨7, 5, [(30, 3)]⟩),
    (5, .leaf ⟨7, 6, [(40, 4)]⟩), (6, .leaf ⟨7, -1, [(50, 5), (60, 6)]⟩),
    (7, .internal ⟨8, [(30, 4), (40, 5), (50, 6)]⟩), (8, .internal ⟨-1, [(0, 3), (30, 7)]⟩)], 9⟩

/-- Three ascending inserts from the empty tree reach `threeInsertTree`. -/
theorem treeRun_ascendingInserts_three :
    ∃ replies, treeRun (BPlusTree.empty 2 4 1) (ascendingInserts 3) = .ok (threeInsertTree, replies) ∧
      Reachable threeInsertTree := by
  obtain ⟨t, replies, ran, ⟨leafMax, internalMax, root, next, below⟩, reach⟩ :=
    Reachable.exists_of_treeRunEndsIn 2 4 1 (ascendingInserts 3)
      (P := fun t : BPlusTree Nat Nat => t.leafMaxSize = 2 ∧ t.internalMaxSize = 4 ∧
        t.rootPageId = 3 ∧ t.nextPageId = 4 ∧
        ∀ pageId : Nat, pageId < 4 → threeInsertTree.pages pageId = t.pages pageId)
      (by decide) (by decide) (fun _ reach => reach) (by decide)
  have same := reach.eq_of_pages_below leafMax.symm internalMax.symm root.symm next.symm
    (next ▸ below) fun pageId range => List.lookup_eq_none_iff.2 (by simp; omega)
  exact ⟨replies, same ▸ ran, same ▸ reach⟩

/-- Six ascending inserts from the empty tree reach `sixInsertTree`: the last three run from
`threeInsertTree`. -/
theorem treeRun_ascendingInserts_six :
    ∃ replies, treeRun (BPlusTree.empty 2 4 1) (ascendingInserts 6) = .ok (sixInsertTree, replies) ∧
      Reachable sixInsertTree := by
  obtain ⟨replies, ran, reach⟩ := treeRun_ascendingInserts_three
  obtain ⟨t, replies', ran', ⟨leafMax, internalMax, root, next, below⟩, reach'⟩ :=
    reach.exists_of_treeRunEndsIn_from [.insert 40 4, .insert 50 5, .insert 60 6]
      (P := fun t : BPlusTree Nat Nat => t.leafMaxSize = 2 ∧ t.internalMaxSize = 4 ∧
        t.rootPageId = 8 ∧ t.nextPageId = 9 ∧
        ∀ pageId : Nat, pageId < 9 → sixInsertTree.pages pageId = t.pages pageId)
      (by decide)
  have same := reach'.eq_of_pages_below leafMax.symm internalMax.symm root.symm next.symm
    (next ▸ below) fun pageId range => List.lookup_eq_none_iff.2 (by simp; omega)
  refine ⟨replies ++ replies', ?_, same ▸ reach'⟩
  rw [show ascendingInserts 6 = ascendingInserts 3 ++ [.insert 40 4, .insert 50 5, .insert 60 6]
    from rfl, treeRun_append_of_ok ran ran', same]

/-- The shape the spec lists for a tree: the keys of every leaf ascend strictly, and so do the
keys of every internal page from slot 1 on; every key stored below slot `i` of an internal page
lies in `[key i, key (i + 1))`, with no bound below slot 0 or past the last slot; every leaf
descends from the root by one same depth, and by no other; every page but the root holds
between `GetMinSize()` and `GetMaxSize()` entries, a root leaf between 1 and its maximum and an
internal root between 2 and its maximum. -/
structure TreeShape (t : BPlusTree K V) : Prop where
  leafSorted : ∀ pageId leaf, t.pages pageId = some (.leaf leaf) →
    (leaf.array.map Prod.fst).Sorted (· < ·)
  internalSorted : ∀ pageId (node : BPlusTreeInternalPage K),
    t.pages pageId = some (.internal node) →
      ∀ i j, 1 ≤ i → i < j → j < node.array.length → keyOf node.array i < keyOf node.array j
  between : ∀ pageId (node : BPlusTreeInternalPage K), t.pages pageId = some (.internal node) →
    ∀ i < node.array.length, ∀ descendant depth key,
      Descends t (childOf node.array i) descendant depth → StoresKey t descendant key →
      InRange (if i = 0 then none else some (keyOf node.array i))
        (if i + 1 < node.array.length then some (keyOf node.array (i + 1)) else none) key
  leafDepth : ∃ depth, ∀ pageId leaf, t.pages pageId = some (.leaf leaf) →
    ∀ depth', Descends t t.rootPageId pageId depth' ↔ depth' = depth
  sized : ∀ pageId page, t.pages pageId = some page → pageId ≠ t.rootPageId →
    page.getMinSize t.leafMaxSize t.internalMaxSize ≤ page.getSize ∧
      page.getSize ≤ page.getMaxSize t.leafMaxSize t.internalMaxSize
  rootLeaf : ∀ leaf, t.pages t.rootPageId = some (.leaf leaf) →
    1 ≤ leaf.array.length ∧ leaf.array.length ≤ t.leafMaxSize
  rootInternal : ∀ node, t.pages t.rootPageId = some (.internal node) →
    2 ≤ node.array.length ∧ node.array.length ≤ t.internalMaxSize

/-- Parent pointers both ways: the root's parent is `INVALID_PAGE_ID`; every other page's
parent is an internal page whose slots list the page exactly once; every child an internal page
lists is a page whose parent is that page. -/
structure ParentPointers (t : BPlusTree K V) : Prop where
  root : ∀ page, t.pages t.rootPageId = some page → page.parentPageId = invalidPageId
  listedOnce : ∀ pageId page, t.pages pageId = some page → pageId ≠ t.rootPageId →
    ∃ parent, t.pages page.parentPageId = some (.internal parent) ∧
      (children parent.array).count pageId = 1
  pointsBack : ∀ pageId (node : BPlusTreeInternalPage K), t.pages pageId = some (.internal node) →
    ∀ child ∈ children node.array, ∃ page, t.pages child = some page ∧ page.parentPageId = pageId

theorem Valid.treeShape (valid : Valid t) : TreeShape t := by
  obtain ⟨⟨place, linked⟩, sized, -, -⟩ := valid
  refine ⟨fun pageId leaf stored => (linked.leaf pageId leaf stored).sorted,
    fun pageId node stored => (linked.internal pageId node stored).fence.keyOf_lt,
    fun pageId node stored i inside _ _ _ descends stores =>
      linked.storesKey_between stored inside descends stores,
    ⟨_, fun pageId leaf stored => linked.descends_leaf_iff stored⟩,
    fun pageId page stored _ => sized pageId page stored, fun leaf stored => ?_,
    fun node stored => ?_⟩
  · have root := (linked.isRoot _ _ stored).2 rfl
    simpa [PageSized, BPlusTreePage.getMinSize, root] using sized _ _ stored
  · have root := (linked.isRoot _ _ stored).2 rfl
    simpa [PageSized, BPlusTreePage.getMinSize, root] using sized _ _ stored

theorem Valid.parentPointers (valid : Valid t) : ParentPointers t := by
  obtain ⟨⟨place, linked⟩, -, -, -⟩ := valid
  refine ⟨fun page stored => (linked.isRoot _ page stored).2 rfl,
    fun pageId page stored notRoot => linked.listed_once stored notRoot,
    fun pageId node stored child member => ?_⟩
  obtain ⟨page, found, parent, -⟩ := linked.child stored member
  exact ⟨page, found, parent⟩

/-- **Every reachable tree has the spec's shape.** -/
theorem reachable_tree_shape (reach : Reachable t) : TreeShape t :=
  reach.valid.treeShape

/-- Six ascending inserts into an empty tree of leaves of at most two entries: the root `8`
routes to the internal pages `3` and `7`, and these to five leaves, so the separators bound the
keys on two levels and every leaf lies two slots below the root. -/
theorem reachable_tree_shape_three_levels :
    ∃ t replies, treeRun (BPlusTree.empty 2 4 1) (ascendingInserts 6) = .ok (t, replies) ∧
      (t.rootPageId = 8 ∧ t.pages 8 = some (.internal ⟨invalidPageId, [(0, 3), (30, 7)]⟩) ∧
        t.pages 7 = some (.internal ⟨8, [(30, 4), (40, 5), (50, 6)]⟩)) ∧ TreeShape t := by
  obtain ⟨replies, ran, reach⟩ := treeRun_ascendingInserts_six
  exact ⟨sixInsertTree, replies, ran, by decide, reachable_tree_shape reach⟩

/-- **Every reachable tree keeps its parent pointers both ways.** -/
theorem reachable_parent_pointers (reach : Reachable t) : ParentPointers t :=
  reach.valid.parentPointers

/-- The tree of six ascending inserts: the internal page `7` names the root as its parent and
the leaf `4` below it names `7`. -/
theorem reachable_parent_pointers_three_levels :
    ∃ t replies, treeRun (BPlusTree.empty 2 4 1) (ascendingInserts 6) = .ok (t, replies) ∧
      (t.pages 7 = some (.internal ⟨8, [(30, 4), (40, 5), (50, 6)]⟩) ∧
        t.pages 4 = some (.leaf ⟨7, 5, [(30, 3)]⟩)) ∧ ParentPointers t := by
  obtain ⟨replies, ran, reach⟩ := treeRun_ascendingInserts_six
  exact ⟨sixInsertTree, replies, ran, by decide, reachable_parent_pointers reach⟩

/-- `Insert` of a key a valid tree holds finds it in its leaf and returns `false` with no page
written. -/
theorem Valid.insert_of_holds (valid : Valid t) {key : K} {old : V} (held : Holds t key old)
    (value : V) : t.insert key value = .ok (t, false) := by
  obtain ⟨⟨place, linked⟩, sized, -, internalMin⟩ := valid
  have nonempty : t.rootPageId ≠ invalidPageId := by
    obtain ⟨pageId, _, present, -⟩ := id held
    exact linked.ne_invalid (linked.root_present (show t.pages pageId ≠ none by simp [present]))
  obtain ⟨X, leaf, foundLeaf, stored, inside⟩ :=
    findLeafPage_spec linked nonempty (sized.twoSlots internalMin) key
  have member := (linked.holds_iff_mem stored inside old).1 held
  have lookedUp :=
    (BPlusTreeLeafPage.lookup_eq_some_iff (linked.leaf X leaf stored).sorted key old).2 member
  have notEmpty : t.isEmpty = false := by simp [BPlusTree.isEmpty, nonempty]
  simp only [BPlusTree.insert, notEmpty, Bool.false_eq_true, if_false]
  exact insertIntoLeaf_of_present foundLeaf stored lookedUp value

/-- `Remove` of a key a valid tree does not hold filters nothing out of its leaf, finds the leaf
still at its minimum size, and writes it back as it was. -/
theorem Valid.remove_of_absent (valid : Valid t) {key : K} (absent : ∀ value, ¬ Holds t key value) :
    t.remove key = .ok t := by
  obtain ⟨⟨place, linked⟩, sized, -, internalMin⟩ := valid
  by_cases empty : t.rootPageId = invalidPageId
  · simp [BPlusTree.remove, BPlusTree.isEmpty, empty]
  obtain ⟨X, leaf, found, stored, -⟩ :=
    findLeafPage_spec linked empty (sized.twoSlots internalMin) key
  have kept : leaf.array.filter (fun entry => entry.1 ≠ key) = leaf.array :=
    List.filter_eq_self.2 fun entry member => decide_eq_true fun isKey =>
      absent entry.2 ⟨X, leaf, stored, by rw [← isKey]; exact member⟩
  have same : leaf.removeAndDeleteRecord key = leaf := by
    rw [BPlusTreeLeafPage.removeAndDeleteRecord_eq (linked.leaf X leaf stored).sorted, kept]
  have atLeast := (sized X _ stored).1
  simp only [BPlusTreePage.getSize_leaf] at atLeast
  rw [remove_eq empty found stored, same, if_neg (not_lt.2 atLeast), BPlusTree.writePage_self stored]

/-- **Calls that find nothing to do change nothing.** On every reachable tree, `Insert` of a key
the tree holds returns `false` and the tree as it was, whatever the value; `Remove` of a key
the tree does not hold returns the tree as it was. -/
theorem reachable_idle_calls_unchanged (reach : Reachable t) (key : K) :
    ((∃ old, Holds t key old) → ∀ value, t.insert key value = .ok (t, false)) ∧
      ((∀ value, ¬ Holds t key value) → t.remove key = .ok t) :=
  ⟨fun ⟨_, held⟩ => reach.valid.insert_of_holds held, reach.valid.remove_of_absent⟩

/-- `Insert(1, 20)` after `Insert(1, 10)`: `false`, and the tree as it was. -/
theorem reachable_idle_calls_unchanged_one_key :
    ((BPlusTree.empty 3 4 1 : BPlusTree Nat Nat).startNewTree 1 10).insert 1 20 =
      .ok ((BPlusTree.empty 3 4 1 : BPlusTree Nat Nat).startNewTree 1 10, false) :=
  (reachable_idle_calls_unchanged (Reachable.startNewTree (by decide) (by decide) 1 1 10) 1).1
    ⟨10, 1, ⟨invalidPageId, invalidPageId, [(1, 10)]⟩, by simp [BPlusTree.empty], by simp⟩ 20

end Reachable

end ScuDb.Index
