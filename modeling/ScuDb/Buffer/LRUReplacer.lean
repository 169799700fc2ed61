import Mathlib.Data.List.Perm.Basic
import Mathlib.Data.List.Nodup
import Mathlib.Data.List.Range

/-!
Contract: the `LRUReplacer<T>` of project1 (src/project/project1/scudb_initial/src/buffer/
lru_replacer.cpp, class and `Node` in project2's include/buffer/lru_replacer.h), and the recency
list it implements.

Owns: the node heap with the `head` and `tail` sentinels, the `hashmap` from values to nodes,
`Insert`, `Victim`, `Erase` and `Size` as the code runs them, the chain invariant `Wellformed`,
and the refinement of the four operations to a list of values, most recent first.

Does not own: the `latch` (calls are sequential here) and the buffer pool that uses the replacer
(`ScuDb.Buffer.BufferPoolManager`).

## Model

Every `make_shared<Node>` takes the next number of the node heap `nodes`; the constructor takes
`0` for `head` and `1` for `tail`. A `shared_ptr` field is `Option Nat`, null being `none`.
Dereferencing a null pointer makes the operation return `none`, so that "the operation returns"
is a statement about the pointers. The `unordered_map` is a list of entries with distinct keys,
read only through `find`, assignment, `erase` and `size`.

## Why a relational chain

`Linked nodes previous l` says what both pointers of every node of `l` are, without following
them. Taking a node out of the chain and pushing one right after `head` are then two lemmas
(`linked_unlink`, `linked_pushFront`), and `Insert`, `Victim` and `Erase` are instances of them.
-/

set_option linter.unusedSectionVars false

namespace ScuDb.Buffer

/-- A node of the list: `Node()` for the sentinels, `Node(val)` for the others. -/
structure Node (T : Type) where
  val : T
  prev : Option Nat
  next : Option Nat

/-- The sentinel node the constructor makes first. -/
def head : Nat := 0

/-- The sentinel node the constructor makes second. -/
def tail : Nat := 1

/-! ## Pointer assignments -/

section Pointers

variable {T : Type}

/-- `p->next = q`. -/
def setNext (nodes : Nat → Node T) (p : Nat) (q : Option Nat) : Nat → Node T :=
  Function.update nodes p { nodes p with next := q }

/-- `p->prev = q`. -/
def setPrev (nodes : Nat → Node T) (p : Nat) (q : Option Nat) : Nat → Node T :=
  Function.update nodes p { nodes p with prev := q }

variable {nodes : Nat → Node T} {p x : Nat} {q : Option Nat}

@[simp] theorem setNext_next : (setNext nodes p q x).next = if x = p then q else (nodes x).next := by
  rcases eq_or_ne x p with rfl | other <;> simp [setNext, *]

@[simp] theorem setNext_prev : (setNext nodes p q x).prev = (nodes x).prev := by
  rcases eq_or_ne x p with rfl | other <;> simp [setNext, *]

@[simp] theorem setNext_val : (setNext nodes p q x).val = (nodes x).val := by
  rcases eq_or_ne x p with rfl | other <;> simp [setNext, *]

@[simp] theorem setPrev_prev : (setPrev nodes p q x).prev = if x = p then q else (nodes x).prev := by
  rcases eq_or_ne x p with rfl | other <;> simp [setPrev, *]

@[simp] theorem setPrev_next : (setPrev nodes p q x).next = (nodes x).next := by
  rcases eq_or_ne x p with rfl | other <;> simp [setPrev, *]

@[simp] theorem setPrev_val : (setPrev nodes p q x).val = (nodes x).val := by
  rcases eq_or_ne x p with rfl | other <;> simp [setPrev, *]

theorem setNext_of_ne (other : x ≠ p) : setNext nodes p q x = nodes x :=
  Function.update_noteq other _ _

theorem setPrev_of_ne (other : x ≠ p) : setPrev nodes p q x = nodes x :=
  Function.update_noteq other _ _

end Pointers

/-! ## The chain -/

section Chain

variable {T : Type} {nodes : Nat → Node T}

/-- `Linked nodes previous l`: the nodes of `l` form a doubly linked chain in this order, the first
one's `prev` being `previous` and the last one's `next` null. -/
def Linked (nodes : Nat → Node T) : Option Nat → List Nat → Prop
  | _, [] => True
  | previous, b :: rest =>
      (nodes b).prev = previous ∧ (nodes b).next = rest.head? ∧ Linked nodes (some b) rest

@[simp] theorem linked_nil (previous : Option Nat) : Linked nodes previous [] := trivial

theorem linked_cons (previous : Option Nat) (b : Nat) (rest : List Nat) :
    Linked nodes previous (b :: rest) ↔
      (nodes b).prev = previous ∧ (nodes b).next = rest.head? ∧ Linked nodes (some b) rest :=
  Iff.rfl

/-- A chain reads only its own nodes. -/
theorem linked_congr {nodes' : Nat → Node T} {l : List Nat} (same : ∀ b ∈ l, nodes' b = nodes b)
    (previous : Option Nat) : Linked nodes' previous l ↔ Linked nodes previous l := by
  induction l generalizing previous with
  | nil => simp
  | cons b rest inductionHypothesis =>
      simp only [linked_cons, same b (List.mem_cons_self b rest),
        inductionHypothesis fun x member => same x (List.mem_cons_of_mem b member)]

theorem linked_setNext_of_not_mem {l : List Nat} {x : Nat} (outside : x ∉ l) (q : Option Nat)
    (previous : Option Nat) : Linked (setNext nodes x q) previous l ↔ Linked nodes previous l :=
  linked_congr (fun _ member => setNext_of_ne (ne_of_mem_of_not_mem member outside)) previous

theorem linked_setPrev_of_not_mem {l : List Nat} {x : Nat} (outside : x ∉ l) (q : Option Nat)
    (previous : Option Nat) : Linked (setPrev nodes x q) previous l ↔ Linked nodes previous l :=
  linked_congr (fun _ member => setPrev_of_ne (ne_of_mem_of_not_mem member outside)) previous

/-- Taking `c` out from between `p` and `m`: `p->next = m; m->prev = p`. -/
theorem linked_unlink {previous : Option Nat} {P N : List Nat} {p c m : Nat}
    (linked : Linked nodes previous (P ++ p :: c :: m :: N))
    (distinct : (P ++ p :: c :: m :: N).Nodup) :
    Linked (setPrev (setNext nodes p (some m)) m (some p)) previous (P ++ p :: m :: N) := by
  induction P generalizing previous with
  | nil =>
      simp only [List.nil_append, List.nodup_cons, List.mem_cons, not_or] at distinct
      obtain ⟨⟨-, pm, pN⟩, -, mN, -⟩ := distinct
      obtain ⟨prevP, -, -, -, -, nextM, rest⟩ := linked
      simp only [List.nil_append, linked_cons, setPrev_prev, setNext_prev, setPrev_next,
        setNext_next, if_neg pm, if_neg (Ne.symm pm), if_pos rfl, List.head?_cons]
      exact ⟨prevP, rfl, rfl, nextM, (linked_setPrev_of_not_mem mN _ _).2
        ((linked_setNext_of_not_mem pN _ _).2 rest)⟩
  | cons x P inductionHypothesis =>
      simp only [List.cons_append, List.nodup_cons, List.mem_append, List.mem_cons, not_or]
        at distinct
      obtain ⟨⟨-, xp, -, xm, -⟩, distinct⟩ := distinct
      obtain ⟨prevX, nextX, rest⟩ := linked
      refine ⟨?_, ?_, inductionHypothesis rest distinct⟩
      · simp only [setPrev_prev, setNext_prev, if_neg xm, prevX]
      · simp only [setPrev_next, setNext_next, if_neg xp, nextX]
        cases P <;> rfl

/-- Pushing `c` between `h` and its successor `f`, in the order of `Insert`:
`f->prev = c; c->next = f; h->next = c; c->prev = h`. -/
theorem linked_pushFront {previous : Option Nat} {L : List Nat} {h f c : Nat}
    (linked : Linked nodes previous (h :: f :: L)) (distinct : (h :: f :: L).Nodup)
    (outside : c ∉ h :: f :: L) :
    Linked (setPrev (setNext (setNext (setPrev nodes f (some c)) c (some f)) h (some c)) c (some h))
      previous (h :: c :: f :: L) := by
  simp only [List.nodup_cons, List.mem_cons, not_or] at distinct outside
  obtain ⟨⟨hf, hL⟩, fL, -⟩ := distinct
  obtain ⟨ch, cf, cL⟩ := outside
  obtain ⟨prevH, -, -, nextF, rest⟩ := linked
  simp only [linked_cons, setPrev_prev, setNext_prev, setPrev_next, setNext_next, ↓reduceIte,
    if_neg ch, if_neg (Ne.symm ch), if_neg cf, if_neg (Ne.symm cf), if_neg hf, if_neg (Ne.symm hf),
    List.head?_cons, prevH, nextF, true_and]
  rw [linked_setPrev_of_not_mem cL, linked_setNext_of_not_mem hL, linked_setNext_of_not_mem cL,
    linked_setPrev_of_not_mem fL]
  exact rest

/-- In a chain, a node points back to its predecessor. -/
theorem Linked.prev_eq {previous : Option Nat} {P N : List Nat} {p c : Nat}
    (linked : Linked nodes previous (P ++ p :: c :: N)) : (nodes c).prev = some p := by
  induction P generalizing previous with
  | nil => exact linked.2.2.1
  | cons x P inductionHypothesis => exact inductionHypothesis linked.2.2

/-- In a chain, a node points on to its successor. -/
theorem Linked.next_eq {previous : Option Nat} {P N : List Nat} {c m : Nat}
    (linked : Linked nodes previous (P ++ c :: m :: N)) : (nodes c).next = some m := by
  induction P generalizing previous with
  | nil => exact linked.2.1
  | cons x P inductionHypothesis => exact inductionHypothesis linked.2.2

/-- The nodes met by following `next` from `p`, up to `tail`, for at most `fuel` steps. -/
def walk (nodes : Nat → Node T) : Nat → Nat → List Nat
  | 0, _ => []
  | fuel + 1, p =>
      match (nodes p).next with
      | some q => if q = tail then [] else q :: walk nodes fuel q
      | none => []

/-- Following `next` from the start of a chain that ends in `tail` meets the chain's nodes. -/
theorem walk_of_linked {previous : Option Nat} {a : Nat} {ids : List Nat}
    (linked : Linked nodes previous (a :: (ids ++ [tail]))) (notTail : tail ∉ ids) {fuel : Nat}
    (enough : ids.length < fuel) : walk nodes fuel a = ids := by
  induction ids generalizing previous a fuel with
  | nil =>
      obtain ⟨fuel, rfl⟩ := Nat.exists_eq_add_of_lt enough
      simp [walk, linked.2.1]
  | cons x ids inductionHypothesis =>
      obtain ⟨fuel, rfl⟩ : ∃ fuel', fuel = fuel' + 1 := ⟨fuel - 1, by simp at enough; omega⟩
      have xTail : x ≠ tail := fun same => notTail (same ▸ List.mem_cons_self x ids)
      have shorter : ids.length < fuel := by simpa using enough
      have nextA : (nodes a).next = some x := linked.2.1
      simp only [walk, nextA, if_neg xTail]
      rw [inductionHypothesis linked.2.2 (fun member => notTail (List.mem_cons_of_mem x member))
        shorter]

end Chain

/-! ## The `unordered_map` -/

section Hashmap

variable {T : Type} [DecidableEq T] {value v : T} {p : Nat} {hashmap : List (T × Nat)}

/-- `hashmap.find(value)`, read through `hashmap[value]`. -/
def hashmapFind (value : T) (hashmap : List (T × Nat)) : Option Nat :=
  (hashmap.find? fun entry => entry.1 = value).map Prod.snd

/-- `hashmap[value] = p`. -/
def hashmapAssign (value : T) (p : Nat) (hashmap : List (T × Nat)) : List (T × Nat) :=
  (value, p) :: hashmap.filter fun entry => entry.1 ≠ value

/-- `hashmap.erase(value)`: the entries left and the number erased. -/
def hashmapErase (value : T) (hashmap : List (T × Nat)) : List (T × Nat) × Nat :=
  (hashmap.filter fun entry => entry.1 ≠ value, hashmap.countP fun entry => entry.1 = value)

theorem hashmapFind_eq_some_iff (keys : (hashmap.map Prod.fst).Nodup) :
    hashmapFind value hashmap = some p ↔ (value, p) ∈ hashmap := by
  simp only [hashmapFind, Option.map_eq_some']
  constructor
  · rintro ⟨entry, located, rfl⟩
    have key : entry.1 = value := by simpa using List.find?_some located
    simpa [← key] using List.mem_of_find?_eq_some located
  · intro member
    obtain ⟨entry, located⟩ : ∃ entry, hashmap.find? (fun entry => entry.1 = value) = some entry :=
      Option.isSome_iff_exists.1 (List.find?_isSome.2 ⟨(value, p), member, by simp⟩)
    have key : entry.1 = value := by simpa using List.find?_some located
    exact ⟨entry, located, by
      rw [List.inj_on_of_nodup_map keys (List.mem_of_find?_eq_some located) member key]⟩

theorem hashmapFind_eq_none_iff : hashmapFind value hashmap = none ↔ ∀ p, (value, p) ∉ hashmap := by
  simp only [hashmapFind, Option.map_eq_none', List.find?_eq_none, decide_eq_true_eq, Prod.forall]
  exact ⟨fun absent p member => absent _ _ member rfl,
    fun absent v p member key => absent p (key ▸ member)⟩

@[simp] theorem mem_hashmapAssign {entry : T × Nat} :
    entry ∈ hashmapAssign value p hashmap ↔ entry = (value, p) ∨ entry ∈ hashmap ∧ entry.1 ≠ value := by
  simp [hashmapAssign]

@[simp] theorem mem_hashmapErase {entry : T × Nat} :
    entry ∈ (hashmapErase value hashmap).1 ↔ entry ∈ hashmap ∧ entry.1 ≠ value := by
  simp [hashmapErase]

theorem hashmapErase_count_eq_zero_iff :
    (hashmapErase value hashmap).2 = 0 ↔ ∀ p, (value, p) ∉ hashmap := by
  simp only [hashmapErase, List.countP_eq_zero, decide_eq_true_eq]
  exact ⟨fun absent p member => absent _ member rfl,
    fun absent entry member key => absent entry.2 (key ▸ member)⟩

theorem keys_filter_nodup (keys : (hashmap.map Prod.fst).Nodup) (keep : T × Nat → Bool) :
    ((hashmap.filter keep).map Prod.fst).Nodup :=
  keys.sublist ((List.filter_sublist _).map _)

theorem keys_hashmapAssign_nodup (keys : (hashmap.map Prod.fst).Nodup) :
    ((hashmapAssign value p hashmap).map Prod.fst).Nodup := by
  refine List.nodup_cons.2 ⟨?_, keys_filter_nodup keys _⟩
  simp

end Hashmap

/-! ## The replacer -/

/-- `LRUReplacer<T>`: the node heap, the number of nodes made so far (the next
`make_shared<Node>` takes that number), and `hashmap`. -/
structure LRUReplacer (T : Type) where
  nodes : Nat → Node T
  fresh : Nat
  hashmap : List (T × Nat)

section Operations

variable {T : Type} [DecidableEq T] [Inhabited T]

/-- The constructor: `head->next = tail; tail->prev = head`. -/
def LRUReplacer.init : LRUReplacer T where
  nodes p :=
    if p = head then ⟨default, none, some tail⟩
    else if p = tail then ⟨default, some head, none⟩
    else ⟨default, none, none⟩
  fresh := 2
  hashmap := []

/-- `cur->prev->next = cur->next; cur->next->prev = cur->prev`, as `Insert` and `Erase` do it. -/
def unlink (nodes : Nat → Node T) (cur : Nat) : Option (Nat → Node T) := do
  let prevPtr ← (nodes cur).prev
  let nextPtr ← (nodes cur).next
  pure (setPrev (setNext nodes prevPtr (some nextPtr)) nextPtr (some prevPtr))

/-- The end of `Insert`: `firstPtr = head->next`, then the four assignments putting `cur` first. -/
def pushFront (nodes : Nat → Node T) (cur : Nat) : Option (Nat → Node T) :=
  (nodes head).next.map fun firstPtr =>
    setPrev (setNext (setNext (setPrev nodes firstPtr (some cur)) cur (some firstPtr)) head
      (some cur)) cur (some head)

/-- `Insert(value)`: unlink the node of `value` if `hashmap` has one, else make a node; push it
after `head` and record it in `hashmap`. -/
def LRUReplacer.insert (s : LRUReplacer T) (value : T) : Option (LRUReplacer T) :=
  match hashmapFind value s.hashmap with
  | some curPtr =>
      (unlink s.nodes curPtr >>= fun nodes => pushFront nodes curPtr).map fun nodes =>
        { s with nodes := nodes, hashmap := hashmapAssign value curPtr s.hashmap }
  | none =>
      (pushFront (Function.update s.nodes s.fresh ⟨value, none, none⟩) s.fresh).map fun nodes =>
        { nodes := nodes, fresh := s.fresh + 1, hashmap := hashmapAssign value s.fresh s.hashmap }

/-- `Victim(value)`: `false`, with `value` untouched, when `head->next == tail`; otherwise the
value of `last = tail->prev`, after `last->prev->next = tail; tail->prev = last->prev` and
`hashmap.erase(last->val)`. -/
def LRUReplacer.victim (s : LRUReplacer T) (value : T) : Option (Bool × T × LRUReplacer T) :=
  if (s.nodes head).next = some tail then some (false, value, s)
  else do
    let last ← (s.nodes tail).prev
    let lastPrev ← (s.nodes last).prev
    pure (true, (s.nodes last).val,
      { s with
        nodes := setPrev (setNext s.nodes lastPrev (some tail)) tail (some lastPrev)
        hashmap := (hashmapErase (s.nodes last).val s.hashmap).1 })

/-- `Erase(value)`: unlink the node of `value` if `hashmap` has one; return whether
`hashmap.erase(value)` erased an entry. -/
def LRUReplacer.erase (s : LRUReplacer T) (value : T) : Option (Bool × LRUReplacer T) :=
  match hashmapFind value s.hashmap with
  | some cur =>
      (unlink s.nodes cur).map fun nodes =>
        ((hashmapErase value s.hashmap).2 != 0,
          { s with nodes := nodes, hashmap := (hashmapErase value s.hashmap).1 })
  | none =>
      some ((hashmapErase value s.hashmap).2 != 0,
        { s with hashmap := (hashmapErase value s.hashmap).1 })

/-- `Size()`: `hashmap.size()`. -/
def LRUReplacer.size (s : LRUReplacer T) : Nat := s.hashmap.length

/-- The values of the nodes `ids`, in order. -/
def valuesOf (nodes : Nat → Node T) (ids : List Nat) : List T :=
  ids.map fun p => (nodes p).val

/-- The values read by following `next` from `head` to `tail`, most recently used first. At most
`fresh` nodes exist, so `fresh` steps reach `tail`. -/
def LRUReplacer.recencyList (s : LRUReplacer T) : List T :=
  valuesOf s.nodes (walk s.nodes s.fresh head)

end Operations

/-! ## The invariant -/

section Invariant

variable {T : Type} [DecidableEq T] [Inhabited T]

/-- The replacer's list holds the nodes `ids` between the sentinels. -/
structure Wellformed (s : LRUReplacer T) (ids : List Nat) : Prop where
  /-- `head`, `ids` and `tail` form the chain, with `head->prev` and `tail->next` null. -/
  linked : Linked s.nodes none (head :: (ids ++ [tail]))
  /-- The nodes between the sentinels were made by `Insert`. -/
  allocated : ∀ p ∈ ids, 2 ≤ p ∧ p < s.fresh
  sentinels : 2 ≤ s.fresh
  distinct : (valuesOf s.nodes ids).Nodup
  keysDistinct : (s.hashmap.map Prod.fst).Nodup
  /-- `hashmap` maps exactly the values of the list, each to the node holding it. -/
  entries : ∀ v p, (v, p) ∈ s.hashmap ↔ p ∈ ids ∧ (s.nodes p).val = v

/-- The replacer is in a state its operations keep. -/
def LRUReplacer.Valid (s : LRUReplacer T) : Prop := ∃ ids, Wellformed s ids

@[simp] theorem valuesOf_nil (nodes : Nat → Node T) : valuesOf nodes [] = [] := rfl

@[simp] theorem valuesOf_cons (nodes : Nat → Node T) (p : Nat) (ids : List Nat) :
    valuesOf nodes (p :: ids) = (nodes p).val :: valuesOf nodes ids := rfl

@[simp] theorem valuesOf_append (nodes : Nat → Node T) (ids ids' : List Nat) :
    valuesOf nodes (ids ++ ids') = valuesOf nodes ids ++ valuesOf nodes ids' :=
  List.map_append _ _ _

theorem mem_valuesOf {nodes : Nat → Node T} {ids : List Nat} {v : T} :
    v ∈ valuesOf nodes ids ↔ ∃ p ∈ ids, (nodes p).val = v :=
  List.mem_map

/-- Pointer assignments leave the values alone. -/
theorem valuesOf_congr {nodes nodes' : Nat → Node T} (same : ∀ p, (nodes' p).val = (nodes p).val)
    (ids : List Nat) : valuesOf nodes' ids = valuesOf nodes ids := by
  simp [valuesOf, same]

variable {s : LRUReplacer T} {ids : List Nat}

theorem Wellformed.ids_nodup (wellformed : Wellformed s ids) : ids.Nodup :=
  List.Nodup.of_map _ wellformed.distinct

theorem Wellformed.chain_nodup (wellformed : Wellformed s ids) : (head :: (ids ++ [tail])).Nodup := by
  have above := wellformed.allocated
  have headOut : head ∉ ids := fun member => by have := above head member; simp [head] at this
  have tailOut : tail ∉ ids := fun member => by have := above tail member; simp [tail] at this
  refine List.nodup_cons.2 ⟨?_, List.nodup_append.2 ⟨wellformed.ids_nodup, List.nodup_singleton _,
    List.disjoint_singleton.2 tailOut⟩⟩
  simp only [List.mem_append, List.mem_singleton, not_or]
  exact ⟨headOut, by simp [head, tail]⟩

theorem Wellformed.fresh_not_mem (wellformed : Wellformed s ids) :
    s.fresh ∉ head :: (ids ++ [tail]) := by
  have := wellformed.sentinels
  simp only [List.cons_append, List.mem_cons, List.mem_append, List.mem_singleton, not_or]
  exact ⟨by simp [head]; omega, fun member => by have := wellformed.allocated _ member; omega,
    by simp [tail]; omega⟩

theorem Wellformed.length_lt (wellformed : Wellformed s ids) : ids.length < s.fresh := by
  have inside : ids ⊆ List.range' 2 (s.fresh - 2) := fun p member => by
    have := wellformed.allocated p member
    simp only [List.mem_range'_1]; omega
  have := (List.subperm_of_subset wellformed.ids_nodup inside).length_le
  simp only [List.length_range'] at this
  have := wellformed.sentinels
  omega

theorem Wellformed.recencyList_eq (wellformed : Wellformed s ids) :
    s.recencyList = valuesOf s.nodes ids := by
  have tailOut : tail ∉ ids := fun member => by
    have := wellformed.allocated tail member; simp [tail] at this
  rw [LRUReplacer.recencyList, walk_of_linked wellformed.linked tailOut wellformed.length_lt]

/-- The value of a node of the list has the node as its `hashmap` entry. -/
theorem Wellformed.val_eq_iff (wellformed : Wellformed s ids) {p p' : Nat} (member : p ∈ ids)
    (member' : p' ∈ ids) : (s.nodes p).val = (s.nodes p').val ↔ p = p' :=
  ⟨fun same => List.inj_on_of_nodup_map wellformed.distinct member member' same,
    fun same => same ▸ rfl⟩

/-- The entries of the values other than that of `c`, the node at `A ++ c :: B`, are those of
the nodes `A ++ B`. -/
theorem Wellformed.entries_erase {A B : List Nat} {c : Nat} (wellformed : Wellformed s (A ++ c :: B))
    (v : T) (p : Nat) :
    ((v, p) ∈ s.hashmap ∧ v ≠ (s.nodes c).val) ↔ p ∈ A ++ B ∧ (s.nodes p).val = v := by
  have cIn : c ∈ A ++ c :: B := by simp
  rw [wellformed.entries]
  constructor
  · rintro ⟨⟨member, rfl⟩, other⟩
    have : p ≠ c := fun same => other (same ▸ rfl)
    simp only [List.mem_append, List.mem_cons] at member
    exact ⟨by simp only [List.mem_append]; tauto, rfl⟩
  · rintro ⟨member, rfl⟩
    have pIn : p ∈ A ++ c :: B := by simp only [List.mem_append, List.mem_cons] at member ⊢; tauto
    have nodup := wellformed.ids_nodup
    rw [List.nodup_middle, List.nodup_cons] at nodup
    refine ⟨⟨pIn, rfl⟩, fun same => nodup.1 ?_⟩
    rwa [← (wellformed.val_eq_iff pIn cIn).1 same]

/-- Around a node `c` of the list: its neighbours `p` and `m`, and the chain once `c` is taken out. -/
theorem Wellformed.around {A B : List Nat} {c : Nat} (wellformed : Wellformed s (A ++ c :: B)) :
    ∃ P p m N, head :: A = P ++ [p] ∧ B ++ [tail] = m :: N ∧
      (s.nodes c).prev = some p ∧ (s.nodes c).next = some m ∧
      Linked (setPrev (setNext s.nodes p (some m)) m (some p)) none (head :: (A ++ B ++ [tail])) := by
  obtain ⟨P, p, split⟩ : ∃ P p, head :: A = P ++ [p] := by
    rcases List.eq_nil_or_concat (head :: A) with empty | ⟨P, p, split⟩
    · exact absurd empty (List.cons_ne_nil _ _)
    · exact ⟨P, p, by simpa using split⟩
  obtain ⟨m, N, split'⟩ : ∃ m N, B ++ [tail] = m :: N := by
    cases B <;> simp
  have chain : head :: (A ++ c :: B ++ [tail]) = P ++ p :: c :: m :: N := by
    rw [List.append_assoc, List.cons_append, split', ← List.cons_append, split, List.append_assoc,
      List.singleton_append]
  have chain' : head :: (A ++ B ++ [tail]) = P ++ p :: m :: N := by
    rw [List.append_assoc, split', ← List.cons_append, split, List.append_assoc,
      List.singleton_append]
  have linked := wellformed.linked
  have nodup := wellformed.chain_nodup
  rw [chain] at linked nodup
  exact ⟨P, p, m, N, split, split', linked.prev_eq, (List.append_assoc P [p] _ ▸ linked).next_eq,
    chain' ▸ linked_unlink linked nodup⟩

/-- `pushFront` after `head` of a chain `head :: (ids ++ [tail])` puts `c` first. -/
theorem pushFront_spec {nodes : Nat → Node T} {ids : List Nat} {c : Nat}
    (linked : Linked nodes none (head :: (ids ++ [tail]))) (distinct : (head :: (ids ++ [tail])).Nodup)
    (outside : c ∉ head :: (ids ++ [tail])) :
    ∃ nodes', pushFront nodes c = some nodes' ∧ (∀ p, (nodes' p).val = (nodes p).val) ∧
      Linked nodes' none (head :: (c :: ids ++ [tail])) := by
  obtain ⟨f, L, split⟩ : ∃ f L, ids ++ [tail] = f :: L := by cases ids <;> simp
  rw [split] at linked distinct outside
  refine ⟨setPrev (setNext (setNext (setPrev nodes f (some c)) c (some f)) head (some c)) c
    (some head), by simp [pushFront, linked.2.1], fun p => by simp, ?_⟩
  rw [List.cons_append, split]
  exact linked_pushFront linked distinct outside

/-- The chain with the node `c` of `A ++ c :: B` left out is still free of repetitions, and
`c` is not on it. -/
theorem Wellformed.without {A B : List Nat} {c : Nat} (wellformed : Wellformed s (A ++ c :: B)) :
    (head :: (A ++ B ++ [tail])).Nodup ∧ c ∉ head :: (A ++ B ++ [tail]) := by
  have nodup := wellformed.chain_nodup
  have shape : head :: (A ++ c :: B ++ [tail]) = (head :: A) ++ c :: (B ++ [tail]) := by simp
  rw [shape, List.nodup_middle, List.nodup_cons] at nodup
  have shape' : head :: (A ++ B ++ [tail]) = (head :: A) ++ (B ++ [tail]) := by simp
  rw [shape']
  exact ⟨nodup.2, nodup.1⟩

/-- Leaving out the node `c` leaves out its value. -/
theorem Wellformed.erase_values {A B : List Nat} {c : Nat} (wellformed : Wellformed s (A ++ c :: B)) :
    (valuesOf s.nodes (A ++ c :: B)).erase (s.nodes c).val = valuesOf s.nodes (A ++ B) := by
  have distinct := wellformed.distinct
  rw [valuesOf_append, valuesOf_cons, List.nodup_middle, List.nodup_cons, List.mem_append,
    not_or] at distinct
  rw [valuesOf_append, valuesOf_cons, List.erase_append_right _ distinct.1.1, List.erase_cons_head,
    valuesOf_append]

theorem Wellformed.size_eq (wellformed : Wellformed s ids) : s.size = ids.length := by
  have members : ∀ v, v ∈ s.hashmap.map Prod.fst ↔ v ∈ valuesOf s.nodes ids := fun v => by
    simp only [List.mem_map, Prod.exists, exists_and_right, exists_eq_right, mem_valuesOf,
      wellformed.entries]
  have := ((List.perm_ext_iff_of_nodup wellformed.keysDistinct wellformed.distinct).2 members).length_eq
  simpa [LRUReplacer.size, valuesOf] using this

end Invariant

/-! ## The operations on the recency list -/

section Refinement

variable {T : Type} [DecidableEq T] [Inhabited T] {s : LRUReplacer T} {ids : List Nat}

theorem wellformed_init : Wellformed (LRUReplacer.init : LRUReplacer T) [] where
  linked := by simp [LRUReplacer.init, linked_cons, head, tail]
  allocated := by simp
  sentinels := le_refl 2
  distinct := List.nodup_nil
  keysDistinct := List.nodup_nil
  entries := by simp [LRUReplacer.init]

/-- `Insert` of a value on the list: its node is unlinked and pushed first. -/
theorem Wellformed.insert_present (wellformed : Wellformed s ids) {value : T} {c : Nat}
    (found : hashmapFind value s.hashmap = some c) :
    ∃ s' ids', s.insert value = some s' ∧ Wellformed s' ids' ∧
      valuesOf s'.nodes ids' = value :: (valuesOf s.nodes ids).erase value := by
  have entry := (hashmapFind_eq_some_iff wellformed.keysDistinct).1 found
  obtain ⟨member, valC⟩ := (wellformed.entries value c).1 entry
  obtain ⟨A, B, rfl⟩ := List.append_of_mem member
  obtain ⟨P, p, m, N, -, -, prevC, nextC, linked⟩ := wellformed.around
  obtain ⟨nodup, outside⟩ := wellformed.without
  obtain ⟨nodes, pushed, vals, linked'⟩ := pushFront_spec linked nodup outside
  have vals' : ∀ q, (nodes q).val = (s.nodes q).val := fun q => by simp [vals]
  refine ⟨{ s with nodes := nodes, hashmap := hashmapAssign value c s.hashmap }, c :: (A ++ B),
    by simp [LRUReplacer.insert, found, unlink, prevC, nextC, pushed],
    ⟨linked', fun q member => wellformed.allocated q ?_, wellformed.sentinels, ?_,
      keys_hashmapAssign_nodup wellformed.keysDistinct, fun v q => ?_⟩, ?_⟩
  · simp only [List.mem_cons, List.mem_append] at member ⊢; tauto
  · rw [valuesOf_congr vals']
    exact (List.perm_middle.map _).nodup_iff.1 wellformed.distinct
  · rw [mem_hashmapAssign, ← valC, wellformed.entries_erase, vals', List.mem_cons, Prod.mk.injEq]
    constructor
    · rintro (⟨rfl, rfl⟩ | ⟨member, rfl⟩) <;> simp [member]
    · rintro ⟨rfl | member, rfl⟩ <;> simp [member]
  · rw [valuesOf_congr vals', ← valC, wellformed.erase_values, valuesOf_cons]

/-- `Insert` of a value not on the list: a new node is made and pushed first. -/
theorem Wellformed.insert_absent (wellformed : Wellformed s ids) {value : T}
    (found : hashmapFind value s.hashmap = none) :
    ∃ s' ids', s.insert value = some s' ∧ Wellformed s' ids' ∧
      valuesOf s'.nodes ids' = value :: (valuesOf s.nodes ids).erase value := by
  have absent := hashmapFind_eq_none_iff.1 found
  have notIn : value ∉ valuesOf s.nodes ids := fun stored => by
    obtain ⟨q, member, rfl⟩ := mem_valuesOf.1 stored
    exact absent q ((wellformed.entries _ q).2 ⟨member, rfl⟩)
  have outside := wellformed.fresh_not_mem
  have linked : Linked (Function.update s.nodes s.fresh ⟨value, none, none⟩) none
      (head :: (ids ++ [tail])) :=
    (linked_congr (fun _ member => Function.update_noteq (ne_of_mem_of_not_mem member outside) _ _)
      none).2 wellformed.linked
  obtain ⟨nodes, pushed, vals, linked'⟩ := pushFront_spec linked wellformed.chain_nodup outside
  have valFresh : (nodes s.fresh).val = value := by simp [vals]
  have valsOld : valuesOf nodes ids = valuesOf s.nodes ids :=
    List.map_congr_left fun q member => by
      simp [vals, ne_of_mem_of_not_mem (List.mem_cons_of_mem _ (List.mem_append_left _ member)) outside]
  have oldFresh : ∀ q ∈ ids, q ≠ s.fresh := fun q member =>
    ne_of_mem_of_not_mem (List.mem_cons_of_mem _ (List.mem_append_left _ member)) outside
  refine ⟨{ nodes := nodes, fresh := s.fresh + 1, hashmap := hashmapAssign value s.fresh s.hashmap },
    s.fresh :: ids, by simp [LRUReplacer.insert, found, pushed],
    ⟨linked', fun q member => ?_, Nat.le_succ_of_le wellformed.sentinels, ?_,
      keys_hashmapAssign_nodup wellformed.keysDistinct, fun v q => ?_⟩, ?_⟩
  · rcases List.mem_cons.1 member with rfl | member
    · exact ⟨wellformed.sentinels, Nat.lt_succ_self _⟩
    · exact ⟨(wellformed.allocated q member).1, Nat.lt_succ_of_lt (wellformed.allocated q member).2⟩
  · rw [valuesOf_cons, valFresh, valsOld]
    exact List.nodup_cons.2 ⟨notIn, wellformed.distinct⟩
  · rw [mem_hashmapAssign, Prod.mk.injEq, List.mem_cons]
    constructor
    · rintro (⟨rfl, rfl⟩ | ⟨entry, -⟩)
      · exact ⟨Or.inl rfl, valFresh⟩
      · obtain ⟨member, rfl⟩ := (wellformed.entries v q).1 entry
        have := oldFresh q member
        exact ⟨Or.inr member, by simp [vals, this]⟩
    · rintro ⟨rfl | member, rfl⟩
      · exact Or.inl ⟨valFresh, rfl⟩
      · have := oldFresh q member
        have stored := (wellformed.entries (s.nodes q).val q).2 ⟨member, rfl⟩
        refine Or.inr ⟨by simpa [vals, this] using stored, fun same => absent q ?_⟩
        have same' : (s.nodes q).val = value := by simpa [vals, this] using same
        exact same' ▸ stored
  · rw [valuesOf_cons, valFresh, valsOld, List.erase_of_not_mem notIn]

/-- `Insert(value)` puts `value` first and removes its older occurrence. -/
theorem Wellformed.insert (wellformed : Wellformed s ids) (value : T) :
    ∃ s' ids', s.insert value = some s' ∧ Wellformed s' ids' ∧
      valuesOf s'.nodes ids' = value :: (valuesOf s.nodes ids).erase value := by
  cases found : hashmapFind value s.hashmap with
  | some c => exact wellformed.insert_present found
  | none => exact wellformed.insert_absent found

/-- `Victim` takes the last value of the list, or reports an empty list. -/
theorem Wellformed.victim (wellformed : Wellformed s ids) (value : T) :
    ∃ found out s' ids', s.victim value = some (found, out, s') ∧ Wellformed s' ids' ∧
      (if found then some out else none) = (valuesOf s.nodes ids).getLast? ∧
      valuesOf s'.nodes ids' = (valuesOf s.nodes ids).dropLast := by
  have headNext : (s.nodes head).next = (ids ++ [tail]).head? := wellformed.linked.2.1
  rcases List.eq_nil_or_concat ids with rfl | ⟨A, c, rfl⟩
  · exact ⟨false, value, s, [], by simp [LRUReplacer.victim, headNext], wellformed, rfl, rfl⟩
  · rw [List.concat_eq_append] at wellformed headNext ⊢
    have notTail : (s.nodes head).next ≠ some tail := by
      have tailOut : ∀ q ∈ A ++ [c], q ≠ tail := fun q member same => by
        have := wellformed.allocated q member; simp [same, tail] at this
      rw [headNext]
      cases A with
      | nil => simpa using tailOut c (by simp)
      | cons a A => simpa using tailOut a (by simp)
    obtain ⟨P, p, m, N, -, split', prevC, -, linked⟩ := wellformed.around (B := [])
    obtain ⟨rfl, rfl⟩ : m = tail ∧ N = [] := by simpa [eq_comm] using split'
    have tailPrev : (s.nodes tail).prev = some c := by
      have linked := wellformed.linked
      rw [show head :: (A ++ [c] ++ [tail]) = (head :: A) ++ c :: tail :: [] by simp] at linked
      exact linked.prev_eq
    have distinct := wellformed.distinct
    rw [valuesOf_append, List.nodup_append] at distinct
    refine ⟨true, (s.nodes c).val, { s with
        nodes := setPrev (setNext s.nodes p (some tail)) tail (some p)
        hashmap := (hashmapErase (s.nodes c).val s.hashmap).1 }, A,
      by simp [LRUReplacer.victim, notTail, tailPrev, prevC],
      ⟨by rwa [List.append_nil] at linked, fun q member => wellformed.allocated q (by simp [member]),
        wellformed.sentinels, by simpa [valuesOf] using distinct.1,
        keys_filter_nodup wellformed.keysDistinct _, fun v q => ?_⟩,
      by simp [valuesOf_append], by simp [valuesOf_append, valuesOf]⟩
    rw [mem_hashmapErase, wellformed.entries_erase, List.append_nil]
    simp

/-- `Erase(value)` removes `value` from the list and reports whether it was there. -/
theorem Wellformed.erase (wellformed : Wellformed s ids) (value : T) :
    ∃ s' ids', s.erase value = some (decide (value ∈ valuesOf s.nodes ids), s') ∧
      Wellformed s' ids' ∧ valuesOf s'.nodes ids' = (valuesOf s.nodes ids).erase value := by
  cases found : hashmapFind value s.hashmap with
  | some c =>
      have entry := (hashmapFind_eq_some_iff wellformed.keysDistinct).1 found
      obtain ⟨member, valC⟩ := (wellformed.entries value c).1 entry
      have erased : ((hashmapErase value s.hashmap).2 != 0) = true := bne_iff_ne.2 fun none =>
        hashmapErase_count_eq_zero_iff.1 none c entry
      have present : value ∈ valuesOf s.nodes ids := mem_valuesOf.2 ⟨c, member, valC⟩
      obtain ⟨A, B, rfl⟩ := List.append_of_mem member
      obtain ⟨P, p, m, N, -, -, prevC, nextC, linked⟩ := wellformed.around
      have distinct := wellformed.distinct
      rw [valuesOf_append, valuesOf_cons, List.nodup_middle, List.nodup_cons, ← valuesOf_append]
        at distinct
      refine ⟨{ s with
          nodes := setPrev (setNext s.nodes p (some m)) m (some p)
          hashmap := (hashmapErase value s.hashmap).1 }, A ++ B,
        by simp [LRUReplacer.erase, found, unlink, prevC, nextC, erased, valC],
        ⟨linked, fun q member => wellformed.allocated q ?_, wellformed.sentinels,
          by simpa [valuesOf] using distinct.2, keys_filter_nodup wellformed.keysDistinct _,
          fun v q => ?_⟩, ?_⟩
      · simp only [List.mem_cons, List.mem_append] at member ⊢; tauto
      · rw [mem_hashmapErase, ← valC, wellformed.entries_erase]
        simp
      · rw [← valC, wellformed.erase_values]
        simp [valuesOf]
  | none =>
      have absent := hashmapFind_eq_none_iff.1 found
      have notIn : value ∉ valuesOf s.nodes ids := fun stored => by
        obtain ⟨q, member, rfl⟩ := mem_valuesOf.1 stored
        exact absent q ((wellformed.entries _ q).2 ⟨member, rfl⟩)
      have kept : (hashmapErase value s.hashmap).2 = 0 := hashmapErase_count_eq_zero_iff.2 absent
      refine ⟨{ s with hashmap := (hashmapErase value s.hashmap).1 }, ids,
        by simp [LRUReplacer.erase, found, kept, notIn],
        ⟨wellformed.linked, wellformed.allocated, wellformed.sentinels, wellformed.distinct,
          keys_filter_nodup wellformed.keysDistinct _, fun v q => ?_⟩,
        (List.erase_of_not_mem notIn).symm⟩
      rw [mem_hashmapErase, ← wellformed.entries]
      exact ⟨And.left, fun entry => ⟨entry, fun same => absent q (same ▸ entry)⟩⟩

namespace LRUReplacer

theorem Valid.recencyList_nodup (valid : s.Valid) : s.recencyList.Nodup := by
  obtain ⟨ids, wellformed⟩ := valid
  exact wellformed.recencyList_eq ▸ wellformed.distinct

theorem Valid.insert (valid : s.Valid) (value : T) :
    ∃ s', s.insert value = some s' ∧ s'.Valid ∧ s'.recencyList = value :: s.recencyList.erase value := by
  obtain ⟨ids, wellformed⟩ := valid
  obtain ⟨s', ids', run, wellformed', values⟩ := wellformed.insert value
  exact ⟨s', run, ⟨ids', wellformed'⟩, by rw [wellformed'.recencyList_eq, values, wellformed.recencyList_eq]⟩

theorem Valid.victim (valid : s.Valid) (value : T) :
    ∃ found out s', s.victim value = some (found, out, s') ∧ s'.Valid ∧
      (if found then some out else none) = s.recencyList.getLast? ∧
      s'.recencyList = s.recencyList.dropLast := by
  obtain ⟨ids, wellformed⟩ := valid
  obtain ⟨found, out, s', ids', run, wellformed', last, values⟩ := wellformed.victim value
  exact ⟨found, out, s', run, ⟨ids', wellformed'⟩, by rw [last, wellformed.recencyList_eq],
    by rw [wellformed'.recencyList_eq, values, wellformed.recencyList_eq]⟩

theorem Valid.erase (valid : s.Valid) (value : T) :
    ∃ s', s.erase value = some (decide (value ∈ s.recencyList), s') ∧ s'.Valid ∧
      s'.recencyList = s.recencyList.erase value := by
  obtain ⟨ids, wellformed⟩ := valid
  obtain ⟨s', ids', run, wellformed', values⟩ := wellformed.erase value
  exact ⟨s', by rw [run, wellformed.recencyList_eq], ⟨ids', wellformed'⟩,
    by rw [wellformed'.recencyList_eq, values, wellformed.recencyList_eq]⟩

theorem Valid.size_eq (valid : s.Valid) : s.size = s.recencyList.length := by
  obtain ⟨ids, wellformed⟩ := valid
  rw [wellformed.size_eq, wellformed.recencyList_eq, valuesOf, List.length_map]

end LRUReplacer

/-- The states of the replacer reachable from its constructor. -/
inductive Reachable : LRUReplacer T → Prop
  | init : Reachable LRUReplacer.init
  | insert {s s' : LRUReplacer T} (value : T) : Reachable s → s.insert value = some s' → Reachable s'
  | victim {s s' : LRUReplacer T} (value out : T) (found : Bool) :
      Reachable s → s.victim value = some (found, out, s') → Reachable s'
  | erase {s s' : LRUReplacer T} (value : T) (found : Bool) :
      Reachable s → s.erase value = some (found, s') → Reachable s'

theorem Reachable.valid (reachable : Reachable s) : s.Valid := by
  induction reachable with
  | init => exact ⟨[], wellformed_init⟩
  | insert value _ run valid =>
      obtain ⟨s', run', valid', -⟩ := valid.insert value
      cases run'.symm.trans run
      exact valid'
  | victim value _ _ _ run valid =>
      obtain ⟨_, _, s', run', valid', -⟩ := valid.victim value
      cases run'.symm.trans run
      exact valid'
  | erase value _ _ run valid =>
      obtain ⟨s', run', valid', -⟩ := valid.erase value
      cases run'.symm.trans run
      exact valid'

/-- **The replacer refines a recency list.** In every reachable state the nodes form a well-formed
chain between the sentinels whose values are the recency list, with `hashmap` mapping exactly those
values to their nodes; every operation returns, and acts on the list as a move-to-front list
evicting at its end. -/
theorem lruReplacer_refines_recency_list (reachable : Reachable s) :
    (∃ ids, Wellformed s ids ∧ s.recencyList = valuesOf s.nodes ids) ∧
    (∀ value, ∃ s', s.insert value = some s' ∧ s'.recencyList = value :: s.recencyList.erase value) ∧
    (∀ value, ∃ found out s', s.victim value = some (found, out, s') ∧
      (if found then some out else none) = s.recencyList.getLast? ∧
      s'.recencyList = s.recencyList.dropLast) ∧
    (∀ value, ∃ s', s.erase value = some (decide (value ∈ s.recencyList), s') ∧
      s'.recencyList = s.recencyList.erase value) ∧
    s.size = s.recencyList.length := by
  have valid := reachable.valid
  obtain ⟨ids, wellformed⟩ := reachable.valid
  refine ⟨⟨ids, wellformed, wellformed.recencyList_eq⟩, fun value => ?_, fun value => ?_,
    fun value => ?_, valid.size_eq⟩
  · obtain ⟨s', run, -, values⟩ := valid.insert value
    exact ⟨s', run, values⟩
  · obtain ⟨found, out, s', run, -, last, values⟩ := valid.victim value
    exact ⟨found, out, s', run, last, values⟩
  · obtain ⟨s', run, -, values⟩ := valid.erase value
    exact ⟨s', run, values⟩

/-- `Insert(1)`, `Insert(2)`, `Insert(3)`, `Insert(1)` again, then `Erase(2)`: `1` is moved from
the tail to the front, `2` is unlinked from the middle, and the chain holds `1` then `3`. -/
theorem lruReplacer_refines_recency_list_after_moves :
    ∃ s : LRUReplacer Nat, Reachable s ∧ s.recencyList = [1, 3] ∧
      (∃ ids, Wellformed s ids ∧ s.recencyList = valuesOf s.nodes ids) ∧
      (∀ value, ∃ s', s.insert value = some s' ∧ s'.recencyList = value :: s.recencyList.erase value) ∧
      (∀ value, ∃ found out s', s.victim value = some (found, out, s') ∧
        (if found then some out else none) = s.recencyList.getLast? ∧
        s'.recencyList = s.recencyList.dropLast) ∧
      (∀ value, ∃ s', s.erase value = some (decide (value ∈ s.recencyList), s') ∧
        s'.recencyList = s.recencyList.erase value) ∧
      s.size = s.recencyList.length := by
  have one := Reachable.insert 1 (T := Nat) .init rfl
  have two := Reachable.insert 2 one rfl
  have three := Reachable.insert 3 two rfl
  have moved := Reachable.insert 1 three rfl
  have erased := Reachable.erase 2 true moved rfl
  exact ⟨_, erased, rfl, lruReplacer_refines_recency_list erased⟩

/-- `Insert(1); Insert(2); Insert(1)` moves `1` back to the front, so `Victim` evicts `2`. -/
example : ((((LRUReplacer.init (T := Nat)).insert 1).bind (·.insert 2)).bind (·.insert 1)).bind
    (fun s => (s.victim 0).map fun r => (r.1, r.2.1, r.2.2.recencyList)) = some (true, 2, [1]) := by
  decide

end Refinement

end ScuDb.Buffer
