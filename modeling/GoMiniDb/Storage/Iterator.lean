import GoMiniDb.Storage.Inv
import GoMiniDb.Storage.Region

/-! # The B-tree iterator

`BIter` keeps the nodes from the root to a leaf in `Path` and an index into each in `Pos`.
`SeekLE` descends with `nodeLookupLE` at every level. `iterNext` at a level moves that
level's index on, or moves the level above on and then points this level at the first
index of the new child; `iterPrev` is the same with the last index. At the first or the
last entry of the tree the climb reaches the root, which returns without pointing the
level below anywhere, while the levels further down still reset their children: the
iterator stays where it was in a tree of at most two levels and jumps back within the
last (or first) leaf in a deeper one. `Valid` only asks for a nonempty `Path`, which no
move shortens, so a scan `for it.Valid() { it.Deref(); it.Next() }` never ends normally.
The exported node accessors the iterator calls (`BType`, `NKeys`, `GetPtr`, `GetKey`,
`GetVal`) are not in the sources; they are taken to be the unexported ones, and the pages
are read through `look`, the `get` callback of the tree. `Deref` of an invalid iterator
returns `nil, nil`, here two empty byte strings.
-/
namespace GoMiniDb.Storage

open BNode

/-- `BIter`: the nodes from the root to a leaf, and the index into each. -/
structure BIter where
  path : List BNode
  pos : List Nat
deriving DecidableEq, Repr

def goAt {α : Type} (xs : List α) (i : Nat) : Outcome α :=
  match xs.get? i with
  | some a => .ok a
  | none => .error (.panic "runtime error: index out of range")

section Model

variable (look : UInt64 → Outcome BNode)

/-- The loop of `SeekLE` from page `ptr`, with `fuel` bounding the levels. -/
def seekLoop (key : Bytes) : Nat → UInt64 → BIter → Outcome BIter
  | fuel, ptr, iter =>
    if ptr = 0 then .ok iter else
    match fuel with
    | 0 => .error .fuel
    | fuel + 1 => do
      let node ← look ptr
      let idx ← nodeLookupLE node key
      let iter : BIter := ⟨iter.path ++ [node], iter.pos ++ [idx]⟩
      if (← node.btype) = BNODE_NODE then seekLoop key fuel (← node.getPtr idx) iter
      else seekLoop key fuel 0 iter

def seekLE (root : UInt64) (key : Bytes) (fuel : Nat) : Outcome BIter :=
  seekLoop look key fuel root ⟨[], []⟩

def BIter.valid (iter : BIter) : Bool := 0 < iter.path.length && 0 < iter.pos.length

def BIter.deref (iter : BIter) : Outcome (Bytes × Bytes) :=
  if !iter.valid then .ok ([], []) else do
    let leaf ← goAt iter.path (iter.path.length - 1)
    let idx ← goAt iter.pos (iter.pos.length - 1)
    return (← leaf.getKey idx, ← leaf.getVal idx)

/-- The end of `iterNext` and `iterPrev` at `level`: the level below gets the child at the
new index, at the index `start` picks in it (the first for `iterNext`, the last for
`iterPrev`). -/
def kidUpdate (start : BNode → Outcome Nat) (level : Nat) (iter : BIter) : Outcome BIter :=
  if level + 1 < iter.pos.length then do
    let node ← goAt iter.path level
    let kid ← look (← node.getPtr (← goAt iter.pos level))
    let _ ← goAt iter.path (level + 1)
    return ⟨iter.path.set (level + 1) kid, iter.pos.set (level + 1) (← start kid)⟩
  else .ok iter

def firstIdx (_ : BNode) : Outcome Nat := .ok 0

def lastIdx (kid : BNode) : Outcome Nat := do
  return u16 ((← kid.nkeys) + 65535)

def iterNext : Nat → BIter → Outcome BIter
  | level, iter => do
    let p ← goAt iter.pos level
    if u16 (p + 1) < (← (← goAt iter.path level).nkeys) then
      kidUpdate look firstIdx level { iter with pos := iter.pos.set level (u16 (p + 1)) }
    else match level with
      | 0 => return iter
      | l + 1 => kidUpdate look firstIdx (l + 1) (← iterNext l iter)

def iterPrev : Nat → BIter → Outcome BIter
  | level, iter => do
    let p ← goAt iter.pos level
    if 0 < p then
      kidUpdate look lastIdx level { iter with pos := iter.pos.set level (u16 (p + 65535)) }
    else match level with
      | 0 => return iter
      | l + 1 => kidUpdate look lastIdx (l + 1) (← iterPrev l iter)

/-- `Next()`: `iterNext` from the leaf level `len(Path)-1`, which is `-1` for an empty path. -/
def BIter.next (iter : BIter) : Outcome BIter :=
  if iter.path.length = 0 then .error (.panic "runtime error: index out of range")
  else iterNext look (iter.path.length - 1) iter

def BIter.prev (iter : BIter) : Outcome BIter :=
  if iter.path.length = 0 then .error (.panic "runtime error: index out of range")
  else iterPrev look (iter.path.length - 1) iter

end Model

/-- `for it.Valid() { kv := it.Deref(); move(it) }` with at most `fuel` rounds: the pairs
`Deref` returned, in order. -/
def scan (move : BIter → Outcome BIter) : Nat → BIter → Outcome (List (Bytes × Bytes))
  | fuel, iter =>
    if !iter.valid then .ok [] else
    match fuel with
    | 0 => .error .fuel
    | fuel + 1 => do
      let kv ← iter.deref
      let kvs ← scan move fuel (← move iter)
      return kv :: kvs

section Lengths

variable {look : UInt64 → Outcome BNode} {iter iter' : BIter}

/-- Two iterators with paths and indexes of the same lengths. -/
def SameShape (iter iter' : BIter) : Prop :=
  iter'.path.length = iter.path.length ∧ iter'.pos.length = iter.pos.length

theorem SameShape.trans {iter'' : BIter} (h : SameShape iter iter') (h' : SameShape iter' iter'') :
    SameShape iter iter'' :=
  ⟨h'.1.trans h.1, h'.2.trans h.2⟩

theorem kidUpdate_shape {start : BNode → Outcome Nat} {level : Nat}
    (h : kidUpdate look start level iter = .ok iter') : SameShape iter iter' := by
  unfold kidUpdate at h
  split at h
  · simp only [bind_ok_iff, pure_ok_iff] at h
    obtain ⟨-, -, -, -, -, -, -, -, -, -, -, -, rfl⟩ := h
    exact ⟨List.length_set .., List.length_set ..⟩
  · cases h
    exact ⟨rfl, rfl⟩

theorem iterNext_shape : ∀ {level : Nat} {iter iter' : BIter}, iterNext look level iter = .ok iter' →
    SameShape iter iter'
  | level, iter, iter', h => by
    unfold iterNext at h
    simp only [bind_ok_iff] at h
    obtain ⟨p, -, n, -, k, -, h⟩ := h
    split at h
    · exact (show SameShape iter { iter with pos := iter.pos.set level (u16 (p + 1)) } from
        ⟨rfl, List.length_set ..⟩).trans (kidUpdate_shape h)
    · split at h
      · cases h
        exact ⟨rfl, rfl⟩
      · simp only [bind_ok_iff] at h
        obtain ⟨it, hit, h⟩ := h
        exact (iterNext_shape hit).trans (kidUpdate_shape h)

theorem iterPrev_shape : ∀ {level : Nat} {iter iter' : BIter}, iterPrev look level iter = .ok iter' →
    SameShape iter iter'
  | level, iter, iter', h => by
    unfold iterPrev at h
    simp only [bind_ok_iff] at h
    obtain ⟨p, -, h⟩ := h
    split at h
    · exact (show SameShape iter { iter with pos := iter.pos.set level (u16 (p + 65535)) } from
        ⟨rfl, List.length_set ..⟩).trans (kidUpdate_shape h)
    · split at h
      · cases h
        exact ⟨rfl, rfl⟩
      · simp only [bind_ok_iff] at h
        obtain ⟨it, hit, h⟩ := h
        exact (iterPrev_shape hit).trans (kidUpdate_shape h)

theorem SameShape.valid (h : SameShape iter iter') : iter'.valid = iter.valid := by
  simp only [BIter.valid, h.1, h.2]

theorem next_valid (h : iter.next look = .ok iter') : iter'.valid = iter.valid := by
  unfold BIter.next at h
  split at h
  · cases h
  · exact (iterNext_shape h).valid

theorem prev_valid (h : iter.prev look = .ok iter') : iter'.valid = iter.valid := by
  unfold BIter.prev at h
  split at h
  · cases h
  · exact (iterPrev_shape h).valid

theorem scan_ne_ok {move : BIter → Outcome BIter} (hmove : ∀ it it', move it = .ok it' → it'.valid = it.valid) :
    ∀ fuel {iter : BIter}, iter.valid → ∀ kvs, scan move fuel iter ≠ .ok kvs
  | 0, iter, hv, kvs => by simp [scan, hv]
  | fuel + 1, iter, hv, kvs => by
    unfold scan
    simp only [hv, Bool.not_true, Bool.false_eq_true, ↓reduceIte, ne_eq, bind_ok_iff, pure_ok_iff,
      not_exists, not_and]
    intro kv _ it hit kvs' hkvs _
    exact scan_ne_ok hmove fuel ((hmove _ _ hit).trans hv) kvs' hkvs

theorem seekLoop_valid {key : Bytes} :
    ∀ {fuel : Nat} {ptr : UInt64} {iter iter' : BIter}, ptr ≠ 0 → seekLoop look key fuel ptr iter = .ok iter' →
      iter'.valid
  | fuel, ptr, iter, iter', hptr, h => by
    unfold seekLoop at h
    rw [if_neg hptr] at h
    match fuel, h with
    | fuel + 1, h =>
      simp only [bind_ok_iff] at h
      obtain ⟨node, -, idx, -, t, -, h⟩ := h
      have grow : ∀ {q : UInt64} {it : BIter},
          seekLoop look key fuel q ⟨iter.path ++ [node], iter.pos ++ [idx]⟩ = .ok it → it.valid := by
        intro q it hq
        by_cases hq0 : q = 0
        · subst hq0
          unfold seekLoop at hq
          rw [if_pos rfl] at hq
          cases hq
          simp [BIter.valid]
        · exact seekLoop_valid hq0 hq
      split at h
      · simp only [bind_ok_iff] at h
        obtain ⟨q, -, h⟩ := h
        exact grow h
      · exact grow h

end Lengths

/-- From any nonzero root, neither the scan by `Next` nor the scan by `Prev` from `SeekLE`
ends normally: each runs until a panic or for ever. -/
theorem seekLE_scan_never_returns {look : UInt64 → Outcome BNode} {root : UInt64} {key : Bytes}
    {fuel : Nat} {iter : BIter} (hroot : root ≠ 0) (hseek : seekLE look root key fuel = .ok iter) :
    ∀ n kvs, scan (BIter.next look) n iter ≠ .ok kvs ∧ scan (BIter.prev look) n iter ≠ .ok kvs :=
  fun n kvs => ⟨scan_ne_ok (fun _ _ => next_valid) n (seekLoop_valid hroot hseek) kvs,
    scan_ne_ok (fun _ _ => prev_valid) n (seekLoop_valid hroot hseek) kvs⟩

/-- A root leaf holding the sentinel and the key `a`. -/
def sentinelA : BNode := ⟨BNODE_LEAF, 2, [⟨0, [], []⟩, ⟨0, [97], [1]⟩], BTREE_PAGE_SIZE⟩

/-- The pages of the tree whose root, page 1, is `sentinelA`. -/
def sentinelPages : Pages := ⟨[(1, sentinelA)], 1, []⟩

theorem sentinelPages_inv : Inv sentinelPages.look 1 :=
  .inr ⟨0, sentinelA, rfl, .leaf ⟨rfl, rfl, by decide, by decide, by decide, by decide⟩ rfl
    (fun _ _ => trivial) (by decide)⟩

theorem single_leaf_scan_never_returns :
    Inv sentinelPages.look 1 ∧ seekLE sentinelPages.look 1 [97] 2 = .ok ⟨[sentinelA], [1]⟩ ∧
      BIter.next sentinelPages.look ⟨[sentinelA], [1]⟩ = .ok ⟨[sentinelA], [1]⟩ ∧
      ∀ n kvs, scan (BIter.next sentinelPages.look) n ⟨[sentinelA], [1]⟩ ≠ .ok kvs ∧
        scan (BIter.prev sentinelPages.look) n ⟨[sentinelA], [1]⟩ ≠ .ok kvs :=
  ⟨sentinelPages_inv, rfl, rfl,
    seekLE_scan_never_returns (by decide) (show seekLE sentinelPages.look 1 [97] 2 = _ from rfl)⟩

end GoMiniDb.Storage
