import Mathlib.Data.List.Basic

/-! # B-tree nodes of the refactored storage engine

A node is a byte buffer `data`. Here it is kept as what those bytes say: the two header
fields, the cells written so far (pointer, key, value, in index order) and `len(data)`.
Positions are the byte positions of the source, computed from the cells. A read checks
the Go bounds of the slices it takes, so a cell whose bytes run past the buffer (a `copy`
into a too-short buffer truncates silently) panics when read. Positions stay below `2^16`,
since a cell is appended only when it starts inside a buffer of at most 8192 bytes; the
`uint16` arithmetic the source does on indices and counts is kept with `u16`. The source
only reads cells it has written and only appends at the next index; anything else ends in
`Fault.unmodelled`.
-/
namespace GoMiniDb.Storage

abbrev Bytes := List UInt8

/-- Why a call does not return: a Go panic with its message, the model's fuel for a
descent ran out, or the call left what the model covers. -/
inductive Fault
  | panic (msg : String)
  | fuel
  | unmodelled
deriving DecidableEq, Repr

/-- A computation that returns normally or stops with a `Fault`. -/
abbrev Outcome := Except Fault

/-- Outcomes compare by value, so that a run on a concrete input can be checked by evaluation. -/
instance decEqExcept {ε α : Type} [DecidableEq ε] [DecidableEq α] : DecidableEq (Except ε α) := fun a b =>
  match a, b with
  | .ok a, .ok b => if h : a = b then isTrue (by rw [h]) else isFalse (by intro h2; cases h2; exact h rfl)
  | .error a, .error b =>
    if h : a = b then isTrue (by rw [h]) else isFalse (by intro h2; cases h2; exact h rfl)
  | .ok _, .error _ => isFalse (by intro h; cases h)
  | .error _, .ok _ => isFalse (by intro h; cases h)

def assert (c : Prop) [Decidable c] (msg : String) : Outcome Unit :=
  if c then .ok () else .error (.panic msg)

/-- A Go bounds check on a slice or index. -/
def bounds (c : Prop) [Decidable c] : Outcome Unit :=
  if c then .ok () else .error (.panic "runtime error: slice bounds out of range")

def BNODE_NODE : Nat := 1
def BNODE_LEAF : Nat := 2
def BTREE_PAGE_SIZE : Nat := 4096
def BTREE_MAX_KEY_SIZE : Nat := 1000
def BTREE_MAX_VAL_SIZE : Nat := 3000
def HEADER : Nat := 4

def u16 (n : Nat) : Nat := n % 65536

/-- One entry of a node: child pointer, key and value. -/
structure Cell where
  ptr : UInt64
  key : Bytes
  val : Bytes
deriving DecidableEq, Repr

/-- The bytes a cell takes in the KV area. -/
def Cell.size (c : Cell) : Nat := 4 + c.key.length + c.val.length

/-- The offset of cell `i` in the KV area: the sizes of the cells before it. -/
def offsetOf : List Cell → Nat → Nat
  | c :: cells, i + 1 => c.size + offsetOf cells i
  | _, _ => 0

/-- A node buffer: header type and key count, the cells written, and `len(data)`. -/
structure BNode where
  hdrType : Nat
  hdrKeys : Nat
  cells : List Cell
  len : Nat
deriving DecidableEq, Repr

namespace BNode

def make (n : Nat) : BNode := ⟨0, 0, [], n⟩

def empty : BNode := ⟨0, 0, [], 0⟩

def btype (node : BNode) : Outcome Nat := do
  bounds (2 ≤ node.len)
  return node.hdrType

def nkeys (node : BNode) : Outcome Nat := do
  bounds (4 ≤ node.len)
  return node.hdrKeys

def cell (node : BNode) (i : Nat) : Outcome Cell :=
  match node.cells.get? i with
  | some c => .ok c
  | none => .error .unmodelled

/-- `getPtr(index)`: an unwritten pointer slot still holds zero. -/
def getPtr (node : BNode) (index : Nat) : Outcome UInt64 := do
  let n ← node.nkeys
  assert (index < n) "Index out of bounds"
  bounds (HEADER + index * 8 + 8 ≤ node.len)
  return ((node.cells.get? index).map Cell.ptr).getD 0

def offsetPos (node : BNode) (idx : Nat) : Outcome Nat := do
  let n ← node.nkeys
  assert (1 ≤ idx ∧ idx ≤ n) "1<=idx && idx <= node.nkeys()"
  return HEADER + n * 8 + (idx - 1) * 2

/-- `getOffset(idx)`: an offset slot not yet written still holds zero. -/
def getOffset (node : BNode) (idx : Nat) : Outcome Nat :=
  if idx = 0 then .ok 0 else do
    let pos ← node.offsetPos idx
    bounds (pos + 2 ≤ node.len)
    return if idx ≤ node.cells.length then offsetOf node.cells idx else 0

def kvPos (node : BNode) (idx : Nat) : Outcome Nat := do
  let n ← node.nkeys
  assert (idx ≤ n) "idx <= node.nkeys()"
  let off ← node.getOffset idx
  return HEADER + n * 8 + n * 2 + off

def getKey (node : BNode) (idx : Nat) : Outcome Bytes := do
  let n ← node.nkeys
  assert (idx < n) "idx < node.nkeys()"
  let pos ← node.kvPos idx
  bounds (pos + 2 ≤ node.len)
  let c ← node.cell idx
  bounds (pos + 4 + c.key.length ≤ node.len)
  return c.key

def getVal (node : BNode) (idx : Nat) : Outcome Bytes := do
  let n ← node.nkeys
  assert (idx < n) "idx < node.nkeys()"
  let pos ← node.kvPos idx
  bounds (pos + 4 ≤ node.len)
  let c ← node.cell idx
  bounds (pos + 4 + c.key.length + c.val.length ≤ node.len)
  return c.val

def nbytes (node : BNode) : Outcome Nat := do
  node.kvPos (← node.nkeys)

def setHeader (node : BNode) (btype nkeys : Nat) : Outcome BNode := do
  bounds (4 ≤ node.len)
  return { node with hdrType := btype, hdrKeys := nkeys }

end BNode

open BNode

/-- `nodeAppendKV`: `setPtr`, the two lengths and the bytes at `kvPos(idx)`, then
`setOffset(idx+1, ...)`. -/
def nodeAppendKV (node : BNode) (idx : Nat) (ptr : UInt64) (key val : Bytes) :
    Outcome BNode := do
  let n ← node.nkeys
  assert (idx < n) "Index out of bounds"
  bounds (HEADER + idx * 8 + 8 ≤ node.len)
  let pos ← node.kvPos idx
  bounds (pos + 4 + key.length ≤ node.len)
  let opos ← node.offsetPos (idx + 1)
  bounds (opos + 2 ≤ node.len)
  if idx = node.cells.length then return { node with cells := node.cells ++ [⟨ptr, key, val⟩] }
  else .error .unmodelled

def nodeAppendRange (new old : BNode) (dstNew srcOld n : Nat) : Outcome BNode := do
  let oldN ← old.nkeys
  assert (u16 (srcOld + n) ≤ oldN) "srcOld+n <= old.nkeys()"
  let newN ← new.nkeys
  assert (u16 (dstNew + n) ≤ newN) "dstNew+n <= new.nkeys()"
  if n = 0 then return new
  -- pointers and offsets: `getPtr`/`setPtr` stop at the first index past a count
  assert (srcOld + n ≤ oldN ∧ dstNew + n ≤ newN) "Index out of bounds"
  bounds (HEADER + (srcOld + n) * 8 ≤ old.len ∧ HEADER + (dstNew + n) * 8 ≤ new.len)
  bounds (HEADER + oldN * 8 + (srcOld + n) * 2 ≤ old.len ∧ HEADER + newN * 8 + (dstNew + n) * 2 ≤ new.len)
  -- KVs
  let e ← old.kvPos (srcOld + n)
  bounds (e ≤ old.len)
  let p ← new.kvPos dstNew
  bounds (p ≤ new.len)
  if dstNew = new.cells.length ∧ srcOld + n ≤ old.cells.length then
    return { new with cells := new.cells ++ (old.cells.drop srcOld).take n }
  else .error .unmodelled

def bytesCompare : Bytes → Bytes → Ordering
  | [], [] => .eq
  | [], _ :: _ => .lt
  | _ :: _, [] => .gt
  | a :: as, b :: bs => if a < b then .lt else if b < a then .gt else bytesCompare as bs

/-- The loop of `nodeLookupLE` from index `i`, with `k` iterations left. -/
def lookupLoop (node : BNode) (key : Bytes) : Nat → Nat → Nat → Outcome Nat
  | _, found, 0 => .ok found
  | i, found, k + 1 => do
    let c := bytesCompare (← node.getKey i) key
    let found := if c ≠ .gt then i else found
    if c ≠ .lt then return found else lookupLoop node key (i + 1) found k

/-- `nodeLookupLE`: the last index whose key is at or below `key`; index 0 is taken as
at or below every key. -/
def nodeLookupLE (node : BNode) (key : Bytes) : Outcome Nat := do
  let n ← node.nkeys
  lookupLoop node key 1 0 (n - 1)

def leafInsert (new old : BNode) (idx : Nat) (key val : Bytes) : Outcome BNode := do
  let n ← old.nkeys
  let new ← new.setHeader BNODE_LEAF (u16 (n + 1))
  let new ← nodeAppendRange new old 0 0 idx
  let new ← nodeAppendKV new idx 0 key val
  nodeAppendRange new old (u16 (idx + 1)) idx (u16 (n + 65536 - idx))

def leafUpdate (new old : BNode) (idx : Nat) (key val : Bytes) : Outcome BNode := do
  let n ← old.nkeys
  let new ← new.setHeader BNODE_LEAF n
  let new ← nodeAppendRange new old 0 0 idx
  let new ← nodeAppendKV new idx 0 key val
  nodeAppendRange new old (u16 (idx + 1)) (u16 (idx + 1)) (u16 (n + 65536 - u16 (idx + 1)))

def leafDelete (new old : BNode) (idx : Nat) : Outcome BNode := do
  let n ← old.nkeys
  let new ← new.setHeader BNODE_LEAF (u16 (n + 65536 - 1))
  let new ← nodeAppendRange new old 0 0 idx
  nodeAppendRange new old idx (u16 (idx + 1)) (u16 (n + 65536 - u16 (idx + 1)))

def nodeMerge (new left right : BNode) : Outcome BNode := do
  let t ← left.btype
  let ln ← left.nkeys
  let rn ← right.nkeys
  let new ← new.setHeader t (u16 (ln + rn))
  let new ← nodeAppendRange new left 0 0 ln
  nodeAppendRange new right ln 0 rn

def nodeReplace2Kid (new old : BNode) (idx : Nat) (ptr : UInt64) (key : Bytes) :
    Outcome BNode := do
  let n ← old.nkeys
  let new ← new.setHeader BNODE_NODE (u16 (n + 65536 - 1))
  let new ← nodeAppendRange new old 0 0 idx
  let new ← nodeAppendKV new idx ptr key []
  nodeAppendRange new old (u16 (idx + 1)) (u16 (idx + 2)) (u16 (n + 65536 - u16 (idx + 2)))

/-- `left_bytes()` of `nodeSplit2`: the size of a left half of `nleft` keys. -/
def leftBytes (old : BNode) (nleft : Nat) : Outcome Nat := do
  let off ← old.getOffset nleft
  return u16 (4 + 8 * nleft + 2 * nleft + off)

def rightBytes (old : BNode) (nleft : Nat) : Outcome Nat := do
  let nb ← old.nbytes
  let lb ← leftBytes old nleft
  return u16 (nb + 65536 - lb + 4)

/-- `for left_bytes() > BTREE_PAGE_SIZE { nleft-- }`; the loop stops by `nleft = 0`, so
`nleft + 1` rounds are enough. -/
def shrinkLeft (old : BNode) : Nat → Nat → Outcome Nat
  | _, 0 => .error .fuel
  | nleft, k + 1 => do
    if BTREE_PAGE_SIZE < (← leftBytes old nleft) then shrinkLeft old (u16 (nleft + 65535)) k
    else return nleft

/-- `for right_bytes() > BTREE_PAGE_SIZE { nleft++ }`; `getOffset` panics once `nleft`
passes `nkeys`, so `nkeys + 1` rounds are enough from `nleft >= 1`. -/
def growLeft (old : BNode) : Nat → Nat → Outcome Nat
  | _, 0 => .error .fuel
  | nleft, k + 1 => do
    if BTREE_PAGE_SIZE < (← rightBytes old nleft) then growLeft old (u16 (nleft + 1)) k
    else return nleft

/-- `nodeSplit2(left, right, old)`: the two halves as written into `left` and `right`. -/
def nodeSplit2 (left right old : BNode) : Outcome (BNode × BNode) := do
  let n ← old.nkeys
  assert (2 ≤ n) "old.nkeys() >= 2"
  let nleft ← shrinkLeft old (n / 2) (n / 2 + 1)
  assert (1 ≤ nleft) "nleft >= 1"
  let nleft ← growLeft old nleft (n + 1)
  assert (nleft < n) "nleft < old.nkeys()"
  let nright := u16 (n + 65536 - nleft)
  let t ← old.btype
  let left ← left.setHeader t nleft
  let right ← right.setHeader t nright
  let left ← nodeAppendRange left old 0 0 nleft
  let right ← nodeAppendRange right old 0 nleft nright
  let rb ← right.nbytes
  assert (rb ≤ BTREE_PAGE_SIZE) "right.nbytes() <= BTREE_PAGE_SIZE"
  return (left, right)

/-- `nodeSplit3`: the list is `split[:nsplit]`; `data[:BTREE_PAGE_SIZE]` needs that much
capacity. -/
def nodeSplit3 (old : BNode) : Outcome (List BNode) := do
  if (← old.nbytes) ≤ BTREE_PAGE_SIZE then
    bounds (BTREE_PAGE_SIZE ≤ old.len)
    return [{ old with len := BTREE_PAGE_SIZE }]
  let (left, right) ← nodeSplit2 (BNode.make (2 * BTREE_PAGE_SIZE)) (BNode.make BTREE_PAGE_SIZE) old
  if (← left.nbytes) ≤ BTREE_PAGE_SIZE then
    return [{ left with len := BTREE_PAGE_SIZE }, right]
  let (leftleft, middle) ← nodeSplit2 (BNode.make BTREE_PAGE_SIZE) (BNode.make BTREE_PAGE_SIZE) left
  let llb ← leftleft.nbytes
  assert (llb ≤ BTREE_PAGE_SIZE) "leftleft.nbytes() <= BTREE_PAGE_SIZE"
  return [leftleft, middle, right]

end GoMiniDb.Storage
