import Mathlib.Data.Finset.Image

/-! # The reader registry of the concurrent reader-writer KV

`KV.readers` is a `ReaderList`, a slice of `*KVReader` kept as a binary min-heap by
version through Go's `container/heap`. A reader is a pointer, here a number; its `version`
and `index` fields live in the reader, so they are functions of the reader. `BeginRead`
pushes the reader with the KV's current version and `EndRead` removes it at its stored
index. The `mmap` chunks and the tree a reader copies are not read by the heap.
-/
namespace GoMiniDb.ReaderWriter

/-- The `ReaderList` slice and the two reader fields the heap reads and writes. -/
structure Readers where
  len : Nat
  slot : Nat → Nat
  version : Nat → Nat
  index : Nat → Int

namespace Readers

def v (rs : Readers) (k : Nat) : Nat := rs.version (rs.slot k)

def less (rs : Readers) (i j : Nat) : Bool := rs.v i < rs.v j

/-- `ReaderList.Swap`: the two pointers change places and both readers record their new
position. -/
def swap (rs : Readers) (i j : Nat) : Readers :=
  { rs with
    slot := Function.update (Function.update rs.slot i (rs.slot j)) j (rs.slot i)
    index := Function.update (Function.update rs.index (rs.slot j) i) (rs.slot i) j }

def push (rs : Readers) (x : Nat) : Readers :=
  { rs with
    len := rs.len + 1
    slot := Function.update rs.slot rs.len x
    index := Function.update rs.index x rs.len }

/-- `ReaderList.Pop`: the last reader leaves the slice with index `-1`. -/
def pop (rs : Readers) : Readers :=
  { rs with len := rs.len - 1, index := Function.update rs.index (rs.slot (rs.len - 1)) (-1) }

/-- `up` of `container/heap`: move the entry at `j` towards the root while it is less than
its parent `(j - 1) / 2`. -/
def up (rs : Readers) (j : Nat) : Readers :=
  if (j - 1) / 2 = j ∨ rs.less j ((j - 1) / 2) = false then rs
  else up (rs.swap ((j - 1) / 2) j) ((j - 1) / 2)
termination_by j
decreasing_by omega

/-- The smaller child of `i` within the first `n` positions (`j1`, or `j2` when it is less). -/
def minChild (rs : Readers) (i n : Nat) : Nat :=
  if 2 * i + 2 < n ∧ rs.less (2 * i + 2) (2 * i + 1) = true then 2 * i + 2 else 2 * i + 1

/-- The loop of `down` of `container/heap`, with the position where the entry stops. -/
def downLoop (rs : Readers) (i n : Nat) : Readers × Nat :=
  if _h : n ≤ 2 * i + 1 then (rs, i)
  else if rs.less (rs.minChild i n) i then downLoop (rs.swap i (rs.minChild i n)) (rs.minChild i n) n
  else (rs, i)
termination_by n - i
decreasing_by unfold minChild; split <;> omega

def down (rs : Readers) (i0 n : Nat) : Readers × Bool :=
  ((rs.downLoop i0 n).1, i0 < (rs.downLoop i0 n).2)

def heapPush (rs : Readers) (x : Nat) : Readers := (rs.push x).up rs.len

/-- `heap.Remove` at an `int` position; `none` where Go panics (an index out of range in
`Swap` or `Pop`). -/
def heapRemove (rs : Readers) (i : Int) : Option Readers :=
  if rs.len = 0 then none
  else if i = (rs.len : Int) - 1 then some rs.pop
  else if 0 ≤ i ∧ i < rs.len then
    let rs1 := rs.swap i.toNat (rs.len - 1)
    let d := rs1.down i.toNat (rs.len - 1)
    some (if d.2 then d.1 else d.1.up i.toNat).pop
  else none

end Readers

/-- `KV.BeginRead`: the reader takes the KV's version `v` and joins the heap. -/
def beginRead (rs : Readers) (r v : Nat) : Readers :=
  Readers.heapPush { rs with version := Function.update rs.version r v } r

/-- `KV.EndRead`: remove the reader at the index it stores. -/
def endRead (rs : Readers) (r : Nat) : Option Readers := rs.heapRemove (rs.index r)

def Readers.members (rs : Readers) : Finset Nat := (Finset.range rs.len).image rs.slot

end GoMiniDb.ReaderWriter
