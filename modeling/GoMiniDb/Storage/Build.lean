import GoMiniDb.Storage.Split

/-! # Building a node

Every node the engine writes is built one way: `setHeader(t, n)` on a fresh buffer, then
the indices `0 .. n-1` filled in increasing order, an entry at a time with `nodeAppendKV`
or a run of another node's cells with `nodeAppendRange` (`leafInsert`, `leafUpdate`,
`nodeMerge`, `nodeReplaceKidN`, the halves of a split). A run of appends is a list of
steps, each made at the index after the cells written before it. When the entries fit the
buffer and every source is well formed, each call returns and the node holds exactly those
entries; Storage/Layout carries this down to the bytes of the buffer.
-/
namespace GoMiniDb.Storage

open BNode

/-- One step of filling a node: an entry, or `n` cells of `old` from index `src`. -/
inductive Append
  | kv (ptr : UInt64) (key val : Bytes)
  | range (old : BNode) (src n : Nat)

namespace Append

/-- The indices a step fills, as the caller counts them. -/
def count : Append → Nat
  | kv .. => 1
  | range _ _ n => n

def cells : Append → List Cell
  | kv ptr key val => [⟨ptr, key, val⟩]
  | range old src n => (old.cells.drop src).take n

/-- The call a step makes at index `dst` of `new`. -/
def run (new : BNode) (dst : Nat) : Append → Outcome BNode
  | kv ptr key val => nodeAppendKV new dst ptr key val
  | range old src n => nodeAppendRange new old dst src n

/-- A step copies only cells that a well-formed node has. -/
def Sound : Append → Prop
  | kv .. => True
  | range old src n => Filled old ∧ src + n ≤ old.cells.length

end Append

/-- The entries a run of steps writes, in index order. -/
def entries : List Append → List Cell
  | [] => []
  | a :: as => a.cells ++ entries as

/-- The steps in order, each at the index after those before it. -/
def appendAll (node : BNode) (dst : Nat) : List Append → Outcome BNode
  | [] => .ok node
  | a :: as => do appendAll (← a.run node dst) (dst + a.count) as

def buildNode (len t n : Nat) (steps : List Append) : Outcome BNode := do
  appendAll (← (BNode.make len).setHeader t n) 0 steps

section Steps

variable {node : BNode} {a : Append}

theorem offsetOf_length_eq (cs : List Cell) : 10 * cs.length + offsetOf cs cs.length = cellsBytes cs := by
  rw [offsetOf_eq cs le_rfl, List.take_length]

theorem Append.count_eq (ha : a.Sound) : a.count = a.cells.length := by
  cases a with
  | kv => rfl
  | range old src n => simp only [count, cells, List.length_take, List.length_drop]; have := ha.2; omega

theorem Append.run_at_end (ha : a.Sound) (hroom : node.cells.length + a.cells.length ≤ node.hdrKeys)
    (hfit : HEADER + 10 * node.hdrKeys + offsetOf node.cells node.cells.length +
      offsetOf a.cells a.cells.length ≤ node.len) :
    a.run node node.cells.length = .ok { node with cells := node.cells ++ a.cells } := by
  cases a with
  | kv ptr key val =>
    exact nodeAppendKV_at_end (by simpa [cells] using hroom)
      (by simpa [cells, offsetOf, Cell.size] using hfit)
  | range old src n =>
    rw [← count_eq ha] at hroom
    exact ha.1.appendRange_at_end ha.2 hroom (by omega)

theorem appendAll_eq (t n len : Nat) :
    ∀ (pre : List Cell) (steps : List Append), (∀ a ∈ steps, a.Sound) →
      pre.length + (entries steps).length = n → HEADER + cellsBytes (pre ++ entries steps) ≤ len →
      appendAll ⟨t, n, pre, len⟩ pre.length steps = .ok ⟨t, n, pre ++ entries steps, len⟩
  | pre, [], _, _, _ => by simp [appendAll, entries]
  | pre, a :: as, hsound, hn, hS => by
    have ha := hsound a (List.mem_cons_self a as)
    have hpre := offsetOf_length_eq pre
    have hcells := offsetOf_length_eq a.cells
    have hrest := length_le_cellsBytes (entries as)
    simp only [entries, List.length_append, cellsBytes_append] at hn hS
    have hrun := @Append.run_at_end ⟨t, n, pre, len⟩ a ha (by dsimp only; omega) (by dsimp only; omega)
    rw [appendAll, hrun, except_ok_bind, Append.count_eq ha, ← List.length_append]
    have := appendAll_eq t n len (pre ++ a.cells) as (fun b hb => hsound b (List.mem_cons_of_mem a hb))
      (by simp only [List.length_append]; omega) (by simp only [List.append_assoc, cellsBytes_append]; omega)
    rw [this, entries, List.append_assoc]

end Steps

theorem buildNode_eq (len t n : Nat) (steps : List Append) (hsound : ∀ a ∈ steps, a.Sound)
    (hn : (entries steps).length = n) (hS : HEADER + cellsBytes (entries steps) ≤ len) :
    buildNode len t n steps = .ok ⟨t, n, entries steps, len⟩ := by
  rw [buildNode, setHeader_eq (show 4 ≤ len by unfold HEADER at hS; omega), except_ok_bind]
  exact appendAll_eq t n len [] steps hsound (by simpa using hn) (by simpa using hS)

end GoMiniDb.Storage
