import GoMiniDb.Storage.Tree
import GoMiniDb.GoMap

/-! # In-memory pages

The page store of the B-tree tests: a map from page numbers to nodes. A fresh node gets
a number no live page has; in the test harness that number is the address of the node's
buffer, which is fresh because the buffers of stored nodes stay alive in the map. Freed
pages are also written to a log, which no callback reads.
-/
namespace GoMiniDb.Storage

/-- The pages, the numbers handed out so far, and the log of freed pages. -/
structure Pages where
  pages : GoMap UInt64 BNode
  alloc : Nat
  freed : List UInt64
deriving DecidableEq

namespace Pages

def empty : Pages := ⟨[], 0, []⟩

def get (ptr : UInt64) (s : Pages) : Outcome BNode :=
  match s.pages.get? ptr with
  | some node => .ok node
  | none => .error (.panic "node not found")

/-- Store `node` under the next number, asserting that no page has it. -/
def new (node : BNode) : StateT Pages Outcome UInt64 := fun s => do
  let key := UInt64.ofNat (s.alloc + 1)
  assert (key ≠ 0 ∧ s.pages.get? key = none) "node already exists"
  return (key, { s with pages := s.pages.set key node, alloc := s.alloc + 1 })

def del (ptr : UInt64) : StateT Pages Outcome Unit := fun s =>
  .ok ((), { s with pages := s.pages.erase ptr, freed := s.freed ++ [ptr] })

end Pages

def memPager : Pager Pages := ⟨Pages.get, Pages.new, Pages.del⟩

/-- The callbacks of the test harness `newC`: `new` asserts the node fits a page, and
`del` that the page exists. -/
def harnessPager : Pager Pages where
  get := Pages.get
  new node := fun s => do
    let nb ← node.nbytes
    assert (nb ≤ BTREE_PAGE_SIZE) "node too large"
    bounds (0 < node.len)
    Pages.new node s
  del ptr := fun s => do
    assert ((s.pages.get? ptr).isSome) "node not found"
    Pages.del ptr s

end GoMiniDb.Storage
