import GoMiniDb.Storage.Node

/-! # B-tree operations over page callbacks

`BTree.Insert`, `Delete` and `Get` of the refactored engine. The callbacks `get`, `new`
and `del` act on the state `σ` of whatever keeps the pages; the root pointer is passed in
and returned. The recursive descents take a fuel argument: any fuel above the tree's
height gives the run of the source, and `Fault.fuel` marks a descent cut short.
-/
namespace GoMiniDb.Storage

open BNode

/-- The callbacks of a `BTree`: read a page, allocate one holding a node, free one. -/
structure Pager (σ : Type) where
  get : UInt64 → σ → Outcome BNode
  new : BNode → StateT σ Outcome UInt64
  del : UInt64 → StateT σ Outcome Unit

/-- A tree operation: it reads and changes the page store and may stop with a fault. -/
abbrev TreeM (σ : Type) := StateT σ Outcome

variable {σ : Type} (tree : Pager σ)

def Pager.getM (ptr : UInt64) : TreeM σ BNode := fun s => (tree.get ptr s).map (·, s)

/-- The loop of `nodeReplaceKidN` over `kids` (and of `Insert` over the root split): each
kid is stored by `tree.new` and linked at `idx + i` under its first key. -/
def appendKids (idx : Nat) : BNode → List BNode → Nat → TreeM σ BNode
  | new, [], _ => pure new
  | new, node :: kids, i => do
    let ptr ← tree.new node
    let key ← node.getKey 0
    let new ← nodeAppendKV new (u16 (idx + i)) ptr key []
    appendKids idx new kids (i + 1)

def nodeReplaceKidN (new old : BNode) (idx : Nat) (kids : List BNode) : TreeM σ BNode := do
  let inc := u16 kids.length
  let n ← old.nkeys
  let new ← new.setHeader BNODE_NODE (u16 (n + inc + 65535))
  let new ← nodeAppendRange new old 0 0 idx
  let new ← appendKids tree idx new kids 0
  nodeAppendRange new old (u16 (idx + inc)) (u16 (idx + 1)) (u16 (n + 65536 - u16 (idx + 1)))

def nodeInsert (treeInsert : BNode → Bytes → Bytes → TreeM σ BNode)
    (new node : BNode) (idx : Nat) (key val : Bytes) : TreeM σ BNode := do
  let kptr ← node.getPtr idx
  let knode ← tree.getM kptr
  tree.del kptr
  let knode ← treeInsert knode key val
  let split ← nodeSplit3 knode
  nodeReplaceKidN tree new node idx split

/-- `treeInsert`: the result is built in a buffer of two pages. -/
def treeInsert : Nat → BNode → Bytes → Bytes → TreeM σ BNode
  | 0, _, _, _ => throw .fuel
  | fuel + 1, node, key, val => do
    let new := BNode.make (2 * BTREE_PAGE_SIZE)
    let idx ← nodeLookupLE node key
    let t ← node.btype
    if t = BNODE_LEAF then
      let k ← node.getKey idx
      if key = k then leafUpdate new node idx key val
      else leafInsert new node (u16 (idx + 1)) key val
    else if t = BNODE_NODE then nodeInsert tree (treeInsert fuel) new node idx key val
    else throw (.panic "invalid node type")

def shouldMerge (node : BNode) (idx : Nat) (updated : BNode) : TreeM σ (Int × BNode) := do
  if BTREE_PAGE_SIZE / 4 < (← updated.nbytes) then return (0, BNode.empty)
  if 0 < idx then
    let sibling ← tree.getM (← node.getPtr (idx - 1))
    let merged := u16 ((← sibling.nbytes) + (← updated.nbytes) + 65536 - HEADER)
    if merged ≤ BTREE_PAGE_SIZE then return (-1, sibling)
  if u16 (idx + 1) < (← node.nkeys) then
    let sibling ← tree.getM (← node.getPtr (u16 (idx + 1)))
    let merged := u16 ((← sibling.nbytes) + (← updated.nbytes) + 65536 - HEADER)
    if merged ≤ BTREE_PAGE_SIZE then return (1, sibling)
  return (0, BNode.empty)

def nodeDelete (treeDelete : BNode → Bytes → TreeM σ BNode)
    (node : BNode) (idx : Nat) (key : Bytes) : TreeM σ BNode := do
  let kptr ← node.getPtr idx
  let updated ← treeDelete (← tree.getM kptr) key
  if updated.len = 0 then return BNode.empty
  tree.del kptr
  let new := BNode.make BTREE_PAGE_SIZE
  let (mergeDir, sibling) ← shouldMerge tree node idx updated
  if mergeDir < 0 then
    let merged ← nodeMerge (BNode.make BTREE_PAGE_SIZE) sibling updated
    tree.del (← node.getPtr (u16 (idx + 65535)))
    let ptr ← tree.new merged
    nodeReplace2Kid new node (u16 (idx + 65535)) ptr (← merged.getKey 0)
  else if 0 < mergeDir then
    let merged ← nodeMerge (BNode.make BTREE_PAGE_SIZE) updated sibling
    tree.del (← node.getPtr (u16 (idx + 1)))
    let ptr ← tree.new merged
    nodeReplace2Kid new node idx ptr (← merged.getKey 0)
  else
    assert (0 < (← updated.nkeys)) "updated.nkeys() > 0"
    nodeReplaceKidN tree new node idx [updated]

/-- `treeDelete`: `BNode{}` (length 0) when the key is not there. -/
def treeDelete : Nat → BNode → Bytes → TreeM σ BNode
  | 0, _, _ => throw .fuel
  | fuel + 1, node, key => do
    let idx ← nodeLookupLE node key
    let t ← node.btype
    if t = BNODE_LEAF then
      if key ≠ (← node.getKey idx) then return BNode.empty
      leafDelete (BNode.make BTREE_PAGE_SIZE) node idx
    else if t = BNODE_NODE then nodeDelete tree (treeDelete fuel) node idx key
    else throw (.panic "invalid node type")

def checkLimit (key val : Bytes) : Option String :=
  if BTREE_MAX_KEY_SIZE < key.length then some "key too large"
  else if BTREE_MAX_VAL_SIZE < val.length then some "value too large"
  else none

namespace BTree

/-- `BTree.Delete`: the new root and whether the key was there. -/
def delete (fuel : Nat) (root : UInt64) (key : Bytes) : TreeM σ (UInt64 × Bool) := do
  if root = 0 then return (root, false)
  if (checkLimit key []).isSome then return (root, false)
  let updated ← treeDelete tree fuel (← tree.getM root) key
  if updated.len = 0 then return (root, false)
  tree.del root
  let promote ← if (← updated.btype) = BNODE_NODE then do
      let n ← updated.nkeys
      pure (decide (n = 1))
    else pure false
  if promote then return (← updated.getPtr 0, true)
  else return (← tree.new updated, true)

/-- `BTree.Insert`: the new root and the error, if any. -/
def insert (fuel : Nat) (root : UInt64) (key val : Bytes) :
    TreeM σ (UInt64 × Option String) := do
  if let some err := checkLimit key val then return (root, some err)
  if root = 0 then
    let r ← (BNode.make BTREE_PAGE_SIZE).setHeader BNODE_LEAF 2
    let r ← nodeAppendKV r 0 0 [] []
    let r ← nodeAppendKV r 1 0 key val
    return (← tree.new r, none)
  let node ← tree.getM root
  tree.del root
  let node ← treeInsert tree fuel node key val
  let split ← nodeSplit3 node
  if 1 < split.length then
    let r ← (BNode.make BTREE_PAGE_SIZE).setHeader BNODE_NODE split.length
    let r ← appendKids tree 0 r split 0
    return (← tree.new r, none)
  else return (← tree.new (split.headD BNode.empty), none)

def getLoop : Nat → BNode → Bytes → TreeM σ (Option Bytes)
  | 0, _, _ => throw .fuel
  | fuel + 1, node, key => do
    let idx ← nodeLookupLE node key
    let t ← node.btype
    if t = BNODE_LEAF then
      if idx < (← node.nkeys) then
        if (← node.getKey idx) = key then return some (← node.getVal idx)
      return none
    else if t = BNODE_NODE then getLoop fuel (← tree.getM (← node.getPtr idx)) key
    else throw (.panic "invalid node type")

def get (fuel : Nat) (root : UInt64) (key : Bytes) : TreeM σ (Option Bytes) := do
  if root = 0 then return none
  getLoop tree fuel (← tree.getM root) key

/-- `BTree.Update`: the new root, whether the write was attempted, and `Insert`'s error.
Modes 0, 1 and 2 are `MODE_UPSERT`, `MODE_UPDATE_ONLY` and `MODE_INSERT_ONLY`. -/
def update (fuel : Nat) (root : UInt64) (key val : Bytes) (mode : Int) :
    TreeM σ (UInt64 × Bool × Option String) := do
  let write : TreeM σ (UInt64 × Bool × Option String) := do
    let (root, err) ← insert tree fuel root key val
    return (root, true, err)
  match mode with
  | 0 => write
  | 1 => if (← get tree fuel root key).isSome then write else return (root, false, none)
  | 2 => if (← get tree fuel root key).isNone then write else return (root, false, none)
  | _ => return (root, false, some s!"invalid mode: {mode}")

theorem insert_of_limit {fuel : Nat} {root : UInt64} {key val : Bytes} {err : String} {s : σ}
    (h : checkLimit key val = some err) : insert tree fuel root key val s = .ok ((root, some err), s) := by
  simp only [insert, h]
  rfl

theorem update_of_limit {fuel : Nat} {root : UInt64} {key val : Bytes} {err : String} {s : σ}
    (h : checkLimit key val = some err) :
    update tree fuel root key val 0 s = .ok ((root, true, some err), s) := by
  simp only [update, bind, StateT.bind, insert_of_limit tree h]
  rfl

end BTree

end GoMiniDb.Storage
