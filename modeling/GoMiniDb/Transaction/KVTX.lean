import GoMiniDb.Storage.Tree
import GoMiniDb.ReaderWriter.ReaderList
import GoMiniDb.Disk.Pager

/-! # Write transactions

`transaction.Begin`, `KVTX.Update`, `KVTX.Del`, `Commit` and `Abort` over the KV of the
concurrent reader-writer package. A transaction edits its own copy of the tree: its
callbacks allocate after `page.flushed` and keep new and freed pages in `page.updates`,
and read the pages it did not touch through the KV tree's `get`, a parameter here.
`kv.Sync()` is a call to the file system, so its results are parameters; `FlushPages` and
`StoreMaster` are stubs in the source that return `nil`. The writer mutex is held from
`Begin` to `Commit` or `Abort`, so transactions run one after another. The kv-store
package's `Insert` and `Delete` are the same code as the refactored engine's.
-/
namespace GoMiniDb.Transaction

open GoMiniDb.Storage

/-- `FreeListData`. -/
structure FreeListData where
  head : UInt64
  nodes : List UInt64
  total : Int
  offset : Int
deriving DecidableEq

/-- `FreeList` without its callbacks, which no modelled call uses. -/
structure FreeList where
  data : FreeListData
  version : UInt64
  minReader : UInt64
  freed : List UInt64

/-- The fields of `KV` a transaction reads or writes (the file and the mmap are left out). -/
structure KV where
  root : UInt64
  free : FreeListData
  flushed : UInt64
  version : UInt64
  readers : ReaderWriter.Readers

/-- `KVTX`: the snapshot version, the tree root, the free list and the page updates. -/
structure KVTX where
  version : UInt64
  root : UInt64
  free : FreeList
  nappend : Int
  updates : GoMap UInt64 (Option BNode)

/-- `Begin`: the free list's `minReader` is the version of the heap's first reader, or the
KV's version when no reader is live. -/
def begin (kv : KV) : KVTX where
  version := kv.version
  root := kv.root
  free :=
    { data := kv.free
      version := kv.version
      minReader := if 0 < kv.readers.len then UInt64.ofNat (kv.readers.v 0) else kv.version
      freed := [] }
  nappend := 0
  updates := []

/-- The tree callbacks of a transaction on `kv`: `pageGet`, `pageNew` and `pageDel`. -/
def txPager (kvGet : UInt64 → Outcome BNode) (kv : KV) : Pager KVTX where
  get ptr tx := match tx.updates.get? ptr with
    | some (some node) => .ok node
    | some none => .ok BNode.empty
    | none => kvGet ptr
  new node := fun tx =>
    let ptr := kv.flushed + Disk.u64 tx.nappend
    .ok (ptr, { tx with updates := tx.updates.set ptr (some node), nappend := tx.nappend + 1 })
  del ptr := fun tx => .ok ((), { tx with updates := tx.updates.set ptr none })

section

variable (kvGet : UInt64 → Outcome BNode) (kv : KV) (fuel : Nat)

/-- `BTree.Get` of the kv-store package: it looks the key up in the root node only. -/
def rootGet (root : UInt64) (key : Bytes) : TreeM KVTX (Option Bytes) := do
  if root = 0 then return none
  let node ← (txPager kvGet kv).getM root
  let idx ← nodeLookupLE node key
  if idx < (← node.nkeys) then
    if (← node.getKey idx) = key then return some (← node.getVal idx)
  return none

def update (key val : Bytes) (mode : Int) : TreeM KVTX (Bool × Option String) := do
  let insert : TreeM KVTX (Bool × Option String) := do
    let (root, _) ← BTree.insert (txPager kvGet kv) fuel (← get).root key val
    modify fun tx => { tx with root }
    return (true, none)
  match mode with
  | 0 => insert
  | 1 => if (← rootGet kvGet kv (← get).root key).isSome then insert else return (false, none)
  | 2 => if (← rootGet kvGet kv (← get).root key).isNone then insert else return (false, none)
  | _ => return (false, some s!"invalid mode: {mode}")

theorem update_of_limit {key val : Bytes} {err : String} {tx : KVTX} (h : checkLimit key val = some err) :
    update kvGet kv fuel key val 0 tx = .ok ((true, none), tx) := by
  simp only [update, bind, StateT.bind, get, getThe, MonadStateOf.get, StateT.get, BTree.insert_of_limit _ h]
  rfl

def del (key : Bytes) : TreeM KVTX (Bool × Option String) := do
  let (root, deleted) ← BTree.delete (txPager kvGet kv) fuel (← get).root key
  modify fun tx => { tx with root }
  return (deleted, none)

end

def rollbackTX (kv : KV) (tx : KVTX) : KV := { kv with root := tx.root, flushed := 0 }

/-- `Commit`, with the results of its two `kv.Sync()` calls: the error and the KV after. -/
def commit (kv : KV) (tx : KVTX) (sync₁ sync₂ : Option String) : Option String × KV :=
  if kv.root = tx.root then (none, kv)
  else match sync₁ with
  | some err => (some ("fsync: " ++ err), rollbackTX kv tx)
  | none =>
    let kv := { kv with
      flushed := kv.flushed + Disk.u64 tx.nappend
      free := tx.free.data
      root := tx.root }
    match sync₂ with
    | some err => (some ("fsync: " ++ err), kv)
    | none => (none, kv)

def abort (kv : KV) (_tx : KVTX) : KV := kv

/-- A KV with an empty tree, page 0 taken by the master page, version 7 and no reader. -/
def emptyKV : KV := ⟨0, ⟨0, [], 0, 0⟩, 1, 7, ⟨0, id, id, fun _ => 0⟩⟩

/-- One transaction inserts a key into the empty tree and commits with both syncs
succeeding: the root moves to the new page 1 and the version stays 7. -/
theorem commit_keeps_version (kvGet : UInt64 → Outcome BNode) (fuel : Nat) :
    ∃ tx, update kvGet emptyKV fuel [1] [2] 0 (begin emptyKV) = .ok ((true, none), tx) ∧
      (commit emptyKV tx none none).1 = none ∧ (commit emptyKV tx none none).2.root = 1 ∧
      (commit emptyKV tx none none).2.version = emptyKV.version :=
  ⟨_, rfl, rfl, rfl, rfl⟩

/-- The same transaction with the first sync failing: the rollback leaves the KV on the
transaction's root and with no flushed page. -/
theorem failed_commit_keeps_new_root (kvGet : UInt64 → Outcome BNode) (fuel : Nat) :
    ∃ tx, update kvGet emptyKV fuel [1] [2] 0 (begin emptyKV) = .ok ((true, none), tx) ∧
      (commit emptyKV tx (some "EIO") none).1 = some "fsync: EIO" ∧
      (commit emptyKV tx (some "EIO") none).2.root = 1 ∧
      (commit emptyKV tx (some "EIO") none).2.flushed = 0 :=
  ⟨_, rfl, rfl, rfl, rfl⟩

/-- An upsert of a key over 1000 bytes is reported as done by both `BTree.Update`, with
`Insert`'s error, and `KVTX.Update`, with no error; neither changes the tree. -/
theorem update_oversized_key_reports_done (key val : Bytes) (hkey : BTREE_MAX_KEY_SIZE < key.length) :
    (∀ {σ : Type} (tree : Pager σ) (fuel : Nat) (root : UInt64) (s : σ),
      BTree.update tree fuel root key val 0 s = .ok ((root, true, some "key too large"), s)) ∧
    ∀ kvGet kv fuel tx, update kvGet kv fuel key val 0 tx = .ok ((true, none), tx) := by
  have h : checkLimit key val = some "key too large" := if_pos hkey
  exact ⟨fun tree _ _ _ => BTree.update_of_limit tree h, fun _ _ _ _ => update_of_limit _ _ _ h⟩

theorem upsert_long_key_reports_done :
    BTREE_MAX_KEY_SIZE < (List.replicate 1001 (0 : UInt8)).length ∧
      update (fun _ => .error .unmodelled) emptyKV 1 (List.replicate 1001 0) [] 0 (begin emptyKV) =
        .ok ((true, none), begin emptyKV) :=
  ⟨by rw [List.length_replicate]; decide,
    (update_oversized_key_reports_done _ [] (by rw [List.length_replicate]; decide)).2 _ emptyKV 1 _⟩

end GoMiniDb.Transaction
