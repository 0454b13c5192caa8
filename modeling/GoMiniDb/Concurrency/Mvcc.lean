import GoMiniDb.GoMap

/-! # The MVCC manager of the concurrency package

`MVCCManager` keeps one `Version` per table and key and a map of transactions. Time is a
logical clock that every `time.Now()` reads and advances, so timestamps strictly increase.
Each exported method is one atomic step; `CommitTransaction` is `validateTransaction`
then `applyWrites`, which take the manager's lock separately. The `Next` field of
`Version` is never set by the code and is left out; data is an opaque `α`, `none` for Go's
`nil`.
-/
namespace GoMiniDb.Concurrency

variable {α : Type}

/-- `Version`. -/
structure Version (α : Type) where
  version : Nat
  transaction : Nat
  data : Option α
  timestamp : Nat
  isDeleted : Bool
deriving DecidableEq, Repr

/-- `TransactionStatus`. -/
inductive TransactionStatus
  | active
  | committed
  | aborted
deriving DecidableEq, Repr

/-- `Transaction`: the read set records `true` per table and key. -/
structure Transaction (α : Type) where
  id : Nat
  startTime : Nat
  readTime : Nat
  status : TransactionStatus
  readSet : GoMap String (GoMap String Bool)
  writeSet : GoMap String (GoMap String (Option α))
deriving DecidableEq, Repr

/-- `MVCCManager`, with the clock `time.Now()` reads. -/
structure MVCCManager (α : Type) where
  versions : GoMap String (GoMap String (Version α))
  transactions : GoMap Nat (Transaction α)
  nextVersion : Nat
  nextTxID : Nat
  clock : Nat
deriving DecidableEq, Repr

def newMVCCManager : MVCCManager α := ⟨[], [], 1, 1, 0⟩

def Transaction.recordRead (t : Transaction α) (table key : String) : Transaction α :=
  { t with readSet := t.readSet.set table (((t.readSet.get? table).getD []).set key true) }

namespace MVCCManager

def tx (m : MVCCManager α) (id : Nat) : Except String (Transaction α) :=
  match m.transactions.get? id with
  | some t => .ok t
  | none => .error "invalid memory address or nil pointer dereference"

def putTx (m : MVCCManager α) (t : Transaction α) : MVCCManager α :=
  { m with transactions := m.transactions.set t.id t }

/-- `BeginTransaction`: `StartTime` and `ReadTime` are two reads of the clock. -/
def BeginTransaction (m : MVCCManager α) : Nat × MVCCManager α :=
  let t : Transaction α := ⟨m.nextTxID, m.clock, m.clock + 1, .active, [], []⟩
  (m.nextTxID, { m with nextTxID := m.nextTxID + 1, clock := m.clock + 2 }.putTx t)

/-- `findReadVersion`: the newest version of the table, of any key, that another
transaction wrote at or before the reader's `ReadTime`. -/
def findReadVersion (m : MVCCManager α) (t : Transaction α) (table _key : String) :
    Option (Version α) :=
  ((m.versions.get? table).getD []).foldl (fun latest kv =>
    let v := kv.2
    if v.transaction = t.id then latest
    else if v.timestamp ≤ t.readTime then
      match latest with
      | some l => if v.version > l.version then some v else latest
      | none => some v
    else latest) none

/-- `Read`: own writes first, then `findReadVersion`; a read is recorded only when it
returns data. -/
def Read (m : MVCCManager α) (id : Nat) (table key : String) :
    Except String (Option α × MVCCManager α) := do
  let t ← m.tx id
  if t.status ≠ .active then throw "transaction is not active"
  match (t.writeSet.get? table).bind (·.get? key) with
  | some data => return (data, m.putTx (t.recordRead table key))
  | none =>
    match m.findReadVersion t table key with
    | none => return (none, m)
    | some v =>
      if v.isDeleted then return (none, m)
      else return (v.data, m.putTx (t.recordRead table key))

def Write (m : MVCCManager α) (id : Nat) (table key : String) (data : Option α) :
    Except String (MVCCManager α) := do
  let t ← m.tx id
  if t.status ≠ .active then throw "transaction is not active"
  return m.putTx { t with
    writeSet := t.writeSet.set table (((t.writeSet.get? table).getD []).set key data) }

def Delete (m : MVCCManager α) (id : Nat) (table key : String) : Except String (MVCCManager α) :=
  m.Write id table key none

def checkWriteConflict (m : MVCCManager α) (t : Transaction α) (table key : String) : Bool :=
  match (m.versions.get? table).bind (·.get? key) with
  | some v => v.transaction = t.id ∨ ¬ v.timestamp > t.readTime
  | none => true

def validateTransaction (m : MVCCManager α) (t : Transaction α) : Bool :=
  t.readSet.all fun tk => tk.2.all fun kb => m.checkWriteConflict t tk.1 kb.1

/-- `applyWrites`: one new version per written key, replacing the key's version. -/
def applyWrites (m : MVCCManager α) (t : Transaction α) : MVCCManager α :=
  t.writeSet.foldl (fun m tw => tw.2.foldl (fun m kd =>
    let v : Version α := ⟨m.nextVersion, t.id, kd.2, m.clock, kd.2.isNone⟩
    { m with
      versions := m.versions.set tw.1 (((m.versions.get? tw.1).getD []).set kd.1 v)
      nextVersion := m.nextVersion + 1
      clock := m.clock + 1 }) m) m

def CommitTransaction (m : MVCCManager α) (id : Nat) : Except String (Except String Unit × MVCCManager α) := do
  let t ← m.tx id
  if t.status ≠ .active then return (.error "transaction is not active", m)
  if ¬ m.validateTransaction t then
    return (.error "transaction validation failed", m.putTx { t with status := .aborted })
  let m := m.applyWrites t
  return (.ok (), m.putTx { t with status := .committed })

def AbortTransaction (m : MVCCManager α) (id : Nat) : Except String (MVCCManager α) := do
  let t ← m.tx id
  if t.status ≠ .active then return m
  return m.putTx { t with status := .aborted }

theorem read_ignores_key (m : MVCCManager α) (id : Nat) (table key key' : String) {t : Transaction α}
    (ht : m.tx id = .ok t) (hk : (t.writeSet.get? table).bind (·.get? key) = none)
    (hk' : (t.writeSet.get? table).bind (·.get? key') = none) :
    (m.Read id table key).map Prod.fst = (m.Read id table key').map Prod.fst := by
  simp only [Read, ht, hk, hk', bind, Except.bind]
  rw [show m.findReadVersion t table key' = m.findReadVersion t table key from rfl]
  split_ifs
  · rfl
  · rcases m.findReadVersion t table key with _ | v
    · rfl
    · by_cases hv : v.isDeleted <;> simp [hv, pure, Except.pure, Except.map]

end MVCCManager

open MVCCManager

/-- T1 writes `("t", "a") = 1` and commits, T2 writes `("t", "b") = 2` and commits, then T3
reads `("t", "a")`. The one committed write to that key is T1's, stamped before T3's
`ReadTime`, yet the read returns 2: `findReadVersion` takes the newest version of any key
of the table. -/
theorem read_returns_other_key :
    (do
      let (t1, m) := (newMVCCManager : MVCCManager Nat).BeginTransaction
      let m ← m.Write t1 "t" "a" (some 1)
      let (_, m) ← m.CommitTransaction t1
      let (t2, m) := m.BeginTransaction
      let m ← m.Write t2 "t" "b" (some 2)
      let (_, m) ← m.CommitTransaction t2
      let (t3, m) := m.BeginTransaction
      let t ← m.tx t3
      let (r, _) ← m.Read t3 "t" "a"
      return (r, (m.versions.get? "t").bind (·.get? "a"), t.readTime)) =
    (.ok (some 2, some ⟨1, 1, some 1, 2, false⟩, 7) : Except String _) := rfl

/-- T1 and T2 both read the absent `("t", "k")`, both write it, and both commits succeed:
a read that finds no version is not recorded, so neither validation sees a conflict. -/
theorem both_writers_commit :
    (do
      let (t1, m) := (newMVCCManager : MVCCManager Nat).BeginTransaction
      let (t2, m) := m.BeginTransaction
      let (r1, m) ← m.Read t1 "t" "k"
      let (r2, m) ← m.Read t2 "t" "k"
      let m ← m.Write t1 "t" "k" (some 1)
      let m ← m.Write t2 "t" "k" (some 2)
      let (c1, m) ← m.CommitTransaction t1
      let (c2, _) ← m.CommitTransaction t2
      return (r1, r2, c1, c2)) =
    (.ok (none, none, .ok (), .ok ()) : Except String _) := rfl

end GoMiniDb.Concurrency
