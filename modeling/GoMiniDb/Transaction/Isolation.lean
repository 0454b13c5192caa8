import GoMiniDb.GoMap

/-! # The isolation manager of the transaction package

`IsolationManager` keeps a version per table and, per transaction, the version of each
table at its last read and its last write. Every method holds `im.mu` for its whole body,
so each call is one atomic step and a run is a sequence of calls. Go's `range` over a map
is the list order of `GoMap`; it only decides which conflicting transaction an error
names. Errors are their texts. The level is an argument of every read and write, as in
the source, and `BeginTransaction` ignores its own. `ReadOperation` records the current
version as the read version before it compares the two, so under repeatable read and
serializable it can never report a changed version.
-/
namespace GoMiniDb.Transaction

abbrev TransactionID := UInt64

/-- The `iota` constants of `IsolationLevel`, a Go `int`, kept as an `Int`. -/
def isolationReadUncommitted : Int := 0
def isolationReadCommitted : Int := 1
def isolationRepeatableRead : Int := 2
def isolationSerializable : Int := 3

/-- `IsolationManager`: table versions, then read and write versions per transaction. -/
structure IsolationManager where
  versionMap : GoMap String UInt64
  readVersions : GoMap TransactionID (GoMap String UInt64)
  writeVersions : GoMap TransactionID (GoMap String UInt64)
deriving DecidableEq, Repr

def newIsolationManager : IsolationManager := ⟨[], [], []⟩

/-- `m[txID][table] = v`, after making the inner map if it is `nil`. -/
def recordVersion (m : GoMap TransactionID (GoMap String UInt64)) (txID : TransactionID)
    (table : String) (v : UInt64) : GoMap TransactionID (GoMap String UInt64) :=
  m.set txID (((m.get? txID).getD []).set table v)

/-- `m[txID][table]`, absent when either map lacks the key. -/
def lookupVersion (m : GoMap TransactionID (GoMap String UInt64)) (txID : TransactionID)
    (table : String) : Option UInt64 :=
  (m.get? txID).bind (·.get? table)

@[simp] theorem lookupVersion_recordVersion (m : GoMap TransactionID (GoMap String UInt64))
    (txID : TransactionID) (table : String) (v : UInt64) :
    lookupVersion (recordVersion m txID table v) txID table = some v := by
  simp [lookupVersion, recordVersion, GoMap.get?_set]

/-- The first other transaction, in `range` order, whose version of `table` satisfies
`conflicts`, with that version: the loop of the two conflict checks. -/
def firstConflict (m : GoMap TransactionID (GoMap String UInt64)) (txID : TransactionID)
    (table : String) (conflicts : UInt64 → Bool) : Option (TransactionID × UInt64) :=
  m.findSome? fun e =>
    if e.1 = txID then none
    else match e.2.get? table with
      | some v => if conflicts v then some (e.1, v) else none
      | none => none

namespace IsolationManager

/-- `im.versionMap[table]`, zero for a table no commit has touched. -/
def currentVersion (im : IsolationManager) (table : String) : UInt64 :=
  (im.versionMap.get? table).getD 0

/-- `BeginTransaction`: empty read and write maps; always returns `nil`. -/
def beginTransaction (im : IsolationManager) (txID : TransactionID) (_isolation : Int) :
    IsolationManager :=
  { im with readVersions := im.readVersions.set txID [], writeVersions := im.writeVersions.set txID [] }

def endTransaction (im : IsolationManager) (txID : TransactionID) : IsolationManager :=
  { im with readVersions := im.readVersions.erase txID, writeVersions := im.writeVersions.erase txID }

/-- `checkReadWriteConflicts`: another transaction read the table at an older version. -/
def checkReadWriteConflicts (im : IsolationManager) (txID : TransactionID) (table : String)
    (currentVersion : UInt64) : Except String UInt64 :=
  match firstConflict im.readVersions txID table (· < currentVersion) with
  | some (other, readVersion) =>
    .error s!"read-write conflict: transaction {other} read table {table} at version {readVersion}, but current version is {currentVersion}"
  | none => .ok currentVersion

/-- `checkWriteWriteConflicts`: another transaction wrote the table at this version or later. -/
def checkWriteWriteConflicts (im : IsolationManager) (txID : TransactionID) (table : String)
    (currentVersion : UInt64) : Except String UInt64 :=
  match firstConflict im.writeVersions txID table (· ≥ currentVersion) with
  | some (other, writeVersion) =>
    .error s!"write-write conflict: transaction {other} wrote to table {table} at version {writeVersion}, but current version is {currentVersion}"
  | none => .ok currentVersion

/-- `ReadOperation`: the read version is recorded first, then the level's check runs. -/
def readOperation (im : IsolationManager) (txID : TransactionID) (table : String)
    (isolation : Int) : Except String UInt64 × IsolationManager :=
  let currentVersion := im.currentVersion table
  let im := { im with readVersions := recordVersion im.readVersions txID table currentVersion }
  let prev := lookupVersion im.readVersions txID table
  (if isolation = isolationReadUncommitted then .ok currentVersion
   else if isolation = isolationReadCommitted then .ok currentVersion
   else if isolation = isolationRepeatableRead then
     match prev with
     | some prevVersion =>
       if prevVersion ≠ currentVersion then
         .error s!"repeatable read violation: table {table} version changed from {prevVersion} to {currentVersion}"
       else .ok currentVersion
     | none => .ok currentVersion
   else if isolation = isolationSerializable then
     match prev with
     | some prevVersion =>
       if prevVersion ≠ currentVersion then
         .error s!"serializable read violation: table {table} version changed from {prevVersion} to {currentVersion}"
       else .ok currentVersion
     | none => .ok currentVersion
   else .error s!"unknown isolation level: {isolation}", im)

/-- `WriteOperation`: the write version is recorded first, then the level's checks run. -/
def writeOperation (im : IsolationManager) (txID : TransactionID) (table : String)
    (isolation : Int) : Except String UInt64 × IsolationManager :=
  let currentVersion := im.currentVersion table
  let im := { im with writeVersions := recordVersion im.writeVersions txID table currentVersion }
  (if isolation = isolationReadUncommitted then .ok currentVersion
   else if isolation = isolationReadCommitted then
     im.checkWriteWriteConflicts txID table currentVersion
   else if isolation = isolationRepeatableRead ∨ isolation = isolationSerializable then do
     let _ ← im.checkReadWriteConflicts txID table currentVersion
     im.checkWriteWriteConflicts txID table currentVersion
   else .error s!"unknown isolation level: {isolation}", im)

/-- `CommitTransaction`: every table the transaction wrote moves to its next version (a
`uint64` increment), then the transaction's maps go; always returns `nil`. -/
def commitTransaction (im : IsolationManager) (txID : TransactionID) : IsolationManager :=
  let versionMap := match im.writeVersions.get? txID with
    | some writeVersions =>
      writeVersions.foldl (fun vm e => vm.set e.1 ((vm.get? e.1).getD 0 + 1)) im.versionMap
    | none => im.versionMap
  ⟨versionMap, im.readVersions.erase txID, im.writeVersions.erase txID⟩

/-- `AbortTransaction`: the same clean-up as `EndTransaction`, with no version change. -/
def abortTransaction (im : IsolationManager) (txID : TransactionID) : IsolationManager :=
  im.endTransaction txID

def getTableVersion (im : IsolationManager) (table : String) : UInt64 := im.currentVersion table

/-- `ReadOperation` at any level: it records the table's current version as the read
version and returns it for each of the four levels, an error for any other value. No
level ever reports a changed version, since the comparison is with the version just
recorded. -/
theorem readOperation_eq (im : IsolationManager) (txID : TransactionID) (table : String)
    (isolation : Int) :
    im.readOperation txID table isolation =
      (if 0 ≤ isolation ∧ isolation ≤ 3 then .ok (im.currentVersion table)
        else .error s!"unknown isolation level: {isolation}",
       { im with readVersions := recordVersion im.readVersions txID table (im.currentVersion table) }) := by
  simp only [readOperation, lookupVersion_recordVersion, ne_eq, not_true_eq_false, ↓reduceIte,
    isolationReadUncommitted, isolationReadCommitted, isolationRepeatableRead, isolationSerializable]
  split_ifs <;> first | rfl | omega

/-- Transaction 1 reads "users" at version 0 under repeatable read; transaction 2 writes
it and commits, which moves the version to 1; transaction 1's next read returns version 1
with no error. -/
theorem repeatable_read_sees_commit :
    (do
      let im := (newIsolationManager.beginTransaction 1 isolationRepeatableRead).beginTransaction 2
        isolationRepeatableRead
      let (r1, im) := im.readOperation 1 "users" isolationRepeatableRead
      let v1 ← r1
      let (w, im) := im.writeOperation 2 "users" isolationRepeatableRead
      let _ ← w
      let im := im.commitTransaction 2
      let (r2, _) := im.readOperation 1 "users" isolationRepeatableRead
      let v2 ← r2
      return (v1, im.getTableVersion "users", v2)) =
    (.ok (0, 1, 1) : Except String _) := rfl

end IsolationManager

end GoMiniDb.Transaction
