import GoMiniDb.Database.Types

/-! # The in-memory transaction of the transaction package

`DBTX` keeps table definitions and records in two Go maps and a flag `active`. Every call
between `Begin` and `Commit` or `Abort` edits the maps in place; `Commit` only clears the
flag, and `Abort` replaces both maps with empty ones, so an abort loses what earlier
rounds committed and does not restore the state at its `Begin`. The helper methods of
`DBTX` (`validateTableDef`, `validateRecord`, the key loop, `copyRecord`) have the same
bodies as the database package's and are those. `Scan`, `CreateIndex`, `DropIndex` and
`GetDB` change nothing and are left out, as is the `db` field only `GetDB` reads. Every
call adds or removes a name in `tables` and `records` together, so a table's records map
is never `nil`; a missing one reads as empty.
-/
namespace GoMiniDb.Transaction

open GoMiniDb.Database

/-- `DBTX`: records are kept per table under their key text. -/
structure DBTX where
  active : Bool
  tables : GoMap String TableDef
  records : GoMap String (GoMap (List UInt8) Record)
deriving DecidableEq, Repr

def newDBTX : DBTX := ⟨false, [], []⟩

namespace DBTX

def begin (tx : DBTX) : GoError × DBTX :=
  if tx.active then (some "transaction already active", tx) else (none, { tx with active := true })

/-- `Commit`: the calls of the round stay as they were applied. -/
def commit (tx : DBTX) : GoError × DBTX :=
  if !tx.active then (some "transaction not active", tx) else (none, { tx with active := false })

/-- `Abort`: both maps are replaced by empty ones. -/
def abort (tx : DBTX) : GoError × DBTX :=
  if !tx.active then (some "transaction not active", tx) else (none, ⟨false, [], []⟩)

/-- `generateKeyString`: the empty key for a table that does not exist. -/
def generateKeyString (tx : DBTX) (table : String) (record : Record) : Call (List UInt8) :=
  match tx.tables.get? table with
  | none => .ok []
  | some tdef => primaryKeyText tdef record

def tableNew (tx : DBTX) (d : TableDef) : GoError × DBTX :=
  let name := d.name
  if !tx.active then (some "transaction not active", tx)
  else match validateTableDef d with
    | some e => (some s!"invalid table definition: {e}", tx)
    | none =>
      if (tx.tables.get? name).isSome then (some s!"table {name} already exists", tx)
      else (none, { tx with tables := tx.tables.set name d, records := tx.records.set name [] })

def insert (tx : DBTX) (table : String) (record : Record) : Call (GoError × DBTX) := do
  if !tx.active then return (some "transaction not active", tx)
  match tx.tables.get? table with
  | none => return (some s!"table {table} does not exist", tx)
  | some tdef =>
    match ← validateRecord record tdef with
    | some e => return (some s!"record validation failed: {e}", tx)
    | none =>
      let keyStr ← tx.generateKeyString table record
      if keyStr = [] then return (some "failed to generate primary key", tx)
      let tableRecords := (tx.records.get? table).getD []
      if (tableRecords.get? keyStr).isSome then
        return (some "record with primary key already exists", tx)
      return (none, { tx with records := tx.records.set table (tableRecords.set keyStr record) })

def get (tx : DBTX) (table : String) (key : Record) : Call (Option Record × GoError) := do
  if !tx.active then return (none, some "transaction not active")
  match tx.records.get? table with
  | none => return (none, some s!"table {table} does not exist")
  | some tableRecords =>
    let keyStr ← tx.generateKeyString table key
    if keyStr = [] then return (none, some "invalid primary key")
    return (tableRecords.get? keyStr, none)

def update (tx : DBTX) (table : String) (key record : Record) : Call (GoError × DBTX) := do
  if !tx.active then return (some "transaction not active", tx)
  match tx.tables.get? table with
  | none => return (some s!"table {table} does not exist", tx)
  | some tdef =>
    match ← validateRecord record tdef with
    | some e => return (some s!"record validation failed: {e}", tx)
    | none =>
      let keyStr ← tx.generateKeyString table key
      if keyStr = [] then return (some "invalid primary key", tx)
      let tableRecords := (tx.records.get? table).getD []
      if (tableRecords.get? keyStr).isNone then return (some "record not found", tx)
      return (none, { tx with records := tx.records.set table (tableRecords.set keyStr record) })

def delete (tx : DBTX) (table : String) (key : Record) : Call ((Bool × GoError) × DBTX) := do
  if !tx.active then return ((false, some "transaction not active"), tx)
  match tx.records.get? table with
  | none => return ((false, some s!"table {table} does not exist"), tx)
  | some tableRecords =>
    let keyStr ← tx.generateKeyString table key
    if keyStr = [] then return ((false, some "invalid primary key"), tx)
    if (tableRecords.get? keyStr).isNone then return ((false, none), tx)
    return ((true, none), { tx with records := tx.records.set table (tableRecords.erase keyStr) })

def dropTable (tx : DBTX) (tableName : String) : GoError × DBTX :=
  if !tx.active then (some "transaction not active", tx)
  else if tableName = "" then (some "table name cannot be empty", tx)
  else if (tx.tables.get? tableName).isNone then (some s!"table {tableName} does not exist", tx)
  else (none, { tx with tables := tx.tables.erase tableName, records := tx.records.erase tableName })

/-- `AlterTable`: the new definition is stored under the old name. -/
def alterTable (tx : DBTX) (tableName : String) (newDef : TableDef) : GoError × DBTX :=
  if !tx.active then (some "transaction not active", tx)
  else if tableName = "" then (some "table name cannot be empty", tx)
  else if (tx.tables.get? tableName).isNone then (some s!"table {tableName} does not exist", tx)
  else match validateTableDef newDef with
    | some e => (some s!"invalid table definition: {e}", tx)
    | none => (none, { tx with tables := tx.tables.set tableName { newDef with name := tableName } })

def truncateTable (tx : DBTX) (tableName : String) : GoError × DBTX :=
  if !tx.active then (some "transaction not active", tx)
  else if tableName = "" then (some "table name cannot be empty", tx)
  else if (tx.tables.get? tableName).isNone then (some s!"table {tableName} does not exist", tx)
  else (none, { tx with records := tx.records.set tableName [] })

def renameTable (tx : DBTX) (oldName newName : String) : GoError × DBTX :=
  if !tx.active then (some "transaction not active", tx)
  else if oldName = "" then (some "old table name cannot be empty", tx)
  else if newName = "" then (some "new table name cannot be empty", tx)
  else if oldName = newName then (none, tx)
  else match tx.tables.get? oldName with
    | none => (some s!"table {oldName} does not exist", tx)
    | some tdef =>
      if (tx.tables.get? newName).isSome then (some s!"table {newName} already exists", tx)
      else
        let oldRecords := (tx.records.get? oldName).getD []
        (none, { tx with
          tables := (tx.tables.set newName { tdef with name := newName }).erase oldName
          records := (tx.records.set newName oldRecords).erase oldName })

theorem abort_clears (tx : DBTX) (h : tx.active = true) : tx.abort = (none, ⟨false, [], []⟩) := by
  simp [abort, h]

theorem begin_abort_restores_iff (tx : DBTX) (h : tx.active = false) :
    tx.begin.2.abort.2 = tx ↔ tx.tables = [] ∧ tx.records = [] := by
  rw [begin, if_neg (by simp [h]), abort_clears _ rfl]
  cases tx
  simp only at h
  simp [h, eq_comm]

end DBTX

def usersDef : TableDef := ⟨"users", ["id"], [TYPE_INT64], 1⟩

/-- The `Begin` of a second round, after a first round that creates `users` and commits. -/
def secondBegin : GoError × DBTX := (newDBTX.begin.2.tableNew usersDef).2.commit.2.begin

/-- The second round aborts at once, and `users` is gone: the tables after `Abort` are not
those at its `Begin`. -/
theorem abort_loses_committed_table :
    secondBegin.1 = none ∧ secondBegin.2.abort.1 = none ∧
      secondBegin.2.tables = [("users", usersDef)] ∧ secondBegin.2.abort.2.tables = [] := by
  decide

end GoMiniDb.Transaction
