import GoMiniDb.Database.Types
import Mathlib.Data.List.Nodup

/-! # The schema manager of the database package

`SchemaManager` maps table names to definitions. Every method holds `sm.mu` for its whole
body, checks everything before it writes, and writes one new definition or removes one,
so a run is a sequence of calls. The indexing in `DropColumn`, `ModifyColumn` and
`validateSchemaCompatibility` would panic on a definition whose types and columns had
different lengths; on a schema the operations reach this never happens. Every stored
definition passes `validateTableDef` and sits under its own name, every failed call leaves
the map as it was, and so `ValidateSchema` never reports an error.
-/
namespace GoMiniDb.Database

/-- `SchemaManager`. -/
structure SchemaManager where
  tables : GoMap String TableDef
deriving DecidableEq, Repr

def newSchemaManager : SchemaManager := ⟨[]⟩

/-- The first loop of `validateSchemaCompatibility`, over `i < oldDef.PKeys`: a key
column's name must not change. When `i >= len(newDef.Cols)` the condition holds, and the
message's `newDef.Cols[i]` panics, as the lookup here does. -/
def pkNamesLoop (oldDef newDef : TableDef) : List Nat → Call GoError
  | [] => .ok none
  | i :: is => do
    let oldCol ← goIndex oldDef.cols i
    let newCol ← goIndex newDef.cols i
    if oldCol ≠ newCol then return some s!"primary key column {i} changed from {oldCol} to {newCol}"
    else pkNamesLoop oldDef newDef is

/-- The second loop of `validateSchemaCompatibility`: a key column's type must not change. -/
def pkTypesLoop (oldDef newDef : TableDef) : List Nat → Call GoError
  | [] => .ok none
  | i :: is => do
    let oldType ← goIndex oldDef.types i
    let newType ← goIndex newDef.types i
    if oldType ≠ newType then
      let col ← goIndex oldDef.cols i
      return some s!"primary key column {col} type changed from {oldType} to {newType}"
    else pkTypesLoop oldDef newDef is

def validateSchemaCompatibility (oldDef newDef : TableDef) : Call GoError := do
  let oldKeys := oldDef.pkeys
  let newKeys := newDef.pkeys
  if oldKeys ≠ newKeys then return some s!"primary key count changed from {oldKeys} to {newKeys}"
  match ← pkNamesLoop oldDef newDef (List.range oldKeys.toNat) with
  | some e => return some e
  | none => pkTypesLoop oldDef newDef (List.range oldKeys.toNat)

/-- The loop of `DropColumn` over `def.Cols` from index `i`: every column but `colIndex`,
with its type `def.Types[i]`. -/
def dropColumnLoop (types : List UInt32) (colIndex : Nat) : Nat → List String →
    Call (List String × List UInt32)
  | _, [] => .ok ([], [])
  | i, col :: cols =>
    if i ≠ colIndex then do
      let colType ← goIndex types i
      let (newCols, newTypes) ← dropColumnLoop types colIndex (i + 1) cols
      return (col :: newCols, colType :: newTypes)
    else dropColumnLoop types colIndex (i + 1) cols

namespace SchemaManager

def createTable (sm : SchemaManager) (d : TableDef) : GoError × SchemaManager :=
  let name := d.name
  if name = "" then (some "table name cannot be empty", sm)
  else if (sm.tables.get? name).isSome then (some s!"table {name} already exists", sm)
  else match validateTableDef d with
    | some e => (some s!"invalid table definition: {e}", sm)
    | none => (none, ⟨sm.tables.set name d⟩)

def dropTable (sm : SchemaManager) (name : String) : GoError × SchemaManager :=
  if (sm.tables.get? name).isNone then (some s!"table {name} does not exist", sm)
  else (none, ⟨sm.tables.erase name⟩)

def alterTable (sm : SchemaManager) (name : String) (newDef : TableDef) :
    Call (GoError × SchemaManager) :=
  match sm.tables.get? name with
  | none => .ok (some s!"table {name} does not exist", sm)
  | some oldDef =>
    match validateTableDef newDef with
    | some e => .ok (some s!"invalid table definition: {e}", sm)
    | none =>
      let got := newDef.name
      if got ≠ name then .ok (some s!"table name mismatch: expected {name}, got {got}", sm)
      else do
        match ← validateSchemaCompatibility oldDef newDef with
        | some e => return (some s!"schema compatibility check failed: {e}", sm)
        | none => return (none, ⟨sm.tables.set name newDef⟩)

def renameTable (sm : SchemaManager) (oldName newName : String) : GoError × SchemaManager :=
  if oldName = newName then (none, sm)
  else match sm.tables.get? oldName with
    | none => (some s!"table {oldName} does not exist", sm)
    | some d =>
      if (sm.tables.get? newName).isSome then (some s!"table {newName} already exists", sm)
      else if newName = "" then (some "new table name cannot be empty", sm)
      else if !isValidIdentifier newName then (some s!"invalid table name: {newName}", sm)
      else (none, ⟨(sm.tables.set newName { d with name := newName }).erase oldName⟩)

/-- `AddColumn`: the new column goes last and is not a key column. -/
def addColumn (sm : SchemaManager) (tableName columnName : String) (columnType : UInt32) :
    GoError × SchemaManager :=
  match sm.tables.get? tableName with
  | none => (some s!"table {tableName} does not exist", sm)
  | some d =>
    if columnName ∈ d.cols then
      (some s!"column {columnName} already exists in table {tableName}", sm)
    else if columnName = "" then (some "column name cannot be empty", sm)
    else if !isValidIdentifier columnName then (some s!"invalid column name: {columnName}", sm)
    else if columnType ≠ TYPE_INT64 ∧ columnType ≠ TYPE_BYTES then
      (some s!"invalid data type: {columnType}", sm)
    else (none, ⟨sm.tables.set tableName
      { d with cols := d.cols ++ [columnName], types := d.types ++ [columnType] }⟩)

def dropColumn (sm : SchemaManager) (tableName columnName : String) :
    Call (GoError × SchemaManager) :=
  match sm.tables.get? tableName with
  | none => .ok (some s!"table {tableName} does not exist", sm)
  | some d =>
    match d.cols.findIdx? (· = columnName) with
    | none => .ok (some s!"column {columnName} does not exist in table {tableName}", sm)
    | some colIndex =>
      if (colIndex : Int) < d.pkeys then .ok (some s!"cannot drop primary key column {columnName}", sm)
      else if d.types.length = 0 then .error "runtime error: makeslice: cap out of range"
      else do
        let (newCols, newTypes) ← dropColumnLoop d.types colIndex 0 d.cols
        return (none, ⟨sm.tables.set tableName { d with cols := newCols, types := newTypes }⟩)

def modifyColumn (sm : SchemaManager) (tableName columnName : String) (newType : UInt32) :
    Call (GoError × SchemaManager) :=
  match sm.tables.get? tableName with
  | none => .ok (some s!"table {tableName} does not exist", sm)
  | some d =>
    match d.cols.findIdx? (· = columnName) with
    | none => .ok (some s!"column {columnName} does not exist in table {tableName}", sm)
    | some colIndex =>
      if newType ≠ TYPE_INT64 ∧ newType ≠ TYPE_BYTES then .ok (some s!"invalid data type: {newType}", sm)
      else do
        let newTypes ← goSet d.types colIndex newType
        return (none, ⟨sm.tables.set tableName { d with types := newTypes }⟩)

def renameColumn (sm : SchemaManager) (tableName oldName newName : String) :
    Call (GoError × SchemaManager) :=
  match sm.tables.get? tableName with
  | none => .ok (some s!"table {tableName} does not exist", sm)
  | some d =>
    match d.cols.findIdx? (· = oldName) with
    | none => .ok (some s!"column {oldName} does not exist in table {tableName}", sm)
    | some oldIndex =>
      if newName ∈ d.cols then .ok (some s!"column {newName} already exists in table {tableName}", sm)
      else if newName = "" then .ok (some "new column name cannot be empty", sm)
      else if !isValidIdentifier newName then .ok (some s!"invalid column name: {newName}", sm)
      else do
        let newCols ← goSet d.cols oldIndex newName
        return (none, ⟨sm.tables.set tableName { d with cols := newCols }⟩)

/-- `ValidateSchema`: the first stored definition that fails, in `range` order. -/
def validateSchema (sm : SchemaManager) : GoError :=
  sm.tables.findSome? fun e =>
    let name := e.1
    (validateTableDef e.2).map fun err => s!"table {name} validation failed: {err}"

end SchemaManager

/-- The calls of the schema manager that change it. -/
inductive SchemaOp
  | createTable (d : TableDef)
  | dropTable (name : String)
  | alterTable (name : String) (newDef : TableDef)
  | renameTable (oldName newName : String)
  | addColumn (tableName columnName : String) (columnType : UInt32)
  | dropColumn (tableName columnName : String)
  | modifyColumn (tableName columnName : String) (newType : UInt32)
  | renameColumn (tableName oldName newName : String)
deriving DecidableEq, Repr

/-- One call: the error it returns and the schema after it, or its panic. -/
def SchemaManager.apply (sm : SchemaManager) : SchemaOp → Call (GoError × SchemaManager)
  | .createTable d => .ok (sm.createTable d)
  | .dropTable name => .ok (sm.dropTable name)
  | .alterTable name newDef => sm.alterTable name newDef
  | .renameTable oldName newName => .ok (sm.renameTable oldName newName)
  | .addColumn tableName columnName columnType => .ok (sm.addColumn tableName columnName columnType)
  | .dropColumn tableName columnName => sm.dropColumn tableName columnName
  | .modifyColumn tableName columnName newType => sm.modifyColumn tableName columnName newType
  | .renameColumn tableName oldName newName => sm.renameColumn tableName oldName newName

/-- The schemas that some sequence of returning calls reaches from `NewSchemaManager`. -/
inductive SchemaManager.Reachable : SchemaManager → Prop
  | init : Reachable newSchemaManager
  | step {sm sm' : SchemaManager} {op : SchemaOp} {r : GoError} :
      Reachable sm → sm.apply op = .ok (r, sm') → Reachable sm'

theorem pkNamesLoop_ok (oldDef newDef : TableDef) :
    ∀ is : List Nat, (∀ i ∈ is, i < oldDef.cols.length ∧ i < newDef.cols.length) →
      ∃ r, pkNamesLoop oldDef newDef is = .ok r
  | [], _ => ⟨none, rfl⟩
  | i :: is, h => by
    obtain ⟨ho, hn⟩ := h i (.head _)
    obtain ⟨r, hr⟩ := pkNamesLoop_ok oldDef newDef is fun j hj => h j (.tail _ hj)
    simp only [pkNamesLoop, goIndex_of_lt ho, goIndex_of_lt hn, ok_bind]
    split
    · exact ⟨_, rfl⟩
    · exact ⟨r, hr⟩

theorem pkTypesLoop_ok (oldDef newDef : TableDef) :
    ∀ is : List Nat, (∀ i ∈ is, i < oldDef.types.length ∧ i < newDef.types.length ∧
      i < oldDef.cols.length) → ∃ r, pkTypesLoop oldDef newDef is = .ok r
  | [], _ => ⟨none, rfl⟩
  | i :: is, h => by
    obtain ⟨ho, hn, hc⟩ := h i (.head _)
    obtain ⟨r, hr⟩ := pkTypesLoop_ok oldDef newDef is fun j hj => h j (.tail _ hj)
    simp only [pkTypesLoop, goIndex_of_lt ho, goIndex_of_lt hn, goIndex_of_lt hc, ok_bind]
    split
    · exact ⟨_, rfl⟩
    · exact ⟨r, hr⟩

theorem validateSchemaCompatibility_ok {oldDef newDef : TableDef} (ho : oldDef.Valid)
    (hn : newDef.Valid) : ∃ r, validateSchemaCompatibility oldDef newDef = .ok r := by
  unfold validateSchemaCompatibility
  by_cases hk : oldDef.pkeys = newDef.pkeys
  · have hlt : ∀ i ∈ List.range oldDef.pkeys.toNat, i < oldDef.cols.length ∧ i < newDef.cols.length := by
      intro i hi
      have := List.mem_range.1 hi
      have := ho.pkeys_le
      have := hn.pkeys_le
      omega
    obtain ⟨r, hr⟩ := pkNamesLoop_ok oldDef newDef _ hlt
    obtain ⟨r', hr'⟩ := pkTypesLoop_ok oldDef newDef (List.range oldDef.pkeys.toNat) fun i hi => by
      have := hlt i hi
      have := ho.types_length
      have := hn.types_length
      omega
    have hk' : ¬ (oldDef.pkeys ≠ newDef.pkeys) := not_not.2 hk
    simp only [hk', ↓reduceIte, pure_bind, hr, ok_bind]
    cases r
    · exact ⟨r', hr'⟩
    · exact ⟨_, rfl⟩
  · simp only [hk, ne_eq, not_false_eq_true, ↓reduceIte]
    exact ⟨_, rfl⟩

theorem dropColumnLoop_ok (types : List UInt32) (k : Nat) :
    ∀ (i : Nat) (cols : List String), i + cols.length ≤ types.length →
      ∃ cs ts, dropColumnLoop types k i cols = .ok (cs, ts) ∧ cs.Sublist cols ∧
        ts.length = cs.length ∧ (∀ t ∈ ts, t ∈ types) ∧
        cs.length + (if i ≤ k ∧ k < i + cols.length then 1 else 0) = cols.length
  | i, [], _ => ⟨[], [], rfl, .slnil, rfl, by simp, by simp⟩
  | i, col :: cols, h => by
    simp only [List.length_cons] at h
    obtain ⟨cs, ts, heq, hsub, hlen, hmem, hcount⟩ := dropColumnLoop_ok types k (i + 1) cols (by omega)
    by_cases hik : i = k
    · subst hik
      refine ⟨cs, ts, by simp [dropColumnLoop, heq], hsub.cons _, hlen, hmem, ?_⟩
      simp only [List.length_cons] at hcount ⊢
      split_ifs at hcount ⊢ <;> omega
    · have hi : i < types.length := by omega
      refine ⟨col :: cs, types[i] :: ts, ?_, hsub.cons₂ _, by simp [hlen], ?_, ?_⟩
      · simp [dropColumnLoop, hik, goIndex_of_lt hi, heq]
      · simp only [List.mem_cons, forall_eq_or_imp]
        exact ⟨List.getElem_mem _, hmem⟩
      · simp only [List.length_cons] at hcount ⊢
        split_ifs at hcount ⊢ <;> omega

namespace SchemaManager

/-- Every stored definition is valid and stored under its own name. -/
def Valid (sm : SchemaManager) : Prop := ∀ e ∈ sm.tables, e.2.name = e.1 ∧ e.2.Valid

/-- A call's result keeps the schema valid, and leaves it as it was when the call fails. -/
def Sound (sm : SchemaManager) (res : GoError × SchemaManager) : Prop :=
  (res.1.isSome → res.2 = sm) ∧ res.2.Valid

variable {sm : SchemaManager}

theorem Valid.get (h : sm.Valid) {k : String} {d : TableDef} (hd : sm.tables.get? k = some d) :
    d.name = k ∧ d.Valid :=
  h _ (GoMap.mem_of_get? hd)

theorem Valid.set (h : sm.Valid) {k : String} {d : TableDef} (hk : d.name = k) (hd : d.Valid) :
    Valid ⟨sm.tables.set k d⟩ := fun e he => by
  rcases GoMap.mem_set he with he | rfl
  · exact h e he
  · exact ⟨hk, hd⟩

theorem Valid.erase (h : sm.Valid) (k : String) : Valid ⟨sm.tables.erase k⟩ :=
  fun e he => h e (List.mem_of_mem_filter he)

theorem Sound.failed (h : sm.Valid) (e : String) : Sound sm (some e, sm) := ⟨fun _ => rfl, h⟩

theorem Sound.done {sm' : SchemaManager} (h : sm'.Valid) : Sound sm (none, sm') :=
  ⟨fun hs => (Bool.false_ne_true hs).elim, h⟩

theorem valid_with_columns {d : TableDef} (hd : d.Valid) (cols : List String) (types : List UInt32)
    (hlen : types.length = cols.length) (hkeys : d.pkeys ≤ cols.length) (hnd : cols.Nodup)
    (hid : ∀ c ∈ cols, isValidIdentifier c = true)
    (ht : ∀ t ∈ types, t = TYPE_INT64 ∨ t = TYPE_BYTES) :
    ({ d with cols := cols, types := types } : TableDef).Valid :=
  ⟨hd.name, fun he => by subst he; have := hd.pkeys_pos; simp at hkeys; omega, hlen, hd.pkeys_pos,
    hkeys, hnd, hid, ht⟩

theorem createTable_sound (h : sm.Valid) (d : TableDef) : Sound sm (sm.createTable d) := by
  dsimp only [createTable]
  split_ifs
  · exact .failed h _
  · exact .failed h _
  · rcases hv : validateTableDef d with _ | e
    · exact .done (h.set rfl ((validateTableDef_eq_none d).1 hv))
    · exact .failed h _

theorem dropTable_sound (h : sm.Valid) (name : String) : Sound sm (sm.dropTable name) := by
  unfold dropTable
  split_ifs
  · exact .failed h _
  · exact .done (h.erase name)

theorem alterTable_sound (h : sm.Valid) (name : String) (newDef : TableDef) :
    ∃ res, sm.alterTable name newDef = .ok res ∧ Sound sm res := by
  unfold alterTable
  rcases hget : sm.tables.get? name with _ | oldDef
  · exact ⟨_, rfl, .failed h _⟩
  dsimp only
  rcases hv : validateTableDef newDef with _ | e
  · have hnew := (validateTableDef_eq_none newDef).1 hv
    dsimp only
    by_cases hname : newDef.name = name
    · obtain ⟨r, hr⟩ := validateSchemaCompatibility_ok (h.get hget).2 hnew
      have hname' : ¬ (newDef.name ≠ name) := not_not.2 hname
      simp only [hname', ↓reduceIte, hr, ok_bind]
      cases r
      · exact ⟨_, rfl, .done (h.set hname hnew)⟩
      · exact ⟨_, rfl, .failed h _⟩
    · simp only [hname, ne_eq, not_false_eq_true, ↓reduceIte]
      exact ⟨_, rfl, .failed h _⟩
  · exact ⟨_, rfl, .failed h _⟩

theorem renameTable_sound (h : sm.Valid) (oldName newName : String) :
    Sound sm (sm.renameTable oldName newName) := by
  unfold renameTable
  by_cases hsame : oldName = newName
  · simp only [hsame, ↓reduceIte]
    exact ⟨fun _ => rfl, h⟩
  rcases hd : sm.tables.get? oldName with _ | d
  · simp only [hsame, ↓reduceIte]
    exact .failed h _
  simp only [hsame, ↓reduceIte]
  split_ifs with h1 h2 h3
  · exact .failed h _
  · exact .failed h _
  · exact .failed h _
  · have hv := (h.get hd).2
    exact .done ((h.set (d := { d with name := newName }) rfl ⟨h2, hv.cols, hv.types_length, hv.pkeys_pos, hv.pkeys_le, hv.nodup,
      hv.idents, hv.types⟩).erase oldName)

theorem addColumn_sound (h : sm.Valid) (tableName columnName : String) (columnType : UInt32) :
    Sound sm (sm.addColumn tableName columnName columnType) := by
  unfold addColumn
  rcases hd : sm.tables.get? tableName with _ | d
  · exact .failed h _
  obtain ⟨hname, hv⟩ := h.get hd
  dsimp only
  split_ifs with h1 h2 h3 h4
  · exact .failed h _
  · exact .failed h _
  · exact .failed h _
  · exact .failed h _
  · refine .done (h.set hname (valid_with_columns hv _ _ (by simp [hv.types_length])
      (by simp; have := hv.pkeys_le; omega) ?_ ?_ ?_))
    · exact List.nodup_append.2 ⟨hv.nodup, List.nodup_singleton _, by simpa using h1⟩
    · simp only [List.mem_append, List.mem_singleton]
      rintro c (hc | rfl)
      · exact hv.idents c hc
      · simpa using h3
    · simp only [List.mem_append, List.mem_singleton]
      rintro t (ht | rfl)
      · exact hv.types t ht
      · by_contra hne; exact h4 (by simpa [not_or] using hne)

theorem dropColumn_sound (h : sm.Valid) (tableName columnName : String) :
    ∃ res, sm.dropColumn tableName columnName = .ok res ∧ Sound sm res := by
  unfold dropColumn
  rcases hget : sm.tables.get? tableName with _ | d
  · exact ⟨_, rfl, .failed h _⟩
  obtain ⟨hname, hv⟩ := h.get hget
  dsimp only
  rcases hidx : d.cols.findIdx? (· = columnName) with _ | k
  · exact ⟨_, rfl, .failed h _⟩
  have hk := (List.findIdx?_eq_some_iff_findIdx_eq.1 hidx).1
  dsimp only
  by_cases hpk : (k : Int) < d.pkeys
  · simp only [hpk, ↓reduceIte]
    exact ⟨_, rfl, .failed h _⟩
  have htypes : d.types.length ≠ 0 := by have := hv.types_length; omega
  obtain ⟨cs, ts, heq, hsub, hlen, hmem, hcount⟩ :=
    dropColumnLoop_ok d.types k 0 d.cols (by have := hv.types_length; omega)
  simp only [hpk, htypes, ↓reduceIte, heq, ok_bind]
  have hcs : cs.length + 1 = d.cols.length := by simpa [hk] using hcount
  exact ⟨_, rfl, .done (h.set hname (valid_with_columns hv cs ts hlen (by omega)
    (hv.nodup.sublist hsub) (fun c hc => hv.idents c (hsub.subset hc))
    (fun t ht => hv.types t (hmem t ht))))⟩

theorem modifyColumn_sound (h : sm.Valid) (tableName columnName : String) (newType : UInt32) :
    ∃ res, sm.modifyColumn tableName columnName newType = .ok res ∧ Sound sm res := by
  unfold modifyColumn
  rcases hget : sm.tables.get? tableName with _ | d
  · exact ⟨_, rfl, .failed h _⟩
  obtain ⟨hname, hv⟩ := h.get hget
  dsimp only
  rcases hidx : d.cols.findIdx? (· = columnName) with _ | k
  · exact ⟨_, rfl, .failed h _⟩
  have hk := (List.findIdx?_eq_some_iff_findIdx_eq.1 hidx).1
  dsimp only
  by_cases ht : newType ≠ TYPE_INT64 ∧ newType ≠ TYPE_BYTES
  · rw [if_pos ht]
    exact ⟨_, rfl, .failed h _⟩
  have hlt : k < d.types.length := by have := hv.types_length; omega
  rw [if_neg ht]
  simp only [goSet, hlt, ↓reduceIte, ok_bind]
  refine ⟨_, rfl, .done (h.set hname (valid_with_columns hv d.cols _ (by simp [hv.types_length])
    hv.pkeys_le hv.nodup hv.idents fun t htm => ?_))⟩
  rcases List.mem_or_eq_of_mem_set htm with htm | rfl
  · exact hv.types t htm
  · by_contra hne; exact ht (by simpa [not_or] using hne)

theorem renameColumn_sound (h : sm.Valid) (tableName oldName newName : String) :
    ∃ res, sm.renameColumn tableName oldName newName = .ok res ∧ Sound sm res := by
  unfold renameColumn
  rcases hget : sm.tables.get? tableName with _ | d
  · exact ⟨_, rfl, .failed h _⟩
  obtain ⟨hname, hv⟩ := h.get hget
  dsimp only
  rcases hidx : d.cols.findIdx? (· = oldName) with _ | k
  · exact ⟨_, rfl, .failed h _⟩
  have hk := (List.findIdx?_eq_some_iff_findIdx_eq.1 hidx).1
  dsimp only
  split_ifs with h1 h2 h3
  · exact ⟨_, rfl, .failed h _⟩
  · exact ⟨_, rfl, .failed h _⟩
  · exact ⟨_, rfl, .failed h _⟩
  simp only [goSet, hk, ↓reduceIte, ok_bind]
  refine ⟨_, rfl, .done (h.set hname (valid_with_columns hv _ d.types (by simp [hv.types_length])
    (by simpa using hv.pkeys_le) (hv.nodup.set h1) (fun c hc => ?_) hv.types))⟩
  rcases List.mem_or_eq_of_mem_set hc with hc | rfl
  · exact hv.idents c hc
  · simpa using h3

theorem Valid.apply (h : sm.Valid) : ∀ op : SchemaOp, ∃ res, sm.apply op = .ok res ∧ Sound sm res
  | .createTable d => ⟨_, rfl, createTable_sound h d⟩
  | .dropTable name => ⟨_, rfl, dropTable_sound h name⟩
  | .alterTable name newDef => alterTable_sound h name newDef
  | .renameTable oldName newName => ⟨_, rfl, renameTable_sound h oldName newName⟩
  | .addColumn t c ty => ⟨_, rfl, addColumn_sound h t c ty⟩
  | .dropColumn t c => dropColumn_sound h t c
  | .modifyColumn t c ty => modifyColumn_sound h t c ty
  | .renameColumn t o n => renameColumn_sound h t o n

theorem Valid.validateSchema (h : sm.Valid) : sm.validateSchema = none :=
  List.findSome?_eq_none_iff.2 fun e he => by simp [(validateTableDef_eq_none _).2 (h e he).2]

theorem Reachable.valid (h : sm.Reachable) : sm.Valid := by
  induction h with
  | init => intro e he; simp [newSchemaManager] at he
  | step _ hop ih =>
    obtain ⟨res, hres, hsound⟩ := ih.apply _
    rw [hop] at hres
    cases hres
    exact hsound.2

/-- From every schema a sequence of calls reaches, each stored definition passes
`validateTableDef` under its own name, `ValidateSchema` returns `nil`, and every call
returns without a panic, leaving the schema unchanged when it returns an error. -/
theorem Reachable.schema_sound (h : sm.Reachable) :
    (∀ e ∈ sm.tables, e.2.name = e.1 ∧ validateTableDef e.2 = none) ∧
      sm.validateSchema = none ∧
      ∀ op, ∃ r sm', sm.apply op = .ok (r, sm') ∧ (r.isSome → sm' = sm) := by
  have hv := h.valid
  refine ⟨fun e he => ⟨(hv e he).1, (validateTableDef_eq_none _).2 (hv e he).2⟩, hv.validateSchema,
    fun op => ?_⟩
  obtain ⟨⟨r, sm'⟩, hres, hsound⟩ := hv.apply op
  exact ⟨r, sm', hres, hsound.1⟩

theorem create_add_schema_sound :
    Reachable ⟨[("t", ⟨"t", ["id", "v"], [TYPE_INT64, TYPE_BYTES], 1⟩)]⟩ ∧
      validateTableDef ⟨"t", ["id", "v"], [TYPE_INT64, TYPE_BYTES], 1⟩ = none ∧
      validateSchema ⟨[("t", ⟨"t", ["id", "v"], [TYPE_INT64, TYPE_BYTES], 1⟩)]⟩ = none :=
  have h1 := @Reachable.step _ _ (.createTable ⟨"t", ["id"], [TYPE_INT64], 1⟩) none .init rfl
  have h2 := @Reachable.step _ _ (.addColumn "t" "v" TYPE_BYTES) none h1 rfl
  have hs := Reachable.schema_sound h2
  ⟨h2, (hs.1 _ (.head _)).2, hs.2.1⟩

end SchemaManager

end GoMiniDb.Database
