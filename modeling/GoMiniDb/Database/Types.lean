import GoMiniDb.GoMap

/-! # Values, records and table definitions of the database package

`Value`, `Record` and `TableDef` of `database/types.go`, with the checks `validateTableDef`,
`isValidIdentifier` and `validateRecord` and the key text `valueToString` that the table,
the schema manager and the transaction layer share. A call either returns or panics with
the runtime's message (`Call`); a returned Go `error` is `none` for `nil`, else its text,
and `%w` wrapping is concatenation. `copyRecord` and the copies of a definition are the
identity on these immutable values. Key strings are made from the bytes of `[]byte`
values, so they are kept as bytes; names are `String`s, and `isValidIdentifier` reads
their UTF-8 bytes as the source does. Nil pointers are never passed and are left out.
-/
namespace GoMiniDb.Database

/-- A call that returns its value, or panics with the runtime's message. -/
abbrev Call := Except String

abbrev GoError := Option String

def goIndex {α : Type} (s : List α) (i : Nat) : Call α :=
  match s[i]? with
  | some a => .ok a
  | none => .error "runtime error: index out of range"

def goSet {α : Type} (s : List α) (i : Nat) (a : α) : Call (List α) :=
  if i < s.length then .ok (s.set i a) else .error "runtime error: index out of range"

@[simp] theorem ok_bind {α β : Type} (a : α) (f : α → Call β) :
    (Except.ok a : Call α) >>= f = f a := rfl

theorem goIndex_of_lt {α : Type} {s : List α} {i : Nat} (h : i < s.length) :
    goIndex s i = .ok (s.get ⟨i, h⟩) := by
  simp [goIndex, List.getElem?_eq_getElem h]

def TYPE_ERROR : UInt32 := 0
def TYPE_BYTES : UInt32 := 1
def TYPE_INT64 : UInt32 := 2

/-- `Value`. `I64`, a Go `int64`, is only printed and copied, so it is kept as an `Int`. -/
structure Value where
  type : UInt32
  i64 : Int
  str : List UInt8
deriving DecidableEq, Repr

/-- `Record`. -/
structure Record where
  cols : List String
  vals : List Value
deriving DecidableEq, Repr

/-- `TableDef`; `PKeys`, the number of primary-key columns, is a Go `int`. -/
structure TableDef where
  name : String
  cols : List String
  types : List UInt32
  pkeys : Int
deriving DecidableEq, Repr

/-- `Record.Get`: the value of the first column named `col`; `&r.Vals[i]` panics when the
record has fewer values than columns. -/
def Record.get (r : Record) (col : String) : Call (Option Value) :=
  match r.cols.findIdx? (· = col) with
  | some i => some <$> goIndex r.vals i
  | none => .ok none

def isLetter (b : UInt8) : Bool := (b ≥ 97 && b ≤ 122) || (b ≥ 65 && b ≤ 90)

def isDigit (b : UInt8) : Bool := b ≥ 48 && b ≤ 57

/-- `isValidIdentifier`: a letter or `_` (byte 95), then letters, digits and `_`. -/
def isValidIdentifier (name : String) : Bool :=
  match name.toUTF8.data.toList with
  | [] => false
  | b :: rest => (isLetter b || b = 95) && rest.all fun c => isLetter c || isDigit c || c = 95

/-- The duplicate-name loop of `validateTableDef` over `colSet`: the first column that
an earlier one already named. -/
def firstDuplicate : List String → List String → Option String
  | _, [] => none
  | seen, col :: cols => if col ∈ seen then some col else firstDuplicate (col :: seen) cols

def checkColumnName (col : String) : Option String :=
  if col = "" then some "column name cannot be empty"
  else if !isValidIdentifier col then some s!"invalid column name: {col}"
  else none

/-- The data-type loop of `validateTableDef` at column `col` of type `colType`. -/
def checkColumnType (col : String) (colType : UInt32) : Option String :=
  if colType ≠ TYPE_INT64 ∧ colType ≠ TYPE_BYTES then
    some s!"invalid data type for column {col}: {colType}"
  else none

/-- `validateTableDef`. The type loop reads `def.Cols[i]` for each index of `def.Types`,
which by then has the length of `def.Cols`, so it runs over the pairs. -/
def validateTableDef (d : TableDef) : GoError :=
  let ncols := d.cols.length
  let ntypes := d.types.length
  let pkeys := d.pkeys
  if d.name = "" then some "table name cannot be empty"
  else if ncols = 0 then some "table must have at least one column"
  else if ncols ≠ ntypes then some s!"column count mismatch: {ncols} columns, {ntypes} types"
  else if pkeys ≤ 0 then some "table must have at least one primary key"
  else if pkeys > ncols then
    some s!"primary key count ({pkeys}) cannot exceed column count ({ncols})"
  else match firstDuplicate [] d.cols with
    | some col => some s!"duplicate column name: {col}"
    | none => match d.cols.findSome? checkColumnName with
      | some e => some e
      | none => (d.cols.zip d.types).findSome? fun p => checkColumnType p.1 p.2

/-- What `validateTableDef` accepts. -/
structure TableDef.Valid (d : TableDef) : Prop where
  name : d.name ≠ ""
  cols : d.cols ≠ []
  types_length : d.types.length = d.cols.length
  pkeys_pos : 0 < d.pkeys
  pkeys_le : d.pkeys ≤ d.cols.length
  nodup : d.cols.Nodup
  idents : ∀ col ∈ d.cols, isValidIdentifier col = true
  types : ∀ t ∈ d.types, t = TYPE_INT64 ∨ t = TYPE_BYTES

theorem firstDuplicate_eq_none (seen cols : List String) :
    firstDuplicate seen cols = none ↔ cols.Nodup ∧ ∀ c ∈ cols, c ∉ seen := by
  induction cols generalizing seen with
  | nil => simp [firstDuplicate]
  | cons col cols ih =>
    by_cases h : col ∈ seen
    · simp [firstDuplicate, h]
    · rw [firstDuplicate, if_neg h, ih, List.nodup_cons, List.forall_mem_cons]
      constructor
      · rintro ⟨hn, hs⟩
        exact ⟨⟨fun hm => hs col hm (List.mem_cons_self _ _), hn⟩, h,
          fun c hc hcs => hs c hc (List.mem_cons_of_mem _ hcs)⟩
      · rintro ⟨⟨hm, hn⟩, -, hs⟩
        refine ⟨hn, fun c hc hcs => ?_⟩
        rcases List.mem_cons.1 hcs with rfl | hcs
        · exact hm hc
        · exact hs c hc hcs

theorem checkColumnName_eq_none (col : String) :
    checkColumnName col = none ↔ isValidIdentifier col = true := by
  by_cases h : col = ""
  · subst h; simp [checkColumnName, isValidIdentifier]; decide
  · simp [checkColumnName, h]

theorem checkColumnType_eq_none (col : String) (t : UInt32) :
    checkColumnType col t = none ↔ t = TYPE_INT64 ∨ t = TYPE_BYTES := by
  unfold checkColumnType
  split <;> simp_all only [ne_eq, reduceCtorEq, false_iff, not_and, not_not, iff_true] <;> tauto

theorem validateTableDef_eq_none (d : TableDef) : validateTableDef d = none ↔ d.Valid := by
  unfold validateTableDef
  by_cases hn : d.name = ""
  · simp only [hn, ↓reduceIte, reduceCtorEq, false_iff]
    exact fun h => h.name hn
  by_cases hc : d.cols.length = 0
  · simp only [hn, hc, ↓reduceIte, reduceCtorEq, false_iff]
    exact fun h => h.cols (List.length_eq_zero.1 hc)
  by_cases ht : d.cols.length ≠ d.types.length
  · simp only [hn, hc, ht, ne_eq, not_false_eq_true, ↓reduceIte, reduceCtorEq, false_iff]
    exact fun h => ht h.types_length.symm
  by_cases hp : d.pkeys ≤ 0
  · simp only [hn, hc, ht, hp, ne_eq, not_false_eq_true, not_not, ↓reduceIte, reduceCtorEq, false_iff]
    exact fun h => absurd h.pkeys_pos (by omega)
  by_cases hl : d.pkeys > d.cols.length
  · simp only [hn, hc, ht, hp, hl, ne_eq, not_false_eq_true, not_not, ↓reduceIte, reduceCtorEq, false_iff]
    exact fun h => absurd h.pkeys_le (by omega)
  simp only [hn, hc, ht, hp, hl, ne_eq, not_false_eq_true, not_not, ↓reduceIte]
  have hlen : d.types.length = d.cols.length := by omega
  have hzip : (∀ p ∈ d.cols.zip d.types, checkColumnType p.1 p.2 = none) ↔
      ∀ t ∈ d.types, t = TYPE_INT64 ∨ t = TYPE_BYTES := by
    simp only [checkColumnType_eq_none]
    constructor
    · intro h t ht
      obtain ⟨i, hi, rfl⟩ := List.getElem_of_mem ht
      exact h (d.cols[i], d.types[i]) (List.mem_iff_getElem.2 ⟨i, by simp; omega, by simp⟩)
    · intro h p hp
      exact h p.2 (List.of_mem_zip hp).2
  rcases hd : firstDuplicate [] d.cols with _ | col
  · obtain ⟨hnd, -⟩ := (firstDuplicate_eq_none _ _).1 hd
    rcases hcn : d.cols.findSome? checkColumnName with _ | e
    · have hid := List.findSome?_eq_none_iff.1 hcn
      simp only [List.findSome?_eq_none_iff, hzip]
      exact ⟨fun h => ⟨hn, fun he => hc (by simp [he]), hlen, by omega, by omega, hnd,
        fun col hcol => (checkColumnName_eq_none col).1 (hid col hcol), h⟩, fun h => h.types⟩
    · simp only [reduceCtorEq, false_iff]
      intro h
      obtain ⟨col, hcol, hne⟩ := List.exists_of_findSome?_eq_some hcn
      rw [(checkColumnName_eq_none col).2 (h.idents col hcol)] at hne
      cases hne
  · simp only [reduceCtorEq, false_iff]
    intro h
    have := (firstDuplicate_eq_none [] d.cols).2 ⟨h.nodup, by simp⟩
    simp [hd] at this

/-- The type loop of `validateRecord` over the record's columns: the type declared for the
column (zero, `var colType uint32`, when the table has no such column; `tdef.Types[j]`
panics if the table has fewer types than columns) must be the value's. -/
def validateRecordTypes (record : Record) (tdef : TableDef) : List String → Call GoError
  | [] => .ok none
  | colName :: rest => do
    let colType ← match tdef.cols.findIdx? (· = colName) with
      | some j => goIndex tdef.types j
      | none => pure 0
    match ← record.get colName with
    | some value =>
      let got := value.type
      if got ≠ colType then
        return some s!"type mismatch for column {colName}: expected {colType}, got {got}"
      else validateRecordTypes record tdef rest
    | none => validateRecordTypes record tdef rest

def validateRecord (record : Record) (tdef : TableDef) : Call GoError :=
  if record.cols.length ≠ record.vals.length then .ok (some "column count mismatch in record")
  else match tdef.cols.find? (· ∉ record.cols) with
    | some colName => .ok (some s!"missing required column: {colName}")
    | none => validateRecordTypes record tdef record.cols

def asciiBytes (s : String) : List UInt8 := s.toList.map fun c => c.toNat.toUInt8

/-- `valueToString`: the decimal text of an integer, the bytes of a byte string. -/
def valueToString (value : Value) : List UInt8 :=
  if value.type = TYPE_INT64 then asciiBytes (toString value.i64)
  else if value.type = TYPE_BYTES then value.str
  else []

/-- The loop shared by `Table.generatePrimaryKey` and `DBTX.generateKeyString` over the
key indices: the text of each key column's value, or `none` (the empty key) as soon as
the record lacks one. `tdef.Cols[i]` panics past the table's columns. -/
def keyParts (tdef : TableDef) (record : Record) : List Nat → Call (Option (List (List UInt8)))
  | [] => .ok (some [])
  | i :: is => do
    let colName ← goIndex tdef.cols i
    match ← record.get colName with
    | none => pure none
    | some value => return (← keyParts tdef record is).map (valueToString value :: ·)

def keyIndices (tdef : TableDef) (record : Record) : List Nat :=
  (List.range record.cols.length).takeWhile fun i => decide ((i : Int) < tdef.pkeys)

/-- The key text both key generators build: the parts joined with `"|"` (byte 124), or
the empty key when the record has no columns or no values or lacks a key column. -/
def primaryKeyText (tdef : TableDef) (record : Record) : Call (List UInt8) :=
  if record.cols.length = 0 ∨ record.vals.length = 0 then .ok []
  else do
    match ← keyParts tdef record (keyIndices tdef record) with
    | none => pure []
    | some parts => pure ([124].intercalate parts)

end GoMiniDb.Database
