import GoMiniDb.Database.Types

/-! # Tables of the database package

`Table` keeps its records in a Go map from the primary-key text to the record. The text
joins the key columns' texts with `"|"`, and a byte-string column may itself contain that
byte, so two different key tuples can share one text. `Update` also stores the new record
under the text of its key argument, whatever key the record itself carries. `Indexes` is
left out: `CreateTable` makes it empty and nothing in the package adds to it, so
`updateIndexes` loops over nothing. Each method holds `t.mu` for its whole body.

`Scan` hands the records of `Data`, in the order the map's iteration visits them, to the
`Scanner`, which keeps only a pointer to the first: `Next` moves the position but not the
record `Deref` copies, so a scan yields the first record once per record of the table.
-/
namespace GoMiniDb.Database

/-- `Table`: its definition and `Data`. -/
structure Table where
  tdef : TableDef
  data : GoMap (List UInt8) Record
deriving DecidableEq, Repr

namespace Table

def generatePrimaryKey (t : Table) (record : Record) : Call (List UInt8) :=
  primaryKeyText t.tdef record

def insert (t : Table) (record : Record) : Call (GoError × Table) := do
  match ← validateRecord record t.tdef with
  | some e => return (some s!"record validation failed: {e}", t)
  | none =>
    let key ← t.generatePrimaryKey record
    if key = [] then return (some "failed to generate primary key", t)
    if (t.data.get? key).isSome then return (some "record with primary key already exists", t)
    return (none, { t with data := t.data.set key record })

/-- `Get`: a copy of the record stored under the key's text, `nil` when there is none. -/
def get (t : Table) (key : Record) : Call (Option Record × GoError) := do
  let keyStr ← t.generatePrimaryKey key
  if keyStr = [] then return (none, some "invalid primary key")
  return (t.data.get? keyStr, none)

/-- `Update`: the new record goes under the text of `key`. -/
def update (t : Table) (key newRecord : Record) : Call (GoError × Table) := do
  let keyStr ← t.generatePrimaryKey key
  if keyStr = [] then return (some "invalid primary key", t)
  match t.data.get? keyStr with
  | none => return (some "record not found", t)
  | some _ =>
    match ← validateRecord newRecord t.tdef with
    | some e => return (some s!"record validation failed: {e}", t)
    | none => return (none, { t with data := t.data.set keyStr newRecord })

def delete (t : Table) (key : Record) : Call ((Bool × GoError) × Table) := do
  let keyStr ← t.generatePrimaryKey key
  if keyStr = [] then return ((false, some "invalid primary key"), t)
  match t.data.get? keyStr with
  | none => return ((false, none), t)
  | some _ => return ((true, none), { t with data := t.data.erase keyStr })

end Table

/-- A table of two byte-string key columns `a` and `b`. -/
def pairTable : Table := ⟨⟨"pairs", ["a", "b"], [TYPE_BYTES, TYPE_BYTES], 2⟩, []⟩

/-- The record with byte strings `a` and `b` in columns `a` and `b`. -/
def pairRecord (a b : String) : Record :=
  ⟨["a", "b"], [⟨TYPE_BYTES, 0, asciiBytes a⟩, ⟨TYPE_BYTES, 0, asciiBytes b⟩]⟩

/-- The key tuples `("a|b", "c")` and `("a", "b|c")` both have the text `a|b|c`: after the
first is inserted, inserting the second fails though no record has its key, and `Get` of
the second returns the first. -/
theorem insert_key_text_collision :
    (do
      let (e1, t) ← pairTable.insert (pairRecord "a|b" "c")
      let (e2, t) ← t.insert (pairRecord "a" "b|c")
      let (r, e3) ← t.get (pairRecord "a" "b|c")
      return (e1, e2, r, e3)) =
    (.ok (none, some "record with primary key already exists", some (pairRecord "a|b" "c"), none) :
      Call _) := rfl

/-- The iteration state of a `Scanner`; its keys and comparisons are read by no method
here. `position` starts at 0 and only grows. -/
structure Scanner where
  currentRecord : Option Record
  isValid : Bool
  position : Nat
  totalRecords : Nat
deriving DecidableEq, Repr

namespace Scanner

def valid (sc : Scanner) : Bool := sc.isValid && decide (sc.position < sc.totalRecords)

/-- `Next`: the position moves, the current record does not. -/
def next (sc : Scanner) : Scanner :=
  let position := sc.position + 1
  { sc with position, isValid := if position ≥ sc.totalRecords then false else sc.isValid }

/-- `Deref(rec)`: the current record, or `rec` left as it was when there is none. -/
def deref (sc : Scanner) (rec : Record) : Record := sc.currentRecord.getD rec

def setRecords (sc : Scanner) (records : List Record) : Scanner :=
  { sc with
    totalRecords := records.length
    position := 0
    isValid := decide (0 < records.length)
    currentRecord := match records with
      | [] => sc.currentRecord
      | r :: _ => some r }

end Scanner

/-- `Scan`: `order` is the table's records in the order `range t.Data` visits them. -/
def Table.scan (_t : Table) (order : List Record) (sc : Scanner) : Scanner := sc.setRecords order

/-- `for sc.Valid() { sc.Deref(&r); sc.Next() }` from the record `r`: what `r` holds after
each `Deref`. Each round moves the position towards the count. -/
def scanLoop (sc : Scanner) (r : Record) : List Record :=
  if _h : sc.valid then
    let r := sc.deref r
    r :: scanLoop sc.next r
  else []
termination_by sc.totalRecords - sc.position
decreasing_by
  simp only [Scanner.valid, Bool.and_eq_true, decide_eq_true_eq] at _h
  simp only [Scanner.next]
  omega

theorem scanLoop_repeat (x : Record) : ∀ (k : Nat) (sc : Scanner) (r : Record), sc.currentRecord = some x →
    sc.isValid = decide (sc.position < sc.totalRecords) → sc.totalRecords - sc.position = k →
    scanLoop sc r = List.replicate k x
  | 0, sc, r, _, _, hk => by
    rw [scanLoop, dif_neg (by simp [Scanner.valid]; omega)]; rfl
  | k + 1, sc, r, hx, hv, hk => by
    have hlt : sc.position < sc.totalRecords := by omega
    rw [scanLoop, dif_pos (by simp [Scanner.valid, hv, hlt]), List.replicate_succ]
    simp only [Scanner.deref, hx, Option.getD_some]
    exact congrArg _ (scanLoop_repeat x k _ _ hx (by simp only [Scanner.next]; split <;> simp_all)
      (by simp only [Scanner.next]; omega))

theorem scanLoop_setRecords (sc : Scanner) (records : List Record) (r : Record) :
    scanLoop (sc.setRecords records) r = List.replicate records.length (records.headD r) := by
  cases records with
  | nil => rw [scanLoop, dif_neg (by simp [Scanner.setRecords, Scanner.valid])]; rfl
  | cons x xs =>
    exact scanLoop_repeat x _ _ r rfl (by simp [Scanner.setRecords]) (by simp [Scanner.setRecords])

/-- A table holding two different records is never scanned as its records, whatever order
the map's iteration takes and whatever the scanner held before. -/
theorem scan_yields_first_record_only (t : Table) (order : List Record) (sc : Scanner) (r : Record)
    (hdist : ∃ a ∈ t.data.map Prod.snd, ∃ b ∈ t.data.map Prod.snd, a ≠ b) :
    ¬ (scanLoop (t.scan order sc) r).Perm (t.data.map Prod.snd) := by
  rw [Table.scan, scanLoop_setRecords]
  intro hp
  obtain ⟨a, ha, b, hb, hab⟩ := hdist
  exact hab ((List.eq_of_mem_replicate (hp.mem_iff.mpr ha)).trans
    (List.eq_of_mem_replicate (hp.mem_iff.mpr hb)).symm)

/-- `pairTable` holding the records `(x, y)` and `(z, w)` under their key texts. -/
def twoPairs : Table :=
  ⟨pairTable.tdef, [(asciiBytes "x|y", pairRecord "x" "y"), (asciiBytes "z|w", pairRecord "z" "w")]⟩

theorem two_pairs_scan_repeats :
    (∃ a ∈ twoPairs.data.map Prod.snd, ∃ b ∈ twoPairs.data.map Prod.snd, a ≠ b) ∧
      ¬ (scanLoop (twoPairs.scan (twoPairs.data.map Prod.snd) ⟨none, false, 0, 0⟩) ⟨[], []⟩).Perm
        (twoPairs.data.map Prod.snd) :=
  have hdist : ∃ a ∈ twoPairs.data.map Prod.snd, ∃ b ∈ twoPairs.data.map Prod.snd, a ≠ b :=
    ⟨_, List.mem_cons_self _ _, _, List.mem_cons_of_mem _ (List.mem_cons_self _ _), by decide⟩
  ⟨hdist, scan_yields_first_record_only twoPairs _ _ _ hdist⟩

end GoMiniDb.Database
