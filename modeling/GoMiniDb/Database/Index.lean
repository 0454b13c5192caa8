import GoMiniDb.Database.Table
import Mathlib.Data.List.Sort

/-! # Secondary indexes

`Index` of the database package keeps, under the text of each record's index columns
(their `valueToString` texts joined with `"|"`), the records added with that text. `Add`
skips a record when `recordsEqual` finds one already there, and `Remove` drops the first
such record; `recordsEqual` compares only the index columns, so two records that agree
on them are one record to the index. `RangeLookup` sorts the key texts and compares them
as strings, byte by byte, so an `INT64` column is ordered by its decimal text. The mutex
is held for each whole method; the stored `*Record` pointers are never written through,
so the index keeps record values. `sort.Strings` is any sort of the distinct key texts,
here an insertion sort.
-/
namespace GoMiniDb.Database

/-- `Index`, without its name, table name and mutex, which no modelled method reads. -/
structure Index where
  columns : List String
  columnTypes : List UInt32
  data : GoMap (List UInt8) (List Record)
deriving DecidableEq, Repr

def valuesEqual (v1 v2 : Value) : Bool :=
  if v1.type ≠ v2.type then false
  else if v1.type = TYPE_INT64 then v1.i64 = v2.i64
  else if v1.type = TYPE_BYTES then v1.str = v2.str
  else false

theorem Record.get_ok {r : Record} (h : r.cols.length ≤ r.vals.length) (col : String) :
    ∃ o, r.get col = .ok o := by
  unfold Record.get
  split
  · rename_i i hi
    have := (List.findIdx?_eq_some_iff_findIdx_eq.mp hi).1
    exact ⟨_, by rw [goIndex_of_lt (by omega)]; rfl⟩
  · exact ⟨_, rfl⟩

theorem anyM_ok_true {α : Type} {f : α → Call Bool} :
    ∀ {l : List α}, (∀ x ∈ l, ∃ b, f x = .ok b) → (∃ x ∈ l, f x = .ok true) →
      l.anyM f = .ok true
  | [], _, ⟨_, hx, _⟩ => absurd hx (List.not_mem_nil _)
  | x :: xs, hall, ⟨y, hy, hfy⟩ => by
    obtain ⟨b, hb⟩ := hall x (List.mem_cons_self _ _)
    simp only [List.anyM, hb, ok_bind]
    cases b with
    | true => rfl
    | false =>
      have hyx : y ∈ xs := by
        rcases List.mem_cons.mp hy with rfl | h
        · rw [hb] at hfy; cases hfy
        · exact h
      exact anyM_ok_true (fun z hz => hall z (List.mem_cons_of_mem _ hz)) ⟨y, hyx, hfy⟩

namespace Index

/-- The loop of `generateIndexKey` from column `i`: the text of each column's value, or
the error of the first column the record lacks or holds with another type.
`idx.ColumnTypes[i]` panics past the declared types. -/
def indexKeyParts (idx : Index) (record : Record) :
    Nat → List String → Call (List (List UInt8) × GoError)
  | _, [] => pure ([], none)
  | i, colName :: cols => do
    match ← record.get colName with
    | none => pure ([], some s!"missing column {colName}")
    | some value =>
      let expected ← goIndex idx.columnTypes i
      let got := value.type
      if got ≠ expected then
        pure ([], some s!"type mismatch for column {colName}: expected {expected}, got {got}")
      else do
        let (rest, err) ← indexKeyParts idx record (i + 1) cols
        pure (valueToString value :: rest, err)

def generateIndexKey (idx : Index) (record : Record) : Call (List UInt8 × GoError) := do
  let (parts, err) ← indexKeyParts idx record 0 idx.columns
  match err with
  | some e => pure ([], some e)
  | none => pure ([124].intercalate parts, none)

/-- The loop of `recordsEqual` from index `i` over the index columns: it stops at the
first column past either record's columns, and a column missing from either record
decides by whether it is missing from both. -/
def recordsEqualLoop (r1 r2 : Record) : Nat → List String → Call Bool
  | _, [] => pure true
  | i, colName :: cols =>
    if i < r1.cols.length ∧ i < r2.cols.length then do
      let v1 ← r1.get colName
      let v2 ← r2.get colName
      match v1, v2 with
      | some a, some b =>
        if valuesEqual a b then recordsEqualLoop r1 r2 (i + 1) cols else pure false
      | _, _ => pure (v1.isNone && v2.isNone)
    else pure true

def recordsEqual (idx : Index) (r1 r2 : Record) : Call Bool :=
  recordsEqualLoop r1 r2 0 idx.columns

/-- The records under `key`; a Go map reads `nil` for a missing key. -/
def recordsAt (idx : Index) (key : List UInt8) : List Record := (idx.data.get? key).getD []

def add (idx : Index) (record : Record) : Call (GoError × Index) := do
  let (key, err) ← idx.generateIndexKey record
  if let some e := err then return (some s!"failed to generate index key: {e}", idx)
  let records := idx.recordsAt key
  if ← records.anyM (idx.recordsEqual · record) then return (none, idx)
  return (none, { idx with data := idx.data.set key (records ++ [record]) })

/-- The loop of `Remove`: the records without the first one `recordsEqual` matches, or
`none` when none does. -/
def removeFirst (idx : Index) (record : Record) : List Record → Call (Option (List Record))
  | [] => pure none
  | r :: rs => do
    if ← idx.recordsEqual r record then pure (some rs)
    else return (← removeFirst idx record rs).map (r :: ·)

/-- `Remove`: the key goes when its last record does. -/
def remove (idx : Index) (record : Record) : Call (GoError × Index) := do
  let (key, err) ← idx.generateIndexKey record
  if let some e := err then return (some s!"failed to generate index key: {e}", idx)
  match ← idx.removeFirst record (idx.recordsAt key) with
  | none => return (none, idx)
  | some [] => return (none, { idx with data := idx.data.erase key })
  | some rest => return (none, { idx with data := idx.data.set key rest })

/-- `Lookup`: copies of the records under the key's text (`nil` is the empty list). -/
def lookup (idx : Index) (key : Record) : Call (List Record × GoError) := do
  let (indexKey, err) ← idx.generateIndexKey key
  if let some e := err then return ([], some s!"failed to generate index key: {e}")
  return (idx.recordsAt indexKey, none)

/-- The loop of `RangeLookup` over the sorted key texts. -/
def rangeLoop (idx : Index) (lo hi : List UInt8) : List (List UInt8) → List Record
  | [] => []
  | key :: keys =>
    (if lo ≤ key ∧ key ≤ hi then idx.recordsAt key else []) ++ rangeLoop idx lo hi keys

/-- `RangeLookup`: the key texts in string order, each kept when it lies between the texts
of `startKey` and `endKey`. -/
def rangeLookup (idx : Index) (startKey endKey : Record) : Call (List Record × GoError) := do
  let keys := (idx.data.map Prod.fst).insertionSort (· ≤ ·)
  let (startKeyStr, err) ← idx.generateIndexKey startKey
  if let some e := err then return ([], some s!"failed to generate start key: {e}")
  let (endKeyStr, err) ← idx.generateIndexKey endKey
  if let some e := err then return ([], some s!"failed to generate end key: {e}")
  return (idx.rangeLoop startKeyStr endKeyStr keys, none)

section Spec

variable {idx : Index}

theorem recordsEqualLoop_ok {r1 r2 : Record} (h1 : r1.cols.length ≤ r1.vals.length)
    (h2 : r2.cols.length ≤ r2.vals.length) :
    ∀ (i : Nat) (cols : List String), ∃ b, recordsEqualLoop r1 r2 i cols = .ok b
  | _, [] => ⟨_, rfl⟩
  | i, c :: cols => by
    obtain ⟨o1, ho1⟩ := Record.get_ok h1 c
    obtain ⟨o2, ho2⟩ := Record.get_ok h2 c
    unfold recordsEqualLoop
    split
    · simp only [ho1, ho2, ok_bind]
      split
      · split
        · exact recordsEqualLoop_ok h1 h2 (i + 1) cols
        · exact ⟨_, rfl⟩
      · exact ⟨_, rfl⟩
    · exact ⟨_, rfl⟩

theorem recordsEqualLoop_of_agree {r1 r2 : Record} :
    ∀ (i : Nat) (cols : List String), (∀ c ∈ cols, ∃ v, r1.get c = .ok (some v) ∧
      r2.get c = .ok (some v) ∧ valuesEqual v v) → recordsEqualLoop r1 r2 i cols = .ok true
  | _, [], _ => rfl
  | i, c :: cols, h => by
    obtain ⟨v, h1, h2, hv⟩ := h c (List.mem_cons_self _ _)
    unfold recordsEqualLoop
    split
    · simp only [h1, h2, ok_bind, hv, if_true]
      exact recordsEqualLoop_of_agree (i + 1) cols fun d hd => h d (List.mem_cons_of_mem _ hd)
    · rfl

theorem add_of_agree {r r' : Record} {key : List UInt8}
    (hkey : idx.generateIndexKey r = .ok (key, none)) (hr : r.cols.length ≤ r.vals.length)
    (hwf : ∀ x ∈ idx.recordsAt key, x.cols.length ≤ x.vals.length) (hmem : r' ∈ idx.recordsAt key)
    (hagree : ∀ c ∈ idx.columns, ∃ v, r'.get c = .ok (some v) ∧ r.get c = .ok (some v) ∧
      valuesEqual v v) :
    idx.add r = .ok (none, idx) := by
  have hany : (idx.recordsAt key).anyM (idx.recordsEqual · r) = .ok true :=
    anyM_ok_true (fun x hx => recordsEqualLoop_ok (hwf x hx) hr 0 idx.columns)
      ⟨r', hmem, recordsEqualLoop_of_agree 0 idx.columns hagree⟩
  simp only [add, hkey, ok_bind, hany]
  rfl

theorem mem_rangeLoop {lo hi : List UInt8} {r : Record} :
    ∀ keys, r ∈ idx.rangeLoop lo hi keys ↔ ∃ k ∈ keys, lo ≤ k ∧ k ≤ hi ∧ r ∈ idx.recordsAt k
  | [] => by simp [rangeLoop]
  | k :: keys => by
    rw [rangeLoop, List.mem_append, mem_rangeLoop keys]
    split <;> simp_all

theorem rangeLookup_mem {s e : Record} {lo hi : List UInt8}
    (hs : idx.generateIndexKey s = .ok (lo, none)) (he : idx.generateIndexKey e = .ok (hi, none)) :
    ∃ rs, idx.rangeLookup s e = .ok (rs, none) ∧
      ∀ r, r ∈ rs ↔ ∃ k ∈ idx.data.map Prod.fst, lo ≤ k ∧ k ≤ hi ∧ r ∈ idx.recordsAt k := by
  refine ⟨_, by simp only [rangeLookup, hs, he, ok_bind]; rfl, fun r => ?_⟩
  rw [mem_rangeLoop]
  exact exists_congr fun k => and_congr_left' (List.perm_insertionSort _ _).mem_iff

end Spec

end Index

def aIndex : Index := ⟨["a"], [TYPE_INT64], []⟩

def abRecord (a : Int) (b : String) : Record :=
  ⟨["a", "b"], [⟨TYPE_INT64, a, []⟩, ⟨TYPE_BYTES, 0, asciiBytes b⟩]⟩

def aKey (a : Int) : Record := ⟨["a"], [⟨TYPE_INT64, a, []⟩]⟩

/-- `(1, x)` then `(1, y)` are added: the second is skipped, so `Lookup(1)` returns only
the first, and `Remove((1, y))` removes `(1, x)`, never removed by the caller. -/
theorem add_drops_same_index_values :
    (do
      let (e1, idx) ← aIndex.add (abRecord 1 "x")
      let (e2, idx) ← idx.add (abRecord 1 "y")
      let (found, e3) ← idx.lookup (aKey 1)
      let (e4, idx) ← idx.remove (abRecord 1 "y")
      let (left, e5) ← idx.lookup (aKey 1)
      return (e1, e2, found, e3, e4, left, e5)) =
    (.ok (none, none, [abRecord 1 "x"], none, none, [], none) : Call _) := by
  have h1 : aIndex.add (abRecord 1 "x") = .ok (none, { aIndex with data := [([49], [abRecord 1 "x"])] }) := rfl
  have h2 : Index.add { aIndex with data := [([49], [abRecord 1 "x"])] } (abRecord 1 "y") =
      .ok (none, { aIndex with data := [([49], [abRecord 1 "x"])] }) :=
    Index.add_of_agree rfl (by decide) (by decide)
      (show abRecord 1 "x" ∈ Index.recordsAt { aIndex with data := [([49], [abRecord 1 "x"])] } [49] by decide)
      fun c hc => by
      obtain rfl : c = "a" := List.mem_singleton.mp hc
      exact ⟨_, rfl, rfl, rfl⟩
  simp only [h1, h2, ok_bind]
  rfl

/-- With `(9, x)` and `(10, y)` in the index, `RangeLookup(9, 10)` returns nothing: the
text `10` sorts before `9`. -/
theorem range_lookup_orders_by_text :
    (do
      let (e1, idx) ← aIndex.add (abRecord 9 "x")
      let (e2, idx) ← idx.add (abRecord 10 "y")
      let (nine, _) ← idx.lookup (aKey 9)
      let (ten, _) ← idx.lookup (aKey 10)
      let (range, e3) ← idx.rangeLookup (aKey 9) (aKey 10)
      return (e1, e2, nine, ten, range, e3)) =
    (.ok (none, none, [abRecord 9 "x"], [abRecord 10 "y"], [], none) : Call _) := by
  have h1 : aIndex.add (abRecord 9 "x") = .ok (none, { aIndex with data := [([57], [abRecord 9 "x"])] }) := rfl
  have h2 : Index.add { aIndex with data := [([57], [abRecord 9 "x"])] } (abRecord 10 "y") =
      .ok (none, { aIndex with data := [([57], [abRecord 9 "x"]), ([49, 48], [abRecord 10 "y"])] }) := rfl
  obtain ⟨rs, hrs, hmem⟩ := @Index.rangeLookup_mem
    { aIndex with data := [([57], [abRecord 9 "x"]), ([49, 48], [abRecord 10 "y"])] } (aKey 9) (aKey 10) _ _ rfl rfl
  -- the text `9` lies above the text `10`, so no key lies between them
  obtain rfl : rs = [] := List.eq_nil_iff_forall_not_mem.2 fun r hr => by
    obtain ⟨k, hk, hlo, hhi, _⟩ := (hmem r).1 hr
    simp only [List.map, List.mem_cons, List.mem_singleton, List.not_mem_nil, or_false] at hk
    rcases hk with rfl | rfl
    · exact absurd hhi (by decide)
    · exact absurd hlo (by decide)
  simp only [h1, h2, ok_bind, hrs]
  rfl

end GoMiniDb.Database
