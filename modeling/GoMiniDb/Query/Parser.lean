import GoMiniDb.Database.Types

/-! # The query parser

A recursive-descent parser over the input bytes with a mutable `Parser`: `Idx` moves
forward, and `pErr` records an error and lets parsing go on, so `Parse` only reports the
last error at the end. The byte loops (`skipSpace`, a symbol's or a number's run, a string
literal's scan) are list functions on the unread bytes. The expression levels call one
another and themselves through parentheses, and the operator and list loops repeat while
a separator follows; each of these takes a fuel argument and a run out of fuel is `none`,
which no accepted input should need. `unicode.IsSpace`, `IsLetter` and `IsDigit` read a
byte as a Latin-1 rune. `strings.EqualFold` against an ASCII keyword of the same byte
length, and `strings.ToLower` on a run of symbol bytes compared with the keyword set,
amount to ASCII case folding, since no rune those bytes can form folds to ASCII. Nothing
checks that the statement reaches the end of the input.
-/
namespace GoMiniDb.Query

open GoMiniDb.Database (asciiBytes)

/-- `query.Value`; `I64` is a Go `int64`. -/
structure Value where
  type : UInt32
  i64 : Int
  str : List UInt8
deriving DecidableEq, Repr

/-- `QLNode`: a value and its children. -/
inductive QLNode
  | mk (value : Value) (kids : List QLNode)
deriving Repr

def QL_UNINIT : UInt32 := 0
def QL_STR : UInt32 := 1
def QL_I64 : UInt32 := 2
def QL_CMP_GE : UInt32 := 10
def QL_CMP_GT : UInt32 := 11
def QL_CMP_LT : UInt32 := 12
def QL_CMP_LE : UInt32 := 13
def QL_CMP_EQ : UInt32 := 14
def QL_CMP_NE : UInt32 := 15
def QL_CMP_OR : UInt32 := 16
def QL_CMP_AND : UInt32 := 17
def QL_CMP_ADD : UInt32 := 18
def QL_CMP_SUB : UInt32 := 19
def QL_CMP_MUL : UInt32 := 20
def QL_CMP_DIV : UInt32 := 21
def QL_CMP_MOD : UInt32 := 22
def QL_NOT : UInt32 := 50
def QL_NEG : UInt32 := 51
def QL_SYM : UInt32 := 100
def QL_TUP : UInt32 := 101
def QL_ERR : UInt32 := 200

def MODE_UPSERT : Int := 0
def MODE_UPDATE_ONLY : Int := 1
def MODE_INSERT_ONLY : Int := 2

def QLNode.zero : QLNode := .mk ⟨QL_UNINIT, 0, []⟩ []

/-- A node of type `t` with no payload and the given children. -/
def QLNode.op (t : UInt32) (kids : List QLNode) : QLNode := .mk ⟨t, 0, []⟩ kids

/-- `QLScan`; the table name is a Go string, kept as its bytes. -/
structure QLScan where
  table : List UInt8
  key1 : QLNode
  key2 : QLNode
  filter : QLNode
  offset : Int
  limit : Int
deriving Repr

def QLScan.zero : QLScan := ⟨[], .zero, .zero, .zero, 0, 0⟩

/-- `QLSelect`. -/
structure QLSelect where
  scan : QLScan
  names : List (List UInt8)
  output : List QLNode
deriving Repr

/-- `QLUpdate`. -/
structure QLUpdate where
  scan : QLScan
  names : List (List UInt8)
  values : List QLNode
deriving Repr

/-- `QLInsert`. -/
structure QLInsert where
  table : List UInt8
  mode : Int
  names : List (List UInt8)
  values : List (List QLNode)
deriving Repr

/-- `QLDelete`. -/
structure QLDelete where
  scan : QLScan
deriving Repr

/-- `QLCreateTable`: `pQLCreateTable` returns it with its zero definition. -/
structure QLCreateTable where
deriving Repr

/-- What `pStmt` returns in its `interface{}`. -/
inductive Stmt
  | createTable (s : QLCreateTable)
  | select (s : QLSelect)
  | insert (s : QLInsert)
  | delete (s : QLDelete)
  | update (s : QLUpdate)
deriving Repr

/-- `Parser`; `Err` is the text of the last error. -/
structure Parser where
  input : List UInt8
  idx : Nat
  err : Option String
deriving DecidableEq, Repr

/-- A parsing step on the parser; `none` when the model's fuel runs out. -/
abbrev PM := StateT Parser Option

/-- `unicode.IsSpace` of a byte: tab to carriage return, space, U+0085 and U+00A0. -/
def isSpaceByte (b : UInt8) : Bool := (9 ≤ b && b ≤ 13) || b = 32 || b = 133 || b = 160

/-- `unicode.IsLetter` of a byte: ASCII letters, ª, µ, º and the Latin-1 letters. -/
def isLetterByte (b : UInt8) : Bool :=
  (65 ≤ b && b ≤ 90) || (97 ≤ b && b ≤ 122) || b = 170 || b = 181 || b = 186 ||
    (192 ≤ b && b ≤ 214) || (216 ≤ b && b ≤ 246) || 248 ≤ b

def isDigitByte (b : UInt8) : Bool := 48 ≤ b && b ≤ 57

def isSymStart (b : UInt8) : Bool := isLetterByte b || b = 95

def isSym (b : UInt8) : Bool := isLetterByte b || isDigitByte b || b = 95

def asciiLower (b : UInt8) : UInt8 := if 65 ≤ b && b ≤ 90 then b + 32 else b

/-- The index after the spaces from index `i`: the loop of `skipSpace`. -/
def spaceEnd (input : List UInt8) (i : Nat) : Nat :=
  i + ((input.drop i).takeWhile isSpaceByte).length

def skipSpace : PM Unit := modify fun p => { p with idx := spaceEnd p.input p.idx }

/-- One keyword of `pKeyword` from index `i`: the index after it, if it is there and, when
it ends in a symbol byte, not followed by one. -/
def matchKeyword (input : List UInt8) (i : Nat) (kw : List UInt8) : Option Nat :=
  let i := spaceEnd input i
  let e := i + kw.length
  if e > input.length then none
  else
    let ok := ((input.drop i).take kw.length).map asciiLower = kw.map asciiLower
    let ok := if ok ∧ (kw.getLast?.map isSym).getD false = true ∧ e < input.length then
      !(input[e]?.map isSym).getD false else ok
    if ok then some e else none

/-- `pKeyword`: all the keywords in turn, or none and the index as it was. -/
def pKeyword (kwds : List String) : PM Bool := fun p =>
  match kwds.foldlM (fun i kw => matchKeyword p.input i (asciiBytes kw)) p.idx with
  | some i => some (true, { p with idx := i })
  | none => some (false, p)

def pErr (msg : String) : PM Unit := modify fun p => { p with err := some s!"parse error: {msg}" }

/-- `pErr` on a node: it becomes an error node carrying the message. -/
def pErrNode (node : QLNode) (msg : String) : PM QLNode := do
  pErr msg
  match node with
  | .mk v kids => pure (.mk { v with type := QL_ERR, str := asciiBytes msg } kids)

/-- `int64` arithmetic: `x` wrapped into the signed 64-bit range. -/
def int64Wrap (x : Int) : Int := (x + 9223372036854775808) % 18446744073709551616 - 9223372036854775808

/-- The value the loop of `pNum` accumulates over a run of digits, in `int64`. -/
def digitsValue (digits : List UInt8) : Int :=
  digits.foldl (fun num ch => int64Wrap (num * 10 + ((ch.toNat : Int) - 48))) 0

/-- `pNum`: the node of the number at the next token, if it starts with a digit. -/
def pNum : PM (Option QLNode) := fun p =>
  let start := spaceEnd p.input p.idx
  let digits := (p.input.drop start).takeWhile isDigitByte
  if digits = [] then some (none, { p with idx := start })
  else some (some (.mk ⟨QL_I64, digitsValue digits, []⟩ []), { p with idx := start + digits.length })

/-- The loop of `pStr` over the bytes after the opening quote: how many come before the
closing quote, a backslash stepping over the byte after it. -/
def strScan : List UInt8 → Nat
  | [] => 0
  | 34 :: _ => 0
  | 92 :: _ :: rest => strScan rest + 2
  | _ :: rest => strScan rest + 1

/-- `pStr`: an unclosed literal leaves `Idx` at the end of the input. -/
def pStr : PM (Option QLNode) := fun p =>
  let i := spaceEnd p.input p.idx
  if p.input[i]? ≠ some 34 then some (none, { p with idx := i })
  else
    let start := i + 1
    let n := strScan (p.input.drop start)
    if start + n ≥ p.input.length then some (none, { p with idx := start + n })
    else some (some (.mk ⟨QL_STR, 0, (p.input.drop start).take n⟩ []), { p with idx := start + n + 1 })

def pKeywordSet : List String :=
  ["select", "from", "where", "index", "by", "filter", "limit", "create", "table", "insert",
    "into", "values", "replace", "upsert", "delete", "update", "set", "and", "or", "not", "as"]

/-- The symbol at index `i` when a symbol starts there: its bytes. -/
def symAt (input : List UInt8) (i : Nat) : Option (List UInt8) :=
  match input[i]? with
  | some b =>
    if isSymStart b then some (b :: ((input.drop (i + 1)).takeWhile isSym)) else none
  | none => none

/-- Whether a run of symbol bytes is in `pKeywordSet`. -/
def isKeyword (sym : List UInt8) : Bool := (pKeywordSet.map asciiBytes).contains (sym.map asciiLower)

def pSym : PM (Option QLNode) := fun p =>
  let i := spaceEnd p.input p.idx
  match symAt p.input i with
  | some sym =>
    if isKeyword sym then some (none, { p with idx := i })
    else some (some (.mk ⟨QL_SYM, 0, sym⟩ []), { p with idx := i + sym.length })
  | none => some (none, { p with idx := i })

def pQLMustSym : PM (List UInt8) := do
  skipSpace
  let p ← get
  match symAt p.input p.idx with
  | some sym =>
    if isKeyword sym then do pErr "keyword not allowed as symbol"; pure []
    else do set { p with idx := p.idx + sym.length }; pure sym
  | none => do pErr "expect symbol"; pure []

def orOps : List (String × UInt32) := [("or", QL_CMP_OR)]
def andOps : List (String × UInt32) := [("and", QL_CMP_AND)]
def cmpOps : List (String × UInt32) :=
  [("<=", QL_CMP_LE), (">=", QL_CMP_GE), ("<", QL_CMP_LT), (">", QL_CMP_GT), ("=", QL_CMP_EQ),
    ("!=", QL_CMP_NE)]
def addOps : List (String × UInt32) := [("+", QL_CMP_ADD), ("-", QL_CMP_SUB)]
def mulOps : List (String × UInt32) := [("*", QL_CMP_MUL), ("/", QL_CMP_DIV), ("%", QL_CMP_MOD)]

/-- The inner loop of `pExprBinop`: the type of the first operator that follows. The
source's `ops` and `types` are these pairs, so its length assertion holds. -/
def firstOp : List (String × UInt32) → PM (Option UInt32)
  | [] => pure none
  | (op, t) :: ops => do if ← pKeyword [op] then pure (some t) else firstOp ops

/-- The outer loop of `pExprBinop`: while an operator follows, the tree so far becomes
its left operand and `next` parses the right one. -/
def binopLoop (ops : List (String × UInt32)) (next : PM QLNode) : Nat → QLNode → PM QLNode
  | 0, _ => failure
  | fuel + 1, left => do
    match ← firstOp ops with
    | none => pure left
    | some t => do
      let right ← next
      binopLoop ops next fuel (.op t [left, right])

def pExprBinop (ops : List (String × UInt32)) (next : PM QLNode) (fuel : Nat) : PM QLNode := do
  let left ← next
  binopLoop ops next fuel left

mutual
def pExprTuple : Nat → PM QLNode
  | 0 => failure
  | fuel + 1 => do
    let first ← pExprOr fuel
    match ← tupleLoop fuel [first] with
    | [kid] => pure kid
    | kids => pure (.op QL_TUP kids)

def tupleLoop : Nat → List QLNode → PM (List QLNode)
  | 0, _ => failure
  | fuel + 1, kids => do
    if ← pKeyword [","] then
      let kid ← pExprOr fuel
      tupleLoop fuel (kids ++ [kid])
    else pure kids

def pExprOr : Nat → PM QLNode
  | 0 => failure
  | fuel + 1 => pExprBinop orOps (pExprAnd fuel) fuel

def pExprAnd : Nat → PM QLNode
  | 0 => failure
  | fuel + 1 => pExprBinop andOps (pExprNot fuel) fuel

def pExprNot : Nat → PM QLNode
  | 0 => failure
  | fuel + 1 => do
    if ← pKeyword ["not"] then
      let kid ← pExprCmp fuel
      pure (.op QL_NOT [kid])
    else pExprCmp fuel

def pExprCmp : Nat → PM QLNode
  | 0 => failure
  | fuel + 1 => pExprBinop cmpOps (pExprAdd fuel) fuel

def pExprAdd : Nat → PM QLNode
  | 0 => failure
  | fuel + 1 => pExprBinop addOps (pExprMul fuel) fuel

def pExprMul : Nat → PM QLNode
  | 0 => failure
  | fuel + 1 => pExprBinop mulOps (pExprUnop fuel) fuel

def pExprUnop : Nat → PM QLNode
  | 0 => failure
  | fuel + 1 => do
    if ← pKeyword ["-"] then
      let kid ← pExprAtom fuel
      pure (.op QL_NEG [kid])
    else pExprAtom fuel

def pExprAtom : Nat → PM QLNode
  | 0 => failure
  | fuel + 1 => do
    if ← pKeyword ["("] then
      let node ← pExprTuple fuel
      if ← pKeyword [")"] then pure node else pErrNode node "unclosed parenthesis"
    else match ← pSym with
      | some node => pure node
      | none => match ← pNum with
        | some node => pure node
        | none => match ← pStr with
          | some node => pure node
          | none => pErrNode .zero "expect symbol, number or string"
end

/-- `pQLSelectExpr`: an expression and its `AS` name, `""` when there is none. -/
def pQLSelectExpr (fuel : Nat) (stmt : QLSelect) : PM QLSelect := do
  let expr ← pExprOr fuel
  let name ← if ← pKeyword ["as"] then pQLMustSym else pure []
  pure { stmt with names := stmt.names ++ [name], output := stmt.output ++ [expr] }

def selectExprLoop (fuel : Nat) : Nat → QLSelect → PM QLSelect
  | 0, _ => failure
  | n + 1, stmt => do
    if ← pKeyword [","] then selectExprLoop fuel n (← pQLSelectExpr fuel stmt) else pure stmt

def pQLSelectExprList (fuel : Nat) (stmt : QLSelect) : PM QLSelect := do
  selectExprLoop fuel fuel (← pQLSelectExpr fuel stmt)

/-- `pQLScan`: the optional `INDEX BY`, `FILTER` and `LIMIT` clauses, in this order. -/
def pQLScan (fuel : Nat) (scan : QLScan) : PM QLScan := do
  let scan ← if ← pKeyword ["index", "by"] then do pure { scan with key1 := ← pExprOr fuel }
    else pure scan
  let scan ← if ← pKeyword ["filter"] then do pure { scan with filter := ← pExprOr fuel }
    else pure scan
  if ← pKeyword ["limit"] then
    let scan := match ← pNum with
      | some (.mk v _) => { scan with limit := v.i64 }
      | none => scan
    if ← pKeyword [","] then
      match ← pNum with
      | some (.mk v _) => pure { scan with offset := v.i64 }
      | none => pure scan
    else pure scan
  else pure scan

def pQLSelect (fuel : Nat) : PM (Option QLSelect) := do
  let stmt ← pQLSelectExprList fuel ⟨QLScan.zero, [], []⟩
  if !(← pKeyword ["from"]) then pErr "expect `FROM` table"
  let table ← pQLMustSym
  let scan ← pQLScan fuel { stmt.scan with table := table }
  if (← get).err.isSome then pure none else pure (some { stmt with scan := scan })

def pQLCreateTable : PM QLCreateTable := pure ⟨⟩

def insertNamesLoop : Nat → List (List UInt8) → PM (List (List UInt8))
  | 0, _ => failure
  | fuel + 1, names => do
    let names := names ++ [← pQLMustSym]
    if ← pKeyword [","] then insertNamesLoop fuel names else pure names

/-- The loop over one row's expressions in `pQLInsert`. -/
def insertRowLoop (exprFuel : Nat) : Nat → List QLNode → PM (List QLNode)
  | 0, _ => failure
  | fuel + 1, row => do
    let row := row ++ [← pExprOr exprFuel]
    if ← pKeyword [","] then insertRowLoop exprFuel fuel row else pure row

/-- The loop over the rows of `VALUES` in `pQLInsert`. -/
def insertValuesLoop (exprFuel : Nat) : Nat → List (List QLNode) → PM (List (List QLNode))
  | 0, _ => failure
  | fuel + 1, values => do
    let values ← if ← pKeyword ["("] then do
        let row ← insertRowLoop exprFuel exprFuel []
        if !(← pKeyword [")"]) then pErr "expect ')'"
        pure (values ++ [row])
      else pure values
    if ← pKeyword [","] then insertValuesLoop exprFuel fuel values else pure values

def pQLInsert (fuel : Nat) (mode : Int) : PM QLInsert := do
  let table ← pQLMustSym
  let names ← if ← pKeyword ["("] then do
      let names ← insertNamesLoop fuel []
      if !(← pKeyword [")"]) then pErr "expect ')'"
      pure names
    else pure []
  let values ← if ← pKeyword ["values"] then insertValuesLoop fuel fuel [] else pure []
  pure ⟨table, mode, names, values⟩

def pQLDelete (fuel : Nat) : PM QLDelete := do
  let table ← pQLMustSym
  pure ⟨← pQLScan fuel { QLScan.zero with table := table }⟩

def updateSetLoop (exprFuel : Nat) : Nat → QLUpdate → PM QLUpdate
  | 0, _ => failure
  | fuel + 1, stmt => do
    let col ← pQLMustSym
    if !(← pKeyword ["="]) then pErr "expect '='"
    let stmt := { stmt with names := stmt.names ++ [col], values := stmt.values ++ [← pExprOr exprFuel] }
    if ← pKeyword [","] then updateSetLoop exprFuel fuel stmt else pure stmt

def pQLUpdate (fuel : Nat) : PM QLUpdate := do
  let table ← pQLMustSym
  let stmt : QLUpdate := ⟨{ QLScan.zero with table := table }, [], []⟩
  let stmt ← if ← pKeyword ["set"] then updateSetLoop fuel fuel stmt else pure stmt
  pure { stmt with scan := ← pQLScan fuel stmt.scan }

/-- `pStmt`: `nil` for an unknown statement or a `SELECT` with an error. -/
def pStmt (fuel : Nat) : PM (Option Stmt) := do
  if ← pKeyword ["create", "table"] then return some (.createTable (← pQLCreateTable))
  if ← pKeyword ["select"] then return (← pQLSelect fuel).map .select
  if ← pKeyword ["insert", "into"] then return some (.insert (← pQLInsert fuel MODE_INSERT_ONLY))
  if ← pKeyword ["replace", "into"] then return some (.insert (← pQLInsert fuel MODE_UPDATE_ONLY))
  if ← pKeyword ["upsert", "into"] then return some (.insert (← pQLInsert fuel MODE_UPSERT))
  if ← pKeyword ["delete", "from"] then return some (.delete (← pQLDelete fuel))
  if ← pKeyword ["update"] then return some (.update (← pQLUpdate fuel))
  pErr "unknown stmt"
  return none

/-- `Parse`: the statement, or the last error recorded. -/
def parse (fuel : Nat) (input : List UInt8) : Option (Option Stmt × Option String) :=
  match (pStmt fuel).run ⟨input, 0, none⟩ with
  | none => none
  | some (stmt, p) => some (if p.err.isSome then (none, p.err) else (stmt, none))

def selectWhere : List UInt8 := asciiBytes "SELECT id, name FROM users WHERE age > 18"

/-- The query parses with no error as a `SELECT` from `users` with no filter: parsing stops
at index 26, before `WHERE`, and `Parse` accepts the statement with its `WHERE` clause
unread. -/
theorem parse_ignores_where :
    ∃ q : QLSelect, (pStmt 12).run ⟨selectWhere, 0, none⟩ = some (some (.select q), ⟨selectWhere, 26, none⟩) ∧
      q.scan.table = asciiBytes "users" ∧ q.scan.filter = .zero ∧
      parse 12 selectWhere = some (some (.select q), none) ∧ spaceEnd selectWhere 26 < selectWhere.length :=
  ⟨_, rfl, rfl, rfl, rfl, by decide⟩

/- The loop of `pNum` runs in `int64`: each step wraps, and since wrapping commutes with the
step, the stored value is the run's value wrapped once. A run of at most `2^63 - 1` is
stored as it is; a longer one is stored wrapped, and nothing records an error.
-/

/-- The integer a run of decimal digits denotes: the loop of `pNum` in unbounded arithmetic. -/
def decimalValue (digits : List UInt8) : Int :=
  digits.foldl (fun num ch => num * 10 + ((ch.toNat : Int) - 48)) 0

/-- The digits `pNum` reads: the run at the next token. -/
def digitRun (p : Parser) : List UInt8 := (p.input.drop (spaceEnd p.input p.idx)).takeWhile isDigitByte

theorem int64Wrap_step (x d : Int) : int64Wrap (int64Wrap x * 10 + d) = int64Wrap (x * 10 + d) := by
  unfold int64Wrap; omega

theorem int64Wrap_of_lt {x : Int} (h0 : -9223372036854775808 ≤ x) (h1 : x < 9223372036854775808) :
    int64Wrap x = x := by
  unfold int64Wrap; omega

theorem foldl_int64Wrap (digits : List UInt8) : ∀ acc : Int,
    digits.foldl (fun num ch => int64Wrap (num * 10 + ((ch.toNat : Int) - 48))) (int64Wrap acc) =
      int64Wrap (digits.foldl (fun num ch => num * 10 + ((ch.toNat : Int) - 48)) acc) := by
  induction digits with
  | nil => intro _; rfl
  | cons b bs ih => intro acc; simp only [List.foldl_cons, int64Wrap_step, ih]

theorem digitsValue_eq (digits : List UInt8) : digitsValue digits = int64Wrap (decimalValue digits) :=
  foldl_int64Wrap digits 0

theorem pNum_digitRun (p : Parser) (hd : digitRun p ≠ []) :
    pNum p = some (some (.mk ⟨QL_I64, int64Wrap (decimalValue (digitRun p)), []⟩ []),
      { p with idx := spaceEnd p.input p.idx + (digitRun p).length }) := by
  unfold digitRun at hd ⊢
  simp only [pNum, if_neg hd, digitsValue_eq]

theorem pNum_stores_small (p : Parser) (hd : digitRun p ≠ []) (hv : 0 ≤ decimalValue (digitRun p))
    (hsmall : decimalValue (digitRun p) ≤ 9223372036854775807) :
    pNum p = some (some (.mk ⟨QL_I64, decimalValue (digitRun p), []⟩ []),
      { p with idx := spaceEnd p.input p.idx + (digitRun p).length }) := by
  rw [pNum_digitRun p hd, int64Wrap_of_lt (by omega) (by omega)]

def bigLiteral : List UInt8 := asciiBytes "SELECT 9223372036854775808 FROM t"

/-- The literal `2^63` parses with no error, and the statement outputs `-2^63`. -/
theorem parse_wraps_big_literal :
    ∃ q : QLSelect, parse 12 bigLiteral = some (some (.select q), none) ∧
      ∃ v, q.output = [.mk v []] ∧ v.type = QL_I64 ∧ v.i64 = -9223372036854775808 ∧
        decimalValue (asciiBytes "9223372036854775808") = 9223372036854775808 :=
  have hrun : decimalValue (asciiBytes "9223372036854775808") = 9223372036854775808 := by decide
  ⟨_, rfl, _, rfl, rfl, show digitsValue (asciiBytes "9223372036854775808") = _ by
    rw [digitsValue_eq, hrun]; unfold int64Wrap; omega, hrun⟩

end GoMiniDb.Query
