import GoMiniDb.Query.Parser

/-! # The query executor

`qlEval` and `qlScanRun` of the executor package. `qlScanRun` reads its `Scanner` only
through `Valid`, `Deref` and `Next`, so the scanner is the list of records it yields. An
evaluation returns a value, a Go error (its text, thrown) or a runtime panic (`Call`): a
record with fewer values than columns, or an operator node with no operand. The column
name of a `QL_SYM` node is ASCII, since the lexer reads only letters, digits and `_`, so
`string(node.Value.Str)` is its ASCII text. The counter `i` of the loop counts the records
yielded, fewer than `2^63`, so it is an integer that never wraps.

The loop keeps a record only when its counter lies in `[Offset, Limit)`, and the parser
leaves `Limit` at zero when the statement has no `LIMIT` clause: a scan without one
returns nothing.
-/
namespace GoMiniDb.Query

open GoMiniDb.Database (Record Call TYPE_INT64 TYPE_BYTES TYPE_ERROR asciiBytes)

/-- An evaluation: a result, a Go error, or a panic. -/
abbrev Eval := ExceptT String Call

def asciiString (b : List UInt8) : String := String.mk (b.map fun c => Char.ofNat c.toNat)

def QLNode.value : QLNode → Value
  | .mk v _ => v

def cmpEq (a b : Database.Value) : Database.Value :=
  if a.type ≠ b.type then ⟨TYPE_ERROR, 0, asciiBytes "type mismatch"⟩
  else if a.type = TYPE_INT64 then ⟨TYPE_INT64, if a.i64 = b.i64 then 1 else 0, []⟩
  else if a.type = TYPE_BYTES then ⟨TYPE_INT64, if a.str = b.str then 1 else 0, []⟩
  else ⟨TYPE_INT64, 0, []⟩

/-- `qlEval` with the context's environment `env`: the value of `ctx.out`, or `ctx.err`.
A binary operation evaluates both operands in fresh contexts and fails with the first
error. -/
def qlEval (env : Record) : QLNode → Eval Database.Value
  | .mk v kids =>
    if v.type = QL_SYM then do
      let name := asciiString v.str
      match ← (env.get name : Call _) with
      | some x => pure x
      | none => throw s!"unknown column: {name}"
    else if v.type = QL_I64 then pure ⟨TYPE_INT64, v.i64, []⟩
    else if v.type = QL_STR then pure ⟨TYPE_BYTES, 0, v.str⟩
    else if v.type = QL_NEG then
      match kids with
      | [] => (throw "runtime error: index out of range" : Call _)
      | k :: _ => do
        let x ← qlEval env k
        if x.type = TYPE_INT64 then pure { x with i64 := int64Wrap (-x.i64) }
        else throw "negation requires integer type"
    else if v.type = QL_CMP_EQ then
      match kids with
      | [l, r] => do
        let out := cmpEq (← qlEval env l) (← qlEval env r)
        if out.type = TYPE_ERROR then throw (asciiString out.str) else pure out
      | _ => throw "binary operation requires exactly 2 operands"
    else
      let t := v.type
      throw s!"unsupported expression type: {t}"

/-- `qlScanRun` from counter `i` over the records the scanner still yields, appending to
`out`. -/
def qlScanRun (req : QLScan) : Int → List Record → List Record → Eval (List Record)
  | _, [], out => pure out
  | i, rec :: recs, out => do
    let ok := decide (req.offset ≤ i ∧ i < req.limit)
    let keep ← if ok ∧ req.filter.value.type ≠ 0 then do
        let v ← ExceptT.adapt ("filter evaluation failed: " ++ ·) (qlEval rec req.filter)
        if v.type ≠ TYPE_INT64 then throw "filter must be boolean type"
        pure (decide (v.i64 ≠ 0))
      else pure ok
    qlScanRun req (i + 1) recs (if keep then out ++ [rec] else out)

theorem qlScanRun_no_filter (req : QLScan) (hf : req.filter.value.type = 0) :
    ∀ (recs : List Record) (n : Nat) (out : List Record), qlScanRun req n recs out =
      pure (out ++ ((recs.enumFrom n).filter fun p =>
        decide (req.offset ≤ p.1 ∧ (p.1 : Int) < req.limit)).map Prod.snd)
  | [], n, out => by simp [qlScanRun]
  | rec :: recs, n, out => by
    have ih := qlScanRun_no_filter req hf recs (n + 1)
    push_cast at ih
    simp only [qlScanRun, hf, ne_eq, not_true_eq_false, and_false, if_false, pure_bind, ih,
      List.enumFrom_cons, List.filter_cons]
    split <;> simp

theorem qlScanRun_of_limit_nonpos (req : QLScan) (h : req.limit ≤ 0) :
    ∀ (recs : List Record) (i : Int) (out : List Record), 0 ≤ i → qlScanRun req i recs out = pure out
  | [], _, _, _ => rfl
  | rec :: recs, i, out, hi => by
    have hok : decide (req.offset ≤ i ∧ i < req.limit) = false := by
      simp only [decide_eq_false_iff_not]; omega
    simp only [qlScanRun, hok, Bool.false_eq_true, false_and, if_false, pure_bind]
    exact qlScanRun_of_limit_nonpos req h recs (i + 1) out (by omega)

def selectA : List UInt8 := asciiBytes "SELECT a FROM t"

/-- `SELECT a FROM t` parses with no error and no filter, and its scan returns no record,
whatever records the scanner yields. -/
theorem select_without_limit_returns_nothing :
    ∃ q : QLSelect, parse 12 selectA = some (some (.select q), none) ∧
      q.scan.filter.value.type = QL_UNINIT ∧ q.scan.limit = 0 ∧
      ∀ recs : List Record, qlScanRun q.scan 0 recs [] = pure [] :=
  ⟨_, rfl, rfl, rfl, fun recs => qlScanRun_of_limit_nonpos _ (Int.le_refl _) recs 0 [] (Int.le_refl 0)⟩

end GoMiniDb.Query
