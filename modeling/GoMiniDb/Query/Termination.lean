import GoMiniDb.Query.Parser
import Mathlib.Tactic.LiftLets

/-! # The parser returns on every input

The expression levels of the parser call one another in a cycle, `pExprOr` down to
`pExprAtom` and back to `pExprTuple`, and its loops repeat while a separator or an operator
follows. Every round of a loop after the first starts with `pKeyword` reading a separator
or an operator, and the one call back up the cycle, from `pExprAtom` to `pExprTuple`, comes
after an opening parenthesis; every other call goes one level down. So the bytes left to
read bound how often the cycle can be closed and how often a loop can go round: fuel of
nine per byte left plus the depth of the level is enough, and with it every function of
the parser returns, on the same input, having moved the index only forward.
-/
namespace GoMiniDb.Query

open GoMiniDb.Database (asciiBytes)

def Parser.rest (p : Parser) : Nat := p.input.length - p.idx

/-- From every state, `m` returns on the same input with the index moved only forward. -/
def Advances {α : Type} (m : PM α) : Prop :=
  ∀ p : Parser, ∃ a p', m p = some (a, p') ∧ p'.input = p.input ∧ p.idx ≤ p'.idx

/-- The same from every state with at most `r` bytes left. -/
def ReturnsWithin {α : Type} (r : Nat) (m : PM α) : Prop :=
  ∀ p : Parser, p.rest ≤ r → ∃ a p', m p = some (a, p') ∧ p'.input = p.input ∧ p.idx ≤ p'.idx

section Combinators

variable {α β : Type} {r : Nat} {m : PM α} {f : α → PM β}

theorem rest_le {p p' : Parser} (hi : p'.input = p.input) (hx : p.idx ≤ p'.idx) :
    p'.rest ≤ p.rest := by
  unfold Parser.rest; rw [hi]; omega

theorem bind_some {p p' : Parser} {a : α} (h : m p = some (a, p')) : (m >>= f) p = f a p' := by
  show (m p).bind _ = _
  rw [h]; rfl

theorem Advances.bind (hm : Advances m) (hf : ∀ a, Advances (f a)) : Advances (m >>= f) := by
  intro p
  obtain ⟨a, p₁, h₁, hi₁, hx₁⟩ := hm p
  obtain ⟨b, p₂, h₂, hi₂, hx₂⟩ := hf a p₁
  exact ⟨b, p₂, (bind_some h₁).trans h₂, hi₂.trans hi₁, hx₁.trans hx₂⟩

theorem Advances.pure (a : α) : Advances (pure a : PM α) := fun p => ⟨a, p, rfl, rfl, le_rfl⟩

theorem Advances.ite {c : Prop} [Decidable c] {m₁ m₂ : PM α} (h₁ : Advances m₁) (h₂ : Advances m₂) :
    Advances (if c then m₁ else m₂) := by
  split <;> assumption

theorem Advances.within (hm : Advances m) : ReturnsWithin r m := fun p _ => hm p

theorem ReturnsWithin.mono {r' : Nat} (hm : ReturnsWithin r m) (h : r' ≤ r) : ReturnsWithin r' m :=
  fun p hp => hm p (hp.trans h)

theorem ReturnsWithin.bind (hm : ReturnsWithin r m) (hf : ∀ a, ReturnsWithin r (f a)) :
    ReturnsWithin r (m >>= f) := by
  intro p hp
  obtain ⟨a, p₁, h₁, hi₁, hx₁⟩ := hm p hp
  obtain ⟨b, p₂, h₂, hi₂, hx₂⟩ := hf a p₁ ((rest_le hi₁ hx₁).trans hp)
  exact ⟨b, p₂, (bind_some h₁).trans h₂, hi₂.trans hi₁, hx₁.trans hx₂⟩

theorem ReturnsWithin.pure (a : α) : ReturnsWithin r (pure a : PM α) := (Advances.pure a).within

theorem ReturnsWithin.ite {c : Prop} [Decidable c] {m₁ m₂ : PM α} (h₁ : ReturnsWithin r m₁)
    (h₂ : ReturnsWithin r m₂) : ReturnsWithin r (if c then m₁ else m₂) := by
  split <;> assumption

end Combinators

section Lexer

variable {input : List UInt8}

theorem le_spaceEnd (input : List UInt8) (i : Nat) : i ≤ spaceEnd input i := Nat.le_add_right _ _

theorem matchKeyword_some {i e : Nat} {kw : List UInt8} (h : matchKeyword input i kw = some e) :
    i + kw.length ≤ e ∧ e ≤ input.length := by
  have hs := le_spaceEnd input i
  unfold matchKeyword at h
  dsimp only at h
  split_ifs at h <;> cases h <;> exact ⟨by omega, by omega⟩

theorem keywords_some : ∀ {kws : List String} {i e : Nat},
    kws.foldlM (fun i kw => matchKeyword input i (asciiBytes kw)) i = some e → i ≤ e
  | [], i, e, h => by cases h; exact le_rfl
  | kw :: kws, i, e, h => by
    simp only [List.foldlM, Option.bind_eq_bind, Option.bind_eq_some] at h
    obtain ⟨j, hj, h⟩ := h
    exact le_trans (by have := (matchKeyword_some hj).1; omega) (keywords_some h)

theorem pKeyword_advances (kws : List String) : Advances (pKeyword kws) := by
  intro p
  unfold pKeyword
  split
  · rename_i e h
    exact ⟨true, _, rfl, rfl, keywords_some h⟩
  · exact ⟨false, p, rfl, rfl, le_rfl⟩

theorem pKeyword_single {kw : String} (hkw : asciiBytes kw ≠ []) (p : Parser) :
    ∃ b p', pKeyword [kw] p = some (b, p') ∧ p'.input = p.input ∧ p.idx ≤ p'.idx ∧
      (b = true → p'.rest < p.rest) := by
  unfold pKeyword
  simp only [List.foldlM, Option.bind_eq_bind]
  cases h : matchKeyword p.input p.idx (asciiBytes kw) with
  | none => exact ⟨false, p, rfl, rfl, le_rfl, nofun⟩
  | some e =>
    have hlen := List.length_pos.mpr hkw
    obtain ⟨h₁, h₂⟩ := matchKeyword_some h
    refine ⟨true, { p with idx := e }, rfl, rfl, show p.idx ≤ e by omega, fun _ => ?_⟩
    unfold Parser.rest; dsimp only; omega

theorem pErr_advances (msg : String) : Advances (pErr msg) := fun _ => ⟨(), _, rfl, rfl, le_rfl⟩

theorem pErrNode_advances (node : QLNode) (msg : String) : Advances (pErrNode node msg) :=
  (pErr_advances msg).bind fun _ => by cases node; exact .pure _

theorem skipSpace_advances : Advances skipSpace := fun _ => ⟨(), _, rfl, rfl, le_spaceEnd _ _⟩

theorem pNum_advances : Advances pNum := by
  intro p
  unfold pNum
  dsimp only
  have := le_spaceEnd p.input p.idx
  split
  · exact ⟨_, _, rfl, rfl, this⟩
  · exact ⟨_, _, rfl, rfl, by dsimp only; omega⟩

theorem pStr_advances : Advances pStr := by
  intro p
  unfold pStr
  dsimp only
  have := le_spaceEnd p.input p.idx
  split
  · exact ⟨_, _, rfl, rfl, this⟩
  · split
    · exact ⟨_, _, rfl, rfl, by dsimp only; omega⟩
    · exact ⟨_, _, rfl, rfl, by dsimp only; omega⟩

theorem pSym_advances : Advances pSym := by
  intro p
  unfold pSym
  dsimp only
  have := le_spaceEnd p.input p.idx
  split
  · split
    · exact ⟨_, _, rfl, rfl, this⟩
    · exact ⟨_, _, rfl, rfl, by dsimp only; omega⟩
  · exact ⟨_, _, rfl, rfl, this⟩

theorem pQLMustSym_advances : Advances pQLMustSym := by
  refine skipSpace_advances.bind fun _ p => ?_
  rw [bind_some (show (get : PM Parser) p = some (p, p) from rfl)]
  cases symAt p.input p.idx with
  | none => exact ⟨_, _, rfl, rfl, le_rfl⟩
  | some sym =>
    dsimp only
    by_cases hk : isKeyword sym = true
    · rw [if_pos hk]; exact ⟨_, _, rfl, rfl, le_rfl⟩
    · rw [if_neg hk]; exact ⟨_, _, rfl, rfl, Nat.le_add_right _ _⟩

end Lexer

section Loops

variable {α : Type} {r : Nat}

theorem ReturnsWithin.keyword {kw : String} (hkw : asciiBytes kw ≠ []) {f : Bool → PM α}
    (ht : ∀ r' < r, ReturnsWithin r' (f true)) (hf : ReturnsWithin r (f false)) :
    ReturnsWithin r (pKeyword [kw] >>= f) := by
  intro p hp
  obtain ⟨b, p₁, h₁, hi₁, hx₁, hlt⟩ := pKeyword_single hkw p
  rw [bind_some h₁]
  obtain ⟨a, p₂, h₂, hi₂, hx₂⟩ : ∃ a p₂, f b p₁ = some (a, p₂) ∧ p₂.input = p₁.input ∧ p₁.idx ≤ p₂.idx := by
    cases b
    · exact hf p₁ ((rest_le hi₁ hx₁).trans hp)
    · exact ht _ (Nat.lt_of_lt_of_le (hlt rfl) hp) p₁ le_rfl
  exact ⟨a, p₂, h₂, hi₂.trans hi₁, hx₁.trans hx₂⟩

theorem ReturnsWithin.keyword_ite {kw : String} (hkw : asciiBytes kw ≠ []) {m₁ m₂ : PM α}
    (ht : ∀ r' < r, ReturnsWithin r' m₁) (hf : ReturnsWithin r m₂) :
    ReturnsWithin r (pKeyword [kw] >>= fun b => if b = true then m₁ else m₂) :=
  .keyword hkw (fun r' hr' => by simpa using ht r' hr') (by simpa using hf)

theorem firstOp_spec : ∀ {ops : List (String × UInt32)}, (∀ o ∈ ops, asciiBytes o.1 ≠ []) →
    ∀ p : Parser, ∃ o p', firstOp ops p = some (o, p') ∧ p'.input = p.input ∧ p.idx ≤ p'.idx ∧
      (o.isSome → p'.rest < p.rest)
  | [], _, p => ⟨none, p, rfl, rfl, le_rfl, nofun⟩
  | (op, t) :: ops, hops, p => by
    obtain ⟨b, p₁, h₁, hi₁, hx₁, hlt⟩ := pKeyword_single (hops _ (List.mem_cons_self _ _)) p
    rw [firstOp, bind_some h₁]
    cases b
    · obtain ⟨o, p₂, h₂, hi₂, hx₂, hlt₂⟩ := firstOp_spec (fun o ho => hops o (List.mem_cons_of_mem _ ho)) p₁
      exact ⟨o, p₂, h₂, hi₂.trans hi₁, hx₁.trans hx₂,
        fun ho => Nat.lt_of_lt_of_le (hlt₂ ho) (rest_le hi₁ hx₁)⟩
    · exact ⟨some t, p₁, rfl, hi₁, hx₁, fun _ => hlt rfl⟩

theorem ReturnsWithin.firstOp {ops : List (String × UInt32)} (hops : ∀ o ∈ ops, asciiBytes o.1 ≠ [])
    {f : Option UInt32 → PM α} (hs : ∀ t, ∀ r' < r, ReturnsWithin r' (f (some t)))
    (hn : ReturnsWithin r (f none)) : ReturnsWithin r (firstOp ops >>= f) := by
  intro p hp
  obtain ⟨o, p₁, h₁, hi₁, hx₁, hlt⟩ := firstOp_spec hops p
  rw [bind_some h₁]
  obtain ⟨a, p₂, h₂, hi₂, hx₂⟩ : ∃ a p₂, f o p₁ = some (a, p₂) ∧ p₂.input = p₁.input ∧ p₁.idx ≤ p₂.idx := by
    cases o with
    | none => exact hn p₁ ((rest_le hi₁ hx₁).trans hp)
    | some t => exact hs t _ (Nat.lt_of_lt_of_le (hlt rfl) hp) p₁ le_rfl
  exact ⟨a, p₂, h₂, hi₂.trans hi₁, hx₁.trans hx₂⟩

theorem binopLoop_returns {ops : List (String × UInt32)} (hops : ∀ o ∈ ops, asciiBytes o.1 ≠ [])
    {next : PM QLNode} : ∀ {G r : Nat}, r < G → ReturnsWithin r next →
      ∀ left, ReturnsWithin r (binopLoop ops next G left)
  | 0, _, h, _, _ => absurd h (Nat.not_lt_zero _)
  | G + 1, r, h, hnext, left => by
    rw [binopLoop]
    exact .firstOp hops (fun t r' hr' => (hnext.mono hr'.le).bind fun right =>
      binopLoop_returns hops (by omega) (hnext.mono hr'.le) _) (.pure left)

theorem pExprBinop_returns {ops : List (String × UInt32)} (hops : ∀ o ∈ ops, asciiBytes o.1 ≠ [])
    {next : PM QLNode} {G : Nat} (hG : r < G) (hnext : ReturnsWithin r next) :
    ReturnsWithin r (pExprBinop ops next G) :=
  hnext.bind (binopLoop_returns hops hG hnext)

end Loops

/- Each level needs one more unit of fuel per call than the level below it, and the cycle
through all nine, from `pExprTuple` back to itself, is closed only after a byte has been
read: nine units per byte left. -/

section Levels

variable {R : Nat}

theorem pExprAtom_returns (hT : ∀ r < R, ∀ {F}, 9 * r + 9 ≤ F → ReturnsWithin r (pExprTuple F)) :
    ∀ {F}, 9 * R + 1 ≤ F → ReturnsWithin R (pExprAtom F)
  | 0, h => absurd h (by omega)
  | F + 1, h => by
    rw [pExprAtom]
    refine .keyword_ite (by decide) (fun r hr => (hT r hr (by omega)).bind fun node =>
      ((pKeyword_advances _).bind fun _ => .ite (.pure _) (pErrNode_advances _ _)).within) ?_
    refine (pSym_advances.bind fun o => ?_).within
    cases o
    · refine pNum_advances.bind fun o => ?_
      cases o
      · refine pStr_advances.bind fun o => ?_
        cases o
        · exact pErrNode_advances _ _
        · exact .pure _
      · exact .pure _
    · exact .pure _

theorem pExprUnop_returns (hA : ∀ {F}, 9 * R + 1 ≤ F → ReturnsWithin R (pExprAtom F)) :
    ∀ {F}, 9 * R + 2 ≤ F → ReturnsWithin R (pExprUnop F)
  | 0, h => absurd h (by omega)
  | F + 1, h => by
    rw [pExprUnop]
    exact (pKeyword_advances _).within.bind fun _ =>
      .ite ((hA (by omega)).bind fun _ => .pure _) (hA (by omega))

theorem pExprMul_returns (hU : ∀ {F}, 9 * R + 2 ≤ F → ReturnsWithin R (pExprUnop F)) :
    ∀ {F}, 9 * R + 3 ≤ F → ReturnsWithin R (pExprMul F)
  | 0, h => absurd h (by omega)
  | F + 1, h => by rw [pExprMul]; exact pExprBinop_returns (by decide) (by omega) (hU (by omega))

theorem pExprAdd_returns (hM : ∀ {F}, 9 * R + 3 ≤ F → ReturnsWithin R (pExprMul F)) :
    ∀ {F}, 9 * R + 4 ≤ F → ReturnsWithin R (pExprAdd F)
  | 0, h => absurd h (by omega)
  | F + 1, h => by rw [pExprAdd]; exact pExprBinop_returns (by decide) (by omega) (hM (by omega))

theorem pExprCmp_returns (hA : ∀ {F}, 9 * R + 4 ≤ F → ReturnsWithin R (pExprAdd F)) :
    ∀ {F}, 9 * R + 5 ≤ F → ReturnsWithin R (pExprCmp F)
  | 0, h => absurd h (by omega)
  | F + 1, h => by rw [pExprCmp]; exact pExprBinop_returns (by decide) (by omega) (hA (by omega))

theorem pExprNot_returns (hC : ∀ {F}, 9 * R + 5 ≤ F → ReturnsWithin R (pExprCmp F)) :
    ∀ {F}, 9 * R + 6 ≤ F → ReturnsWithin R (pExprNot F)
  | 0, h => absurd h (by omega)
  | F + 1, h => by
    rw [pExprNot]
    exact (pKeyword_advances _).within.bind fun _ =>
      .ite ((hC (by omega)).bind fun _ => .pure _) (hC (by omega))

theorem pExprAnd_returns (hN : ∀ {F}, 9 * R + 6 ≤ F → ReturnsWithin R (pExprNot F)) :
    ∀ {F}, 9 * R + 7 ≤ F → ReturnsWithin R (pExprAnd F)
  | 0, h => absurd h (by omega)
  | F + 1, h => by rw [pExprAnd]; exact pExprBinop_returns (by decide) (by omega) (hN (by omega))

theorem pExprOr_of_and (hA : ∀ {F}, 9 * R + 7 ≤ F → ReturnsWithin R (pExprAnd F)) :
    ∀ {F}, 9 * R + 8 ≤ F → ReturnsWithin R (pExprOr F)
  | 0, h => absurd h (by omega)
  | F + 1, h => by rw [pExprOr]; exact pExprBinop_returns (by decide) (by omega) (hA (by omega))

theorem tupleLoop_returns (hO : ∀ r ≤ R, ∀ {F}, 9 * r + 8 ≤ F → ReturnsWithin r (pExprOr F)) :
    ∀ {G r}, r ≤ R → 9 * r + 1 ≤ G → ∀ kids, ReturnsWithin r (tupleLoop G kids)
  | 0, _, _, h, _ => absurd h (by omega)
  | G + 1, r, hr, h, kids => by
    rw [tupleLoop]
    exact .keyword_ite (by decide) (fun r' hr' => (hO r' (by omega) (by omega)).bind fun _ =>
      tupleLoop_returns hO (by omega) (by omega) _) (.pure kids)

theorem pExprTuple_returns (hO : ∀ r ≤ R, ∀ {F}, 9 * r + 8 ≤ F → ReturnsWithin r (pExprOr F)) :
    ∀ {F}, 9 * R + 9 ≤ F → ReturnsWithin R (pExprTuple F)
  | 0, h => absurd h (by omega)
  | F + 1, h => by
    rw [pExprTuple]
    exact (hO R le_rfl (by omega)).bind fun _ => (tupleLoop_returns hO le_rfl (by omega) _).bind
      fun kids => by split <;> exact .pure _

theorem pExprOr_returns : ∀ r {F}, 9 * r + 8 ≤ F → ReturnsWithin r (pExprOr F) := by
  intro r
  induction r using Nat.strong_induction_on with
  | _ r ih =>
    have hT : ∀ r' < r, ∀ {F}, 9 * r' + 9 ≤ F → ReturnsWithin r' (pExprTuple F) :=
      fun r' hr' => pExprTuple_returns fun r'' hr'' => ih r'' (by omega)
    intro F hF
    exact pExprOr_of_and (pExprAnd_returns <| pExprNot_returns <| pExprCmp_returns <|
      pExprAdd_returns <| pExprMul_returns <| pExprUnop_returns <| pExprAtom_returns hT) hF

end Levels

section Statements

variable {r F : Nat}

theorem get_advances : Advances (get : PM Parser) := fun p => ⟨p, p, rfl, rfl, le_rfl⟩

theorem pQLSelectExpr_returns (hF : 9 * r + 8 ≤ F) (stmt : QLSelect) :
    ReturnsWithin r (pQLSelectExpr F stmt) := by
  unfold pQLSelectExpr
  dsimp only
  refine (pExprOr_returns r hF).bind fun _ => (pKeyword_advances _).within.bind fun _ => ?_
  split
  · exact pQLMustSym_advances.within.bind fun _ => .pure _
  · exact .pure _

theorem selectExprLoop_returns (hF : 9 * r + 8 ≤ F) :
    ∀ {G r'}, r' ≤ r → r' < G → ∀ stmt, ReturnsWithin r' (selectExprLoop F G stmt)
  | 0, _, _, h, _ => absurd h (Nat.not_lt_zero _)
  | G + 1, r', hr, h, stmt => by
    rw [selectExprLoop]
    exact .keyword_ite (by decide) (fun r'' hr'' => ((pQLSelectExpr_returns hF stmt).mono (by omega)).bind
      fun _ => selectExprLoop_returns hF (by omega) (by omega) _) (.pure stmt)

theorem pQLScan_returns (hF : 9 * r + 8 ≤ F) (scan : QLScan) : ReturnsWithin r (pQLScan F scan) := by
  unfold pQLScan
  refine (pKeyword_advances _).within.bind fun _ => ?_
  lift_lets
  intro limitStage filterStage
  have hlimit : ∀ s, ReturnsWithin r (limitStage s) := fun s => by
    simp only [limitStage]
    refine (pKeyword_advances _).within.bind fun _ => .ite ?_ (.pure _)
    refine pNum_advances.within.bind fun _ => (pKeyword_advances _).within.bind fun _ =>
      .ite (pNum_advances.within.bind fun _ => ?_) (.pure _)
    split <;> exact .pure _
  have hfilter : ∀ s, ReturnsWithin r (filterStage s) := fun s =>
    (pKeyword_advances _).within.bind fun _ => .ite
      ((pExprOr_returns r hF).bind fun _ => (ReturnsWithin.pure _).bind fun _ => hlimit _)
      ((ReturnsWithin.pure _).bind fun _ => hlimit _)
  exact .ite ((pExprOr_returns r hF).bind fun _ => (ReturnsWithin.pure _).bind fun _ => hfilter _)
    ((ReturnsWithin.pure _).bind fun _ => hfilter _)

theorem insertNamesLoop_returns : ∀ {G r'}, r' < G → ∀ names, ReturnsWithin r' (insertNamesLoop G names)
  | 0, _, h, _ => absurd h (Nat.not_lt_zero _)
  | G + 1, r', h, names => by
    rw [insertNamesLoop]
    exact pQLMustSym_advances.within.bind fun _ => .keyword_ite (by decide)
      (fun r'' hr'' => insertNamesLoop_returns (by omega) _) (.pure _)

theorem insertRowLoop_returns (hF : 9 * r + 8 ≤ F) :
    ∀ {G r'}, r' ≤ r → r' < G → ∀ row, ReturnsWithin r' (insertRowLoop F G row)
  | 0, _, _, h, _ => absurd h (Nat.not_lt_zero _)
  | G + 1, r', hr, h, row => by
    rw [insertRowLoop]
    exact ((pExprOr_returns r hF).mono hr).bind fun _ => .keyword_ite (by decide)
      (fun r'' hr'' => insertRowLoop_returns hF (by omega) (by omega) _) (.pure _)

theorem insertValuesLoop_returns (hF : 9 * r + 8 ≤ F) :
    ∀ {G r'}, r' ≤ r → r' < G → ∀ values, ReturnsWithin r' (insertValuesLoop F G values)
  | 0, _, _, h, _ => absurd h (Nat.not_lt_zero _)
  | G + 1, r', hr, h, values => by
    have hnext : ∀ v, ReturnsWithin r'
        (pKeyword [","] >>= fun b => if b = true then insertValuesLoop F G v else pure v) :=
      fun v => .keyword_ite (by decide) (fun r'' hr'' => insertValuesLoop_returns hF (by omega) (by omega) v)
        (.pure v)
    rw [insertValuesLoop]
    dsimp only
    refine (pKeyword_advances _).within.bind fun _ => .ite ?_ ((ReturnsWithin.pure _).bind hnext)
    refine (insertRowLoop_returns hF hr (by omega) _).bind fun _ =>
      (pKeyword_advances _).within.bind fun _ => .ite ?_ ?_
    · exact (pErr_advances _).within.bind fun _ => (ReturnsWithin.pure _).bind hnext
    · exact (ReturnsWithin.pure _).bind fun _ => (ReturnsWithin.pure _).bind hnext

theorem updateSetLoop_returns (hF : 9 * r + 8 ≤ F) :
    ∀ {G r'}, r' ≤ r → r' < G → ∀ stmt, ReturnsWithin r' (updateSetLoop F G stmt)
  | 0, _, _, h, _ => absurd h (Nat.not_lt_zero _)
  | G + 1, r', hr, h, stmt => by
    have hrest : ∀ col, ReturnsWithin r' (pExprOr F >>= fun e => pKeyword [","] >>= fun b =>
        if b = true then updateSetLoop F G { stmt with names := stmt.names ++ [col], values := stmt.values ++ [e] }
        else pure { stmt with names := stmt.names ++ [col], values := stmt.values ++ [e] }) :=
      fun _ => ((pExprOr_returns r hF).mono hr).bind fun _ => .keyword_ite (by decide)
        (fun r'' hr'' => updateSetLoop_returns hF (by omega) (by omega) _) (.pure _)
    rw [updateSetLoop]
    dsimp only
    exact pQLMustSym_advances.within.bind fun col => (pKeyword_advances _).within.bind fun _ =>
      .ite ((pErr_advances _).within.bind fun _ => hrest col) ((ReturnsWithin.pure _).bind fun _ => hrest col)

theorem pQLSelect_returns (hF : 9 * r + 8 ≤ F) : ReturnsWithin r (pQLSelect F) := by
  unfold pQLSelect pQLSelectExprList
  dsimp only
  refine ((pQLSelectExpr_returns hF _).bind fun _ => selectExprLoop_returns hF le_rfl (by omega) _).bind
    fun _ => (pKeyword_advances _).within.bind fun _ =>
      .ite ((pErr_advances _).within.bind fun _ => ?_) ((ReturnsWithin.pure _).bind fun _ => ?_) <;>
  exact pQLMustSym_advances.within.bind fun _ => (pQLScan_returns hF _).bind fun _ =>
    (get_advances.bind fun _ => .ite (.pure _) (.pure _)).within

theorem pQLInsert_returns (hF : 9 * r + 8 ≤ F) (mode : Int) : ReturnsWithin r (pQLInsert F mode) := by
  unfold pQLInsert
  dsimp only
  refine pQLMustSym_advances.within.bind fun _ => (pKeyword_advances _).within.bind fun _ =>
    .ite ((insertNamesLoop_returns (by omega) _).bind fun _ => (pKeyword_advances _).within.bind fun _ =>
      .ite ((pErr_advances _).within.bind fun _ => (ReturnsWithin.pure _).bind fun _ => ?_)
        ((ReturnsWithin.pure _).bind fun _ => (ReturnsWithin.pure _).bind fun _ => ?_))
      ((ReturnsWithin.pure _).bind fun _ => ?_) <;>
  exact (pKeyword_advances _).within.bind fun _ => .ite
    ((insertValuesLoop_returns hF le_rfl (by omega) _).bind fun _ => .pure _)
    ((ReturnsWithin.pure _).bind fun _ => .pure _)

theorem pQLDelete_returns (hF : 9 * r + 8 ≤ F) : ReturnsWithin r (pQLDelete F) :=
  pQLMustSym_advances.within.bind fun _ => (pQLScan_returns hF _).bind fun _ => .pure _

theorem pQLUpdate_returns (hF : 9 * r + 8 ≤ F) : ReturnsWithin r (pQLUpdate F) := by
  unfold pQLUpdate
  dsimp only
  refine pQLMustSym_advances.within.bind fun _ => (pKeyword_advances _).within.bind fun _ =>
    .ite ((updateSetLoop_returns hF le_rfl (by omega) _).bind fun _ => ?_)
      ((ReturnsWithin.pure _).bind fun _ => ?_) <;>
  exact (pQLScan_returns hF _).bind fun _ => .pure _

theorem pStmt_returns (hF : 9 * r + 8 ≤ F) : ReturnsWithin r (pStmt F) := by
  have hkw : ∀ {α : Type} {kws} {m : PM α} {k : PM (Option Stmt)}, ReturnsWithin r m → ReturnsWithin r k →
      ∀ (g : α → Option Stmt), ReturnsWithin r (pKeyword kws >>= fun b =>
        if b = true then m >>= fun s => pure (g s) else pure PUnit.unit >>= fun _ => k) :=
    fun hm hk _ => (pKeyword_advances _).within.bind fun _ =>
      .ite (hm.bind fun _ => .pure _) ((ReturnsWithin.pure _).bind fun _ => hk)
  unfold pStmt
  exact hkw (.pure _) (hkw (pQLSelect_returns hF) (hkw (pQLInsert_returns hF _) (hkw (pQLInsert_returns hF _)
    (hkw (pQLInsert_returns hF _) (hkw (pQLDelete_returns hF) (hkw (pQLUpdate_returns hF)
      ((pErr_advances _).within.bind fun _ => .pure _) _) _) _) _) _) _) _

end Statements

/-- `Parse` returns on every input, with nine units of fuel per byte and eight more: every
loop of the parser and every cycle through the expression levels reads input. -/
theorem parse_terminates (input : List UInt8) :
    ∀ fuel, 9 * input.length + 8 ≤ fuel → ∃ result, parse fuel input = some result := by
  intro fuel hfuel
  obtain ⟨a, p', hrun, -⟩ := pStmt_returns hfuel ⟨input, 0, none⟩ (by simp [Parser.rest])
  exact ⟨_, by simp only [parse, StateT.run, hrun]; rfl⟩

theorem parse_select_where_terminates :
    9 * selectWhere.length + 8 ≤ 377 ∧ ∃ result, parse 377 selectWhere = some result :=
  ⟨by decide, parse_terminates selectWhere 377 (by decide)⟩

end GoMiniDb.Query
