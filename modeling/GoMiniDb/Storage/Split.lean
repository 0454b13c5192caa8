import GoMiniDb.Storage.Inv
import GoMiniDb.Storage.NodeSpec

/-! # Cutting a node into pages

`nodeSplit2` cuts a node in two with two greedy loops: it shrinks the left half from the
middle until `left_bytes()` fits a page, then grows it until `right_bytes()` does. Both are
prefix sums of the cells' sizes, `cellsBytes` of the cells taken and of the cells left.
`nodeSplit3` cuts a node of at most two pages less a header, whose cells each fit a page
alone, without failing an assertion: a second cut is needed only when the first left half
is still too big, and then the growing loop stopped one cell past a left half of at most a
page less a header, which bounds whatever the second cut keeps on its left.
-/
namespace GoMiniDb.Storage

open BNode

/-- The bytes a run of cells takes in a node past the header: a pointer, an offset and the
KV pair of each. -/
def cellsBytes : List Cell → Nat
  | [] => 0
  | c :: cs => 10 + c.size + cellsBytes cs

section Bytes

variable {c : Cell} {cs xs ys : List Cell}

@[simp] theorem cellsBytes_nil : cellsBytes [] = 0 := rfl

@[simp] theorem cellsBytes_cons : cellsBytes (c :: cs) = 10 + c.size + cellsBytes cs := rfl

@[simp] theorem cellsBytes_append : cellsBytes (xs ++ ys) = cellsBytes xs + cellsBytes ys := by
  induction xs with
  | nil => simp
  | cons x xs ih => simp only [List.cons_append, cellsBytes_cons, ih]; omega

theorem cellsBytes_take_add_drop (cs : List Cell) (k : Nat) :
    cellsBytes (cs.take k) + cellsBytes (cs.drop k) = cellsBytes cs := by
  rw [← cellsBytes_append, List.take_append_drop]

theorem cellsBytes_take_mono {i j : Nat} (h : i ≤ j) : cellsBytes (cs.take i) ≤ cellsBytes (cs.take j) := by
  have := cellsBytes_take_add_drop (cs.take j) i
  rw [List.take_take, Nat.min_eq_left h] at this
  omega

theorem cellsBytes_take_succ {k : Nat} (hk : k < cs.length) :
    cellsBytes (cs.take (k + 1)) = cellsBytes (cs.take k) + (10 + (cs.get ⟨k, hk⟩).size) := by
  rw [List.take_succ, cellsBytes_append, List.getElem?_eq_getElem hk]
  simp

theorem length_le_cellsBytes (cs : List Cell) : 14 * cs.length ≤ cellsBytes cs := by
  induction cs with
  | nil => simp
  | cons c cs ih => simp only [List.length_cons, cellsBytes_cons, Cell.size]; omega

theorem le_cellsBytes_of_mem (h : c ∈ cs) : 10 + c.size ≤ cellsBytes cs := by
  induction cs with
  | nil => simp at h
  | cons d cs ih =>
    rcases List.mem_cons.mp h with rfl | h
    · simp
    · have := ih h; simp only [cellsBytes_cons]; omega

theorem offsetOf_eq (cs : List Cell) {k : Nat} (hk : k ≤ cs.length) :
    10 * k + offsetOf cs k = cellsBytes (cs.take k) := by
  induction cs generalizing k with
  | nil => obtain rfl : k = 0 := by simpa using hk
           rfl
  | cons c cs ih =>
    cases k with
    | zero => rfl
    | succ k =>
      have := ih (k := k) (by simpa using hk)
      simp only [offsetOf, List.take_succ_cons, cellsBytes_cons]
      omega

theorem offsetOf_mono : ∀ {cs : List Cell} {i j : Nat}, i ≤ j → offsetOf cs i ≤ offsetOf cs j
  | [], _, _, _ => Nat.zero_le _
  | _ :: _, 0, _, _ => Nat.zero_le _
  | _ :: _, _ + 1, 0, h => absurd h (Nat.not_succ_le_zero _)
  | c :: _, _ + 1, _ + 1, h => Nat.add_le_add_left (offsetOf_mono (Nat.le_of_succ_le_succ h)) c.size

theorem size_eq (node : BNode) : node.size = HEADER + cellsBytes node.cells := by
  rw [BNode.size, Nat.add_assoc, offsetOf_eq _ le_rfl, List.take_length]

end Bytes

/-- A node whose header counts its cells and whose bytes lie inside its buffer: every read
returns what was written, and no `uint16` sum of its sizes wraps. -/
structure Filled (node : BNode) : Prop where
  nkeys : node.hdrKeys = node.cells.length
  fits : node.size ≤ node.len
  small : node.size < 65536

section Reads

variable {node : BNode} {α β : Type}

@[simp] theorem except_ok_bind {a : α} {f : α → Outcome β} : (Except.ok a : Outcome α) >>= f = f a :=
  rfl

theorem assert_pos {c : Prop} [Decidable c] {msg : String} (h : c) : assert c msg = .ok () := if_pos h

theorem bounds_pos {c : Prop} [Decidable c] (h : c) : bounds c = .ok () := if_pos h

theorem Filled.header (h : Filled node) : HEADER + 10 * node.hdrKeys ≤ node.len := by
  have := h.fits
  rw [BNode.size, ← h.nkeys] at this
  omega

theorem nkeys_eq (h : 4 ≤ node.len) : node.nkeys = .ok node.hdrKeys := by
  simp [nkeys, bounds, h]

theorem btype_eq (h : 2 ≤ node.len) : node.btype = .ok node.hdrType := by
  simp [btype, bounds, h]

theorem setHeader_eq {t k : Nat} (h : 4 ≤ node.len) :
    node.setHeader t k = .ok { node with hdrType := t, hdrKeys := k } := by
  simp [setHeader, bounds, h]

theorem getOffset_eq {i : Nat} (hlen : HEADER + 10 * node.hdrKeys ≤ node.len) (hi : i ≤ node.hdrKeys)
    (hw : i ≤ node.cells.length) : node.getOffset i = .ok (offsetOf node.cells i) := by
  unfold getOffset offsetPos
  split
  · subst i; cases node.cells <;> rfl
  · simp only [HEADER] at hlen ⊢
    simp (disch := omega) only [nkeys_eq, except_ok_bind, assert, bounds, if_pos, hw, pure_bind]
    rfl

theorem kvPos_eq {i : Nat} (hlen : HEADER + 10 * node.hdrKeys ≤ node.len) (hi : i ≤ node.hdrKeys)
    (hw : i ≤ node.cells.length) :
    node.kvPos i = .ok (HEADER + 10 * node.hdrKeys + offsetOf node.cells i) := by
  have h4 : 4 ≤ node.len := by unfold HEADER at hlen; omega
  simp only [kvPos, nkeys_eq h4, except_ok_bind, assert, if_pos hi, getOffset_eq hlen hi hw]
  show Except.ok _ = _
  congr 1; omega

theorem Filled.cell_end {i : Nat} {c : Cell} (h : Filled node) (hc : node.cells[i]? = some c) :
    HEADER + 10 * node.hdrKeys + offsetOf node.cells i + c.size ≤ node.len := by
  obtain ⟨hi, rfl⟩ := List.getElem?_eq_some_iff.mp hc
  have h1 := offsetOf_eq node.cells (Nat.le_of_lt hi)
  have h1' := offsetOf_eq node.cells (k := i + 1) hi
  have h2 := cellsBytes_take_succ hi
  have h3 := @offsetOf_mono node.cells (i + 1) _ hi
  have h4 := h.fits
  unfold BNode.size at h4
  simp only [List.get_eq_getElem] at h2
  rw [h.nkeys]
  omega

theorem getPtr_eq {i : Nat} {c : Cell} (h : Filled node) (hc : node.cells[i]? = some c) :
    node.getPtr i = .ok c.ptr := by
  have hi := (List.getElem?_eq_some_iff.mp hc).1
  have hlen := h.header
  rw [h.nkeys] at hlen
  unfold HEADER at hlen
  simp (disch := omega) only [getPtr, nkeys_eq, h.nkeys, except_ok_bind, assert_pos, bounds_pos,
    List.get?_eq_getElem?, hc, HEADER]
  rfl

theorem getKey_eq {i : Nat} {c : Cell} (h : Filled node) (hc : node.cells[i]? = some c) :
    node.getKey i = .ok c.key := by
  have hi := (List.getElem?_eq_some_iff.mp hc).1
  have hend := h.cell_end hc
  have hk := h.nkeys
  unfold Cell.size at hend
  simp (disch := omega) only [getKey, nkeys_eq, hk, except_ok_bind, assert_pos, bounds_pos,
    kvPos_eq h.header, cell, List.get?_eq_getElem?, hc]
  rfl

theorem getVal_eq {i : Nat} {c : Cell} (h : Filled node) (hc : node.cells[i]? = some c) :
    node.getVal i = .ok c.val := by
  have hi := (List.getElem?_eq_some_iff.mp hc).1
  have hend := h.cell_end hc
  have hk := h.nkeys
  unfold Cell.size at hend
  simp (disch := omega) only [getVal, nkeys_eq, hk, except_ok_bind, assert_pos, bounds_pos,
    kvPos_eq h.header, cell, List.get?_eq_getElem?, hc]
  rfl

theorem Filled.nbytes (h : Filled node) : node.nbytes = .ok node.size := by
  have hlen := h.header
  have h4 : 4 ≤ node.len := by unfold HEADER at hlen; omega
  rw [BNode.nbytes, nkeys_eq h4, except_ok_bind, kvPos_eq hlen le_rfl (le_of_eq h.nkeys), BNode.size, h.nkeys]

theorem Filled.leftBytes {i : Nat} (h : Filled node) (hi : i ≤ node.cells.length) :
    leftBytes node i = .ok (HEADER + cellsBytes (node.cells.take i)) := by
  have hlen := h.header
  have hoff := offsetOf_eq node.cells hi
  have hmono := @cellsBytes_take_mono node.cells _ _ (Nat.le_refl _ |>.trans' hi)
  have hs := h.small
  rw [size_eq, ← List.take_length (l := node.cells)] at hs
  rw [GoMiniDb.Storage.leftBytes, getOffset_eq hlen (h.nkeys ▸ hi) hi, except_ok_bind]
  show Except.ok _ = _
  unfold HEADER at *
  simp (disch := omega) only [u16, Nat.mod_eq_of_lt]
  congr 1; omega

theorem Filled.rightBytes {i : Nat} (h : Filled node) (hi : i ≤ node.cells.length) :
    rightBytes node i = .ok (HEADER + cellsBytes (node.cells.drop i)) := by
  have hsplit := cellsBytes_take_add_drop node.cells i
  have hs := h.small
  rw [size_eq] at hs
  rw [GoMiniDb.Storage.rightBytes, h.nbytes, except_ok_bind, h.leftBytes hi, except_ok_bind, size_eq]
  show Except.ok _ = _
  unfold HEADER at *
  simp (disch := omega) only [u16, Nat.mod_eq_of_lt]
  congr 1; omega

theorem Filled.count_lt (h : Filled node) : 10 * node.cells.length + HEADER < 65536 := by
  have := h.small
  unfold BNode.size at this
  omega

theorem nodeAppendKV_at_end {ptr : UInt64} {key val : Bytes} (hi : node.cells.length < node.hdrKeys)
    (hfit : HEADER + 10 * node.hdrKeys + offsetOf node.cells node.cells.length +
      (4 + key.length + val.length) ≤ node.len) :
    nodeAppendKV node node.cells.length ptr key val =
      .ok { node with cells := node.cells ++ [⟨ptr, key, val⟩] } := by
  have hlen : HEADER + 10 * node.hdrKeys ≤ node.len := by omega
  simp only [HEADER] at hlen hfit
  simp (disch := omega) only [nodeAppendKV, nkeys_eq, except_ok_bind, assert_pos, bounds_pos,
    kvPos_eq hlen hi.le le_rfl, offsetPos, HEADER, pure_bind, Nat.add_sub_cancel, if_pos]
  rfl

/-- `nodeAppendRange` of cells of a filled node at the next index of a node whose count has
room and whose buffer holds the cells written so far: the cells are copied. The buffer
need not hold the copied cells: the source bounds only where they start. -/
theorem Filled.appendRange_at_end {old : BNode} {src n : Nat} (hold : Filled old)
    (hsn : src + n ≤ old.cells.length) (hn : node.cells.length + n ≤ node.hdrKeys)
    (hfit : HEADER + 10 * node.hdrKeys + offsetOf node.cells node.cells.length ≤ node.len) :
    nodeAppendRange node old node.cells.length src n =
      .ok { node with cells := node.cells ++ (old.cells.drop src).take n } := by
  have hmono := @offsetOf_mono old.cells _ _ hsn
  have hfits := hold.fits
  have hk := hold.nkeys
  have hlen : HEADER + 10 * node.hdrKeys ≤ node.len := by omega
  have hi : node.cells.length ≤ node.hdrKeys := by omega
  unfold BNode.size at hfits
  simp only [HEADER] at hlen hfit hfits
  by_cases hn0 : n = 0
  · subst n
    simp (disch := omega) only [nodeAppendRange, ↓reduceIte, nkeys_eq, except_ok_bind, assert_pos, u16,
      pure_bind, List.take_zero, List.append_nil]
    rfl
  · simp (disch := omega) only [nodeAppendRange, nkeys_eq, except_ok_bind, assert_pos, bounds_pos,
      if_neg hn0, kvPos_eq hold.header (hk ▸ hsn) hsn, kvPos_eq hlen hi le_rfl, HEADER, pure_bind, u16,
      true_and, if_pos]
    rfl

theorem Filled.appendRange {new old : BNode} {src n : Nat} (hold : Filled old) (hnew : new.cells = [])
    (hlen : HEADER + 10 * new.hdrKeys ≤ new.len) (hn : n ≤ new.hdrKeys) (hsn : src + n ≤ old.cells.length) :
    nodeAppendRange new old 0 src n = .ok { new with cells := (old.cells.drop src).take n } := by
  simpa [hnew] using @Filled.appendRange_at_end new old src n hold hsn (by simpa [hnew] using hn)
    (by simpa [hnew, offsetOf] using hlen)

end Reads

section Loops

variable {node : BNode}

theorem Filled.shrinkLeft (h : Filled node) : ∀ fuel k, k ≤ node.cells.length → k < fuel →
    ∃ j ≤ k, shrinkLeft node k fuel = .ok j ∧ HEADER + cellsBytes (node.cells.take j) ≤ BTREE_PAGE_SIZE ∧
      (j < k → BTREE_PAGE_SIZE < HEADER + cellsBytes (node.cells.take (j + 1)))
  | 0, k, _, hk => absurd hk (Nat.not_lt_zero k)
  | fuel + 1, k, hkn, hf => by
    rw [GoMiniDb.Storage.shrinkLeft, h.leftBytes hkn, except_ok_bind]
    split
    case isTrue hbig =>
      have hk0 : 0 < k := Nat.pos_of_ne_zero fun e => by subst e; simp [HEADER, BTREE_PAGE_SIZE] at hbig
      have := h.count_lt
      rw [show u16 (k + 65535) = k - 1 by unfold u16; omega]
      obtain ⟨j, hjk, hrun, hfit, hmax⟩ := h.shrinkLeft fuel (k - 1) (by omega) (by omega)
      refine ⟨j, by omega, hrun, hfit, fun hj => ?_⟩
      rcases Nat.lt_or_ge j (k - 1) with hj' | hj'
      · exact hmax hj'
      · rwa [show j + 1 = k by omega]
    case isFalse hfit => exact ⟨k, le_rfl, rfl, not_lt.mp hfit, fun h => absurd h (lt_irrefl k)⟩

theorem Filled.growLeft (h : Filled node)
    (hlast : HEADER + cellsBytes (node.cells.drop (node.cells.length - 1)) ≤ BTREE_PAGE_SIZE) :
    ∀ fuel k, k < node.cells.length → node.cells.length ≤ k + fuel →
      ∃ g, k ≤ g ∧ g < node.cells.length ∧ growLeft node k fuel = .ok g ∧
        HEADER + cellsBytes (node.cells.drop g) ≤ BTREE_PAGE_SIZE ∧
        (k < g → BTREE_PAGE_SIZE < HEADER + cellsBytes (node.cells.drop (g - 1)))
  | 0, k, hk, hf => absurd hf (by omega)
  | fuel + 1, k, hkn, hf => by
    rw [GoMiniDb.Storage.growLeft, h.rightBytes hkn.le, except_ok_bind]
    split
    case isTrue hbig =>
      have hk1 : k + 1 < node.cells.length := by
        by_contra hc
        rw [show k = node.cells.length - 1 by omega] at hbig
        omega
      have := h.count_lt
      rw [show u16 (k + 1) = k + 1 from u16_of_lt (by omega)]
      obtain ⟨g, hkg, hgn, hrun, hfit, hmin⟩ := h.growLeft hlast fuel (k + 1) hk1 (by omega)
      refine ⟨g, by omega, hgn, hrun, hfit, fun _ => ?_⟩
      rcases Nat.lt_or_ge (k + 1) g with hg | hg
      · exact hmin hg
      · rwa [show g - 1 = k by omega]
    case isFalse hfit => exact ⟨k, le_rfl, hkn, rfl, not_lt.mp hfit, fun h => absurd h (lt_irrefl k)⟩

end Loops

section Cuts

variable {old : BNode}

theorem first_fits {cs : List Cell} (hn : 0 < cs.length) (hcell : ∀ c ∈ cs, HEADER + 10 + c.size ≤ BTREE_PAGE_SIZE) :
    HEADER + cellsBytes (cs.take 1) ≤ BTREE_PAGE_SIZE := by
  have := hcell _ (List.get_mem cs 0 hn)
  rw [cellsBytes_take_succ hn, List.take_zero, cellsBytes_nil]
  omega

theorem last_fits {cs : List Cell} (hn : 0 < cs.length) (hcell : ∀ c ∈ cs, HEADER + 10 + c.size ≤ BTREE_PAGE_SIZE) :
    HEADER + cellsBytes (cs.drop (cs.length - 1)) ≤ BTREE_PAGE_SIZE := by
  obtain ⟨init, c, rfl⟩ : ∃ init c, cs = init ++ [c] :=
    ⟨_, _, (List.dropLast_append_getLast (List.ne_nil_of_length_pos hn)).symm⟩
  have := hcell c (List.mem_append_right _ (List.mem_singleton_self c))
  rw [List.length_append, List.length_singleton, Nat.add_sub_cancel, List.drop_left, cellsBytes_cons,
    cellsBytes_nil]
  omega

/-- `nodeSplit2` cuts a filled node of at least two cells, each fitting a page alone, where
the two loops stop: the right half fits a page, and the left half fits one too unless the
growing loop moved it past a cell where the right half did not fit. -/
theorem Filled.nodeSplit2 {left right : BNode} (hold : Filled old) (hn : 2 ≤ old.cells.length)
    (hcell : ∀ c ∈ old.cells, HEADER + 10 + c.size ≤ BTREE_PAGE_SIZE)
    (hl : left.cells = []) (hll : HEADER + 10 * old.cells.length ≤ left.len)
    (hr : right.cells = []) (hrl : BTREE_PAGE_SIZE ≤ right.len) :
    ∃ g, 0 < g ∧ g < old.cells.length ∧
      nodeSplit2 left right old =
        .ok ({ left with hdrType := old.hdrType, hdrKeys := g, cells := old.cells.take g },
          { right with hdrType := old.hdrType, hdrKeys := old.cells.length - g, cells := old.cells.drop g }) ∧
      HEADER + cellsBytes (old.cells.drop g) ≤ BTREE_PAGE_SIZE ∧
      (HEADER + cellsBytes (old.cells.take g) ≤ BTREE_PAGE_SIZE ∨
        BTREE_PAGE_SIZE < HEADER + cellsBytes (old.cells.drop (g - 1))) := by
  have hk := hold.nkeys
  have hlen := hold.header
  have hfirst := first_fits (by omega) hcell
  obtain ⟨j, hjk, hshrink, hjfit, hjmax⟩ :=
    hold.shrinkLeft (old.hdrKeys / 2 + 1) (old.hdrKeys / 2) (by omega) (by omega)
  have hj1 : 1 ≤ j := Nat.pos_of_ne_zero fun e => by
    subst e
    have := hjmax (by omega)
    rw [Nat.zero_add] at this
    omega
  obtain ⟨g, hjg, hgn, hgrow, hgfit, hgmin⟩ :=
    hold.growLeft (last_fits (by omega) hcell) (old.hdrKeys + 1) j (by omega) (by omega)
  refine ⟨g, by omega, hgn, ?_, hgfit,
    (Nat.eq_or_lt_of_le hjg).elim (fun e => .inl (e ▸ hjfit)) fun hlt => .inr (hgmin hlt)⟩
  have hnr : u16 (old.hdrKeys + 65536 - g) = old.cells.length - g := by
    have := hold.count_lt; unfold u16; omega
  have hdrop : (old.cells.drop g).take (old.cells.length - g) = old.cells.drop g :=
    List.take_of_length_le (by simp)
  have hright : Filled ⟨old.hdrType, old.cells.length - g, old.cells.drop g, right.len⟩ := by
    refine ⟨by simp, ?_, ?_⟩ <;> simp only [size_eq] <;> unfold HEADER BTREE_PAGE_SIZE at * <;> omega
  have hrh : HEADER + 10 * (old.cells.length - g) ≤ right.len := by
    have := length_le_cellsBytes (old.cells.drop g)
    rw [List.length_drop] at this
    omega
  simp only [HEADER, BTREE_PAGE_SIZE] at hlen hll hrl hrh
  rw [GoMiniDb.Storage.nodeSplit2, nkeys_eq (by omega), except_ok_bind, assert_pos (by omega), except_ok_bind,
    hshrink, except_ok_bind, assert_pos hj1, except_ok_bind, hgrow, except_ok_bind, assert_pos (by omega),
    except_ok_bind, hnr, btype_eq (by omega), except_ok_bind, setHeader_eq (by omega), except_ok_bind,
    setHeader_eq (by omega), except_ok_bind,
    @Filled.appendRange ⟨old.hdrType, g, left.cells, left.len⟩ old 0 g hold hl
      (by simp only [HEADER]; omega) le_rfl (by omega),
    except_ok_bind, @Filled.appendRange ⟨old.hdrType, old.cells.length - g, right.cells, right.len⟩ old g
      (old.cells.length - g) hold hr (by simp only [HEADER]; omega) le_rfl (by omega), except_ok_bind, hdrop, hl, hr]
  rw [hright.nbytes, except_ok_bind, assert_pos (by rw [size_eq]; exact hgfit)]
  rfl

/-- A node `nodeSplit3` cuts into pages: its header counts its cells, of which it has at
least one, its buffer holds two pages, its bytes are at most two pages less a header, and
each cell alone fits a page. -/
structure Splittable (node : BNode) : Prop where
  nkeys : node.hdrKeys = node.cells.length
  nonempty : node.cells ≠ []
  len : 2 * BTREE_PAGE_SIZE ≤ node.len
  size : node.size + HEADER ≤ 2 * BTREE_PAGE_SIZE
  cell : ∀ c ∈ node.cells, HEADER + 10 + c.size ≤ BTREE_PAGE_SIZE

theorem Splittable.small {node : BNode} (h : Splittable node) : node.hdrKeys < 65536 := by
  have := h.size
  unfold BNode.size HEADER BTREE_PAGE_SIZE at this
  rw [h.nkeys]
  omega

/-- A page `nodeSplit3` returns: of type `t`, its header counting its cells, of which it has
at least one, in a buffer of one page that its bytes fit. -/
structure SplitPage (t : Nat) (node : BNode) : Prop where
  btype : node.hdrType = t
  nkeys : node.hdrKeys = node.cells.length
  nonempty : node.cells ≠ []
  len : node.len = BTREE_PAGE_SIZE
  page : node.size ≤ BTREE_PAGE_SIZE

theorem SplitPage.of_cells {t k : Nat} {cs : List Cell} (hk : k = cs.length) (hpos : 0 < k)
    (hfit : HEADER + cellsBytes cs ≤ BTREE_PAGE_SIZE) : SplitPage t ⟨t, k, cs, BTREE_PAGE_SIZE⟩ :=
  ⟨rfl, hk, List.ne_nil_of_length_pos (hk ▸ hpos), rfl, by rwa [size_eq]⟩

theorem SplitPage.nbytes {t : Nat} {p : BNode} (h : SplitPage t p) : p.nbytes = .ok p.size :=
  Filled.nbytes ⟨h.nkeys, h.len ▸ h.page, by have := h.page; unfold BTREE_PAGE_SIZE at this; omega⟩

theorem Splittable.nodeSplit3 (h : Splittable old) :
    ∃ parts, nodeSplit3 old = .ok parts ∧ 0 < parts.length ∧ parts.length ≤ 3 ∧
      (parts.map BNode.cells).flatten = old.cells ∧ ∀ p ∈ parts, SplitPage old.hdrType p := by
  have hsz := h.size
  have hlen := h.len
  have hk := h.nkeys
  rw [size_eq] at hsz
  simp only [HEADER, BTREE_PAGE_SIZE] at hsz hlen
  have hf : Filled old := ⟨hk, by rw [size_eq]; unfold HEADER; omega, by rw [size_eq]; unfold HEADER; omega⟩
  have hcs := length_le_cellsBytes old.cells
  rw [GoMiniDb.Storage.nodeSplit3, hf.nbytes, except_ok_bind]
  by_cases h1 : old.size ≤ BTREE_PAGE_SIZE
  · rw [if_pos h1, bounds, if_pos (by unfold BTREE_PAGE_SIZE; omega), except_ok_bind]
    exact ⟨_, rfl, by simp, by simp, by simp, by simpa using ⟨rfl, hk, h.nonempty, rfl, h1⟩⟩
  rw [if_neg h1]
  have hn : 2 ≤ old.cells.length := by
    match hc : old.cells, h.nonempty with
    | [c], _ =>
      have := h.cell c (by simp [hc])
      rw [size_eq, hc] at h1
      simp at h1; omega
    | _ :: _ :: _, _ => simp
  obtain ⟨g, hg0, hgn, hsplit, hright, hleft⟩ :=
    @Filled.nodeSplit2 _ (BNode.make (2 * BTREE_PAGE_SIZE)) (BNode.make BTREE_PAGE_SIZE) hf hn h.cell
      rfl (by simp only [BNode.make, HEADER, BTREE_PAGE_SIZE]; omega) rfl le_rfl
  have htake := cellsBytes_take_add_drop old.cells g
  have hgt : (old.cells.take g).length = g := by simp; omega
  have hl1 : Filled ⟨old.hdrType, g, old.cells.take g, 2 * BTREE_PAGE_SIZE⟩ :=
    ⟨hgt.symm, by simp only [size_eq]; unfold HEADER BTREE_PAGE_SIZE; omega,
      by simp only [size_eq]; unfold HEADER; omega⟩
  simp only [pure_bind]
  rw [hsplit]
  simp only [except_ok_bind, BNode.make]
  rw [hl1.nbytes, except_ok_bind]
  have hright' : SplitPage old.hdrType ⟨old.hdrType, old.cells.length - g, old.cells.drop g, BTREE_PAGE_SIZE⟩ :=
    .of_cells (List.length_drop _ _).symm (by omega) hright
  by_cases h2 : BNode.size ⟨old.hdrType, g, old.cells.take g, 2 * BTREE_PAGE_SIZE⟩ ≤ BTREE_PAGE_SIZE
  · rw [if_pos h2]
    refine ⟨_, rfl, by simp, by simp, by simp, ?_⟩
    simp only [List.mem_cons, List.mem_singleton, List.not_mem_nil, or_false]
    rintro p (rfl | rfl)
    · exact .of_cells hgt.symm hg0 (by rwa [size_eq] at h2)
    · exact hright'
  rw [if_neg h2]
  rw [size_eq] at h2
  have hback := hleft.resolve_left h2
  have hg2 : 2 ≤ g := by
    by_contra hc
    obtain rfl : g = 1 := by omega
    exact h2 (first_fits (by omega) h.cell)
  have hsub := cellsBytes_take_add_drop old.cells (g - 1)
  have hsub' := length_le_cellsBytes (old.cells.take (g - 1))
  rw [List.length_take, Nat.min_eq_left (by omega)] at hsub'
  simp only [HEADER, BTREE_PAGE_SIZE] at hback
  obtain ⟨g', hg'0, hg'n, hsplit', hmid, -⟩ :=
    @Filled.nodeSplit2 _ (BNode.make BTREE_PAGE_SIZE) (BNode.make BTREE_PAGE_SIZE) hl1 (by simp; omega)
      (fun c hc => h.cell c (List.mem_of_mem_take hc)) rfl
      (by simp only [BNode.make, HEADER, BTREE_PAGE_SIZE, List.length_take]; omega) rfl le_rfl
  simp only at hg'n
  rw [hgt] at hg'n
  have hll : HEADER + cellsBytes ((old.cells.take g).take g') ≤ BTREE_PAGE_SIZE := by
    rw [List.take_take, Nat.min_eq_left hg'n.le]
    have := @cellsBytes_take_mono old.cells _ _ (show g' ≤ g - 1 by omega)
    unfold HEADER BTREE_PAGE_SIZE; omega
  have hll' : Filled ⟨old.hdrType, g', (old.cells.take g).take g', BTREE_PAGE_SIZE⟩ :=
    ⟨by simp; omega, by simpa only [size_eq] using hll,
      by simp only [size_eq]; unfold HEADER BTREE_PAGE_SIZE at hll; unfold HEADER; omega⟩
  simp only [BNode.make] at hsplit'
  rw [hsplit']
  simp only [except_ok_bind]
  rw [hll'.nbytes, except_ok_bind, assert_pos (by simpa only [size_eq] using hll)]
  refine ⟨_, rfl, by simp, by simp, ?_, ?_⟩
  · simp only [List.map_cons, List.map_nil, List.flatten_cons, List.flatten_nil, List.append_nil,
      ← List.append_assoc, List.take_append_drop]
  simp only [List.mem_cons, List.mem_singleton, List.not_mem_nil, or_false]
  rintro p (rfl | rfl | rfl)
  · exact .of_cells hll'.nkeys hg'0 hll
  · exact .of_cells (by simp) (by omega) hmid
  · exact hright'

end Cuts

end GoMiniDb.Storage
