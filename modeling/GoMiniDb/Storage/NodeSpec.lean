import GoMiniDb.Storage.Node

/-! # What a node operation did, from its success

Each lemma reads a successful run of a node operation back: the node it returned and the
checks that passed. The builders start from a fresh buffer and, when they return, have
filled exactly the slots the header counts: the `uint16` count arithmetic cannot wrap
without a later bounds check failing.
-/
namespace GoMiniDb.Storage

open BNode

section Outcome

variable {α β : Type}

@[simp] theorem bind_ok_iff {x : Outcome α} {f : α → Outcome β} {b : β} :
    x >>= f = .ok b ↔ ∃ a, x = .ok a ∧ f a = .ok b := by
  cases x <;> simp [bind, Except.bind]

@[simp] theorem pure_ok_iff {a b : α} : (pure a : Outcome α) = .ok b ↔ a = b := by
  simp [pure, Except.pure]

@[simp] theorem assert_ok_iff {c : Prop} [Decidable c] {msg : String} {u : Unit} :
    assert c msg = .ok u ↔ c := by
  unfold assert; split <;> simp_all

@[simp] theorem bounds_ok_iff {c : Prop} [Decidable c] {u : Unit} : bounds c = .ok u ↔ c := by
  unfold bounds; split <;> simp_all

@[simp] theorem ite_error_ok_iff {c : Prop} [Decidable c] {x : Outcome α} {e : Fault} {b : α} :
    (if c then x else .error e) = .ok b ↔ c ∧ x = .ok b := by
  split <;> simp_all

end Outcome

/-- No cell lies past the header's key count. -/
def Written (node : BNode) : Prop := node.cells.length ≤ node.hdrKeys

/-- What page accounting needs of one node: its type, and a header count that is the
number of its cells and fits a `uint16`. -/
structure NodeFrame (t : Nat) (node : BNode) : Prop where
  btype : node.hdrType = t
  nkeys : node.hdrKeys = node.cells.length
  small : node.hdrKeys < 65536

theorem NodeFrame.written {t : Nat} {node : BNode} (fr : NodeFrame t node) : Written node :=
  le_of_eq fr.nkeys.symm

section Reads

variable {node node' : BNode}

theorem nkeys_ok {n : Nat} (h : node.nkeys = .ok n) : n = node.hdrKeys ∧ 4 ≤ node.len := by
  simp only [nkeys, bind_ok_iff, bounds_ok_iff, pure_ok_iff, exists_const] at h
  exact ⟨h.2.symm, h.1⟩

theorem btype_ok {t : Nat} (h : node.btype = .ok t) : t = node.hdrType := by
  simp only [btype, bind_ok_iff, bounds_ok_iff, pure_ok_iff, exists_const] at h
  exact h.2.symm

theorem getPtr_ok {i : Nat} {p : UInt64} (h : node.getPtr i = .ok p) :
    i < node.hdrKeys ∧ p = ((node.cells.get? i).map Cell.ptr).getD 0 := by
  simp only [getPtr, bind_ok_iff, assert_ok_iff, bounds_ok_iff, pure_ok_iff, exists_const] at h
  obtain ⟨n, hn, hi, -, rfl⟩ := h
  exact ⟨(nkeys_ok hn).1 ▸ hi, rfl⟩

theorem getPtr_ok_cell {i : Nat} {p : UInt64} (h : node.getPtr i = .ok p)
    (hw : node.hdrKeys = node.cells.length) :
    ∃ hi : i < node.cells.length, p = (node.cells.get ⟨i, hi⟩).ptr := by
  obtain ⟨hi, rfl⟩ := getPtr_ok h
  refine ⟨hw ▸ hi, ?_⟩
  rw [List.get?_eq_get (hw ▸ hi)]
  rfl

theorem getKey_ok {i : Nat} {k : Bytes} (h : node.getKey i = .ok k) :
    ∃ hi : i < node.cells.length, k = (node.cells.get ⟨i, hi⟩).key := by
  simp only [getKey, cell, bind_ok_iff, assert_ok_iff, bounds_ok_iff, pure_ok_iff, exists_const] at h
  obtain ⟨-, -, -, -, -, -, c, hc, -, rfl⟩ := h
  split at hc
  · rename_i c' hget
    obtain rfl := Except.ok.inj hc
    obtain ⟨hi, e⟩ := List.get?_eq_some.mp hget
    exact ⟨hi, by rw [e]⟩
  · cases hc

theorem setHeader_ok {t k : Nat} (h : node.setHeader t k = .ok node') :
    node' = { node with hdrType := t, hdrKeys := k } := by
  simp only [setHeader, bind_ok_iff, bounds_ok_iff, pure_ok_iff, exists_const] at h
  exact h.2.symm

theorem nodeAppendKV_ok {idx : Nat} {ptr : UInt64} {key val : Bytes}
    (h : nodeAppendKV node idx ptr key val = .ok node') :
    node' = { node with cells := node.cells ++ [⟨ptr, key, val⟩] } ∧ idx = node.cells.length ∧
      idx < node.hdrKeys := by
  simp only [nodeAppendKV, bind_ok_iff, assert_ok_iff, bounds_ok_iff, ite_error_ok_iff,
    pure_ok_iff, exists_const] at h
  obtain ⟨n, hn, hlt, -, -, -, -, -, -, -, hi, rfl⟩ := h
  exact ⟨rfl, hi, (nkeys_ok hn).1 ▸ hlt⟩

theorem nodeAppendRange_ok {old : BNode} {dst src n : Nat}
    (h : nodeAppendRange node old dst src n = .ok node') :
    node' = { node with cells := node.cells ++ (old.cells.drop src).take n } ∧
      (n = 0 ∨ dst = node.cells.length ∧ src + n ≤ old.cells.length ∧ dst + n ≤ node.hdrKeys ∧
        src + n ≤ old.hdrKeys) := by
  simp only [nodeAppendRange, bind_ok_iff, assert_ok_iff, bounds_ok_iff, exists_const] at h
  obtain ⟨oldN, hold, -, newN, hnew, -, h⟩ := h
  obtain ⟨rfl, -⟩ := nkeys_ok hold
  obtain ⟨rfl, -⟩ := nkeys_ok hnew
  split at h
  · subst n
    simp only [pure_ok_iff] at h
    simp [← h]
  · simp only [bind_ok_iff, assert_ok_iff, bounds_ok_iff, ite_error_ok_iff, pure_ok_iff,
      exists_const] at h
    obtain ⟨-, ⟨h1, h2⟩, -, -, -, -, -, -, -, -, ⟨h3, h4⟩, rfl⟩ := h
    exact ⟨rfl, .inr ⟨h3, h4, h2, h1⟩⟩

theorem nodeAppendKV_fields {idx : Nat} {ptr : UInt64} {key val : Bytes}
    (h : nodeAppendKV node idx ptr key val = .ok node') :
    node'.hdrType = node.hdrType ∧ node'.hdrKeys = node.hdrKeys ∧ node'.len = node.len ∧
      node'.cells.length = node.cells.length + 1 ∧ idx = node.cells.length ∧ idx < node.hdrKeys := by
  obtain ⟨rfl, hi, hlt⟩ := nodeAppendKV_ok h
  exact ⟨rfl, rfl, rfl, by simp, hi, hlt⟩

theorem nodeAppendRange_fields {old : BNode} {dst src n : Nat}
    (h : nodeAppendRange node old dst src n = .ok node') :
    node'.hdrType = node.hdrType ∧ node'.hdrKeys = node.hdrKeys ∧ node'.len = node.len ∧
      node'.cells.length = node.cells.length + n ∧
      (n = 0 ∨ dst = node.cells.length ∧ dst + n ≤ node.hdrKeys ∧ src + n ≤ old.hdrKeys) := by
  obtain ⟨rfl, h0 | ⟨hd, hs, hk, ho⟩⟩ := nodeAppendRange_ok h
  · subst h0
    simp
  · exact ⟨rfl, rfl, rfl, by simp only [List.length_append, List.length_take, List.length_drop]; omega,
      .inr ⟨hd, hk, ho⟩⟩

theorem nodeAppendKV_written {idx : Nat} {ptr : UInt64} {key val : Bytes}
    (h : nodeAppendKV node idx ptr key val = .ok node') : Written node' := by
  obtain ⟨rfl, hi, hlt⟩ := nodeAppendKV_ok h
  simp only [Written, List.length_append, List.length_singleton]
  omega

theorem Written.appendRange {old : BNode} {dst src n : Nat} (hw : Written node)
    (h : nodeAppendRange node old dst src n = .ok node') : Written node' := by
  obtain ⟨rfl, h0 | ⟨hd, -, hle, -⟩⟩ := nodeAppendRange_ok h
  · simpa [Written, h0] using hw
  · simp only [Written, List.length_append, List.length_take] at hw ⊢
    omega

theorem setHeader_written {t k : Nat} (hnew : node.cells = []) (h : node.setHeader t k = .ok node') :
    Written node' ∧ node'.hdrType = t ∧ node'.hdrKeys = k ∧ node'.cells = [] ∧
      node'.len = node.len := by
  obtain rfl := setHeader_ok h
  simp [Written, hnew]

end Reads

theorem u16_of_lt {n : Nat} (h : n < 65536) : u16 n = n := Nat.mod_eq_of_lt h

section Builders

variable {new old node : BNode} {idx : Nat} {key val : Bytes}

theorem leafInsert_ok (hnew : new.cells = []) (hsmall : old.hdrKeys < 65536)
    (h : leafInsert new old idx key val = .ok node) :
    node.hdrType = BNODE_LEAF ∧ node.len = new.len ∧ node.hdrKeys = node.cells.length ∧
      node.hdrKeys < 65536 := by
  simp only [leafInsert, bind_ok_iff] at h
  obtain ⟨n, hn, n1, h1, n2, h2, n3, h3, h4⟩ := h
  obtain ⟨rfl, -⟩ := nkeys_ok hn
  obtain ⟨-, ht1, hk1, hc1, hl1⟩ := setHeader_written hnew h1
  obtain ⟨ht2, hk2, hl2, hc2, -⟩ := nodeAppendRange_fields h2
  obtain ⟨ht3, hk3, hl3, hc3, hi3, hlt3⟩ := nodeAppendKV_fields h3
  obtain ⟨ht4, hk4, hl4, hc4, h4⟩ := nodeAppendRange_fields h4
  rw [hc1, List.length_nil] at hc2
  unfold u16 at hk1 hc4 h4
  exact ⟨by rw [ht4, ht3, ht2, ht1], by rw [hl4, hl3, hl2, hl1], by omega, by omega⟩

theorem leafUpdate_ok (hnew : new.cells = []) (hsmall : old.hdrKeys < 65536)
    (h : leafUpdate new old idx key val = .ok node) :
    node.hdrType = BNODE_LEAF ∧ node.len = new.len ∧ node.hdrKeys = node.cells.length ∧
      node.hdrKeys < 65536 := by
  simp only [leafUpdate, bind_ok_iff] at h
  obtain ⟨n, hn, n1, h1, n2, h2, n3, h3, h4⟩ := h
  obtain ⟨rfl, -⟩ := nkeys_ok hn
  obtain ⟨-, ht1, hk1, hc1, hl1⟩ := setHeader_written hnew h1
  obtain ⟨ht2, hk2, hl2, hc2, -⟩ := nodeAppendRange_fields h2
  obtain ⟨ht3, hk3, hl3, hc3, hi3, hlt3⟩ := nodeAppendKV_fields h3
  obtain ⟨ht4, hk4, hl4, hc4, h4⟩ := nodeAppendRange_fields h4
  rw [hc1, List.length_nil] at hc2
  unfold u16 at hc4 h4
  exact ⟨by rw [ht4, ht3, ht2, ht1], by rw [hl4, hl3, hl2, hl1], by omega, by omega⟩

theorem leafInsert_cells (hnew : new.cells = []) (hold : old.hdrKeys = old.cells.length)
    (hsmall : old.hdrKeys < 65536) (h : leafInsert new old idx key val = .ok node) :
    node.cells = old.cells.take idx ++ ⟨0, key, val⟩ :: old.cells.drop idx := by
  simp only [leafInsert, bind_ok_iff] at h
  obtain ⟨n, hn, n1, h1, n2, h2, n3, h3, h4⟩ := h
  obtain ⟨rfl, -⟩ := nkeys_ok hn
  obtain rfl := setHeader_ok h1
  obtain ⟨rfl, -⟩ := nodeAppendRange_ok h2
  obtain ⟨rfl, hi, -⟩ := nodeAppendKV_ok h3
  obtain ⟨rfl, -⟩ := nodeAppendRange_ok h4
  simp only [hnew, List.nil_append, List.drop_zero, List.length_take] at hi ⊢
  rw [show u16 (old.hdrKeys + 65536 - idx) = (old.cells.drop idx).length by simp only [u16, List.length_drop]; omega,
    List.take_length, List.append_assoc, List.singleton_append]

theorem leafUpdate_cells (hnew : new.cells = []) (hold : old.hdrKeys = old.cells.length)
    (hsmall : old.hdrKeys < 65536) (h : leafUpdate new old idx key val = .ok node) :
    idx < old.cells.length ∧ node.cells = old.cells.take idx ++ ⟨0, key, val⟩ :: old.cells.drop (idx + 1) := by
  simp only [leafUpdate, bind_ok_iff] at h
  obtain ⟨n, hn, n1, h1, n2, h2, n3, h3, h4⟩ := h
  obtain ⟨rfl, -⟩ := nkeys_ok hn
  obtain rfl := setHeader_ok h1
  obtain ⟨rfl, -⟩ := nodeAppendRange_ok h2
  obtain ⟨rfl, -, hlt⟩ := nodeAppendKV_ok h3
  obtain ⟨rfl, -⟩ := nodeAppendRange_ok h4
  simp only [hnew, List.nil_append, List.drop_zero] at hlt ⊢
  refine ⟨hold ▸ hlt, ?_⟩
  rw [show u16 (idx + 1) = idx + 1 from u16_of_lt (by omega),
    show u16 (old.hdrKeys + 65536 - (idx + 1)) = (old.cells.drop (idx + 1)).length by
      simp only [u16, List.length_drop]; omega,
    List.take_length, List.append_assoc, List.singleton_append]

theorem leafDelete_ok (hnew : new.cells = []) (hsmall : old.hdrKeys < 65536)
    (h : leafDelete new old idx = .ok node) :
    node.hdrType = BNODE_LEAF ∧ node.len = new.len ∧ node.hdrKeys = node.cells.length ∧
      node.hdrKeys < 65536 := by
  simp only [leafDelete, bind_ok_iff] at h
  obtain ⟨n, hn, n1, h1, n2, h2, h3⟩ := h
  obtain ⟨rfl, -⟩ := nkeys_ok hn
  obtain ⟨-, ht1, hk1, hc1, hl1⟩ := setHeader_written hnew h1
  obtain ⟨ht2, hk2, hl2, hc2, h2⟩ := nodeAppendRange_fields h2
  obtain ⟨ht3, hk3, hl3, hc3, h3⟩ := nodeAppendRange_fields h3
  rw [hc1, List.length_nil] at hc2 h2
  unfold u16 at hk1 hc3 h3
  exact ⟨by rw [ht3, ht2, ht1], by rw [hl3, hl2, hl1], by omega, by omega⟩

theorem nodeMerge_ok {left right : BNode} (hnew : new.cells = [])
    (hl : left.hdrKeys = left.cells.length) (hr : right.hdrKeys = right.cells.length)
    (h : nodeMerge new left right = .ok node) :
    node.hdrType = left.hdrType ∧ node.cells = left.cells ++ right.cells ∧ node.len = new.len ∧
      node.hdrKeys = node.cells.length ∧ node.hdrKeys < 65536 := by
  simp only [nodeMerge, bind_ok_iff] at h
  obtain ⟨t, ht, ln, hln, rn, hrn, n1, h1, n2, h2, h3⟩ := h
  obtain rfl := btype_ok ht
  obtain ⟨rfl, -⟩ := nkeys_ok hln
  obtain ⟨rfl, -⟩ := nkeys_ok hrn
  obtain rfl := setHeader_ok h1
  obtain ⟨rfl, h0 | ⟨-, -, hk, -⟩⟩ := nodeAppendRange_ok h2 <;>
  obtain ⟨rfl, h0' | ⟨-, -, hk', -⟩⟩ := nodeAppendRange_ok h3 <;>
  refine ⟨rfl, ?_, rfl, ?_, Nat.mod_lt _ (by decide)⟩ <;>
  simp only [hnew, u16, List.drop_zero, List.nil_append, List.take_of_length_le (le_of_eq hl.symm),
    List.take_of_length_le (le_of_eq hr.symm), List.length_append] at * <;> omega

theorem nodeReplace2Kid_ok {ptr : UInt64} (hnew : new.cells = [])
    (hold : old.hdrKeys = old.cells.length) (hidx : idx + 2 ≤ old.cells.length)
    (hsmall : old.cells.length < 65536) (h : nodeReplace2Kid new old idx ptr key = .ok node) :
    node.hdrType = BNODE_NODE ∧ node.cells = old.cells.take idx ++ ⟨ptr, key, []⟩ :: old.cells.drop (idx + 2) ∧
      node.len = new.len ∧ node.hdrKeys = node.cells.length ∧ node.hdrKeys < 65536 := by
  simp only [nodeReplace2Kid, bind_ok_iff] at h
  obtain ⟨n, hn, n1, h1, n2, h2, n3, h3, h4⟩ := h
  obtain ⟨rfl, -⟩ := nkeys_ok hn
  obtain rfl := setHeader_ok h1
  obtain ⟨rfl, -⟩ := nodeAppendRange_ok h2
  obtain ⟨rfl, -⟩ := nodeAppendKV_ok h3
  obtain ⟨rfl, -⟩ := nodeAppendRange_ok h4
  have e1 : u16 (idx + 2) = idx + 2 := u16_of_lt (by omega)
  have e2 : u16 (old.hdrKeys + 65536 - (idx + 2)) = (old.cells.drop (idx + 2)).length := by
    simp only [u16, List.length_drop]; omega
  have e3 : u16 (old.hdrKeys + 65536 - 1) = old.cells.length - 1 := by unfold u16; omega
  refine ⟨rfl, ?_, rfl, ?_, Nat.mod_lt _ (by decide)⟩
  · simp only [hnew, List.drop_zero, List.nil_append, e1, e2, List.take_length, List.append_assoc,
      List.singleton_append]
  · simp only [hnew, e1, e2, e3, List.drop_zero, List.nil_append, List.take_length,
      List.length_append, List.length_take, List.length_cons, List.length_drop, List.length_nil]
    omega

theorem nodeSplit2_ok {left right l r : BNode} (hl : left.cells = []) (hr : right.cells = [])
    (hw : Written old) (hsmall : old.hdrKeys < 65536)
    (h : nodeSplit2 left right old = .ok (l, r)) :
    NodeFrame old.hdrType l ∧ NodeFrame old.hdrType r ∧ l.cells ++ r.cells = old.cells ∧
      l.len = left.len ∧ r.len = right.len := by
  simp only [nodeSplit2, bind_ok_iff, assert_ok_iff, exists_const] at h
  obtain ⟨n, hn, -, _, -, -, nleft, -, hlt, t, ht, l1, hl1, r1, hr1, l2, hl2, r2, hr2, -, -, -, h⟩ := h
  obtain ⟨rfl, -⟩ := nkeys_ok hn
  obtain rfl := btype_ok ht
  obtain rfl := setHeader_ok hl1
  obtain rfl := setHeader_ok hr1
  have hnr : u16 (old.hdrKeys + 65536 - nleft) = old.hdrKeys - nleft := by unfold u16; omega
  rw [hnr] at hr2
  obtain ⟨rfl, -⟩ := nodeAppendRange_ok hl2
  obtain ⟨rfl, h0 | ⟨-, hlen, -, -⟩⟩ := nodeAppendRange_ok hr2
  · omega
  simp only [pure_ok_iff, Prod.mk.injEq] at h
  obtain ⟨rfl, rfl⟩ := h
  have hn : old.cells.length = old.hdrKeys := le_antisymm hw (by omega)
  refine ⟨⟨rfl, ?_, show nleft < 65536 by omega⟩, ⟨rfl, ?_, show old.hdrKeys - nleft < 65536 by omega⟩,
    ?_, rfl, rfl⟩
  · simp [hl]; omega
  · simp [hr]; omega
  · simp only [hl, hr, List.nil_append, List.drop_zero]
    rw [← List.take_add, show nleft + (old.hdrKeys - nleft) = old.cells.length by omega,
      List.take_length]

theorem nodeSplit3_ok {parts : List BNode} (hold : NodeFrame old.hdrType old)
    (h : nodeSplit3 old = .ok parts) :
    parts ≠ [] ∧ parts.length ≤ 3 ∧ (parts.map BNode.cells).flatten = old.cells ∧
      ∀ p ∈ parts, NodeFrame old.hdrType p := by
  simp only [nodeSplit3, bind_ok_iff] at h
  obtain ⟨nb, -, h⟩ := h
  split at h
  · simp only [bind_ok_iff, bounds_ok_iff, pure_ok_iff, exists_const] at h
    obtain ⟨-, rfl⟩ := h
    simpa using ⟨hold.1, hold.2, hold.3⟩
  · simp only [bind_ok_iff, pure_ok_iff, true_and, exists_const] at h
    obtain ⟨⟨l, r⟩, h2, h⟩ := h
    obtain ⟨hfl, hfr, hcells, -, -⟩ := nodeSplit2_ok rfl rfl hold.written hold.small h2
    simp only [bind_ok_iff] at h
    obtain ⟨lb, -, h⟩ := h
    split at h
    · simp only [pure_ok_iff] at h
      subst h
      refine ⟨by simp, by simp, by simp [hcells], ?_⟩
      simp only [List.mem_cons, List.mem_singleton, List.not_mem_nil, or_false]
      rintro p (rfl | rfl)
      exacts [⟨hfl.1, hfl.2, hfl.3⟩, hfr]
    · simp only [bind_ok_iff, pure_ok_iff, true_and, exists_const] at h
      obtain ⟨⟨ll, m⟩, h3, h⟩ := h
      obtain ⟨hfll, hfm, hcells', -⟩ := nodeSplit2_ok rfl rfl hfl.written hfl.small h3
      simp only [bind_ok_iff, assert_ok_iff, pure_ok_iff, exists_const] at h
      obtain ⟨-, -, -, rfl⟩ := h
      rw [hfl.btype] at hfll hfm
      refine ⟨by simp, by simp, by simp [← hcells, ← hcells'], ?_⟩
      simp only [List.mem_cons, List.mem_singleton, List.not_mem_nil, or_false]
      rintro p (rfl | rfl | rfl) <;> assumption

end Builders

end GoMiniDb.Storage
