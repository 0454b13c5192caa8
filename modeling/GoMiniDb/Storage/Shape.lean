import GoMiniDb.Storage.Inv
import GoMiniDb.Storage.NodeSpec

/-! # The pages of a tree

`Under look node q`: page `q` lies below `node`, following the child pointers of internal
nodes. `Shaped` is the shape the page accounting needs: every node has the type of its
height and exactly as many cells as its header counts, every child pointer leads to a
node, no page lies below itself, and the pages below two children of one node are
disjoint. It asks nothing of keys or sizes, so it survives the calls that break the
invariant. The invariant gives it: the pages below different children hold keys from
disjoint ranges, and a page below a node holds a lower subtree.
-/
namespace GoMiniDb.Storage

variable {look look' : UInt64 → Outcome BNode}

/-- Page `q` lies below `node`. -/
inductive Under (look : UInt64 → Outcome BNode) : BNode → UInt64 → Prop
  | child {node : BNode} {c : Cell} :
      node.hdrType = BNODE_NODE → c ∈ node.cells → Under look node c.ptr
  | grand {node kid : BNode} {c : Cell} {q : UInt64} :
      node.hdrType = BNODE_NODE → c ∈ node.cells → look c.ptr = .ok kid → Under look kid q →
      Under look node q

/-- Page `q` is page `p` or lies below the node on `p`. -/
def Reach (look : UInt64 → Outcome BNode) (p q : UInt64) : Prop :=
  q = p ∨ ∃ node, look p = .ok node ∧ Under look node q

theorem under_iff {node : BNode} {q : UInt64} :
    Under look node q ↔ node.hdrType = BNODE_NODE ∧ ∃ c ∈ node.cells, Reach look c.ptr q := by
  constructor
  · rintro (⟨ht, hc⟩ | ⟨ht, hc, hk, hu⟩)
    · exact ⟨ht, _, hc, .inl rfl⟩
    · exact ⟨ht, _, hc, .inr ⟨_, hk, hu⟩⟩
  · rintro ⟨ht, c, hc, rfl | ⟨kid, hk, hu⟩⟩
    · exact .child ht hc
    · exact .grand ht hc hk hu

theorem Under.congr {node : BNode} {q : UInt64} (hu : Under look node q)
    (hagree : ∀ r, Under look node r → look' r = look r) : Under look' node q := by
  induction hu with
  | child ht hc => exact .child ht hc
  | grand ht hc hk _ ih =>
    exact .grand ht hc ((hagree _ (.child ht hc)).trans hk)
      (ih fun r hr => hagree r (.grand ht hc hk hr))

theorem under_congr {node : BNode} (hagree : ∀ r, Under look node r → look' r = look r)
    {q : UInt64} : Under look' node q ↔ Under look node q := by
  refine ⟨fun hu => ?_, fun hu => hu.congr hagree⟩
  induction hu with
  | child ht hc => exact .child ht hc
  | grand ht hc hk _ ih =>
    have hk' := (hagree _ (.child ht hc)).symm.trans hk
    exact .grand ht hc hk' (ih fun r hr => hagree r (.grand ht hc hk' hr))

theorem reach_congr {p : UInt64} (hagree : ∀ r, Reach look p r → look' r = look r) {q : UInt64} :
    Reach look' p q ↔ Reach look p q := by
  unfold Reach
  rw [hagree p (.inl rfl)]
  refine or_congr_right ⟨fun ⟨node, hn, hu⟩ => ⟨node, hn, ?_⟩, fun ⟨node, hn, hu⟩ => ⟨node, hn, ?_⟩⟩
  · exact (under_congr fun r hr => hagree r (.inr ⟨node, hn, hr⟩)).mp hu
  · exact (under_congr fun r hr => hagree r (.inr ⟨node, hn, hr⟩)).mpr hu

/-- The pages at or below two cells are disjoint. -/
def Apart (look : UInt64 → Outcome BNode) (c d : Cell) : Prop :=
  ∀ q, Reach look c.ptr q → ¬ Reach look d.ptr q

theorem NodeOk.frame {t : Nat} {node : BNode} (ok : NodeOk t node) : NodeFrame t node :=
  ⟨ok.btype, ok.nkeys, ok.small⟩

/-- The shape of a tree under `node`, of height `h`, as page accounting needs it. -/
inductive Shaped (look : UInt64 → Outcome BNode) : Nat → BNode → Prop
  | leaf {node : BNode} : NodeFrame BNODE_LEAF node → Shaped look 0 node
  | node {h : Nat} {node : BNode} : NodeFrame BNODE_NODE node →
      (∀ c ∈ node.cells, ∃ kid, look c.ptr = .ok kid) →
      (∀ c ∈ node.cells, ∀ kid, look c.ptr = .ok kid → Shaped look h kid) →
      (∀ c ∈ node.cells, ∀ kid, look c.ptr = .ok kid → ¬ Under look kid c.ptr) →
      node.cells.Pairwise (Apart look) →
      Shaped look (h + 1) node

theorem Under.of_reach {node : BNode} {c : Cell} {q : UInt64} (ht : node.hdrType = BNODE_NODE)
    (hc : c ∈ node.cells) (hr : Reach look c.ptr q) : Under look node q :=
  under_iff.mpr ⟨ht, c, hc, hr⟩

theorem Shaped.frame {h : Nat} {node : BNode} (hs : Shaped look h node) :
    NodeFrame (if h = 0 then BNODE_LEAF else BNODE_NODE) node := by
  cases hs with
  | leaf ok => exact ok
  | node ok => exact ok

theorem Shaped.congr {h : Nat} {node : BNode} (hs : Shaped look h node)
    (hagree : ∀ r, Under look node r → look' r = look r) : Shaped look' h node := by
  induction hs with
  | leaf ok => exact .leaf ok
  | @node h node ok hex hsh hnu hdisj ih =>
    have hreach : ∀ c ∈ node.cells, ∀ r, Reach look c.ptr r → look' r = look r :=
      fun c hc r hr => hagree r (.of_reach ok.btype hc hr)
    have hkid : ∀ c ∈ node.cells, ∀ kid, look c.ptr = .ok kid → ∀ r, Under look kid r →
        look' r = look r :=
      fun c hc kid hk r hr => hagree r (.grand ok.btype hc hk hr)
    have hptr : ∀ c ∈ node.cells, look' c.ptr = look c.ptr := fun c hc => hreach c hc _ (.inl rfl)
    refine .node ok (fun c hc => hptr c hc ▸ hex c hc) (fun c hc kid hk => ?_)
      (fun c hc kid hk => ?_) (hdisj.imp_of_mem fun hc hd hcd q hq hq' => ?_)
    · rw [hptr c hc] at hk
      exact ih c hc kid hk (hkid c hc kid hk)
    · rw [hptr c hc] at hk
      rw [under_congr (hkid c hc kid hk)]
      exact hnu c hc kid hk
    · exact hcd q ((reach_congr (hreach _ hc)).mp hq) ((reach_congr (hreach _ hd)).mp hq')

section Keys

variable {t : Nat} {node : BNode}

theorem NodeOk.key_lt (ok : NodeOk t node) {i j : Nat} (hij : i < j) (hj : j < node.cells.length) :
    bytesLt (node.cells.get ⟨i, by omega⟩).key (node.cells.get ⟨j, hj⟩).key := by
  have hs := ok.sorted
  rw [BNode.keys, List.pairwise_map, List.pairwise_iff_get] at hs
  exact hs ⟨i, by omega⟩ ⟨j, hj⟩ hij

theorem NodeOk.key_le (ok : NodeOk t node) {i j : Nat} (hij : i ≤ j) (hj : j < node.cells.length) :
    KeyLe (node.cells.get ⟨i, by omega⟩).key (node.cells.get ⟨j, hj⟩).key := by
  rcases Nat.lt_or_eq_of_le hij with h | rfl
  · exact .of_lt (ok.key_lt h hj)
  · exact .refl _

theorem keys_get?_succ {i : Nat} (h : i + 1 < node.cells.length) :
    node.keys.get? (i + 1) = some (node.cells.get ⟨i + 1, h⟩).key := by
  rw [List.get?_eq_get (by simpa [BNode.keys] using h)]
  simp [BNode.keys]

theorem keys_get?_last {i : Nat} (h : node.cells.length ≤ i + 1) : node.keys.get? (i + 1) = none :=
  List.get?_eq_none.mpr (by simpa [BNode.keys] using h)

theorem head_eq_get (ok : NodeOk t node) {lo : Bytes} (hhead : node.keys.head? = some lo) :
    ∃ h : 0 < node.cells.length, (node.cells.get ⟨0, h⟩).key = lo := by
  obtain ⟨c, cs, hc⟩ := List.exists_cons_of_ne_nil ok.nonempty
  simp only [BNode.keys, hc, List.map_cons, List.head?_cons, Option.some.injEq] at hhead
  exact ⟨by simp [hc], by simp [hc, hhead]⟩

theorem Below.of_le {k k' : Bytes} {hi : Option Bytes} (hle : KeyLe k k') (hb : Below k' hi) :
    Below k hi := by
  cases hi with
  | none => trivial
  | some b => exact bytesLt_of_le_of_lt hle hb

end Keys

section Subtree

variable {h : Nat} {node : BNode} {lo : Bytes} {hi : Option Bytes}

theorem Subtree.head (hs : Subtree look h node lo hi) : node.keys.head? = some lo := by
  cases hs with
  | leaf _ hh => exact hh
  | node _ hh => exact hh

theorem Subtree.keys_below (hs : Subtree look h node lo hi) : ∀ k ∈ node.keys, Below k hi := by
  induction hs with
  | leaf _ _ hb => exact hb
  | @node h node lo hi ok _ hex hsub ih =>
    have hn : 0 < node.cells.length := List.length_pos.mpr ok.nonempty
    obtain ⟨kid, hk⟩ := hex _ (Nat.sub_lt hn Nat.one_pos)
    have hlast := ih _ (Nat.sub_lt hn Nat.one_pos) kid hk
    rw [keys_get?_last (by omega), Option.none_or] at hlast
    obtain ⟨h0, hhd⟩ := head_eq_get (hsub _ _ kid hk).nodeOk (hsub _ _ kid hk).head
    have hL := hlast _ (List.mem_of_mem_head? (by rw [(hsub _ _ kid hk).head]; rfl))
    intro k hkm
    obtain ⟨c, hc, rfl⟩ := List.mem_map.mp hkm
    obtain ⟨⟨j, hj⟩, rfl⟩ := List.mem_iff_get.mp hc
    exact Below.of_le (ok.key_le (by omega : j ≤ node.cells.length - 1) _) hL

theorem Subtree.lo_below (hs : Subtree look h node lo hi) : Below lo hi :=
  hs.keys_below lo (List.mem_of_mem_head? (by rw [hs.head]; rfl))

theorem below_of_below_next (hkeys : ∀ k ∈ node.keys, Below k hi) {i : Nat} {x : Bytes}
    (hx : Below x ((node.keys.get? (i + 1)).or hi)) : Below x hi := by
  cases hk : node.keys.get? (i + 1) with
  | none => rw [hk] at hx; exact hx
  | some k =>
    rw [hk] at hx
    exact Below.of_le (.of_lt hx) (hkeys k (List.get?_mem hk))

theorem Subtree.under_key (hs : Subtree look h node lo hi) {q : UInt64} (hu : Under look node q) :
    ∃ node' h' lo' hi', look q = .ok node' ∧ Subtree look h' node' lo' hi' ∧ h' < h ∧
      KeyLe lo lo' ∧ Below lo' hi := by
  induction hu generalizing h lo hi with
  | @child node c ht hc =>
    have hkb := hs.keys_below
    cases hs with
    | leaf ok => exact absurd (ok.btype.symm.trans ht) (by decide)
    | node ok hhead hex hsub =>
      obtain ⟨⟨i, hi'⟩, rfl⟩ := List.mem_iff_get.mp hc
      obtain ⟨kid, hk⟩ := hex i hi'
      obtain ⟨h0, rfl⟩ := head_eq_get ok hhead
      exact ⟨kid, _, _, _, hk, hsub i hi' kid hk, Nat.lt_succ_self _, ok.key_le (Nat.zero_le i) hi',
        hkb _ (List.mem_map_of_mem _ (List.get_mem _ _ _))⟩
  | @grand node kid c q ht hc hk hu ih =>
    have hkb := hs.keys_below
    cases hs with
    | leaf ok => exact absurd (ok.btype.symm.trans ht) (by decide)
    | node ok hhead hex hsub =>
      obtain ⟨⟨i, hi'⟩, rfl⟩ := List.mem_iff_get.mp hc
      obtain ⟨h0, rfl⟩ := head_eq_get ok hhead
      obtain ⟨node', h', lo', hi'', hq, hs', hlt, hle, hb⟩ := ih (hsub i hi' kid hk)
      exact ⟨node', h', lo', hi'', hq, hs', by omega,
        (ok.key_le (Nat.zero_le i) hi').trans hle, below_of_below_next hkb hb⟩

theorem Subtree.height_unique {h' : Nat} {lo' : Bytes} {hi' : Option Bytes}
    (hs : Subtree look h node lo hi) (hs' : Subtree look h' node lo' hi') : h = h' := by
  induction hs generalizing h' lo' hi' with
  | leaf ok =>
    cases hs' with
    | leaf => rfl
    | node ok' => exact absurd (ok.btype.symm.trans ok'.btype) (by decide)
  | node ok _ hex hsub ih =>
    cases hs' with
    | leaf ok' => exact absurd (ok.btype.symm.trans ok'.btype) (by decide)
    | node _ _ _ hsub' =>
      have h0 : 0 < _ := List.length_pos.mpr ok.nonempty
      obtain ⟨kid, hk⟩ := hex 0 h0
      exact congrArg (· + 1) (ih 0 h0 kid hk (hsub' 0 h0 kid hk))

theorem Subtree.not_under_self {p : UInt64} (hs : Subtree look h node lo hi)
    (hp : look p = .ok node) : ¬ Under look node p := fun hu => by
  obtain ⟨node', h', _, _, hq, hs', hlt, -⟩ := hs.under_key hu
  rw [hp, Except.ok.injEq] at hq
  subst hq
  exact absurd (hs'.height_unique hs) (by omega)

theorem Subtree.reach_key {p q : UInt64} (hs : Subtree look h node lo hi)
    (hp : look p = .ok node) (hr : Reach look p q) :
    ∃ node' h' lo' hi', look q = .ok node' ∧ Subtree look h' node' lo' hi' ∧
      KeyLe lo lo' ∧ Below lo' hi := by
  rcases hr with rfl | ⟨node', hn, hu⟩
  · exact ⟨node, h, lo, hi, hp, hs, .refl lo, hs.lo_below⟩
  · rw [hp, Except.ok.injEq] at hn
    subst hn
    obtain ⟨node', h', lo', hi', hq, hs', -, hle, hb⟩ := hs.under_key hu
    exact ⟨node', h', lo', hi', hq, hs', hle, hb⟩

theorem Subtree.shaped (hs : Subtree look h node lo hi) : Shaped look h node := by
  induction hs with
  | leaf ok => exact .leaf ok.frame
  | @node h node lo hi ok hhead hex hsub ih =>
    refine .node ok.frame (fun c hc => ?_) (fun c hc kid hk => ?_) (fun c hc kid hk => ?_) ?_
    · obtain ⟨⟨i, hi'⟩, rfl⟩ := List.mem_iff_get.mp hc
      exact hex i hi'
    · obtain ⟨⟨i, hi'⟩, rfl⟩ := List.mem_iff_get.mp hc
      exact ih i hi' kid hk
    · obtain ⟨⟨i, hi'⟩, rfl⟩ := List.mem_iff_get.mp hc
      exact (hsub i hi' kid hk).not_under_self hk
    · rw [List.pairwise_iff_get]
      rintro ⟨i, hi'⟩ ⟨j, hj⟩ hij q hri hrj
      simp only [Fin.mk_lt_mk] at hij
      obtain ⟨kidi, hki⟩ := hex i hi'
      obtain ⟨kidj, hkj⟩ := hex j hj
      obtain ⟨n1, _, l1, _, hq1, hs1, -, hb1⟩ := (hsub i hi' kidi hki).reach_key hki hri
      obtain ⟨n2, _, l2, _, hq2, hs2, hle2, -⟩ := (hsub j hj kidj hkj).reach_key hkj hrj
      have e : n1 = n2 := Except.ok.inj (hq1.symm.trans hq2)
      have hl : l1 = l2 := Option.some.inj ((Subtree.head hs1).symm.trans (e ▸ Subtree.head hs2))
      rw [keys_get?_succ (by omega)] at hb1
      exact bytesLt_irrefl _ (bytesLt_of_lt_of_le hb1 ((ok.key_le (by omega) hj).trans (hl ▸ hle2)))

end Subtree

end GoMiniDb.Storage
