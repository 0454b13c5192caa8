import GoMiniDb.Storage.Split
import GoMiniDb.Storage.Descent

/-! # What an insert hands to `nodeSplit3`

`treeInsert` builds its result in a buffer of two pages: a leaf with one cell added or
replaced, or an internal node whose child cell gave way to the cells of the one to three
pages its child was cut into. From a node of a tree with the invariant, with a key and a
value within the limits, that result is splittable, so `nodeSplit3` cuts it into one to
three pages without failing an assertion. The proof goes down the descent, one level per
step of the fuel. What a level needs of the pages below it is `Sized`: every node fits a
page and keeps its keys, and a leaf its values, within the limits. The invariant gives
it, since the key of a child cell is the first key of its child.
-/
namespace GoMiniDb.Storage

open BNode Pages

variable {look look' : UInt64 → Outcome BNode}

/-- The nodes at and below `node` fit a page and hold keys, and in leaves values, within
the limits. -/
inductive Sized (look : UInt64 → Outcome BNode) : BNode → Prop
  | leaf {node : BNode} : node.hdrType = BNODE_LEAF → node.size ≤ BTREE_PAGE_SIZE →
      (∀ c ∈ node.cells, c.key.length ≤ BTREE_MAX_KEY_SIZE ∧ c.val.length ≤ BTREE_MAX_VAL_SIZE) →
      Sized look node
  | node {node : BNode} : node.hdrType = BNODE_NODE → node.size ≤ BTREE_PAGE_SIZE →
      (∀ c ∈ node.cells, c.key.length ≤ BTREE_MAX_KEY_SIZE) →
      (∀ c ∈ node.cells, ∀ kid, look c.ptr = .ok kid → Sized look kid) → Sized look node

section Sized

variable {h : Nat} {node : BNode} {lo : Bytes} {hi : Option Bytes}

theorem Sized.congr (hs : Sized look node) (hagree : ∀ r, Under look node r → look' r = look r) :
    Sized look' node := by
  induction hs with
  | leaf ht hp hc => exact .leaf ht hp hc
  | node ht hp hk _ ih =>
    refine .node ht hp hk fun c hc kid hkid => ?_
    rw [hagree _ (.child ht hc)] at hkid
    exact ih c hc kid hkid fun r hr => hagree r (.grand ht hc hkid hr)

theorem Subtree.sized (hs : Subtree look h node lo hi) :
    Sized look node ∧ lo.length ≤ BTREE_MAX_KEY_SIZE := by
  induction hs with
  | @leaf node lo _ ok hhead _ hlim =>
    obtain ⟨c, hc, rfl⟩ := List.mem_map.mp (List.mem_of_mem_head? hhead)
    exact ⟨.leaf ok.btype ok.page hlim, (hlim c hc).1⟩
  | @node _ node lo _ ok hhead hex _ ih =>
    have hkey : ∀ c ∈ node.cells, c.key.length ≤ BTREE_MAX_KEY_SIZE := fun c hc => by
      obtain ⟨⟨i, hi⟩, rfl⟩ := List.get_of_mem hc
      obtain ⟨kid, hk⟩ := hex i hi
      exact (ih i hi kid hk).2
    obtain ⟨c, hc, rfl⟩ := List.mem_map.mp (List.mem_of_mem_head? hhead)
    refine ⟨.node ok.btype ok.page hkey fun c hc kid hk => ?_, hkey c hc⟩
    obtain ⟨⟨i, hi⟩, rfl⟩ := List.get_of_mem hc
    exact (ih i hi kid hk).1

theorem Shaped.live {s : Pages} (hs : Shaped s.look h node) {q : UInt64} (hq : Under s.look node q) :
    s.Live q := by
  induction hq generalizing h with
  | child ht hc =>
    cases hs with
    | leaf ok => exact absurd (ok.btype.symm.trans ht) (by decide)
    | node _ hex => obtain ⟨kid, hk⟩ := hex _ hc; exact live_of_get_ok hk
  | grand ht hc hk _ ih =>
    cases hs with
    | leaf ok => exact absurd (ok.btype.symm.trans ht) (by decide)
    | node _ _ hsh => exact ih (hsh _ hc _ hk)

theorem Sized.after_del {s s1 : Pages} {p : UInt64} {u : Unit} (hs : Sized s.look node)
    (hnu : ¬ Under s.look node p) (hlive : ∀ q, Under s.look node q → s.Live q) (hp : s.Live p)
    (hdel : Pages.del p s = .ok (u, s1)) : Sized s1.look node :=
  hs.congr fun r hr => (Replaces.of_del hdel hp).get_eq (hlive r hr) fun e => hnu (e ▸ hr)

end Sized

section Result

variable {N N' : BNode} {pre mid post : List Cell}

theorem cellsBytes_le_mul {cs : List Cell} {b : Nat} (h : ∀ c ∈ cs, 10 + c.size ≤ b) :
    cellsBytes cs ≤ b * cs.length := by
  induction cs with
  | nil => simp
  | cons c cs ih =>
    have := h c (List.mem_cons_self c cs)
    have := ih fun d hd => h d (List.mem_cons_of_mem c hd)
    simp only [cellsBytes_cons, List.length_cons, Nat.mul_succ]
    omega

theorem splittable_of_splice (hsize : N'.size + HEADER ≤ 2 * BTREE_PAGE_SIZE)
    (hN : N.size ≤ BTREE_PAGE_SIZE) (hkeys : ∀ c ∈ N.cells, c.key.length ≤ BTREE_MAX_KEY_SIZE)
    (hold : ∀ c ∈ pre ++ post, c ∈ N.cells)
    (hmid : ∀ c ∈ mid, HEADER + 10 + c.size ≤ BTREE_PAGE_SIZE ∧ c.key.length ≤ BTREE_MAX_KEY_SIZE)
    (hne : mid ≠ []) (hcells : N'.cells = pre ++ mid ++ post) (hk : N'.hdrKeys = N'.cells.length)
    (hlen : N'.len = 2 * BTREE_PAGE_SIZE) :
    Splittable N' ∧ ∀ c ∈ N'.cells, c.key.length ≤ BTREE_MAX_KEY_SIZE := by
  have hmem : ∀ c ∈ N'.cells, c ∈ N.cells ∨ c ∈ mid := fun c hc => by
    rw [hcells] at hc
    simp only [List.mem_append] at hc
    rcases hc with (hc | hc) | hc
    · exact .inl (hold c (List.mem_append_left _ hc))
    · exact .inr hc
    · exact .inl (hold c (List.mem_append_right _ hc))
  refine ⟨⟨hk, fun e => hne ?_, hlen.ge, hsize, fun c hc => ?_⟩, fun c hc => ?_⟩
  · rw [hcells, List.append_eq_nil, List.append_eq_nil] at e
    exact e.1.2
  · rcases hmem c hc with hc | hc
    · have := le_cellsBytes_of_mem hc
      rw [size_eq] at hN
      omega
    · exact (hmid c hc).1
  · rcases hmem c hc with hc | hc
    exacts [hkeys c hc, (hmid c hc).2]

theorem cell_fits {c : Cell} (h : c.key.length ≤ BTREE_MAX_KEY_SIZE ∧ c.val.length ≤ BTREE_MAX_VAL_SIZE) :
    HEADER + 10 + c.size ≤ BTREE_PAGE_SIZE := by
  unfold Cell.size HEADER BTREE_PAGE_SIZE
  unfold BTREE_MAX_KEY_SIZE BTREE_MAX_VAL_SIZE at h
  omega

theorem cellsBytes_around {cs : List Cell} {idx : Nat} (hidx : idx < cs.length) :
    cellsBytes (cs.take idx) + (10 + (cs.get ⟨idx, hidx⟩).size) + cellsBytes (cs.drop (idx + 1)) =
      cellsBytes cs := by
  rw [← cellsBytes_take_succ hidx, cellsBytes_take_add_drop]

theorem mem_around {cs : List Cell} {c : Cell} {i j : Nat} (h : c ∈ cs.take i ++ cs.drop j) : c ∈ cs :=
  (List.mem_append.mp h).elim List.mem_of_mem_take List.mem_of_mem_drop

theorem leaf_splice_size {key val : Bytes} (hk : key.length ≤ BTREE_MAX_KEY_SIZE)
    (hv : val.length ≤ BTREE_MAX_VAL_SIZE) (hN : HEADER + cellsBytes N.cells ≤ BTREE_PAGE_SIZE)
    (hsub : cellsBytes pre + cellsBytes post ≤ cellsBytes N.cells)
    (hcells : N'.cells = pre ++ ⟨0, key, val⟩ :: post) : N'.size + HEADER ≤ 2 * BTREE_PAGE_SIZE := by
  rw [size_eq, hcells, cellsBytes_append, cellsBytes_cons]
  unfold Cell.size HEADER BTREE_PAGE_SIZE at *
  unfold BTREE_MAX_KEY_SIZE at hk
  unfold BTREE_MAX_VAL_SIZE at hv
  dsimp only
  omega

end Result

theorem treeInsert_splittable {key val : Bytes} (hk : key.length ≤ BTREE_MAX_KEY_SIZE)
    (hv : val.length ≤ BTREE_MAX_VAL_SIZE) :
    ∀ fuel {h : Nat} {N N' : BNode} {s s' : Pages}, Shaped s.look h N → Sized s.look N →
      treeInsert memPager fuel N key val s = .ok (N', s') →
      Splittable N' ∧ ∀ c ∈ N'.cells, c.key.length ≤ BTREE_MAX_KEY_SIZE
  | 0, _, _, _, _, _, _, _, hrun => by simp [treeInsert] at hrun
  | fuel + 1, h, N, N', s, s', hN, hsz, hrun => by
    simp only [treeInsert, treeM_bind_ok_iff, liftM_ok_iff] at hrun
    obtain ⟨idx, _, ⟨-, rfl⟩, t, _, ⟨ht, rfl⟩, hrun⟩ := hrun
    obtain rfl := btype_ok ht
    have hsize := hN.frame.small
    split at hrun
    case isTrue hleaf =>
      obtain ⟨hpage, hlim⟩ : N.size ≤ BTREE_PAGE_SIZE ∧
          ∀ c ∈ N.cells, c.key.length ≤ BTREE_MAX_KEY_SIZE ∧ c.val.length ≤ BTREE_MAX_VAL_SIZE := by
        cases hsz with
        | leaf _ hp hl => exact ⟨hp, hl⟩
        | node ht' => exact absurd (ht'.symm.trans hleaf) (by decide)
      have hcell : ∀ c ∈ [(⟨0, key, val⟩ : Cell)], HEADER + 10 + c.size ≤ BTREE_PAGE_SIZE ∧
          c.key.length ≤ BTREE_MAX_KEY_SIZE := by
        simpa using ⟨cell_fits (c := ⟨0, key, val⟩) ⟨hk, hv⟩, hk⟩
      have hkeys : ∀ c ∈ N.cells, c.key.length ≤ BTREE_MAX_KEY_SIZE := fun c hc => (hlim c hc).1
      rw [size_eq] at hpage
      simp only [treeM_bind_ok_iff, liftM_ok_iff] at hrun
      obtain ⟨k, _, ⟨-, rfl⟩, hrun⟩ := hrun
      split at hrun
      · obtain ⟨hu, rfl⟩ := liftM_ok_iff.mp hrun
        obtain ⟨-, hl', hk', -⟩ := leafUpdate_ok rfl hN.frame.small hu
        obtain ⟨hidx, hcells⟩ := leafUpdate_cells rfl hN.frame.nkeys hN.frame.small hu
        have hsub := cellsBytes_around hidx
        exact splittable_of_splice (leaf_splice_size hk hv hpage (by omega) hcells)
          (by rw [size_eq]; exact hpage) hkeys (fun c hc => mem_around hc) hcell
          (List.cons_ne_nil _ _) (by simpa using hcells) hk' hl'
      · obtain ⟨hu, rfl⟩ := liftM_ok_iff.mp hrun
        obtain ⟨-, hl', hk', -⟩ := leafInsert_ok rfl hN.frame.small hu
        have hcells := leafInsert_cells rfl hN.frame.nkeys hN.frame.small hu
        exact splittable_of_splice
          (leaf_splice_size hk hv hpage (cellsBytes_take_add_drop N.cells _).le hcells)
          (by rw [size_eq]; exact hpage) hkeys (fun c hc => mem_around hc) hcell
          (List.cons_ne_nil _ _) (by simpa using hcells) hk' hl'
    case isFalse =>
      split at hrun
      case isFalse => simp at hrun
      case isTrue hnode =>
        cases hN with
        | leaf ok => exact absurd (ok.btype.symm.trans hnode) (by decide)
        | @node h N ok hex hsh hnu hdisj =>
          obtain ⟨hpage, hkeys, hkids⟩ : N.size ≤ BTREE_PAGE_SIZE ∧
              (∀ c ∈ N.cells, c.key.length ≤ BTREE_MAX_KEY_SIZE) ∧
              ∀ c ∈ N.cells, ∀ kid, s.look c.ptr = .ok kid → Sized s.look kid := by
            cases hsz with
            | leaf ht' => exact absurd (ht'.symm.trans hnode) (by decide)
            | node _ hp hk hs => exact ⟨hp, hk, hs⟩
          simp only [nodeInsert, treeM_bind_ok_iff, liftM_ok_iff, getM_ok_iff] at hrun
          obtain ⟨kptr, _, ⟨hptr, rfl⟩, K, _, ⟨hK, rfl⟩, u, s1, hdel, K', s2, hrec, parts, _,
            ⟨hsplit, rfl⟩, hrun⟩ := hrun
          obtain ⟨hidx, rfl⟩ := getPtr_ok_cell hptr ok.nkeys
          have hc := List.get_mem N.cells idx hidx
          have hKlive : ∀ q, Under s.look K q → s.Live q := fun q hq => (hsh _ hc K hK).live hq
          obtain ⟨hsK, -⟩ := descend_after_del hK (hnu _ hc K hK) hKlive (hsh _ hc K hK) hdel
          have hszK := (hkids _ hc K hK).after_del (hnu _ hc K hK) hKlive (live_of_get_ok hK) hdel
          obtain ⟨hspl, hkeysK⟩ := treeInsert_splittable hk hv fuel hsK hszK hrec
          obtain ⟨hne, hlen3, hcp, -⟩ := nodeSplit3_ok ⟨rfl, hspl.nkeys, hspl.small⟩ hsplit
          obtain ⟨mid, hcells, ⟨-, hk', -⟩, hl', hf, hmidk, -, -⟩ :=
            nodeReplaceKidN_ok rfl ok.nkeys hidx (ok.nkeys ▸ ok.small) hrun
          -- a new cell is keyed by a key of the child's result
          have hmid : ∀ c ∈ mid, 10 + c.size ≤ 1014 ∧ c.key.length ≤ BTREE_MAX_KEY_SIZE := fun c hc => by
            obtain ⟨hv0, kid, hkid, hkey⟩ := hmidk c hc
            obtain ⟨d, hd, hdk⟩ := List.mem_map.mp hkey
            have hd' : d ∈ K'.cells := hcp ▸ List.mem_flatten.mpr ⟨_, List.mem_map_of_mem _ hkid, hd⟩
            have hkl := hdk ▸ hkeysK d hd'
            refine ⟨?_, hkl⟩
            unfold Cell.size
            simp only [BTREE_MAX_KEY_SIZE] at hkl
            simp only [hv0, List.length_nil]
            omega
          have hmidb := cellsBytes_le_mul fun c hc => (hmid c hc).1
          have hlen := hf.length_eq
          have := cellsBytes_around hidx
          rw [size_eq] at hpage
          refine splittable_of_splice ?_ (by rw [size_eq]; exact hpage) hkeys (fun c hc => mem_around hc)
            (fun c hc => ⟨by have := (hmid c hc).1; unfold HEADER BTREE_PAGE_SIZE; omega, (hmid c hc).2⟩) (fun e => hne (List.length_eq_zero.mp (hlen ▸ e ▸ rfl))) hcells hk' hl'
          rw [size_eq, hcells, cellsBytes_append, cellsBytes_append]
          unfold Cell.size HEADER BTREE_PAGE_SIZE at *
          omega

/-- What `treeInsert` returns from a node of a tree with the invariant, with a key and a
value within the limits, `nodeSplit3` cuts, in order, into one to three pages of its type,
each with at least one key. -/
theorem treeInsert_nodeSplit3 {s s' : Pages} {fuel h : Nat} {node N : BNode} {lo : Bytes}
    {hi : Option Bytes} {key val : Bytes} (hs : Subtree s.look h node lo hi)
    (hk : key.length ≤ BTREE_MAX_KEY_SIZE) (hv : val.length ≤ BTREE_MAX_VAL_SIZE)
    (hrun : treeInsert memPager fuel node key val s = .ok (N, s')) :
    ∃ parts, nodeSplit3 N = .ok parts ∧ 0 < parts.length ∧ parts.length ≤ 3 ∧
      (parts.map BNode.cells).flatten = N.cells ∧ ∀ p ∈ parts, SplitPage N.hdrType p :=
  (treeInsert_splittable hk hv fuel hs.shaped hs.sized.1 hrun).1.nodeSplit3

theorem big_values_insert_splits :
    Subtree Pages.empty.look 0
        ⟨BNODE_LEAF, 2, [⟨0, [], []⟩, ⟨0, [1], List.replicate 2025 1⟩], BTREE_PAGE_SIZE⟩ [] none ∧
      treeInsert memPager 1 ⟨BNODE_LEAF, 2, [⟨0, [], []⟩, ⟨0, [1], List.replicate 2025 1⟩], BTREE_PAGE_SIZE⟩
          [2] (List.replicate 2025 2) Pages.empty =
        .ok (⟨BNODE_LEAF, 3, [⟨0, [], []⟩, ⟨0, [1], List.replicate 2025 1⟩, ⟨0, [2], List.replicate 2025 2⟩],
          2 * BTREE_PAGE_SIZE⟩, Pages.empty) ∧
      ∃ parts, nodeSplit3 ⟨BNODE_LEAF, 3, [⟨0, [], []⟩, ⟨0, [1], List.replicate 2025 1⟩,
          ⟨0, [2], List.replicate 2025 2⟩], 2 * BTREE_PAGE_SIZE⟩ = .ok parts ∧ parts.length = 2 ∧
        (parts.map BNode.cells).flatten =
          [⟨0, [], []⟩, ⟨0, [1], List.replicate 2025 1⟩, ⟨0, [2], List.replicate 2025 2⟩] ∧
        ∀ p ∈ parts, SplitPage BNODE_LEAF p := by
  have hs : Subtree Pages.empty.look 0
      ⟨BNODE_LEAF, 2, [⟨0, [], []⟩, ⟨0, [1], List.replicate 2025 1⟩], BTREE_PAGE_SIZE⟩ [] none :=
    .leaf ⟨rfl, rfl, by decide, by decide!, by decide!, by decide⟩ rfl (fun _ _ => trivial) (by decide!)
  have hrun : treeInsert memPager 1 ⟨BNODE_LEAF, 2, [⟨0, [], []⟩, ⟨0, [1], List.replicate 2025 1⟩],
      BTREE_PAGE_SIZE⟩ [2] (List.replicate 2025 2) Pages.empty =
        .ok (⟨BNODE_LEAF, 3, [⟨0, [], []⟩, ⟨0, [1], List.replicate 2025 1⟩, ⟨0, [2], List.replicate 2025 2⟩],
          2 * BTREE_PAGE_SIZE⟩, Pages.empty) := by decide!
  have hlen : (nodeSplit3 ⟨BNODE_LEAF, 3, [⟨0, [], []⟩, ⟨0, [1], List.replicate 2025 1⟩,
      ⟨0, [2], List.replicate 2025 2⟩], 2 * BTREE_PAGE_SIZE⟩).map List.length = .ok 2 := by decide!
  obtain ⟨parts, hsp, -, -, hflat, hpages⟩ :=
    treeInsert_nodeSplit3 hs (by decide) ((List.length_replicate _ _).trans_le (by decide)) hrun
  rw [hsp] at hlen
  exact ⟨hs, hrun, parts, hsp, Except.ok.inj hlen, hflat, hpages⟩

end GoMiniDb.Storage
