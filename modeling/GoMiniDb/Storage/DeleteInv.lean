import GoMiniDb.Storage.Contents

/-! # `Delete` keeps the invariant where its pages fit

`treeDelete` builds the nodes of its path again, each in a one-page buffer: the leaf
without the key's cell, then each internal node with the child in its place, or merged with
a neighbour, linked under its first key. Keys only go, so the cells of every node stay
sorted within its bounds, and a link key can only grow, so the range of a child only
narrows. What `treeDelete` returns is `Thin`: cells with the invariant, at or above the lower
bound, maybe without the first key or without any key. The page bound is the one part of
the invariant the descent does not keep: a longer first key in a child makes its link in
the parent longer. Where every page below the tree `Delete` leaves fits a page, that tree
has the invariant, and it stores the entries of the tree before, without the key's.
-/
namespace GoMiniDb.Storage

open BNode Pages

variable {look look' : UInt64 → Outcome BNode}

section Weaken

variable {h : Nat} {node : BNode} {lo : Bytes} {hi hi' : Option Bytes} {cs : List Cell}

theorem Subtree.weaken (hs : Subtree look h node lo hi) (hle : ∀ k, Below k hi → Below k hi') :
    Subtree look h node lo hi' := by
  induction hs generalizing hi' with
  | leaf ok hh hb hl => exact .leaf ok hh (fun k hk => hle k (hb k hk)) hl
  | @node h node lo hi ok hh hex _ ih =>
    refine .node ok hh hex fun i hi' kid hk => ih i hi' kid hk fun k => ?_
    cases node.keys.get? (i + 1) with
    | none => exact hle k
    | some b => exact id

theorem bound_weaken (hle : ∀ k, Below k hi → Below k hi') :
    ∀ k, Below k (bound cs hi) → Below k (bound cs hi') := by
  cases cs with
  | nil => exact hle
  | cons c cs => exact fun _ => id

theorem Kids.weaken (hk : Kids look h cs hi) (hle : ∀ k, Below k hi → Below k hi') :
    Kids look h cs hi' := by
  induction cs with
  | nil => trivial
  | cons c cs ih =>
    obtain ⟨⟨kid, hkid, hs⟩, hrest⟩ := hk
    exact ⟨⟨kid, hkid, hs.weaken (bound_weaken hle)⟩, ih hrest⟩

theorem CellsOk.weaken (hc : CellsOk look h cs hi) (hle : ∀ k, Below k hi → Below k hi') :
    CellsOk look h cs hi' := by
  refine ⟨hc.sorted, fun c hc' => hle _ (hc.below c hc'), ?_⟩
  cases h with
  | zero => exact hc.entries
  | succ h => exact Kids.weaken hc.entries hle

theorem below_bound_of_le {a : Bytes} (hcs : ∀ c ∈ cs, KeyLe a c.key) (ha : Below a hi) :
    ∀ k, Below k (some a) → Below k (bound cs hi) := by
  intro k hk
  cases cs with
  | nil => exact Below.of_le (.of_lt hk) ha
  | cons c cs => exact bytesLt_of_lt_of_le hk (hcs c (.head _))

theorem CellsOk.sublist {cs' : List Cell} (hc : CellsOk look 0 cs hi) (hsub : cs'.Sublist cs) :
    CellsOk look 0 cs' hi :=
  ⟨hc.sorted.sublist (hsub.map _), fun c h => hc.below c (hsub.subset h),
    fun c h => hc.entries c (hsub.subset h)⟩

theorem CellsOk.congr_under (ht : node.hdrType = if h = 0 then BNODE_LEAF else BNODE_NODE)
    (hc : CellsOk look h node.cells hi) (hagree : ∀ r, Under look node r → look' r = look r) :
    CellsOk look' h node.cells hi := by
  cases h with
  | zero => exact ⟨hc.sorted, hc.below, hc.entries⟩
  | succ h => exact hc.congr fun c hc r hr => hagree r (.of_reach (by simpa using ht) hc hr)

end Weaken

section Steps

variable {s s' : Pages} {p q : UInt64} {node : BNode}

theorem look_del {u : Unit} (hdel : Pages.del p s = .ok (u, s')) (hq : q ≠ p) : s'.look q = s.look q := by
  show Pages.get q s' = Pages.get q s
  simp [Pages.get, (Pages.del_ok hdel).1, GoMap.get?_erase, hq]

theorem look_new (hnew : Pages.new node s = .ok (p, s')) (hq : s.Live q) : s'.look q = s.look q :=
  (Replaces.of_new hnew).get_eq hq id

theorem live_del {u : Unit} (hdel : Pages.del p s = .ok (u, s')) (hl : s.Live q) (hq : q ≠ p) :
    s'.Live q := by
  simpa [Live, (Pages.del_ok hdel).1, GoMap.get?_erase, hq] using hl

end Steps

theorem leafDelete_cells {new old node : BNode} {idx : Nat} (hnew : new.cells = [])
    (hold : old.hdrKeys = old.cells.length) (hsmall : old.hdrKeys < 65536) (hidx : idx < old.cells.length)
    (h : leafDelete new old idx = .ok node) :
    node.cells = old.cells.take idx ++ old.cells.drop (idx + 1) := by
  simp only [leafDelete, bind_ok_iff] at h
  obtain ⟨n, hn, n1, h1, n2, h2, h3⟩ := h
  obtain ⟨rfl, -⟩ := nkeys_ok hn
  obtain rfl := setHeader_ok h1
  obtain ⟨rfl, -⟩ := nodeAppendRange_ok h2
  obtain ⟨rfl, -⟩ := nodeAppendRange_ok h3
  rw [u16_of_lt (by omega : idx + 1 < 65536),
    show u16 (old.hdrKeys + 65536 - (idx + 1)) = (old.cells.drop (idx + 1)).length by
      simp only [u16, List.length_drop]; omega]
  simp [hnew]

/-- What `treeDelete` returns from a subtree of height `h` from `lo` below `hi` when it
finds the key: a node of the type of its height in a one-page buffer, whose cells keep the
invariant below `hi` and lie at or above `lo`. It may have lost its first cell, or all of
them, and it may not fit a page. -/
structure Thin (look : UInt64 → Outcome BNode) (h : Nat) (node : BNode) (lo : Bytes)
    (hi : Option Bytes) : Prop where
  btype : node.hdrType = if h = 0 then BNODE_LEAF else BNODE_NODE
  nkeys : node.hdrKeys = node.cells.length
  len : node.len = BTREE_PAGE_SIZE
  above : ∀ c ∈ node.cells, KeyLe lo c.key
  cells : CellsOk look h node.cells hi

def PagesFit (look : UInt64 → Outcome BNode) (node : BNode) : Prop :=
  ∀ q M, Under look node q → look q = .ok M → M.size ≤ BTREE_PAGE_SIZE

section Thin

variable {h idx : Nat} {node N : BNode} {lo key : Bytes} {hi : Option Bytes}

theorem Thin.congr (ht : Thin look h node lo hi) (hagree : ∀ r, Under look node r → look' r = look r) :
    Thin look' h node lo hi :=
  ⟨ht.btype, ht.nkeys, ht.len, ht.above, ht.cells.congr_under ht.btype hagree⟩

theorem Thin.cellsAt_congr (ht : Thin look h node lo hi)
    (hagree : ∀ r, Under look node r → look' r = look r) : cellsAt look' h node = cellsAt look h node := by
  rw [cellsAt_eq_entriesOf, cellsAt_eq_entriesOf]
  cases h with
  | zero => rfl
  | succ h =>
    exact ht.cells.entries_congr fun c hc r hr => hagree r (.of_reach (by simpa using ht.btype) hc hr)

theorem Thin.subtree (ht : Thin look h node lo hi) {c : Cell} {cs : List Cell}
    (hc : node.cells = c :: cs) (hfit : node.size ≤ BTREE_PAGE_SIZE) : Subtree look h node c.key hi :=
  .of_cellsOk ⟨ht.btype, ht.nkeys, by simp [hc], by rw [ht.len]; exact hfit, hfit, ht.cells.sorted⟩
    (by simp [BNode.keys, hc]) ht.cells

theorem Subtree.above (hs : Subtree look h node lo hi) : ∀ c ∈ node.cells, KeyLe lo c.key := by
  have ok := hs.nodeOk
  obtain ⟨h0, rfl⟩ := head_eq_get ok hs.head
  intro c hc
  obtain ⟨⟨i, hi'⟩, rfl⟩ := List.mem_iff_get.mp hc
  exact ok.key_le (Nat.zero_le i) hi'

theorem Subtree.entries_drop_ne (hs : Subtree look h N lo hi) (hl : LookupLE N key idx) :
    ∀ e ∈ entriesOf look h (N.cells.drop (idx + 1)), e.key ≠ key := by
  have hc := hs.cellsOk
  rw [← List.take_append_drop (idx + 1) N.cells, cellsOk_append] at hc
  intro e he
  obtain ⟨⟨d, hd, hde⟩, -⟩ := hc.2.entries_range e he
  exact (ne_of_bytesLt (bytesLt_of_lt_of_le (hl.drop_gt hs.nodeOk d hd) hde)).symm

end Thin

theorem filter_key_ne {key : Bytes} (l : List Cell) (hl : ∀ e ∈ l, e.key ≠ key) :
    l.filter (fun e => e.key ≠ key) = l :=
  List.filter_eq_self.mpr fun e he => decide_eq_true (hl e he)

section Splice

variable {s s' : Pages} {N N' M : BNode} {h : Nat} {lo key : Bytes} {hi : Option Bytes}
  {pre rest post : List Cell} {c0 m : Cell}

/-- An internal node of a subtree rebuilt with a run `c0 :: rest` of its cells replaced by one
cell `m`: `m` links, under its first key, a subtree holding the entries below the run
without the key's, and the pages at or below the other cells stay. The node is thin, and
holds the entries of the subtree without the key's. -/
theorem Thin.splice (hN : Subtree s.look (h + 1) N lo hi) (hcells : N.cells = pre ++ c0 :: rest ++ post)
    (htype : N'.hdrType = BNODE_NODE) (hkeys : N'.hdrKeys = N'.cells.length)
    (hlen : N'.len = BTREE_PAGE_SIZE) (hcells' : N'.cells = pre ++ [m] ++ post)
    (hkeep : ∀ c ∈ pre ++ post, ∀ r, Reach s.look c.ptr r → s'.look r = s.look r)
    (hM : s'.look m.ptr = .ok M) (hsM : Subtree s'.look h M m.key (bound post hi))
    (hle : KeyLe c0.key m.key)
    (hent : cellsAt s'.look h M = (entriesOf s.look (h + 1) (c0 :: rest)).filter fun e => e.key ≠ key)
    (hout : ∀ e ∈ entriesOf s.look (h + 1) (pre ++ post), e.key ≠ key) :
    Thin s'.look (h + 1) N' lo hi ∧
      cellsAt s'.look (h + 1) N' = (cellsAt s.look (h + 1) N).filter fun e => e.key ≠ key := by
  have hc := hN.cellsOk
  rw [hcells, cellsOk_append, cellsOk_append] at hc
  obtain ⟨⟨hpre, -⟩, hpost⟩ := hc
  have hkpre : ∀ c ∈ pre, ∀ r, Reach s.look c.ptr r → s'.look r = s.look r :=
    fun c hc => hkeep c (List.mem_append_left _ hc)
  have hkpost : ∀ c ∈ post, ∀ r, Reach s.look c.ptr r → s'.look r = s.look r :=
    fun c hc => hkeep c (List.mem_append_right _ hc)
  have hmemN : ∀ c, c ∈ pre ∨ c ∈ post → c ∈ N.cells := fun c hc => by
    rw [hcells]; rcases hc with hc | hc <;> simp [hc]
  refine ⟨⟨by simp [htype], hkeys, hlen, fun c hc => ?_, ?_⟩, ?_⟩
  · rw [hcells', List.mem_append, List.mem_append, List.mem_singleton] at hc
    rcases hc with (hc | rfl) | hc
    · exact hN.above c (hmemN c (.inl hc))
    · exact (hN.above c0 (by rw [hcells]; simp)).trans hle
    · exact hN.above c (hmemN c (.inr hc))
  · have hpre' : CellsOk s.look (h + 1) pre (some m.key) := hpre.weaken fun k hk => bytesLt_of_lt_of_le hk hle
    rw [hcells', cellsOk_append, cellsOk_append]
    exact ⟨⟨hpre'.congr hkpre,
      ⟨List.pairwise_singleton _ _, by simpa using hsM.lo_below, ⟨M, hM, hsM⟩, trivial⟩⟩,
      hpost.congr hkpost⟩
  · rw [entriesOf_append] at hout
    rw [cellsAt_eq_entriesOf, cellsAt_eq_entriesOf, hcells', hcells, entriesOf_append, entriesOf_append,
      entriesOf_append, entriesOf_append, entriesOf_singleton, cellsBelow_of_look h hM, hent,
      hpre.entries_congr hkpre, hpost.entries_congr hkpost, List.filter_append, List.filter_append,
      filter_key_ne _ fun e he => hout e (List.mem_append_left _ he),
      filter_key_ne _ fun e he => hout e (List.mem_append_right _ he)]

end Splice

section Cases

variable {idx fuel : Nat} {N N' : BNode} {key : Bytes} {s s' : Pages}

/-- One step of `treeDelete` over an in-memory store from a node of a tree: at a leaf,
nothing when the cell `nodeLookupLE` points to does not hold the key, else `leafDelete` of
that cell; at an internal node, `nodeDelete` at that cell. -/
theorem treeDelete_cases {t : Nat} (ok : NodeOk t N)
    (hrun : treeDelete memPager (fuel + 1) N key s = .ok (N', s')) :
    ∃ idx, ∃ hidx : idx < N.cells.length, LookupLE N key idx ∧
      ((N.hdrType = BNODE_LEAF ∧ s' = s ∧
        (key ≠ (N.cells.get ⟨idx, hidx⟩).key ∧ N' = BNode.empty ∨
          key = (N.cells.get ⟨idx, hidx⟩).key ∧ leafDelete (BNode.make BTREE_PAGE_SIZE) N idx = .ok N')) ∨
       (N.hdrType = BNODE_NODE ∧ nodeDelete memPager (treeDelete memPager fuel) N idx key s = .ok (N', s'))) := by
  obtain ⟨j, hj, hl⟩ : ∃ j, nodeLookupLE N key = .ok j ∧ LookupLE N key j := nodeLookupLE_spec ok
  simp only [treeDelete, treeM_bind_ok_iff, liftM_ok_iff] at hrun
  obtain ⟨idx, _, ⟨hidx', rfl⟩, t, _, ⟨ht, rfl⟩, hrun⟩ := hrun
  obtain rfl : idx = j := Except.ok.inj (hidx'.symm.trans hj)
  obtain rfl := btype_ok ht
  have hidx : idx < N.cells.length := by
    obtain ⟨c, hc, -⟩ := hl
    exact (List.getElem?_eq_some_iff.mp hc).1
  refine ⟨idx, hidx, hl, ?_⟩
  split at hrun
  case isTrue hleaf =>
    simp only [treeM_bind_ok_iff, liftM_ok_iff, treeM_ite_ok_iff, treeM_pure_ok_iff, Prod.mk.injEq,
      and_assoc, exists_and_left, exists_eq_left, exists_eq_left', true_and, exists_const] at hrun
    obtain ⟨k, hk, ⟨hne, rfl, rfl⟩ | ⟨heq, hd, rfl⟩⟩ := hrun <;> obtain ⟨_, rfl⟩ := getKey_ok hk
    · exact .inl ⟨hleaf, rfl, .inl ⟨hne, rfl⟩⟩
    · exact .inl ⟨hleaf, rfl, .inr ⟨of_not_not heq, hd⟩⟩
  case isFalse =>
    split at hrun
    case isTrue hnode => exact .inr ⟨hnode, hrun⟩
    case isFalse => simp at hrun

/-- One step of `nodeDelete` over an in-memory store from an internal node of a tree: the
descent into the child at `idx`; nothing if it did not find the key; else the child's page
is freed, and the child is merged with its left or right neighbour on a new page, whose
page is freed, or takes a new page of its own when it kept a key. -/
theorem nodeDelete_cases (ok : NodeOk BNODE_NODE N)
    (hrun : nodeDelete memPager (treeDelete memPager fuel) N idx key s = .ok (N', s')) :
    ∃ hidx : idx < N.cells.length, ∃ K K' s1, s.look (N.cells.get ⟨idx, hidx⟩).ptr = .ok K ∧
      treeDelete memPager fuel K key s = .ok (K', s1) ∧
      (K'.len = 0 ∧ N' = BNode.empty ∧ s' = s1 ∨
       K'.len ≠ 0 ∧ ∃ s2, Pages.del (N.cells.get ⟨idx, hidx⟩).ptr s1 = .ok ((), s2) ∧
        ((∃ j, ∃ hj : j + 1 = idx, ∃ sib merged s3 ptr key0,
            s2.look (N.cells.get ⟨j, by omega⟩).ptr = .ok sib ∧
            nodeMerge (BNode.make BTREE_PAGE_SIZE) sib K' = .ok merged ∧
            Pages.del (N.cells.get ⟨j, by omega⟩).ptr s2 = .ok ((), s3) ∧
            Pages.new merged s3 = .ok (ptr, s') ∧ merged.getKey 0 = .ok key0 ∧
            nodeReplace2Kid (BNode.make BTREE_PAGE_SIZE) N j ptr key0 = .ok N') ∨
         (∃ hidx1 : idx + 1 < N.cells.length, ∃ sib merged s3 ptr key0,
            s2.look (N.cells.get ⟨idx + 1, hidx1⟩).ptr = .ok sib ∧
            nodeMerge (BNode.make BTREE_PAGE_SIZE) K' sib = .ok merged ∧
            Pages.del (N.cells.get ⟨idx + 1, hidx1⟩).ptr s2 = .ok ((), s3) ∧
            Pages.new merged s3 = .ok (ptr, s') ∧ merged.getKey 0 = .ok key0 ∧
            nodeReplace2Kid (BNode.make BTREE_PAGE_SIZE) N idx ptr key0 = .ok N') ∨
         (0 < K'.hdrKeys ∧
            nodeReplaceKidN memPager (BNode.make BTREE_PAGE_SIZE) N idx [K'] s2 = .ok (N', s')))) := by
  have hsmall := ok.nkeys ▸ ok.small
  simp only [nodeDelete, treeM_bind_ok_iff, liftM_ok_iff, getM_ok_iff, treeM_ite_ok_iff,
    treeM_pure_ok_iff, Prod.mk.injEq, and_assoc, exists_and_left, exists_eq_left,
    exists_eq_left', true_and, exists_const] at hrun
  obtain ⟨kptr, hptr, K, hK, K', s1, hrec, hrun⟩ := hrun
  obtain ⟨hidx, rfl⟩ := getPtr_ok_cell hptr ok.nkeys
  refine ⟨hidx, K, K', s1, hK, hrec, ?_⟩
  rcases hrun with ⟨hlen, rfl, rfl⟩ | ⟨hlen, u, s2, hdel, ⟨dir, sib⟩, s3, hmerge, hrun⟩
  · exact .inl ⟨hlen, rfl, rfl⟩
  obtain ⟨rfl, hdir⟩ := shouldMerge_ok hmerge
  cases u
  refine .inr ⟨hlen, s2, hdel, ?_⟩
  rcases hrun with ⟨hlt, merged, hm, sp, hsp, u', s4, hdel', ptr, s5, hnew, key0, hk0, hr2, rfl⟩ |
    ⟨-, ⟨hgt, merged, hm, sp, hsp, u', s4, hdel', ptr, s5, hnew, key0, hk0, hr2, rfl⟩ |
      ⟨-, n, hn, _, hassert, hrun⟩⟩
  · -- merge with the left neighbour
    obtain ⟨rfl, hidx0, p, hp, hsib⟩ : dir = -1 ∧ 0 < idx ∧ ∃ p, N.getPtr (idx - 1) = .ok p ∧
        s2.look p = .ok sib := by
      rcases hdir with rfl | h | ⟨rfl, -⟩
      · exact absurd hlt (by simp)
      · exact h
      · exact absurd hlt (by simp)
    obtain ⟨j, rfl⟩ : ∃ j, idx = j + 1 := ⟨idx - 1, by omega⟩
    rw [show u16 (j + 1 + 65535) = j by unfold u16; omega] at hsp hr2
    obtain rfl : sp = p := Except.ok.inj (hsp.symm.trans hp)
    obtain ⟨hj, rfl⟩ := getPtr_ok_cell hp ok.nkeys
    cases u'
    exact .inl ⟨j, rfl, sib, merged, s4, ptr, key0, hsib, hm, hdel', hnew, hk0, hr2⟩
  · -- merge with the right neighbour
    obtain ⟨rfl, p, hp, hsib⟩ : dir = 1 ∧ ∃ p, N.getPtr (u16 (idx + 1)) = .ok p ∧
        s2.look p = .ok sib := by
      rcases hdir with rfl | ⟨rfl, -⟩ | h
      · exact absurd hgt (by simp)
      · exact absurd hgt (by simp)
      · exact h
    rw [u16_of_lt (by omega : idx + 1 < 65536)] at hsp hp
    obtain rfl : sp = p := Except.ok.inj (hsp.symm.trans hp)
    obtain ⟨hidx1, rfl⟩ := getPtr_ok_cell hp ok.nkeys
    cases u'
    exact .inr (.inl ⟨hidx1, sib, merged, s4, ptr, key0, hsib, hm, hdel', hnew, hk0, hr2⟩)
  · -- no merge: the child keeps a key
    obtain ⟨rfl, -⟩ := nkeys_ok hn
    exact .inr (.inr ⟨assert_ok_iff.mp hassert, hrun⟩)

end Cases

section Levels

variable {s s1 s2 s3 s' : Pages} {N N' K K' sib merged : BNode} {h idx : Nat} {lo key key0 : Bytes}
  {hi : Option Bytes} {ptr : UInt64}

theorem Thin.leafDelete (hN : Subtree look 0 N lo hi) (hl : LookupLE N key idx)
    (hidx : idx < N.cells.length) (hkey : key = (N.cells.get ⟨idx, hidx⟩).key)
    (hd : leafDelete (BNode.make BTREE_PAGE_SIZE) N idx = .ok N') :
    Thin look 0 N' lo hi ∧ cellsAt look 0 N' = (cellsAt look 0 N).filter fun e => e.key ≠ key := by
  have ok := hN.nodeOk
  obtain ⟨ht, hlen, hk, -⟩ := leafDelete_ok rfl ok.small hd
  have hcells := leafDelete_cells rfl ok.nkeys ok.small hidx hd
  have hsub : N'.cells.Sublist N.cells := by
    rw [hcells, ← List.eraseIdx_eq_take_drop_succ]
    exact List.eraseIdx_sublist _ _
  refine ⟨⟨by simpa using ht, hk, hlen, fun c hc => hN.above c (hsub.subset hc),
    hN.cellsOk.sublist hsub⟩, ?_⟩
  have hle : KeyLe (N.cells.get ⟨idx, hidx⟩).key key := hkey ▸ KeyLe.refl _
  rw [cellsAt_zero, cellsAt_zero, hcells]
  conv_rhs => rw [cells_around hidx]
  rw [List.filter_append, List.filter_append, filter_key_ne (N.cells.take idx) (hN.entries_take_ne hidx hle),
    filter_key_ne (N.cells.drop (idx + 1)) (hN.entries_drop_ne hl)]
  simp [hkey]

theorem getKey_zero {node : BNode} {k : Bytes} (hk : node.getKey 0 = .ok k) :
    node.keys.head? = some k := by
  obtain ⟨h0, rfl⟩ := getKey_ok hk
  simp [BNode.keys, List.head?_eq_getElem?, h0]

/-- The pages of a merge. After the descent into child `kc`, which rebuilt `K` as `K'`, the
frees of `kc` and of its neighbour `sc` and the merged node on a fresh page: the neighbour is
as before up to its free, pages outside both children stay, and so do the pages below `K'`. -/
theorem merge_keep {kc sc : Cell} (hN : Subtree s.look (h + 1) N lo hi) (hkc : kc ∈ N.cells)
    (hsc : sc ∈ N.cells) (hap : Apart s.look kc sc) (hK : s.look kc.ptr = .ok K)
    (hreb : Replaces s s1 (Under s.look K) (Under s1.look K'))
    (hdel : Pages.del kc.ptr s1 = .ok ((), s2)) (hdel' : Pages.del sc.ptr s2 = .ok ((), s3))
    (hnew : Pages.new merged s3 = .ok (ptr, s')) :
    s2.look sc.ptr = s.look sc.ptr ∧
      (∀ r, s.Live r → ¬ Reach s.look kc.ptr r → r ≠ sc.ptr → s'.look r = s.look r) ∧
      ∀ r, Under s1.look K' r → s'.look r = s1.look r := by
  have hkl : s.Live kc.ptr := live_of_get_ok hK
  have htN : N.hdrType = BNODE_NODE := by simpa using hN.nodeOk.btype
  have hsl : s.Live sc.ptr := hN.live (.child htN hsc)
  obtain ⟨K0, _, hK0, hsK⟩ := hN.kid_of_mem hkc
  obtain rfl : K0 = K := Except.ok.inj (hK0.symm.trans hK)
  have hnu := hsK.not_under_self hK
  have hold : ∀ r, s.Live r → ¬ Reach s.look kc.ptr r →
      s1.look r = s.look r ∧ s1.Live r ∧ r ≠ kc.ptr := fun r hl hr =>
    have hnK : ¬ Under s.look K0 r := fun hu => hr (.inr ⟨K0, hK, hu⟩)
    ⟨hreb.get_eq hl hnK, (hreb.live r).mpr (.inl ⟨hl, hnK⟩), fun e => hr (.inl e)⟩
  refine ⟨?_, fun r hl hr hrs => ?_, fun r hr => ?_⟩
  · obtain ⟨h1, -, h3⟩ := hold sc.ptr hsl fun hk => hap _ hk (.inl rfl)
    rw [look_del hdel h3, h1]
  · obtain ⟨h1, h2, h3⟩ := hold r hl hr
    rw [look_new hnew (live_del hdel' (live_del hdel h2 h3) hrs), look_del hdel' hrs, look_del hdel h3, h1]
  · have h2 := hreb.live_of_new hr
    have h3 : r ≠ kc.ptr := fun e => hnu (e ▸ hreb.fresh r hr (e ▸ hkl))
    have h4 : r ≠ sc.ptr := fun e => hap r (.inr ⟨K0, hK, hreb.fresh r hr (e ▸ hsl)⟩) (.inl e)
    rw [look_new hnew (live_del hdel' (live_del hdel h2 h3) h4), look_del hdel' h4, look_del hdel h3]

theorem Thin.mergeLeft {j : Nat} (hN : Subtree s.look (h + 1) N lo hi) (hl : LookupLE N key (j + 1))
    (hidx : j + 1 < N.cells.length) (hle : KeyLe (N.cells.get ⟨j + 1, hidx⟩).key key)
    (hK : s.look (N.cells.get ⟨j + 1, hidx⟩).ptr = .ok K) (hreb : Rebuilt s s1 h K K')
    (ih : PagesFit s1.look K' → Thin s1.look h K' (N.cells.get ⟨j + 1, hidx⟩).key
        (bound (N.cells.drop (j + 1 + 1)) hi) ∧
      cellsAt s1.look h K' = (cellsAt s.look h K).filter fun e => e.key ≠ key)
    (hdel : Pages.del (N.cells.get ⟨j + 1, hidx⟩).ptr s1 = .ok ((), s2))
    (hsib : s2.look (N.cells.get ⟨j, by omega⟩).ptr = .ok sib)
    (hm : nodeMerge (BNode.make BTREE_PAGE_SIZE) sib K' = .ok merged)
    (hdel' : Pages.del (N.cells.get ⟨j, by omega⟩).ptr s2 = .ok ((), s3))
    (hnew : Pages.new merged s3 = .ok (ptr, s')) (hk0 : merged.getKey 0 = .ok key0)
    (hr2 : nodeReplace2Kid (BNode.make BTREE_PAGE_SIZE) N j ptr key0 = .ok N')
    (hfit : PagesFit s'.look N') :
    Thin s'.look (h + 1) N' lo hi ∧
      cellsAt s'.look (h + 1) N' = (cellsAt s.look (h + 1) N).filter fun e => e.key ≠ key := by
  have ok := hN.nodeOk
  have htN : N.hdrType = BNODE_NODE := by simpa using ok.btype
  have hdisj : N.cells.Pairwise (Apart s.look) := by
    cases hN.shaped with
    | node _ _ _ _ hdisj => exact hdisj
  have hj : j < N.cells.length := by omega
  have hap : Apart s.look (N.cells.get ⟨j + 1, hidx⟩) (N.cells.get ⟨j, hj⟩) := fun q h1 h2 =>
    List.pairwise_iff_get.mp hdisj ⟨j, hj⟩ ⟨j + 1, hidx⟩ (by simp) q h2 h1
  obtain ⟨hsibs, hold, hK'keep⟩ := merge_keep hN (List.get_mem _ _ _) (List.get_mem _ _ _) hap hK
    hreb.replaces hdel hdel' hnew
  have hsib0 : s.look (N.cells.get ⟨j, hj⟩).ptr = .ok sib := hsibs.symm.trans hsib
  have hsK := hN.kid_bound hidx hK
  have hssib : Subtree s.look h sib (N.cells.get ⟨j, hj⟩).key
      (some (N.cells.get ⟨j + 1, hidx⟩).key) := by
    have := hN.kid_bound hj hsib0
    rwa [List.drop_eq_getElem_cons hidx] at this
  -- the merged node, on a page it fits, holds the pages below both children
  obtain ⟨hmt, hmc, hml, hmk, -⟩ := nodeMerge_ok rfl hssib.nodeOk.nkeys hreb.shaped.frame.nkeys hm
  obtain ⟨htN', hcells', hlen', hkeys', -⟩ :=
    nodeReplace2Kid_ok rfl ok.nkeys (by omega) (ok.nkeys ▸ ok.small) hr2
  have hmem : (⟨ptr, key0, []⟩ : Cell) ∈ N'.cells := by simp [hcells']
  have hmlook : s'.look ptr = .ok merged := get_new hnew
  have hUK : ∀ r, Under s1.look K' r → Under s'.look N' r := fun r hr =>
    .grand htN' hmem hmlook ((under_merged hmt (hreb.shaped.btype_eq hssib.shaped) hmc).mpr
      (.inr ((under_congr hK'keep).mpr hr)))
  obtain ⟨ht, hent⟩ := ih fun q M hq hM => hfit q M (hUK q hq) ((hK'keep q hq).trans hM)
  have hsize : merged.size ≤ BTREE_PAGE_SIZE := hfit ptr merged (.child htN' hmem) hmlook
  have hsibkeep : ∀ r, Under s.look sib r → s'.look r = s.look r := fun r hr =>
    hold r (hssib.live hr) (fun hk => hap r hk (.inr ⟨sib, hsib0, hr⟩))
      fun e => hssib.not_under_self hsib0 (e ▸ hr)
  have hcok : CellsOk s'.look h merged.cells (bound (N.cells.drop (j + 2)) hi) := by
    rw [hmc, cellsOk_append]
    exact ⟨(hssib.cellsOk.weaken (below_bound_of_le ht.above hsK.lo_below)).congr_under
      hssib.nodeOk.btype hsibkeep, ht.cells.congr_under ht.btype hK'keep⟩
  have hsub : Subtree s'.look h merged key0 (bound (N.cells.drop (j + 2)) hi) :=
    .of_cellsOk ⟨hmt.trans hssib.nodeOk.btype, hmk, by simp [hmc, hssib.nodeOk.nonempty],
      by rw [hml]; exact hsize, hsize, hcok.sorted⟩ (getKey_zero hk0) hcok
  have hkey0 : key0 = (N.cells.get ⟨j, hj⟩).key := by
    have h0 := getKey_zero hk0
    rw [BNode.keys, hmc, List.map_append, List.head?_append_of_ne_nil _
      (by simpa [BNode.keys] using hssib.nodeOk.nonempty)] at h0
    exact Option.some.inj (h0.symm.trans hssib.head)
  -- its entries: the neighbour's, all below the key, and the child's without the key
  have hent' : cellsAt s'.look h merged = (entriesOf s.look (h + 1)
      [N.cells.get ⟨j, hj⟩, N.cells.get ⟨j + 1, hidx⟩]).filter fun e => e.key ≠ key := by
    rw [cellsAt_eq_entriesOf, hmc, entriesOf_append, ← cellsAt_eq_entriesOf, ← cellsAt_eq_entriesOf,
      hssib.cellsAt_congr hsibkeep, ht.cellsAt_congr hK'keep, hent]
    simp only [entriesOf, List.flatMap_cons, List.flatMap_nil, List.append_nil,
      cellsBelow_of_look h hsib0, cellsBelow_of_look h hK, List.filter_append]
    rw [filter_key_ne _ fun e he => ne_of_bytesLt (bytesLt_of_lt_of_le
      ((hssib.cellsAt_sorted.2.2 e he).2 : bytesLt _ _) hle)]
  have hc' : N'.cells = N.cells.take j ++ [⟨ptr, key0, []⟩] ++ N.cells.drop (j + 2) := by
    rw [hcells', List.append_assoc, List.singleton_append]
  refine Thin.splice hN (cells_around₂ hidx) htN' hkeys' hlen' hc' ?_ hmlook hsub
    (hkey0 ▸ KeyLe.refl _) hent' ?_
  · intro c hc r hr
    have hnot := regionOf_disjoint (cells_around₂ hidx ▸ hdisj) r ⟨c, hc, hr⟩
    exact hold r (hN.live (.of_reach htN ((List.mem_append.mp hc).elim List.mem_of_mem_take
      List.mem_of_mem_drop) hr)) (fun hk => hnot ⟨_, .tail _ (.head _), hk⟩)
      fun e => hnot ⟨_, .head _, .inl e⟩
  · have hlt : bytesLt (N.cells.get ⟨j, hj⟩).key key :=
      bytesLt_of_lt_of_le (ok.key_lt (Nat.lt_succ_self j) hidx) hle
    intro e he
    rw [entriesOf_append, List.mem_append] at he
    exact he.elim (hN.entries_take_ne hj (.of_lt hlt) e) (hN.entries_drop_ne hl e)

theorem Thin.mergeRight (hN : Subtree s.look (h + 1) N lo hi) (hl : LookupLE N key idx)
    (hidx : idx < N.cells.length) (hle : KeyLe (N.cells.get ⟨idx, hidx⟩).key key)
    (hK : s.look (N.cells.get ⟨idx, hidx⟩).ptr = .ok K) (hreb : Rebuilt s s1 h K K')
    (ih : PagesFit s1.look K' → Thin s1.look h K' (N.cells.get ⟨idx, hidx⟩).key
        (bound (N.cells.drop (idx + 1)) hi) ∧
      cellsAt s1.look h K' = (cellsAt s.look h K).filter fun e => e.key ≠ key)
    (hdel : Pages.del (N.cells.get ⟨idx, hidx⟩).ptr s1 = .ok ((), s2))
    (hidx1 : idx + 1 < N.cells.length) (hsib : s2.look (N.cells.get ⟨idx + 1, hidx1⟩).ptr = .ok sib)
    (hm : nodeMerge (BNode.make BTREE_PAGE_SIZE) K' sib = .ok merged)
    (hdel' : Pages.del (N.cells.get ⟨idx + 1, hidx1⟩).ptr s2 = .ok ((), s3))
    (hnew : Pages.new merged s3 = .ok (ptr, s')) (hk0 : merged.getKey 0 = .ok key0)
    (hr2 : nodeReplace2Kid (BNode.make BTREE_PAGE_SIZE) N idx ptr key0 = .ok N')
    (hfit : PagesFit s'.look N') :
    Thin s'.look (h + 1) N' lo hi ∧
      cellsAt s'.look (h + 1) N' = (cellsAt s.look (h + 1) N).filter fun e => e.key ≠ key := by
  have ok := hN.nodeOk
  have htN : N.hdrType = BNODE_NODE := by simpa using ok.btype
  have hdisj : N.cells.Pairwise (Apart s.look) := by
    cases hN.shaped with
    | node _ _ _ _ hdisj => exact hdisj
  have hap : Apart s.look (N.cells.get ⟨idx, hidx⟩) (N.cells.get ⟨idx + 1, hidx1⟩) :=
    List.pairwise_iff_get.mp hdisj ⟨idx, hidx⟩ ⟨idx + 1, hidx1⟩ (by simp)
  obtain ⟨hsibs, hold, hK'keep⟩ := merge_keep hN (List.get_mem _ _ _) (List.get_mem _ _ _) hap hK
    hreb.replaces hdel hdel' hnew
  have hsib0 : s.look (N.cells.get ⟨idx + 1, hidx1⟩).ptr = .ok sib := hsibs.symm.trans hsib
  have hssib := hN.kid_bound hidx1 hsib0
  have hgt : bytesLt key (N.cells.get ⟨idx + 1, hidx1⟩).key :=
    hl.drop_gt ok _ (by rw [List.drop_eq_getElem_cons hidx1]; exact .head _)
  -- the merged node, on a page it fits, holds the pages below both children
  obtain ⟨hmt, hmc, hml, hmk, -⟩ := nodeMerge_ok rfl hreb.shaped.frame.nkeys hssib.nodeOk.nkeys hm
  obtain ⟨htN', hcells', hlen', hkeys', -⟩ :=
    nodeReplace2Kid_ok rfl ok.nkeys (by omega) (ok.nkeys ▸ ok.small) hr2
  have hmem : (⟨ptr, key0, []⟩ : Cell) ∈ N'.cells := by simp [hcells']
  have hmlook : s'.look ptr = .ok merged := get_new hnew
  have hUK : ∀ r, Under s1.look K' r → Under s'.look N' r := fun r hr =>
    .grand htN' hmem hmlook ((under_merged hmt (hssib.shaped.btype_eq hreb.shaped) hmc).mpr
      (.inl ((under_congr hK'keep).mpr hr)))
  obtain ⟨ht, hent⟩ := ih fun q M hq hM => hfit q M (hUK q hq) ((hK'keep q hq).trans hM)
  have hsize : merged.size ≤ BTREE_PAGE_SIZE := hfit ptr merged (.child htN' hmem) hmlook
  have hsibkeep : ∀ r, Under s.look sib r → s'.look r = s.look r := fun r hr =>
    hold r (hssib.live hr) (fun hk => hap r hk (.inr ⟨sib, hsib0, hr⟩))
      fun e => hssib.not_under_self hsib0 (e ▸ hr)
  have hb : bound (N.cells.drop (idx + 1)) hi = some (N.cells.get ⟨idx + 1, hidx1⟩).key := by
    rw [List.drop_eq_getElem_cons hidx1]; rfl
  have hsb : bound sib.cells (bound (N.cells.drop (idx + 2)) hi) =
      some (N.cells.get ⟨idx + 1, hidx1⟩).key := by
    simpa using bound_of_head (F := []) hssib.head
  have hcok : CellsOk s'.look h merged.cells (bound (N.cells.drop (idx + 2)) hi) := by
    rw [hmc, cellsOk_append, hsb]
    exact ⟨hb ▸ ht.cells.congr_under ht.btype hK'keep,
      hssib.cellsOk.congr_under hssib.nodeOk.btype hsibkeep⟩
  have hsub : Subtree s'.look h merged key0 (bound (N.cells.drop (idx + 2)) hi) :=
    .of_cellsOk ⟨hmt.trans ht.btype, hmk, by simp [hmc, hssib.nodeOk.nonempty],
      by rw [hml]; exact hsize, hsize, hcok.sorted⟩ (getKey_zero hk0) hcok
  have hle0 : KeyLe (N.cells.get ⟨idx, hidx⟩).key key0 := by
    have hall : ∀ c ∈ merged.cells, KeyLe (N.cells.get ⟨idx, hidx⟩).key c.key := by
      rw [hmc]
      intro c hc
      rcases List.mem_append.mp hc with hc | hc
      · exact ht.above c hc
      · exact (KeyLe.of_lt (ok.key_lt (Nat.lt_succ_self idx) hidx1)).trans (hssib.above c hc)
    obtain ⟨h0, rfl⟩ := getKey_ok hk0
    exact hall _ (List.get_mem _ _ _)
  -- its entries: the child's without the key, and the neighbour's, all above the key
  have hent' : cellsAt s'.look h merged = (entriesOf s.look (h + 1)
      [N.cells.get ⟨idx, hidx⟩, N.cells.get ⟨idx + 1, hidx1⟩]).filter fun e => e.key ≠ key := by
    rw [cellsAt_eq_entriesOf, hmc, entriesOf_append, ← cellsAt_eq_entriesOf, ← cellsAt_eq_entriesOf,
      ht.cellsAt_congr hK'keep, hssib.cellsAt_congr hsibkeep, hent]
    simp only [entriesOf, List.flatMap_cons, List.flatMap_nil, List.append_nil,
      cellsBelow_of_look h hK, cellsBelow_of_look h hsib0, List.filter_append]
    rw [filter_key_ne (cellsAt s.look h sib) fun e he =>
      (ne_of_bytesLt (bytesLt_of_lt_of_le hgt (hssib.cellsAt_sorted.2.2 e he).1)).symm]
  have hc' : N'.cells = N.cells.take idx ++ [⟨ptr, key0, []⟩] ++ N.cells.drop (idx + 2) := by
    rw [hcells', List.append_assoc, List.singleton_append]
  refine Thin.splice hN (cells_around₂ hidx1) htN' hkeys' hlen' hc' ?_ hmlook hsub hle0 hent' ?_
  · intro c hc r hr
    have hnot := regionOf_disjoint (cells_around₂ hidx1 ▸ hdisj) r ⟨c, hc, hr⟩
    exact hold r (hN.live (.of_reach htN ((List.mem_append.mp hc).elim List.mem_of_mem_take
      List.mem_of_mem_drop) hr)) (fun hk => hnot ⟨_, .head _, hk⟩)
      fun e => hnot ⟨_, .tail _ (.head _), .inl e⟩
  · intro e he
    rw [entriesOf_append, List.mem_append] at he
    refine he.elim (hN.entries_take_ne hidx hle e) fun he => hN.entries_drop_ne hl e ?_
    rw [List.drop_eq_getElem_cons hidx1]
    exact List.mem_append_right _ he

theorem Thin.replaceKid (hN : Subtree s.look (h + 1) N lo hi) (hl : LookupLE N key idx)
    (hidx : idx < N.cells.length) (hle : KeyLe (N.cells.get ⟨idx, hidx⟩).key key)
    (hK : s.look (N.cells.get ⟨idx, hidx⟩).ptr = .ok K) (hreb : Rebuilt s s1 h K K')
    (ih : PagesFit s1.look K' → Thin s1.look h K' (N.cells.get ⟨idx, hidx⟩).key
        (bound (N.cells.drop (idx + 1)) hi) ∧
      cellsAt s1.look h K' = (cellsAt s.look h K).filter fun e => e.key ≠ key)
    (hdel : Pages.del (N.cells.get ⟨idx, hidx⟩).ptr s1 = .ok ((), s2)) (hpos : 0 < K'.hdrKeys)
    (hrun : nodeReplaceKidN memPager (BNode.make BTREE_PAGE_SIZE) N idx [K'] s2 = .ok (N', s'))
    (hfit : PagesFit s'.look N') :
    Thin s'.look (h + 1) N' lo hi ∧
      cellsAt s'.look (h + 1) N' = (cellsAt s.look (h + 1) N).filter fun e => e.key ≠ key := by
  have ok := hN.nodeOk
  have hnu := (hN.kid_bound hidx hK).not_under_self hK
  obtain ⟨mid, hcells', hfr, hlen', hf, -, -, hr⟩ :=
    nodeReplaceKidN_ok rfl ok.nkeys hidx (ok.nkeys ▸ ok.small) hrun
  obtain ⟨mid', X, hcells'', hkeys⟩ := nodeReplaceKidN_keys rfl hrun
  obtain rfl : mid = mid' := by
    rw [hcells', List.append_assoc, List.append_assoc] at hcells''
    exact (List.append_inj (List.append_cancel_left hcells'')
      (hf.length_eq.trans hkeys.length_eq.symm)).1
  obtain ⟨m, rfl, hmK, hmk⟩ : ∃ m, mid = [m] ∧ s'.look m.ptr = .ok K' ∧ K'.keys.head? = some m.key := by
    cases hf with
    | cons hm hrest =>
      cases hrest
      cases hkeys with
      | cons hk _ => exact ⟨_, rfl, hm, hk⟩
  have hmem : m ∈ N'.cells := by simp [hcells']
  have hkeep := replaceKid_keep hN hidx
    (Replaces.then_del hK (live_of_get_ok hK) hnu hreb.replaces hdel).1 hr
  have hK'keep : ∀ r, Under s1.look K' r → s'.look r = s1.look r := fun r hr' =>
    have h3 : r ≠ (N.cells.get ⟨idx, hidx⟩).ptr := fun e =>
      hnu (e ▸ hreb.replaces.fresh r hr' (e ▸ live_of_get_ok hK))
    by rw [hr.get_eq (live_del hdel (hreb.replaces.live_of_new hr') h3) id, look_del hdel h3]
  have hUK : ∀ r, Under s1.look K' r → Under s'.look N' r := fun r hr' =>
    .grand hfr.btype hmem hmK ((under_congr hK'keep).mpr hr')
  obtain ⟨ht, hent⟩ := ih fun q M hq hM => hfit q M (hUK q hq) ((hK'keep q hq).trans hM)
  obtain ⟨c', cs', hc'⟩ := List.exists_cons_of_ne_nil (List.length_pos.mp (ht.nkeys ▸ hpos))
  have hmkey : m.key = c'.key := by simpa [BNode.keys, hc'] using hmk.symm
  have hsub : Subtree s'.look h K' m.key (bound (N.cells.drop (idx + 1)) hi) :=
    hmkey ▸ (ht.congr hK'keep).subtree hc' (hfit m.ptr K' (.child hfr.btype hmem) hmK)
  refine Thin.splice hN (cells_around hidx) hfr.btype hfr.nkeys hlen' hcells' hkeep hmK hsub
    (hmkey ▸ ht.above c' (by rw [hc']; exact .head _)) ?_ fun e he => ?_
  · rw [ht.cellsAt_congr hK'keep, hent, entriesOf_singleton, cellsBelow_of_look h hK]
  · rw [entriesOf_append, List.mem_append] at he
    exact he.elim (hN.entries_take_ne hidx hle e) (hN.entries_drop_ne hl e)

end Levels

section Descent

variable {key : Bytes}

/-- `treeDelete` from a subtree whose range holds the key, when it finds the key and every
page below what it returns fits a page: what it returns is thin and holds the entries of the
subtree without the key's. -/
theorem treeDelete_thin : ∀ fuel {h : Nat} {N N' : BNode} {lo : Bytes} {hi : Option Bytes}
    {s s' : Pages}, Subtree s.look h N lo hi → KeyLe lo key → Below key hi →
    treeDelete memPager fuel N key s = .ok (N', s') → N'.len ≠ 0 → PagesFit s'.look N' →
    Thin s'.look h N' lo hi ∧ cellsAt s'.look h N' = (cellsAt s.look h N).filter fun e => e.key ≠ key
  | 0, _, _, _, _, _, _, _, _, _, _, hrun, _, _ => by simp [treeDelete] at hrun
  | fuel + 1, h, N, N', lo, hi, s, s', hN, hlo, hb, hrun, hlen, hfit => by
    have ok := hN.nodeOk
    obtain ⟨idx, hidx, hl, ⟨hleaf, rfl, ⟨-, rfl⟩ | ⟨hkey, hd⟩⟩ | ⟨hnode, hrun⟩⟩ := treeDelete_cases ok hrun
    · exact absurd rfl hlen
    · obtain rfl := hN.shaped.height_of_leaf hleaf
      exact Thin.leafDelete hN hl hidx hkey hd
    cases h with
    | zero => exact absurd (ok.btype.symm.trans hnode) (by decide)
    | succ h =>
      obtain ⟨_, hle⟩ := hl.le ok hN.head hlo
      obtain ⟨_, K, K', s1, hK, hrec, ⟨-, rfl, rfl⟩ | ⟨hlen', s2, hdel, hcase⟩⟩ :=
        nodeDelete_cases (by simpa using ok) hrun
      · exact absurd rfl hlen
      have hsK := hN.kid_bound hidx hK
      have hreb : Rebuilt s s1 h K K' := by
        rcases treeDelete_deleted fuel hsK.shaped (fun q => hsK.live) hrec with ⟨h0, -⟩ | ⟨hr, -⟩
        · exact absurd h0 hlen'
        · exact hr
      have ih := treeDelete_thin fuel hsK hle (hl.below_bound hb) hrec hlen'
      rcases hcase with ⟨j, rfl, sib, merged, s3, ptr, key0, hsib, hm, hdel', hnew, hk0, hr2⟩ |
        ⟨hidx1, sib, merged, s3, ptr, key0, hsib, hm, hdel', hnew, hk0, hr2⟩ | ⟨hpos, hrun⟩
      · exact Thin.mergeLeft hN hl hidx hle hK hreb ih hdel hsib hm hdel' hnew hk0 hr2 hfit
      · exact Thin.mergeRight hN hl hidx hle hK hreb ih hdel hidx1 hsib hm hdel' hnew hk0 hr2 hfit
      · exact Thin.replaceKid hN hl hidx hle hK hreb ih hdel hpos hrun hfit

theorem treeDelete_found : ∀ fuel {h : Nat} {N N' : BNode} {lo : Bytes} {hi : Option Bytes}
    {s s' : Pages}, Subtree s.look h N lo hi → KeyLe lo key → Below key hi →
    treeDelete memPager fuel N key s = .ok (N', s') → (N'.len = 0 ↔ lookup key (cellsAt s.look h N) = none)
  | 0, _, _, _, _, _, _, _, _, _, _, hrun => by simp [treeDelete] at hrun
  | fuel + 1, h, N, N', lo, hi, s, s', hN, hlo, hb, hrun => by
    have ok := hN.nodeOk
    obtain ⟨idx, hidx, hl, ⟨hleaf, rfl, ⟨hne, rfl⟩ | ⟨hkey, hd⟩⟩ | ⟨hnode, hrun⟩⟩ := treeDelete_cases ok hrun <;>
      obtain ⟨_, hle⟩ := hl.le ok hN.head hlo <;> rw [hN.lookup_at hl hidx hle]
    · obtain rfl := hN.shaped.height_of_leaf hleaf
      simpa [entriesOf, lookup_cons, BNode.empty] using Ne.symm hne
    · obtain rfl := hN.shaped.height_of_leaf hleaf
      rw [(leafDelete_ok rfl ok.small hd).2.1]
      simp [entriesOf, lookup_cons, hkey, BNode.make, BTREE_PAGE_SIZE]
    cases h with
    | zero => exact absurd (ok.btype.symm.trans hnode) (by decide)
    | succ h =>
      obtain ⟨_, K, K', s1, hK, hrec, hcase⟩ := nodeDelete_cases (by simpa using ok) hrun
      rw [entriesOf_singleton, cellsBelow_of_look h hK,
        ← treeDelete_found fuel (hN.kid_bound hidx hK) hle (hl.below_bound hb) hrec]
      rcases hcase with ⟨hlen, rfl, -⟩ | ⟨hlen, s2, -, hcase⟩
      · exact iff_of_true rfl hlen
      refine iff_of_false ?_ hlen
      have hsmall := ok.nkeys ▸ ok.small
      rcases hcase with ⟨j, rfl, _, _, _, _, _, -, -, -, -, -, hr2⟩ |
        ⟨hidx1, _, _, _, _, _, -, -, -, -, -, hr2⟩ | ⟨-, hrun⟩
      · rw [(nodeReplace2Kid_ok rfl ok.nkeys (by omega) hsmall hr2).2.2.1]; decide
      · rw [(nodeReplace2Kid_ok rfl ok.nkeys (by omega) hsmall hr2).2.2.1]; decide
      · obtain ⟨_, -, -, hlen', -⟩ := nodeReplaceKidN_ok rfl ok.nkeys hidx hsmall hrun
        rw [hlen']; decide

end Descent

section Delete

variable {fuel : Nat} {root root' : UInt64} {key : Bytes} {found : Bool} {s s' : Pages}
  {L : List Cell}

/-- What `BTree.Delete` over an in-memory store can do: nothing, on the empty tree or for a
key over the limit; nothing more than the descent from the root when it does not find the
key; else free the root's page, and make the root the only child of what the descent
returned when that is an internal node of one key, or else a fresh page holding it. -/
theorem delete_cases (hrun : BTree.delete memPager fuel root key s = .ok ((root', found), s')) :
    (found = false ∧ root' = root ∧ s' = s ∧ (root = 0 ∨ (checkLimit key []).isSome)) ∨
    (root ≠ 0 ∧ checkLimit key [] = none ∧ ∃ N N' s1, s.look root = .ok N ∧
      treeDelete memPager fuel N key s = .ok (N', s1) ∧
      (N'.len = 0 ∧ found = false ∧ root' = root ∧ s' = s1 ∨
       N'.len ≠ 0 ∧ found = true ∧ ∃ s2, Pages.del root s1 = .ok ((), s2) ∧
        (N'.hdrType = BNODE_NODE ∧ N'.hdrKeys = 1 ∧ N'.getPtr 0 = .ok root' ∧ s' = s2 ∨
         ¬ (N'.hdrType = BNODE_NODE ∧ N'.hdrKeys = 1) ∧ Pages.new N' s2 = .ok (root', s')))) := by
  unfold BTree.delete at hrun
  simp only [treeM_bind_ok_iff, liftM_ok_iff, getM_ok_iff, treeM_ite_ok_iff, treeM_pure_ok_iff,
    Prod.mk.injEq, and_assoc, exists_and_left, exists_eq_left, exists_eq_left', true_and,
    exists_const] at hrun
  rcases hrun with ⟨rfl, rfl, rfl, rfl⟩ | ⟨hr0, ⟨hlim, rfl, rfl, rfl⟩ |
    ⟨hlim, N, hN, N', s1, hrec, ⟨hlen, rfl, rfl, rfl⟩ | ⟨hlen, u, s2, hdel, t, ht, hcase⟩⟩⟩
  · exact .inl ⟨rfl, rfl, rfl, .inl rfl⟩
  · exact .inl ⟨rfl, rfl, rfl, .inr hlim⟩
  all_goals refine .inr ⟨hr0, by simpa using hlim, N, N', s1, hN, hrec, ?_⟩
  · exact .inl ⟨hlen, rfl, rfl, rfl⟩
  cases u
  obtain rfl := btype_ok ht
  refine .inr ⟨hlen, ?_⟩
  rcases hcase with ⟨hnode, n, hn, ⟨h1, p, hp, rfl, rfl, rfl⟩ | ⟨h1, p, s3, hnew, rfl, rfl, rfl⟩⟩ |
    ⟨hnode, ⟨h1, -⟩ | ⟨-, p, s3, hnew, rfl, rfl, rfl⟩⟩ <;> try obtain ⟨rfl, -⟩ := nkeys_ok hn
  · exact ⟨rfl, s2, hdel, .inl ⟨hnode, of_decide_eq_true h1, hp, rfl⟩⟩
  · exact ⟨rfl, s2, hdel, .inr ⟨fun h => h1 (decide_eq_true h.2), hnew⟩⟩
  · exact absurd h1 (by decide)
  · exact ⟨rfl, s2, hdel, .inr ⟨fun h => hnode h.1, hnew⟩⟩

theorem lookup_filter_ne {k key : Bytes} (L : List Cell) :
    lookup k (L.filter fun e => e.key ≠ key) = if k = key then none else lookup k L := by
  induction L with
  | nil => simp
  | cons e L ih =>
    by_cases he : e.key = key
    · rw [List.filter_cons_of_neg (by simpa using he), ih, lookup_cons]
      subst he
      by_cases hk : k = e.key
      · simp [hk]
      · simp [hk, Ne.symm hk]
    · rw [List.filter_cons_of_pos (by simpa using he), lookup_cons, lookup_cons, ih]
      by_cases hk : k = key <;> simp [hk, he]

theorem Thin.sentinel {h : Nat} {N : BNode} {hi : Option Bytes} (ht : Thin look h N [] hi) {e : Cell}
    (he : e ∈ cellsAt look h N) (he0 : e.key = []) : ∃ c cs, N.cells = c :: cs ∧ c.key = [] := by
  rw [cellsAt_eq_entriesOf] at he
  obtain ⟨⟨d, hd, hde⟩, -⟩ := ht.cells.entries_range e he
  have hsorted := ht.cells.sorted
  cases hc : N.cells with
  | nil => rw [hc] at hd; cases hd
  | cons c cs =>
    refine ⟨c, cs, rfl, ?_⟩
    rw [hc] at hd hsorted
    have hcd : KeyLe c.key d.key := by
      rcases List.mem_cons.mp hd with rfl | hd
      · exact KeyLe.refl _
      · exact .of_lt ((List.pairwise_cons.mp (List.pairwise_map.mp hsorted)).1 d hd)
    by_contra hne
    exact hcd.trans (he0 ▸ hde) (bytesLt_nil_left.mpr hne)

theorem Subtree.sentinel_entry {h : Nat} {node : BNode} {hi : Option Bytes}
    (hs : Subtree look h node [] hi) : ∃ e ∈ cellsAt look h node, e.key = [] := by
  have hhead := hs.cellsAt_sorted.2.1
  cases hc : cellsAt look h node with
  | nil => rw [hc] at hhead; cases hhead
  | cons e es => rw [hc] at hhead; exact ⟨e, .head _, by simpa using hhead⟩

theorem Thin.holds_child {h : Nat} {N : BNode} {c : Cell} {s1 : Pages}
    (ht : Thin s1.look h N [] none) (hnode : N.hdrType = BNODE_NODE) (hc : N.cells = [c])
    (hc0 : c.key = []) (hkeep : ∀ r, Under s1.look N r → s'.look r = s1.look r) (hz : c.ptr ≠ 0) :
    Holds s'.look c.ptr (cellsAt s1.look h N) := by
  cases h with
  | zero => exact absurd (ht.btype.symm.trans hnode) (by decide)
  | succ h =>
    obtain ⟨⟨kid, hkid, hsk⟩, -⟩ : Kids s1.look h [c] none := hc ▸ ht.cells.entries
    have hunder : ∀ r, Reach s1.look c.ptr r → Under s1.look N r :=
      fun r hr => .of_reach hnode (by rw [hc]; exact .head _) hr
    have hkid' : ∀ r, Under s1.look kid r → s'.look r = s1.look r :=
      fun r hr => hkeep r (hunder r (.inr ⟨kid, hkid, hr⟩))
    refine .inr ⟨hz, h, kid, (hkeep _ (hunder _ (.inl rfl))).trans hkid, hc0 ▸ hsk.congr hkid', ?_⟩
    rw [cellsAt_eq_entriesOf N, hc, entriesOf_singleton, cellsBelow_of_look h hkid,
      hsk.cellsAt_congr hkid']

theorem Thin.holds_new {h : Nat} {N : BNode} {c : Cell} {cs : List Cell} {s1 s2 : Pages} {p : UInt64}
    (ht : Thin s1.look h N [] none) (hc : N.cells = c :: cs) (hc0 : c.key = [])
    (hkeep : ∀ r, Under s1.look N r → s'.look r = s1.look r) (hnew : Pages.new N s2 = .ok (p, s'))
    (hsize : N.size ≤ BTREE_PAGE_SIZE) : Holds s'.look p (cellsAt s1.look h N) :=
  .inr ⟨(Pages.new_ok hnew).1, h, N, get_new hnew, hc0 ▸ (ht.congr hkeep).subtree hc hsize,
    (ht.cellsAt_congr hkeep).symm⟩

/-- `BTree.Delete` over an in-memory store, from a tree storing `L`, reports the key found
exactly when the key is within the limit and `L` stores something under it. -/
theorem delete_found_iff (hL : Holds s.look root L)
    (hrun : BTree.delete memPager fuel root key s = .ok ((root', found), s')) :
    found = true ↔ key.length ≤ BTREE_MAX_KEY_SIZE ∧ lookup key L ≠ none := by
  rcases delete_cases hrun with ⟨rfl, -, -, h0 | hlim⟩ | ⟨hr0, hlim, N, N', s1, hN, hrec, hcase⟩
  · obtain rfl : L = [] := (hL.resolve_right fun h => h.1 h0).2
    simp
  · have hlong : BTREE_MAX_KEY_SIZE < key.length := by simpa [checkLimit] using hlim
    exact iff_of_false (by simp) fun h => absurd h.1 (by omega)
  obtain ⟨h, node, hroot, hs, rfl⟩ := (hL.resolve_left fun h => hr0 h.1).2
  obtain rfl : node = N := Except.ok.inj (hroot.symm.trans hN)
  have hfound := treeDelete_found fuel hs bytesLt_nil_right trivial hrec
  rcases hcase with ⟨hlen, rfl, -⟩ | ⟨hlen, rfl, -⟩
  · exact iff_of_false (by simp) fun h => h.2 (hfound.mp hlen)
  · exact iff_of_true rfl ⟨(checkLimit_eq_none hlim).1, fun e => hlen (hfound.mpr e)⟩

theorem delete_first_key_found :
    Holds (Pages.look ⟨[(1, ⟨BNODE_LEAF, 2, [⟨0, [], []⟩, ⟨0, [1], [2]⟩], BTREE_PAGE_SIZE⟩)], 1, []⟩) 1
        [⟨0, [], []⟩, ⟨0, [1], [2]⟩] ∧
      BTree.delete memPager 2 1 [1] ⟨[(1, ⟨BNODE_LEAF, 2, [⟨0, [], []⟩, ⟨0, [1], [2]⟩], BTREE_PAGE_SIZE⟩)], 1, []⟩ =
        .ok ((2, true), ⟨[(2, ⟨BNODE_LEAF, 1, [⟨0, [], []⟩], BTREE_PAGE_SIZE⟩)], 2, [1]⟩) ∧
      (true = true ↔ ([1] : Bytes).length ≤ BTREE_MAX_KEY_SIZE ∧
        lookup [1] [⟨0, [], []⟩, ⟨0, [1], [2]⟩] ≠ none) := by
  refine ⟨?held, ?run, delete_found_iff ?held ?run⟩
  · exact .inr ⟨by decide, 0, _, rfl, Subtree.firstLeaf (by decide) (by decide) (by decide), rfl⟩
  · rfl

/-- `BTree.Delete` over an in-memory store, from a tree storing `L`, for a non-empty key and
with page 0 not live: where every page of the tree it leaves fits a page, that tree stores
`L` without the key's entry when it reports the key found, and `L` when it does not. -/
theorem delete_holds (hL : Holds s.look root L) (hkey : key ≠ []) (hz : ¬ s.Live 0)
    (hrun : BTree.delete memPager fuel root key s = .ok ((root', found), s'))
    (hfit : ∀ q M, Reach s'.look root' q → s'.look q = .ok M → M.size ≤ BTREE_PAGE_SIZE) :
    Holds s'.look root' (if found then L.filter (fun e => e.key ≠ key) else L) := by
  rcases delete_cases hrun with ⟨rfl, rfl, rfl, -⟩ | ⟨hr0, -, N, N', s1, hN, hrec, hcase⟩
  · simpa using hL
  obtain ⟨h, node, hroot, hs, rfl⟩ := (hL.resolve_left fun h => hr0 h.1).2
  obtain rfl : node = N := Except.ok.inj (hroot.symm.trans hN)
  rcases hcase with ⟨hlen, rfl, rfl, rfl⟩ | ⟨hlen, rfl, s2, hdel, hcase⟩
  · -- not found: the descent changed nothing
    rcases treeDelete_deleted fuel hs.shaped (fun q => hs.live) hrec with ⟨-, rfl⟩ | ⟨-, h1, -⟩
    · simpa using hL
    · exact absurd hlen h1
  have hreb : Rebuilt s s1 h node N' := by
    rcases treeDelete_deleted fuel hs.shaped (fun q => hs.live) hrec with ⟨h0, -⟩ | ⟨hr, -⟩
    · exact absurd h0 hlen
    · exact hr
  -- the pages below what the descent returned outlive the root's page, and none is page 0
  have hnu := hs.not_under_self hroot
  have hkeep2 : ∀ r, Under s1.look N' r → s2.look r = s1.look r ∧ s2.Live r := fun r hr =>
    have h3 : r ≠ root := fun e => hnu (e ▸ hreb.replaces.fresh r hr (e ▸ live_of_get_ok hroot))
    ⟨look_del hdel h3, live_del hdel (hreb.replaces.live_of_new hr) h3⟩
  -- the sentinel stays
  obtain ⟨e, he, he0⟩ := hs.sentinel_entry
  have he' : e ∈ (cellsAt s.look h node).filter fun e => e.key ≠ key :=
    List.mem_filter.mpr ⟨he, by simpa [he0] using Ne.symm hkey⟩
  rw [if_pos rfl]
  rcases hcase with ⟨hnode, h1, hp, rfl⟩ | ⟨-, hnew⟩
  · -- an internal node of one key: its child becomes the root
    have hkeep : ∀ r, Under s1.look N' r → s'.look r = s1.look r := fun r hr => (hkeep2 r hr).1
    obtain ⟨c, hc⟩ := List.length_eq_one.mp (hreb.shaped.frame.nkeys.symm.trans h1)
    obtain rfl : root' = c.ptr := by
      obtain ⟨h0, rfl⟩ := getPtr_ok_cell hp hreb.shaped.frame.nkeys
      have hmem : N'.cells.get ⟨0, h0⟩ ∈ [c] := by rw [← hc]; exact List.get_mem _ _ _
      rw [List.mem_singleton.mp hmem]
    have hfit1 : PagesFit s1.look N' := fun q M hq hM => hfit q M (by
      obtain ⟨-, d, hd, hr⟩ := under_iff.mp ((under_congr hkeep).mpr hq)
      rw [hc, List.mem_singleton] at hd
      exact hd ▸ hr) ((hkeep q hq).trans hM)
    obtain ⟨ht, hent⟩ := treeDelete_thin fuel hs bytesLt_nil_right trivial hrec hlen hfit1
    obtain ⟨c', cs', hc', hc'0⟩ := ht.sentinel (hent ▸ he') he0
    obtain ⟨rfl, -⟩ : c = c' ∧ [] = cs' := by rw [hc] at hc'; exact List.cons.inj hc'
    rw [← hent]
    exact ht.holds_child hnode hc hc'0 hkeep fun e =>
      hz (hreb.replaces.zero (e ▸ .child hnode (by rw [hc]; exact .head _)))
  · -- else what the descent returned takes a fresh page
    have hkeep : ∀ r, Under s1.look N' r → s'.look r = s1.look r := fun r hr =>
      (look_new hnew (hkeep2 r hr).2).trans (hkeep2 r hr).1
    have hfit1 : PagesFit s1.look N' := fun q M hq hM =>
      hfit q M (.inr ⟨N', get_new hnew, (under_congr hkeep).mpr hq⟩) ((hkeep q hq).trans hM)
    obtain ⟨ht, hent⟩ := treeDelete_thin fuel hs bytesLt_nil_right trivial hrec hlen hfit1
    obtain ⟨c, cs, hc, hc0⟩ := ht.sentinel (hent ▸ he') he0
    rw [← hent]
    exact ht.holds_new hc hc0 hkeep hnew (hfit root' N' (.inl rfl) (get_new hnew))

/-- `BTree.Get` after `BTree.Delete` over an in-memory store, from a tree with the invariant,
for a non-empty key and with page 0 not live, where every page of the tree `Delete` leaves
fits a page: with enough fuel, `Get` of the key reads nothing when `Delete` reported it found,
and `Get` of every other key reads what it read before. -/
theorem delete_then_get (hinv : Inv s.look root) (hkey : key ≠ []) (hz : ¬ s.Live 0)
    (hrun : BTree.delete memPager fuel root key s = .ok ((root', found), s'))
    (hfit : ∀ q M, Reach s'.look root' q → s'.look q = .ok M → M.size ≤ BTREE_PAGE_SIZE)
    (k : Bytes) : ∃ n, ∀ fuel', n ≤ fuel' → ∃ v, BTree.get memPager fuel' root k s = .ok (v, s) ∧
      BTree.get memPager fuel' root' k s' = .ok (if k = key ∧ found then none else v, s') := by
  obtain ⟨L, hL⟩ := hinv.holds
  obtain ⟨n, hn⟩ := hL.get k
  obtain ⟨n', hn'⟩ := (delete_holds hL hkey hz hrun hfit).get k
  refine ⟨max n n', fun fuel' hf => ⟨lookup k L, hn fuel' (by omega), ?_⟩⟩
  rw [hn' fuel' (by omega)]
  cases found
  · simp
  · rw [if_pos rfl, lookup_filter_ne]
    simp

theorem two_levels_delete_then_get :
    Inv twoLevelPages.look 3 ∧ ([1] : Bytes) ≠ [] ∧ ¬ twoLevelPages.Live 0 ∧
      BTree.delete memPager 3 3 [1] twoLevelPages =
        .ok ((4, true), ⟨[(4, ⟨BNODE_LEAF, 2, [⟨0, [], []⟩, ⟨0, [3], [4]⟩], BTREE_PAGE_SIZE⟩)], 4, [1, 2, 3]⟩) ∧
      (∀ q M, Reach (Pages.look ⟨[(4, ⟨BNODE_LEAF, 2, [⟨0, [], []⟩, ⟨0, [3], [4]⟩], BTREE_PAGE_SIZE⟩)], 4, [1, 2, 3]⟩) 4 q →
        Pages.look ⟨[(4, ⟨BNODE_LEAF, 2, [⟨0, [], []⟩, ⟨0, [3], [4]⟩], BTREE_PAGE_SIZE⟩)], 4, [1, 2, 3]⟩ q = .ok M →
          M.size ≤ BTREE_PAGE_SIZE) ∧
      ∃ n, ∀ fuel', n ≤ fuel' → ∃ v, BTree.get memPager fuel' 3 [1] twoLevelPages = .ok (v, twoLevelPages) ∧
        BTree.get memPager fuel' 4 [1]
            ⟨[(4, ⟨BNODE_LEAF, 2, [⟨0, [], []⟩, ⟨0, [3], [4]⟩], BTREE_PAGE_SIZE⟩)], 4, [1, 2, 3]⟩ =
          .ok (if ([1] : Bytes) = [1] ∧ true = true then none else v,
            ⟨[(4, ⟨BNODE_LEAF, 2, [⟨0, [], []⟩, ⟨0, [3], [4]⟩], BTREE_PAGE_SIZE⟩)], 4, [1, 2, 3]⟩) := by
  refine ⟨twoLevelPages_inv, by decide, fun h => h rfl, ?run, ?fit,
    delete_then_get twoLevelPages_inv (by decide) (fun h => h rfl) ?run ?fit [1]⟩
  · rfl
  · rintro q M (rfl | ⟨n, hn, hu⟩) hM
    · cases hM
      decide
    · cases hn
      exact absurd hu (not_under_leaf rfl)

end Delete

end GoMiniDb.Storage
