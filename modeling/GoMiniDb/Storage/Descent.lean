import GoMiniDb.Storage.Splice

/-! # The pages of the descents

`treeInsert` and a successful `treeDelete` rebuild the node they start from: the pages
below it give way to the pages below the result, which is a shaped node of the same
height. A `treeDelete` that does not find the key changes nothing. Both are proved by
induction on the fuel of the descent, one level of the tree per step, from the shape alone:
neither the order of the keys nor the size of a node is needed, so the results hold for
trees the invariant no longer describes.
-/
namespace GoMiniDb.Storage

open BNode Pages

/-- What `treeInsert` and a successful `treeDelete` make of a node of height `h`: the pages
below it give way to the pages below the result, a shaped node of the same height. -/
structure Rebuilt (s s' : Pages) (h : Nat) (node node' : BNode) : Prop where
  replaces : Replaces s s' (Under s.look node) (Under s'.look node')
  shaped : Shaped s'.look h node'

section Descent

variable {s s1 s2 : Pages} {N N' K' : BNode} {h idx : Nat}

theorem Shaped.height_of_leaf {look : UInt64 → Outcome BNode} (hs : Shaped look h N)
    (ht : N.hdrType = BNODE_LEAF) : h = 0 := by
  cases hs with
  | leaf => rfl
  | node ok => exact absurd (ok.btype.symm.trans ht) (by decide)

theorem Shaped.btype_eq {look look' : UInt64 → Outcome BNode} {a b : BNode}
    (ha : Shaped look h a) (hb : Shaped look' h b) : b.hdrType = a.hdrType :=
  hb.frame.btype.trans ha.frame.btype.symm

theorem Rebuilt.leaf (ht : N.hdrType = BNODE_LEAF) (hN' : NodeFrame BNODE_LEAF N') :
    Rebuilt s s 0 N N' :=
  ⟨(Replaces.refl s).congr (fun _ => iff_of_false id (not_under_leaf ht))
    (fun _ => iff_of_false id (not_under_leaf hN'.btype)), .leaf hN'⟩

theorem Rebuilt.splice {New : UInt64 → Prop} {pre olds post mids : List Cell}
    (hN : Shaped s.look (h + 1) N) (hcells : N.cells = pre ++ olds ++ post)
    (hN' : NodeFrame BNODE_NODE N') (hcells' : N'.cells = pre ++ mids ++ post)
    (hlive : ∀ q, Under s.look N q → s.Live q) (hrep : Replaces s s2 (RegionOf s.look olds) New)
    (hmid : ∀ q, RegionOf s2.look mids q ↔ New q)
    (hkids : ∀ c ∈ mids, ∃ kid, s2.look c.ptr = .ok kid ∧ Shaped s2.look h kid ∧
      ¬ Under s2.look kid c.ptr)
    (hpair : mids.Pairwise (Apart s2.look)) : Rebuilt s s2 (h + 1) N N' := by
  obtain ⟨ht, hdisj⟩ : N.hdrType = BNODE_NODE ∧ N.cells.Pairwise (Apart s.look) := by
    cases hN with
    | node ok _ _ _ hdisj => exact ⟨ok.btype, hdisj⟩
  exact ⟨.splice ht hcells hN'.btype hcells' hlive (regionOf_disjoint (hcells ▸ hdisj)) hrep hmid,
    .splice hN hcells hN' hcells' hlive hrep (fun q => (hmid q).mp) hkids hpair⟩

theorem Rebuilt.replaceKid {new : BNode} {parts : List BNode} (hN : Shaped s.look (h + 1) N)
    (hlive : ∀ q, Under s.look N q → s.Live q) (hidx : idx < N.cells.length)
    (hrep : Replaces s s1 (Reach s.look (N.cells.get ⟨idx, hidx⟩).ptr) (Under s1.look K'))
    (hK' : Shaped s1.look h K') (hc : (parts.map BNode.cells).flatten = K'.cells)
    (hfr : ∀ p ∈ parts, NodeFrame K'.hdrType p)
    (hnew : new.cells = []) (hrun : nodeReplaceKidN memPager new N idx parts s1 = .ok (N', s2)) :
    Rebuilt s s2 (h + 1) N N' ∧ N'.len = new.len := by
  obtain ⟨mid, hcells', hN', hl', hf, -, hnd, hr⟩ :=
    nodeReplaceKidN_ok hnew hN.frame.nkeys hidx (hN.frame.nkeys ▸ hN.frame.small) hrun
  have ht : ∀ p ∈ parts, p.hdrType = K'.hdrType := fun p hp => (hfr p hp).btype
  obtain ⟨hsh, hdisj⟩ := hK'.parts hc hfr
  obtain ⟨hkids, hpair⟩ := Shaped.linked hr hf hnd hsh
    (fun p hp q hq => hrep.live_of_new ((under_parts ht hc).mp ⟨p, hp, hq⟩)) hdisj
  refine ⟨.splice hN (cells_around hidx) hN' hcells' hlive
    ((hrep.comp hr (fun _ h => h.elim) fun _ h => h.elim).congr (fun q => ?_) (fun q => ?_))
    (regionOf_parts hr hf (fun q hq => hrep.live_of_new hq) ht hc) hkids hpair, hl'⟩
  · rw [or_false, regionOf_cons, regionOf_nil, or_false]
  · exact or_comm

theorem descend_after_del {K : BNode} {p : UInt64} {u : Unit} (hK : s.look p = .ok K)
    (hnu : ¬ Under s.look K p) (hKlive : ∀ q, Under s.look K q → s.Live q) (hsK : Shaped s.look h K)
    (hdel : Pages.del p s = .ok (u, s1)) :
    Shaped s1.look h K ∧ ∀ q, Under s1.look K q → s1.Live q := by
  have hd := Replaces.of_del hdel (live_of_get_ok hK)
  have hK1 : ∀ q, Under s.look K q → s.Live q ∧ ¬ q = p :=
    fun q hq => ⟨hKlive q hq, fun e => hnu (e ▸ hq)⟩
  exact ⟨hd.shaped hK1 hsK, fun q hq => (hd.live q).mpr (.inl (hK1 q ((hd.under_iff hK1).mp hq)))⟩

theorem treeInsert_rebuilt {key val : Bytes} : ∀ fuel {h : Nat} {N N' : BNode} {s s' : Pages},
    Shaped s.look h N → (∀ q, Under s.look N q → s.Live q) →
    treeInsert memPager fuel N key val s = .ok (N', s') → Rebuilt s s' h N N'
  | 0, _, _, _, _, _, _, _, hrun => by simp [treeInsert] at hrun
  | fuel + 1, h, N, N', s, s', hN, hlive, hrun => by
    simp only [treeInsert, treeM_bind_ok_iff, liftM_ok_iff] at hrun
    obtain ⟨idx, _, ⟨-, rfl⟩, t, _, ⟨ht, rfl⟩, hrun⟩ := hrun
    obtain rfl := btype_ok ht
    split at hrun
    case isTrue hleaf =>
      obtain rfl := hN.height_of_leaf hleaf
      simp only [treeM_bind_ok_iff, liftM_ok_iff] at hrun
      obtain ⟨k, _, ⟨-, rfl⟩, hrun⟩ := hrun
      split at hrun
      · obtain ⟨hu, rfl⟩ := liftM_ok_iff.mp hrun
        obtain ⟨ht', -, hk, hs⟩ := leafUpdate_ok rfl hN.frame.small hu
        exact .leaf hleaf ⟨ht', hk, hs⟩
      · obtain ⟨hu, rfl⟩ := liftM_ok_iff.mp hrun
        obtain ⟨ht', -, hk, hs⟩ := leafInsert_ok rfl hN.frame.small hu
        exact .leaf hleaf ⟨ht', hk, hs⟩
    case isFalse =>
      split at hrun
      case isFalse => simp at hrun
      case isTrue hnode =>
        cases hN with
        | leaf ok => exact absurd (ok.btype.symm.trans hnode) (by decide)
        | @node h N ok hex hsh hnu hdisj =>
          simp only [nodeInsert, treeM_bind_ok_iff, liftM_ok_iff, getM_ok_iff] at hrun
          obtain ⟨kptr, _, ⟨hptr, rfl⟩, K, _, ⟨hK, rfl⟩, u, s1, hdel, K', s2, hrec, parts, _,
            ⟨hsplit, rfl⟩, hrun⟩ := hrun
          obtain ⟨hidx, rfl⟩ := getPtr_ok_cell hptr ok.nkeys
          have hc := List.get_mem N.cells idx hidx
          have hKlive : ∀ q, Under s.look K q → s.Live q :=
            fun q hq => hlive q (.grand ok.btype hc hK hq)
          obtain ⟨hsK, hK1⟩ := descend_after_del hK (hnu _ hc K hK) hKlive (hsh _ hc K hK) hdel
          have hreb := treeInsert_rebuilt fuel hsK hK1 hrec
          have hfK := hreb.shaped.frame
          obtain ⟨-, -, hcp, hfp⟩ := nodeSplit3_ok ⟨rfl, hfK.nkeys, hfK.small⟩ hsplit
          exact (Rebuilt.replaceKid (.node ok hex hsh hnu hdisj) hlive hidx
            (.del_then hK (live_of_get_ok hK) (hnu _ hc K hK) hKlive hdel hreb.replaces)
            hreb.shaped hcp hfp rfl hrun).1

theorem under_merged {look : UInt64 → Outcome BNode} {a b m : BNode} {q : UInt64}
    (hmt : m.hdrType = a.hdrType) (ht : a.hdrType = b.hdrType) (hmc : m.cells = a.cells ++ b.cells) :
    Under look m q ↔ Under look a q ∨ Under look b q := by
  rw [under_iff_regionOf, hmc, regionOf_append, hmt, under_iff_regionOf, under_iff_regionOf, ht,
    and_or_left]

theorem pair_cells {look : UInt64 → Outcome BNode} {j : Nat} {kptr sptr : UInt64}
    (hk : N.hdrKeys = N.cells.length) (hdisj : N.cells.Pairwise (Apart look))
    (hpair : (N.getPtr j = .ok kptr ∧ N.getPtr (j + 1) = .ok sptr) ∨
      (N.getPtr j = .ok sptr ∧ N.getPtr (j + 1) = .ok kptr)) :
    ∃ hj : j + 1 < N.cells.length, (∃ c ∈ N.cells, c.ptr = kptr) ∧ (∃ c ∈ N.cells, c.ptr = sptr) ∧
      (∀ q, Reach look kptr q → ¬ Reach look sptr q) ∧
      ∀ q, RegionOf look [N.cells.get ⟨j, by omega⟩, N.cells.get ⟨j + 1, hj⟩] q ↔
        Reach look kptr q ∨ Reach look sptr q := by
  have hj : j + 1 < N.cells.length := by
    rcases hpair with ⟨-, h2⟩ | ⟨-, h2⟩ <;> exact (getPtr_ok_cell h2 hk).1
  have hc1 := List.get_mem N.cells j (by omega)
  have hc2 := List.get_mem N.cells (j + 1) hj
  have h12 := (List.pairwise_iff_get.mp hdisj) ⟨j, by omega⟩ ⟨j + 1, hj⟩ (by simp)
  refine ⟨hj, ?_⟩
  simp only [regionOf_cons, regionOf_nil, or_false]
  rcases hpair with ⟨h1, h2⟩ | ⟨h1, h2⟩
  · obtain ⟨_, rfl⟩ := getPtr_ok_cell h1 hk
    obtain ⟨_, rfl⟩ := getPtr_ok_cell h2 hk
    exact ⟨⟨_, hc1, rfl⟩, ⟨_, hc2, rfl⟩, h12, fun _ => Iff.rfl⟩
  · obtain ⟨_, rfl⟩ := getPtr_ok_cell h1 hk
    obtain ⟨_, rfl⟩ := getPtr_ok_cell h2 hk
    exact ⟨⟨_, hc2, rfl⟩, ⟨_, hc1, rfl⟩, fun q hk hs => h12 q hs hk, fun _ => or_comm⟩

theorem Rebuilt.merge {s3 s4 : Pages} {sib merged new : BNode} {j : Nat}
    {kptr sptr ptr : UInt64} {key0 : Bytes} {u : Unit} (hN : Shaped s.look (h + 1) N)
    (hlive : ∀ q, Under s.look N q → s.Live q)
    (hpair : (N.getPtr j = .ok kptr ∧ N.getPtr (j + 1) = .ok sptr) ∨
      (N.getPtr j = .ok sptr ∧ N.getPtr (j + 1) = .ok kptr))
    (hrep : Replaces s s2 (Reach s.look kptr) (Under s2.look K')) (hK' : Shaped s2.look h K')
    (hsib : s2.look sptr = .ok sib) (hm : nodeMerge (BNode.make BTREE_PAGE_SIZE) sib K' = .ok merged ∨
      nodeMerge (BNode.make BTREE_PAGE_SIZE) K' sib = .ok merged)
    (hdel : Pages.del sptr s2 = .ok (u, s3)) (hnew : Pages.new merged s3 = .ok (ptr, s4))
    (hnewc : new.cells = []) (hrun : nodeReplace2Kid new N j ptr key0 = .ok N') :
    Rebuilt s s4 (h + 1) N N' ∧ N'.len = new.len := by
  have hN0 := hN
  cases hN0 with
  | node ok hex hsh hnu hdisj =>
    obtain ⟨hj, ⟨ck, hck, rfl⟩, ⟨cs, hcs, rfl⟩, hks, hpairR⟩ := pair_cells ok.nkeys hdisj hpair
    obtain ⟨ht', hcells', hl', hk', hs'⟩ :=
      nodeReplace2Kid_ok hnewc ok.nkeys (by omega) (ok.nkeys ▸ ok.small) hrun
    have hcells'' : N'.cells = N.cells.take j ++ [⟨ptr, key0, []⟩] ++ N.cells.drop (j + 2) := by
      rw [hcells', List.append_assoc, List.singleton_append]
    -- the sibling is read where it was: the descent did not touch its pages
    have hsl : s.Live cs.ptr := hlive _ (.child ok.btype hcs)
    have hsk : ¬ Reach s.look ck.ptr cs.ptr := fun h => hks _ h (.inl rfl)
    have hsib0 : s.look cs.ptr = .ok sib := (hrep.get_eq hsl hsk).symm.trans hsib
    have hssib := hsh _ hcs sib hsib0
    have hO : ∀ q, Under s.look sib q → s.Live q ∧ ¬ ((Reach s.look ck.ptr q ∨ q = cs.ptr) ∨ False) :=
      fun q hq => ⟨hlive q (.grand ok.btype hcs hsib0 hq), by
        rintro ((hr | rfl) | hf)
        · exact hks q hr (.inr ⟨sib, hsib0, hq⟩)
        · exact hnu _ hcs sib hsib0 hq
        · exact hf⟩
    have hK's : ∀ q, Under s2.look K' q → s2.Live q ∧ ¬ (q = cs.ptr ∨ False) := fun q hq =>
      ⟨hrep.live_of_new hq, by
        rintro (rfl | hf)
        · exact hsk (hrep.fresh _ hq hsl)
        · exact hf⟩
    -- free the sibling, store the merged node
    have hd := Replaces.of_del hdel ((hrep.live _).mpr (.inl ⟨hsl, hsk⟩))
    have hn := Replaces.of_new hnew
    have h03 := hrep.comp hd (fun q e => ⟨e ▸ hsl, e ▸ hsk⟩) fun q e hu => (hK's q hu).2 (.inl e)
    have h24 := hd.comp hn (fun _ h => h.elim) fun _ h => h.elim
    have h04 := h03.comp hn (fun _ h => h.elim) fun _ h => h.elim
    -- the merged node holds the cells of both, which are shaped, of one height, and apart
    have hU4 : ∀ q, Under s4.look sib q ↔ Under s.look sib q := fun q => h04.under_iff hO
    have hUK : ∀ q, Under s4.look K' q ↔ Under s2.look K' q := fun q => h24.under_iff hK's
    have hapart : ∀ q, Under s.look sib q → ¬ Under s2.look K' q := fun q hq hq' =>
      (hO q hq).2 (.inl (.inl (hrep.fresh q hq' (hO q hq).1)))
    obtain ⟨hmerged, hmshaped⟩ : (∀ q, Under s4.look merged q ↔ Under s.look sib q ∨
        Under s2.look K' q) ∧ Shaped s4.look h merged := by
      have htypes := hssib.btype_eq hK'
      rcases hm with hm | hm
      · obtain ⟨hmt, hmc, -, hmk, hms⟩ := nodeMerge_ok rfl hssib.frame.nkeys hK'.frame.nkeys hm
        exact ⟨fun q => (under_merged hmt htypes.symm hmc).trans (or_congr (hU4 q) (hUK q)),
          (h04.shaped hO hssib).merge (h24.shaped hK's hK') ⟨hmt, hmk, hms⟩ hmc
            fun q h1 h2 => hapart q ((hU4 q).mp h1) ((hUK q).mp h2)⟩
      · obtain ⟨hmt, hmc, -, hmk, hms⟩ := nodeMerge_ok rfl hK'.frame.nkeys hssib.frame.nkeys hm
        exact ⟨fun q => (under_merged hmt htypes hmc).trans ((or_congr (hUK q) (hU4 q)).trans or_comm),
          (h24.shaped hK's hK').merge (h04.shaped hO hssib) ⟨hmt, hmk, hms⟩ hmc
            fun q h1 h2 => hapart q ((hU4 q).mp h2) ((hUK q).mp h1)⟩
    -- the fresh page does not lie below the merged node: the pages below it were live
    have hfresh : ¬ Under s4.look merged ptr := fun hu => (Pages.new_ok hnew).2.1 <| by
      rcases (hmerged ptr).mp hu with hu | hu
      · exact (h03.live ptr).mpr (.inl ⟨(hO ptr hu).1, fun h => (hO ptr hu).2 (.inl h)⟩)
      · exact (hd.live ptr).mpr (.inl ⟨(hK's ptr hu).1, fun e => (hK's ptr hu).2 (.inl e)⟩)
    refine ⟨.splice hN (cells_around₂ hj) ⟨ht', hk', hs'⟩ hcells'' hlive
      ((h04.extend hO).congr (fun q => ?_) (fun q => Iff.rfl)) (fun q => ?_)
      (by simpa using ⟨merged, get_new hnew, hmshaped, hfresh⟩) (List.pairwise_singleton _ _), hl'⟩
    · rw [hpairR, reach_of_ok hsib0]
      simp only [or_false, or_assoc]
    · rw [regionOf_cons, regionOf_nil, or_false, reach_of_ok (get_new hnew), hmerged]
      simp only [or_false, false_or, or_comm, or_left_comm]

/-- `key` is a key of a leaf at or below `node`. -/
def Contains (look : UInt64 → Outcome BNode) (node : BNode) (key : Bytes) : Prop :=
  ∃ leaf, (leaf = node ∨ ∃ q, Under look node q ∧ look q = .ok leaf) ∧
    leaf.hdrType = BNODE_LEAF ∧ key ∈ leaf.keys

theorem Contains.child {look : UInt64 → Outcome BNode} {K : BNode} {c : Cell} {key : Bytes}
    (ht : N.hdrType = BNODE_NODE) (hc : c ∈ N.cells) (hK : look c.ptr = .ok K)
    (h : Contains look K key) : Contains look N key := by
  obtain ⟨leaf, hl | ⟨q, hq, hlq⟩, ht', hk⟩ := h
  · subst hl
    exact ⟨_, .inr ⟨c.ptr, .child ht hc, hK⟩, ht', hk⟩
  · exact ⟨leaf, .inr ⟨q, .grand ht hc hK hq, hlq⟩, ht', hk⟩

/-- What `treeDelete` does: nothing, returning a node of length 0, when the key is not
there; else a rebuild of the node, to a node of nonzero length. -/
def Deleted (s s' : Pages) (h : Nat) (node node' : BNode) (key : Bytes) : Prop :=
  (node'.len = 0 ∧ s = s') ∨ (Rebuilt s s' h node node' ∧ node'.len ≠ 0 ∧ Contains s.look node key)

theorem nodeDelete_deleted {key : Bytes} {fuel : Nat}
    (ih : ∀ {h : Nat} {N N' : BNode} {s s' : Pages}, Shaped s.look h N →
      (∀ q, Under s.look N q → s.Live q) →
      treeDelete memPager fuel N key s = .ok (N', s') → Deleted s s' h N N' key)
    {s' : Pages} (hN : Shaped s.look h N) (hnode : N.hdrType = BNODE_NODE)
    (hlive : ∀ q, Under s.look N q → s.Live q)
    (hrun : nodeDelete memPager (treeDelete memPager fuel) N idx key s = .ok (N', s')) :
    Deleted s s' h N N' key := by
  cases hN with
  | leaf ok => exact absurd (ok.btype.symm.trans hnode) (by decide)
  | @node h N ok hex hsh hnu hdisj =>
    simp only [nodeDelete, treeM_bind_ok_iff, liftM_ok_iff, getM_ok_iff, treeM_ite_ok_iff,
      treeM_pure_ok_iff, Prod.mk.injEq, and_assoc, exists_and_left, exists_eq_left,
      exists_eq_left', true_and, exists_const] at hrun
    obtain ⟨kptr, hptr, K, hK, K', s1, hrec, hrun⟩ := hrun
    obtain ⟨hidx, rfl⟩ := getPtr_ok_cell hptr ok.nkeys
    have hc := List.get_mem N.cells idx hidx
    have hKlive : ∀ q, Under s.look K q → s.Live q := fun q hq => hlive q (.grand ok.btype hc hK hq)
    rcases ih (hsh _ hc K hK) hKlive hrec with ⟨hlen, rfl⟩ | ⟨hreb, hlen, hcont⟩
    · rcases hrun with ⟨-, rfl, rfl⟩ | ⟨hlen', -⟩
      · exact .inl ⟨rfl, rfl⟩
      · exact absurd hlen hlen'
    rcases hrun with ⟨hlen', -⟩ | ⟨-, u, s2, hdel, ⟨dir, sib⟩, s3, hmerge, hrun⟩
    · exact absurd hlen' hlen
    obtain ⟨rfl, hdir⟩ := shouldMerge_ok hmerge
    obtain ⟨hrep, hsh2⟩ := Replaces.then_del hK (live_of_get_ok hK) (hnu _ hc K hK) hreb.replaces hdel
    have hK2 := hsh2 hreb.shaped
    have hcontN := hcont.child ok.btype hc hK
    have hsmall := ok.nkeys ▸ ok.small
    have hlen4 : (BNode.make BTREE_PAGE_SIZE).len ≠ 0 := by decide
    have hN := Shaped.node ok hex hsh hnu hdisj
    rcases hrun with ⟨hlt, merged, hm, sp, hsp, u', s4, hdel', ptr, s5, hnew, key0, -, hr2, rfl⟩ |
      ⟨hnlt, ⟨hgt, merged, hm, sp, hsp, u', s4, hdel', ptr, s5, hnew, key0, -, hr2, rfl⟩ |
        ⟨hngt, n, -, -, -, hrun⟩⟩
    · -- merge with the left sibling
      obtain ⟨rfl, hidx0, p, hp, hsib⟩ : dir = -1 ∧ 0 < idx ∧ ∃ p, N.getPtr (idx - 1) = .ok p ∧
          s2.look p = .ok sib := by
        rcases hdir with rfl | h | ⟨rfl, -⟩
        · exact absurd hlt (by simp)
        · exact h
        · exact absurd hlt (by simp)
      have e : u16 (idx + 65535) = idx - 1 := by unfold u16; omega
      rw [e] at hsp hr2
      obtain rfl : sp = p := Except.ok.inj (hsp.symm.trans hp)
      have r := Rebuilt.merge hN hlive (.inr ⟨hp, by rw [Nat.sub_add_cancel hidx0]; exact hptr⟩)
        hrep hK2 hsib (.inl hm) hdel' hnew rfl hr2
      exact .inr ⟨r.1, r.2 ▸ hlen4, hcontN⟩
    · -- merge with the right sibling
      obtain ⟨rfl, p, hp, hsib⟩ : dir = 1 ∧ ∃ p, N.getPtr (u16 (idx + 1)) = .ok p ∧
          s2.look p = .ok sib := by
        rcases hdir with rfl | ⟨rfl, -⟩ | h
        · exact absurd hgt (by simp)
        · exact absurd hgt (by simp)
        · exact h
      have e : u16 (idx + 1) = idx + 1 := u16_of_lt (by omega)
      rw [e] at hsp hp
      obtain rfl : sp = p := Except.ok.inj (hsp.symm.trans hp)
      have r := Rebuilt.merge hN hlive (.inl ⟨hptr, hp⟩) hrep hK2 hsib (.inr hm) hdel' hnew
        rfl hr2
      exact .inr ⟨r.1, r.2 ▸ hlen4, hcontN⟩
    · -- no merge: the child takes its own page again
      have hfK := hK2.frame
      have r := Rebuilt.replaceKid hN hlive hidx hrep hK2 (by simp)
        (by simpa using (⟨rfl, hfK.nkeys, hfK.small⟩ : NodeFrame K'.hdrType K')) rfl hrun
      exact .inr ⟨r.1, r.2 ▸ hlen4, hcontN⟩

theorem treeDelete_deleted {key : Bytes} : ∀ fuel {h : Nat} {N N' : BNode} {s s' : Pages},
    Shaped s.look h N → (∀ q, Under s.look N q → s.Live q) →
    treeDelete memPager fuel N key s = .ok (N', s') → Deleted s s' h N N' key
  | 0, _, _, _, _, _, _, _, hrun => by simp [treeDelete] at hrun
  | fuel + 1, h, N, N', s, s', hN, hlive, hrun => by
    simp only [treeDelete, treeM_bind_ok_iff, liftM_ok_iff] at hrun
    obtain ⟨idx, _, ⟨-, rfl⟩, t, _, ⟨ht, rfl⟩, hrun⟩ := hrun
    obtain rfl := btype_ok ht
    split at hrun
    case isTrue hleaf =>
      obtain rfl := hN.height_of_leaf hleaf
      simp only [treeM_bind_ok_iff, liftM_ok_iff, treeM_ite_ok_iff, treeM_pure_ok_iff,
        Prod.mk.injEq, and_assoc, exists_and_left, exists_eq_left, exists_eq_left', true_and,
        exists_const] at hrun
      rcases hrun with ⟨k, hk, ⟨-, rfl, rfl⟩ | ⟨heq, hdel, rfl⟩⟩
      · exact .inl ⟨rfl, rfl⟩
      · obtain ⟨ht', hl', hk', hs'⟩ := leafDelete_ok rfl hN.frame.small hdel
        obtain ⟨hi, rfl⟩ := getKey_ok hk
        obtain rfl := of_not_not heq
        exact .inr ⟨.leaf hleaf ⟨ht', hk', hs'⟩, by rw [hl']; decide, N, .inl rfl, hleaf,
          List.mem_map_of_mem _ (List.get_mem _ _ _)⟩
    case isFalse =>
      split at hrun
      case isTrue hnode => exact nodeDelete_deleted (treeDelete_deleted fuel) hN hnode hlive hrun
      case isFalse => simp at hrun

end Descent

end GoMiniDb.Storage
