import GoMiniDb.Storage.Region

/-! # One level of a descent

`treeInsert` and `treeDelete` rebuild the path to the key: at each internal node on it,
the child on the path is freed and replaced by the nodes built from it (split in up to
three, or merged with a sibling), which `nodeReplaceKidN` or `nodeReplace2Kid` link in
its place. Over the pages of an in-memory store this is `Replaces`: the pages at or below
the replaced cells give way to the pages at or below the new ones, and everything off the
path stays where it was. The same splice keeps the tree `Shaped`: the new cells lead to
shaped nodes on fresh pages, apart from each other and from the cells kept.
-/
namespace GoMiniDb.Storage

open BNode Pages

/-- The pages at or below the pointers of `cells`. -/
def RegionOf (look : UInt64 → Outcome BNode) (cells : List Cell) (q : UInt64) : Prop :=
  ∃ c ∈ cells, Reach look c.ptr q

section Region

variable {look look' : UInt64 → Outcome BNode} {q : UInt64}

theorem reach_of_ok {p : UInt64} {node : BNode} (h : look p = .ok node) :
    Reach look p q ↔ q = p ∨ Under look node q := by
  simp [Reach, h]

theorem regionOf_nil : RegionOf look [] q ↔ False := by
  simp [RegionOf]

theorem regionOf_cons {c : Cell} {cs : List Cell} :
    RegionOf look (c :: cs) q ↔ Reach look c.ptr q ∨ RegionOf look cs q := by
  simp [RegionOf]

theorem regionOf_append {xs ys : List Cell} :
    RegionOf look (xs ++ ys) q ↔ RegionOf look xs q ∨ RegionOf look ys q := by
  simp only [RegionOf, List.mem_append, or_and_right, exists_or]

theorem under_iff_regionOf {node : BNode} :
    Under look node q ↔ node.hdrType = BNODE_NODE ∧ RegionOf look node.cells q :=
  under_iff

theorem regionOf_congr {cs : List Cell} (hagree : ∀ r, RegionOf look cs r → look' r = look r) :
    RegionOf look' cs q ↔ RegionOf look cs q :=
  exists_congr fun c => and_congr_right fun hc => reach_congr fun r hr => hagree r ⟨c, hc, hr⟩

theorem under_parts {parts : List BNode} {node : BNode}
    (ht : ∀ p ∈ parts, p.hdrType = node.hdrType) (hc : (parts.map BNode.cells).flatten = node.cells) :
    (∃ p ∈ parts, Under look p q) ↔ Under look node q := by
  simp only [under_iff_regionOf, ← hc, RegionOf, List.mem_flatten, List.mem_map]
  constructor
  · rintro ⟨p, hp, ht', c, hc', hr⟩
    exact ⟨ht p hp ▸ ht', c, ⟨_, ⟨p, hp, rfl⟩, hc'⟩, hr⟩
  · rintro ⟨ht', c, ⟨_, ⟨p, hp, rfl⟩, hc'⟩, hr⟩
    exact ⟨p, hp, (ht p hp).trans ht', c, hc', hr⟩

theorem regionOf_forall₂ {cs : List Cell} {kids : List BNode}
    (h : List.Forall₂ (fun c kid => look c.ptr = .ok kid) cs kids) :
    RegionOf look cs q ↔ (∃ c ∈ cs, q = c.ptr) ∨ ∃ kid ∈ kids, Under look kid q := by
  induction h with
  | nil => simp [RegionOf]
  | @cons c kid cs kids hck _ ih =>
    rw [regionOf_cons, ih, reach_of_ok hck]
    simp only [List.mem_cons, or_and_right, exists_or, exists_eq_left]
    exact or_or_or_comm

end Region

section Build

variable {s s' : Pages} {new new' node old : BNode} {idx i : Nat} {kids : List BNode}

theorem appendKids_ok (h : appendKids memPager idx new kids i s = .ok (new', s')) :
    ∃ mid, new' = { new with cells := new.cells ++ mid } ∧ (Written new → Written new') ∧
      List.Forall₂ (fun c kid => s'.look c.ptr = .ok kid) mid kids ∧
      (∀ c ∈ mid, c.val = [] ∧ ∃ kid ∈ kids, c.key ∈ kid.keys) ∧ (mid.map Cell.ptr).Nodup ∧
      Replaces s s' (fun _ => False) (fun q => ∃ c ∈ mid, q = c.ptr) := by
  induction kids generalizing new i s with
  | nil =>
    simp only [appendKids, treeM_pure_ok_iff] at h
    obtain ⟨rfl, rfl⟩ := h
    exact ⟨[], by simp, id, .nil, by simp, .nil, (Replaces.refl _).congr (fun _ => Iff.rfl) (by simp)⟩
  | cons kid kids ih =>
    simp only [appendKids, treeM_bind_ok_iff, liftM_ok_iff] at h
    obtain ⟨ptr, s1, hnew, key, _, ⟨hkey, rfl⟩, new1, _, ⟨happ, rfl⟩, hrest⟩ := h
    obtain ⟨mid, rfl, hw, hf, hkeys, hnd, hr⟩ := ih hrest
    have h1 := Replaces.of_new hnew
    refine ⟨⟨ptr, key, []⟩ :: mid, ?_, fun _ => hw (nodeAppendKV_written happ), .cons ?_ hf, ?_,
      List.nodup_cons.mpr ⟨fun hm => ?_, hnd⟩, ?_⟩
    · obtain ⟨rfl, -⟩ := nodeAppendKV_ok happ
      simp
    · show s'.look ptr = _
      rw [hr.get_eq (h1.live_of_new rfl) id]
      exact get_new hnew
    · -- the new cell is keyed by the first key of its kid
      rintro c (_ | ⟨_, hc⟩)
      · obtain ⟨hi, rfl⟩ := getKey_ok hkey
        exact ⟨rfl, kid, List.mem_cons_self _ _, List.mem_map.mpr ⟨_, List.get_mem kid.cells 0 hi, rfl⟩⟩
      · obtain ⟨hv, k, hk, hm⟩ := hkeys c hc
        exact ⟨hv, k, List.mem_cons_of_mem _ hk, hm⟩
    · -- the later pages are fresh where `ptr` is already live
      obtain ⟨c, hc, e⟩ := List.mem_map.mp hm
      exact hr.fresh ptr ⟨c, hc, e.symm⟩ (h1.live_of_new rfl)
    · refine (h1.comp hr (fun _ h => h.elim) (fun _ h => h.elim)).congr (by simp) fun q => ?_
      simp only [List.mem_cons, exists_eq_or_imp]

theorem nodeReplaceKidN_ok (hnew : new.cells = []) (hold : old.hdrKeys = old.cells.length)
    (hidx : idx < old.cells.length) (hsmall : old.cells.length < 65536)
    (h : nodeReplaceKidN memPager new old idx kids s = .ok (node, s')) :
    ∃ mid, node.cells = old.cells.take idx ++ mid ++ old.cells.drop (idx + 1) ∧
      NodeFrame BNODE_NODE node ∧ node.len = new.len ∧
      List.Forall₂ (fun c kid => s'.look c.ptr = .ok kid) mid kids ∧
      (∀ c ∈ mid, c.val = [] ∧ ∃ kid ∈ kids, c.key ∈ kid.keys) ∧ (mid.map Cell.ptr).Nodup ∧
      Replaces s s' (fun _ => False) (fun q => ∃ c ∈ mid, q = c.ptr) := by
  simp only [nodeReplaceKidN, treeM_bind_ok_iff, liftM_ok_iff] at h
  obtain ⟨n, _, ⟨hn, rfl⟩, n1, _, ⟨h1, rfl⟩, n2, _, ⟨h2, rfl⟩, n3, s1, h3, h4, rfl⟩ := h
  obtain ⟨rfl, -⟩ := nkeys_ok hn
  obtain ⟨hw1, ht1, hk1, hc1, hl1⟩ := setHeader_written hnew h1
  obtain ⟨mid, rfl, hw3, hf, hkeys, hnd, hr⟩ := appendKids_ok h3
  have hw : Written node := (hw3 (hw1.appendRange h2)).appendRange h4
  obtain ⟨ht2, hk2, hl2, -⟩ := nodeAppendRange_fields h2
  obtain ⟨ht4, hk4, hl4, -⟩ := nodeAppendRange_fields h4
  have hk : node.hdrKeys = u16 (old.hdrKeys + u16 kids.length + 65535) := by
    rw [hk4, ← hk1]; exact hk2
  have hcells : node.cells = old.cells.take idx ++ mid ++ old.cells.drop (idx + 1) := by
    obtain ⟨rfl, -⟩ := nodeAppendRange_ok h2
    obtain ⟨rfl, -⟩ := nodeAppendRange_ok h4
    have e1 : u16 (idx + 1) = idx + 1 := u16_of_lt (by omega)
    have e2 : u16 (old.hdrKeys + 65536 - (idx + 1)) = (old.cells.drop (idx + 1)).length := by
      simp only [u16, List.length_drop]; omega
    simp only [hc1, e1, e2, List.drop_zero, List.nil_append, List.take_length]
  refine ⟨mid, hcells, ⟨ht4.trans (ht2.trans ht1), ?_, hk ▸ Nat.mod_lt _ (by decide)⟩,
    hl4.trans (hl2.trans hl1), hf, hkeys, hnd, hr⟩
  -- every slot the header counts is written: the count did not wrap
  have hlen := hf.length_eq
  unfold Written at hw
  simp only [hcells, hk, u16, List.length_append, List.length_take, List.length_drop] at hw ⊢
  omega

theorem shouldMerge_ok {upd sib : BNode} {dir : Int}
    (h : shouldMerge memPager old idx upd s = .ok ((dir, sib), s')) :
    s = s' ∧ (dir = 0 ∨ (dir = -1 ∧ 0 < idx ∧ ∃ p, old.getPtr (idx - 1) = .ok p ∧ s.look p = .ok sib) ∨
      (dir = 1 ∧ ∃ p, old.getPtr (u16 (idx + 1)) = .ok p ∧ s.look p = .ok sib)) := by
  unfold shouldMerge at h
  simp only [treeM_bind_ok_iff, liftM_ok_iff, getM_ok_iff, treeM_pure_ok_iff, treeM_ite_ok_iff,
    Prod.mk.injEq, and_assoc, exists_and_left, exists_eq_left, exists_eq_left', true_and,
    exists_const] at h
  rcases h with ⟨-, -, ⟨-, rfl, -, rfl⟩ | ⟨-, ⟨hidx, p, hp, sib', hget, -, -, -, -,
    ⟨-, rfl, rfl, rfl⟩ | ⟨-, -, -, ⟨-, p, hp, sib', hget, -, -, -, -, ⟨-, rfl, rfl, rfl⟩ |
      ⟨-, rfl, -, rfl⟩⟩ | ⟨-, rfl, -, rfl⟩⟩⟩ | ⟨-, -, -, ⟨-, p, hp, sib', hget, -, -, -, -,
      ⟨-, rfl, rfl, rfl⟩ | ⟨-, rfl, -, rfl⟩⟩ | ⟨-, rfl, -, rfl⟩⟩⟩⟩
  all_goals first
    | exact ⟨rfl, .inl rfl⟩
    | exact ⟨rfl, .inr (.inl ⟨rfl, hidx, p, hp, hget⟩)⟩
    | exact ⟨rfl, .inr (.inr ⟨rfl, p, hp, hget⟩)⟩

end Build

section Splice

variable {s s' s1 s2 : Pages} {N N' K K' : BNode} {New : UInt64 → Prop}

theorem regionOf_disjoint {look : UInt64 → Outcome BNode} {pre olds post : List Cell}
    (hp : (pre ++ olds ++ post).Pairwise (Apart look))
    (q : UInt64) (hq : RegionOf look (pre ++ post) q) : ¬ RegionOf look olds q := by
  rintro ⟨b, hb, hrb⟩
  rw [List.pairwise_append, List.pairwise_append] at hp
  obtain ⟨⟨-, -, hpo⟩, -, hpp⟩ := hp
  obtain ⟨a, ha, hra⟩ := hq
  rcases List.mem_append.mp ha with ha | ha
  · exact hpo a ha b hb q hra hrb
  · exact hpp b (List.mem_append_right _ hb) a ha q hrb hra

theorem Replaces.splice {pre olds post mids : List Cell} (hN : N.hdrType = BNODE_NODE)
    (hcells : N.cells = pre ++ olds ++ post) (hN' : N'.hdrType = BNODE_NODE)
    (hcells' : N'.cells = pre ++ mids ++ post) (hlive : ∀ q, Under s.look N q → s.Live q)
    (hdisj : ∀ q, RegionOf s.look (pre ++ post) q → ¬ RegionOf s.look olds q)
    (h : Replaces s s' (RegionOf s.look olds) New) (hmid : ∀ q, RegionOf s'.look mids q ↔ New q) :
    Replaces s s' (Under s.look N) (Under s'.look N') := by
  have hO : ∀ q, RegionOf s.look (pre ++ post) q → s.Live q ∧ ¬ RegionOf s.look olds q := by
    intro q hq
    refine ⟨hlive q (under_iff_regionOf.mpr ⟨hN, ?_⟩), hdisj q hq⟩
    rw [hcells, regionOf_append, regionOf_append]
    exact (regionOf_append.mp hq).imp_left .inl
  have hpre : ∀ q, RegionOf s'.look pre q ↔ RegionOf s.look pre q := fun q =>
    regionOf_congr fun r hr => h.get_eq (hO r (regionOf_append.mpr (.inl hr))).1
      (hO r (regionOf_append.mpr (.inl hr))).2
  have hpost : ∀ q, RegionOf s'.look post q ↔ RegionOf s.look post q := fun q =>
    regionOf_congr fun r hr => h.get_eq (hO r (regionOf_append.mpr (.inr hr))).1
      (hO r (regionOf_append.mpr (.inr hr))).2
  refine (h.extend hO).congr (fun q => ?_) (fun q => ?_)
  · rw [under_iff_regionOf, hcells, regionOf_append, regionOf_append, regionOf_append]
    simp only [hN, true_and, or_assoc, or_comm, or_left_comm]
  · rw [under_iff_regionOf, hcells', regionOf_append, regionOf_append, regionOf_append, hmid,
      hpre, hpost]
    simp only [hN', true_and, or_assoc, or_comm, or_left_comm]

theorem Replaces.del_then {p : UInt64} {u : Unit} (hK : s.look p = .ok K) (hp : s.Live p)
    (hnu : ¬ Under s.look K p) (hKlive : ∀ q, Under s.look K q → s.Live q)
    (hdel : Pages.del p s = .ok (u, s1)) (h : Replaces s1 s2 (Under s1.look K) New) :
    Replaces s s2 (Reach s.look p) New := by
  have hd := Replaces.of_del hdel hp
  have hK1 : ∀ q, Under s.look K q → s.Live q ∧ ¬ q = p := fun q hq => ⟨hKlive q hq, fun e => hnu (e ▸ hq)⟩
  refine (hd.comp h (fun q hq => hK1 q ((hd.under_iff hK1).mp hq)) fun _ _ h => h).congr
    (fun q => ?_) (fun q => or_iff_right id)
  rw [reach_of_ok hK, hd.under_iff hK1]

theorem Replaces.then_del {p : UInt64} {u : Unit} (hK : s.look p = .ok K) (hp : s.Live p)
    (hnu : ¬ Under s.look K p) (h : Replaces s s1 (Under s.look K) (Under s1.look K'))
    (hdel : Pages.del p s1 = .ok (u, s2)) :
    Replaces s s2 (Reach s.look p) (Under s2.look K') ∧
      ∀ {k : Nat}, Shaped s1.look k K' → Shaped s2.look k K' := by
  have hd := Replaces.of_del hdel ((h.live p).mpr (.inl ⟨hp, hnu⟩))
  have hK' : ∀ q, Under s1.look K' q → s1.Live q ∧ ¬ q = p := fun q hq =>
    ⟨h.live_of_new hq, fun e => hnu (h.fresh q hq (e ▸ hp) |> fun hu => e ▸ hu)⟩
  refine ⟨(h.comp hd (fun q e => ⟨e ▸ hp, e ▸ hnu⟩) fun q e hu => (hK' q hu).2 e).congr
    (fun q => ?_) (fun q => ?_), hd.shaped hK'⟩
  · rw [reach_of_ok hK, or_comm]
  · rw [hd.under_iff hK', or_false]

theorem regionOf_parts {mid : List Cell} {parts : List BNode} {P : UInt64 → Prop}
    (h : Replaces s1 s2 (fun _ => False) P)
    (hf : List.Forall₂ (fun c kid => s2.look c.ptr = .ok kid) mid parts)
    (hK' : ∀ q, Under s1.look K' q → s1.Live q)
    (ht : ∀ p ∈ parts, p.hdrType = K'.hdrType) (hc : (parts.map BNode.cells).flatten = K'.cells)
    (q : UInt64) : RegionOf s2.look mid q ↔ (∃ c ∈ mid, q = c.ptr) ∨ Under s1.look K' q := by
  rw [regionOf_forall₂ hf, ← under_parts ht hc]
  refine or_congr_right (exists_congr fun p => and_congr_right fun hp => h.under_iff fun r hr => ?_)
  exact ⟨hK' r ((under_parts ht hc).mp ⟨p, hp, hr⟩), id⟩

theorem cells_around {cells : List Cell} {i : Nat} (hi : i < cells.length) :
    cells = cells.take i ++ [cells.get ⟨i, hi⟩] ++ cells.drop (i + 1) := by
  rw [List.append_assoc, List.singleton_append]
  exact (List.take_append_drop i cells).symm.trans (by rw [List.drop_eq_getElem_cons hi]; rfl)

theorem cells_around₂ {cells : List Cell} {i : Nat} (hi : i + 1 < cells.length) :
    cells = cells.take i ++ [cells.get ⟨i, by omega⟩, cells.get ⟨i + 1, hi⟩] ++ cells.drop (i + 2) := by
  conv_lhs => rw [cells_around (by omega : i < cells.length)]
  rw [List.drop_eq_getElem_cons hi]
  simp

end Splice

section Shapes

variable {look : UInt64 → Outcome BNode} {h : Nat}

theorem not_under_leaf {node : BNode} {q : UInt64} (ht : node.hdrType = BNODE_LEAF) :
    ¬ Under look node q := fun hu =>
  absurd ((under_iff.mp hu).1) (by rw [ht]; decide)

theorem forall₂_exists_mem {α β : Type} {R : α → β → Prop} {as : List α} {bs : List β}
    (h : List.Forall₂ R as bs) : ∀ a ∈ as, ∃ b ∈ bs, R a b := by
  induction h with
  | nil => simp
  | cons hab _ ih =>
    rintro a (_ | ⟨_, ha⟩)
    · exact ⟨_, .head _, hab⟩
    · obtain ⟨b, hb, h⟩ := ih a ha
      exact ⟨b, .tail _ hb, h⟩

theorem Shaped.sub {K P : BNode} (hK : Shaped look h K) (hP : NodeFrame K.hdrType P)
    (hsub : P.cells.Sublist K.cells) : Shaped look h P := by
  cases hK with
  | leaf ok => exact .leaf ⟨hP.btype.trans ok.btype, hP.nkeys, hP.small⟩
  | node ok hex hsh hnu hdisj =>
    exact .node ⟨hP.btype.trans ok.btype, hP.nkeys, hP.small⟩ (fun c hc => hex c (hsub.subset hc))
      (fun c hc => hsh c (hsub.subset hc)) (fun c hc => hnu c (hsub.subset hc)) (hdisj.sublist hsub)

theorem Shaped.parts {K : BNode} {parts : List BNode} (hK : Shaped look h K)
    (hc : (parts.map BNode.cells).flatten = K.cells) (hfr : ∀ p ∈ parts, NodeFrame K.hdrType p) :
    (∀ p ∈ parts, Shaped look h p) ∧
      parts.Pairwise fun a b => ∀ q, Under look a q → ¬ Under look b q := by
  refine ⟨fun p hp => hK.sub (hfr p hp) (hc ▸ List.sublist_flatten_of_mem (List.mem_map_of_mem _ hp)),
    ?_⟩
  cases hK with
  | leaf ok =>
    exact List.pairwise_of_forall_mem_list fun a ha _ _ q hq _ =>
      not_under_leaf ((hfr a ha).btype.trans ok.btype) hq
  | node ok _ _ _ hdisj =>
    rw [← hc, List.pairwise_flatten, List.pairwise_map] at hdisj
    refine hdisj.2.imp fun hab q hqa hqb => ?_
    obtain ⟨-, c, hc, hrc⟩ := under_iff.mp hqa
    obtain ⟨-, d, hd, hrd⟩ := under_iff.mp hqb
    exact hab c hc d hd q hrc hrd

theorem Shaped.merge {a b m : BNode} (ha : Shaped look h a) (hb : Shaped look h b)
    (hm : NodeFrame a.hdrType m) (hcells : m.cells = a.cells ++ b.cells)
    (hdisj : ∀ q, Under look a q → ¬ Under look b q) : Shaped look h m := by
  cases ha with
  | leaf ok => exact .leaf ⟨hm.btype.trans ok.btype, hm.nkeys, hm.small⟩
  | node ok hex hsh hnu hpa =>
    cases hb with
    | node okb hexb hshb hnub hpb =>
      have hmem : ∀ c ∈ m.cells, c ∈ a.cells ∨ c ∈ b.cells := fun c hc =>
        List.mem_append.mp (hcells ▸ hc)
      refine .node ⟨hm.btype.trans ok.btype, hm.nkeys, hm.small⟩ (fun c hc => ?_) (fun c hc => ?_)
        (fun c hc => ?_) ?_
      · exact (hmem c hc).elim (hex c) (hexb c)
      · exact (hmem c hc).elim (hsh c) (hshb c)
      · exact (hmem c hc).elim (hnu c) (hnub c)
      · rw [hcells, List.pairwise_append]
        exact ⟨hpa, hpb, fun c hc d hd q hqc hqd =>
          hdisj q (.of_reach ok.btype hc hqc) (.of_reach okb.btype hd hqd)⟩

theorem Shaped.of_kids {node : BNode} (hfr : NodeFrame BNODE_NODE node)
    (hkids : ∀ c ∈ node.cells, ∃ kid, look c.ptr = .ok kid ∧ Shaped look h kid ∧
      ¬ Under look kid c.ptr)
    (hpair : node.cells.Pairwise (Apart look)) : Shaped look (h + 1) node := by
  refine .node hfr (fun c hc => (hkids c hc).imp fun _ h => h.1) (fun c hc kid hk => ?_)
    (fun c hc kid hk => ?_) hpair
  · obtain ⟨kid', hk', hs, -⟩ := hkids c hc
    exact Except.ok.inj (hk'.symm.trans hk) ▸ hs
  · obtain ⟨kid', hk', -, hn⟩ := hkids c hc
    exact Except.ok.inj (hk'.symm.trans hk) ▸ hn

variable {s1 s2 : Pages}

theorem Shaped.linked {mid : List Cell} {parts : List BNode}
    (hr : Replaces s1 s2 (fun _ => False) fun q => ∃ c ∈ mid, q = c.ptr)
    (hf : List.Forall₂ (fun c kid => s2.look c.ptr = .ok kid) mid parts)
    (hnd : (mid.map Cell.ptr).Nodup) (hsh : ∀ p ∈ parts, Shaped s1.look h p)
    (hlive : ∀ p ∈ parts, ∀ q, Under s1.look p q → s1.Live q)
    (hdisj : parts.Pairwise fun a b => ∀ q, Under s1.look a q → ¬ Under s1.look b q) :
    (∀ c ∈ mid, ∃ kid, s2.look c.ptr = .ok kid ∧ Shaped s2.look h kid ∧ ¬ Under s2.look kid c.ptr) ∧
      mid.Pairwise (Apart s2.look) := by
  have hU : ∀ p ∈ parts, ∀ q, Under s2.look p q → s1.Live q ∧ Under s1.look p q := fun p hp q hq =>
    have hq' := (hr.under_iff fun r hr => ⟨hlive p hp r hr, id⟩).mp hq
    ⟨hlive p hp q hq', hq'⟩
  have hfresh : ∀ c ∈ mid, ¬ s1.Live c.ptr := fun c hc hl => hr.fresh _ ⟨c, hc, rfl⟩ hl
  refine ⟨fun c hc => ?_, ?_⟩
  · obtain ⟨p, hp, hcp⟩ := forall₂_exists_mem hf c hc
    exact ⟨p, hcp, hr.shaped (fun r hr => ⟨hlive p hp r hr, id⟩) (hsh p hp),
      fun hu => hfresh c hc (hU p hp _ hu).1⟩
  clear hr hsh hlive
  induction hf with
  | nil => exact .nil
  | @cons c p mid parts hcp hf ih =>
    simp only [List.map_cons, List.nodup_cons, List.mem_map, not_exists, not_and] at hnd
    rw [List.pairwise_cons] at hdisj ⊢
    refine ⟨fun d hd q hqc hqd => ?_, ih hnd.2 hdisj.2 (fun x hx => hU x (.tail _ hx))
      (fun d hd => hfresh d (.tail _ hd))⟩
    obtain ⟨b, hb, hdb⟩ := forall₂_exists_mem hf d hd
    rw [reach_of_ok hcp] at hqc
    rw [reach_of_ok hdb] at hqd
    rcases hqc with rfl | hqc <;> rcases hqd with e | hqd
    · exact hnd.1 d hd e.symm
    · exact hfresh _ (.head _) (hU b (.tail _ hb) _ hqd).1
    · exact hfresh d (.tail _ hd) (e ▸ (hU p (.head _) q hqc).1)
    · exact hdisj.1 b hb q (hU p (.head _) q hqc).2 (hU b (.tail _ hb) q hqd).2

theorem Shaped.splice {s s' : Pages} {N N' : BNode} {New : UInt64 → Prop}
    {pre olds post mids : List Cell} (hN : Shaped s.look (h + 1) N)
    (hcells : N.cells = pre ++ olds ++ post) (hN' : NodeFrame BNODE_NODE N')
    (hcells' : N'.cells = pre ++ mids ++ post) (hlive : ∀ q, Under s.look N q → s.Live q)
    (hrep : Replaces s s' (RegionOf s.look olds) New) (hmid : ∀ q, RegionOf s'.look mids q → New q)
    (hkids : ∀ c ∈ mids, ∃ kid, s'.look c.ptr = .ok kid ∧ Shaped s'.look h kid ∧
      ¬ Under s'.look kid c.ptr)
    (hpair : mids.Pairwise (Apart s'.look)) : Shaped s'.look (h + 1) N' := by
  cases hN with
  | node ok hex hsh hnu hdisj =>
    have hmemN : ∀ c ∈ pre ++ post, c ∈ N.cells := fun c hc => by
      rw [hcells]
      simp only [List.mem_append] at hc ⊢
      exact hc.imp_left .inl
    -- the pages at or below the cells kept are live and untouched
    have hO : ∀ c ∈ pre ++ post, ∀ q, Reach s.look c.ptr q → s.Live q ∧ ¬ RegionOf s.look olds q :=
      fun c hc q hq => ⟨hlive q (.of_reach ok.btype (hmemN c hc) hq),
        regionOf_disjoint (hcells ▸ hdisj) q ⟨c, hc, hq⟩⟩
    have hR : ∀ c ∈ pre ++ post, ∀ q, Reach s'.look c.ptr q ↔ Reach s.look c.ptr q :=
      fun c hc _ => hrep.reach_iff (hO c hc)
    have hall : ∀ c ∈ N'.cells, ∃ kid, s'.look c.ptr = .ok kid ∧ Shaped s'.look h kid ∧
        ¬ Under s'.look kid c.ptr := by
      intro c hc
      rw [hcells', List.mem_append, List.mem_append, or_right_comm, ← List.mem_append] at hc
      rcases hc with hc | hc
      · obtain ⟨kid, hk⟩ := hex c (hmemN c hc)
        have hK : ∀ r, Under s.look kid r → s.Live r ∧ ¬ RegionOf s.look olds r :=
          fun r hr => hO c hc r (.inr ⟨kid, hk, hr⟩)
        refine ⟨kid, (hrep.get_eq (hO c hc _ (.inl rfl)).1 (hO c hc _ (.inl rfl)).2).trans hk,
          hrep.shaped hK (hsh c (hmemN c hc) kid hk), ?_⟩
        rw [hrep.under_iff hK]
        exact hnu c (hmemN c hc) kid hk
      · exact hkids c hc
    -- a kept cell and a new one are apart: the new pages were not live
    have hcross : ∀ c ∈ pre ++ post, ∀ d ∈ mids, Apart s'.look c d := fun c hc d hd q hqc hqd =>
      (hO c hc q ((hR c hc q).mp hqc)).2 (hrep.fresh q (hmid q ⟨d, hd, hqd⟩)
        (hO c hc q ((hR c hc q).mp hqc)).1)
    have hold : (pre ++ post).Pairwise (Apart s.look) := (hcells ▸ hdisj).sublist (by simp)
    have hkeep : (pre ++ post).Pairwise (Apart s'.look) := hold.imp_of_mem fun ha hb hab q hqa hqb =>
      hab q ((hR _ ha q).mp hqa) ((hR _ hb q).mp hqb)
    refine .of_kids hN' hall ?_
    rw [hcells']
    simp only [List.pairwise_append, List.mem_append] at hkeep ⊢
    obtain ⟨hpre, hpost, hpp⟩ := hkeep
    refine ⟨⟨hpre, hpair, fun a ha b hb => hcross a (by simp [ha]) b hb⟩, hpost, ?_⟩
    rintro a (ha | ha) b hb
    · exact hpp a ha b hb
    · exact fun q hqa hqb => hcross b (by simp [hb]) a ha q hqb hqa

end Shapes

end GoMiniDb.Storage
