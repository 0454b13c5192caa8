import GoMiniDb.Storage.Descent

/-! # Page accounting of `Insert` and `Delete`

At the root, `Insert` frees the old root before the descent and stores the new root (or a
new level over the split root) after it; `Delete` frees the old root after the descent and
stores the new one, or promotes the only child of an internal root. Over an in-memory store
whose live pages are exactly the pages of a shaped tree, either call, when it returns,
leaves a store whose live pages are exactly the pages of the new tree, which is shaped
again; it frees only pages of the old tree, each once; and a call that changes nothing (a
key over the limits, a key not in the tree) calls neither `new` nor `del`. The tree
invariant gives the shape; since the calls keep it, the accounting holds along every run
of calls from the empty store, also past a call that breaks the invariant.
-/
namespace GoMiniDb.Storage

open BNode Pages

/-- The live pages of the store are exactly the pages of the tree with root `root`. -/
def Accounted (s : Pages) (root : UInt64) : Prop :=
  ∀ q, s.Live q ↔ root ≠ 0 ∧ Reach s.look root q

/-- From `s` to `s'`, the pages freed, in order, are pages of the tree with root `root` in `s`,
each freed once. -/
def FreedFrom (s s' : Pages) (root : UInt64) : Prop :=
  ∃ D, s'.freed = s.freed ++ D ∧ D.Nodup ∧ ∀ q ∈ D, s.Live q ∧ Reach s.look root q

/-- `key` is a key of a leaf of the tree with root `root`. -/
def TreeContains (s : Pages) (root : UInt64) (key : Bytes) : Prop :=
  ∃ node, s.look root = .ok node ∧ Contains s.look node key

/-- The tree with root `root` has the shape page accounting needs; root 0 is the empty tree. -/
def TreeShaped (s : Pages) (root : UInt64) : Prop :=
  root = 0 ∨ ∃ h node, s.look root = .ok node ∧ Shaped s.look h node ∧ ¬ Under s.look node root

/-- A store that holds exactly the pages of a shaped tree, page 0 not among them. -/
structure Tidy (s : Pages) (root : UInt64) : Prop where
  shaped : TreeShaped s root
  accounted : Accounted s root
  zero : ¬ s.Live 0

section Roots

variable {s s' s2 s3 : Pages} {root root' p : UInt64} {R : UInt64 → Prop}

theorem FreedFrom.rfl : FreedFrom s s root := ⟨[], by simp, .nil, by simp⟩

theorem Replaces.freedFrom {New : UInt64 → Prop} (h : Replaces s s' R New)
    (hR : ∀ q, R q → s.Live q ∧ Reach s.look root q) : FreedFrom s s' root := by
  obtain ⟨D, hD, hn, hs⟩ := h.freed
  exact ⟨D, hD, hn, fun q hq => hR q (hs q hq)⟩

theorem Tidy.old (ht : Tidy s root) (q : UInt64) (hq : s.Live q) : Reach s.look root q :=
  ((ht.accounted q).mp hq).2

theorem Replaces.tidy (hz : ¬ s.Live 0) (h : Replaces s s' R (Reach s'.look root'))
    (hR : ∀ q, s.Live q → R q) (h0 : root' ≠ 0) (hsh : TreeShaped s' root') : Tidy s' root' := by
  refine ⟨hsh, fun q => ?_, fun hl => hz (((h.live 0).mp hl).elim (·.1) h.zero)⟩
  rw [h.live]
  constructor
  · rintro (⟨hl, hr⟩ | hr)
    · exact absurd (hR q hl) hr
    · exact ⟨h0, hr⟩
  · exact fun ⟨_, hr⟩ => .inr hr

theorem Replaces.newRoot {U : BNode} {k : Nat} (h : Replaces s s2 R (Under s2.look U))
    (hU : Shaped s2.look k U) (hnew : Pages.new U s2 = .ok (p, s3)) :
    Replaces s s3 R (Reach s3.look p) ∧ p ≠ 0 ∧ TreeShaped s3 p := by
  have hn := Replaces.of_new hnew
  have hU' : ∀ r, Under s2.look U r → s2.Live r ∧ ¬ False := fun r hr => ⟨h.live_of_new hr, id⟩
  obtain ⟨hp0, hfree, -⟩ := Pages.new_ok hnew
  refine ⟨(h.comp hn (fun _ h => h.elim) fun _ h => h.elim).congr (fun q => or_iff_left id)
    (fun q => ?_), hp0, .inr ⟨k, U, get_new hnew, hn.shaped hU' hU, fun hu => hfree ?_⟩⟩
  · rw [reach_of_ok (get_new hnew), hn.under_iff hU', or_comm]
  · exact (hU' p ((hn.under_iff hU').mp hu)).1

theorem Tidy.replaced {C : Prop} (ht : Tidy s root) (hr0 : root ≠ 0)
    (h : Replaces s s' (Reach s.look root) (Reach s'.look root')) (h0 : root' ≠ 0)
    (hsh : TreeShaped s' root') (hC : C) : FreedFrom s s' root ∧ Tidy s' root' ∧ C :=
  ⟨h.freedFrom fun q hq => ⟨(ht.accounted q).mpr ⟨hr0, hq⟩, hq⟩, h.tidy ht.zero ht.old h0 hsh, hC⟩

theorem Inv.treeShaped (hinv : Inv s.look root) : TreeShaped s root := by
  obtain h | ⟨h, node, hn, hs⟩ := hinv
  · exact .inl h
  · exact .inr ⟨h, node, hn, hs.shaped, hs.not_under_self hn⟩

variable {fuel : Nat} {key : Bytes}

theorem delete_tidy {found : Bool} (ht : Tidy s root)
    (hrun : BTree.delete memPager fuel root key s = .ok ((root', found), s')) :
    FreedFrom s s' root ∧ Tidy s' root' ∧
      (¬ TreeContains s root key → root' = root ∧ s' = s ∧ found = false) := by
  simp only [BTree.delete, treeM_bind_ok_iff, liftM_ok_iff, getM_ok_iff, treeM_ite_ok_iff,
    treeM_pure_ok_iff, Prod.mk.injEq, and_assoc, exists_and_left, exists_eq_left,
    exists_eq_left', true_and, exists_const] at hrun
  rcases hrun with ⟨-, rfl, rfl, rfl⟩ | ⟨hr0, ⟨-, rfl, rfl, rfl⟩ | ⟨-, node, hnode, U, s1, hdel, hrest⟩⟩
  · exact ⟨.rfl, ht, fun _ => ⟨rfl, rfl, rfl⟩⟩
  · exact ⟨.rfl, ht, fun _ => ⟨rfl, rfl, rfl⟩⟩
  obtain ⟨h, node', hn', hsh, hnu⟩ := ht.shaped.resolve_left hr0
  obtain rfl : node = node' := Except.ok.inj (hnode.symm.trans hn')
  have hlive : ∀ q, Under s.look node q → s.Live q :=
    fun q hq => (ht.accounted q).mpr ⟨hr0, .inr ⟨node, hnode, hq⟩⟩
  rcases treeDelete_deleted fuel hsh hlive hdel with ⟨hlen, rfl⟩ | ⟨hreb, hlen, hcont⟩
  · rcases hrest with ⟨-, rfl, rfl, rfl⟩ | ⟨hlen', -⟩
    · exact ⟨.rfl, ht, fun _ => ⟨rfl, rfl, rfl⟩⟩
    · exact absurd hlen hlen'
  rcases hrest with ⟨hlen', -⟩ | ⟨-, u, s2, hdel2, t, htt, hrest⟩
  · exact absurd hlen' hlen
  obtain ⟨hrep, hsh2⟩ := Replaces.then_del hnode ((ht.accounted root).mpr ⟨hr0, .inl rfl⟩) hnu
    hreb.replaces hdel2
  have hU := hsh2 hreb.shaped
  have hfound : ¬ ¬ TreeContains s root key := fun hn => hn ⟨node, hnode, hcont⟩
  obtain rfl := btype_ok htt
  rcases hrest with ⟨htn, n, hn, ⟨hn1, p, hp, rfl, rfl, rfl⟩ | ⟨-, p, s3, hnew, rfl, rfl, rfl⟩⟩ |
    ⟨-, ⟨hf, -⟩ | ⟨-, p, s3, hnew, rfl, rfl, rfl⟩⟩
  · -- the root has one child left: the child becomes the root
    obtain ⟨rfl, -⟩ := nkeys_ok hn
    obtain ⟨c, hc⟩ := List.length_eq_one.mp (hU.frame.nkeys.symm.trans (of_decide_eq_true hn1))
    obtain ⟨-, rfl⟩ := getPtr_ok hp
    have hUc : ∀ q, Under s2.look U q ↔ Reach s2.look c.ptr q := fun q => by
      rw [under_iff_regionOf, hc, regionOf_cons, regionOf_nil, or_false]
      exact and_iff_right htn
    have hrep' := hrep.congr (fun _ => Iff.rfl) hUc
    have h0 : c.ptr ≠ 0 := fun e => by
      have hl := hrep'.live_of_new (.inl rfl : Reach s2.look c.ptr c.ptr)
      rw [e, hrep.live] at hl
      rcases hl with ⟨hl, -⟩ | hl
      · exact ht.zero hl
      · exact ht.zero (hrep.zero hl)
    have hts : TreeShaped s2 c.ptr := by
      cases hU with
      | leaf ok => exact absurd (ok.btype.symm.trans htn) (by decide)
      | node _ hex hshc hnuc =>
        obtain ⟨kid, hk⟩ := hex c (hc ▸ .head _)
        exact .inr ⟨_, kid, hk, hshc c (hc ▸ .head _) kid hk, hnuc c (hc ▸ .head _) kid hk⟩
    simp only [hc, List.get?_cons_zero, Option.map_some', Option.getD_some]
    exact ht.replaced hr0 hrep' h0 hts fun h => absurd h hfound
  · obtain ⟨hrep', h0, hts⟩ := hrep.newRoot hU hnew
    exact ht.replaced hr0 hrep' h0 hts fun h => absurd h hfound
  · exact absurd hf (by decide)
  · obtain ⟨hrep', h0, hts⟩ := hrep.newRoot hU hnew
    exact ht.replaced hr0 hrep' h0 hts fun h => absurd h hfound

theorem insert_tidy {val : Bytes} {err : Option String} (ht : Tidy s root)
    (hrun : BTree.insert memPager fuel root key val s = .ok ((root', err), s')) :
    FreedFrom s s' root ∧ Tidy s' root' ∧ ((checkLimit key val).isSome → root' = root ∧ s' = s) := by
  unfold BTree.insert at hrun
  rcases hlim : checkLimit key val with _ | e
  case some =>
    simp only [hlim, treeM_pure_ok_iff, Prod.mk.injEq] at hrun
    obtain ⟨⟨rfl, -⟩, rfl⟩ := hrun
    exact ⟨.rfl, ht, fun _ => ⟨rfl, rfl⟩⟩
  simp only [hlim, treeM_bind_ok_iff, liftM_ok_iff, getM_ok_iff, treeM_ite_ok_iff, treeM_pure_ok_iff,
    Prod.mk.injEq, and_assoc, exists_and_left, exists_eq_left, exists_eq_left', true_and,
    exists_const] at hrun
  rcases hrun with ⟨rfl, r1, h1, r2, h2, r3, h3, p, s1, hnew, rfl, -, rfl⟩ |
    ⟨hr0, node, hnode, u, s1, hdel, K', s2, hrec, parts, hsplit, hrest⟩
  · -- the first node of an empty tree
    obtain rfl := setHeader_ok h1
    obtain ⟨rfl, -⟩ := nodeAppendKV_ok h2
    obtain ⟨rfl, -⟩ := nodeAppendKV_ok h3
    obtain ⟨hrep, h0, hts⟩ := Replaces.newRoot ((Replaces.refl s).congr (fun _ => Iff.rfl)
      fun q => iff_of_false id (not_under_leaf rfl)) (.leaf ⟨rfl, rfl, by simp⟩) hnew
    exact ⟨hrep.freedFrom fun _ h => h.elim,
      hrep.tidy ht.zero (fun q hq => absurd ((ht.accounted q).mp hq).1 (by simp)) h0 hts,
      fun h => absurd h (by simp)⟩
  obtain ⟨h, node', hn', hsh, hnu⟩ := ht.shaped.resolve_left hr0
  obtain rfl : node = node' := Except.ok.inj (hnode.symm.trans hn')
  have hlive : ∀ q, Under s.look node q → s.Live q :=
    fun q hq => (ht.accounted q).mpr ⟨hr0, .inr ⟨node, hnode, hq⟩⟩
  obtain ⟨hsK, hK1⟩ := descend_after_del hnode hnu hlive hsh hdel
  have hreb := treeInsert_rebuilt fuel hsK hK1 hrec
  have hrep := Replaces.del_then hnode ((ht.accounted root).mpr ⟨hr0, .inl rfl⟩) hnu hlive hdel
    hreb.replaces
  have hfK := hreb.shaped.frame
  obtain ⟨hne, hlen3, hcp, hfp⟩ := nodeSplit3_ok ⟨rfl, hfK.nkeys, hfK.small⟩ hsplit
  have htp : ∀ p ∈ parts, p.hdrType = K'.hdrType := fun p hp => (hfp p hp).btype
  obtain ⟨hshp, hdisj⟩ := hreb.shaped.parts hcp hfp
  rcases hrest with ⟨-, r, hr, r', s3, hkids, p, s4, hnew, rfl, -, rfl⟩ |
    ⟨hlen, p, s3, hnew, rfl, -, rfl⟩
  · -- the root was split: a new level over the parts
    obtain ⟨-, htr, hkr, hcr, -⟩ := setHeader_written rfl hr
    obtain ⟨mid, rfl, -, hf, -, hnd, hk⟩ := appendKids_ok hkids
    have hmid := regionOf_parts hk hf (fun q hq => hrep.live_of_new hq) htp hcp
    obtain ⟨hkid, hpair⟩ := Shaped.linked hk hf hnd hshp
      (fun p hp q hq => hrep.live_of_new ((under_parts htp hcp).mp ⟨p, hp, hq⟩)) hdisj
    have hsr : Shaped s3.look (h + 1) { r with cells := r.cells ++ mid } :=
      .of_kids ⟨htr, by simp [hkr, hcr, hf.length_eq], show r.hdrKeys < 65536 by omega⟩
        (by simpa [hcr] using hkid) (by simpa [hcr] using hpair)
    have hrep2 : Replaces s s3 (Reach s.look root) (Under s3.look { r with cells := r.cells ++ mid }) :=
      (hrep.comp hk (fun _ h => h.elim) fun _ h => h.elim).congr (fun q => or_iff_left id)
        fun q => by
          conv_rhs => rw [under_iff_regionOf]
          simp only [hcr, htr, List.nil_append, true_and, hmid, or_comm]
    obtain ⟨hrep3, h0, hts⟩ := hrep2.newRoot hsr hnew
    exact ht.replaced hr0 hrep3 h0 hts fun h => absurd h (by simp)
  · -- one part: it becomes the root
    obtain ⟨K'', rfl⟩ := List.length_eq_one.mp
      (show parts.length = 1 by have := List.length_pos.mpr hne; omega)
    have hrep2 : Replaces s s2 (Reach s.look root) (Under s2.look K'') :=
      hrep.congr (fun _ => Iff.rfl) fun q => (under_parts htp hcp).symm.trans (by simp)
    obtain ⟨hrep3, h0, hts⟩ := hrep2.newRoot (hshp K'' (.head _)) hnew
    exact ht.replaced hr0 hrep3 h0 hts fun h => absurd h (by simp)

end Roots

theorem Tidy.empty : Tidy Pages.empty 0 :=
  ⟨.inl rfl, fun q => by simp [Pages.Live, Pages.empty], by simp [Pages.Live, Pages.empty]⟩

/-- Over a store whose live pages are exactly the pages of a tree with the invariant (page 0,
the root of the empty tree, not among them), `Insert` and `Delete`, when they return, leave
exactly the pages of the new tree live and free only pages of the old tree, each once; an
`Insert` over the limits and a `Delete` of a key not in the tree change nothing. -/
theorem insert_delete_account_pages (s : Pages) (root : UInt64) (key val : Bytes)
    (hinv : Inv s.look root) (hacc : Accounted s root) (hz : ¬ s.Live 0) :
    (∀ fuel root' err s', BTree.insert memPager fuel root key val s = .ok ((root', err), s') →
      FreedFrom s s' root ∧ Accounted s' root' ∧
        ((checkLimit key val).isSome → root' = root ∧ s' = s)) ∧
    (∀ fuel root' found s', BTree.delete memPager fuel root key s = .ok ((root', found), s') →
      FreedFrom s s' root ∧ Accounted s' root' ∧
        (¬ TreeContains s root key → root' = root ∧ s' = s ∧ found = false)) :=
  have ht : Tidy s root := ⟨hinv.treeShaped, hacc, hz⟩
  ⟨fun _ _ _ _ h => (insert_tidy ht h).imp_right fun h' => ⟨h'.1.accounted, h'.2⟩,
    fun _ _ _ _ h => (delete_tidy ht h).imp_right fun h' => ⟨h'.1.accounted, h'.2⟩⟩

/-- The store after the first insert of `[1] ↦ [2]`: one leaf on page 1. -/
def firstLeafStore : Pages := ⟨[(1, ⟨BNODE_LEAF, 2, [⟨0, [], []⟩, ⟨0, [1], [2]⟩], BTREE_PAGE_SIZE⟩)], 1, []⟩

theorem first_leaf_accounted :
    Inv firstLeafStore.look 1 ∧ Accounted firstLeafStore 1 ∧ ¬ firstLeafStore.Live 0 ∧
      BTree.insert memPager 2 1 [3] [4] firstLeafStore = .ok ((2, none),
        ⟨[(2, ⟨BNODE_LEAF, 3, [⟨0, [], []⟩, ⟨0, [1], [2]⟩, ⟨0, [3], [4]⟩], BTREE_PAGE_SIZE⟩)], 2, [1]⟩) ∧
      Accounted ⟨[(2, ⟨BNODE_LEAF, 3, [⟨0, [], []⟩, ⟨0, [1], [2]⟩, ⟨0, [3], [4]⟩], BTREE_PAGE_SIZE⟩)], 2, [1]⟩ 2 ∧
      BTree.delete memPager 1 1 [1] firstLeafStore =
        .ok ((2, true), ⟨[(2, ⟨BNODE_LEAF, 1, [⟨0, [], []⟩], BTREE_PAGE_SIZE⟩)], 2, [1]⟩) ∧
      Accounted ⟨[(2, ⟨BNODE_LEAF, 1, [⟨0, [], []⟩], BTREE_PAGE_SIZE⟩)], 2, [1]⟩ 2 := by
  have hinv : Inv firstLeafStore.look 1 :=
    .inr ⟨0, _, rfl, .leaf ⟨rfl, rfl, by decide, by decide, by decide, by decide⟩ rfl (by decide)
      (by decide)⟩
  have ht1 := (insert_tidy Tidy.empty
    (show BTree.insert memPager 1 0 [1] [2] Pages.empty = .ok ((1, none), firstLeafStore) from rfl)).2.1
  have hins := insert_delete_account_pages firstLeafStore 1 [3] [4] hinv ht1.accounted ht1.zero
  have hdel := insert_delete_account_pages firstLeafStore 1 [1] [] hinv ht1.accounted ht1.zero
  exact ⟨hinv, ht1.accounted, ht1.zero, rfl,
    (hins.1 2 2 none ⟨[(2, ⟨BNODE_LEAF, 3, [⟨0, [], []⟩, ⟨0, [1], [2]⟩, ⟨0, [3], [4]⟩], BTREE_PAGE_SIZE⟩)], 2, [1]⟩
      rfl).2.1, rfl,
    (hdel.2 1 2 true ⟨[(2, ⟨BNODE_LEAF, 1, [⟨0, [], []⟩], BTREE_PAGE_SIZE⟩)], 2, [1]⟩ rfl).2.1⟩

/-- The stores and roots that calls of `Insert` and `Delete` over the in-memory pages, with
any fuel, reach from the empty store. -/
inductive Reachable : Pages → UInt64 → Prop
  | empty : Reachable Pages.empty 0
  | insert {s s' : Pages} {root root' : UInt64} {fuel : Nat} {key val : Bytes}
      {err : Option String} : Reachable s root →
      BTree.insert memPager fuel root key val s = .ok ((root', err), s') → Reachable s' root'
  | delete {s s' : Pages} {root root' : UInt64} {fuel : Nat} {key : Bytes} {found : Bool} :
      Reachable s root →
      BTree.delete memPager fuel root key s = .ok ((root', found), s') → Reachable s' root'

theorem Reachable.tidy {s : Pages} {root : UInt64} (h : Reachable s root) : Tidy s root := by
  induction h with
  | empty => exact .empty
  | insert _ hrun ih => exact (insert_tidy ih hrun).2.1
  | delete _ hrun ih => exact (delete_tidy ih hrun).2.1

/-- Along every run of `Insert` and `Delete` calls from the empty store, the calls that break
the tree invariant included, the live pages are exactly the pages of the current tree, page 0
is never live, and each later call frees only pages of the tree it starts from, each once. -/
theorem runs_account_pages {s : Pages} {root : UInt64} (h : Reachable s root) :
    Accounted s root ∧ ¬ s.Live 0 ∧
      (∀ fuel key val root' err s', BTree.insert memPager fuel root key val s = .ok ((root', err), s') →
        FreedFrom s s' root) ∧
      (∀ fuel key root' found s', BTree.delete memPager fuel root key s = .ok ((root', found), s') →
        FreedFrom s s' root) :=
  have ht := h.tidy
  ⟨ht.accounted, ht.zero, fun _ _ _ _ _ _ hrun => (insert_tidy ht hrun).1,
    fun _ _ _ _ _ hrun => (delete_tidy ht hrun).1⟩

theorem runs_account_after_delete :
    Reachable ⟨[(3, ⟨BNODE_LEAF, 2, [⟨0, [], []⟩, ⟨0, [3], [4]⟩], BTREE_PAGE_SIZE⟩)], 3, [1, 2]⟩ 3 ∧
      Accounted ⟨[(3, ⟨BNODE_LEAF, 2, [⟨0, [], []⟩, ⟨0, [3], [4]⟩], BTREE_PAGE_SIZE⟩)], 3, [1, 2]⟩ 3 ∧
      ¬ Pages.Live ⟨[(3, ⟨BNODE_LEAF, 2, [⟨0, [], []⟩, ⟨0, [3], [4]⟩], BTREE_PAGE_SIZE⟩)], 3, [1, 2]⟩ 0 :=
  have h1 := @Reachable.insert _ _ _ _ 1 [1] [2] none .empty rfl
  have h2 := @Reachable.insert _ _ _ _ 2 [3] [4] none h1 rfl
  have h3 := @Reachable.delete _ _ _ _ 2 [1] true h2 rfl
  ⟨h3, (runs_account_pages h3).1, (runs_account_pages h3).2.1⟩

end GoMiniDb.Storage
