import GoMiniDb.Storage.DeleteInv
import GoMiniDb.Storage.Accounting
import GoMiniDb.Storage.Harness

/-! # The test harness refines its reference map

The harness `C` of the B-tree tests keeps a tree over in-memory pages beside a Go map of
what the tree should hold. Its `new` callback asserts that a node fits a page and its `del`
that the page exists; otherwise they are the in-memory pager's. So a harness run that
returns is a run over the in-memory pager, along which every stored page fits (`Sim`). Over
the in-memory pager the store stays tidy, `Insert` stores the value and `Delete` drops the
key's entry, where the pages of the tree it leaves fit. Hence every test run of keys and
values within the limits that returns leaves a tree in which `Get` reads, for every
non-empty key, what the reference map holds.
-/
namespace GoMiniDb.Storage

open BNode Pages

/-- Every page of the store whose header counts its cells fits a page. -/
def Fits (s : Pages) : Prop :=
  ∀ q M, s.look q = .ok M → M.hdrKeys = M.cells.length → M.size ≤ BTREE_PAGE_SIZE

section Fits

variable {s s' : Pages} {node : BNode} {p : UInt64}

theorem nbytes_size {nb : Nat} (h : node.nbytes = .ok nb) (hk : node.hdrKeys = node.cells.length) :
    nb = node.size := by
  simp only [BNode.nbytes, kvPos, getOffset, offsetPos, bind_ok_iff, assert_ok_iff, bounds_ok_iff,
    pure_ok_iff] at h
  obtain ⟨a, ha, a1, ha1, -, -, off, hoff, rfl⟩ := h
  obtain ⟨rfl, -⟩ := nkeys_ok ha
  obtain ⟨rfl, -⟩ := nkeys_ok ha1
  have hoff' : off = offsetOf node.cells node.hdrKeys := by
    split at hoff
    · rename_i h0
      cases hoff
      rw [h0]
      cases node.cells <;> rfl
    · simp only [bind_ok_iff, assert_ok_iff, bounds_ok_iff, pure_ok_iff] at hoff
      obtain ⟨_, -, -, -, rfl⟩ := hoff
      simp [hk]
  rw [hoff', BNode.size, hk]
  omega

theorem Fits.new (hs : Fits s) (hnew : Pages.new node s = .ok (p, s'))
    (hfit : node.hdrKeys = node.cells.length → node.size ≤ BTREE_PAGE_SIZE) : Fits s' := by
  intro q M hq hk
  by_cases hqp : q = p
  · subst hqp
    rw [get_new hnew] at hq
    cases hq
    exact hfit hk
  · have hl : s'.look q = s.look q := by
      show Pages.get q s' = Pages.get q s
      simp [Pages.get, (Pages.new_ok hnew).2.2.1, GoMap.get?_set, hqp]
    exact hs q M (hl ▸ hq) hk

theorem Fits.del {u : Unit} (hs : Fits s) (hdel : Pages.del p s = .ok (u, s')) : Fits s' := by
  intro q M hq hk
  by_cases hqp : q = p
  · subst hqp
    have hl : s'.look q = Pages.get q ⟨[], 0, []⟩ := by
      show Pages.get q s' = _
      simp [Pages.get, (Pages.del_ok hdel).1, GoMap.get?_erase]
    rw [hl] at hq
    cases hq
  · exact hs q M (look_del hdel hqp ▸ hq) hk

end Fits

/-- A run of `m` from a store whose pages fit, when it returns, is the run of `m'`, and
leaves a store whose pages fit. -/
def Sim {α : Type} (m m' : TreeM Pages α) : Prop :=
  ∀ s r s', Fits s → m s = .ok (r, s') → m' s = .ok (r, s') ∧ Fits s'

namespace Sim

variable {α β : Type} {m m' : TreeM Pages α} {f f' : α → TreeM Pages β}

theorem bind (hm : Sim m m') (hf : ∀ a, Sim (f a) (f' a)) : Sim (m >>= f) (m' >>= f') := by
  intro s r s' hs h
  obtain ⟨a, s1, h1, h2⟩ := treeM_bind_ok_iff.mp h
  obtain ⟨h1', hs1⟩ := hm s a s1 hs h1
  obtain ⟨h2', hs'⟩ := hf a s1 r s' hs1 h2
  exact ⟨treeM_bind_ok_iff.mpr ⟨a, s1, h1', h2'⟩, hs'⟩

theorem lift (o : Outcome α) : Sim (liftM o) (liftM o) := fun _ _ _ hs h =>
  ⟨h, (liftM_ok_iff.mp h).2 ▸ hs⟩

theorem pure (a : α) : Sim (Pure.pure a) (Pure.pure a) := fun _ _ _ hs h =>
  ⟨h, (treeM_pure_ok_iff.mp h).2 ▸ hs⟩

theorem throw (e : Fault) : Sim (MonadExcept.throw e : TreeM Pages α) (MonadExcept.throw e) :=
  fun _ _ _ _ h => (treeM_throw_ok_iff.mp h).elim

theorem ite {c : Prop} [Decidable c] {x x' y y' : TreeM Pages α} (hx : Sim x x') (hy : Sim y y') :
    Sim (if c then x else y) (if c then x' else y') := by
  split <;> assumption

theorem getM (p : UInt64) : Sim (harnessPager.getM p) (memPager.getM p) := fun _ _ _ hs h =>
  ⟨h, (getM_ok_iff.mp h).2 ▸ hs⟩

theorem new (node : BNode) : Sim (harnessPager.new node) (memPager.new node) := by
  intro s r s' hs h
  simp only [harnessPager, bind_ok_iff, assert_ok_iff, bounds_ok_iff, exists_const] at h
  obtain ⟨nb, hnb, hle, -, hnew⟩ := h
  exact ⟨hnew, hs.new hnew fun hk => nbytes_size hnb hk ▸ hle⟩

theorem del (p : UInt64) : Sim (harnessPager.del p) (memPager.del p) := by
  intro s r s' hs h
  simp only [harnessPager, bind_ok_iff, assert_ok_iff, exists_const] at h
  exact ⟨h.2, hs.del h.2⟩

end Sim

section Ops

theorem appendKids_sim (idx : Nat) : ∀ (new : BNode) (kids : List BNode) (i : Nat),
    Sim (appendKids harnessPager idx new kids i) (appendKids memPager idx new kids i)
  | new, [], _ => .pure new
  | _, node :: kids, i => .bind (.new node) fun _ => .bind (.lift _) fun _ =>
      .bind (.lift _) fun new => appendKids_sim idx new kids (i + 1)

theorem nodeReplaceKidN_sim (new old : BNode) (idx : Nat) (kids : List BNode) :
    Sim (nodeReplaceKidN harnessPager new old idx kids) (nodeReplaceKidN memPager new old idx kids) :=
  .bind (.lift _) fun _ => .bind (.lift _) fun _ => .bind (.lift _) fun _ =>
    .bind (appendKids_sim idx _ kids 0) fun _ => .lift _

theorem treeInsert_sim : ∀ (fuel : Nat) (node : BNode) (key val : Bytes),
    Sim (treeInsert harnessPager fuel node key val) (treeInsert memPager fuel node key val)
  | 0, _, _, _ => .throw _
  | fuel + 1, _, key, val =>
    .bind (.lift _) fun _ => .bind (.lift _) fun _ =>
      .ite (.bind (.lift _) fun _ => .ite (.lift _) (.lift _))
        (.ite (.bind (.lift _) fun _ => .bind (.getM _) fun _ => .bind (.del _) fun _ =>
            .bind (treeInsert_sim fuel _ key val) fun _ => .bind (.lift _) fun _ =>
              nodeReplaceKidN_sim _ _ _ _)
          (.throw _))

theorem shouldMerge_sim (node : BNode) (idx : Nat) (updated : BNode) :
    Sim (shouldMerge harnessPager node idx updated) (shouldMerge memPager node idx updated) :=
  fun _ _ _ hs h => ⟨h, (shouldMerge_ok h).1 ▸ hs⟩

theorem treeDelete_sim : ∀ (fuel : Nat) (node : BNode) (key : Bytes),
    Sim (treeDelete harnessPager fuel node key) (treeDelete memPager fuel node key)
  | 0, _, _ => .throw _
  | fuel + 1, _, key =>
    .bind (.lift _) fun _ => .bind (.lift _) fun _ =>
      .ite (.bind (.lift _) fun _ => .ite (.pure _) (.lift _))
        (.ite (.bind (.lift _) fun _ => .bind (.getM _) fun _ =>
            .bind (treeDelete_sim fuel _ key) fun _ => .ite (.pure _) (.bind (.pure _) fun _ =>
              .bind (.del _) fun _ => .bind (shouldMerge_sim _ _ _) fun _ =>
                .ite (.bind (.lift _) fun _ => .bind (.lift _) fun _ => .bind (.del _) fun _ =>
                    .bind (.new _) fun _ => .bind (.lift _) fun _ => .lift _)
                  (.ite (.bind (.lift _) fun _ => .bind (.lift _) fun _ => .bind (.del _) fun _ =>
                      .bind (.new _) fun _ => .bind (.lift _) fun _ => .lift _)
                    (.bind (.lift _) fun _ => .bind (.lift _) fun _ => nodeReplaceKidN_sim _ _ _ _))))
          (.throw _))

theorem insert_sim (fuel : Nat) (root : UInt64) (key val : Bytes) :
    Sim (BTree.insert harnessPager fuel root key val) (BTree.insert memPager fuel root key val) := by
  unfold BTree.insert
  dsimp only
  split
  · exact .pure _
  · exact .bind (.pure _) fun _ =>
      .ite (.bind (.lift _) fun _ => .bind (.lift _) fun _ => .bind (.lift _) fun _ =>
          .bind (.new _) fun _ => .pure _)
        (.bind (.pure _) fun _ => .bind (.getM _) fun _ => .bind (.del _) fun _ =>
          .bind (treeInsert_sim _ _ _ _) fun _ => .bind (.lift _) fun _ =>
            .ite (.bind (.lift _) fun _ => .bind (appendKids_sim _ _ _ _) fun _ =>
                .bind (.new _) fun _ => .pure _)
              (.bind (.new _) fun _ => .pure _))

theorem delete_sim (fuel : Nat) (root : UInt64) (key : Bytes) :
    Sim (BTree.delete harnessPager fuel root key) (BTree.delete memPager fuel root key) :=
  .ite (.pure _) (.bind (.pure _) fun _ => .ite (.pure _) (.bind (.pure _) fun _ =>
    .bind (.getM _) fun _ => .bind (treeDelete_sim _ _ _) fun _ =>
      .ite (.pure _) (.bind (.pure _) fun _ => .bind (.del _) fun _ => .bind (.lift _) fun _ =>
        .ite (.bind (.lift _) fun _ => .bind (.pure _) fun _ =>
            .ite (.bind (.lift _) fun _ => .pure _) (.bind (.new _) fun _ => .pure _))
          (.bind (.pure _) fun _ =>
            .ite (.bind (.lift _) fun _ => .pure _) (.bind (.new _) fun _ => .pure _)))))

end Ops

theorem getLoop_harness : ∀ (fuel : Nat) (node : BNode) (key : Bytes),
    BTree.getLoop harnessPager fuel node key = BTree.getLoop memPager fuel node key
  | 0, _, _ => rfl
  | fuel + 1, node, key => by
    simp only [BTree.getLoop, getLoop_harness fuel]
    rfl

theorem get_harness (fuel : Nat) (root : UInt64) (key : Bytes) :
    BTree.get harnessPager fuel root key = BTree.get memPager fuel root key := by
  simp only [BTree.get, getLoop_harness]
  rfl

section Tidy

variable {look : UInt64 → Outcome BNode} {s : Pages} {h : Nat} {node M : BNode} {root q : UInt64}

theorem Shaped.nkeys_under (hs : Shaped look h node) (hu : Under look node q) (hq : look q = .ok M) :
    M.hdrKeys = M.cells.length := by
  induction hu generalizing h with
  | child ht hc =>
    cases hs with
    | leaf ok => exact absurd (ok.btype.symm.trans ht) (by decide)
    | node _ _ hsh => exact (hsh _ hc _ hq).frame.nkeys
  | grand ht hc hk _ ih =>
    cases hs with
    | leaf ok => exact absurd (ok.btype.symm.trans ht) (by decide)
    | node _ _ hsh => exact ih (hsh _ hc _ hk) hq

theorem Tidy.nkeys_of_reach (ht : Tidy s root) (hr : Reach s.look root q) (hq : s.look q = .ok M) :
    M.hdrKeys = M.cells.length := by
  rcases ht.shaped with rfl | ⟨h, node, hn, hs, -⟩
  · rcases hr with rfl | ⟨n, hn, -⟩
    · exact absurd (live_of_get_ok hq) ht.zero
    · exact absurd (live_of_get_ok hn) ht.zero
  · rcases hr with rfl | ⟨n, hn', hu⟩
    · obtain rfl : node = M := Except.ok.inj (hn.symm.trans hq)
      exact hs.frame.nkeys
    · obtain rfl : n = node := Except.ok.inj (hn'.symm.trans hn)
      exact hs.nkeys_under hu hq

end Tidy

namespace C

variable {fuel : Nat} {key val : Bytes} {c c' : C}

/-- The harness's tree and its reference map agree: the store holds exactly the pages of a
shaped tree, which fit a page, and the tree stores under every non-empty key what the map
holds. -/
structure Agrees (c : C) : Prop where
  tidy : Tidy c.mem c.root
  fits : Fits c.mem
  holds : ∃ L, Holds c.mem.look c.root L ∧ ∀ k, k ≠ [] → lookup k L = c.ref.get? k

theorem agrees_newC : newC.Agrees :=
  ⟨.empty, fun q M hq => by simp [Pages.get, Pages.empty, newC] at hq, [], .inl ⟨rfl, rfl⟩,
    fun _ _ => rfl⟩

theorem add_ok {u : Unit} (h : add fuel key val c = .ok (u, c')) : ∃ root err mem,
    BTree.insert harnessPager fuel c.root key val c.mem = .ok ((root, err), mem) ∧
      c' = ⟨root, c.ref.set key val, mem⟩ := by
  simp only [add, bind_ok_iff] at h
  obtain ⟨⟨⟨root, err⟩, mem⟩, hrun, h⟩ := h
  cases h
  exact ⟨root, err, mem, hrun, rfl⟩

theorem del_ok {found : Bool} (h : del fuel key c = .ok (found, c')) : ∃ root mem,
    BTree.delete harnessPager fuel c.root key c.mem = .ok ((root, found), mem) ∧
      c' = ⟨root, if found then c.ref.erase key else c.ref, mem⟩ := by
  simp only [del, bind_ok_iff] at h
  obtain ⟨⟨⟨root, found'⟩, mem⟩, hrun, h⟩ := h
  cases h
  exact ⟨root, mem, hrun, rfl⟩

theorem Agrees.add (hA : c.Agrees) (hin : (Call.add key val).InLimits)
    (h : C.add fuel key val c = .ok ((), c')) : c'.Agrees := by
  obtain ⟨hkey, hk, hv⟩ := hin
  obtain ⟨root, err, mem, hrun, rfl⟩ := add_ok h
  obtain ⟨hrun', hfits⟩ := insert_sim fuel c.root key val c.mem _ _ hA.fits hrun
  obtain ⟨L, hL, hLk⟩ := hA.holds
  obtain ⟨L', hL', hlook⟩ := insert_holds hL hkey hrun'
  have herr : err = none := by
    rcases insert_cases hrun' with ⟨e, he, -⟩ | ⟨-, rfl, -⟩
    · simp [checkLimit, not_lt.mpr hk, not_lt.mpr hv] at he
    · rfl
  refine ⟨(insert_tidy hA.tidy hrun').2.1, hfits, L', hL', fun k hk' => ?_⟩
  rw [hlook k hk', herr, GoMap.get?_set, hLk k hk']
  simp

theorem Agrees.del {found : Bool} (hA : c.Agrees) (hkey : key ≠ [])
    (h : C.del fuel key c = .ok (found, c')) : c'.Agrees := by
  obtain ⟨root, mem, hrun, rfl⟩ := del_ok h
  obtain ⟨hrun', hfits⟩ := delete_sim fuel c.root key c.mem _ _ hA.fits hrun
  obtain ⟨L, hL, hLk⟩ := hA.holds
  have ht := (delete_tidy hA.tidy hrun').2.1
  have hL' := delete_holds hL hkey hA.tidy.zero hrun' fun q M hr hM =>
    hfits q M hM (ht.nkeys_of_reach hr hM)
  refine ⟨ht, hfits, _, hL', fun k hk => ?_⟩
  cases found
  · simpa using hLk k hk
  · rw [if_pos rfl, lookup_filter_ne, if_pos rfl, GoMap.get?_erase, hLk k hk]

theorem Agrees.run : ∀ {c c' : C} (calls : List Call), c.Agrees → (∀ x ∈ calls, x.InLimits) →
    C.run fuel calls c = .ok ((), c') → c'.Agrees
  | _, _, [], hA, _, h => by
    cases h
    exact hA
  | c, c', x :: calls, hA, hin, h => by
    obtain ⟨u, c1, hx, hrest⟩ := treeM_bind_ok_iff.mp h
    refine Agrees.run calls ?_ (fun y hy => hin y (.tail _ hy)) hrest
    cases x with
    | add key val => exact hA.add (hin _ (.head _)) hx
    | del key =>
      obtain ⟨found, c2, hd, hp⟩ := treeM_bind_ok_iff.mp hx
      obtain ⟨-, rfl⟩ := treeM_pure_ok_iff.mp hp
      exact hA.del (hin _ (.head _)).1 hd

end C

/-- Every test run of `add` and `del` calls with non-empty keys and keys and values within
the limits, from `newC()`, that returns: with enough fuel, `Get` of every non-empty key reads
what the reference map holds, and changes nothing. -/
theorem run_get_eq_ref {fuel : Nat} {calls : List Call} {c : C} (hin : ∀ x ∈ calls, x.InLimits)
    (hrun : C.run fuel calls newC = .ok ((), c)) {k : Bytes} (hk : k ≠ []) :
    ∃ n, ∀ fuel', n ≤ fuel' → BTree.get harnessPager fuel' c.root k c.mem = .ok (c.ref.get? k, c.mem) := by
  obtain ⟨L, hL, hLk⟩ := (C.Agrees.run calls C.agrees_newC hin hrun).holds
  obtain ⟨n, hn⟩ := hL.get k
  exact ⟨n, fun fuel' hf => by rw [get_harness, hn fuel' hf, hLk k hk]⟩

theorem two_adds_del_get_ref :
    (∀ x ∈ [Call.add [1] [2], .add [3] [4], .del [1]], x.InLimits) ∧
      C.run 2 [.add [1] [2], .add [3] [4], .del [1]] newC =
        .ok ((), ⟨3, [([3], [4])], ⟨[(3, ⟨BNODE_LEAF, 2, [⟨0, [], []⟩, ⟨0, [3], [4]⟩],
          BTREE_PAGE_SIZE⟩)], 3, [1, 2]⟩⟩) ∧ ([1] : Bytes) ≠ [] ∧
      ∃ n, ∀ fuel', n ≤ fuel' → BTree.get harnessPager fuel' 3 [1]
          ⟨[(3, ⟨BNODE_LEAF, 2, [⟨0, [], []⟩, ⟨0, [3], [4]⟩], BTREE_PAGE_SIZE⟩)], 3, [1, 2]⟩ =
        .ok (GoMap.get? [([3], [4])] [1],
          ⟨[(3, ⟨BNODE_LEAF, 2, [⟨0, [], []⟩, ⟨0, [3], [4]⟩], BTREE_PAGE_SIZE⟩)], 3, [1, 2]⟩) := by
  refine ⟨?hin, ?run, by decide, run_get_eq_ref ?hin ?run (by decide)⟩
  · decide
  · rfl

end GoMiniDb.Storage
