import GoMiniDb.Storage.Iterator
import GoMiniDb.Storage.Split
import GoMiniDb.Storage.Shape
import GoMiniDb.Storage.Fuel

/-! # The order in which the iterator visits a tree

A tree is read one depth at a time: the cells at depth `d + 1` are the cells of the
children of the cells at depth `d`, left to right, and at the leaf depth they are the
entries in key order, from the sentinel on. An iterator whose every level holds the child
that the index of the level above points to stands at one cell of each depth, its rank
there: the rank at depth `d + 1` is the number of cells below the cells of depth `d`
before its parent, plus its own index. `nodeLookupLE` at every level makes `SeekLE` stop
at the last entry at or below the key. `iterNext` at a level moves the rank at that depth
on by one and points the level below at the first cell of the new child, which moves the
rank at the depth below on by one too; at the last entry of the tree it still leaves every
level holding the child the level above points to. `iterPrev` is the mirror image.
-/
namespace GoMiniDb.Storage

open BNode

section Depths

variable (look : UInt64 → Outcome BNode)

/-- The cells of the child a cell points to, none if the pointer reads no node. -/
def kidCells (c : Cell) : List Cell :=
  match look c.ptr with
  | .ok kid => kid.cells
  | .error _ => []

/-- The cells at depth `d` below `node`, left to right. -/
def cellsAt : Nat → BNode → List Cell
  | 0, node => node.cells
  | d + 1, node => (cellsAt d node).flatMap (kidCells look)

/-- The cells at depth `d` below the child a cell points to. -/
def cellsBelow (d : Nat) (c : Cell) : List Cell :=
  match look c.ptr with
  | .ok kid => cellsAt look d kid
  | .error _ => []

/-- How many cells of depth `d + 1` lie below the first `r` cells of depth `d`. -/
def rankBelow (root : BNode) (d r : Nat) : Nat :=
  (((cellsAt look d root).take r).flatMap (kidCells look)).length

end Depths

section DepthLemmas

variable {look : UInt64 → Outcome BNode} {root : BNode}

@[simp] theorem cellsAt_zero (node : BNode) : cellsAt look 0 node = node.cells := rfl

@[simp] theorem cellsAt_succ (d : Nat) (node : BNode) :
    cellsAt look (d + 1) node = (cellsAt look d node).flatMap (kidCells look) := rfl

theorem kidCells_of_look {c : Cell} {kid : BNode} (h : look c.ptr = .ok kid) :
    kidCells look c = kid.cells := by
  simp [kidCells, h]

theorem cellsBelow_of_look {c : Cell} {kid : BNode} (d : Nat) (h : look c.ptr = .ok kid) :
    cellsBelow look d c = cellsAt look d kid := by
  simp [cellsBelow, h]

theorem cellsAt_succ_top : ∀ (d : Nat) (node : BNode),
    cellsAt look (d + 1) node = node.cells.flatMap (cellsBelow look d)
  | 0, _ => rfl
  | d + 1, node => by
    rw [cellsAt_succ, cellsAt_succ_top d, List.flatMap_assoc]
    congr 1
    funext c
    unfold cellsBelow
    cases look c.ptr <;> rfl

theorem getElem?_flatMap_take {α β : Type} {L : List α} {f : α → List β} {r j : Nat} {c : α}
    (hc : L[r]? = some c) (hj : j < (f c).length) :
    (L.flatMap f)[((L.take r).flatMap f).length + j]? = (f c)[j]? := by
  obtain ⟨hr, rfl⟩ := List.getElem?_eq_some_iff.mp hc
  have hL : L.flatMap f = (L.take r).flatMap f ++ (f L[r] ++ (L.drop (r + 1)).flatMap f) := by
    rw [← List.flatMap_cons, ← List.flatMap_append, ← List.drop_eq_getElem_cons hr,
        List.take_append_drop]
  rw [hL, List.getElem?_append_right (by omega), Nat.add_sub_cancel_left,
      List.getElem?_append_left hj]

theorem drop_flatMap_take {α β : Type} {L : List α} {f : α → List β} {r j : Nat} {c : α}
    (hc : L[r]? = some c) (hj : j < (f c).length) :
    (L.flatMap f).drop (((L.take r).flatMap f).length + j + 1) = (f c).drop (j + 1) ++
    (L.drop (r + 1)).flatMap f := by
  obtain ⟨hr, rfl⟩ := List.getElem?_eq_some_iff.mp hc
  have hL : L.flatMap f = (L.take r).flatMap f ++ (f L[r] ++ (L.drop (r + 1)).flatMap f) := by
    rw [← List.flatMap_cons, ← List.flatMap_append, ← List.drop_eq_getElem_cons hr,
        List.take_append_drop]
  rw [hL, Nat.add_assoc, List.drop_append, List.drop_append_of_le_length (by omega)]

theorem rankBelow_succ {d r : Nat} {c : Cell} (hc : (cellsAt look d root)[r]? = some c) :
    rankBelow look root d (r + 1) = rankBelow look root d r + (kidCells look c).length := by
  simp [rankBelow, List.take_succ, hc, List.flatMap_append]

@[simp] theorem rankBelow_zero (d : Nat) : rankBelow look root d 0 = 0 := by
  simp [rankBelow]

theorem rankBelow_length (d : Nat) :
    rankBelow look root d (cellsAt look d root).length = (cellsAt look (d + 1) root).length := by
  simp [rankBelow, List.take_length]

end DepthLemmas

section Lookup

variable {node : BNode} {key : Bytes}

theorem NodeOk.filled {t : Nat} (ok : NodeOk t node) : Filled node :=
  ⟨ok.nkeys, ok.fits, by have := ok.page; unfold BTREE_PAGE_SIZE at this; omega⟩

theorem sorted_succ (hs : node.keys.Pairwise bytesLt) {i : Nat} {a b : Cell}
    (ha : node.cells[i]? = some a)
    (hb : node.cells[i + 1]? = some b) : bytesLt a.key b.key := by
  obtain ⟨hi, rfl⟩ := List.getElem?_eq_some_iff.mp ha
  obtain ⟨hi', rfl⟩ := List.getElem?_eq_some_iff.mp hb
  rw [BNode.keys, List.pairwise_map, List.pairwise_iff_getElem] at hs
  exact hs i (i + 1) hi hi' (Nat.lt_succ_self i)

/-- What `nodeLookupLE` returns: an index of the node whose key is at or below `key` unless
it is the first, with the next key, if any, above `key`. -/
def LookupLE (node : BNode) (key : Bytes) (idx : Nat) : Prop :=
  ∃ c, node.cells[idx]? = some c ∧ (idx = 0 ∨ KeyLe c.key key) ∧
    ∀ c', node.cells[idx + 1]? = some c' → bytesLt key c'.key

theorem lookupLoop_spec (hf : Filled node) (hs : node.keys.Pairwise bytesLt) :
    ∀ (k i found : Nat), found + 1 = i → i + k = node.cells.length →
      (found = 0 ∨ ∃ c, node.cells[found]? = some c ∧ bytesLt c.key key) →
      ∃ idx, lookupLoop node key i found k = .ok idx ∧ LookupLE node key idx
  | 0, i, found, hi, hk, hfound => by
    obtain ⟨c, hc⟩ : ∃ c, node.cells[found]? = some c :=
      ⟨_, List.getElem?_eq_getElem (show found < node.cells.length by omega)⟩
    refine ⟨found, rfl, c, hc, hfound.imp_right fun ⟨c', hc', hlt⟩ => ?_, fun c' hc' => ?_⟩
    · exact absurd (List.getElem?_eq_some_iff.mp hc').1 (by omega)
    · rw [hc] at hc'; cases hc'
      exact .of_lt hlt
  | k + 1, i, found, hi, hk, hfound => by
    obtain ⟨c, hc⟩ : ∃ c, node.cells[i]? = some c :=
      ⟨_, List.getElem?_eq_getElem (show i < node.cells.length by omega)⟩
    rw [lookupLoop, getKey_eq hf hc, except_ok_bind]
    match hcmp : bytesCompare c.key key with
    | .lt =>
      exact lookupLoop_spec hf hs k (i + 1) i rfl (by omega) (.inr ⟨c, hc, hcmp⟩)
    | .eq =>
      refine ⟨i, rfl, c, hc, .inr (bytesCompare_eq_eq hcmp ▸ .refl _), fun c' hc' => ?_⟩
      exact bytesCompare_eq_eq hcmp ▸ sorted_succ hs hc hc'
    | .gt =>
      refine ⟨found, rfl, ?_⟩
      obtain ⟨c0, hc0⟩ : ∃ c, node.cells[found]? = some c :=
        ⟨_, List.getElem?_eq_getElem (show found < node.cells.length by omega)⟩
      refine ⟨c0, hc0, hfound.imp_right fun ⟨c', hc', hlt⟩ => ?_, fun c' hc' => ?_⟩
      · rw [hi, hc] at hc'; cases hc'
        exact bytesCompare_eq_gt hcmp
      · rw [hc0] at hc'; cases hc'
        exact .of_lt hlt

theorem nodeLookupLE_spec {t : Nat} (ok : NodeOk t node) :
    ∃ idx, nodeLookupLE node key = .ok idx ∧ LookupLE node key idx := by
  have hf := ok.filled
  have hn : 0 < node.cells.length := List.length_pos.mpr ok.nonempty
  have h4 : 4 ≤ node.len := by have := hf.header; unfold HEADER at this; omega
  rw [nodeLookupLE, nkeys_eq h4, except_ok_bind, ok.nkeys]
  exact lookupLoop_spec hf ok.sorted _ 1 0 rfl (by omega) (.inl rfl)

end Lookup

section Tree

variable {look : UInt64 → Outcome BNode} {h : Nat} {node : BNode} {lo : Bytes} {hi : Option Bytes}

theorem NodeOk.lo_le {t : Nat} (ok : NodeOk t node) (hhead : node.keys.head? = some lo) {c : Cell}
    (hc : c ∈ node.cells) : KeyLe lo c.key := by
  obtain ⟨h0, hlo⟩ := head_eq_get ok hhead
  obtain ⟨⟨i, hi'⟩, rfl⟩ := List.mem_iff_get.mp hc
  exact hlo ▸ ok.key_le (Nat.zero_le i) hi'

theorem Subtree.lo_le (hs : Subtree look h node lo hi) {c : Cell} (hc : c ∈ node.cells) :
    KeyLe lo c.key :=
  hs.nodeOk.lo_le hs.head hc

theorem Subtree.kid_of_mem (hs : Subtree look (h + 1) node lo hi) {c : Cell} (hc : c ∈ node.cells) :
    ∃ kid hi', look c.ptr = .ok kid ∧ Subtree look h kid c.key hi' := by
  cases hs with
  | node _ _ hex hsub =>
    obtain ⟨⟨i, hi'⟩, rfl⟩ := List.mem_iff_get.mp hc
    obtain ⟨kid, hk⟩ := hex i hi'
    exact ⟨kid, _, hk, hsub i hi' kid hk⟩

theorem Subtree.mem_cellsAt (hs : Subtree look h node lo hi) :
    ∀ d, d ≤ h → ∀ c ∈ cellsAt look d node,
      ∃ n lo' hi', Subtree look (h - d) n lo' hi' ∧ c ∈ n.cells
  | 0, _, c, hc => ⟨node, lo, hi, hs, hc⟩
  | d + 1, hd, c, hc => by
    obtain ⟨c', hc', hcc⟩ := List.mem_flatMap.mp hc
    obtain ⟨n, lo', hi', hn, hmem⟩ := hs.mem_cellsAt d (by omega) c' hc'
    rw [show h - d = h - (d + 1) + 1 by omega] at hn
    obtain ⟨kid, hi'', hk, hkid⟩ := hn.kid_of_mem hmem
    exact ⟨kid, _, _, hkid, by rwa [kidCells_of_look hk] at hcc⟩

theorem Subtree.kid_at (hs : Subtree look h node lo hi) {d : Nat} (hd : d < h) {c : Cell}
    (hc : c ∈ cellsAt look d node) :
    ∃ kid hi', look c.ptr = .ok kid ∧ Subtree look (h - (d + 1)) kid c.key hi' := by
  obtain ⟨n, lo', hi', hn, hmem⟩ := hs.mem_cellsAt d hd.le c hc
  rw [show h - d = h - (d + 1) + 1 by omega] at hn
  exact hn.kid_of_mem hmem

theorem Subtree.cellsAt_sorted (hs : Subtree look h node lo hi) :
    ((cellsAt look h node).map Cell.key).Pairwise bytesLt ∧
      (cellsAt look h node).head?.map Cell.key = some lo ∧
      ∀ c ∈ cellsAt look h node, KeyLe lo c.key ∧ Below c.key hi := by
  induction hs with
  | @leaf node lo hi ok hhead hbelow _ =>
    refine ⟨ok.sorted, by rw [cellsAt_zero, ← List.head?_map]; exact hhead, fun c hc => ⟨?_, ?_⟩⟩
    · exact ok.lo_le hhead hc
    · exact hbelow c.key (List.mem_map_of_mem _ hc)
  | @node h node lo hi ok hhead hex hsub ih =>
    have hkeys := (Subtree.node ok hhead hex hsub).keys_below
    simp only [List.get_eq_getElem] at hex hsub ih
    have hkid : ∀ i (hi' : i < node.cells.length), ∃ kid,
        cellsBelow look h node.cells[i] = cellsAt look h kid ∧
        ((cellsAt look h kid).map Cell.key).Pairwise bytesLt ∧
        (cellsAt look h kid).head?.map Cell.key = some node.cells[i].key ∧
        ∀ c ∈ cellsAt look h kid, KeyLe node.cells[i].key c.key ∧
          Below c.key ((node.keys.get? (i + 1)).or hi) := fun i hi' => by
      obtain ⟨kid, hk⟩ := hex i hi'
      exact ⟨kid, cellsBelow_of_look h hk, ih i hi' kid hk⟩
    rw [cellsAt_succ_top]
    refine ⟨?_, ?_, fun c hc => ?_⟩
    · rw [List.pairwise_map, List.pairwise_flatMap, List.pairwise_iff_getElem]
      refine ⟨fun a ha => ?_, fun i j hi' hj hij x hx y hy => ?_⟩
      · obtain ⟨⟨i, hi'⟩, rfl⟩ := List.mem_iff_get.mp ha
        obtain ⟨kid, he, hsort, -⟩ := hkid i hi'
        rw [List.get_eq_getElem, he, ← List.pairwise_map]
        exact hsort
      · obtain ⟨kid, he, -, -, hb⟩ := hkid i hi'
        obtain ⟨kid', he', -, -, hb'⟩ := hkid j hj
        rw [he] at hx
        rw [he'] at hy
        have hx' := (hb x hx).2
        rw [keys_get?_succ (by omega), Option.or_some] at hx'
        exact bytesLt_of_lt_of_le (bytesLt_of_lt_of_le hx' (ok.key_le (show i + 1 ≤ j by omega) hj))
          (hb' y hy).1
    · obtain ⟨c0, cs, hcs⟩ := List.exists_cons_of_ne_nil ok.nonempty
      obtain ⟨kid, he, -, hhd, -⟩ := hkid 0 (by simp [hcs])
      have hlo : c0.key = lo := by simpa [BNode.keys, hcs] using hhead
      simp only [hcs, List.getElem_cons_zero, hlo] at he hhd
      obtain ⟨a, ha, rfl⟩ := Option.map_eq_some'.mp hhd
      simp [hcs, he, ha]
    · obtain ⟨a, ha, hca⟩ := List.mem_flatMap.mp hc
      obtain ⟨⟨i, hi'⟩, rfl⟩ := List.mem_iff_get.mp ha
      obtain ⟨kid, he, -, -, hb⟩ := hkid i hi'
      rw [List.get_eq_getElem, he] at hca
      exact ⟨(ok.lo_le hhead (List.getElem_mem hi')).trans (hb c hca).1,
        below_of_below_next hkeys (hb c hca).2⟩

end Tree

/-- Levels `0` to `d` of `iter` hold a path down from `root`: each index lies inside the
node of its level, each level below the root holds the child that the index above points
to, and level `d` holds `node` at index `p`, the `r`-th cell at depth `d`. -/
inductive Walk (look : UInt64 → Outcome BNode) (root : BNode) (iter : BIter) :
    Nat → Nat → BNode → Nat → Prop
  | root {i : Nat} : iter.path[0]? = some root → iter.pos[0]? = some i → i < root.cells.length →
      Walk look root iter 0 i root i
  | down {d r p j : Nat} {node kid : BNode} {c : Cell} : Walk look root iter d r node p →
      node.cells[p]? = some c → look c.ptr = .ok kid → iter.path[d + 1]? = some kid →
      iter.pos[d + 1]? = some j → j < kid.cells.length →
      Walk look root iter (d + 1) (rankBelow look root d r + j) kid j

section Walks

variable {look : UInt64 → Outcome BNode} {root : BNode} {iter iter' : BIter}
  {d r p : Nat} {node : BNode}

theorem Walk.get (hw : Walk look root iter d r node p) :
    iter.path[d]? = some node ∧ iter.pos[d]? = some p ∧ p < node.cells.length := by
  cases hw with
  | root h0 h1 h2 => exact ⟨h0, h1, h2⟩
  | down _ _ _ h0 h1 h2 => exact ⟨h0, h1, h2⟩

theorem Walk.cell (hw : Walk look root iter d r node p) : (cellsAt look d root)[r]? =
    node.cells[p]? := by
  induction hw with
  | root => rfl
  | down _ hc hk _ _ hj ih =>
    rw [cellsAt_succ, rankBelow, getElem?_flatMap_take (ih.trans hc) (by rwa [kidCells_of_look hk]),
      kidCells_of_look hk]

theorem Walk.rank_lt (hw : Walk look root iter d r node p) : r < (cellsAt look d root).length := by
  have h := hw.cell
  rw [List.getElem?_eq_getElem hw.get.2.2] at h
  exact (List.getElem?_eq_some_iff.mp h).1

theorem Walk.unique {r' p' : Nat} {node' : BNode} (hw : Walk look root iter d r node p)
    (hw' : Walk look root iter d r' node' p') : r = r' ∧ node = node' ∧ p = p' := by
  induction hw generalizing r' node' p' with
  | root h0 h1 =>
    cases hw' with
    | root h0' h1' => simp_all
  | down _ hc hk h0 h1 _ ih =>
    cases hw' with
    | down hw' hc' hk' h0' h1' =>
      obtain ⟨rfl, rfl, rfl⟩ := ih hw'
      rw [hc] at hc'
      cases hc'
      simp_all

theorem Walk.frame (hagree : ∀ k ≤ d, iter'.path[k]? = iter.path[k]? ∧ iter'.pos[k]? = iter.pos[k]?)
    (hw : Walk look root iter d r node p) : Walk look root iter' d r node p := by
  induction hw with
  | root h0 h1 h2 =>
    obtain ⟨e0, e1⟩ := hagree 0 le_rfl
    exact .root (e0.trans h0) (e1.trans h1) h2
  | down _ hc hk h0 h1 hj ih =>
    obtain ⟨e0, e1⟩ := hagree _ le_rfl
    exact .down (ih fun k hk => hagree k (by omega)) hc hk (e0.trans h0) (e1.trans h1) hj

theorem Walk.prefix (hw : Walk look root iter d r node p) {l : Nat} (hl : l ≤ d) :
    ∃ r' node' p', Walk look root iter l r' node' p' := by
  induction hw with
  | root h0 h1 h2 =>
    obtain rfl := Nat.le_zero.mp hl
    exact ⟨_, _, _, .root h0 h1 h2⟩
  | @down d _ _ _ _ _ _ hw _ _ _ _ _ ih =>
    rcases Nat.lt_or_eq_of_le hl with h | rfl
    · exact ih (by omega)
    · exact ⟨_, _, _, .down hw ‹_› ‹_› ‹_› ‹_› ‹_›⟩

theorem Walk.up (hw : Walk look root iter (d + 1) r node p) :
    ∃ r0 node0 p0 c, Walk look root iter d r0 node0 p0 ∧ node0.cells[p0]? = some c ∧
      look c.ptr = .ok node ∧ r = rankBelow look root d r0 + p := by
  cases hw with
  | down hw hc hk => exact ⟨_, _, _, _, hw, hc, hk, rfl⟩

theorem Walk.set_below {k x : Nat} (hw : Walk look root iter d r node p) (hk : d < k)
    (kid : BNode) :
    Walk look root ⟨iter.path.set k kid, iter.pos.set k x⟩ d r node p :=
  hw.frame fun j hj => ⟨List.getElem?_set_ne (by omega), List.getElem?_set_ne (by omega)⟩

theorem Walk.shift {x : Nat} (hw : Walk look root iter d r node p) (hx : x < node.cells.length) :
    Walk look root { iter with pos := iter.pos.set d x } d (r + x - p) node x := by
  have hset : ({ iter with pos := iter.pos.set d x } : BIter).pos[d]? = some x :=
    List.getElem?_set_self (List.getElem?_eq_some_iff.mp hw.get.2.1).1
  cases hw with
  | root h0 =>
    have hw' : Walk look root { iter with pos := iter.pos.set 0 x } 0 x root x := .root h0 hset hx
    simpa using hw'
  | @down d r0 _ _ node0 _ _ hw hc hk h0 =>
    have hagree : ∀ j ≤ d, ({ iter with pos := iter.pos.set (d + 1) x } : BIter).path[j]? =
        iter.path[j]? ∧
        ({ iter with pos := iter.pos.set (d + 1) x } : BIter).pos[j]? = iter.pos[j]? :=
      fun j hj => ⟨rfl, List.getElem?_set_ne (by omega)⟩
    have hw0 := hw.frame hagree
    have hw' := Walk.down hw0 hc hk h0 hset hx
    rwa [show rankBelow look root d r0 + p + x - p = rankBelow look root d r0 + x by omega]

theorem Walk.subtree {H : Nat} {lo : Bytes} {hi : Option Bytes} (hs : Subtree look H root lo hi)
    (hw : Walk look root iter d r node p) (hd : d ≤ H) :
    ∃ lo' hi', Subtree look (H - d) node lo' hi' := by
  induction hw with
  | root => exact ⟨lo, hi, hs⟩
  | @down d _ _ _ _ _ _ _ hc hk _ _ _ ih =>
    obtain ⟨lo', hi', hn⟩ := ih (by omega)
    rw [show H - d = H - (d + 1) + 1 by omega] at hn
    obtain ⟨kid', hi'', hk', hkid⟩ := hn.kid_of_mem (List.getElem?_mem hc)
    rw [hk] at hk'
    cases hk'
    exact ⟨_, _, hkid⟩

theorem Under.trans {top kid : BNode} {q q' : UInt64} (hu : Under look top q) (hk : look q = .ok kid)
    (hu' : Under look kid q') : Under look top q' := by
  induction hu with
  | child ht hc => exact .grand ht hc hk hu'
  | grand ht hc hk' _ ih => exact .grand ht hc hk' (ih hk)

theorem Walk.under {H : Nat} {lo : Bytes} {hi : Option Bytes} (hs : Subtree look H root lo hi)
    (hw : Walk look root iter d r node p) (hd : d < H) {c : Cell} (hc : node.cells[p]? = some c) :
    Under look root c.ptr := by
  have internal : ∀ {m : Nat} {n : BNode} {lo' : Bytes} {hi' : Option Bytes},
      Subtree look (m + 1) n lo' hi' → n.hdrType = BNODE_NODE := fun hn => by
    simpa using hn.nodeOk.btype
  induction hw generalizing c with
  | root => exact .child (internal (by rwa [show H = H - 1 + 1 by omega] at hs)) (List.getElem?_mem hc)
  | @down d _ _ _ _ kid c0 hw0 hc0 hk _ _ _ ih =>
    obtain ⟨lo', hi', hkid⟩ := (Walk.down hw0 hc0 hk ‹_› ‹_› ‹_›).subtree hs (by omega)
    rw [show H - (d + 1) = H - (d + 2) + 1 by omega] at hkid
    exact (ih (by omega) hc0).trans hk (.child (internal hkid) (List.getElem?_mem hc))

end Walks

/-- `iter` stands at the `R`-th entry of the tree of height `H` under `root`: its path runs
from the root to a leaf, each level holding the child that the index above points to. -/
structure Positioned (look : UInt64 → Outcome BNode) (root : BNode) (H : Nat) (iter : BIter)
    (R : Nat) :
    Prop where
  path_len : iter.path.length = H + 1
  pos_len : iter.pos.length = H + 1
  walk : ∃ leaf q, Walk look root iter H R leaf q

theorem goAt_eq {α : Type} {xs : List α} {i : Nat} {a : α} (h : xs[i]? = some a) :
    goAt xs i = .ok a := by
  simp [goAt, h]

section Moves

variable {look : UInt64 → Outcome BNode} {root : BNode} {H : Nat} {lo : Bytes} {hi : Option Bytes}
  {iter : BIter}

theorem kidUpdate_last {start : BNode → Outcome Nat} {d : Nat} (h : iter.pos.length ≤ d + 1) :
    kidUpdate look start d iter = .ok iter := by
  simp [kidUpdate, Nat.not_lt.mpr h]

theorem kidUpdate_walk {start : BNode → Outcome Nat} {d r p j : Nat} {node kid : BNode} {c : Cell}
    (hs : Subtree look H root lo hi) (hlen : iter.path.length = H + 1)
    (hlen' : iter.pos.length = H + 1)
    (hw : Walk look root iter d r node p) (hd : d < H) (hc : node.cells[p]? = some c)
    (hk : look c.ptr = .ok kid) (hj : start kid = .ok j) (hjl : j < kid.cells.length) :
    kidUpdate look start d iter = .ok ⟨iter.path.set (d + 1) kid, iter.pos.set (d + 1) j⟩ ∧
      Walk look root ⟨iter.path.set (d + 1) kid, iter.pos.set (d + 1) j⟩ d r node p ∧
      Walk look root ⟨iter.path.set (d + 1) kid, iter.pos.set (d + 1) j⟩ (d + 1)
        (rankBelow look root d r + j) kid j := by
  obtain ⟨hpath, hpos, -⟩ := hw.get
  obtain ⟨lo', hi', hn⟩ := hw.subtree hs hd.le
  have hold : iter.path[d + 1]? = some iter.path[d + 1] := List.getElem?_eq_getElem (by omega)
  have hw' := hw.set_below (x := j) (Nat.lt_succ_self d) kid
  refine ⟨?_, hw', .down hw' hc hk (List.getElem?_set_self (by omega))
      (List.getElem?_set_self (by omega)) hjl⟩
  rw [kidUpdate, if_pos (by omega)]
  simp only [goAt_eq hpath, goAt_eq hpos, getPtr_eq hn.nodeOk.filled hc, hk, goAt_eq hold, hj,
      except_ok_bind]
  rfl

section Unfold

variable {l p : Nat} {node : BNode}

theorem iterNext_advance (hpos : iter.pos[l]? = some p) (hpath : iter.path[l]? = some node)
    (hf : Filled node) (hsmall : node.hdrKeys < 65536) (hadv : p + 1 < node.hdrKeys) :
    iterNext look l iter = kidUpdate look firstIdx l
        { iter with pos := iter.pos.set l (p + 1) } := by
  have h4 : 4 ≤ node.len := by have := hf.header; unfold HEADER at this; omega
  rw [iterNext.eq_def]
  simp only [goAt_eq hpos, goAt_eq hpath, except_ok_bind, nkeys_eq h4,
    u16_of_lt (show p + 1 < 65536 by omega), if_pos hadv]

theorem iterNext_root (hpos : iter.pos[0]? = some p) (hpath : iter.path[0]? = some node)
    (hf : Filled node) (hsmall : node.hdrKeys < 65536) (hp : p < node.hdrKeys)
    (hstay : ¬ p + 1 < node.hdrKeys) : iterNext look 0 iter = .ok iter := by
  have h4 : 4 ≤ node.len := by have := hf.header; unfold HEADER at this; omega
  rw [iterNext.eq_def]
  simp only [goAt_eq hpos, goAt_eq hpath, except_ok_bind, nkeys_eq h4,
    u16_of_lt (show p + 1 < 65536 by omega), if_neg hstay]
  rfl

theorem iterNext_climb (hpos : iter.pos[l + 1]? = some p) (hpath : iter.path[l + 1]? = some node)
    (hf : Filled node) (hsmall : node.hdrKeys < 65536) (hp : p < node.hdrKeys)
    (hstay : ¬ p + 1 < node.hdrKeys) :
    iterNext look (l + 1) iter = iterNext look l iter >>= kidUpdate look firstIdx (l + 1) := by
  have h4 : 4 ≤ node.len := by have := hf.header; unfold HEADER at this; omega
  rw [iterNext.eq_def]
  simp only [goAt_eq hpos, goAt_eq hpath, except_ok_bind, nkeys_eq h4,
    u16_of_lt (show p + 1 < 65536 by omega), if_neg hstay]

theorem iterPrev_retreat (hpos : iter.pos[l]? = some p) (hp0 : 0 < p) (hp : p < 65536) :
    iterPrev look l iter = kidUpdate look lastIdx l
        { iter with pos := iter.pos.set l (p - 1) } := by
  rw [iterPrev.eq_def]
  simp only [goAt_eq hpos, except_ok_bind, if_pos hp0]
  rw [show u16 (p + 65535) = p - 1 by unfold u16; omega]

theorem iterPrev_root (hpos : iter.pos[0]? = some 0) : iterPrev look 0 iter = .ok iter := by
  rw [iterPrev.eq_def]
  simp only [goAt_eq hpos, except_ok_bind, Nat.lt_irrefl, if_false]
  rfl

theorem iterPrev_climb (hpos : iter.pos[l + 1]? = some 0) :
    iterPrev look (l + 1) iter = iterPrev look l iter >>= kidUpdate look lastIdx (l + 1) := by
  rw [iterPrev.eq_def]
  simp only [goAt_eq hpos, except_ok_bind, Nat.lt_irrefl, if_false]

theorem lastIdx_eq {kid : BNode} (hf : Filled kid) (hne : 0 < kid.hdrKeys)
    (hsmall : kid.hdrKeys < 65536) :
    lastIdx kid = .ok (kid.hdrKeys - 1) := by
  have h4 : 4 ≤ kid.len := by have := hf.header; unfold HEADER at this; omega
  have hu : u16 (kid.hdrKeys + 65535) = kid.hdrKeys - 1 := by unfold u16; omega
  simp only [lastIdx, nkeys_eq h4, except_ok_bind, hu]
  rfl

end Unfold

theorem kidUpdate_first {d r p : Nat} {node : BNode} (hs : Subtree look H root lo hi)
    (hlen : iter.path.length = H + 1) (hlen' : iter.pos.length = H + 1)
    (hw : Walk look root iter d r node p) (hd : d < H) :
    ∃ iter', kidUpdate look firstIdx d iter = .ok iter' ∧ Walk look root iter' d r node p ∧
      ∃ kid, Walk look root iter' (d + 1) (rankBelow look root d r) kid 0 := by
  obtain ⟨c, hc⟩ : ∃ c, node.cells[p]? = some c := ⟨_, List.getElem?_eq_getElem hw.get.2.2⟩
  obtain ⟨kid, _, hk, hks⟩ := hs.kid_at hd (List.getElem?_mem (hw.cell.trans hc))
  obtain ⟨hu, hw1, hw2⟩ := kidUpdate_walk hs hlen hlen' hw hd hc hk
      (show firstIdx kid = .ok 0 from rfl)
    (List.length_pos.mpr hks.nodeOk.nonempty)
  exact ⟨_, hu, hw1, kid, hw2⟩

theorem kidUpdate_lastIdx {d r p : Nat} {node : BNode} (hs : Subtree look H root lo hi)
    (hlen : iter.path.length = H + 1) (hlen' : iter.pos.length = H + 1)
    (hw : Walk look root iter d r node p) (hd : d < H) :
    ∃ iter', kidUpdate look lastIdx d iter = .ok iter' ∧ Walk look root iter' d r node p ∧
      ∃ kid q, Walk look root iter' (d + 1) (rankBelow look root d (r + 1) - 1) kid q := by
  obtain ⟨c, hc⟩ : ∃ c, node.cells[p]? = some c := ⟨_, List.getElem?_eq_getElem hw.get.2.2⟩
  obtain ⟨kid, _, hk, hks⟩ := hs.kid_at hd (List.getElem?_mem (hw.cell.trans hc))
  have ok := hks.nodeOk
  have hne := List.length_pos.mpr ok.nonempty
  obtain ⟨hu, hw1, hw2⟩ := kidUpdate_walk hs hlen hlen' hw hd hc hk
    (lastIdx_eq ok.filled (ok.nkeys ▸ hne) ok.small) (by rw [ok.nkeys]; omega)
  have hsucc := rankBelow_succ (hw.cell.trans hc)
  rw [kidCells_of_look hk] at hsucc
  rw [show rankBelow look root d r + (kid.hdrKeys - 1) = rankBelow look root d (r + 1) - 1 by
    rw [ok.nkeys]; omega] at hw2
  exact ⟨_, hu, hw1, kid, _, hw2⟩

/-- What `iterNext` at level `l` leaves, from an iterator at rank `r` of depth `l`: the levels
down to the one below `l` (or to the leaf) hold a walk, and unless `r` is the last rank of
its depth, that walk stands at rank `r + 1` of depth `l` and at the first cell of the new
child below. -/
def NextOut (look : UInt64 → Outcome BNode) (root : BNode) (H l r : Nat) (iter' : BIter) : Prop :=
  (∃ r' node' p', Walk look root iter' (min (l + 1) H) r' node' p') ∧
    (r + 1 < (cellsAt look l root).length →
      (∃ node' p', Walk look root iter' l (r + 1) node' p') ∧
      (l < H → ∃ node' p', Walk look root iter' (l + 1) (rankBelow look root l (r + 1)) node' p'))

theorem iterNext_within {R l r p : Nat} {node : BNode} (hs : Subtree look H root lo hi)
    (hP : Positioned look root H iter R) (hw : Walk look root iter l r node p) (hl : l ≤ H)
    (hadv : p + 1 < node.cells.length) :
    ∃ iter', iterNext look l iter = .ok iter' ∧ NextOut look root H l r iter' := by
  obtain ⟨hpath, hpos, -⟩ := hw.get
  obtain ⟨lo', hi', hn⟩ := hw.subtree hs hl
  have ok := hn.nodeOk
  rw [iterNext_advance hpos hpath ok.filled ok.small (ok.nkeys ▸ hadv)]
  have hwA := hw.shift hadv
  rw [show r + (p + 1) - p = r + 1 by omega] at hwA
  have hlen : ({ iter with pos := iter.pos.set l (p + 1) } : BIter).pos.length = H + 1 := by
    simpa using hP.pos_len
  by_cases hlH : l < H
  · obtain ⟨iter', hu, hw1, kid, hw2⟩ := kidUpdate_first hs
      (show ({ iter with pos := iter.pos.set l (p + 1) } :
      BIter).path.length = H + 1 from hP.path_len) hlen hwA hlH
    exact ⟨_, hu, ⟨_, _, _, by rwa [Nat.min_eq_left hlH]⟩, fun _ =>
        ⟨⟨_, _, hw1⟩, fun _ => ⟨_, _, hw2⟩⟩⟩
  · obtain rfl : l = H := by omega
    rw [kidUpdate_last (by omega)]
    exact ⟨_, rfl, ⟨_, _, _, by rwa [Nat.min_eq_right (Nat.le_succ l)]⟩, fun _ =>
        ⟨⟨_, _, hwA⟩, fun h => absurd h hlH⟩⟩

/-- `iterNext` at level `l` of a positioned iterator, by induction on the level: it returns,
leaves a walk to the level below, and moves rank `r` of depth `l` on by one unless it is
the last. -/
theorem iterNext_spec {R : Nat} (hs : Subtree look H root lo hi)
    (hP : Positioned look root H iter R) :
    ∀ l, l ≤ H → ∀ {r p : Nat} {node : BNode}, Walk look root iter l r node p →
      ∃ iter', iterNext look l iter = .ok iter' ∧ NextOut look root H l r iter' := by
  intro l
  induction l with
  | zero =>
    intro hl r p node hw
    obtain ⟨hpath, hpos, hp⟩ := hw.get
    obtain ⟨lo', hi', hn⟩ := hw.subtree hs hl
    have ok := hn.nodeOk
    by_cases hadv : p + 1 < node.cells.length
    · exact iterNext_within hs hP hw hl hadv
    rw [iterNext_root hpos hpath ok.filled ok.small (ok.nkeys ▸ hp) (ok.nkeys ▸ hadv)]
    obtain ⟨leaf, q, hwH⟩ := hP.walk
    refine ⟨iter, rfl, hwH.prefix (Nat.min_le_right _ _), fun hr => ?_⟩
    cases hw
    simp only [cellsAt_zero] at hr
    omega
  | succ l ih =>
    intro hl r p node hw
    obtain ⟨hpath, hpos, hp⟩ := hw.get
    obtain ⟨lo', hi', hn⟩ := hw.subtree hs hl
    have ok := hn.nodeOk
    by_cases hadv : p + 1 < node.cells.length
    · exact iterNext_within hs hP hw hl hadv
    rw [iterNext_climb hpos hpath ok.filled ok.small (ok.nkeys ▸ hp) (ok.nkeys ▸ hadv)]
    obtain ⟨r0, node0, p0, c0, hw0, hc0, hk0, rfl⟩ := hw.up
    obtain ⟨iter1, h1, ⟨r1, n1, p1, hA⟩, hC⟩ := ih (by omega) hw0
    rw [h1, except_ok_bind]
    rw [Nat.min_eq_left (by omega : l + 1 ≤ H)] at hA
    have hshape := iterNext_shape h1
    have hsucc := rankBelow_succ (hw0.cell.trans hc0)
    rw [kidCells_of_look hk0] at hsucc
    -- the rank after the last cell of a child is the rank of the next child's first cell
    have hr1 : rankBelow look root l r0 + p + 1 = rankBelow look root l (r0 + 1) := by omega
    have hnext : rankBelow look root l r0 + p + 1 < (cellsAt look (l + 1) root).length →
        r0 + 1 < (cellsAt look l root).length := by
      intro h
      by_contra hc
      have := hw0.rank_lt
      rw [show r0 + 1 = (cellsAt look l root).length by omega, rankBelow_length] at hr1
      omega
    by_cases hlH : l + 1 < H
    · obtain ⟨iter', hu, hw1, kid, hw2⟩ :=
        kidUpdate_first hs (hshape.1.trans hP.path_len) (hshape.2.trans hP.pos_len) hA hlH
      refine ⟨_, hu, ⟨_, _, _, by rwa [Nat.min_eq_left hlH]⟩, fun hr => ?_⟩
      obtain ⟨-, hC2⟩ := hC (hnext hr)
      obtain ⟨n', p', hC3⟩ := hC2 (by omega)
      obtain ⟨rfl, rfl, rfl⟩ := hA.unique hC3
      rw [← hr1] at hw1 hw2
      exact ⟨⟨_, _, hw1⟩, fun _ => ⟨_, _, hw2⟩⟩
    · rw [kidUpdate_last (by rw [hshape.2, hP.pos_len]; omega)]
      have hH : H = l + 1 := by omega
      refine ⟨iter1, rfl, ⟨_, _, _, by rw [Nat.min_eq_right (by omega), hH]; exact hA⟩,
          fun hr => ?_⟩
      obtain ⟨-, hC2⟩ := hC (hnext hr)
      obtain ⟨n', p', hC3⟩ := hC2 (by omega)
      rw [← hr1] at hC3
      exact ⟨⟨_, _, hC3⟩, fun h => absurd h hlH⟩

/-- What `iterPrev` at level `l` leaves, from an iterator at rank `r` of depth `l`: a walk
down to the level below (or to the leaf), and unless `r` is the first rank, that walk
stands at rank `r - 1` of depth `l` and at the last cell of the new child below. -/
def PrevOut (look : UInt64 → Outcome BNode) (root : BNode) (H l r : Nat) (iter' : BIter) : Prop :=
  (∃ r' node' p', Walk look root iter' (min (l + 1) H) r' node' p') ∧
    (0 < r →
      (∃ node' p', Walk look root iter' l (r - 1) node' p') ∧
      (l < H → ∃ node' p', Walk look root iter' (l + 1) (rankBelow look root l r - 1) node' p'))

theorem iterPrev_within {R l r p : Nat} {node : BNode} (hs : Subtree look H root lo hi)
    (hP : Positioned look root H iter R) (hw : Walk look root iter l r node p) (hl : l ≤ H)
    (hp0 : 0 < p) :
    ∃ iter', iterPrev look l iter = .ok iter' ∧ PrevOut look root H l r iter' := by
  obtain ⟨hpath, hpos, hp⟩ := hw.get
  obtain ⟨lo', hi', hn⟩ := hw.subtree hs hl
  have hsmall := hn.nodeOk.small
  rw [iterPrev_retreat hpos hp0 (by rw [hn.nodeOk.nkeys] at hsmall; omega)]
  have hwA := hw.shift (show p - 1 < node.cells.length by omega)
  rw [show r + (p - 1) - p = r - 1 by omega] at hwA
  have hlen : ({ iter with pos := iter.pos.set l (p - 1) } : BIter).pos.length = H + 1 := by
    simpa using hP.pos_len
  by_cases hlH : l < H
  · obtain ⟨iter', hu, hw1, kid, q, hw2⟩ := kidUpdate_lastIdx hs
      (show ({ iter with pos := iter.pos.set l (p - 1) } :
      BIter).path.length = H + 1 from hP.path_len) hlen hwA hlH
    refine ⟨_, hu, ⟨_, _, _, by rwa [Nat.min_eq_left hlH]⟩, fun hr =>
        ⟨⟨_, _, hw1⟩, fun _ => ⟨kid, q, ?_⟩⟩⟩
    rwa [Nat.sub_add_cancel hr] at hw2
  · obtain rfl : l = H := by omega
    rw [kidUpdate_last (by omega)]
    exact ⟨_, rfl, ⟨_, _, _, by rwa [Nat.min_eq_right (Nat.le_succ l)]⟩, fun _ =>
        ⟨⟨_, _, hwA⟩, fun h => absurd h hlH⟩⟩

/-- `iterPrev` at level `l` of a positioned iterator, by induction on the level: it returns,
leaves a walk to the level below, and moves rank `r` of depth `l` back by one unless it is
the first. -/
theorem iterPrev_spec {R : Nat} (hs : Subtree look H root lo hi)
    (hP : Positioned look root H iter R) :
    ∀ l, l ≤ H → ∀ {r p : Nat} {node : BNode}, Walk look root iter l r node p →
      ∃ iter', iterPrev look l iter = .ok iter' ∧ PrevOut look root H l r iter' := by
  intro l
  induction l with
  | zero =>
    intro hl r p node hw
    obtain ⟨hpath, hpos, hp⟩ := hw.get
    by_cases hp0 : 0 < p
    · exact iterPrev_within hs hP hw hl hp0
    obtain rfl : p = 0 := by omega
    rw [iterPrev_root hpos]
    obtain ⟨leaf, q, hwH⟩ := hP.walk
    refine ⟨iter, rfl, hwH.prefix (Nat.min_le_right _ _), fun hr => ?_⟩
    cases hw
    omega
  | succ l ih =>
    intro hl r p node hw
    obtain ⟨hpath, hpos, hp⟩ := hw.get
    by_cases hp0 : 0 < p
    · exact iterPrev_within hs hP hw hl hp0
    obtain rfl : p = 0 := by omega
    rw [iterPrev_climb hpos]
    obtain ⟨r0, node0, p0, c0, hw0, hc0, hk0, rfl⟩ := hw.up
    obtain ⟨iter1, h1, ⟨r1, n1, p1, hA⟩, hC⟩ := ih (by omega) hw0
    rw [h1, except_ok_bind]
    rw [Nat.min_eq_left (by omega : l + 1 ≤ H)] at hA
    have hshape := iterPrev_shape h1
    -- a first cell of a child has a rank only when its parent's rank does
    have hprev : 0 < rankBelow look root l r0 + 0 → 0 < r0 := by
      intro h
      by_contra hc
      obtain rfl : r0 = 0 := by omega
      simp at h
    by_cases hlH : l + 1 < H
    · obtain ⟨iter', hu, hw1, kid, q, hw2⟩ :=
        kidUpdate_lastIdx hs (hshape.1.trans hP.path_len) (hshape.2.trans hP.pos_len) hA hlH
      refine ⟨_, hu, ⟨_, _, _, by rwa [Nat.min_eq_left hlH]⟩, fun hr => ?_⟩
      obtain ⟨-, hC2⟩ := hC (hprev hr)
      obtain ⟨n', p', hC3⟩ := hC2 (by omega)
      obtain ⟨rfl, rfl, rfl⟩ := hA.unique hC3
      rw [Nat.sub_add_cancel (by simpa using hr)] at hw2
      exact ⟨⟨_, _, by simpa using hw1⟩, fun _ => ⟨_, _, hw2⟩⟩
    · rw [kidUpdate_last (by rw [hshape.2, hP.pos_len]; omega)]
      have hH : H = l + 1 := by omega
      refine ⟨iter1, rfl, ⟨_, _, _, by rw [Nat.min_eq_right (by omega), hH]; exact hA⟩,
          fun hr => ?_⟩
      obtain ⟨-, hC2⟩ := hC (hprev hr)
      obtain ⟨n', p', hC3⟩ := hC2 (by omega)
      exact ⟨⟨_, _, by simpa using hC3⟩, fun h => absurd h hlH⟩

theorem Positioned.next {R : Nat} (hs : Subtree look H root lo hi)
    (hP : Positioned look root H iter R) :
    ∃ iter' R', iter.next look = .ok iter' ∧ Positioned look root H iter' R' ∧
      (R + 1 < (cellsAt look H root).length → R' = R + 1) := by
  obtain ⟨leaf, q, hw⟩ := hP.walk
  obtain ⟨iter', h1, ⟨r', n', p', hA⟩, hC⟩ := iterNext_spec hs hP H le_rfl hw
  have hshape := iterNext_shape h1
  rw [Nat.min_eq_right (Nat.le_succ H)] at hA
  have hpos' : Positioned look root H iter' r' :=
      ⟨hshape.1.trans hP.path_len, hshape.2.trans hP.pos_len, _, _, hA⟩
  have hnext : iter.next look = .ok iter' := by
    rw [BIter.next, if_neg (by rw [hP.path_len]; omega), hP.path_len, Nat.add_sub_cancel, h1]
  refine ⟨iter', r', hnext, hpos', fun hR => ?_⟩
  obtain ⟨⟨n'', p'', hw'⟩, -⟩ := hC hR
  exact (hA.unique hw').1

theorem Positioned.prev {R : Nat} (hs : Subtree look H root lo hi)
    (hP : Positioned look root H iter R) :
    ∃ iter' R', iter.prev look = .ok iter' ∧ Positioned look root H iter' R' ∧
        (0 < R → R' = R - 1) := by
  obtain ⟨leaf, q, hw⟩ := hP.walk
  obtain ⟨iter', h1, ⟨r', n', p', hA⟩, hC⟩ := iterPrev_spec hs hP H le_rfl hw
  have hshape := iterPrev_shape h1
  rw [Nat.min_eq_right (Nat.le_succ H)] at hA
  have hpos' : Positioned look root H iter' r' :=
      ⟨hshape.1.trans hP.path_len, hshape.2.trans hP.pos_len, _, _, hA⟩
  have hprev : iter.prev look = .ok iter' := by
    rw [BIter.prev, if_neg (by rw [hP.path_len]; omega), hP.path_len, Nat.add_sub_cancel, h1]
  refine ⟨iter', r', hprev, hpos', fun hR => ?_⟩
  obtain ⟨⟨n'', p'', hw'⟩, -⟩ := hC hR
  exact (hA.unique hw').1

theorem Positioned.deref {R : Nat} (hs : Subtree look H root lo hi)
    (hP : Positioned look root H iter R) :
    ∃ e, (cellsAt look H root)[R]? = some e ∧ iter.deref = .ok (e.key, e.val) := by
  obtain ⟨leaf, q, hw⟩ := hP.walk
  obtain ⟨hpath, hpos, hq⟩ := hw.get
  obtain ⟨lo', hi', hn⟩ := hw.subtree hs le_rfl
  have hf := hn.nodeOk.filled
  obtain ⟨e, he⟩ : ∃ e, leaf.cells[q]? = some e := ⟨_, List.getElem?_eq_getElem hq⟩
  refine ⟨e, hw.cell.trans he, ?_⟩
  have hv : iter.valid = true := by simp [BIter.valid, hP.path_len, hP.pos_len]
  rw [BIter.deref, hv]
  simp only [Bool.not_true, Bool.false_eq_true, if_false, hP.path_len, hP.pos_len,
      Nat.add_sub_cancel,
    goAt_eq hpath, goAt_eq hpos, except_ok_bind, getKey_eq hf he, getVal_eq hf he]
  rfl

/-- Rank `r` of depth `d` is where `SeekLE` of `key` belongs: its cell's key is at or below
`key`, and every later cell of the depth lies above it. -/
def SeekAt (look : UInt64 → Outcome BNode) (root : BNode) (key : Bytes) (d r : Nat) : Prop :=
  (∃ e, (cellsAt look d root)[r]? = some e ∧ KeyLe e.key key) ∧
    ∀ c ∈ (cellsAt look d root).drop (r + 1), bytesLt key c.key

theorem LookupLE.drop_gt {t j : Nat} {node : BNode} {key : Bytes} (ok : NodeOk t node)
    (hl : LookupLE node key j) : ∀ x ∈ node.cells.drop (j + 1), bytesLt key x.key := by
  obtain ⟨-, -, -, hnext⟩ := hl
  intro x hx
  obtain ⟨i, hi, rfl⟩ := List.mem_iff_getElem.mp hx
  rw [List.getElem_drop]
  rw [List.length_drop] at hi
  have hlt := hnext _ (List.getElem?_eq_getElem (show j + 1 < node.cells.length by omega))
  exact bytesLt_of_lt_of_le hlt (ok.key_le (Nat.le_add_right (j + 1) i) (by omega))

theorem seekAt_down {key : Bytes} {d r p j : Nat} {node kid : BNode} {c : Cell} {hi' : Option Bytes}
    (hs : Subtree look H root lo hi) (hw : Walk look root iter d r node p) (hd : d < H)
    (hc : node.cells[p]? = some c) (hk : look c.ptr = .ok kid)
    (hkid : Subtree look (H - (d + 1)) kid c.key hi')
    (hl : LookupLE kid key j) (hseek : SeekAt look root key d r) :
    SeekAt look root key (d + 1) (rankBelow look root d r + j) := by
  have hcell := hw.cell.trans hc
  have hgt := hl.drop_gt hkid.nodeOk
  obtain ⟨e', he', hle, -⟩ := hl
  have hlen : j < (kidCells look c).length := by
    rw [kidCells_of_look hk]; exact (List.getElem?_eq_some_iff.mp he').1
  constructor
  · have hat : (cellsAt look (d + 1) root)[rankBelow look root d r + j]? = some e' := by
      rw [cellsAt_succ, rankBelow, getElem?_flatMap_take hcell hlen, kidCells_of_look hk]; exact he'
    refine ⟨e', hat, ?_⟩
    rcases hle with rfl | h
    · obtain ⟨e, he, hke⟩ := hseek.1
      rw [hcell] at he
      cases he
      have hhead : kid.keys.head? = some e'.key := by simp [BNode.keys, List.head?_eq_getElem?, he']
      rw [hkid.head, Option.some.injEq] at hhead
      rwa [← hhead]
    · exact h
  · rw [cellsAt_succ, rankBelow, drop_flatMap_take hcell hlen, kidCells_of_look hk]
    intro x hx
    rcases List.mem_append.mp hx with hx | hx
    · exact hgt x hx
    · obtain ⟨c'', hc'', hx⟩ := List.mem_flatMap.mp hx
      obtain ⟨kid'', _, hk'', hks''⟩ := hs.kid_at hd (List.mem_of_mem_drop hc'')
      rw [kidCells_of_look hk''] at hx
      exact bytesLt_of_lt_of_le (hseek.2 c'' hc'') (hks''.lo_le hx)

theorem seekLoop_null {key : Bytes} (fuel : Nat) (it : BIter) : seekLoop look key fuel 0 it =
    .ok it := by
  rw [seekLoop.eq_def]
  simp

theorem seekLoop_step {key : Bytes} {fuel j : Nat} {ptr : UInt64} {kid : BNode} (hptr : ptr ≠ 0)
    (hk : look ptr = .ok kid) (hl : nodeLookupLE kid key = .ok j) (h2 : 2 ≤ kid.len) :
    seekLoop look key (fuel + 1) ptr iter =
      if kid.hdrType = BNODE_NODE then
        kid.getPtr j >>= fun q => seekLoop look key fuel q ⟨iter.path ++ [kid], iter.pos ++ [j]⟩
      else seekLoop look key fuel 0 ⟨iter.path ++ [kid], iter.pos ++ [j]⟩ := by
  rw [seekLoop.eq_def]
  simp only [if_neg hptr, hk, hl, except_ok_bind, btype_eq h2]

theorem Walk.append {d r p j : Nat} {node kid : BNode} {c : Cell}
    (hw : Walk look root iter d r node p)
    (hlen : iter.path.length = d + 1) (hlen' : iter.pos.length = d + 1)
    (hc : node.cells[p]? = some c)
    (hk : look c.ptr = .ok kid) (hj : j < kid.cells.length) :
    Walk look root ⟨iter.path ++ [kid], iter.pos ++ [j]⟩ (d + 1) (rankBelow look root d r + j)
        kid j := by
  have hagree : ∀ k ≤ d, (⟨iter.path ++ [kid], iter.pos ++ [j]⟩ : BIter).path[k]? = iter.path[k]? ∧
      (⟨iter.path ++ [kid], iter.pos ++ [j]⟩ : BIter).pos[k]? = iter.pos[k]? :=
    fun k hk => ⟨List.getElem?_append_left (by omega), List.getElem?_append_left (by omega)⟩
  exact .down (hw.frame hagree) hc hk (by simp [List.getElem?_append_right, hlen])
    (by simp [List.getElem?_append_right, hlen']) hj

theorem seekLoop_descend {key : Bytes} (fuel : Nat) {d r p : Nat} {node : BNode} {c : Cell}
    (hs : Subtree look H root lo hi) (h0 : ¬ Under look root 0) (hlen : iter.path.length = d + 1)
    (hlen' : iter.pos.length = d + 1) (hw : Walk look root iter d r node p) (hd : d < H)
    (hc : node.cells[p]? = some c) (hseek : SeekAt look root key d r) :
    ∃ kid j hi', Subtree look (H - (d + 1)) kid c.key hi' ∧
      Walk look root ⟨iter.path ++ [kid], iter.pos ++ [j]⟩ (d + 1)
          (rankBelow look root d r + j) kid j ∧
      SeekAt look root key (d + 1) (rankBelow look root d r + j) ∧
      seekLoop look key (fuel + 1) c.ptr iter =
        if kid.hdrType = BNODE_NODE then
          kid.getPtr j >>= fun q => seekLoop look key fuel q ⟨iter.path ++ [kid], iter.pos ++ [j]⟩
        else seekLoop look key fuel 0 ⟨iter.path ++ [kid], iter.pos ++ [j]⟩ := by
  obtain ⟨kid, hi', hk, hkid⟩ := hs.kid_at hd (List.getElem?_mem (hw.cell.trans hc))
  have ok := hkid.nodeOk
  obtain ⟨j, hl, hlj⟩ : ∃ j, nodeLookupLE kid key = .ok j ∧ LookupLE kid key j :=
      nodeLookupLE_spec ok
  have h2 : 2 ≤ kid.len := by have := ok.filled.header; unfold HEADER at this; omega
  have hj : j < kid.cells.length := (List.getElem?_eq_some_iff.mp hlj.choose_spec.1).1
  exact ⟨kid, j, hi', hkid, hw.append hlen hlen' hc hk hj,
    seekAt_down hs hw hd hc hk hkid hlj hseek, seekLoop_step (fun h => h0 (h ▸ hw.under hs hd hc)) hk hl h2⟩

theorem seekLoop_spec {key : Bytes} (hs : Subtree look H root lo hi) (h0 : ¬ Under look root 0) :
    ∀ m fuel, m < fuel → ∀ {iter : BIter} {d r p : Nat} {node : BNode} {c : Cell}, d + m + 1 = H →
      iter.path.length = d + 1 → iter.pos.length = d + 1 → Walk look root iter d r node p →
      node.cells[p]? = some c → SeekAt look root key d r →
      ∃ iter' R, seekLoop look key fuel c.ptr iter = .ok iter' ∧ Positioned look root H iter' R ∧
        SeekAt look root key H R := by
  intro m
  induction m with
  | zero =>
    intro fuel hfuel iter d r p node c hH hlen hlen' hw hc hseek
    obtain ⟨f, rfl⟩ : ∃ f, fuel = f + 1 := ⟨fuel - 1, by omega⟩
    obtain rfl : H = d + 1 := by omega
    obtain ⟨kid, j, _, hkid, hw1, hseek1, hrun⟩ := seekLoop_descend f hs h0 hlen hlen' hw
        (by omega) hc hseek
    have htype := hkid.nodeOk.btype
    rw [Nat.sub_self, if_pos rfl] at htype
    rw [hrun, if_neg (by rw [htype]; decide), seekLoop_null]
    exact ⟨_, _, rfl, ⟨by simp [hlen], by simp [hlen'], _, _, hw1⟩, hseek1⟩
  | succ m ih =>
    intro fuel hfuel iter d r p node c hH hlen hlen' hw hc hseek
    obtain ⟨f, rfl⟩ : ∃ f, fuel = f + 1 := ⟨fuel - 1, by omega⟩
    obtain ⟨kid, j, _, hkid, hw1, hseek1, hrun⟩ := seekLoop_descend f hs h0 hlen hlen' hw
        (by omega) hc hseek
    have ok := hkid.nodeOk
    have htype := ok.btype
    rw [if_neg (by omega)] at htype
    obtain ⟨c', hc'⟩ : ∃ c', kid.cells[j]? = some c' := ⟨_, List.getElem?_eq_getElem hw1.get.2.2⟩
    rw [hrun, if_pos htype, getPtr_eq ok.filled hc', except_ok_bind]
    exact ih f (by omega) (by omega) (by simp [hlen]) (by simp [hlen']) hw1 hc' hseek1

theorem seekLE_spec {key : Bytes} {rootPtr : UInt64} {fuel : Nat} (hs : Subtree look H root [] none)
    (hlook : look rootPtr = .ok root) (hroot : rootPtr ≠ 0) (h0 : ¬ Under look root 0)
    (hfuel : H < fuel) :
    ∃ iter R, seekLE look rootPtr key fuel = .ok iter ∧ Positioned look root H iter R ∧
      SeekAt look root key H R := by
  obtain ⟨f, rfl⟩ : ∃ f, fuel = f + 1 := ⟨fuel - 1, by omega⟩
  have ok := hs.nodeOk
  obtain ⟨j, hl, hlj⟩ : ∃ j, nodeLookupLE root key = .ok j ∧ LookupLE root key j :=
      nodeLookupLE_spec ok
  have hgt := hlj.drop_gt ok
  obtain ⟨e, he, hle, -⟩ := hlj
  have h2 : 2 ≤ root.len := by have := ok.filled.header; unfold HEADER at this; omega
  have hj : j < root.cells.length := (List.getElem?_eq_some_iff.mp he).1
  have hw : Walk look root ⟨[] ++ [root], [] ++ [j]⟩ 0 j root j := .root rfl rfl hj
  have hseek : SeekAt look root key 0 j := by
    refine ⟨⟨e, he, ?_⟩, hgt⟩
    rcases hle with rfl | h
    · have hhead : root.keys.head? = some e.key := by simp [BNode.keys, List.head?_eq_getElem?, he]
      rw [hs.head, Option.some.injEq] at hhead
      rw [← hhead]
      exact bytesLt_nil_right
    · exact h
  rw [seekLE, seekLoop_step hroot hlook hl h2]
  by_cases hH : H = 0
  · subst hH
    have htype := ok.btype
    rw [if_pos rfl] at htype
    rw [if_neg (by rw [htype]; decide), seekLoop_null]
    exact ⟨_, _, rfl, ⟨rfl, rfl, _, _, hw⟩, hseek⟩
  · have htype := ok.btype
    rw [if_neg hH] at htype
    rw [if_pos htype, getPtr_eq ok.filled he, except_ok_bind]
    exact seekLoop_spec hs h0 (H - 1) f (by omega) (show 0 + (H - 1) + 1 = H by omega) rfl rfl
        hw he hseek

theorem seekLoop_fuelLe {key : Bytes} : ∀ {fuel fuel' : Nat}, fuel ≤ fuel' → ∀ ptr it,
    FuelLe (seekLoop look key fuel ptr it) (seekLoop look key fuel' ptr it) := by
  intro fuel
  induction fuel with
  | zero =>
    intro fuel' _ ptr it
    by_cases hptr : ptr = 0
    · subst hptr; rw [seekLoop_null, seekLoop_null]; exact .inr rfl
    · left; rw [seekLoop.eq_def]; simp [hptr]
  | succ f ih =>
    intro fuel' hle ptr it
    obtain ⟨f', rfl⟩ : ∃ f', fuel' = f' + 1 := ⟨fuel' - 1, by omega⟩
    by_cases hptr : ptr = 0
    · subst hptr; rw [seekLoop_null, seekLoop_null]; exact .inr rfl
    · rw [seekLoop.eq_def, seekLoop.eq_def]
      simp only [if_neg hptr]
      refine .bind (.inr rfl) fun node => .bind (.inr rfl) fun idx => .bind (.inr rfl) fun t => ?_
      split
      · exact .bind (.inr rfl) fun q => ih (by omega) _ _
      · exact ih (by omega) _ _

theorem seekLE_positioned {key : Bytes} {rootPtr : UInt64} {fuel : Nat} {iter : BIter}
    (hs : Subtree look H root [] none) (hlook : look rootPtr = .ok root) (hroot : rootPtr ≠ 0)
    (h0 : ¬ Under look root 0) (hseek : seekLE look rootPtr key fuel = .ok iter) :
    ∃ R, Positioned look root H iter R ∧ SeekAt look root key H R := by
  have hspec : ∃ iter R, seekLE look rootPtr key (max fuel (H + 1)) = .ok iter ∧
      Positioned look root H iter R ∧ SeekAt look root key H R :=
    seekLE_spec hs hlook hroot h0 (by omega)
  obtain ⟨iter', R, hok, hR⟩ := hspec
  rcases seekLoop_fuelLe (le_max_left fuel (H + 1)) rootPtr ⟨[], []⟩ with h | h
  · exact absurd (hseek.symm.trans h) (by simp)
  · rw [seekLE] at hseek hok
    rw [hseek, hok, Except.ok.injEq] at h
    exact ⟨R, h ▸ hR⟩

theorem SeekAt.greatest {key : Bytes} {d R : Nat} {e : Cell}
    (hsort : ((cellsAt look d root).map Cell.key).Pairwise bytesLt)
    (hseek : SeekAt look root key d R)
    (he : (cellsAt look d root)[R]? = some e) :
    ∀ e' ∈ cellsAt look d root, KeyLe e'.key key → KeyLe e'.key e.key := by
  intro e' he' hle
  obtain ⟨i, hi, rfl⟩ := List.mem_iff_getElem.mp he'
  obtain ⟨hR, rfl⟩ := List.getElem?_eq_some_iff.mp he
  rcases Nat.lt_trichotomy i R with hiR | rfl | hRi
  · exact .of_lt (List.pairwise_iff_getElem.mp (List.pairwise_map.mp hsort) i R hi hR hiR)
  · exact .refl _
  · refine absurd (hseek.2 _ ?_) hle
    rw [List.mem_iff_getElem]
    exact ⟨i - (R + 1), by simp; omega, by simp only [List.getElem_drop]; congr 1; omega⟩

end Moves

/-- The iterators a caller reaches: a result of `SeekLE` from the root `rootPtr`, and
whatever `Next` and `Prev` make of one. -/
inductive Reached (look : UInt64 → Outcome BNode) (rootPtr : UInt64) : BIter → Prop
  | seek {key : Bytes} {fuel : Nat} {iter : BIter} :
      seekLE look rootPtr key fuel = .ok iter → Reached look rootPtr iter
  | next {iter iter' : BIter} : Reached look rootPtr iter → iter.next look = .ok iter' →
      Reached look rootPtr iter'
  | prev {iter iter' : BIter} : Reached look rootPtr iter → iter.prev look = .ok iter' →
      Reached look rootPtr iter'

section Reached

variable {look : UInt64 → Outcome BNode} {root : BNode} {H : Nat} {rootPtr : UInt64}

theorem Reached.positioned (hs : Subtree look H root [] none) (hlook : look rootPtr = .ok root)
    (hroot : rootPtr ≠ 0) (h0 : ¬ Under look root 0) {iter : BIter}
    (hr : Reached look rootPtr iter) :
    ∃ R, Positioned look root H iter R := by
  induction hr with
  | seek hseek =>
    obtain ⟨R, hP, -⟩ := seekLE_positioned hs hlook hroot h0 hseek
    exact ⟨R, hP⟩
  | next _ hnext ih =>
    obtain ⟨R, hP⟩ := ih
    obtain ⟨iter', R', hn, hP', -⟩ := hP.next hs
    rw [hnext, Except.ok.injEq] at hn
    exact ⟨R', hn ▸ hP'⟩
  | prev _ hprev ih =>
    obtain ⟨R, hP⟩ := ih
    obtain ⟨iter', R', hp, hP', -⟩ := hP.prev hs
    rw [hprev, Except.ok.injEq] at hp
    exact ⟨R', hp ▸ hP'⟩

end Reached

/-- The iterator over a nonempty tree with the invariant, where no child pointer is 0 (page
0, the null page, lies nowhere below the root). Its
leaf entries, depth `H` under the root, ascend from the sentinel. `SeekLE` of any key
returns once it has more fuel than levels, and whatever it returns stands at the entry with
the greatest key at or below the key. Every iterator a caller reaches stands at an entry,
every level of its path the child its position above points to; at whichever entry it
stands, `Deref` returns it, `Next` moves to the following entry and `Prev` to the one
before, where there is one. -/
theorem iterator_key_order {look : UInt64 → Outcome BNode} {rootPtr : UInt64}
    (hinv : Inv look rootPtr) (hroot : rootPtr ≠ 0) (h0 : ¬ Reach look rootPtr 0) :
    ∃ H root, look rootPtr = .ok root ∧
      ((cellsAt look H root).map Cell.key).Pairwise bytesLt ∧
      (cellsAt look H root).head?.map Cell.key = some [] ∧
      (∀ key fuel, H < fuel → ∃ iter, seekLE look rootPtr key fuel = .ok iter) ∧
      (∀ key fuel iter, seekLE look rootPtr key fuel = .ok iter →
        ∃ R e, Positioned look root H iter R ∧ (cellsAt look H root)[R]? = some e ∧
          iter.deref = .ok (e.key, e.val) ∧ KeyLe e.key key ∧
          ∀ e' ∈ cellsAt look H root, KeyLe e'.key key → KeyLe e'.key e.key) ∧
      ∀ iter, Reached look rootPtr iter → (∃ R, Positioned look root H iter R) ∧
        ∀ R, Positioned look root H iter R →
          ∃ e, (cellsAt look H root)[R]? = some e ∧ iter.deref = .ok (e.key, e.val) ∧
          (R + 1 < (cellsAt look H root).length →
            ∃ iter', iter.next look = .ok iter' ∧ Positioned look root H iter' (R + 1)) ∧
          (0 < R → ∃ iter', iter.prev look = .ok iter' ∧ Positioned look root H iter' (R - 1)) := by
  obtain hz | ⟨H, root, hlook, hs⟩ := hinv
  · exact absurd hz hroot
  replace h0 : ¬ Under look root 0 := fun hu => h0 (.inr ⟨root, hlook, hu⟩)
  obtain ⟨hsort, hhead, -⟩ := hs.cellsAt_sorted
  refine ⟨H, root, hlook, hsort, hhead, fun key fuel hfuel => ?_, fun key fuel iter hseek => ?_,
    fun iter hr => ?_⟩
  · have hspec : ∃ iter R, seekLE look rootPtr key fuel = .ok iter ∧
        Positioned look root H iter R ∧ SeekAt look root key H R :=
      seekLE_spec hs hlook hroot h0 hfuel
    obtain ⟨iter, -, hok, -⟩ := hspec
    exact ⟨iter, hok⟩
  · obtain ⟨R, hP, hat⟩ := seekLE_positioned hs hlook hroot h0 hseek
    obtain ⟨e, he, hd⟩ := hP.deref hs
    obtain ⟨e₁, he₁, hle⟩ := hat.1
    rw [he, Option.some.injEq] at he₁
    subst he₁
    exact ⟨R, e, hP, he, hd, hle, hat.greatest hsort he⟩
  · refine ⟨hr.positioned hs hlook hroot h0, fun R hP => ?_⟩
    obtain ⟨e, he, hd⟩ := hP.deref hs
    refine ⟨e, he, hd, fun hR => ?_, fun hR => ?_⟩
    · obtain ⟨iter', R', hn, hP', hR'⟩ := hP.next hs
      exact ⟨iter', hn, hR' hR ▸ hP'⟩
    · obtain ⟨iter', R', hp, hP', hR'⟩ := hP.prev hs
      exact ⟨iter', hp, hR' hR ▸ hP'⟩

theorem sentinel_iterator_key_order :
    Inv sentinelPages.look 1 ∧ (1 : UInt64) ≠ 0 ∧ ¬ Reach sentinelPages.look 1 0 ∧
      ∃ H root, sentinelPages.look 1 = .ok root ∧
        (cellsAt sentinelPages.look H root).head?.map Cell.key = some [] :=
  have h0 : ¬ Reach sentinelPages.look 1 0 := by
    rintro (h | ⟨node, hn, hu⟩)
    · exact absurd h (by decide)
    · cases hn
      exact absurd (under_iff.mp hu).1 (by decide)
  have ⟨H, root, hlook, _, hhead, _⟩ := iterator_key_order sentinelPages_inv (by decide) h0
  ⟨sentinelPages_inv, by decide, h0, H, root, hlook, hhead⟩

end GoMiniDb.Storage
