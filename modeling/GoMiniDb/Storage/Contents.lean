import GoMiniDb.Storage.InsertInv

/-! # What a tree stores

The entries of a tree are its cells at the leaf depth, in key order from the sentinel on
(`cellsAt`). `BTree.Get` returns what they store under the key: at each level
`nodeLookupLE` picks the one cell whose entries may hold it. `treeInsert` stores the value
under the key and keeps what every other key stores, and so does `BTree.Insert` with the
root it returns: a `Get` after an `Insert` reads the value inserted, and every other
non-empty key as before.
-/
namespace GoMiniDb.Storage

open BNode Pages

/-- What a list of entries stores under `key`: the value of the first entry with that key. -/
def lookup (key : Bytes) (cs : List Cell) : Option Bytes :=
  (cs.find? fun c => decide (c.key = key)).map Cell.val

/-- The entries below cells of height `h`: the cells themselves at a leaf, else the entries
below the children they point to, in turn. -/
def entriesOf (look : UInt64 → Outcome BNode) : Nat → List Cell → List Cell
  | 0, cs => cs
  | h + 1, cs => cs.flatMap (cellsBelow look h)

section Lookup

variable {key : Bytes} {A B cs : List Cell} {c : Cell}

@[simp] theorem lookup_nil : lookup key [] = none := rfl

theorem lookup_cons : lookup key (c :: cs) = if c.key = key then some c.val else lookup key cs := by
  by_cases h : c.key = key <;> simp [lookup, List.find?_cons, h]

theorem lookup_append : lookup key (A ++ B) = (lookup key A).or (lookup key B) := by
  unfold lookup
  rw [List.find?_append]
  cases A.find? _ <;> rfl

theorem lookup_eq_none (h : ∀ c ∈ cs, c.key ≠ key) : lookup key cs = none := by
  simpa [lookup, List.find?_eq_none] using h

end Lookup

theorem ne_of_bytesLt {a b : Bytes} (h : bytesLt a b) : a ≠ b := fun e => bytesLt_irrefl b (e ▸ h)

section Entries

variable {look : UInt64 → Outcome BNode} {h : Nat} {A B cs : List Cell} {hi : Option Bytes}

theorem entriesOf_append : entriesOf look h (A ++ B) = entriesOf look h A ++ entriesOf look h B := by
  cases h <;> simp [entriesOf]

theorem entriesOf_singleton {c : Cell} : entriesOf look (h + 1) [c] = cellsBelow look h c :=
  List.flatMap_singleton _ _

theorem cellsAt_eq_entriesOf (node : BNode) : cellsAt look h node = entriesOf look h node.cells := by
  cases h with
  | zero => rfl
  | succ h => exact cellsAt_succ_top h node

theorem below_of_bound {k : Bytes} (hk : Below k (bound cs hi)) (hcs : ∀ c ∈ cs, Below c.key hi) :
    Below k hi := by
  cases cs with
  | nil => exact hk
  | cons c cs => exact Below.of_le (KeyLe.of_lt hk) (hcs c (.head _))

theorem Kids.entries_range (hk : Kids look h cs hi) (hb : ∀ c ∈ cs, Below c.key hi) :
    ∀ e ∈ cs.flatMap (cellsBelow look h), (∃ c ∈ cs, KeyLe c.key e.key) ∧ Below e.key hi := by
  induction cs with
  | nil => simp
  | cons c cs ih =>
    obtain ⟨⟨kid, hkid, hs⟩, hrest⟩ := hk
    intro e he
    rw [List.flatMap_cons, List.mem_append, cellsBelow_of_look h hkid] at he
    rcases he with he | he
    · have hr := hs.cellsAt_sorted.2.2 e he
      exact ⟨⟨c, .head _, hr.1⟩, below_of_bound hr.2 fun d hd => hb d (.tail _ hd)⟩
    · obtain ⟨⟨d, hd, hde⟩, hbe⟩ := ih hrest (fun d hd => hb d (.tail _ hd)) e he
      exact ⟨⟨d, .tail _ hd, hde⟩, hbe⟩

theorem CellsOk.entries_range (hc : CellsOk look h cs hi) :
    ∀ e ∈ entriesOf look h cs, (∃ c ∈ cs, KeyLe c.key e.key) ∧ Below e.key hi := by
  cases h with
  | zero => exact fun e he => ⟨⟨e, he, bytesLt_irrefl _⟩, hc.below e he⟩
  | succ h => exact Kids.entries_range hc.entries hc.below

end Entries

section Get

variable {look : UInt64 → Outcome BNode} {h idx : Nat} {N : BNode} {key lo : Bytes} {hi : Option Bytes}
  {s : Pages}

theorem Subtree.entries_take_ne (hs : Subtree look h N lo hi) (hidx : idx < N.cells.length)
    (hle : KeyLe (N.cells.get ⟨idx, hidx⟩).key key) :
    ∀ e ∈ entriesOf look h (N.cells.take idx), e.key ≠ key := by
  have hc := hs.cellsOk
  rw [cells_around hidx, List.append_assoc, cellsOk_append] at hc
  exact fun e he => ne_of_bytesLt (bytesLt_of_lt_of_le ((hc.1.entries_range e he).2 : bytesLt _ _) hle)

theorem Subtree.lookup_at (hs : Subtree look h N lo hi) (hl : LookupLE N key idx)
    (hidx : idx < N.cells.length) (hle : KeyLe (N.cells.get ⟨idx, hidx⟩).key key) :
    lookup key (cellsAt look h N) = lookup key (entriesOf look h [N.cells.get ⟨idx, hidx⟩]) := by
  have hc := hs.cellsOk
  rw [cells_around hidx, List.append_assoc, cellsOk_append, cellsOk_append] at hc
  obtain ⟨-, -, hpost⟩ := hc
  have hA := hs.entries_take_ne hidx hle
  have hC : ∀ e ∈ entriesOf look h (N.cells.drop (idx + 1)), e.key ≠ key := fun e he => by
    obtain ⟨⟨d, hd, hde⟩, -⟩ := hpost.entries_range e he
    exact (ne_of_bytesLt (bytesLt_of_lt_of_le (hl.drop_gt hs.nodeOk d hd) hde)).symm
  rw [cellsAt_eq_entriesOf]
  conv_lhs => rw [cells_around hidx]
  rw [entriesOf_append, entriesOf_append, lookup_append, lookup_append, lookup_eq_none hA,
    lookup_eq_none hC, Option.none_or, Option.or_none]

theorem getLoop_lookup : ∀ fuel {h : Nat} {N : BNode} {lo : Bytes} {hi : Option Bytes},
    Subtree s.look h N lo hi → KeyLe lo key → Below key hi → h < fuel →
      BTree.getLoop memPager fuel N key s = .ok (lookup key (cellsAt s.look h N), s)
  | 0, _, _, _, _, _, _, _, hf => absurd hf (Nat.not_lt_zero _)
  | fuel + 1, h, N, lo, hi, hN, hlo, hb, hf => by
    have ok := hN.nodeOk
    obtain ⟨j, hj, hl⟩ : ∃ j, nodeLookupLE N key = .ok j ∧ LookupLE N key j := nodeLookupLE_spec ok
    obtain ⟨hidx, hle⟩ := hl.le ok hN.head hlo
    have h4 : 4 ≤ N.len := by have := ok.filled.header; unfold HEADER at this; omega
    rw [hN.lookup_at hl hidx hle]
    simp only [BTree.getLoop, treeM_bind_ok_iff, liftM_ok_iff, hj, btype_eq (by omega : 2 ≤ N.len)]
    refine ⟨j, s, ⟨rfl, rfl⟩, N.hdrType, s, ⟨rfl, rfl⟩, ?_⟩
    have hc : N.cells[j]? = some (N.cells.get ⟨j, hidx⟩) := List.getElem?_eq_getElem hidx
    cases h with
    | zero =>
      have hleaf : N.hdrType = BNODE_LEAF := by simpa using ok.btype
      simp only [hleaf, if_true, treeM_bind_ok_iff, liftM_ok_iff, nkeys_eq h4, ok.nkeys, hidx,
        getKey_eq ok.filled hc, getVal_eq ok.filled hc, entriesOf, lookup_cons, lookup_nil]
      by_cases hk : N.cells[j].key = key <;> simp [hk, hidx]
      · exact ⟨_, s, ⟨rfl, rfl⟩, hidx, _, s, ⟨rfl, rfl⟩, rfl, rfl⟩
      · exact ⟨_, s, ⟨rfl, rfl⟩, .inl ⟨hidx, _, s, ⟨rfl, rfl⟩, .inr ⟨hk, rfl⟩⟩⟩
    | succ h =>
      have hnode : N.hdrType = BNODE_NODE := by simpa using ok.btype
      obtain ⟨K, -, hK, -⟩ := hN.kid_of_mem (List.get_mem _ _ _)
      have ih := getLoop_lookup fuel (hN.kid_bound hidx hK) hle (hl.below_bound hb) (by omega)
      simp only [hnode, if_neg (show BNODE_NODE ≠ BNODE_LEAF by decide), if_true, treeM_bind_ok_iff,
        liftM_ok_iff, getM_ok_iff]
      refine ⟨_, s, ⟨getPtr_eq ok.filled hc, rfl⟩, K, s, ⟨hK, rfl⟩, ?_⟩
      rw [ih, entriesOf, List.flatMap_singleton, cellsBelow_of_look h hK]

theorem get_of_root {root : UInt64} {fuel : Nat} (hr0 : root ≠ 0) (hroot : s.look root = .ok N) :
    BTree.get memPager fuel root key s = BTree.getLoop memPager fuel N key s := by
  simp only [BTree.get, hr0, if_false]
  show (Pages.get root s).map (·, s) >>= (fun p => BTree.getLoop memPager fuel p.1 key p.2) = _
  rw [show Pages.get root s = .ok N from hroot]
  rfl

/-- `BTree.Get` on a tree with the invariant, with any fuel above its height, returns what
the entries of the tree store under the key, and reads the pages only. -/
theorem get_lookup {root : UInt64} {fuel : Nat} (hr0 : root ≠ 0) (hroot : s.look root = .ok N)
    (hs : Subtree s.look h N [] none) (hf : h < fuel) :
    BTree.get memPager fuel root key s = .ok (lookup key (cellsAt s.look h N), s) := by
  rw [get_of_root hr0 hroot]
  exact getLoop_lookup fuel hs bytesLt_nil_right trivial hf

theorem get_lookup_two_levels :
    (3 : UInt64) ≠ 0 ∧
      twoLevelPages.look 3 = .ok ⟨BNODE_NODE, 2, [⟨1, [], []⟩, ⟨2, [3], []⟩], BTREE_PAGE_SIZE⟩ ∧
      Subtree twoLevelPages.look 1 ⟨BNODE_NODE, 2, [⟨1, [], []⟩, ⟨2, [3], []⟩], BTREE_PAGE_SIZE⟩ [] none ∧
      BTree.get memPager 2 3 [3] twoLevelPages = .ok (some [4], twoLevelPages) :=
  have hroot : twoLevelPages.look 3 = .ok ⟨BNODE_NODE, 2, [⟨1, [], []⟩, ⟨2, [3], []⟩], BTREE_PAGE_SIZE⟩ := rfl
  ⟨by decide, hroot, twoLevelPages_subtree,
    (get_lookup (by decide) hroot twoLevelPages_subtree (by decide)).trans rfl⟩

end Get

section Congr

variable {look look' : UInt64 → Outcome BNode} {h : Nat} {node : BNode} {lo : Bytes}
  {hi : Option Bytes} {cs : List Cell} {c : Cell}

theorem Kids.kid_of_mem (hk : Kids look h cs hi) (hc : c ∈ cs) :
    ∃ kid hi', look c.ptr = .ok kid ∧ Subtree look h kid c.key hi' := by
  induction cs with
  | nil => exact absurd hc (List.not_mem_nil c)
  | cons d cs ih =>
    obtain ⟨⟨kid, hkid, hs⟩, hrest⟩ := hk
    rcases List.mem_cons.mp hc with rfl | hc
    · exact ⟨kid, _, hkid, hs⟩
    · exact ih hrest hc

theorem Subtree.cellsAt_congr (hs : Subtree look h node lo hi)
    (hagree : ∀ r, Under look node r → look' r = look r) : cellsAt look' h node = cellsAt look h node := by
  induction hs with
  | leaf => rfl
  | @node h node lo hi ok _ hex _ ih =>
    rw [cellsAt_succ_top, cellsAt_succ_top]
    refine List.flatMap_congr fun c hc => ?_
    obtain ⟨⟨i, hi'⟩, rfl⟩ := List.mem_iff_get.mp hc
    obtain ⟨kid, hk⟩ := hex i hi'
    rw [cellsBelow_of_look h ((hagree _ (.child ok.btype hc)).trans hk), cellsBelow_of_look h hk]
    exact ih i hi' kid hk fun r hr => hagree r (.grand ok.btype hc hk hr)

theorem CellsOk.entries_congr (hc : CellsOk look h cs hi)
    (hagree : ∀ c ∈ cs, ∀ r, Reach look c.ptr r → look' r = look r) :
    entriesOf look' h cs = entriesOf look h cs := by
  cases h with
  | zero => rfl
  | succ h =>
    refine List.flatMap_congr fun c hcs => ?_
    obtain ⟨kid, _, hkid, hs⟩ := Kids.kid_of_mem hc.entries hcs
    rw [cellsBelow_of_look h ((hagree c hcs _ (.inl rfl)).trans hkid), cellsBelow_of_look h hkid]
    exact hs.cellsAt_congr fun r hr => hagree c hcs r (.inr ⟨kid, hkid, hr⟩)

theorem Wide.entries_congr (hw : Wide look h node lo hi)
    (hagree : ∀ r, Under look node r → look' r = look r) :
    entriesOf look' h node.cells = entriesOf look h node.cells := by
  cases h with
  | zero => rfl
  | succ h =>
    have ht : node.hdrType = BNODE_NODE := by simpa using hw.btype
    exact hw.cells.entries_congr fun c hc r hr => hagree r (.of_reach ht hc hr)

theorem entriesOf_flatten {parts : List BNode} :
    entriesOf look h (parts.map BNode.cells).flatten = parts.flatMap fun p => entriesOf look h p.cells := by
  induction parts with
  | nil => cases h <;> rfl
  | cons p parts ih => rw [List.map_cons, List.flatten_cons, entriesOf_append, ih, List.flatMap_cons]

theorem entriesOf_link {mid : List Cell} {parts : List BNode}
    (hf : List.Forall₂ (fun c p => look c.ptr = .ok p) mid parts) :
    entriesOf look (h + 1) mid = parts.flatMap fun p => entriesOf look h p.cells := by
  induction hf with
  | nil => rfl
  | @cons c p mid parts hcp _ ih =>
    rw [List.flatMap_cons, ← ih, ← cellsAt_eq_entriesOf, ← cellsBelow_of_look h hcp]
    rfl

end Congr

/-- `L'` stores `val` under `key`, and under every other key what `L` stores. -/
def Upserts (key val : Bytes) (L L' : List Cell) : Prop :=
  ∀ k, lookup k L' = if k = key then some val else lookup k L

section Upserts

variable {look : UInt64 → Outcome BNode} {idx : Nat} {N N' : BNode} {key val lo : Bytes}
  {hi : Option Bytes}

theorem Upserts.append {A B B' C : List Cell} (hu : Upserts key val B B') (hA : ∀ e ∈ A, e.key ≠ key) :
    Upserts key val (A ++ B ++ C) (A ++ B' ++ C) := fun k => by
  rw [lookup_append, lookup_append, lookup_append, lookup_append, hu k]
  split_ifs with hk
  · subst hk
    rw [lookup_eq_none hA]
    rfl
  · rfl

theorem upserts_single {B : List Cell} {ptr : UInt64} (hB : ∀ c ∈ B, c.key = key) :
    Upserts key val B [⟨ptr, key, val⟩] := fun k => by
  rw [lookup_cons, lookup_nil]
  by_cases hk : k = key
  · simp [hk]
  · rw [if_neg (Ne.symm hk), if_neg hk, lookup_eq_none fun c hc e => hk (e.symm.trans (hB c hc))]

theorem upserts_leafUpdate (hs : Subtree look 0 N lo hi) (hidx : idx < N.cells.length)
    (hkey : key = (N.cells.get ⟨idx, hidx⟩).key)
    (hu : leafUpdate (BNode.make (2 * BTREE_PAGE_SIZE)) N idx key val = .ok N') :
    Upserts key val N.cells N'.cells := by
  have ok := hs.nodeOk
  obtain ⟨-, hcells⟩ := leafUpdate_cells rfl ok.nkeys ok.small hu
  have hle : KeyLe (N.cells.get ⟨idx, hidx⟩).key key := by rw [← hkey]; exact bytesLt_irrefl _
  have h1 : Upserts key val [N.cells.get ⟨idx, hidx⟩] [⟨0, key, val⟩] :=
    upserts_single fun c hc => (List.mem_singleton.mp hc ▸ hkey.symm : c.key = key)
  have := h1.append (A := N.cells.take idx) (C := N.cells.drop (idx + 1)) (hs.entries_take_ne hidx hle)
  rwa [← cells_around hidx, List.append_assoc, List.singleton_append, ← hcells] at this

theorem upserts_leafInsert (hs : Subtree look 0 N lo hi) (hidx : idx < N.cells.length)
    (hlt : bytesLt (N.cells.get ⟨idx, hidx⟩).key key)
    (hu : leafInsert (BNode.make (2 * BTREE_PAGE_SIZE)) N (u16 (idx + 1)) key val = .ok N') :
    Upserts key val N.cells N'.cells := by
  have ok := hs.nodeOk
  have hcells := leafInsert_cells rfl ok.nkeys ok.small hu
  rw [u16_of_lt (by have := ok.small; rw [ok.nkeys] at this; omega)] at hcells
  have h1 : Upserts key val [] [⟨0, key, val⟩] := upserts_single fun c hc => absurd hc (List.not_mem_nil c)
  have := h1.append (A := N.cells.take (idx + 1)) (C := N.cells.drop (idx + 1))
    fun e he => ne_of_bytesLt (bytesLt_of_le_of_lt (ok.take_le hidx e he) hlt)
  rwa [List.append_nil, List.take_append_drop, List.append_assoc, List.singleton_append, ← hcells] at this

/-- `treeInsert` from a subtree over an in-memory store, with a key in its range and a key
and a value within the limits, returns a node whose entries store the value under the key
and under every other key what the entries of the subtree store. -/
theorem treeInsert_upserts (hk : key.length ≤ BTREE_MAX_KEY_SIZE) (hv : val.length ≤ BTREE_MAX_VAL_SIZE) :
    ∀ fuel {h : Nat} {N N' : BNode} {lo : Bytes} {hi : Option Bytes} {s s' : Pages},
      Subtree s.look h N lo hi → KeyLe lo key → Below key hi →
      treeInsert memPager fuel N key val s = .ok (N', s') →
      Upserts key val (cellsAt s.look h N) (cellsAt s'.look h N')
  | 0, _, _, _, _, _, _, _, _, _, _, hrun => by simp [treeInsert] at hrun
  | fuel + 1, h, N, N', lo, hi, s, s', hN, hlo, hb, hrun => by
    have ok := hN.nodeOk
    obtain ⟨idx, hidx, hl, ⟨hleaf, rfl, hcase⟩ | ⟨hnode, K, s1, K', s2, parts, hK, hdel, hrec, hsplit, hrun⟩⟩ :=
      treeInsert_cases ok hrun
    · obtain rfl := hN.shaped.height_of_leaf hleaf
      rcases hcase with ⟨hkey, hu⟩ | ⟨hne, hu⟩
      · exact upserts_leafUpdate hN hidx hkey hu
      · obtain ⟨_, hle⟩ := hl.le ok hN.head hlo
        exact upserts_leafInsert hN hidx ((bytesLt_total _ _).resolve_right fun h' =>
          h'.elim (fun e => hne e.symm) hle) hu
    · cases h with
      | zero => exact absurd (ok.btype.symm.trans hnode) (by decide)
      | succ h =>
        have hsK := hN.kid_bound hidx hK
        have hnu := hsK.not_under_self hK
        have hd := Replaces.of_del hdel (live_of_get_ok hK)
        have hsK1 := hsK.keep hd fun q hq e => hnu (e ▸ hq)
        obtain ⟨hshK1, hK1live⟩ := descend_after_del hK hnu (fun q => hsK.live) hsK.shaped hdel
        obtain ⟨_, hle⟩ := hl.le ok hN.head hlo
        have ih := treeInsert_upserts hk hv fuel hsK1 hle (hl.below_bound hb) hrec
        have hwK' := treeInsert_wide hk hv fuel hsK1 hle (hl.below_bound hb) hrec
        have hreb := treeInsert_rebuilt fuel hshK1 hK1live hrec
        obtain ⟨hspl, -⟩ := treeInsert_splittable hk hv fuel hshK1 hsK1.sized.1 hrec
        obtain ⟨parts', hparts', -, -, hcp, -⟩ := hspl.nodeSplit3
        obtain rfl : parts = parts' := Except.ok.inj (hsplit.symm.trans hparts')
        obtain ⟨mid, hcells', -, -, hf, -, -, hr⟩ :=
          nodeReplaceKidN_ok rfl ok.nkeys hidx (ok.nkeys ▸ ok.small) hrun
        have hkeep := replaceKid_keep hN hidx
          (.del_then hK (live_of_get_ok hK) hnu (fun q => hsK.live) hdel hreb.replaces) hr
        have hc := hN.cellsOk
        rw [cells_around hidx, List.append_assoc, cellsOk_append, cellsOk_append] at hc
        obtain ⟨hpre, -, hpost⟩ := hc
        -- the entries of the node before: those of the child between the others
        have hbefore : cellsAt s.look (h + 1) N = entriesOf s.look (h + 1) (N.cells.take idx) ++
            cellsAt s1.look h K ++ entriesOf s.look (h + 1) (N.cells.drop (idx + 1)) := by
          rw [hsK.cellsAt_congr fun q hq => hd.get_eq (hsK.live hq) fun e => hnu (e ▸ hq),
            cellsAt_eq_entriesOf]
          conv_lhs => rw [cells_around hidx]
          rw [entriesOf_append, entriesOf_append, entriesOf_singleton, cellsBelow_of_look h hK]
        -- after: the entries of the pages the new child was cut into, in its place
        have hafter : cellsAt s'.look (h + 1) N' = entriesOf s.look (h + 1) (N.cells.take idx) ++
            cellsAt s2.look h K' ++ entriesOf s.look (h + 1) (N.cells.drop (idx + 1)) := by
          rw [cellsAt_eq_entriesOf, hcells', entriesOf_append, entriesOf_append,
            hpre.entries_congr fun c hc => hkeep c (List.mem_append_left _ hc),
            hpost.entries_congr fun c hc => hkeep c (List.mem_append_right _ hc),
            entriesOf_link hf, ← entriesOf_flatten, hcp, cellsAt_eq_entriesOf,
            hwK'.entries_congr fun q hq => hr.get_eq (hreb.replaces.live_of_new hq) id]
        rw [hbefore, hafter]
        exact ih.append (hN.entries_take_ne hidx hle)

end Upserts

/-- The tree under `root` stores the entries `L`: none for the empty tree, else those of the
subtree under the root. -/
def Holds (look : UInt64 → Outcome BNode) (root : UInt64) (L : List Cell) : Prop :=
  root = 0 ∧ L = [] ∨
    root ≠ 0 ∧ ∃ h node, look root = .ok node ∧ Subtree look h node [] none ∧ L = cellsAt look h node

section Holds

variable {look : UInt64 → Outcome BNode} {fuel h : Nat} {root root' p : UInt64} {key val : Bytes}
  {err : Option String} {s s' s2 s3 : Pages} {node K' r r' : BNode} {parts : List BNode} {L : List Cell}

theorem Inv.holds (hinv : Inv look root) : ∃ L, Holds look root L := by
  by_cases hr0 : root = 0
  · exact ⟨[], .inl ⟨hr0, rfl⟩⟩
  · obtain ⟨h, node, hroot, hs⟩ := hinv.resolve_left hr0
    exact ⟨_, .inr ⟨hr0, h, node, hroot, hs, rfl⟩⟩

theorem Holds.get (hL : Holds s.look root L) (key : Bytes) :
    ∃ n, ∀ fuel, n ≤ fuel → BTree.get memPager fuel root key s = .ok (lookup key L, s) := by
  rcases hL with ⟨rfl, rfl⟩ | ⟨hr0, h, node, hroot, hs, rfl⟩
  · exact ⟨0, fun fuel _ => rfl⟩
  · exact ⟨h + 1, fun fuel hf => (get_of_root hr0 hroot).trans
      (getLoop_lookup fuel hs bytesLt_nil_right trivial hf)⟩

theorem Subtree.holds_new (hs : Subtree s.look h node [] none) (hnew : Pages.new node s = .ok (p, s')) :
    Holds s'.look p (cellsAt s.look h node) := by
  have hrep := Replaces.of_new hnew
  exact .inr ⟨(Pages.new_ok hnew).1, h, node, get_new hnew, hs.keep hrep fun _ _ => id,
    (hs.cellsAt_congr fun q hq => hrep.get_eq (hs.live hq) id).symm⟩

theorem splitRoot_entries (hK' : Wide s2.look h K' [] none) (hlive : ∀ q, Under s2.look K' q → s2.Live q)
    (hcp : (parts.map BNode.cells).flatten = K'.cells)
    (hr : (BNode.make BTREE_PAGE_SIZE).setHeader BNODE_NODE parts.length = .ok r)
    (hkids : appendKids memPager 0 r parts 0 s2 = .ok (r', s3)) :
    cellsAt s3.look (h + 1) r' = entriesOf s2.look h K'.cells := by
  obtain rfl := setHeader_ok hr
  obtain ⟨mid, rfl, -, hf, -, -, hk⟩ := appendKids_ok hkids
  rw [cellsAt_eq_entriesOf]
  show entriesOf s3.look (h + 1) mid = _
  rw [entriesOf_link hf, ← entriesOf_flatten, hcp]
  exact hK'.entries_congr fun q hq => hk.get_eq (hlive q hq) id

/-- `BTree.Insert` over an in-memory store, from a tree storing `L` and for a non-empty key,
leaves a tree that stores the value under the key, unless the key or the value was
refused, and under every other non-empty key what `L` stores. -/
theorem insert_holds (hL : Holds s.look root L) (hkey : key ≠ [])
    (hrun : BTree.insert memPager fuel root key val s = .ok ((root', err), s')) :
    ∃ L', Holds s'.look root' L' ∧
      ∀ k, k ≠ [] → lookup k L' = if k = key ∧ err = none then some val else lookup k L := by
  rcases insert_cases hrun with ⟨e, -, rfl, rfl, rfl⟩ | ⟨hlim, rfl, hcase⟩
  · exact ⟨L, hL, fun k _ => by simp⟩
  obtain ⟨hk, hv⟩ := checkLimit_eq_none hlim
  rcases hcase with ⟨rfl, hnew⟩ | ⟨hr0, node, s1, K', s2, parts, hnode, hdel, hrec, hsplit, hrest⟩
  · -- the first leaf of an empty tree, after the sentinel
    obtain rfl : L = [] := (hL.resolve_right fun h => h.1 rfl).2
    refine ⟨_, (Subtree.firstLeaf hkey hk hv).holds_new hnew, fun k hk' => ?_⟩
    simp [cellsAt_zero, lookup_cons, Ne.symm hk', eq_comm]
  obtain ⟨h, node', hn', hs, rfl⟩ := (hL.resolve_left fun h => hr0 h.1).2
  obtain rfl : node = node' := Except.ok.inj (hnode.symm.trans hn')
  obtain ⟨hs1, hwK', hlive', hklim, hne, hlen3, hcp, hpages⟩ := insert_descent hk hv hs hnode hdel hrec hsplit
  -- what the node the descent returns stores
  have hupd : ∀ k, lookup k (entriesOf s2.look h K'.cells) =
      if k = key then some val else lookup k (cellsAt s.look h node) := fun k => by
    rw [← cellsAt_eq_entriesOf, treeInsert_upserts hk hv fuel hs1 bytesLt_nil_right trivial hrec k,
      hs.cellsAt_congr fun q hq => (Replaces.of_del hdel (live_of_get_ok hnode)).get_eq (hs.live hq)
        fun e => hs.not_under_self hnode (e ▸ hq)]
  rcases hrest with ⟨r, r', s3, -, hr, hkids, hnew⟩ | ⟨hlen, hnew⟩
  · -- the root was split: a new level over the parts
    refine ⟨_, (Subtree.splitRoot hwK' hlive' hklim hne hlen3 hcp hpages hr hkids).holds_new hnew,
      fun k _ => ?_⟩
    rw [splitRoot_entries hwK' hlive' hcp hr hkids, hupd k]
    simp
  · -- one part: it becomes the root
    obtain ⟨K'', rfl⟩ := List.length_eq_one.mp
      (show parts.length = 1 by have := List.length_pos.mpr hne; omega)
    refine ⟨_, (hwK'.onePart hcp (hpages K'' (.head _))).holds_new hnew, fun k _ => ?_⟩
    rw [cellsAt_eq_entriesOf, show K''.cells = K'.cells by simpa using hcp, hupd k]
    simp

/-- `BTree.Get` after `BTree.Insert` over an in-memory store, from a tree with the invariant
and for non-empty keys: with enough fuel, `Get` of the key inserted reads the value, unless
the key or the value was refused, and `Get` of every other non-empty key reads what it read
before. -/
theorem insert_then_get (hinv : Inv s.look root) (hkey : key ≠ [])
    (hrun : BTree.insert memPager fuel root key val s = .ok ((root', err), s')) {k : Bytes} (hk : k ≠ []) :
    ∃ n, ∀ fuel', n ≤ fuel' → ∃ v, BTree.get memPager fuel' root k s = .ok (v, s) ∧
      BTree.get memPager fuel' root' k s' = .ok (if k = key ∧ err = none then some val else v, s') := by
  obtain ⟨L, hL⟩ := hinv.holds
  obtain ⟨L', hL', hlook⟩ := insert_holds hL hkey hrun
  obtain ⟨n, hn⟩ := hL.get k
  obtain ⟨n', hn'⟩ := hL'.get k
  refine ⟨max n n', fun fuel' hf => ⟨lookup k L, hn fuel' (by omega), ?_⟩⟩
  rw [hn' fuel' (by omega), hlook k hk]

theorem two_levels_insert_then_get :
    Inv twoLevelPages.look 3 ∧ ([5] : Bytes) ≠ [] ∧
      BTree.insert memPager 3 3 [5] [6] twoLevelPages = .ok ((5, none),
        ⟨[(1, ⟨BNODE_LEAF, 2, [⟨0, [], []⟩, ⟨0, [1], [2]⟩], BTREE_PAGE_SIZE⟩),
          (4, ⟨BNODE_LEAF, 2, [⟨0, [3], [4]⟩, ⟨0, [5], [6]⟩], BTREE_PAGE_SIZE⟩),
          (5, ⟨BNODE_NODE, 2, [⟨1, [], []⟩, ⟨4, [3], []⟩], BTREE_PAGE_SIZE⟩)], 5, [3, 2]⟩) ∧
      ∃ n, ∀ fuel, n ≤ fuel → ∃ v, BTree.get memPager fuel 3 [5] twoLevelPages = .ok (v, twoLevelPages) ∧
        BTree.get memPager fuel 5 [5]
            ⟨[(1, ⟨BNODE_LEAF, 2, [⟨0, [], []⟩, ⟨0, [1], [2]⟩], BTREE_PAGE_SIZE⟩),
              (4, ⟨BNODE_LEAF, 2, [⟨0, [3], [4]⟩, ⟨0, [5], [6]⟩], BTREE_PAGE_SIZE⟩),
              (5, ⟨BNODE_NODE, 2, [⟨1, [], []⟩, ⟨4, [3], []⟩], BTREE_PAGE_SIZE⟩)], 5, [3, 2]⟩ =
          .ok (if ([5] : Bytes) = [5] ∧ (none : Option String) = none then some [6] else v,
            ⟨[(1, ⟨BNODE_LEAF, 2, [⟨0, [], []⟩, ⟨0, [1], [2]⟩], BTREE_PAGE_SIZE⟩),
              (4, ⟨BNODE_LEAF, 2, [⟨0, [3], [4]⟩, ⟨0, [5], [6]⟩], BTREE_PAGE_SIZE⟩),
              (5, ⟨BNODE_NODE, 2, [⟨1, [], []⟩, ⟨4, [3], []⟩], BTREE_PAGE_SIZE⟩)], 5, [3, 2]⟩) := by
  refine ⟨twoLevelPages_inv, by decide, ?run, insert_then_get twoLevelPages_inv (by decide) ?run (by decide)⟩
  rfl

theorem Holds.get_ok {r : Option Bytes × Pages} (hL : Holds s.look root L)
    (hget : BTree.get memPager fuel root key s = .ok r) : r = (lookup key L, s) := by
  obtain ⟨n, hn⟩ := hL.get key
  rcases BTree.get_runLe memPager (Nat.le_max_left fuel n) root key s with he | he
  · rw [hget] at he
    cases he
  · rw [hget, hn _ (Nat.le_max_right fuel n)] at he
    exact Except.ok.inj he

theorem Holds.update_write {written : Bool} (hL : Holds s.look root L) (hkey : key ≠ [])
    (hrun : (do
      let (root, err) ← BTree.insert memPager fuel root key val
      return (root, true, err) : TreeM Pages (UInt64 × Bool × Option String)) s =
        .ok ((root', written, err), s')) :
    written = true ∧ ∃ L', Holds s'.look root' L' ∧
      ∀ k, k ≠ [] → lookup k L' = if k = key ∧ err = none then some val else lookup k L := by
  simp only [treeM_bind_ok_iff] at hrun
  obtain ⟨⟨r, e⟩, s1, hins, hp⟩ := hrun
  simp only [treeM_pure_ok_iff, Prod.mk.injEq] at hp
  obtain ⟨⟨rfl, rfl, rfl⟩, rfl⟩ := hp
  exact ⟨rfl, insert_holds hL hkey hins⟩

/-- `BTree.Update` over an in-memory store, from a tree storing `L` and for a non-empty key:
it attempts the write in `MODE_UPSERT`, in `MODE_UPDATE_ONLY` when the key is stored and in
`MODE_INSERT_ONLY` when it is not, and then stores the value under the key unless `Insert`
refused it; every other non-empty key keeps what `L` stores. -/
theorem update_holds {mode : Int} {written : Bool} (hL : Holds s.look root L) (hkey : key ≠ [])
    (hrun : BTree.update memPager fuel root key val mode s = .ok ((root', written, err), s')) :
    (written = true ↔
      mode = 0 ∨ mode = 1 ∧ (lookup key L).isSome ∨ mode = 2 ∧ (lookup key L).isNone) ∧
    ∃ L', Holds s'.look root' L' ∧
      ∀ k, k ≠ [] → lookup k L' = if k = key ∧ written = true ∧ err = none then some val else lookup k L := by
  unfold BTree.update at hrun
  split at hrun
  case h_1 =>
    obtain ⟨rfl, L', hL', hlook⟩ := hL.update_write hkey hrun
    exact ⟨by simp, L', hL', by simpa using hlook⟩
  case h_2 | h_3 =>
    simp only [treeM_bind_ok_iff] at hrun
    obtain ⟨g, s1, hget, hrun⟩ := hrun
    obtain ⟨rfl, rfl⟩ := Prod.mk.inj (hL.get_ok hget)
    split at hrun
    next hc =>
      obtain ⟨rfl, L', hL', hlook⟩ := hL.update_write hkey hrun
      exact ⟨by simpa using hc, L', hL', by simpa using hlook⟩
    next hc =>
      simp only [treeM_pure_ok_iff, Prod.mk.injEq] at hrun
      obtain ⟨⟨rfl, rfl, rfl⟩, rfl⟩ := hrun
      exact ⟨by simpa using hc, L, hL, by simp⟩
  case h_4 hm0 hm1 hm2 =>
    simp only [treeM_pure_ok_iff, Prod.mk.injEq] at hrun
    obtain ⟨⟨rfl, rfl, -⟩, rfl⟩ := hrun
    refine ⟨?_, L, hL, by simp⟩
    simp only [Bool.false_eq_true, false_iff, not_or, not_and]
    exact ⟨hm0, fun h => absurd h hm1, fun h => absurd h hm2⟩

theorem update_only_absent_key :
    Holds (Pages.look ⟨[(1, ⟨BNODE_LEAF, 2, [⟨0, [], []⟩, ⟨0, [1], [2]⟩], BTREE_PAGE_SIZE⟩)], 1, []⟩) 1
        [⟨0, [], []⟩, ⟨0, [1], [2]⟩] ∧ ([3] : Bytes) ≠ [] ∧
      BTree.update memPager 2 1 [3] [4] 1
          ⟨[(1, ⟨BNODE_LEAF, 2, [⟨0, [], []⟩, ⟨0, [1], [2]⟩], BTREE_PAGE_SIZE⟩)], 1, []⟩ =
        .ok ((1, false, none), ⟨[(1, ⟨BNODE_LEAF, 2, [⟨0, [], []⟩, ⟨0, [1], [2]⟩], BTREE_PAGE_SIZE⟩)], 1, []⟩) ∧
      (false = true ↔ (1 : Int) = 0 ∨ (1 : Int) = 1 ∧ (lookup [3] [⟨0, [], []⟩, ⟨0, [1], [2]⟩]).isSome ∨
        (1 : Int) = 2 ∧ (lookup [3] [⟨0, [], []⟩, ⟨0, [1], [2]⟩]).isNone) := by
  refine ⟨?held, by decide, ?run, (update_holds ?held (by decide) ?run).1⟩
  · exact .inr ⟨by decide, 0, _, rfl, Subtree.firstLeaf (by decide) (by decide) (by decide), rfl⟩
  · rfl

end Holds

/-- What a list of writes, newest first, stores under `k`. -/
def latest (k : Bytes) : List (Bytes × Bytes) → Option Bytes
  | [] => none
  | (k', v) :: kvs => if k' = k then some v else latest k kvs

/-- The stores and roots `BTree.Insert` calls of non-empty keys over an in-memory store build
from the empty store, with any fuel, and the writes they made, newest first: a call that
refuses the key or the value writes nothing. -/
inductive Inserted : Pages → UInt64 → List (Bytes × Bytes) → Prop
  | empty : Inserted Pages.empty 0 []
  | insert {s s' : Pages} {root root' : UInt64} {kvs : List (Bytes × Bytes)} {fuel : Nat}
      {key val : Bytes} {err : Option String} :
      Inserted s root kvs → key ≠ [] →
      BTree.insert memPager fuel root key val s = .ok ((root', err), s') →
      Inserted s' root' (if err = none then (key, val) :: kvs else kvs)

section Runs

variable {s : Pages} {root : UInt64} {kvs : List (Bytes × Bytes)}

theorem Inserted.holds (h : Inserted s root kvs) :
    ∃ L, Holds s.look root L ∧ ∀ k, k ≠ [] → lookup k L = latest k kvs := by
  induction h with
  | empty => exact ⟨[], .inl ⟨rfl, rfl⟩, fun _ _ => rfl⟩
  | @insert s s' root root' kvs fuel key val err _ hkey hrun ih =>
    obtain ⟨L, hL, hLk⟩ := ih
    obtain ⟨L', hL', hlook⟩ := insert_holds hL hkey hrun
    refine ⟨L', hL', fun k hk => ?_⟩
    rw [hlook k hk, hLk k hk]
    by_cases herr : err = none
    · by_cases hkk : k = key
      · simp [herr, hkk, latest]
      · simp [herr, hkk, latest, Ne.symm hkk]
    · simp [herr]

/-- A store built by `BTree.Insert` calls from the empty store is a map: with enough fuel,
`BTree.Get` of every non-empty key reads the value of the latest insert of that key that
was not refused, and nothing when there is none. -/
theorem Inserted.get_latest (h : Inserted s root kvs) {k : Bytes} (hk : k ≠ []) :
    ∃ n, ∀ fuel, n ≤ fuel → BTree.get memPager fuel root k s = .ok (latest k kvs, s) := by
  obtain ⟨L, hL, hLk⟩ := h.holds
  obtain ⟨n, hn⟩ := hL.get k
  exact ⟨n, fun fuel hf => by rw [hn fuel hf, hLk k hk]⟩

theorem two_inserts_get_first :
    Inserted ⟨[(2, ⟨BNODE_LEAF, 3, [⟨0, [], []⟩, ⟨0, [1], [2]⟩, ⟨0, [3], [4]⟩], BTREE_PAGE_SIZE⟩)], 2, [1]⟩ 2
        [([3], [4]), ([1], [2])] ∧ ([1] : Bytes) ≠ [] ∧
      ∃ n, ∀ fuel, n ≤ fuel → BTree.get memPager fuel 2 [1]
          ⟨[(2, ⟨BNODE_LEAF, 3, [⟨0, [], []⟩, ⟨0, [1], [2]⟩, ⟨0, [3], [4]⟩], BTREE_PAGE_SIZE⟩)], 2, [1]⟩ =
        .ok (some [2],
          ⟨[(2, ⟨BNODE_LEAF, 3, [⟨0, [], []⟩, ⟨0, [1], [2]⟩, ⟨0, [3], [4]⟩], BTREE_PAGE_SIZE⟩)], 2, [1]⟩) := by
  have r1 : BTree.insert memPager 1 0 [1] [2] Pages.empty =
      .ok ((1, none), ⟨[(1, ⟨BNODE_LEAF, 2, [⟨0, [], []⟩, ⟨0, [1], [2]⟩], BTREE_PAGE_SIZE⟩)], 1, []⟩) := rfl
  have r2 : BTree.insert memPager 2 1 [3] [4]
      ⟨[(1, ⟨BNODE_LEAF, 2, [⟨0, [], []⟩, ⟨0, [1], [2]⟩], BTREE_PAGE_SIZE⟩)], 1, []⟩ =
      .ok ((2, none),
        ⟨[(2, ⟨BNODE_LEAF, 3, [⟨0, [], []⟩, ⟨0, [1], [2]⟩, ⟨0, [3], [4]⟩], BTREE_PAGE_SIZE⟩)], 2, [1]⟩) := rfl
  have hrun : Inserted
      ⟨[(2, ⟨BNODE_LEAF, 3, [⟨0, [], []⟩, ⟨0, [1], [2]⟩, ⟨0, [3], [4]⟩], BTREE_PAGE_SIZE⟩)], 2, [1]⟩ 2
      [([3], [4]), ([1], [2])] := .insert (.insert .empty (by decide) r1) (by decide) r2
  obtain ⟨n, hn⟩ := Inserted.get_latest hrun (k := [1]) (by decide)
  exact ⟨hrun, by decide, n, fun fuel hf => (hn fuel hf).trans rfl⟩

end Runs

end GoMiniDb.Storage
