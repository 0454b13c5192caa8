import GoMiniDb.Storage.IterOrder
import GoMiniDb.Storage.Overflow

/-! # `Insert` keeps the invariant

`treeInsert` returns a node built in a buffer of two pages; its caller cuts it with
`nodeSplit3` and links the pages in its place. From a subtree, with a key in its range, the
node it returns keeps the invariant except for the page bound: it is `Wide`. The cells of a
node are read as a list whose keys bound the children in turn (`CellsOk`), so that cutting
a node into pages and splicing pages into a parent are one lemma about appends. Over an
in-memory store, `BTree.Insert` of a non-empty key, when it returns, leaves a tree with
the invariant: every page `nodeSplit3` returns fits, and the pages off the path are
untouched.
-/
namespace GoMiniDb.Storage

open BNode Pages

variable {look look' : UInt64 → Outcome BNode}

/-- The bound of the cell before `cs`: the first key of `cs`, or `hi`. -/
def bound (cs : List Cell) (hi : Option Bytes) : Option Bytes := (cs.head?.map Cell.key).or hi

/-- The children of `cells`: each a subtree of height `h` from its cell's key up to the
bound of the cells after it. -/
def Kids (look : UInt64 → Outcome BNode) (h : Nat) : List Cell → Option Bytes → Prop
  | [], _ => True
  | c :: cs, hi =>
    (∃ kid, look c.ptr = .ok kid ∧ Subtree look h kid c.key (bound cs hi)) ∧ Kids look h cs hi

/-- What lies below the cells of a node of height `h`: leaf entries within the limits, or
children. -/
def Entries (look : UInt64 → Outcome BNode) : Nat → List Cell → Option Bytes → Prop
  | 0, cells, _ => ∀ c ∈ cells, c.key.length ≤ BTREE_MAX_KEY_SIZE ∧ c.val.length ≤ BTREE_MAX_VAL_SIZE
  | h + 1, cells, hi => Kids look h cells hi

/-- The cells of a node of height `h` below `hi`, as the invariant has them. -/
structure CellsOk (look : UInt64 → Outcome BNode) (h : Nat) (cells : List Cell) (hi : Option Bytes) :
    Prop where
  sorted : (cells.map Cell.key).Pairwise bytesLt
  below : ∀ c ∈ cells, Below c.key hi
  entries : Entries look h cells hi

section Cells

variable {h : Nat} {A B cs : List Cell} {c : Cell} {hi : Option Bytes}

@[simp] theorem bound_nil : bound [] hi = hi := rfl

@[simp] theorem bound_cons : bound (c :: cs) hi = some c.key := rfl

theorem bound_append : bound (A ++ B) hi = bound A (bound B hi) := by
  cases A <;> rfl

theorem kids_append : Kids look h (A ++ B) hi ↔ Kids look h A (bound B hi) ∧ Kids look h B hi := by
  induction A with
  | nil => simp [Kids]
  | cons a A ih => rw [List.cons_append, Kids, Kids, ih, bound_append, and_assoc]

theorem entries_append :
    Entries look h (A ++ B) hi ↔ Entries look h A (bound B hi) ∧ Entries look h B hi := by
  cases h with
  | zero => exact List.forall_mem_append
  | succ h => exact kids_append

theorem cellsOk_append :
    CellsOk look h (A ++ B) hi ↔ CellsOk look h A (bound B hi) ∧ CellsOk look h B hi := by
  constructor
  · rintro ⟨hs, hb, he⟩
    rw [List.map_append, List.pairwise_append] at hs
    refine ⟨⟨hs.1, fun a ha => ?_, (entries_append.mp he).1⟩,
      ⟨hs.2.1, fun b hb' => hb b (List.mem_append_right _ hb'), (entries_append.mp he).2⟩⟩
    cases B with
    | nil => exact hb a (List.mem_append_left _ ha)
    | cons b B => exact hs.2.2 _ (List.mem_map_of_mem _ ha) _ (List.mem_map_of_mem _ (List.mem_cons_self b B))
  · rintro ⟨⟨hsA, hbA, heA⟩, ⟨hsB, hbB, heB⟩⟩
    refine ⟨?_, fun x hx => ?_, entries_append.mpr ⟨heA, heB⟩⟩
    · rw [List.map_append, List.pairwise_append]
      refine ⟨hsA, hsB, ?_⟩
      simp only [List.mem_map]
      rintro _ ⟨a, ha, rfl⟩ _ ⟨b, hb, rfl⟩
      cases B with
      | nil => exact absurd hb (List.not_mem_nil b)
      | cons b0 B =>
        have hab : bytesLt a.key b0.key := hbA a ha
        rcases List.mem_cons.mp hb with rfl | hb
        · exact hab
        · exact bytesLt_trans hab (List.rel_of_pairwise_cons hsB (List.mem_map_of_mem _ hb))
    · rcases List.mem_append.mp hx with hxA | hxB
      · cases B with
        | nil => exact hbA x hxA
        | cons b0 B => exact Below.of_le (.of_lt (hbA x hxA)) (hbB b0 (List.mem_cons_self b0 B))
      · exact hbB x hxB

theorem kids_iff : Kids look h cs hi ↔ ∀ i (hi' : i < cs.length), ∃ kid,
    look (cs.get ⟨i, hi'⟩).ptr = .ok kid ∧
      Subtree look h kid (cs.get ⟨i, hi'⟩).key (((cs.map Cell.key).get? (i + 1)).or hi) := by
  induction cs with
  | nil => simp [Kids]
  | cons c cs ih =>
    rw [Kids, ih]
    constructor
    · rintro ⟨h0, hs⟩ (_ | i) hi'
      · simpa [bound, List.head?_eq_getElem?] using h0
      · simpa using hs i (by simpa using hi')
    · intro H
      exact ⟨by simpa [bound, List.head?_eq_getElem?] using H 0 (by simp),
        fun i hi' => by simpa using H (i + 1) (by simpa using hi')⟩

end Cells

section Subtrees

variable {h : Nat} {node : BNode} {lo : Bytes} {hi : Option Bytes} {cs : List Cell}

theorem Subtree.cellsOk (hs : Subtree look h node lo hi) : CellsOk look h node.cells hi := by
  have hb := hs.keys_below
  cases hs with
  | leaf ok _ _ hlim => exact ⟨ok.sorted, fun c hc => hb _ (List.mem_map_of_mem _ hc), hlim⟩
  | node ok _ hex hsub =>
    refine ⟨ok.sorted, fun c hc => hb _ (List.mem_map_of_mem _ hc), kids_iff.mpr fun i hi' => ?_⟩
    obtain ⟨kid, hk⟩ := hex i hi'
    exact ⟨kid, hk, hsub i hi' kid hk⟩

theorem Subtree.of_cellsOk (ok : NodeOk (if h = 0 then BNODE_LEAF else BNODE_NODE) node)
    (hhead : node.keys.head? = some lo) (hc : CellsOk look h node.cells hi) : Subtree look h node lo hi := by
  cases h with
  | zero =>
    refine .leaf ok hhead (fun k hk => ?_) hc.entries
    obtain ⟨c, hc', rfl⟩ := List.mem_map.mp hk
    exact hc.below c hc'
  | succ h =>
    have hk := kids_iff.mp hc.entries
    refine .node ok hhead (fun i hi' => (hk i hi').imp fun _ h => h.1) fun i hi' kid hkid => ?_
    obtain ⟨kid', hk', hs⟩ := hk i hi'
    exact Except.ok.inj (hk'.symm.trans hkid) ▸ hs

theorem Subtree.live {s : Pages} (hs : Subtree s.look h node lo hi) {q : UInt64} (hq : Under s.look node q) :
    s.Live q := by
  obtain ⟨_, _, _, _, hq', -⟩ := hs.under_key hq
  exact live_of_get_ok hq'

theorem Subtree.congr (hs : Subtree look h node lo hi)
    (hagree : ∀ r, Under look node r → look' r = look r) : Subtree look' h node lo hi := by
  induction hs with
  | leaf ok hh hb hl => exact .leaf ok hh hb hl
  | @node h node lo hi ok hh hex hsub ih =>
    have hptr : ∀ i (hi' : i < node.cells.length),
        look' (node.cells.get ⟨i, hi'⟩).ptr = look (node.cells.get ⟨i, hi'⟩).ptr :=
      fun i hi' => hagree _ (.child ok.btype (List.get_mem _ _ _))
    refine .node ok hh (fun i hi' => hptr i hi' ▸ hex i hi') fun i hi' kid hk => ?_
    rw [hptr] at hk
    exact ih i hi' kid hk fun r hr => hagree r (.grand ok.btype (List.get_mem _ _ _) hk hr)

theorem Subtree.keep {s s' : Pages} {A A' : UInt64 → Prop} (hs : Subtree s.look h node lo hi)
    (hrep : Replaces s s' A A') (hA : ∀ q, Under s.look node q → ¬ A q) :
    Subtree s'.look h node lo hi :=
  hs.congr fun q hq => hrep.get_eq (hs.live hq) (hA q hq)

theorem Kids.congr (hk : Kids look h cs hi)
    (hagree : ∀ c ∈ cs, ∀ r, Reach look c.ptr r → look' r = look r) : Kids look' h cs hi := by
  induction cs with
  | nil => trivial
  | cons c cs ih =>
    obtain ⟨⟨kid, hkid, hs⟩, hrest⟩ := hk
    exact ⟨⟨kid, (hagree c (.head _) _ (.inl rfl)).trans hkid,
      hs.congr fun r hr => hagree c (.head _) r (.inr ⟨kid, hkid, hr⟩)⟩,
      ih hrest fun d hd => hagree d (.tail _ hd)⟩

theorem CellsOk.congr (hc : CellsOk look h cs hi)
    (hagree : ∀ c ∈ cs, ∀ r, Reach look c.ptr r → look' r = look r) : CellsOk look' h cs hi := by
  refine ⟨hc.sorted, hc.below, ?_⟩
  cases h with
  | zero => exact hc.entries
  | succ h => exact Kids.congr hc.entries hagree

end Subtrees

/-- What `treeInsert` returns from a subtree of height `h` from `lo` below `hi`: a node that
keeps the invariant except that it may need two pages. -/
structure Wide (look : UInt64 → Outcome BNode) (h : Nat) (node : BNode) (lo : Bytes)
    (hi : Option Bytes) : Prop where
  btype : node.hdrType = if h = 0 then BNODE_LEAF else BNODE_NODE
  head : node.keys.head? = some lo
  cells : CellsOk look h node.cells hi

section Wide

variable {h : Nat} {node p : BNode} {lo k : Bytes} {hi : Option Bytes}

theorem Subtree.wide (hs : Subtree look h node lo hi) : Wide look h node lo hi :=
  ⟨hs.nodeOk.btype, hs.head, hs.cellsOk⟩

theorem SplitPage.subtree (hp : SplitPage (if h = 0 then BNODE_LEAF else BNODE_NODE) p)
    (hhead : p.keys.head? = some lo) (hc : CellsOk look h p.cells hi) : Subtree look h p lo hi :=
  .of_cellsOk ⟨hp.btype, hp.nkeys, hp.nonempty, by rw [hp.len]; exact hp.page, hp.page, hc.sorted⟩
    hhead hc

theorem bound_of_head {F : List Cell} (hk : p.keys.head? = some k) : bound (p.cells ++ F) hi = some k := by
  cases hc : p.cells with
  | nil => simp [BNode.keys, hc] at hk
  | cons x xs => simpa [BNode.keys, hc] using hk

theorem cellsOk_link {mid : List Cell} {parts : List BNode}
    (hlink : List.Forall₂ (fun c p => look' c.ptr = .ok p ∧ p.keys.head? = some c.key) mid parts)
    (hpages : ∀ p ∈ parts, SplitPage (if h = 0 then BNODE_LEAF else BNODE_NODE) p)
    (hcells : CellsOk look h (parts.map BNode.cells).flatten hi)
    (hagree : ∀ p ∈ parts, ∀ r, Under look p r → look' r = look r) :
    CellsOk look' (h + 1) mid hi := by
  induction hlink with
  | nil => exact ⟨.nil, by simp, trivial⟩
  | @cons c p mid parts hcp hrest ih =>
    rw [List.map_cons, List.flatten_cons] at hcells
    have hsplit := cellsOk_append.mp hcells
    have ihc := ih (fun q hq => hpages q (.tail _ hq)) hsplit.2 fun q hq => hagree q (.tail _ hq)
    -- the next link is keyed by the first key of the pages after `p`
    have hb : bound mid hi = bound (parts.map BNode.cells).flatten hi := by
      cases hrest with
      | nil => rfl
      | cons hdq _ => rw [List.map_cons, List.flatten_cons, bound_of_head hdq.2]; rfl
    have hkeys : ∀ d ∈ mid, d.key ∈ (parts.map BNode.cells).flatten.map Cell.key := fun d hd => by
      obtain ⟨q, hq, -, hqk⟩ := forall₂_exists_mem hrest d hd
      obtain ⟨x, hx, hxk⟩ := List.mem_map.mp (List.mem_of_mem_head? hqk)
      exact List.mem_map.mpr ⟨x, List.mem_flatten.mpr ⟨_, List.mem_map_of_mem _ hq, hx⟩, hxk⟩
    obtain ⟨x, hx, hxk⟩ := List.mem_map.mp (List.mem_of_mem_head? hcp.2)
    have hs := hcells.sorted
    rw [List.map_append, List.pairwise_append] at hs
    refine ⟨?_, ?_, ⟨p, hcp.1, ?_⟩, ihc.entries⟩
    · rw [List.map_cons, List.pairwise_cons]
      refine ⟨fun k hk => ?_, ihc.sorted⟩
      obtain ⟨d, hd, rfl⟩ := List.mem_map.mp hk
      exact hxk ▸ hs.2.2 _ (List.mem_map_of_mem _ hx) _ (hkeys d hd)
    · rintro d (_ | ⟨_, hd⟩)
      · exact hxk ▸ hcells.below x (List.mem_append_left _ hx)
      · exact ihc.below d hd
    · rw [hb]
      exact (SplitPage.subtree (hpages p (.head _)) hcp.2 hsplit.1).congr (hagree p (.head _))

end Wide

section Leaf

variable {N N' : BNode} {lo key val : Bytes} {hi : Option Bytes} {idx : Nat}

theorem cellsOk_leaf_single {c : Cell} : CellsOk look 0 [c] hi ↔
    Below c.key hi ∧ c.key.length ≤ BTREE_MAX_KEY_SIZE ∧ c.val.length ≤ BTREE_MAX_VAL_SIZE := by
  constructor
  · rintro ⟨-, hb, he⟩
    exact ⟨hb c (.head _), he c (.head _)⟩
  · rintro ⟨hb, hl⟩
    exact ⟨List.pairwise_singleton _ _, by simpa using hb, by simpa [Entries] using hl⟩

theorem keys_head_of_take {M : List Cell} (hhead : N.keys.head? = some lo)
    (hcells : N'.cells = N.cells.take idx ++ M) (hM : idx = 0 → M.head?.map Cell.key = some lo) :
    N'.keys.head? = some lo := by
  cases idx with
  | zero => simpa [BNode.keys, hcells] using hM rfl
  | succ i =>
    cases hc : N.cells with
    | nil => simp [BNode.keys, hc] at hhead
    | cons c cs => simpa [BNode.keys, hcells, hc] using hhead

theorem NodeOk.take_le {t : Nat} (ok : NodeOk t N) (hidx : idx < N.cells.length) :
    ∀ a ∈ N.cells.take (idx + 1), KeyLe a.key (N.cells.get ⟨idx, hidx⟩).key := by
  intro a ha
  obtain ⟨j, hj, rfl⟩ := List.mem_iff_getElem.mp ha
  rw [List.length_take] at hj
  rw [List.getElem_take]
  exact ok.key_le (i := j) (by omega) hidx

theorem LookupLE.le {t : Nat} (ok : NodeOk t N) (hhead : N.keys.head? = some lo) (hlo : KeyLe lo key)
    (hl : LookupLE N key idx) : ∃ hidx : idx < N.cells.length, KeyLe (N.cells.get ⟨idx, hidx⟩).key key := by
  obtain ⟨c, hc, h0 | hle, -⟩ := hl <;> obtain ⟨hidx, rfl⟩ := List.getElem?_eq_some_iff.mp hc
  · subst h0
    obtain ⟨_, hlo'⟩ := head_eq_get ok hhead
    exact ⟨hidx, hlo' ▸ hlo⟩
  · exact ⟨hidx, hle⟩

theorem LookupLE.below_bound (hl : LookupLE N key idx) (hb : Below key hi) :
    Below key (bound (N.cells.drop (idx + 1)) hi) := by
  obtain ⟨-, -, -, hnext⟩ := hl
  cases hd : N.cells.drop (idx + 1) with
  | nil => exact hb
  | cons c cs =>
    refine hnext c ?_
    rw [← List.head?_drop, hd]
    rfl

theorem Wide.leafUpdate (hs : Subtree look 0 N lo hi) (hidx : idx < N.cells.length)
    (hkey : key = (N.cells.get ⟨idx, hidx⟩).key) (hk : key.length ≤ BTREE_MAX_KEY_SIZE)
    (hv : val.length ≤ BTREE_MAX_VAL_SIZE)
    (hu : leafUpdate (BNode.make (2 * BTREE_PAGE_SIZE)) N idx key val = .ok N') : Wide look 0 N' lo hi := by
  have ok := hs.nodeOk
  obtain ⟨ht, -, -, -⟩ := leafUpdate_ok rfl ok.small hu
  obtain ⟨-, hcells⟩ := leafUpdate_cells rfl ok.nkeys ok.small hu
  have hc := hs.cellsOk
  rw [cells_around hidx, List.append_assoc, cellsOk_append, cellsOk_append] at hc
  obtain ⟨hpre, hx, hpost⟩ := hc
  refine ⟨by simpa using ht, keys_head_of_take hs.head hcells fun h0 => ?_, ?_⟩
  · subst h0
    obtain ⟨_, hlo⟩ := head_eq_get ok hs.head
    simpa [hkey] using hlo
  · rw [hcells, ← List.singleton_append, cellsOk_append, cellsOk_append]
    exact ⟨by rw [hkey]; exact hpre,
      cellsOk_leaf_single.mpr ⟨hkey ▸ (cellsOk_leaf_single.mp hx).1, hk, hv⟩, hpost⟩

theorem Wide.leafInsert (hs : Subtree look 0 N lo hi) (hidx : idx < N.cells.length)
    (hlt : bytesLt (N.cells.get ⟨idx, hidx⟩).key key) (hb : Below key (bound (N.cells.drop (idx + 1)) hi))
    (hk : key.length ≤ BTREE_MAX_KEY_SIZE) (hv : val.length ≤ BTREE_MAX_VAL_SIZE)
    (hu : leafInsert (BNode.make (2 * BTREE_PAGE_SIZE)) N (u16 (idx + 1)) key val = .ok N') :
    Wide look 0 N' lo hi := by
  have ok := hs.nodeOk
  obtain ⟨ht, -, -, -⟩ := leafInsert_ok rfl ok.small hu
  have hcells := leafInsert_cells rfl ok.nkeys ok.small hu
  rw [u16_of_lt (by have := ok.small; rw [ok.nkeys] at this; omega)] at hcells
  have hc := hs.cellsOk
  rw [← List.take_append_drop (idx + 1) N.cells, cellsOk_append] at hc
  obtain ⟨hpre, hpost⟩ := hc
  refine ⟨by simpa using ht, keys_head_of_take hs.head hcells fun h0 => absurd h0 (Nat.succ_ne_zero idx), ?_⟩
  rw [hcells, ← List.singleton_append, cellsOk_append, cellsOk_append]
  exact ⟨⟨hpre.sorted, fun a ha => bytesLt_of_le_of_lt (ok.take_le hidx a ha) hlt, hpre.entries⟩,
    cellsOk_leaf_single.mpr ⟨hb, hk, hv⟩, hpost⟩

end Leaf

section Node

variable {s s1 s2 : Pages} {N N' K' new : BNode} {parts : List BNode} {h idx : Nat} {lo : Bytes}
  {hi : Option Bytes}

theorem forall₂_and {α β : Type} {R S : α → β → Prop} {as : List α} {bs : List β}
    (h1 : List.Forall₂ R as bs) (h2 : List.Forall₂ S as bs) :
    List.Forall₂ (fun a b => R a b ∧ S a b) as bs := by
  induction h1 with
  | nil => exact .nil
  | cons hab _ ih =>
    cases h2 with
    | cons hab' h2 => exact .cons ⟨hab, hab'⟩ (ih h2)

theorem appendKids_keys {new' : BNode} {i : Nat} (hrun : appendKids memPager idx new parts i s = .ok (new', s')) :
    ∃ mid, new'.cells = new.cells ++ mid ∧ List.Forall₂ (fun c p => p.keys.head? = some c.key) mid parts := by
  induction parts generalizing new i s with
  | nil =>
    simp only [appendKids, treeM_pure_ok_iff] at hrun
    obtain ⟨rfl, rfl⟩ := hrun
    exact ⟨[], by simp, .nil⟩
  | cons p parts ih =>
    simp only [appendKids, treeM_bind_ok_iff, liftM_ok_iff] at hrun
    obtain ⟨ptr, s1, -, key, _, ⟨hkey, rfl⟩, new1, _, ⟨happ, rfl⟩, hrest⟩ := hrun
    obtain ⟨mid, hmid, hf⟩ := ih hrest
    obtain ⟨rfl, -⟩ := nodeAppendKV_ok happ
    obtain ⟨hi, rfl⟩ := getKey_ok hkey
    refine ⟨⟨ptr, (p.cells.get ⟨0, hi⟩).key, []⟩ :: mid, by simp [hmid], .cons ?_ hf⟩
    rw [BNode.keys, List.head?_map, List.head?_eq_getElem?, List.getElem?_eq_getElem hi]
    rfl

theorem nodeReplaceKidN_keys {s' : Pages} (hnew : new.cells = [])
    (hrun : nodeReplaceKidN memPager new N idx parts s = .ok (N', s')) :
    ∃ mid X, N'.cells = N.cells.take idx ++ mid ++ X ∧
      List.Forall₂ (fun c p => p.keys.head? = some c.key) mid parts := by
  simp only [nodeReplaceKidN, treeM_bind_ok_iff, liftM_ok_iff] at hrun
  obtain ⟨n, _, ⟨-, rfl⟩, n1, _, ⟨h1, rfl⟩, n2, _, ⟨h2, rfl⟩, n3, s3, h3, h4, rfl⟩ := hrun
  obtain rfl := setHeader_ok h1
  obtain ⟨rfl, -⟩ := nodeAppendRange_ok h2
  obtain ⟨mid, hmid, hf⟩ := appendKids_keys h3
  obtain ⟨rfl, -⟩ := nodeAppendRange_ok h4
  refine ⟨mid, (N.cells.drop (u16 (idx + 1))).take (u16 (n + 65536 - u16 (idx + 1))), ?_, hf⟩
  simp [hmid, hnew]

theorem link_head {mid : List Cell} {K : BNode}
    (hf : List.Forall₂ (fun c p => p.keys.head? = some c.key) mid parts)
    (hne : ∀ p ∈ parts, p.cells ≠ []) (hcp : (parts.map BNode.cells).flatten = K.cells) :
    K.keys.head? = mid.head?.map Cell.key := by
  cases hf with
  | nil => simp [BNode.keys, ← hcp]
  | @cons c p mid parts hcp0 _ =>
    have hpk : p.keys ≠ [] := by simpa [BNode.keys] using hne p (.head _)
    have hK : K.keys = p.keys ++ (parts.map BNode.cells).flatten.map Cell.key := by
      simp [BNode.keys, ← hcp]
    rw [hK, List.head?_append_of_ne_nil _ hpk, hcp0]
    rfl

theorem replaceKid_keep {A B : UInt64 → Prop} (hN : Subtree s.look (h + 1) N lo hi)
    (hidx : idx < N.cells.length) (hrep : Replaces s s1 (Reach s.look (N.cells.get ⟨idx, hidx⟩).ptr) A)
    (hr : Replaces s1 s2 (fun _ => False) B) :
    ∀ c ∈ N.cells.take idx ++ N.cells.drop (idx + 1), ∀ r, Reach s.look c.ptr r → s2.look r = s.look r := by
  have htN : N.hdrType = BNODE_NODE := by simpa using hN.nodeOk.btype
  have hdisj : N.cells.Pairwise (Apart s.look) := by
    cases hN.shaped with
    | node _ _ _ _ hdisj => exact hdisj
  intro c hc r hrc
  have hcN : c ∈ N.cells := (List.mem_append.mp hc).elim List.mem_of_mem_take List.mem_of_mem_drop
  have hl := hN.live (.of_reach htN hcN hrc)
  have hnot : ¬ Reach s.look (N.cells.get ⟨idx, hidx⟩).ptr r := fun hk =>
    regionOf_disjoint (cells_around hidx ▸ hdisj) r ⟨c, hc, hrc⟩ ⟨_, .head _, hk⟩
  rw [hr.get_eq ((hrep.live r).mpr (.inl ⟨hl, hnot⟩)) id, hrep.get_eq hl hnot]

/-- `nodeReplaceKidN` after the descent into child `idx`, which made it a wide node `K'`
cut into `parts`: the node is wide again. The cells before and after the child lead to
pages the descent left alone. -/
theorem Wide.replaceKid (hN : Subtree s.look (h + 1) N lo hi) (hidx : idx < N.cells.length)
    (hrep : Replaces s s1 (Reach s.look (N.cells.get ⟨idx, hidx⟩).ptr) (Under s1.look K'))
    (hK' : Wide s1.look h K' (N.cells.get ⟨idx, hidx⟩).key (bound (N.cells.drop (idx + 1)) hi))
    (hcp : (parts.map BNode.cells).flatten = K'.cells)
    (hpages : ∀ p ∈ parts, SplitPage K'.hdrType p) (hnew : new.cells = [])
    (hrun : nodeReplaceKidN memPager new N idx parts s1 = .ok (N', s2)) :
    Wide s2.look (h + 1) N' lo hi := by
  have ok := hN.nodeOk
  obtain ⟨mid, hcells', hN', -, hf, -, -, hr⟩ :=
    nodeReplaceKidN_ok hnew ok.nkeys hidx (ok.nkeys ▸ ok.small) hrun
  obtain ⟨mid', X, hcells'', hkeys⟩ := nodeReplaceKidN_keys hnew hrun
  obtain rfl : mid = mid' := by
    rw [hcells', List.append_assoc, List.append_assoc] at hcells''
    exact (List.append_inj (List.append_cancel_left hcells'')
      (hf.length_eq.trans hkeys.length_eq.symm)).1
  -- the first new cell is keyed by the child's first key
  have hmidhead : mid.head?.map Cell.key = some (N.cells.get ⟨idx, hidx⟩).key :=
    (link_head hkeys (fun p hp => (hpages p hp).nonempty) hcp).symm.trans hK'.head
  have hkeep := replaceKid_keep hN hidx hrep hr
  have hparts : ∀ p ∈ parts, ∀ r, Under s1.look p r → s2.look r = s1.look r := fun p hp r hpr =>
    hr.get_eq (hrep.live_of_new ((under_parts (fun q hq => (hpages q hq).btype) hcp).mp ⟨p, hp, hpr⟩)) id
  have hc := hN.cellsOk
  rw [cells_around hidx, List.append_assoc, cellsOk_append, cellsOk_append] at hc
  obtain ⟨hpre, -, hpost⟩ := hc
  refine ⟨by simpa using hN'.btype, keys_head_of_take hN.head (M := mid ++ N.cells.drop (idx + 1))
    (by rw [hcells', List.append_assoc]) fun h0 => ?_, ?_⟩
  · subst h0
    obtain ⟨_, hlo⟩ := head_eq_get ok hN.head
    rw [List.get_eq_getElem] at hlo
    cases mid with
    | nil => simp at hmidhead
    | cons c mid => simpa [hlo] using hmidhead
  · rw [hcells', List.append_assoc, cellsOk_append, cellsOk_append]
    refine ⟨?_, cellsOk_link (forall₂_and hf hkeys) (fun p hp => hK'.btype ▸ hpages p hp) (hcp ▸ hK'.cells)
      hparts, hpost.congr fun c hc => hkeep c (List.mem_append_right _ hc)⟩
    rw [bound_append]
    simp only [bound, hmidhead, Option.or_some]
    exact hpre.congr fun c hc => hkeep c (List.mem_append_left _ hc)

end Node

section Descent

variable {look : UInt64 → Outcome BNode} {h idx fuel : Nat} {N N' K : BNode} {key val lo : Bytes}
  {hi : Option Bytes} {s s' : Pages}

theorem Subtree.kid_bound (hN : Subtree look (h + 1) N lo hi) (hidx : idx < N.cells.length)
    (hK : look (N.cells.get ⟨idx, hidx⟩).ptr = .ok K) :
    Subtree look h K (N.cells.get ⟨idx, hidx⟩).key (bound (N.cells.drop (idx + 1)) hi) := by
  have hc := hN.cellsOk
  rw [cells_around hidx, List.append_assoc, cellsOk_append, cellsOk_append] at hc
  obtain ⟨⟨kid, hkid, hs⟩, -⟩ := hc.2.1.entries
  obtain rfl : kid = K := Except.ok.inj (hkid.symm.trans hK)
  exact hs

/-- One step of `treeInsert` over an in-memory store from a node of a tree: at a leaf,
`leafUpdate` of the cell `nodeLookupLE` points to when it holds the key, else `leafInsert`
after it; at an internal node, the descent into the child it points to, whose page is
freed, and the splice of the pages `nodeSplit3` cuts the result into. -/
theorem treeInsert_cases {t : Nat} (ok : NodeOk t N)
    (hrun : treeInsert memPager (fuel + 1) N key val s = .ok (N', s')) :
    ∃ idx, ∃ hidx : idx < N.cells.length, LookupLE N key idx ∧
      ((N.hdrType = BNODE_LEAF ∧ s' = s ∧
        (key = (N.cells.get ⟨idx, hidx⟩).key ∧
            leafUpdate (BNode.make (2 * BTREE_PAGE_SIZE)) N idx key val = .ok N' ∨
          key ≠ (N.cells.get ⟨idx, hidx⟩).key ∧
            leafInsert (BNode.make (2 * BTREE_PAGE_SIZE)) N (u16 (idx + 1)) key val = .ok N')) ∨
       (N.hdrType = BNODE_NODE ∧ ∃ K s1 K' s2 parts,
         s.look (N.cells.get ⟨idx, hidx⟩).ptr = .ok K ∧
         Pages.del (N.cells.get ⟨idx, hidx⟩).ptr s = .ok ((), s1) ∧
         treeInsert memPager fuel K key val s1 = .ok (K', s2) ∧ nodeSplit3 K' = .ok parts ∧
         nodeReplaceKidN memPager (BNode.make (2 * BTREE_PAGE_SIZE)) N idx parts s2 = .ok (N', s'))) := by
  obtain ⟨j, hj, hl⟩ : ∃ j, nodeLookupLE N key = .ok j ∧ LookupLE N key j := nodeLookupLE_spec ok
  simp only [treeInsert, treeM_bind_ok_iff, liftM_ok_iff] at hrun
  obtain ⟨idx, _, ⟨hidx', rfl⟩, t, _, ⟨ht, rfl⟩, hrun⟩ := hrun
  obtain rfl : idx = j := Except.ok.inj (hidx'.symm.trans hj)
  obtain rfl := btype_ok ht
  split at hrun
  case isTrue hleaf =>
    simp only [treeM_bind_ok_iff, liftM_ok_iff] at hrun
    obtain ⟨k, _, ⟨hkey, rfl⟩, hrun⟩ := hrun
    obtain ⟨hidx, rfl⟩ := getKey_ok hkey
    refine ⟨idx, hidx, hl, .inl ⟨hleaf, ?_⟩⟩
    split at hrun
    · obtain ⟨hu, rfl⟩ := liftM_ok_iff.mp hrun
      exact ⟨rfl, .inl ⟨‹_›, hu⟩⟩
    · obtain ⟨hu, rfl⟩ := liftM_ok_iff.mp hrun
      exact ⟨rfl, .inr ⟨‹_›, hu⟩⟩
  case isFalse =>
    split at hrun
    case isFalse => simp at hrun
    case isTrue hnode =>
      simp only [nodeInsert, treeM_bind_ok_iff, liftM_ok_iff, getM_ok_iff] at hrun
      obtain ⟨kptr, _, ⟨hptr, rfl⟩, K, _, ⟨hK, rfl⟩, u, s1, hdel, K', s2, hrec, parts, _,
        ⟨hsplit, rfl⟩, hrun⟩ := hrun
      obtain ⟨hidx, rfl⟩ := getPtr_ok_cell hptr ok.nkeys
      exact ⟨idx, hidx, hl, .inr ⟨hnode, K, s1, K', s2, parts, hK, hdel, hrec, hsplit, hrun⟩⟩

theorem treeInsert_wide (hk : key.length ≤ BTREE_MAX_KEY_SIZE) (hv : val.length ≤ BTREE_MAX_VAL_SIZE) :
    ∀ fuel {h : Nat} {N N' : BNode} {lo : Bytes} {hi : Option Bytes} {s s' : Pages},
      Subtree s.look h N lo hi → KeyLe lo key → Below key hi →
      treeInsert memPager fuel N key val s = .ok (N', s') → Wide s'.look h N' lo hi
  | 0, _, _, _, _, _, _, _, _, _, _, hrun => by simp [treeInsert] at hrun
  | fuel + 1, h, N, N', lo, hi, s, s', hN, hlo, hb, hrun => by
    have ok := hN.nodeOk
    obtain ⟨idx, hidx, hl, ⟨hleaf, rfl, hcase⟩ | ⟨hnode, K, s1, K', s2, parts, hK, hdel, hrec, hsplit, hrun⟩⟩ :=
      treeInsert_cases ok hrun
    · obtain rfl := hN.shaped.height_of_leaf hleaf
      rcases hcase with ⟨hkey, hu⟩ | ⟨hne, hu⟩
      · exact Wide.leafUpdate hN hidx hkey hk hv hu
      · obtain ⟨_, hle⟩ := hl.le ok hN.head hlo
        exact Wide.leafInsert hN hidx ((bytesLt_total _ _).resolve_right fun h' =>
          h'.elim (fun e => hne e.symm) hle) (hl.below_bound hb) hk hv hu
    · cases h with
      | zero => exact absurd (ok.btype.symm.trans hnode) (by decide)
      | succ h =>
        -- the child, and its pages, after freeing its page
        have hsK := hN.kid_bound hidx hK
        have hnu := hsK.not_under_self hK
        have hsK1 := hsK.keep (.of_del hdel (live_of_get_ok hK)) fun q hq e => hnu (e ▸ hq)
        obtain ⟨hshK1, hK1live⟩ := descend_after_del hK hnu (fun q => hsK.live) hsK.shaped hdel
        -- one level down, the key lies in the child's range
        obtain ⟨_, hle⟩ := hl.le ok hN.head hlo
        have hwK' := treeInsert_wide hk hv fuel hsK1 hle (hl.below_bound hb) hrec
        have hreb := treeInsert_rebuilt fuel hshK1 hK1live hrec
        obtain ⟨hspl, -⟩ := treeInsert_splittable hk hv fuel hshK1 hsK1.sized.1 hrec
        obtain ⟨parts', hparts', -, -, hcp, hpages⟩ := hspl.nodeSplit3
        obtain rfl : parts = parts' := Except.ok.inj (hsplit.symm.trans hparts')
        exact Wide.replaceKid hN hidx (.del_then hK (live_of_get_ok hK) hnu (fun q => hsK.live) hdel
          hreb.replaces) hwK' hcp hpages rfl hrun

end Descent

section Insert

variable {fuel : Nat} {root root' p : UInt64} {key val : Bytes} {err : Option String}
  {s s' s2 s3 : Pages} {h : Nat} {node K' r r' : BNode} {parts : List BNode} {lo : Bytes}
  {hi : Option Bytes}

theorem Subtree.inv_new (hs : Subtree s.look h node [] none) (hnew : Pages.new node s = .ok (p, s')) :
    Inv s'.look p :=
  .inr ⟨h, node, get_new hnew, hs.keep (.of_new hnew) fun _ _ => id⟩

theorem checkLimit_eq_none (hlim : checkLimit key val = none) :
    key.length ≤ BTREE_MAX_KEY_SIZE ∧ val.length ≤ BTREE_MAX_VAL_SIZE := by
  unfold checkLimit at hlim
  split_ifs at hlim with h1 h2
  exact ⟨Nat.le_of_not_lt h1, Nat.le_of_not_lt h2⟩

theorem Subtree.firstLeaf (hkey : key ≠ []) (hk : key.length ≤ BTREE_MAX_KEY_SIZE)
    (hv : val.length ≤ BTREE_MAX_VAL_SIZE) :
    Subtree look 0 ⟨BNODE_LEAF, 2, [⟨0, [], []⟩, ⟨0, key, val⟩], BTREE_PAGE_SIZE⟩ [] none := by
  unfold BTREE_MAX_KEY_SIZE at hk
  unfold BTREE_MAX_VAL_SIZE at hv
  have hsize : BNode.size ⟨BNODE_LEAF, 2, [⟨0, [], []⟩, ⟨0, key, val⟩], BTREE_PAGE_SIZE⟩ ≤
      BTREE_PAGE_SIZE := by
    simp only [size_eq, cellsBytes, Cell.size, List.length_nil, HEADER, BTREE_PAGE_SIZE]
    omega
  refine .leaf ⟨rfl, rfl, by simp, hsize, hsize, by simp [BNode.keys, hkey]⟩ rfl (fun _ _ => trivial) ?_
  simp [hk, hv, BTREE_MAX_KEY_SIZE, BTREE_MAX_VAL_SIZE]

/-- The root `BTree.Insert` puts over the pages of a split root: the cells `appendKids`
writes link the pages in order under their first keys, with empty values, so the root
fits a page and keeps the invariant one level up. -/
theorem Subtree.splitRoot (hK' : Wide s2.look h K' [] none) (hlive : ∀ q, Under s2.look K' q → s2.Live q)
    (hlim : ∀ c ∈ K'.cells, c.key.length ≤ BTREE_MAX_KEY_SIZE) (hne : parts ≠ [])
    (hlen : parts.length ≤ 3) (hcp : (parts.map BNode.cells).flatten = K'.cells)
    (hpages : ∀ p ∈ parts, SplitPage K'.hdrType p)
    (hr : (BNode.make BTREE_PAGE_SIZE).setHeader BNODE_NODE parts.length = .ok r)
    (hkids : appendKids memPager 0 r parts 0 s2 = .ok (r', s3)) :
    Subtree s3.look (h + 1) r' [] none := by
  obtain rfl := setHeader_ok hr
  obtain ⟨mid, rfl, -, hf, hmid, -, hk⟩ := appendKids_ok hkids
  obtain ⟨mid', hcells, hkeys⟩ := appendKids_keys hkids
  obtain rfl : mid = mid' := by simpa [BNode.make] using hcells
  have hc : CellsOk s3.look (h + 1) mid none :=
    cellsOk_link (forall₂_and hf hkeys) (fun p hp => hK'.btype ▸ hpages p hp) (hcp ▸ hK'.cells)
      fun p hp q hq => hk.get_eq
        (hlive q ((under_parts (fun p hp => (hpages p hp).btype) hcp).mp ⟨p, hp, hq⟩)) id
  -- a cell of the root holds a key of the split node and no value
  have hcell : ∀ c ∈ mid, 10 + c.size ≤ 1014 := fun c hc' => by
    obtain ⟨hval, kid, hkid, hkey⟩ := hmid c hc'
    obtain ⟨d, hd, hdk⟩ := List.mem_map.mp hkey
    have := hlim d (hcp ▸ List.mem_flatten.mpr ⟨_, List.mem_map_of_mem _ hkid, hd⟩)
    unfold BTREE_MAX_KEY_SIZE at this
    simp only [Cell.size, hval, ← hdk, List.length_nil]
    omega
  have hpage : BNode.size ⟨BNODE_NODE, parts.length, mid, BTREE_PAGE_SIZE⟩ ≤ BTREE_PAGE_SIZE := by
    have := cellsBytes_le_mul hcell
    rw [← hf.length_eq] at hlen
    simp only [size_eq, HEADER, BTREE_PAGE_SIZE]
    omega
  show Subtree s3.look (h + 1) ⟨BNODE_NODE, parts.length, mid, BTREE_PAGE_SIZE⟩ [] none
  refine .of_cellsOk ⟨rfl, hf.length_eq.symm, by
    rintro (e : mid = []); subst e; exact hne (List.forall₂_nil_left_iff.mp hf), hpage,
    hpage, hc.sorted⟩ ?_ hc
  rw [BNode.keys, List.head?_map, ← link_head hkeys (fun p hp => (hpages p hp).nonempty) hcp, hK'.head]

/-- What `BTree.Insert` over an in-memory store does: refuse a key or a value past the
limits and change nothing; write the first leaf of an empty tree; or free the root's page,
insert below it, and store the pages `nodeSplit3` cuts the result into, under a new root
when there are several. -/
theorem insert_cases (hrun : BTree.insert memPager fuel root key val s = .ok ((root', err), s')) :
    (∃ e, checkLimit key val = some e ∧ err = some e ∧ root' = root ∧ s' = s) ∨
    (checkLimit key val = none ∧ err = none ∧
      ((root = 0 ∧ Pages.new ⟨BNODE_LEAF, 2, [⟨0, [], []⟩, ⟨0, key, val⟩], BTREE_PAGE_SIZE⟩ s = .ok (root', s')) ∨
       (root ≠ 0 ∧ ∃ node s1 K' s2 parts, s.look root = .ok node ∧ Pages.del root s = .ok ((), s1) ∧
         treeInsert memPager fuel node key val s1 = .ok (K', s2) ∧ nodeSplit3 K' = .ok parts ∧
         ((∃ r r' s3, 1 < parts.length ∧
             (BNode.make BTREE_PAGE_SIZE).setHeader BNODE_NODE parts.length = .ok r ∧
             appendKids memPager 0 r parts 0 s2 = .ok (r', s3) ∧ Pages.new r' s3 = .ok (root', s')) ∨
          (parts.length ≤ 1 ∧ Pages.new (parts.headD BNode.empty) s2 = .ok (root', s')))))) := by
  unfold BTree.insert at hrun
  rcases hlim : checkLimit key val with _ | e
  case some =>
    simp only [hlim, treeM_pure_ok_iff, Prod.mk.injEq] at hrun
    obtain ⟨⟨rfl, rfl⟩, rfl⟩ := hrun
    exact .inl ⟨e, rfl, rfl, rfl, rfl⟩
  simp only [hlim, treeM_bind_ok_iff, liftM_ok_iff, getM_ok_iff, treeM_ite_ok_iff, treeM_pure_ok_iff,
    Prod.mk.injEq, and_assoc, exists_and_left, exists_eq_left, exists_eq_left', true_and,
    exists_const] at hrun
  rcases hrun with ⟨rfl, r1, h1, r2, h2, r3, h3, p, s1, hnew, rfl, rfl, rfl⟩ |
    ⟨hr0, node, hnode, u, s1, hdel, K', s2, hrec, parts, hsplit, hrest⟩
  · obtain rfl := setHeader_ok h1
    obtain ⟨rfl, -⟩ := nodeAppendKV_ok h2
    obtain ⟨rfl, -⟩ := nodeAppendKV_ok h3
    exact .inr ⟨rfl, rfl, .inl ⟨rfl, hnew⟩⟩
  refine .inr ⟨rfl, ?_⟩
  rcases hrest with ⟨hlen, r, hr, r', s3, hkids, p, s4, hnew, rfl, rfl, rfl⟩ |
    ⟨hlen, p, s3, hnew, rfl, rfl, rfl⟩
  · exact ⟨rfl, .inr ⟨hr0, node, s1, K', s2, parts, hnode, hdel, hrec, hsplit,
      .inl ⟨r, r', s3, hlen, hr, hkids, hnew⟩⟩⟩
  · exact ⟨rfl, .inr ⟨hr0, node, s1, K', s2, parts, hnode, hdel, hrec, hsplit, .inr ⟨by omega, hnew⟩⟩⟩

/-- The descent of `BTree.Insert` below a root with the invariant, after freeing its page:
the node it returns is wide over pages that are live, and `nodeSplit3` cuts it into one to
three pages. -/
theorem insert_descent (hk : key.length ≤ BTREE_MAX_KEY_SIZE) (hv : val.length ≤ BTREE_MAX_VAL_SIZE)
    {s1 : Pages} (hs : Subtree s.look h node [] none) (hnode : s.look root = .ok node)
    (hdel : Pages.del root s = .ok ((), s1)) (hrec : treeInsert memPager fuel node key val s1 = .ok (K', s2))
    (hsplit : nodeSplit3 K' = .ok parts) :
    Subtree s1.look h node [] none ∧ Wide s2.look h K' [] none ∧ (∀ q, Under s2.look K' q → s2.Live q) ∧
      (∀ c ∈ K'.cells, c.key.length ≤ BTREE_MAX_KEY_SIZE) ∧ parts ≠ [] ∧ parts.length ≤ 3 ∧
      (parts.map BNode.cells).flatten = K'.cells ∧ ∀ p ∈ parts, SplitPage K'.hdrType p := by
  have hnu := hs.not_under_self hnode
  have hs1 := hs.keep (.of_del hdel (live_of_get_ok hnode)) fun q hq e => hnu (e ▸ hq)
  obtain ⟨hsh1, hlive1⟩ := descend_after_del hnode hnu (fun q => hs.live) hs.shaped hdel
  have hreb := treeInsert_rebuilt fuel hsh1 hlive1 hrec
  obtain ⟨hspl, hklim⟩ := treeInsert_splittable hk hv fuel hsh1 hs1.sized.1 hrec
  obtain ⟨parts', hparts', hpos, hlen3, hcp, hpages⟩ := hspl.nodeSplit3
  obtain rfl : parts = parts' := Except.ok.inj (hsplit.symm.trans hparts')
  exact ⟨hs1, treeInsert_wide hk hv fuel hs1 bytesLt_nil_right trivial hrec,
    fun q => hreb.replaces.live_of_new, hklim, List.ne_nil_of_length_pos hpos, hlen3, hcp, hpages⟩

theorem Wide.onePart {K'' : BNode} (hK' : Wide look h K' [] none)
    (hcp : ([K''].map BNode.cells).flatten = K'.cells) (hp : SplitPage K'.hdrType K'') :
    Subtree look h K'' [] none := by
  rw [List.map_singleton, List.flatten_singleton] at hcp
  have hhead : K''.keys.head? = some [] := by rw [← hK'.head, BNode.keys, BNode.keys, hcp]
  exact SplitPage.subtree (hK'.btype ▸ hp) hhead (hcp ▸ hK'.cells)

/-- `BTree.Insert` over an in-memory store keeps the invariant: from a tree, inserting a
non-empty key leaves a tree under the root it returns, whether the key or the value was
refused, the tree was empty, the new root is the one page the old root became, or a new
level over the pages of a split root. -/
theorem insert_keeps_inv (hinv : Inv s.look root) (hkey : key ≠ [])
    (hrun : BTree.insert memPager fuel root key val s = .ok ((root', err), s')) : Inv s'.look root' := by
  rcases insert_cases hrun with ⟨e, -, -, rfl, rfl⟩ | ⟨hlim, -, hcase⟩
  · exact hinv
  obtain ⟨hk, hv⟩ := checkLimit_eq_none hlim
  rcases hcase with ⟨-, hnew⟩ | ⟨hr0, node, s1, K', s2, parts, hnode, hdel, hrec, hsplit, hrest⟩
  · -- the first leaf of an empty tree
    exact (Subtree.firstLeaf hkey hk hv).inv_new hnew
  obtain ⟨h, node', hn', hs⟩ := hinv.resolve_left hr0
  obtain rfl : node = node' := Except.ok.inj (hnode.symm.trans hn')
  obtain ⟨-, hwK', hlive', hklim, hne, hlen3, hcp, hpages⟩ := insert_descent hk hv hs hnode hdel hrec hsplit
  rcases hrest with ⟨r, r', s3, -, hr, hkids, hnew⟩ | ⟨hlen, hnew⟩
  · -- the root was split: a new level over the parts
    exact (Subtree.splitRoot hwK' hlive' hklim hne hlen3 hcp hpages hr hkids).inv_new hnew
  · -- one part: it becomes the root
    obtain ⟨K'', rfl⟩ := List.length_eq_one.mp
      (show parts.length = 1 by have := List.length_pos.mpr hne; omega)
    exact (hwK'.onePart hcp (hpages K'' (.head _))).inv_new hnew

theorem insert_keeps_inv_twice :
    Inv Pages.empty.look 0 ∧ ([1] : Bytes) ≠ [] ∧ ([3] : Bytes) ≠ [] ∧
      BTree.insert memPager 1 0 [1] [2] Pages.empty =
        .ok ((1, none), ⟨[(1, ⟨BNODE_LEAF, 2, [⟨0, [], []⟩, ⟨0, [1], [2]⟩], BTREE_PAGE_SIZE⟩)], 1, []⟩) ∧
      BTree.insert memPager 2 1 [3] [4]
          ⟨[(1, ⟨BNODE_LEAF, 2, [⟨0, [], []⟩, ⟨0, [1], [2]⟩], BTREE_PAGE_SIZE⟩)], 1, []⟩ =
        .ok ((2, none),
          ⟨[(2, ⟨BNODE_LEAF, 3, [⟨0, [], []⟩, ⟨0, [1], [2]⟩, ⟨0, [3], [4]⟩], BTREE_PAGE_SIZE⟩)], 2, [1]⟩) ∧
      Inv (Pages.look
        ⟨[(2, ⟨BNODE_LEAF, 3, [⟨0, [], []⟩, ⟨0, [1], [2]⟩, ⟨0, [3], [4]⟩], BTREE_PAGE_SIZE⟩)], 2, [1]⟩) 2 := by
  refine ⟨.inl rfl, by decide, by decide, ?first, ?second,
    insert_keeps_inv (insert_keeps_inv (.inl rfl) (by decide) ?first) (by decide) ?second⟩ <;> rfl

end Insert

end GoMiniDb.Storage
