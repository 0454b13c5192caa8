import GoMiniDb.Storage.Node

/-! # The tree invariant

A well-formed tree, read off its pages: every node has a type, at least one key and at
most a page of bytes; the keys of a node strictly increase; the `i`-th key of an internal
node is the first key of its `i`-th child, and every key under that child lies between
the `i`-th key and the next one (or the bound of the node itself, for the last child);
all leaves lie at one depth; the root starts with the empty key; leaf keys and values are
within the limits. Nodes are taken as fully written: the header count is the number of
cells and the cells lie inside the buffer, so every read returns what was written.
-/
namespace GoMiniDb.Storage

namespace BNode

def keys (node : BNode) : List Bytes := node.cells.map Cell.key

def size (node : BNode) : Nat :=
  HEADER + 10 * node.cells.length + offsetOf node.cells node.cells.length

end BNode

def bytesLt (a b : Bytes) : Prop := bytesCompare a b = .lt

instance : DecidableRel bytesLt := fun a b => inferInstanceAs (Decidable (bytesCompare a b = .lt))

section Order

@[simp] theorem bytesLt_nil_left {b : Bytes} : bytesLt [] b ↔ b ≠ [] := by
  cases b <;> simp [bytesLt, bytesCompare]

@[simp] theorem bytesLt_nil_right {a : Bytes} : ¬ bytesLt a [] := by
  cases a <;> simp [bytesLt, bytesCompare]

theorem uint8_trichotomy (x y : UInt8) : x < y ∨ x = y ∨ y < x := by
  have h : x.toNat < y.toNat ∨ x.toNat = y.toNat ∨ y.toNat < x.toNat := by omega
  exact h.imp_right (Or.imp_left UInt8.toNat.inj)

@[simp] theorem bytesLt_cons_cons {x y : UInt8} {as bs : Bytes} :
    bytesLt (x :: as) (y :: bs) ↔ x < y ∨ x = y ∧ bytesLt as bs := by
  unfold bytesLt
  rw [bytesCompare]
  rcases uint8_trichotomy x y with h | rfl | h
  · simp [h]
  · simp
  · simp [h, UInt8.lt_asymm h, UInt8.ne_of_lt h |>.symm]

theorem bytesLt_irrefl (a : Bytes) : ¬ bytesLt a a := by
  induction a with
  | nil => simp
  | cons x as ih => simp [ih]

theorem bytesLt_trans {a b c : Bytes} (hab : bytesLt a b) (hbc : bytesLt b c) : bytesLt a c := by
  induction a generalizing b c with
  | nil => cases c <;> simp_all
  | cons x as ih =>
    cases b with
    | nil => simp at hab
    | cons y bs =>
      cases c with
      | nil => simp at hbc
      | cons z cs =>
        simp only [bytesLt_cons_cons] at *
        rcases hab with h | ⟨rfl, h⟩ <;> rcases hbc with h' | ⟨rfl, h'⟩
        · exact .inl (UInt8.lt_trans h h')
        · exact .inl h
        · exact .inl h'
        · exact .inr ⟨rfl, ih h h'⟩

theorem bytesLt_total (a b : Bytes) : bytesLt a b ∨ a = b ∨ bytesLt b a := by
  induction a generalizing b with
  | nil => cases b <;> simp
  | cons x as ih =>
    cases b with
    | nil => simp
    | cons y bs =>
      simp only [bytesLt_cons_cons, List.cons.injEq]
      rcases uint8_trichotomy x y with h | rfl | h
      · exact .inl (.inl h)
      · rcases ih bs with h | rfl | h
        · exact .inl (.inr ⟨rfl, h⟩)
        · exact .inr (.inl ⟨rfl, rfl⟩)
        · exact .inr (.inr (.inr ⟨rfl, h⟩))
      · exact .inr (.inr (.inl h))

theorem bytesCompare_eq_eq : ∀ {a b : Bytes}, bytesCompare a b = .eq → a = b
  | [], [], _ => rfl
  | [], _ :: _, h => by simp [bytesCompare] at h
  | _ :: _, [], h => by simp [bytesCompare] at h
  | x :: as, y :: bs, h => by
    simp only [bytesCompare] at h
    split_ifs at h with h1 h2
    obtain rfl : x = y := by rcases uint8_trichotomy x y with h3 | h3 | h3 <;> simp_all
    rw [bytesCompare_eq_eq h]

theorem bytesCompare_eq_gt : ∀ {a b : Bytes}, bytesCompare a b = .gt → bytesLt b a
  | [], [], h => by simp [bytesCompare] at h
  | [], _ :: _, h => by simp [bytesCompare] at h
  | _ :: _, [], _ => by simp
  | x :: as, y :: bs, h => by
    simp only [bytesCompare] at h
    split_ifs at h with h1 h2
    · exact bytesLt_cons_cons.mpr (.inl h2)
    · obtain rfl : x = y := by rcases uint8_trichotomy x y with h3 | h3 | h3 <;> simp_all
      exact bytesLt_cons_cons.mpr (.inr ⟨rfl, bytesCompare_eq_gt h⟩)

def KeyLe (a b : Bytes) : Prop := ¬ bytesLt b a

theorem KeyLe.of_lt {a b : Bytes} (h : bytesLt a b) : KeyLe a b := fun h' =>
  bytesLt_irrefl a (bytesLt_trans h h')

theorem KeyLe.refl (a : Bytes) : KeyLe a a := bytesLt_irrefl a

theorem bytesLt_of_lt_of_le {a b c : Bytes} (hab : bytesLt a b) (hbc : KeyLe b c) : bytesLt a c := by
  rcases bytesLt_total b c with h | rfl | h
  · exact bytesLt_trans hab h
  · exact hab
  · exact absurd h hbc

theorem bytesLt_of_le_of_lt {a b c : Bytes} (hab : KeyLe a b) (hbc : bytesLt b c) : bytesLt a c := by
  rcases bytesLt_total a b with h | rfl | h
  · exact bytesLt_trans h hbc
  · exact hbc
  · exact absurd h hab

theorem KeyLe.trans {a b c : Bytes} (hab : KeyLe a b) (hbc : KeyLe b c) : KeyLe a c :=
  fun hca => hbc (bytesLt_of_lt_of_le hca hab)

end Order

/-- A node of type `t` that keeps the invariant by itself. -/
structure NodeOk (t : Nat) (node : BNode) : Prop where
  btype : node.hdrType = t
  nkeys : node.hdrKeys = node.cells.length
  nonempty : node.cells ≠ []
  fits : node.size ≤ node.len
  page : node.size ≤ BTREE_PAGE_SIZE
  sorted : node.keys.Pairwise bytesLt

theorem NodeOk.small {t : Nat} {node : BNode} (ok : NodeOk t node) : node.hdrKeys < 65536 := by
  have hp := ok.page
  unfold BNode.size HEADER BTREE_PAGE_SIZE at hp
  rw [ok.nkeys]
  omega

theorem NodeOk.written {t : Nat} {node : BNode} (ok : NodeOk t node) :
    node.cells.length ≤ node.hdrKeys :=
  le_of_eq ok.nkeys.symm

/-- `k` lies below the bound, if there is one. -/
def Below (k : Bytes) : Option Bytes → Prop
  | none => True
  | some b => bytesLt k b

instance (k : Bytes) : (hi : Option Bytes) → Decidable (Below k hi)
  | none => inferInstanceAs (Decidable True)
  | some b => inferInstanceAs (Decidable (bytesLt k b))

/-- The subtree under `node` has height `h`, starts with the key `lo` and holds only keys
below `hi`; `look` reads its pages. -/
inductive Subtree (look : UInt64 → Outcome BNode) : Nat → BNode → Bytes → Option Bytes → Prop
  | leaf {node : BNode} {lo : Bytes} {hi : Option Bytes} :
      NodeOk BNODE_LEAF node → node.keys.head? = some lo → (∀ k ∈ node.keys, Below k hi) →
      (∀ c ∈ node.cells, c.key.length ≤ BTREE_MAX_KEY_SIZE ∧
        c.val.length ≤ BTREE_MAX_VAL_SIZE) →
      Subtree look 0 node lo hi
  | node {h : Nat} {node : BNode} {lo : Bytes} {hi : Option Bytes} :
      NodeOk BNODE_NODE node → node.keys.head? = some lo →
      (∀ i (hi' : i < node.cells.length), ∃ kid, look (node.cells.get ⟨i, hi'⟩).ptr = .ok kid) →
      (∀ i (hi' : i < node.cells.length) kid, look (node.cells.get ⟨i, hi'⟩).ptr = .ok kid →
        Subtree look h kid (node.cells.get ⟨i, hi'⟩).key ((node.keys.get? (i + 1)).or hi)) →
      Subtree look (h + 1) node lo hi

/-- The invariant of a tree with root `root`, over the pages `look` reads: the empty tree,
or a subtree of some height under the root's node, from the empty key and unbounded. -/
def Inv (look : UInt64 → Outcome BNode) (root : UInt64) : Prop :=
  root = 0 ∨ ∃ h node, look root = .ok node ∧ Subtree look h node [] none

section

variable {look : UInt64 → Outcome BNode} {h : Nat} {node : BNode} {lo : Bytes} {hi : Option Bytes}

theorem Subtree.nodeOk (hs : Subtree look h node lo hi) :
    NodeOk (if h = 0 then BNODE_LEAF else BNODE_NODE) node := by
  cases hs with
  | leaf ok => exact ok
  | node ok => exact ok

theorem Inv.root_page {root : UInt64} (hinv : Inv look root) (h0 : root ≠ 0)
    (hr : look root = .ok node) : node.size ≤ BTREE_PAGE_SIZE := by
  obtain h | ⟨_, node', hn, hs⟩ := hinv
  · exact absurd h h0
  · rw [hr, Except.ok.injEq] at hn
    exact hn ▸ hs.nodeOk.page

end

end GoMiniDb.Storage
