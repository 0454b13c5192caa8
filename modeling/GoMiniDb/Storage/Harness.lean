import GoMiniDb.Storage.Pages
import GoMiniDb.Storage.Fuel
import GoMiniDb.Storage.Inv

/-! # The reference-map test harness

`newC` of the B-tree tests: a tree over in-memory pages, and a Go map holding what the
tree should hold. `add` inserts into both; `del` deletes from the tree and, when the tree
reports the key, from the map.
-/
namespace GoMiniDb.Storage

/-- The harness: the tree's root, the reference map and the pages. -/
structure C where
  root : UInt64
  ref : GoMap Bytes Bytes
  mem : Pages

def newC : C := ⟨0, [], Pages.empty⟩

/-- A call a test makes. -/
inductive Call
  | add (key val : Bytes)
  | del (key : Bytes)

/-- The keys and values the tests use: a nonempty key within the key limit, and a value
within the value limit. -/
def Call.InLimits : Call → Prop
  | .add key val => key ≠ [] ∧ key.length ≤ BTREE_MAX_KEY_SIZE ∧ val.length ≤ BTREE_MAX_VAL_SIZE
  | .del key => key ≠ [] ∧ key.length ≤ BTREE_MAX_KEY_SIZE

instance : (c : Call) → Decidable c.InLimits
  | .add key val => inferInstanceAs (Decidable (key ≠ [] ∧ key.length ≤ BTREE_MAX_KEY_SIZE ∧
      val.length ≤ BTREE_MAX_VAL_SIZE))
  | .del key => inferInstanceAs (Decidable (key ≠ [] ∧ key.length ≤ BTREE_MAX_KEY_SIZE))

namespace C

def add (fuel : Nat) (key val : Bytes) : TreeM C Unit := fun c => do
  let ((root, _), mem) ← BTree.insert harnessPager fuel c.root key val c.mem
  return ((), ⟨root, c.ref.set key val, mem⟩)

def del (fuel : Nat) (key : Bytes) : TreeM C Bool := fun c => do
  let ((root, found), mem) ← BTree.delete harnessPager fuel c.root key c.mem
  return (found, ⟨root, if found then c.ref.erase key else c.ref, mem⟩)

def call (fuel : Nat) : Call → TreeM C Unit
  | .add key val => add fuel key val
  | .del key => do let _ ← del fuel key

def run (fuel : Nat) : List Call → TreeM C Unit
  | [] => pure ()
  | c :: cs => do call fuel c; run fuel cs

theorem call_runLe {fuel fuel' : Nat} (h : fuel ≤ fuel') (c : Call) :
    RunLe (call fuel c) (call fuel' c) := by
  cases c with
  | add key val =>
    exact fun s => (BTree.insert_runLe harnessPager h _ _ _ s.mem).bind fun _ => .inr rfl
  | del key =>
    exact .bind (fun s => (BTree.delete_runLe harnessPager h _ _ s.mem).bind fun _ => .inr rfl)
      fun _ => .refl _

theorem run_runLe {fuel fuel' : Nat} (h : fuel ≤ fuel') (cs : List Call) :
    RunLe (run fuel cs) (run fuel' cs) := by
  induction cs with
  | nil => exact .refl _
  | cons c cs ih => exact .bind (call_runLe h c) fun _ => ih

theorem run_cons_of_ok {fuel : Nat} {c : Call} {cs : List Call} {s s' : C}
    (h : call fuel c s = .ok ((), s')) : run fuel (c :: cs) s = run fuel cs s' := by
  show (call fuel c s >>= fun p => run fuel cs p.2) = _
  rw [h]; rfl

end C

/- Long keys fill the root with separators: after seven inserts the root has six children
and 4089 bytes. Deleting `[0x20]`, the first key of the second leaf, makes the next key of
that leaf, 1000 bytes long, its separator; `nodeReplaceKidN` builds the new root of 5088
bytes in a one-page buffer, and the harness's `new` stops on it.
-/

def longKey (b : UInt8) : Bytes := b :: List.replicate 999 1

def zeros (n : Nat) : Bytes := List.replicate n 0

def overflowCalls : List Call :=
  [.add [0x10] (zeros 1100), .add [0x20] (zeros 1100), .add (longKey 0x20) (zeros 1000),
    .add (longKey 0x30) (zeros 1100), .add (longKey 0x40) (zeros 1100),
    .add (longKey 0x50) (zeros 1100), .add (longKey 0x60) (zeros 1100), .del [0x20]]

/-- What the reference map holds after the inserts. -/
def overflowRef : GoMap Bytes Bytes :=
  [([0x10], zeros 1100), ([0x20], zeros 1100), (longKey 0x20, zeros 1000),
    (longKey 0x30, zeros 1100), (longKey 0x40, zeros 1100), (longKey 0x50, zeros 1100),
    (longKey 0x60, zeros 1100)]

def leafPage (cells : List Cell) : BNode := ⟨BNODE_LEAF, cells.length, cells, BTREE_PAGE_SIZE⟩

/-- An internal page of the run, from its child pointers and keys. -/
def innerPage (kids : List (UInt64 × Bytes)) : BNode :=
  ⟨BNODE_NODE, kids.length, kids.map fun (p, k) => ⟨p, k, []⟩, BTREE_PAGE_SIZE⟩

def leafX : BNode := leafPage [⟨0, [], []⟩, ⟨0, [0x10], zeros 1100⟩]

/-- The leaf of `[0x20]` and the long key after it. -/
def leafSL : BNode := leafPage [⟨0, [0x20], zeros 1100⟩, ⟨0, longKey 0x20, zeros 1000⟩]

def leafK (b : UInt8) : BNode := leafPage [⟨0, longKey b, zeros 1100⟩]

/-- The harness after each insert of the test. -/
def overflowState : Nat → C
  | 1 => ⟨1, overflowRef.take 1, ⟨[(1, leafPage [⟨0, [], []⟩, ⟨0, [0x10], zeros 1100⟩])], 1, []⟩⟩
  | 2 => ⟨2, overflowRef.take 2, ⟨[(2, leafPage [⟨0, [], []⟩, ⟨0, [0x10], zeros 1100⟩,
      ⟨0, [0x20], zeros 1100⟩])], 2, [1]⟩⟩
  | 3 => ⟨5, overflowRef.take 3, ⟨[(3, leafX), (4, leafSL), (5, innerPage [(3, []), (4, [0x20])])],
      5, [1, 2]⟩⟩
  | 4 => ⟨8, overflowRef.take 4, ⟨[(3, leafX), (6, leafSL), (7, leafK 0x30),
      (8, innerPage [(3, []), (6, [0x20]), (7, longKey 0x30)])], 8, [1, 2, 5, 4]⟩⟩
  | 5 => ⟨11, overflowRef.take 5, ⟨[(3, leafX), (6, leafSL), (9, leafK 0x30), (10, leafK 0x40),
      (11, innerPage [(3, []), (6, [0x20]), (9, longKey 0x30), (10, longKey 0x40)])], 11,
      [1, 2, 5, 4, 8, 7]⟩⟩
  | 6 => ⟨14, overflowRef.take 6, ⟨[(3, leafX), (6, leafSL), (9, leafK 0x30), (12, leafK 0x40),
      (13, leafK 0x50), (14, innerPage [(3, []), (6, [0x20]), (9, longKey 0x30),
        (12, longKey 0x40), (13, longKey 0x50)])], 14, [1, 2, 5, 4, 8, 7, 11, 10]⟩⟩
  | _ => ⟨17, overflowRef, ⟨[(3, leafX), (6, leafSL), (9, leafK 0x30), (12, leafK 0x40),
      (15, leafK 0x50), (16, leafK 0x60), (17, innerPage [(3, []), (6, [0x20]),
        (9, longKey 0x30), (12, longKey 0x40), (15, longKey 0x50), (16, longKey 0x60)])], 17,
      [1, 2, 5, 4, 8, 7, 11, 10, 14, 13]⟩⟩

set_option maxRecDepth 8000 in
theorem harness_delete_too_large (fuel : Nat) :
    (∀ c ∈ overflowCalls, c.InLimits) ∧
      C.run (fuel + 2) overflowCalls newC = .error (.panic "node too large") := by
  refine ⟨by decide, RunLe.eq (C.run_runLe (Nat.le_add_left 2 fuel) _) ?_ (by simp)⟩
  calc C.run 2 overflowCalls newC
      = C.run 2 (overflowCalls.drop 1) (overflowState 1) := C.run_cons_of_ok (by rfl)
    _ = C.run 2 (overflowCalls.drop 2) (overflowState 2) := C.run_cons_of_ok (by rfl)
    _ = C.run 2 (overflowCalls.drop 3) (overflowState 3) := C.run_cons_of_ok (by rfl)
    _ = C.run 2 (overflowCalls.drop 4) (overflowState 4) := C.run_cons_of_ok (by rfl)
    _ = C.run 2 (overflowCalls.drop 5) (overflowState 5) := C.run_cons_of_ok (by rfl)
    _ = C.run 2 (overflowCalls.drop 6) (overflowState 6) := C.run_cons_of_ok (by rfl)
    _ = C.run 2 (overflowCalls.drop 7) (overflowState 7) := C.run_cons_of_ok (by rfl)
    _ = .error (.panic "node too large") := by rfl

/-- The root after deleting `[0x20]`: the long key is now its second separator. -/
def overflowRoot : BNode :=
  innerPage [(3, []), (18, longKey 0x20), (9, longKey 0x30), (12, longKey 0x40),
    (15, longKey 0x50), (16, longKey 0x60)]

/-- The pages after deleting `[0x20]` with a pager that stores any node. -/
def shrunkPages : Pages :=
  ⟨[(3, leafX), (9, leafK 0x30), (12, leafK 0x40), (15, leafK 0x50), (16, leafK 0x60),
    (18, leafPage [⟨0, longKey 0x20, zeros 1000⟩]), (19, overflowRoot)], 19,
    [1, 2, 5, 4, 8, 7, 11, 10, 14, 13, 6, 17]⟩

set_option maxRecDepth 8000 in
theorem delete_breaks_inv (fuel : Nat) :
    Inv (Pages.get · (overflowState 7).mem) 17 ∧
      BTree.delete memPager (fuel + 2) 17 [0x20] (overflowState 7).mem =
        .ok ((19, true), shrunkPages) ∧
      (Pages.get 19 shrunkPages >>= BNode.nbytes) = .ok 5088 ∧
      ¬ Inv (Pages.get · shrunkPages) 19 := by
  refine ⟨.inr ⟨1, _, rfl, .node ⟨rfl, rfl, List.cons_ne_nil _ _, by decide, by decide, by decide⟩
    rfl (fun i hi => ?_) (fun i hi kid hk => ?_)⟩, RunLe.eq (BTree.delete_runLe memPager
      (Nat.le_add_left 2 fuel) _ _) rfl (by simp), rfl, fun h => absurd (h.root_page (by decide)
        (rfl : Pages.get 19 shrunkPages = .ok overflowRoot)) (by decide)⟩
  · match i, hi with
    | 0, _ | 1, _ | 2, _ | 3, _ | 4, _ | 5, _ => exact ⟨_, rfl⟩
  · match i, hi with
    | 0, _ | 1, _ | 2, _ | 3, _ | 4, _ | 5, _ =>
      cases hk
      exact .leaf ⟨rfl, rfl, List.cons_ne_nil _ _, by decide, by decide, by decide⟩ rfl
        (by decide) (by decide)

end GoMiniDb.Storage
