import GoMiniDb.Storage.NodeSpec
import GoMiniDb.GoMap
import Mathlib.Data.List.Nodup

/-! # The persistent free list of the kv-store package

A free-list node is a page of type `BNODE_FREE_LIST` holding `size` page numbers, the link
`next` to the following node and, in the head node, the `total` of items in the list; `Get`
reads the items of a node from its last slot down. `Update(popn, freed)` walks nodes off the
head while the pages collected so far outnumber what the reused items can house, moving
each node's page and the items it does not pop or reuse into `freed`; `flPush` then
prepends nodes of at most `FREE_LIST_CAP` items, on reused pages first and on appended
pages after, and the new head gets the total. Both loops stop on the number of pages
collected, not on `popn`: with nothing freed, nothing is popped, and the last node built can
leave a reused item unused. The callbacks `get`, `new` and `use` are not set anywhere in the
package; here they act on a store of pages, `new` appending at the end of the file. A node
is kept as what its bytes say, and a page the store holds no node for is outside the model.
-/
namespace GoMiniDb.KVStore

open GoMiniDb.Storage (Outcome Fault assert bind_ok_iff assert_ok_iff pure_ok_iff)

def BTREE_PAGE_SIZE : Nat := 4096
def BNODE_FREE_LIST : Nat := 3
def FREE_LIST_HEADER : Nat := 4 + 8 + 8
def FREE_LIST_CAP : Nat := (BTREE_PAGE_SIZE - FREE_LIST_HEADER) / 8

def toU64 (x : Int) : UInt64 := UInt64.ofNat (x % 18446744073709551616).toNat

/-- A free-list node: type, `size`, `total`, `next` and the pointer slots written. -/
structure FLNode where
  btype : Nat
  size : Nat
  total : UInt64
  next : UInt64
  ptrs : List UInt64
deriving DecidableEq, Repr

/-- `flnPtr(node, idx)`: a slot never written reads 0, and a slot past the page panics. -/
def flnPtr (node : FLNode) (idx : Nat) : Outcome UInt64 :=
  if idx < FREE_LIST_CAP then .ok ((node.ptrs.get? idx).getD 0)
  else .error (.panic "runtime error: index out of range")

/-- `FreeList` with the pages its callbacks act on: the head, the nodes by page, and the page
`new` appends next. -/
structure FreeList where
  head : UInt64
  pages : GoMap UInt64 FLNode
  nappend : UInt64
deriving DecidableEq, Repr

namespace FreeList

def get (fl : FreeList) (ptr : UInt64) : Outcome FLNode :=
  match fl.pages.get? ptr with
  | some node => .ok node
  | none => .error .unmodelled

/-- `fl.new(node)`: the page at the end of the file. -/
def new (fl : FreeList) (node : FLNode) : UInt64 × FreeList :=
  (fl.nappend, { fl with pages := fl.pages.set fl.nappend node, nappend := fl.nappend + 1 })

def use (fl : FreeList) (ptr : UInt64) (node : FLNode) : FreeList :=
  { fl with pages := fl.pages.set ptr node }

def Total (fl : FreeList) : Outcome Int :=
  if fl.head = 0 then .ok 0 else do return (← fl.get fl.head).total.toNat

/-- The loop of `Get` from `node`, with `fuel` bounding the nodes it moves past. -/
def getLoop (fl : FreeList) : Nat → FLNode → Int → Outcome UInt64
  | fuel, node, topn =>
    if (node.size : Int) ≤ topn then
      match fuel with
      | 0 => .error .fuel
      | fuel + 1 => do
        assert (node.next ≠ 0) "next != 0"
        getLoop fl fuel (← fl.get node.next) (topn - node.size)
    else flnPtr node (node.size - topn - 1).toNat

def Get (fl : FreeList) (topn : Int) (fuel : Nat) : Outcome UInt64 := do
  assert (0 ≤ topn ∧ topn < (← fl.Total)) "0 <= topn && topn < fl.Total()"
  getLoop fl fuel (← fl.get fl.head) topn

end FreeList

open FreeList

/-- The inner loop of phase 2: items are taken from the end of the node into `reuse` while
the reused items could not house `nfreed` pages and the items left. -/
def reuseLoop (node : FLNode) (nfreed : Nat) : Nat → List UInt64 → Outcome (Nat × List UInt64)
  | 0, reuse => .ok (0, reuse)
  | remain + 1, reuse =>
    if reuse.length * FREE_LIST_CAP < nfreed + (remain + 1) then do
      reuseLoop node nfreed remain (reuse ++ [← flnPtr node remain])
    else .ok (remain + 1, reuse)

/-- The main loop of `Update`, with `fuel` bounding the nodes it walks off: the list, `total`,
`freed` and `reuse` after it. -/
def popLoop : Nat → FreeList → Int → Int → List UInt64 → List UInt64 →
    Outcome (FreeList × Int × List UInt64 × List UInt64)
  | fuel, fl, popn, total, freed, reuse =>
    if fl.head ≠ 0 ∧ reuse.length * FREE_LIST_CAP < freed.length then
      match fuel with
      | 0 => .error .fuel
      | fuel + 1 => do
        let node ← fl.get fl.head
        let freed := freed ++ [fl.head]
        let (popn, freed, reuse) ← if (node.size : Int) ≤ popn then pure (popn - node.size, freed, reuse)
          else do
            let (remain, reuse) ← reuseLoop node freed.length (node.size - popn).toNat reuse
            pure (0, freed ++ (← (List.range remain).mapM (flnPtr node)), reuse)
        popLoop fuel { fl with head := node.next } popn (total - node.size) freed reuse
    else .ok (fl, total, freed, reuse)

def flPush : Nat → FreeList → List UInt64 → List UInt64 → Outcome FreeList
  | fuel, fl, freed, reuse =>
    if freed = [] then do
      assert (reuse = []) "len(reuse) == 0"
      return fl
    else
      match fuel with
      | 0 => .error .fuel
      | fuel + 1 =>
        let size := min freed.length FREE_LIST_CAP
        let node : FLNode := ⟨BNODE_FREE_LIST, size, 0, fl.head, freed.take size⟩
        match reuse with
        | ptr :: reuse => flPush fuel { fl.use ptr node with head := ptr } (freed.drop size) reuse
        | [] =>
          let (ptr, fl) := fl.new node
          flPush fuel { fl with head := ptr } (freed.drop size) []

def FreeList.Update (fl : FreeList) (popn : Int) (freed : List UInt64) (fuel : Nat) : Outcome FreeList := do
  assert (popn ≤ (← fl.Total)) "popn <= fl.Total()"
  if popn = 0 ∧ freed = [] then return fl
  let total ← fl.Total
  let (fl, total, freed, reuse) ← popLoop fuel fl popn total freed []
  assert (freed.length ≤ reuse.length * FREE_LIST_CAP ∨ fl.head = 0)
    "len(reuse)*FREE_LIST_CAP >= len(freed) || fl.head == 0"
  let fl ← flPush fuel fl freed reuse
  let head ← fl.get fl.head
  return fl.use fl.head { head with total := toU64 (total + freed.length) }

namespace FreeList

/-- The nodes from `ptr` on, with their pages, if the chain ends within `fuel` nodes. -/
def chain (fl : FreeList) : Nat → UInt64 → Option (List (UInt64 × FLNode))
  | fuel, ptr =>
    if ptr = 0 then some [] else
    match fuel with
    | 0 => none
    | fuel + 1 => do
      let node ← fl.pages.get? ptr
      return (ptr, node) :: (← fl.chain fuel node.next)

def items (c : List (UInt64 × FLNode)) : List UInt64 :=
  c.flatMap fun e => (e.2.ptrs.take e.2.size).reverse

/-- A well-formed list: a chain of free-list nodes, each with its slots written and at most
`FREE_LIST_CAP` of them, whose sizes sum to the total of the head node, and whose items and
node pages are distinct and nonzero. -/
def wellFormed (fl : FreeList) (fuel : Nat) : Bool :=
  match fl.chain fuel fl.head with
  | none => false
  | some c =>
    c.all (fun e => e.2.btype = BNODE_FREE_LIST ∧ e.2.size = e.2.ptrs.length ∧ e.2.size ≤ FREE_LIST_CAP) &&
    (match c with
      | [] => true
      | e :: _ => e.2.total.toNat = (c.map (·.2.size)).foldr (· + ·) 0) &&
    decide ((c.map (·.1) ++ items c).Nodup) && !(items c).contains 0

end FreeList

/-- A list of one node on page 10 holding page 20. -/
def oneItemList : FreeList := ⟨10, [(10, ⟨BNODE_FREE_LIST, 1, 1, 0, [20]⟩)], 30⟩

/-- A list of one node on page 10 holding pages 20 and 21. -/
def twoItemList : FreeList := ⟨10, [(10, ⟨BNODE_FREE_LIST, 2, 2, 0, [20, 21]⟩)], 30⟩

def freed508 : List UInt64 := (List.range 508).map fun i => UInt64.ofNat (100 + i)

/-- Popping the only item with nothing freed returns normally and pops nothing: `Total()` is
still 1 and `Get(0)` still page 20. Freeing 508 pages into a list whose head holds two items
reuses both items as node pages, builds one node of 509 pages on the first and fails the
assertion `len(reuse) == 0` with the second left over. -/
theorem update_cap_boundaries :
    oneItemList.wellFormed 2 = true ∧
      (do
        let fl ← oneItemList.Update 1 [] 4
        return (← fl.Total, ← fl.Get 0 4)) = (.ok (1, 20) : Outcome (Int × UInt64)) ∧
    twoItemList.wellFormed 2 = true ∧ (freed508.Nodup ∧ ∀ p ∈ freed508, 30 ≤ p.toNat) ∧
      twoItemList.Update 0 freed508 4 = .error (.panic "len(reuse) == 0") := by
  refine ⟨by decide, rfl, by decide, ⟨?_, ?_⟩, ?_⟩
  · exact (List.nodup_range 508).map_on fun x hx y hy e => by
      simp only [List.mem_range] at hx hy
      have := congrArg UInt64.toNat e
      rw [UInt64.toNat_ofNat_of_lt (by simp only [UInt64.size]; omega),
        UInt64.toNat_ofNat_of_lt (by simp only [UInt64.size]; omega)] at this
      omega
  · intro p hp
    obtain ⟨i, hi, rfl⟩ := List.mem_map.mp hp
    simp only [List.mem_range] at hi
    rw [UInt64.toNat_ofNat_of_lt (by simp only [UInt64.size]; omega)]
    omega
  · set_option maxRecDepth 8000 in rfl

theorem toU64_toNat (x : UInt64) : toU64 (x.toNat : Int) = x := by
  have hx := x.toNat_lt_size
  unfold toU64
  rw [Int.emod_eq_of_lt (by omega) (by simp only [UInt64.size] at hx; omega)]
  exact UInt64.toNat.inj (UInt64.toNat_ofNat_of_lt hx)

@[simp] theorem map_ok_iff {x : Outcome α} {f : α → β} {b : β} :
    f <$> x = .ok b ↔ ∃ a, x = .ok a ∧ f a = b := by
  cases x <;> simp [Functor.map, Except.map]

theorem total_eq {fl : FreeList} {node : FLNode} (hhead : fl.head ≠ 0) (hget : fl.get fl.head = .ok node) :
    fl.Total = .ok node.total.toNat := by
  simp [FreeList.Total, hhead, hget]

/-- With nothing freed and `popn` not negative, `Update` returns a list that reads as the old
one: the same head and the same node on every page, so nothing is popped. -/
theorem update_nothing_freed {fl fl' : FreeList} {popn : Int} {fuel : Nat} (hpopn : 0 ≤ popn)
    (hrun : fl.Update popn [] fuel = .ok fl') : fl'.head = fl.head ∧ ∀ p, fl'.pages.get? p = fl.pages.get? p := by
  unfold FreeList.Update at hrun
  simp only [bind_ok_iff, assert_ok_iff] at hrun
  obtain ⟨t, ht, -, hle, hrest⟩ := hrun
  split at hrest
  · rw [pure_ok_iff] at hrest
    subst hrest
    exact ⟨rfl, fun _ => rfl⟩
  rename_i h0
  by_cases hhead : fl.head = 0
  · simp only [FreeList.Total, hhead, if_pos, Except.ok.injEq] at ht
    simp only [and_true] at h0
    omega
  obtain ⟨node, hget, rfl⟩ : ∃ node, fl.get fl.head = .ok node ∧ (node.total.toNat : Int) = t := by
    simpa [FreeList.Total, hhead] using ht
  have hpop : popLoop fuel fl popn node.total.toNat [] [] = .ok (fl, node.total.toNat, [], []) := by
    unfold popLoop; simp
  have hpush : flPush fuel fl [] [] = .ok fl := by unfold flPush; simp [assert]
  simp only [total_eq hhead hget, bind_pure_comp, pure_bind, bind_ok_iff, Except.ok.injEq, assert_ok_iff,
    map_ok_iff, exists_const, Prod.exists, exists_eq_left', hpop, Prod.mk.injEq, List.nil_eq] at hrest
  obtain ⟨_, _, _, _, ⟨rfl, rfl, rfl, rfl⟩, -, fl₁, h1, node₁, h2, rfl⟩ := hrest
  rw [hpush, Except.ok.injEq] at h1
  subst h1
  rw [hget, Except.ok.injEq] at h2
  subst h2
  refine ⟨rfl, fun p => ?_⟩
  have hpage : fl.pages.get? fl.head = some node := by
    unfold FreeList.get at hget; split at hget <;> simp_all
  simp only [FreeList.use, GoMap.get?_set]
  split
  · subst p; simp [hpage, toU64_toNat]
  · rfl

theorem one_item_update_pops_nothing :
    ∃ fl', oneItemList.Update 1 [] 4 = .ok fl' ∧ fl'.head = oneItemList.head ∧
      ∀ p, fl'.pages.get? p = oneItemList.pages.get? p :=
  have hrun : oneItemList.Update 1 [] 4 = .ok oneItemList := rfl
  ⟨oneItemList, hrun, update_nothing_freed (by decide) hrun⟩

end GoMiniDb.KVStore
