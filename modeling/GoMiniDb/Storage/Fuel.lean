import GoMiniDb.Storage.Tree

/-! # Fuel

A descent cut short by fuel ends in `Fault.fuel`; any other outcome is the source's. More
fuel only turns `Fault.fuel` into the source's outcome: `FuelLe a b` says that `b` ran at
least as far as `a`. Every operation is monotone in its fuel, so an outcome other than
`Fault.fuel` stays the same for every larger fuel.
-/
namespace GoMiniDb.Storage

open BNode

/-- `b` agrees with `a` unless `a` ran out of fuel. -/
def FuelLe {α : Type} (a b : Outcome α) : Prop := a = .error .fuel ∨ a = b

/-- The same, pointwise in the page store. -/
def RunLe {σ α : Type} (m m' : TreeM σ α) : Prop := ∀ s, FuelLe (m s) (m' s)

section

variable {σ α β : Type}

theorem FuelLe.bind {a b : Outcome α} {f g : α → Outcome β} (h : FuelLe a b)
    (hf : ∀ x, FuelLe (f x) (g x)) : FuelLe (a >>= f) (b >>= g) := by
  rcases h with h | rfl
  · exact .inl (by rw [h]; rfl)
  · cases a with
    | error e => exact .inr rfl
    | ok x => exact hf x

theorem RunLe.refl (m : TreeM σ α) : RunLe m m := fun _ => .inr rfl

theorem RunLe.trans {m₁ m₂ m₃ : TreeM σ α} (h₁ : RunLe m₁ m₂) (h₂ : RunLe m₂ m₃) :
    RunLe m₁ m₃ := by
  intro s
  rcases h₁ s with h | h
  · exact .inl h
  · rw [h]; exact h₂ s

theorem RunLe.bind {m m' : TreeM σ α} {f f' : α → TreeM σ β} (hm : RunLe m m')
    (hf : ∀ a, RunLe (f a) (f' a)) : RunLe (m >>= f) (m' >>= f') :=
  fun s => (hm s).bind fun p => hf p.1 p.2

theorem RunLe.bind_right {m : TreeM σ α} {f f' : α → TreeM σ β}
    (hf : ∀ a, RunLe (f a) (f' a)) : RunLe (m >>= f) (m >>= f') :=
  .bind (.refl m) hf

theorem RunLe.ite {c : Prop} [Decidable c] {m₁ m₁' m₂ m₂' : TreeM σ α} (h₁ : RunLe m₁ m₁')
    (h₂ : RunLe m₂ m₂') : RunLe (if c then m₁ else m₂) (if c then m₁' else m₂') := by
  split <;> assumption

theorem RunLe.throw_fuel (m : TreeM σ α) : RunLe (throw .fuel) m := fun _ => .inl rfl

theorem RunLe.eq {m m' : TreeM σ α} {s : σ} {r : Outcome (α × σ)} (h : RunLe m m')
    (hm : m s = r) (hr : r ≠ .error .fuel) : m' s = r := by
  rcases h s with h | h
  · exact absurd (hm ▸ h) hr
  · rw [← h, hm]

end

variable {σ : Type} (tree : Pager σ)

theorem nodeInsert_runLe {f f' : BNode → Bytes → Bytes → TreeM σ BNode}
    (hf : ∀ n k v, RunLe (f n k v) (f' n k v)) (new node : BNode) (idx : Nat) (key val : Bytes) :
    RunLe (nodeInsert tree f new node idx key val) (nodeInsert tree f' new node idx key val) :=
  .bind_right fun _ => .bind_right fun _ => .bind_right fun _ =>
    .bind (hf _ _ _) fun _ => .refl _

theorem treeInsert_runLe_succ (fuel : Nat) (node : BNode) (key val : Bytes) :
    RunLe (treeInsert tree fuel node key val) (treeInsert tree (fuel + 1) node key val) := by
  induction fuel generalizing node key val with
  | zero => exact .throw_fuel _
  | succ fuel ih =>
    exact .bind_right fun _ => .bind_right fun _ =>
      .ite (.refl _) (.ite (nodeInsert_runLe tree ih _ _ _ _ _) (.refl _))

theorem treeInsert_runLe {fuel fuel' : Nat} (h : fuel ≤ fuel') (node : BNode) (key val : Bytes) :
    RunLe (treeInsert tree fuel node key val) (treeInsert tree fuel' node key val) := by
  induction h with
  | refl => exact .refl _
  | step _ ih => exact ih.trans (treeInsert_runLe_succ tree _ node key val)

theorem nodeDelete_runLe {f f' : BNode → Bytes → TreeM σ BNode}
    (hf : ∀ n k, RunLe (f n k) (f' n k)) (node : BNode) (idx : Nat) (key : Bytes) :
    RunLe (nodeDelete tree f node idx key) (nodeDelete tree f' node idx key) :=
  .bind_right fun _ => .bind_right fun _ => .bind (hf _ _) fun _ => .refl _

theorem treeDelete_runLe_succ (fuel : Nat) (node : BNode) (key : Bytes) :
    RunLe (treeDelete tree fuel node key) (treeDelete tree (fuel + 1) node key) := by
  induction fuel generalizing node key with
  | zero => exact .throw_fuel _
  | succ fuel ih =>
    exact .bind_right fun _ => .bind_right fun _ =>
      .ite (.refl _) (.ite (nodeDelete_runLe tree ih _ _ _) (.refl _))

theorem treeDelete_runLe {fuel fuel' : Nat} (h : fuel ≤ fuel') (node : BNode) (key : Bytes) :
    RunLe (treeDelete tree fuel node key) (treeDelete tree fuel' node key) := by
  induction h with
  | refl => exact .refl _
  | step _ ih => exact ih.trans (treeDelete_runLe_succ tree _ node key)

namespace BTree

theorem insert_runLe {fuel fuel' : Nat} (h : fuel ≤ fuel') (root : UInt64) (key val : Bytes) :
    RunLe (insert tree fuel root key val) (insert tree fuel' root key val) := by
  unfold insert
  dsimp only
  split
  · exact .refl _
  · exact .bind_right fun _ => .ite (.refl _) (.bind_right fun _ => .bind_right fun _ =>
      .bind_right fun _ => .bind (treeInsert_runLe tree h _ _ _) fun _ => .refl _)

theorem delete_runLe {fuel fuel' : Nat} (h : fuel ≤ fuel') (root : UInt64) (key : Bytes) :
    RunLe (delete tree fuel root key) (delete tree fuel' root key) := by
  unfold delete
  exact .ite (.refl _) (.ite (.refl _) (.bind_right fun _ => .bind_right fun _ =>
    .bind (treeDelete_runLe tree h _ _) fun _ => .refl _))

theorem getLoop_runLe_succ (fuel : Nat) (node : BNode) (key : Bytes) :
    RunLe (getLoop tree fuel node key) (getLoop tree (fuel + 1) node key) := by
  induction fuel generalizing node with
  | zero => exact .throw_fuel _
  | succ fuel ih =>
    exact .bind_right fun _ => .bind_right fun _ =>
      .ite (.refl _) (.ite (.bind_right fun _ => .bind_right fun _ => ih _) (.refl _))

theorem get_runLe {fuel fuel' : Nat} (h : fuel ≤ fuel') (root : UInt64) (key : Bytes) :
    RunLe (get tree fuel root key) (get tree fuel' root key) := by
  refine .ite (.refl _) (.bind_right fun _ => .bind_right fun node => ?_)
  induction h generalizing node with
  | refl => exact .refl _
  | step _ ih => exact (ih node).trans (getLoop_runLe_succ tree _ node key)

end BTree

end GoMiniDb.Storage
