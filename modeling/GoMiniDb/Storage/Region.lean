import GoMiniDb.Storage.Pages
import GoMiniDb.Storage.Shape
import GoMiniDb.Storage.NodeSpec
import Mathlib.Data.List.Nodup

/-! # Regions of pages

What a tree operation did to the page store, as the pages it gave up and the pages it
built. `Replaces s s' old new`: the live pages of `s'` are those of `s` outside `old`
together with `new`; the pages of `s` outside `old` are untouched; `new` takes no live
page outside `old`; and the pages freed on the way are pages of `old`, each once. A `del`
of a live page and a `new` are steps of this kind, and such steps compose.
-/
namespace GoMiniDb.Storage

section Runs

variable {σ α β : Type}

@[simp] theorem treeM_bind_ok_iff {x : TreeM σ α} {f : α → TreeM σ β} {s s' : σ} {b : β} :
    (x >>= f) s = .ok (b, s') ↔ ∃ a s1, x s = .ok (a, s1) ∧ f a s1 = .ok (b, s') := by
  show (x s >>= fun p => f p.1 p.2) = _ ↔ _
  rcases x s with _ | ⟨a, s1⟩ <;> simp [and_assoc]

@[simp] theorem liftM_ok_iff {o : Outcome α} {s s' : σ} {a : α} :
    (liftM o : TreeM σ α) s = .ok (a, s') ↔ o = .ok a ∧ s = s' := by
  show (o >>= fun a => pure (a, s)) = _ ↔ _
  cases o <;> simp

@[simp] theorem treeM_pure_ok_iff {a b : α} {s s' : σ} :
    (pure a : TreeM σ α) s = .ok (b, s') ↔ a = b ∧ s = s' := by
  show Except.ok (a, s) = _ ↔ _
  simp

@[simp] theorem treeM_throw_ok_iff {e : Fault} {s : σ} {p : α × σ} :
    (throw e : TreeM σ α) s = .ok p ↔ False := by
  show Except.error e = _ ↔ _
  simp

@[simp] theorem treeM_ite_ok_iff {c : Prop} [Decidable c] {x y : TreeM σ α} {s : σ} {p : α × σ} :
    (if c then x else y) s = .ok p ↔ (c ∧ x s = .ok p) ∨ (¬ c ∧ y s = .ok p) := by
  split <;> simp_all

@[simp] theorem getM_ok_iff {tree : Pager σ} {ptr : UInt64} {s s' : σ} {node : BNode} :
    tree.getM ptr s = .ok (node, s') ↔ tree.get ptr s = .ok node ∧ s = s' := by
  unfold Pager.getM
  cases tree.get ptr s <;> simp [Except.map]

end Runs

namespace Pages

variable {s s' : Pages} {p q : UInt64} {node : BNode}

abbrev look (s : Pages) : UInt64 → Outcome BNode := fun p => Pages.get p s

def Live (s : Pages) (q : UInt64) : Prop := s.pages.get? q ≠ none

theorem get_ok_iff : Pages.get p s = .ok node ↔ s.pages.get? p = some node := by
  unfold Pages.get
  split <;> simp_all

theorem live_of_get_ok (h : Pages.get p s = .ok node) : s.Live p := by
  simp [Live, get_ok_iff.mp h]

theorem new_ok (h : Pages.new node s = .ok (p, s')) :
    p ≠ 0 ∧ ¬ s.Live p ∧ s'.pages = s.pages.set p node ∧ s'.freed = s.freed := by
  simp only [Pages.new, bind_ok_iff, assert_ok_iff, pure_ok_iff, exists_const] at h
  obtain ⟨⟨h0, hfree⟩, h⟩ := h
  cases h
  exact ⟨h0, fun hl => hl hfree, rfl, rfl⟩

theorem get_new (h : Pages.new node s = .ok (p, s')) : s'.look p = .ok node := by
  obtain ⟨-, -, hpages, -⟩ := new_ok h
  simp [get_ok_iff, hpages, GoMap.get?_set]

theorem del_ok {u : Unit} (h : Pages.del p s = .ok (u, s')) :
    s'.pages = s.pages.erase p ∧ s'.freed = s.freed ++ [p] := by
  cases h
  exact ⟨rfl, rfl⟩

end Pages

open Pages

/-- The run from `s` to `s'` replaced the pages `old` by the pages `new`. -/
structure Replaces (s s' : Pages) (old new : UInt64 → Prop) : Prop where
  live : ∀ q, s'.Live q ↔ (s.Live q ∧ ¬ old q) ∨ new q
  keep : ∀ q, s.Live q → ¬ old q → s'.pages.get? q = s.pages.get? q
  fresh : ∀ q, new q → s.Live q → old q
  freed : ∃ D, s'.freed = s.freed ++ D ∧ D.Nodup ∧ ∀ q ∈ D, old q
  zero : new 0 → s.Live 0

namespace Replaces

variable {s s' s'' : Pages} {A A' B B' O : UInt64 → Prop}

theorem refl (s : Pages) : Replaces s s (fun _ => False) (fun _ => False) :=
  ⟨fun q => by simp, fun _ _ _ => rfl, fun _ h _ => h, ⟨[], by simp, .nil, by simp⟩, False.elim⟩

theorem of_del {p : UInt64} {u : Unit} (h : Pages.del p s = .ok (u, s')) (hp : s.Live p) :
    Replaces s s' (· = p) (fun _ => False) := by
  obtain ⟨hpages, hfreed⟩ := Pages.del_ok h
  refine ⟨fun q => ?_, fun q _ hq => ?_, fun _ h _ => h.elim, ⟨[p], hfreed, List.nodup_singleton p, by simp⟩,
    False.elim⟩
  · by_cases hq : q = p
    · subst hq; simp [Live, hpages, GoMap.get?_erase]
    · simp [Live, hpages, GoMap.get?_erase, hq]
  · simp [hpages, GoMap.get?_erase, hq]

theorem of_new {p : UInt64} {node : BNode} (h : Pages.new node s = .ok (p, s')) :
    Replaces s s' (fun _ => False) (· = p) := by
  obtain ⟨hp0, hfree, hpages, hfreed⟩ := Pages.new_ok h
  refine ⟨fun q => ?_, fun q hq _ => ?_, fun q hq hl => hfree (hq ▸ hl), ⟨[], by simp [hfreed], .nil, by simp⟩,
    fun h0 => absurd h0.symm hp0⟩
  · by_cases hqp : q = p
    · subst hqp; simp [Live, hpages, GoMap.get?_set]
    · simp [Live, hpages, GoMap.get?_set, hqp]
  · have hqp : q ≠ p := fun e => hfree (e ▸ hq)
    simp [hpages, GoMap.get?_set, hqp]

theorem comp (h1 : Replaces s s' A A') (h2 : Replaces s' s'' B B')
    (hB : ∀ q, B q → s.Live q ∧ ¬ A q) (hBA : ∀ q, B q → ¬ A' q) :
    Replaces s s'' (fun q => A q ∨ B q) (fun q => A' q ∨ B' q) := by
  obtain ⟨D1, hD1, hn1, hs1⟩ := h1.freed
  obtain ⟨D2, hD2, hn2, hs2⟩ := h2.freed
  refine ⟨fun q => ?_, fun q hl hq => ?_, fun q hq hl => ?_, ⟨D1 ++ D2, ?_, ?_, ?_⟩, ?_⟩
  · rw [h2.live, h1.live]
    constructor
    · rintro (⟨⟨hl, hA⟩ | hA', hB'⟩ | hB')
      · exact .inl ⟨hl, not_or.mpr ⟨hA, hB'⟩⟩
      · exact .inr (.inl hA')
      · exact .inr (.inr hB')
    · rintro (⟨hl, hn⟩ | hA' | hB')
      · exact .inl ⟨.inl ⟨hl, fun hA => hn (.inl hA)⟩, fun hb => hn (.inr hb)⟩
      · exact .inl ⟨.inr hA', fun hb => hBA q hb hA'⟩
      · exact .inr hB'
  · rw [not_or] at hq
    rw [h2.keep q ((h1.live q).mpr (.inl ⟨hl, hq.1⟩)) hq.2, h1.keep q hl hq.1]
  · rcases hq with hq | hq
    · exact .inl (h1.fresh q hq hl)
    · by_cases hA : A q
      · exact .inl hA
      · exact .inr (h2.fresh q hq ((h1.live q).mpr (.inl ⟨hl, hA⟩)))
  · rw [hD2, hD1, List.append_assoc]
  · exact List.nodup_append.mpr ⟨hn1, hn2, fun a ha hb => (hB a (hs2 a hb)).2 (hs1 a ha)⟩
  · intro q hq
    rcases List.mem_append.mp hq with hq | hq
    · exact .inl (hs1 q hq)
    · exact .inr (hs2 q hq)
  · rintro (h0 | h0)
    · exact h1.zero h0
    · rcases (h1.live 0).mp (h2.zero h0) with ⟨hl, -⟩ | h0'
      · exact hl
      · exact h1.zero h0'

theorem extend (h : Replaces s s' A A') (hO : ∀ q, O q → s.Live q ∧ ¬ A q) :
    Replaces s s' (fun q => A q ∨ O q) (fun q => A' q ∨ O q) := by
  obtain ⟨D, hD, hn, hs⟩ := h.freed
  refine ⟨fun q => ?_, fun q hl hq => h.keep q hl fun hA => hq (.inl hA), fun q hq hl => ?_,
    ⟨D, hD, hn, fun q hq => .inl (hs q hq)⟩, fun h0 => h0.elim h.zero fun h0 => (hO 0 h0).1⟩
  · rw [h.live]
    constructor
    · rintro (⟨hl, hA⟩ | hA')
      · by_cases hq : O q
        · exact .inr (.inr hq)
        · exact .inl ⟨hl, not_or.mpr ⟨hA, hq⟩⟩
      · exact .inr (.inl hA')
    · rintro (⟨hl, hn⟩ | hA' | hq)
      · exact .inl ⟨hl, fun hA => hn (.inl hA)⟩
      · exact .inr hA'
      · exact .inl (hO q hq)
  · rcases hq with hq | hq
    · exact .inl (h.fresh q hq hl)
    · exact .inr hq

theorem congr {C C' : UInt64 → Prop} (h : Replaces s s' A A') (hA : ∀ q, A q ↔ C q)
    (hA' : ∀ q, A' q ↔ C' q) : Replaces s s' C C' := by
  obtain rfl : A = C := funext fun q => propext (hA q)
  obtain rfl : A' = C' := funext fun q => propext (hA' q)
  exact h

theorem live_of_new (h : Replaces s s' A A') {q : UInt64} (hq : A' q) : s'.Live q :=
  (h.live q).mpr (.inr hq)

theorem get_eq (h : Replaces s s' A A') {q : UInt64} (hl : s.Live q) (hq : ¬ A q) :
    s'.look q = s.look q := by
  show Pages.get q s' = Pages.get q s
  unfold Pages.get
  rw [h.keep q hl hq]

theorem under_iff (h : Replaces s s' A A') {node : BNode}
    (hn : ∀ r, Under s.look node r → s.Live r ∧ ¬ A r) {q : UInt64} :
    Under s'.look node q ↔ Under s.look node q :=
  under_congr fun r hr => h.get_eq (hn r hr).1 (hn r hr).2

theorem shaped (h : Replaces s s' A A') {node : BNode} {k : Nat}
    (hn : ∀ r, Under s.look node r → s.Live r ∧ ¬ A r) (hs : Shaped s.look k node) :
    Shaped s'.look k node :=
  hs.congr fun r hr => h.get_eq (hn r hr).1 (hn r hr).2

theorem reach_iff (h : Replaces s s' A A') {p : UInt64}
    (hn : ∀ r, Reach s.look p r → s.Live r ∧ ¬ A r) {q : UInt64} :
    Reach s'.look p q ↔ Reach s.look p q :=
  reach_congr fun r hr => h.get_eq (hn r hr).1 (hn r hr).2

end Replaces

/-- A tree of two levels: the root on page 3 over the leaves on pages 1 and 2. -/
def twoLevelPages : Pages :=
  ⟨[(1, ⟨BNODE_LEAF, 2, [⟨0, [], []⟩, ⟨0, [1], [2]⟩], BTREE_PAGE_SIZE⟩),
    (2, ⟨BNODE_LEAF, 1, [⟨0, [3], [4]⟩], BTREE_PAGE_SIZE⟩),
    (3, ⟨BNODE_NODE, 2, [⟨1, [], []⟩, ⟨2, [3], []⟩], BTREE_PAGE_SIZE⟩)], 3, []⟩

theorem twoLevelPages_subtree :
    Subtree twoLevelPages.look 1 ⟨BNODE_NODE, 2, [⟨1, [], []⟩, ⟨2, [3], []⟩], BTREE_PAGE_SIZE⟩ [] none := by
  refine .node ⟨rfl, rfl, by decide, by decide, by decide, by decide⟩ rfl ?kids ?sub
  case kids =>
    intro i hi
    match i with
    | 0 => exact ⟨_, rfl⟩
    | 1 => exact ⟨_, rfl⟩
  case sub =>
    intro i hi kid hk
    match i with
    | 0 =>
      cases hk
      exact .leaf ⟨rfl, rfl, by decide, by decide, by decide, by decide⟩ rfl (by decide) (by decide)
    | 1 =>
      cases hk
      exact .leaf ⟨rfl, rfl, by decide, by decide, by decide, by decide⟩ rfl (by decide) (by decide)

theorem twoLevelPages_inv : Inv twoLevelPages.look 3 := .inr ⟨1, _, rfl, twoLevelPages_subtree⟩

end GoMiniDb.Storage
