import GoMiniDb.ReaderWriter.ReaderList

/-! # The reader list stays a heap with correct indices

The heap order is stated over the first `n` positions with the usual hole invariants of a
sift: `OrderedExcept` holds for every parent and child off the hole, `Grand` says the hole's
parent is at or below the hole's children, and `Below`/`Above` say the hole itself is in
order with its children/parent. `up` needs `Below`, the loop of `down` needs nothing more
than `OrderedExcept` and `Grand`, which is what `heap.Remove` has after its swap.
-/
namespace GoMiniDb.ReaderWriter
namespace Readers

variable {rs : Readers} {i j k n : Nat}

@[simp] theorem swap_len : (rs.swap i j).len = rs.len := rfl
@[simp] theorem swap_version : (rs.swap i j).version = rs.version := rfl

theorem swap_slot (k : Nat) :
    (rs.swap i j).slot k = rs.slot (if k = j then i else if k = i then j else k) := by
  simp only [swap, Function.update_apply]
  split_ifs <;> simp_all

theorem swap_v (k : Nat) : (rs.swap i j).v k = rs.v (if k = j then i else if k = i then j else k) := by
  simp only [v, swap_slot, swap_version]

@[simp] theorem up_len : (rs.up j).len = rs.len := by
  induction rs, j using up.induct with
  | case1 rs j h => rw [up, if_pos h]
  | case2 rs j h ih => rw [up, if_neg h, ih, swap_len]

@[simp] theorem up_version : (rs.up j).version = rs.version := by
  induction rs, j using up.induct with
  | case1 rs j h => rw [up, if_pos h]
  | case2 rs j h ih => rw [up, if_neg h, ih, swap_version]

theorem downLoop_eq_stop (h : n ≤ 2 * i + 1) : rs.downLoop i n = (rs, i) := by
  rw [downLoop, dif_pos h]

theorem downLoop_eq_swap (h : ¬ n ≤ 2 * i + 1) (hl : rs.less (rs.minChild i n) i = true) :
    rs.downLoop i n = (rs.swap i (rs.minChild i n)).downLoop (rs.minChild i n) n := by
  rw [downLoop, dif_neg h, if_pos hl]

theorem downLoop_eq_keep (h : ¬ n ≤ 2 * i + 1) (hl : ¬ rs.less (rs.minChild i n) i = true) :
    rs.downLoop i n = (rs, i) := by
  rw [downLoop, dif_neg h, if_neg hl]

@[simp] theorem downLoop_len : (rs.downLoop i n).1.len = rs.len := by
  induction rs, i, n using downLoop.induct with
  | case1 rs i n h => rw [downLoop_eq_stop h]
  | case2 rs i n h hl ih => rw [downLoop_eq_swap h hl, ih, swap_len]
  | case3 rs i n h hl => rw [downLoop_eq_keep h hl]

@[simp] theorem downLoop_version : (rs.downLoop i n).1.version = rs.version := by
  induction rs, i, n using downLoop.induct with
  | case1 rs i n h => rw [downLoop_eq_stop h]
  | case2 rs i n h hl ih => rw [downLoop_eq_swap h hl, ih, swap_version]
  | case3 rs i n h hl => rw [downLoop_eq_keep h hl]

theorem minChild_spec (h : 2 * i + 1 < n) :
    i < rs.minChild i n ∧ rs.minChild i n < n ∧ (rs.minChild i n - 1) / 2 = i := by
  unfold minChild; split <;> omega

theorem minChild_le {c : Nat} (hc : c < n) (hc0 : 0 < c) (hp : (c - 1) / 2 = i) :
    rs.v (rs.minChild i n) ≤ rs.v c := by
  have hc' : c = 2 * i + 1 ∨ c = 2 * i + 2 := by omega
  unfold minChild less at *
  split
  · rename_i hm; simp only [decide_eq_true_eq] at hm; rcases hc' with rfl | rfl <;> omega
  · rename_i hm; simp only [decide_eq_true_eq, not_and, not_lt] at hm
    rcases hc' with rfl | rfl
    · exact le_rfl
    · exact hm hc

/-- Parent and child are in order for every child `c < n`. -/
def Ordered (rs : Readers) (n : Nat) : Prop :=
  ∀ c < n, 0 < c → rs.v ((c - 1) / 2) ≤ rs.v c

/-- Parent and child are in order for every pair off the hole `h`. -/
def OrderedExcept (rs : Readers) (n h : Nat) : Prop :=
  ∀ c < n, 0 < c → c ≠ h → (c - 1) / 2 ≠ h → rs.v ((c - 1) / 2) ≤ rs.v c

/-- The hole's parent is at or below the hole's children. -/
def Grand (rs : Readers) (n h : Nat) : Prop :=
  0 < h → ∀ c < n, 0 < c → (c - 1) / 2 = h → rs.v ((h - 1) / 2) ≤ rs.v c

/-- The hole is at or below its children. -/
def Below (rs : Readers) (n h : Nat) : Prop :=
  ∀ c < n, 0 < c → (c - 1) / 2 = h → rs.v h ≤ rs.v c

/-- The hole is at or above its parent. -/
def Above (rs : Readers) (h : Nat) : Prop := 0 < h → rs.v ((h - 1) / 2) ≤ rs.v h

theorem ordered_of_hole (he : OrderedExcept rs n j) (ha : Above rs j) (hb : Below rs n j) :
    Ordered rs n := by
  intro c hc hc0
  by_cases h1 : c = j
  · subst h1; exact ha hc0
  by_cases h2 : (c - 1) / 2 = j
  · rw [h2]; exact hb c hc hc0 h2
  · exact he c hc hc0 h1 h2

theorem up_swap_hole (hj : 0 < j) (hlt : rs.v j < rs.v ((j - 1) / 2))
    (he : OrderedExcept rs n j) (hg : Grand rs n j) :
    OrderedExcept (rs.swap ((j - 1) / 2) j) n ((j - 1) / 2) ∧
      Grand (rs.swap ((j - 1) / 2) j) n ((j - 1) / 2) ∧
      Below (rs.swap ((j - 1) / 2) j) n ((j - 1) / 2) := by
  have hpj : (j - 1) / 2 < j := by omega
  refine ⟨fun c hc hc0 hcp hpp => ?_, fun hp c hc hc0 hcp => ?_, fun c hc hc0 hcp => ?_⟩
  · have hcj : c ≠ j := fun h => hpp (h ▸ rfl)
    rw [swap_v, swap_v, if_neg hcj, if_neg hcp]
    by_cases hpc : (c - 1) / 2 = j
    · rw [if_pos hpc]; exact hpc ▸ hg hj c hc hc0 hpc
    · rw [if_neg hpc, if_neg hpp]; exact he c hc hc0 hcj hpc
  · have hq : ((j - 1) / 2 - 1) / 2 ≠ j := by omega
    have hq' : ((j - 1) / 2 - 1) / 2 ≠ (j - 1) / 2 := by omega
    have hpar := he ((j - 1) / 2) (by omega) hp (by omega) hq
    rw [swap_v, swap_v, if_neg hq, if_neg hq']
    by_cases hcj : c = j
    · rw [if_pos hcj]; exact hpar
    · rw [if_neg hcj, if_neg (by omega : c ≠ (j - 1) / 2)]
      exact hpar.trans (hcp ▸ he c hc hc0 hcj (by omega))
  · rw [swap_v, swap_v, if_neg (by omega : (j - 1) / 2 ≠ j), if_pos rfl]
    by_cases hcj : c = j
    · rw [if_pos hcj]; exact hlt.le
    · rw [if_neg hcj, if_neg (by omega : c ≠ (j - 1) / 2)]
      exact hlt.le.trans (hcp ▸ he c hc hc0 hcj (by omega))

theorem up_ordered (hj : j < n) (he : OrderedExcept rs n j) (hg : Grand rs n j)
    (hb : Below rs n j) : Ordered (rs.up j) n := by
  induction rs, j using up.induct with
  | case1 rs j h =>
    rw [up, if_pos h]
    refine ordered_of_hole he (fun hj0 => ?_) hb
    rcases h with h | h
    · omega
    · simpa [less] using h
  | case2 rs j h ih =>
    rw [up, if_neg h]
    simp only [not_or, less, Bool.not_eq_false, decide_eq_true_eq] at h
    obtain ⟨h1, h2, h3⟩ := up_swap_hole (by omega) h.2 he hg
    exact ih (by omega) h1 h2 h3

theorem down_swap_hole {m : Nat} (hm : i < m ∧ m < n ∧ (m - 1) / 2 = i)
    (hmin : ∀ c < n, 0 < c → (c - 1) / 2 = i → rs.v m ≤ rs.v c) (hlt : rs.v m < rs.v i)
    (he : OrderedExcept rs n i) (hg : Grand rs n i) :
    OrderedExcept (rs.swap i m) n m ∧ Grand (rs.swap i m) n m ∧ Above (rs.swap i m) m := by
  obtain ⟨him, hmn, hpm⟩ := hm
  refine ⟨fun c hc hc0 hcm hpc => ?_, fun _ c hc hc0 hcp => ?_, fun _ => ?_⟩
  · rw [swap_v, swap_v, if_neg hcm, if_neg hpc]
    by_cases hci : c = i
    · subst hci
      rw [if_pos rfl, if_neg (by omega : (c - 1) / 2 ≠ c)]
      exact hg hc0 m hmn (by omega) hpm
    · rw [if_neg hci]
      by_cases hpi : (c - 1) / 2 = i
      · rw [if_pos hpi]; exact hmin c hc hc0 hpi
      · rw [if_neg hpi]; exact he c hc hc0 hci hpi
  · rw [swap_v, swap_v, hpm, if_neg (by omega : i ≠ m), if_pos rfl, if_neg (by omega : c ≠ m),
      if_neg (by omega : c ≠ i)]
    have := he c hc hc0 (by omega) (by omega)
    rwa [hcp] at this
  · rw [swap_v, swap_v, hpm, if_neg (by omega : i ≠ m), if_pos rfl, if_pos rfl]
    exact hlt.le

theorem downLoop_spec (he : OrderedExcept rs n i) (hg : Grand rs n i) :
    ((rs.downLoop i n).2 = i ∧ (rs.downLoop i n).1 = rs ∧ Below rs n i) ∨
      (i < (rs.downLoop i n).2 ∧ Ordered (rs.downLoop i n).1 n) := by
  induction rs, i, n using downLoop.induct with
  | case1 rs i n h =>
    rw [downLoop_eq_stop h]
    exact .inl ⟨rfl, rfl, fun c hc _ hp => by omega⟩
  | case2 rs i n h hl ih =>
    rw [downLoop_eq_swap h hl]
    have hm : i < rs.minChild i n ∧ rs.minChild i n < n ∧ (rs.minChild i n - 1) / 2 = i :=
      minChild_spec (by omega)
    simp only [less, decide_eq_true_eq] at hl
    obtain ⟨h1, h2, h3⟩ := down_swap_hole hm (fun c hc hc0 hp => minChild_le hc hc0 hp) hl he hg
    right
    rcases ih h1 h2 with ⟨hk, hr, hb⟩ | ⟨hk, ho⟩
    · rw [hk, hr]; exact ⟨hm.1, ordered_of_hole h1 h3 hb⟩
    · exact ⟨hm.1.trans hk, ho⟩
  | case3 rs i n h hl =>
    rw [downLoop_eq_keep h hl]
    simp only [less, decide_eq_true_eq, not_lt] at hl
    exact .inl ⟨rfl, rfl, fun c hc hc0 hp => hl.trans (minChild_le hc hc0 hp)⟩

/-- Every reader in the slice stores its own position. -/
def IndexOk (rs : Readers) : Prop := ∀ k < rs.len, rs.index (rs.slot k) = k

theorem IndexOk.inj (h : IndexOk rs) {a b : Nat} (ha : a < rs.len) (hb : b < rs.len)
    (he : rs.slot a = rs.slot b) : a = b := by
  have h1 := h a ha
  rw [he, h b hb] at h1
  omega

theorem mem_members {x : Nat} : x ∈ rs.members ↔ ∃ k < rs.len, rs.slot k = x := by
  simp [members]

theorem swap_index (x : Nat) : (rs.swap i j).index x =
    if x = rs.slot i then (j : Int) else if x = rs.slot j then (i : Int) else rs.index x := by
  simp only [swap, Function.update_apply]

theorem swap_indexOk (h : IndexOk rs) (hi : i < rs.len) (hj : j < rs.len) :
    IndexOk (rs.swap i j) := by
  intro k hk
  have hk' : k < rs.len := hk
  rw [swap_slot, swap_index]
  by_cases hkj : k = j
  · simp [hkj]
  by_cases hki : k = i
  · subst hki
    have : rs.slot j ≠ rs.slot k := fun e => hkj (h.inj hj hk' e).symm
    simp [hkj, this]
  · have h1 : rs.slot k ≠ rs.slot i := fun e => hki (h.inj hk' hi e)
    have h2 : rs.slot k ≠ rs.slot j := fun e => hkj (h.inj hk' hj e)
    simp [hkj, hki, h1, h2, h k hk']

theorem swap_members (hi : i < rs.len) (hj : j < rs.len) : (rs.swap i j).members = rs.members := by
  ext x
  simp only [mem_members, swap_len, swap_slot]
  constructor <;> rintro ⟨k, hk, rfl⟩
  · exact ⟨_, by split_ifs <;> omega, rfl⟩
  · refine ⟨if k = j then i else if k = i then j else k, by split_ifs <;> omega, ?_⟩
    congr 1
    split_ifs <;> omega

theorem up_indexOk_members (h : IndexOk rs) (hj : j < rs.len) :
    IndexOk (rs.up j) ∧ (rs.up j).members = rs.members ∧
      ∀ k, j < k → (rs.up j).slot k = rs.slot k := by
  induction rs, j using up.induct with
  | case1 rs j hs => rw [up, if_pos hs]; exact ⟨h, rfl, fun _ _ => rfl⟩
  | case2 rs j hs ih =>
    rw [up, if_neg hs]
    have hp : (j - 1) / 2 < rs.len := by omega
    obtain ⟨h1, h2, h3⟩ := ih (swap_indexOk h hp hj) (by simpa using hp)
    refine ⟨h1, h2.trans (swap_members hp hj), fun k hk => ?_⟩
    rw [h3 k (by omega), swap_slot, if_neg (by omega), if_neg (by omega)]

theorem downLoop_indexOk_members (h : IndexOk rs) (hn : n ≤ rs.len) :
    IndexOk (rs.downLoop i n).1 ∧ (rs.downLoop i n).1.members = rs.members ∧
      ∀ k, n ≤ k → (rs.downLoop i n).1.slot k = rs.slot k := by
  induction rs, i, n using downLoop.induct with
  | case1 rs i n hs => rw [downLoop_eq_stop hs]; exact ⟨h, rfl, fun _ _ => rfl⟩
  | case2 rs i n hs hl ih =>
    rw [downLoop_eq_swap hs hl]
    have hm : i < rs.minChild i n ∧ rs.minChild i n < n ∧ (rs.minChild i n - 1) / 2 = i :=
      minChild_spec (by omega)
    obtain ⟨h1, h2, h3⟩ := ih (swap_indexOk h (by omega) (by omega)) (by simpa using hn)
    refine ⟨h1, h2.trans (swap_members (by omega) (by omega)), fun k hk => ?_⟩
    rw [h3 k hk, swap_slot, if_neg (by omega), if_neg (by omega)]
  | case3 rs i n hs hl => rw [downLoop_eq_keep hs hl]; exact ⟨h, rfl, fun _ _ => rfl⟩

theorem pop_members (h : IndexOk rs) (hl : 0 < rs.len) :
    rs.pop.members = rs.members.erase (rs.slot (rs.len - 1)) := by
  ext x
  simp only [Finset.mem_erase, mem_members, pop]
  constructor
  · rintro ⟨k, hk, rfl⟩
    exact ⟨fun e => by have := h.inj (by omega) (by omega) e; omega, k, by omega, rfl⟩
  · rintro ⟨hx, k, hk, rfl⟩
    exact ⟨k, by by_contra hc; exact hx (by rw [show k = rs.len - 1 by omega]), rfl⟩

theorem pop_indexOk (h : IndexOk rs) : IndexOk rs.pop := by
  intro k hk
  have hk' : k < rs.len - 1 := hk
  have hne : rs.slot k ≠ rs.slot (rs.len - 1) := fun e => by
    have := h.inj (by omega) (by omega) e; omega
  simp only [pop, Function.update_apply, if_neg hne]
  exact h k (by omega)

@[simp] theorem pop_v : rs.pop.v = rs.v := rfl

@[simp] theorem pop_version : rs.pop.version = rs.version := rfl

theorem Ordered.pop (h : Ordered rs (rs.len - 1)) : Ordered rs.pop rs.pop.len := by
  simpa [Ordered] using h

theorem swap_v_of_ne {k : Nat} (hi : k ≠ i) (hj : k ≠ j) : (rs.swap i j).v k = rs.v k := by
  rw [swap_v, if_neg hj, if_neg hi]

theorem heapRemove_spec (hI : IndexOk rs) (hO : Ordered rs rs.len) (hk : k < rs.len) :
    ∃ rs', rs.heapRemove k = some rs' ∧ IndexOk rs' ∧ Ordered rs' rs'.len ∧
      rs'.members = rs.members.erase (rs.slot k) := by
  unfold heapRemove
  rw [if_neg (by omega)]
  by_cases hlast : (k : Int) = rs.len - 1
  · have hk1 : k = rs.len - 1 := by omega
    rw [if_pos hlast]
    refine ⟨_, rfl, pop_indexOk hI, Ordered.pop fun c hc hc0 => hO c (by omega) hc0, ?_⟩
    rw [pop_members hI (by omega), hk1]
  obtain ⟨n, hn⟩ : ∃ n, rs.len = n + 1 := ⟨rs.len - 1, by omega⟩
  have hkn : k < n := by omega
  rw [if_neg hlast, if_pos ⟨by omega, by omega⟩, Int.toNat_natCast, hn, Nat.add_sub_cancel]
  have he : OrderedExcept (rs.swap k n) n k := fun c hc hc0 hck hpk => by
    rw [swap_v_of_ne hck (by omega), swap_v_of_ne hpk (by omega)]
    exact hO c (by omega) hc0
  have hg : Grand (rs.swap k n) n k := fun hk0 c hc hc0 hpc => by
    rw [swap_v_of_ne (by omega) (by omega), swap_v_of_ne (by omega) (by omega)]
    exact (hO k hk hk0).trans (hpc ▸ hO c (by omega) hc0)
  have hI1 : IndexOk (rs.swap k n) := swap_indexOk hI hk (by omega)
  have hm1 : (rs.swap k n).members = rs.members := swap_members hk (by omega)
  have hslot1 : (rs.swap k n).slot n = rs.slot k := by simp [swap_slot]
  obtain ⟨hI2, hm2, hs2⟩ := downLoop_indexOk_members (i := k) (n := n) hI1 (by simp; omega)
  rcases downLoop_spec he hg with ⟨hk2, hr2, hb⟩ | ⟨hk2, ho⟩
  · have hd : (rs.swap k n).down k n = (rs.swap k n, false) := by simp [down, hk2, hr2]
    obtain ⟨hI3, hm3, hs3⟩ := up_indexOk_members hI1 (by simp; omega : k < (rs.swap k n).len)
    simp only [hd, Bool.false_eq_true, ↓reduceIte]
    refine ⟨_, rfl, pop_indexOk hI3, Ordered.pop ?_, ?_⟩
    · simpa [hn] using up_ordered hkn he hg hb
    · rw [pop_members hI3 (by simp; omega), hm3, hm1, up_len, swap_len, hn, Nat.add_sub_cancel,
        hs3 _ hkn, hslot1]
  · have hd : (rs.swap k n).down k n = (((rs.swap k n).downLoop k n).1, true) := by
      simp [down, hk2]
    simp only [hd, ↓reduceIte]
    refine ⟨_, rfl, pop_indexOk hI2, Ordered.pop ?_, ?_⟩
    · simpa [hn] using ho
    · rw [pop_members hI2 (by simp; omega), hm2, hm1, downLoop_len, swap_len, hn,
        Nat.add_sub_cancel, hs2 _ le_rfl, hslot1]

theorem heapPush_spec {x : Nat} (hI : IndexOk rs) (hO : Ordered rs rs.len) (hx : x ∉ rs.members) :
    IndexOk (rs.heapPush x) ∧ Ordered (rs.heapPush x) (rs.heapPush x).len ∧
      (rs.heapPush x).members = insert x rs.members := by
  have hne : ∀ k < rs.len, rs.slot k ≠ x := fun k hk e => hx (mem_members.2 ⟨k, hk, e⟩)
  have hI1 : IndexOk (rs.push x) := fun k hk => by
    simp only [push, Function.update_apply] at hk ⊢
    by_cases hkl : k = rs.len
    · simp [hkl]
    · rw [if_neg hkl, if_neg (hne k (by omega))]; exact hI k (by omega)
  have hv : ∀ c < rs.len, (rs.push x).v c = rs.v c := fun c hc => by
    simp [push, v, Function.update_apply, Nat.ne_of_lt hc]
  have he : OrderedExcept (rs.push x) (rs.len + 1) rs.len := fun c hc hc0 hcl _ => by
    rw [hv c (by omega), hv _ (by omega)]; exact hO c (by omega) hc0
  obtain ⟨hI2, hm2, -⟩ := up_indexOk_members hI1 (by simp [push] : rs.len < (rs.push x).len)
  refine ⟨hI2, ?_, ?_⟩
  · have := up_ordered (by omega) he (fun _ c hc _ hp => by omega) (fun c hc _ hp => by omega)
    simpa [heapPush, push] using this
  · rw [heapPush, hm2]
    ext y
    simp only [mem_members, Finset.mem_insert, push, Function.update_apply]
    constructor
    · rintro ⟨k, hk, rfl⟩
      by_cases hkl : k = rs.len
      · simp [hkl]
      · rw [if_neg hkl]; exact .inr ⟨k, by omega, rfl⟩
    · rintro (rfl | ⟨k, hk, rfl⟩)
      · exact ⟨rs.len, by omega, by simp⟩
      · exact ⟨k, by omega, by rw [if_neg (by omega)]⟩

theorem Ordered.root_le (h : Ordered rs n) : ∀ k < n, rs.v 0 ≤ rs.v k := by
  intro k
  induction k using Nat.strongRecOn with
  | ind k ih =>
    intro hk
    rcases Nat.eq_zero_or_pos k with rfl | hk0
    · exact le_rfl
    · exact (ih _ (by omega) (by omega)).trans (h k hk hk0)

end Readers

open Readers

theorem endRead_spec {rs : Readers} {r : Nat} (hI : IndexOk rs) (hO : Ordered rs rs.len)
    (hr : r ∈ rs.members) :
    ∃ rs', endRead rs r = some rs' ∧ IndexOk rs' ∧ Ordered rs' rs'.len ∧
      rs'.members = rs.members.erase r := by
  obtain ⟨k, hk, rfl⟩ := mem_members.1 hr
  rw [endRead, hI k hk]
  exact heapRemove_spec hI hO hk

theorem heapRemove_version {rs rs' : Readers} {i : Int} (h : rs.heapRemove i = some rs') :
    rs'.version = rs.version := by
  unfold heapRemove at h
  split_ifs at h <;> cases h <;> simp only [down, pop_version]
  split <;> simp

theorem beginRead_spec {rs : Readers} {r : Nat} (v : Nat) (hI : IndexOk rs)
    (hO : Ordered rs rs.len) (hr : r ∉ rs.members) :
    IndexOk (beginRead rs r v) ∧ Ordered (beginRead rs r v) (beginRead rs r v).len ∧
      (beginRead rs r v).members = insert r rs.members ∧
      (beginRead rs r v).version = Function.update rs.version r v := by
  have hv : ∀ c < rs.len, ({ rs with version := Function.update rs.version r v } : Readers).v c =
      rs.v c := fun c hc => by
    simp only [Readers.v, Function.update_apply]
    rw [if_neg fun e => hr (mem_members.2 ⟨c, hc, e⟩)]
  have h := @heapPush_spec { rs with version := Function.update rs.version r v } r hI (fun c hc hc0 => by
      have hc' : c < rs.len := hc
      rw [hv c hc', hv _ (by omega)]; exact hO c hc' hc0) hr
  exact ⟨h.1, h.2.1, h.2.2, by simp [beginRead, heapPush, push]⟩

/-- The readers begun and not ended, each with the version `BeginRead` gave it. -/
def Live := Nat → Option Nat

/-- A call on the registry under `kv.mu`. -/
inductive Call
  | beginRead (r v : Nat)
  | endRead (r : Nat)

namespace Call

/-- The call on the `ReaderList`; `none` where Go panics. -/
def step (rs : Readers) : Call → Option Readers
  | beginRead r v => some (ReaderWriter.beginRead rs r v)
  | endRead r => ReaderWriter.endRead rs r

def apply (live : Live) : Call → Live
  | beginRead r v => Function.update live r (some v)
  | endRead r => Function.update live r none

/-- A reader begins when it is not live and ends when it is. -/
def Allowed (live : Live) : Call → Prop
  | beginRead r _ => live r = none
  | endRead r => live r ≠ none

instance (live : Live) : (c : Call) → Decidable (c.Allowed live)
  | beginRead r _ => inferInstanceAs (Decidable (live r = none))
  | endRead r => inferInstanceAs (Decidable (live r ≠ none))

end Call

def runCalls (rs : Readers) : List Call → Option Readers
  | [] => some rs
  | c :: cs => (c.step rs).bind fun rs => runCalls rs cs

def liveAfter (live : Live) (cs : List Call) : Live := cs.foldl Call.apply live

/-- Every call is allowed where it is made. -/
def Allowed : Live → List Call → Prop
  | _, [] => True
  | live, c :: cs => c.Allowed live ∧ Allowed (c.apply live) cs

instance Allowed.decidable : (live : Live) → (cs : List Call) → Decidable (Allowed live cs)
  | _, [] => isTrue trivial
  | live, c :: cs =>
    have := Allowed.decidable (c.apply live) cs
    inferInstanceAs (Decidable (c.Allowed live ∧ Allowed (c.apply live) cs))

/-- The `ReaderList` holds exactly the live readers, each with its version, every reader at
its stored index, as a min-heap by version. -/
structure Holds (rs : Readers) (live : Live) : Prop where
  indexOk : IndexOk rs
  ordered : Ordered rs rs.len
  mem : ∀ r, r ∈ rs.members ↔ live r ≠ none
  version : ∀ r v, live r = some v → rs.version r = v

theorem Holds.init (slot version : Nat → Nat) (index : Nat → Int) :
    Holds ⟨0, slot, version, index⟩ fun _ => none :=
  ⟨fun k hk => absurd hk (Nat.not_lt_zero k), fun c hc => absurd hc (Nat.not_lt_zero c),
    fun r => by simp [mem_members], fun _ _ h => by cases h⟩

theorem Holds.step {rs : Readers} {live : Live} (h : Holds rs live) {c : Call} (hc : c.Allowed live) :
    ∃ rs', c.step rs = some rs' ∧ Holds rs' (c.apply live) := by
  cases c with
  | beginRead r v =>
    have hr : r ∉ rs.members := fun hm => (h.mem r).1 hm hc
    obtain ⟨hI, hO, hm, hv⟩ := beginRead_spec v h.indexOk h.ordered hr
    refine ⟨_, rfl, hI, hO, fun x => ?_, fun x w hx => ?_⟩
    · rw [hm, Finset.mem_insert, h.mem]
      rcases eq_or_ne x r with rfl | hx <;> simp [Call.apply, *]
    · rw [hv]
      by_cases hxr : x = r
      · subst hxr; simpa [Call.apply] using hx
      · simp only [Call.apply, Function.update_noteq hxr] at hx
        rw [Function.update_noteq hxr, h.version x w hx]
  | endRead r =>
    obtain ⟨rs', he, hI, hO, hm⟩ := endRead_spec h.indexOk h.ordered ((h.mem r).2 hc)
    refine ⟨rs', he, hI, hO, fun x => ?_, fun x w hx => ?_⟩
    · rw [hm, Finset.mem_erase, h.mem]
      rcases eq_or_ne x r with rfl | hx <;> simp [Call.apply, *]
    · have hxr : x ≠ r := by rintro rfl; simp [Call.apply] at hx
      rw [heapRemove_version he]
      exact h.version x w (by simpa [Call.apply, hxr] using hx)

theorem Holds.run {rs : Readers} {live : Live} (h : Holds rs live) :
    ∀ {cs : List Call}, Allowed live cs → ∃ rs', runCalls rs cs = some rs' ∧ Holds rs' (liveAfter live cs)
  | [], _ => ⟨rs, rfl, h⟩
  | _ :: _, ⟨hc, hcs⟩ => by
    obtain ⟨rs1, h1, hh⟩ := h.step hc
    obtain ⟨rs', h', hh'⟩ := hh.run hcs
    exact ⟨rs', by simp [runCalls, h1, h'], hh'⟩

/-- Any sequence of `BeginRead` and `EndRead` calls from an empty `ReaderList`, each reader
ended at most once and after it began, returns, and leaves the list holding exactly the
readers begun and not ended, with the versions `BeginRead` gave them: every reader stores its
position, the list is a min-heap by version, `EndRead` of a live reader removes exactly it,
and `readers[0]` holds the least version of a live reader. -/
theorem readers_heap (slot version : Nat → Nat) (index : Nat → Int) (cs : List Call)
    (hcs : Allowed (fun _ => none) cs) :
    ∃ rs, runCalls ⟨0, slot, version, index⟩ cs = some rs ∧ IndexOk rs ∧ Ordered rs rs.len ∧
      (∀ r, r ∈ rs.members ↔ liveAfter (fun _ => none) cs r ≠ none) ∧
      (∀ r v, liveAfter (fun _ => none) cs r = some v → rs.version r = v) ∧
      (∀ r ∈ rs.members, ∃ rs', endRead rs r = some rs' ∧ rs'.members = rs.members.erase r) ∧
      (0 < rs.len → ∃ v, liveAfter (fun _ => none) cs (rs.slot 0) = some v ∧
        ∀ r w, liveAfter (fun _ => none) cs r = some w → v ≤ w) := by
  obtain ⟨rs, hrun, h⟩ := (Holds.init slot version index).run hcs
  refine ⟨rs, hrun, h.indexOk, h.ordered, h.mem, h.version, fun r hr => ?_, fun hl => ?_⟩
  · obtain ⟨rs', he, -, -, hm⟩ := endRead_spec h.indexOk h.ordered hr
    exact ⟨rs', he, hm⟩
  · obtain ⟨v, hv⟩ := Option.ne_none_iff_exists'.mp ((h.mem _).1 (mem_members.2 ⟨0, hl, rfl⟩))
    refine ⟨v, hv, fun r w hw => ?_⟩
    obtain ⟨k, hk, rfl⟩ := mem_members.1 ((h.mem r).2 (by simp [hw]))
    have := h.ordered.root_le k hk
    rw [Readers.v, Readers.v, h.version _ _ hv, h.version _ _ hw] at this
    exact this

/-- Readers 7 and 8 begin at versions 2 and 1 and reader 7 ends. -/
def threeCalls : List Call := [.beginRead 7 2, .beginRead 8 1, .endRead 7]

theorem three_calls_readers_heap : Allowed (fun _ => none) threeCalls ∧
    ∃ rs, runCalls ⟨0, id, id, fun _ => 0⟩ threeCalls = some rs ∧ rs.members = {8} ∧
      rs.version (rs.slot 0) = 1 := by
  have hcs : Allowed (fun _ => none) threeCalls := by decide
  obtain ⟨rs, hrun, -, -, hmem, hver, -, -⟩ := readers_heap id id (fun _ => 0) threeCalls hcs
  have hlive : ∀ r, liveAfter (fun _ => none) threeCalls r = if r = 8 then some 1 else none := fun r => by
    by_cases h8 : r = 8 <;> by_cases h7 : r = 7 <;>
      simp [liveAfter, threeCalls, Call.apply, Function.update_apply, h8, h7]
  have hm : rs.members = {8} := Finset.ext fun r => by
    rw [hmem, hlive, Finset.mem_singleton]; split_ifs <;> simp [*]
  obtain ⟨k, hk, -⟩ := mem_members.1 (hm ▸ Finset.mem_singleton_self 8)
  have h0 : rs.slot 0 = 8 := Finset.mem_singleton.mp (hm ▸ mem_members.2 ⟨0, by omega, rfl⟩)
  exact ⟨hcs, rs, hrun, hm, h0 ▸ hver 8 1 (by rw [hlive]; rfl)⟩

end GoMiniDb.ReaderWriter
