import Mathlib.Data.List.Basic

/-! # Go maps as association lists

A Go `map` is modelled as a list of key/value pairs without repeated keys. `m[k] = v`
replaces the pair of `k` in place or appends a new one, so `range` over the list visits
the keys in one of the orders Go may choose.
-/
namespace GoMiniDb

abbrev GoMap (κ ν : Type) := List (κ × ν)

namespace GoMap

variable {κ ν : Type} [DecidableEq κ]

def get? (m : GoMap κ ν) (k : κ) : Option ν := (m.find? (·.1 = k)).map Prod.snd

def set (m : GoMap κ ν) (k : κ) (v : ν) : GoMap κ ν :=
  if m.any (·.1 = k) then m.map fun e => if e.1 = k then (k, v) else e else m ++ [(k, v)]

def erase (m : GoMap κ ν) (k : κ) : GoMap κ ν := m.filter (·.1 ≠ k)

theorem get?_cons (k k' : κ) (v : ν) (m : GoMap κ ν) :
    get? ((k, v) :: m) k' = if k = k' then some v else get? m k' := by
  by_cases h : k = k' <;> simp [get?, List.find?, h]

@[simp] theorem get?_nil (k : κ) : get? ([] : GoMap κ ν) k = none := rfl

theorem get?_eq_none (m : GoMap κ ν) (k : κ) (h : m.any (·.1 = k) = false) : get? m k = none := by
  induction m with
  | nil => rfl
  | cons e m ih =>
    simp only [List.any_cons, Bool.or_eq_false_iff, decide_eq_false_iff_not] at h
    rw [get?_cons, if_neg h.1, ih h.2]

theorem get?_map_replace (m : GoMap κ ν) (k k' : κ) (v : ν) :
    get? (m.map fun e => if e.1 = k then (k, v) else e) k' =
      if k' = k then (if m.any (·.1 = k) then some v else none) else get? m k' := by
  induction m with
  | nil => simp
  | cons e m ih =>
    obtain ⟨ek, ev⟩ := e
    by_cases hk : ek = k
    · subst hk
      by_cases hk' : k' = ek
      · simp [get?_cons, hk']
      · simp [get?_cons, hk', Ne.symm hk', ih]
    · by_cases hk' : k' = k
      · subst hk'
        simp only [List.map_cons, if_neg hk, get?_cons, ih, if_true, List.any_cons,
          decide_eq_false hk, Bool.false_or]
      · simp [get?_cons, hk, hk', ih]

theorem get?_append_single (m : GoMap κ ν) (k k' : κ) (v : ν) :
    get? (m ++ [(k, v)]) k' = (get? m k').or (if k = k' then some v else none) := by
  induction m with
  | nil => simp [get?_cons]
  | cons e m ih =>
    obtain ⟨ek, ev⟩ := e
    by_cases hk : ek = k' <;> simp [get?_cons, hk, ih]

theorem get?_set (m : GoMap κ ν) (k k' : κ) (v : ν) :
    get? (m.set k v) k' = if k' = k then some v else get? m k' := by
  unfold set
  split
  · rename_i hany
    rw [get?_map_replace, hany]
    rfl
  · rename_i hany
    rw [get?_append_single]
    by_cases hk : k' = k
    · subst hk
      rw [get?_eq_none m k' (Bool.eq_false_iff.2 hany)]
      simp
    · simp [hk, Ne.symm hk]

theorem get?_erase (m : GoMap κ ν) (k k' : κ) :
    get? (m.erase k) k' = if k' = k then none else get? m k' := by
  induction m with
  | nil => simp [erase]
  | cons e m ih =>
    obtain ⟨ek, ev⟩ := e
    unfold erase at ih ⊢
    by_cases hk : ek = k
    · subst hk
      rw [List.filter_cons, if_neg (by simp), ih, get?_cons]
      by_cases hk' : k' = ek
      · simp [hk']
      · simp [hk', Ne.symm hk']
    · rw [List.filter_cons, if_pos (by simpa using hk), get?_cons, get?_cons, ih]
      by_cases hk' : k' = k
      · subst hk'
        simp [hk]
      · simp [hk']

theorem mem_of_get? {m : GoMap κ ν} {k : κ} {v : ν} (h : get? m k = some v) : (k, v) ∈ m := by
  obtain ⟨e, he, rfl⟩ := Option.map_eq_some'.1 h
  have hk : e.1 = k := by simpa using List.find?_some he
  exact hk ▸ List.mem_of_find?_eq_some he

theorem mem_set {m : GoMap κ ν} {k : κ} {v : ν} {e : κ × ν} (h : e ∈ m.set k v) :
    e ∈ m ∨ e = (k, v) := by
  unfold set at h
  split at h
  · obtain ⟨a, ha, rfl⟩ := List.mem_map.1 h
    split
    · exact .inr rfl
    · exact .inl ha
  · simpa using h

end GoMap

end GoMiniDb
