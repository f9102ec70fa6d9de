-- Values with names: what is found after a value was given or taken away. Each name
-- has one value.
import Mathlib.Data.List.Perm.Basic
import StreamMatch.Session

namespace StreamMatch.Named

variable {α : Type} {values : Named α} {name other : String} {a : α}

/-! ## Finding -/

theorem find?_cons (v : String × α) (values : Named α) (name : String) :
    find? (v :: values) name = if name = v.1 then some v.2 else find? values name := by
  unfold find?
  rw [List.lookup_cons]
  by_cases h : name = v.1
  · rw [if_pos h, beq_iff_eq.mpr h]
  · rw [if_neg h, beq_eq_false_iff_ne.mpr h]

theorem erase_cons (v : String × α) (values : Named α) (name : String) :
    erase (v :: values) name =
      if v.1 = name then erase values name else v :: erase values name := by
  unfold erase
  by_cases h : v.1 = name
  · simp [h]
  · simp [h]

@[simp]
theorem find?_erase_self (values : Named α) (name : String) :
    (values.erase name).find? name = none := by
  induction values with
  | nil => rfl
  | cons v rest ih =>
    rw [erase_cons]
    split
    · exact ih
    · next h => rw [find?_cons, if_neg (Ne.symm h), ih]

theorem find?_erase_of_ne (values : Named α) (h : other ≠ name) :
    (values.erase name).find? other = values.find? other := by
  induction values with
  | nil => rfl
  | cons v rest ih =>
    rw [erase_cons]
    split
    · next hv => rw [ih, find?_cons, if_neg (by rwa [hv])]
    · rw [find?_cons, find?_cons, ih]

@[simp]
theorem find?_insert_self (values : Named α) (name : String) (a : α) :
    (values.insert name a).find? name = some a := by
  rw [insert, find?_cons, if_pos rfl]

theorem find?_insert_of_ne (values : Named α) (a : α) (h : other ≠ name) :
    (values.insert name a).find? other = values.find? other := by
  rw [insert, find?_cons, if_neg h, find?_erase_of_ne values h]

@[simp]
theorem insert_erase (values : Named α) (name : String) (a : α) :
    (values.erase name).insert name a = values.insert name a := by
  simp [insert, erase, List.filter_filter]

/-! ## Names -/

theorem find?_eq_none_iff : values.find? name = none ↔ name ∉ values.map Prod.fst := by
  induction values with
  | nil => exact ⟨fun _ => List.not_mem_nil, fun _ => rfl⟩
  | cons v rest ih =>
    rw [find?_cons, List.map_cons, List.mem_cons]
    by_cases h : name = v.1
    · simp [h]
    · rw [if_neg h, ih]
      simp [h]

theorem mem_of_find? (h : values.find? name = some a) : (name, a) ∈ values := by
  induction values with
  | nil => cases h
  | cons v rest ih =>
    rw [find?_cons] at h
    split at h
    · next hname =>
      cases h
      rw [hname]
      exact List.mem_cons_self
    · exact List.mem_cons_of_mem v (ih h)

theorem erase_eq_self (h : values.find? name = none) : values.erase name = values := by
  refine List.filter_eq_self.mpr fun v hv => ?_
  have hne : v.1 ≠ name := by
    rintro rfl
    exact find?_eq_none_iff.mp h (List.mem_map_of_mem hv)
  simpa using hne

theorem nodup_erase (h : (values.map Prod.fst).Nodup) (name : String) :
    ((values.erase name).map Prod.fst).Nodup :=
  h.sublist (List.filter_sublist.map Prod.fst)

theorem nodup_insert (h : (values.map Prod.fst).Nodup) (name : String) (a : α) :
    ((values.insert name a).map Prod.fst).Nodup := by
  rw [insert, List.map_cons]
  exact List.nodup_cons.mpr
    ⟨find?_eq_none_iff.mp (find?_erase_self values name), nodup_erase h name⟩

/-- If no name is there twice, the value with a name and those with other names are all
that there is. -/
theorem perm_of_find? (hnodup : (values.map Prod.fst).Nodup) (h : values.find? name = some a) :
    values.Perm ((name, a) :: values.erase name) := by
  induction values with
  | nil => cases h
  | cons v rest ih =>
    obtain ⟨hnot, hrest⟩ := List.nodup_cons.mp hnodup
    rw [find?_cons] at h
    rw [erase_cons]
    by_cases hname : name = v.1
    · subst hname
      rw [if_pos rfl, Option.some.injEq] at h
      subst h
      rw [if_pos rfl, erase_eq_self (find?_eq_none_iff.mpr hnot)]
    · rw [if_neg hname] at h
      rw [if_neg (Ne.symm hname)]
      exact ((ih hrest h).cons v).trans (List.Perm.swap _ _ _)

end StreamMatch.Named
