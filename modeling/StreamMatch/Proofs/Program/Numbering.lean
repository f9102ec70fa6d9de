-- How the parts of a program are numbered: by how many of them come before.
import StreamMatch.Program.Draft

namespace StreamMatch.Draft

/-! ## Positions in lists made of parts -/

variable {α β : Type}

/-- An element of a joined list stands in one of the parts, after all that the
parts before have. -/
theorem flatMap_getElem? {f : α → List β} {xs : List α} {k : Nat} {y : β}
    (h : (xs.flatMap f)[k]? = some y) :
    ∃ before x rest j, xs = before ++ x :: rest ∧ k = (before.flatMap f).length + j ∧
      (f x)[j]? = some y := by
  induction xs generalizing k with
  | nil => simp at h
  | cons x xs ih =>
    rw [List.flatMap_cons] at h
    by_cases hk : k < (f x).length
    · rw [List.getElem?_append_left hk] at h
      exact ⟨[], x, xs, k, rfl, by simp, h⟩
    · rw [List.getElem?_append_right (by omega)] at h
      obtain ⟨before, x', rest, j, rfl, hj, hget⟩ := ih h
      refine ⟨x :: before, x', rest, j, rfl, ?_, hget⟩
      rw [List.flatMap_cons, List.length_append]
      omega

theorem getElem?_flatMap_append {f : α → List β} (before : List α) (x : α) (rest : List α)
    {j : Nat} {y : β} (h : (f x)[j]? = some y) :
    ((before ++ x :: rest).flatMap f)[(before.flatMap f).length + j]? = some y := by
  have hj := (List.getElem?_eq_some_iff.mp h).1
  rw [List.flatMap_append, List.flatMap_cons, List.getElem?_append_right (by omega),
    Nat.add_sub_cancel_left, List.getElem?_append_left hj, h]

theorem filterMap_getElem? {f : α → Option β} {xs : List α} {i : Nat} {y : β}
    (h : (xs.filterMap f)[i]? = some y) :
    ∃ before x rest, xs = before ++ x :: rest ∧ (before.filterMap f).length = i ∧ f x = some y := by
  induction xs generalizing i with
  | nil => simp at h
  | cons x xs ih =>
    cases hx : f x with
    | none =>
      rw [List.filterMap_cons_none hx] at h
      obtain ⟨before, x', rest, rfl, hi, hfx⟩ := ih h
      exact ⟨x :: before, x', rest, rfl, by rwa [List.filterMap_cons_none hx], hfx⟩
    | some y' =>
      rw [List.filterMap_cons_some hx] at h
      cases i with
      | zero =>
        rw [List.getElem?_cons_zero] at h
        exact ⟨[], x, xs, rfl, rfl, by rw [hx, h]⟩
      | succ i =>
        rw [List.getElem?_cons_succ] at h
        obtain ⟨before, x', rest, rfl, hi, hfx⟩ := ih h
        refine ⟨x :: before, x', rest, rfl, ?_, hfx⟩
        rw [List.filterMap_cons_some hx, List.length_cons, hi]

theorem getElem?_filterMap_append {f : α → Option β} (before : List α) {x : α} (rest : List α)
    {y : β} (h : f x = some y) :
    ((before ++ x :: rest).filterMap f)[(before.filterMap f).length]? = some y := by
  rw [List.filterMap_append, List.filterMap_cons_some h, List.getElem?_append_right (by omega),
    Nat.sub_self, List.getElem?_cons_zero]

/-! ## Numbered patterns -/

/-- Whether a pattern is a repeat. -/
def Numbered.isRepeat (n : Numbered) : Bool :=
  match n.spec with
  | .literals _ => false
  | .repetition .. => true

theorem specs_number (i r first : Nat) (ps : List (PatternSpec × PatternFlags)) :
    (number i r first ps).map (fun n => (n.spec, n.flags)) = ps := by
  induction ps generalizing i r first with
  | nil => rfl
  | cons p rest ih =>
    unfold number
    rw [List.map_cons, ih]

/-- A pattern is numbered by the patterns, the repeats and the literals before
it. -/
theorem number_split {i r first : Nat} {ps : List (PatternSpec × PatternFlags)}
    {before rest : List Numbered} {n : Numbered} (h : number i r first ps = before ++ n :: rest) :
    n.id = .ofNat (i + before.length) ∧
      n.repeatId = .ofNat (r + before.countP Numbered.isRepeat) ∧
      n.first = first + (before.flatMap Numbered.literals).length := by
  induction ps generalizing i r first before with
  | nil => simp [number] at h
  | cons p ps ih =>
    obtain ⟨spec, flags⟩ := p
    unfold number at h
    simp only at h
    rcases before with _ | ⟨m, before⟩
    · rw [List.nil_append, List.cons.injEq] at h
      obtain ⟨rfl, -⟩ := h
      exact ⟨rfl, rfl, rfl⟩
    · rw [List.cons_append, List.cons.injEq] at h
      obtain ⟨rfl, hrest⟩ := h
      obtain ⟨hid, hrepeat, hfirst⟩ := ih hrest
      rw [List.length_cons, List.countP_cons, List.flatMap_cons, List.length_append]
      refine ⟨?_, ?_, ?_⟩
      · rw [hid, Nat.add_right_comm, Nat.add_assoc]
      · rw [hrepeat]
        cases spec with
        | literals specs => simp [Numbered.isRepeat]
        | repetition allowed least most =>
          simp only [Numbered.isRepeat, if_true]
          congr 1
          omega
      · rw [hfirst]
        cases spec with
        | literals specs => simp [Numbered.literals, Nat.add_assoc]
        | repetition allowed least most => simp [Numbered.literals, ByteClass.size, Nat.add_assoc]

theorem length_filterMap_repeat? (settings : Settings) (table : LiteralTable)
    (ns : List Numbered) :
    (ns.filterMap (Numbered.repeat? settings table)).length = ns.countP Numbered.isRepeat := by
  induction ns with
  | nil => rfl
  | cons n rest ih =>
    rcases hspec : n.spec with specs | ⟨allowed, least, most⟩
    · have hn : Numbered.repeat? settings table n = none := by
        unfold Numbered.repeat?
        rw [hspec]
      have hr : n.isRepeat = false := by
        unfold Numbered.isRepeat
        rw [hspec]
      rw [List.filterMap_cons_none hn, List.countP_cons_of_neg (by simp [hr]), ih]
    · have hr : n.isRepeat = true := by
        unfold Numbered.isRepeat
        rw [hspec]
      rw [List.countP_cons_of_pos hr, ← ih]
      unfold Numbered.repeat?
      rw [List.filterMap_cons, hspec]
      rfl

end StreamMatch.Draft
