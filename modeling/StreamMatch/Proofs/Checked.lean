-- Computations that can fail, step by step: what a step that succeeds gives to
-- the steps after it.
import StreamMatch.Fault

namespace StreamMatch.Checked

variable {ε α β : Type}

@[simp] theorem ok_bind (a : α) (f : α → Checked β) : (Except.ok a >>= f : Checked β) = f a := rfl

theorem pure_eq (a : α) : (pure a : Checked α) = .ok a := rfl

theorem of_require {holds : Bool} {fault : Fault} {u : Unit} (h : require holds fault = .ok u) :
    holds = true := by
  unfold require at h
  split at h
  · next hholds => exact hholds
  · cases h

theorem of_some? {o : Option α} {fault : Fault} {a : α} (h : some? o fault = .ok a) :
    o = some a := by
  cases o with
  | none => cases h
  | some b =>
    cases h
    rfl

/-! ## One computation -/

/-- If the computation succeeds, its result has a property. -/
def Ensures (P : α → Prop) (x : Checked α) : Prop := ∀ a, x = .ok a → P a

namespace Ensures

variable {P : α → Prop} {Q : β → Prop} {x : Checked α} {f : α → Checked β}

theorem of_ok {a : α} (h : P a) : Ensures P (.ok a) := by
  intro a' ha
  cases ha
  exact h

theorem of_error (P : α → Prop) (e : Fault) : Ensures P (.error e) := by
  intro a ha
  cases ha

/-- A step whose result has a property, which computations follow. -/
theorem bind (h : Ensures P x) (hf : ∀ a, P a → Ensures Q (f a)) : Ensures Q (x >>= f) := by
  intro b hb
  obtain ⟨a, ha, hb⟩ := bind_eq_ok_iff.mp hb
  exact hf a (h a ha) b hb

/-- A step of which nothing is known but that it succeeds. -/
theorem step (hf : ∀ a, x = .ok a → Ensures Q (f a)) : Ensures Q (x >>= f) := by
  intro b hb
  obtain ⟨a, ha, hb⟩ := bind_eq_ok_iff.mp hb
  exact hf a ha b hb

theorem ite {c : Prop} [Decidable c] {y : Checked α} (ht : c → Ensures P x)
    (he : ¬c → Ensures P y) : Ensures P (if c then x else y) := by
  by_cases hc : c
  · rw [if_pos hc]
    exact ht hc
  · rw [if_neg hc]
    exact he hc

end Ensures

/-- The computation succeeds, and its result has a property. -/
def Succeeds (P : α → Prop) (x : Checked α) : Prop := ∃ a, x = .ok a ∧ P a

namespace Succeeds

variable {P P' : α → Prop} {Q : β → Prop} {x : Checked α} {f : α → Checked β}

theorem of_ok {a : α} (h : P a) : Succeeds P (.ok a) := ⟨a, rfl, h⟩

theorem mono (h : Succeeds P x) (himp : ∀ a, P a → P' a) : Succeeds P' x := by
  obtain ⟨a, ha, hP⟩ := h
  exact ⟨a, ha, himp a hP⟩

/-- A step whose result has a property, which computations follow. -/
theorem bind (h : Succeeds P x) (hf : ∀ a, P a → Succeeds Q (f a)) : Succeeds Q (x >>= f) := by
  obtain ⟨a, rfl, hP⟩ := h
  exact hf a hP

/-- A step whose result is known. -/
theorem step {a : α} (h : x = .ok a) (hf : Succeeds Q (f a)) : Succeeds Q (x >>= f) := by
  rw [h]
  exact hf

end Succeeds

/-- The computation does not succeed. -/
def Fails (x : Checked α) : Prop := ∃ fault, x = .error fault

namespace Fails

variable {x : Checked α} {f : α → Checked β}

/-- A step that fails. -/
theorem bind (h : Fails x) (f : α → Checked β) : Fails (x >>= f) := by
  obtain ⟨fault, rfl⟩ := h
  exact ⟨fault, rfl⟩

/-- A step after which the computation fails. -/
theorem step (hf : ∀ a, x = .ok a → Fails (f a)) : Fails (x >>= f) := by
  rcases hx : x with fault | a
  · exact ⟨fault, rfl⟩
  · exact hf a hx

end Fails

/-! ## Two computations -/

/-- If both computations succeed, their results are related. -/
def Agree {α β : Type} (R : α → β → Prop) (x : Checked α) (y : Checked β) : Prop :=
  ∀ a b, x = .ok a → y = .ok b → R a b

/-- The first parts of two pairs are related, and the second parts are the same. -/
def WithSame {α β γ : Type} (R : α → β → Prop) (x : α × γ) (y : β × γ) : Prop :=
  R x.1 y.1 ∧ x.2 = y.2

namespace Agree

variable {γ δ : Type} {R : α → β → Prop} {S : γ → δ → Prop} {x : Checked α} {y : Checked β}
  {f : α → Checked γ} {g : β → Checked δ}

theorem of_ok {a : α} {b : β} (h : R a b) : Agree R (.ok a) (.ok b) := by
  intro a' b' ha hb
  cases ha
  cases hb
  exact h

theorem of_error (e : Fault) (y : Checked β) : Agree R (.error e) y := by
  intro a b ha
  cases ha

/-- Steps with related results, which related computations follow. -/
theorem bind (h : Agree R x y) (hf : ∀ a b, R a b → Agree S (f a) (g b)) :
    Agree S (x >>= f) (y >>= g) := by
  intro c d hc hd
  obtain ⟨a, ha, hc⟩ := bind_eq_ok_iff.mp hc
  obtain ⟨b, hb, hd⟩ := bind_eq_ok_iff.mp hd
  exact hf a b (h a b ha hb) c d hc hd

/-- The same step on both sides. -/
theorem step {g : α → Checked δ} (h : ∀ a, x = .ok a → Agree S (f a) (g a)) :
    Agree S (x >>= f) (x >>= g) := by
  intro c d hc hd
  obtain ⟨a, ha, hc⟩ := bind_eq_ok_iff.mp hc
  obtain ⟨b, hb, hd⟩ := bind_eq_ok_iff.mp hd
  rw [ha] at hb
  cases hb
  exact h a ha c d hc hd

theorem ite {c : Prop} [Decidable c] {x' : Checked α} {y' : Checked β} (ht : c → Agree R x y)
    (he : ¬c → Agree R x' y') : Agree R (if c then x else x') (if c then y else y') := by
  by_cases hc : c
  · rw [if_pos hc, if_pos hc]
    exact ht hc
  · rw [if_neg hc, if_neg hc]
    exact he hc

end Agree

/-- A check that is over when a condition holds. -/
theorem ite_eq_ok (c : Prop) [Decidable c] (b : Bool) :
    (if c then pure false else .ok b : Checked Bool) = .ok (!decide c && b) := by
  by_cases hc : c <;> simp [hc, pure_eq]

/-! ## Lists -/

/-- Steps that all succeed give the list of their results. -/
theorem mapM_eq_ok {f : α → Checked β} {g : α → β} {xs : List α} (h : ∀ x ∈ xs, f x = .ok (g x)) :
    xs.mapM f = .ok (xs.map g) := by
  induction xs with
  | nil => rfl
  | cons x rest ih =>
    have hrest := ih fun y hy => h y (List.mem_cons_of_mem x hy)
    rw [List.mapM_cons, h x List.mem_cons_self, ok_bind, hrest, ok_bind, List.map_cons, pure_eq]

/-- Checks that all give an answer tell whether something holds for each entry. -/
theorem allM_eq_ok {f : α → Checked Bool} {g : α → Bool} {xs : List α}
    (h : ∀ x ∈ xs, f x = .ok (g x)) : xs.allM f = .ok (xs.all g) := by
  induction xs with
  | nil => rfl
  | cons x rest ih =>
    have hrest := ih fun y hy => h y (List.mem_cons_of_mem x hy)
    rw [List.allM, h x List.mem_cons_self, ok_bind, List.all_cons]
    cases g x with
    | true => exact hrest
    | false => rfl

end StreamMatch.Checked

namespace StreamMatch.Word

theorem add_eq_ok_iff {a b c : Nat} : add a b = .ok c ↔ a + b < bound ∧ c = a + b := by
  unfold add
  split
  · next hlt => simp [hlt, eq_comm]
  · next hlt => simp [hlt]

theorem le_of_add_eq_ok {a b c : Nat} (h : add a b = .ok c) : b ≤ c := by
  rw [(add_eq_ok_iff.mp h).2]
  exact Nat.le_add_left b a

theorem lt_largest_of_add_one {a b : Nat} (h : add a 1 = .ok b) : a < largest := by
  have hlt := (add_eq_ok_iff.mp h).1
  unfold largest
  omega

end StreamMatch.Word
