-- Tunable parameters of a program. They choose how the runs of repeats are
-- tracked, so they change the memory that a stream needs and never its matches.

namespace StreamMatch

/-- The largest upper bounds of the repeats that are tracked in each way. -/
structure Settings where
  /-- Repeats with an upper bound up to this one are tracked with a bitmap. -/
  bitmapLimit : Nat := 63
  /-- Repeats above the bitmap limit, with an upper bound up to this one, are
  tracked with a ring of offsets. -/
  ringLimit : Nat := 255
deriving DecidableEq, Repr

/-- What is wrong with the settings. -/
inductive SettingsError where
  /-- The bitmap limit is above its maximum. -/
  | bitmapLimit (found : Nat)
  /-- The ring limit is above its maximum. -/
  | ringLimit (found : Nat)
deriving DecidableEq, Repr

namespace Settings

/-- The largest bitmap limit. A bitmap has 64 bits, and it must hold one more
than the upper bound of its repeat. -/
def maxBitmapLimit : Nat := 63

/-- The largest ring limit. Positions in a ring are numbers of 16 bits. -/
def maxRingLimit : Nat := 65534

/-- Checks the settings, the bitmap limit first. -/
def check (s : Settings) : Except SettingsError Unit :=
  if s.bitmapLimit > maxBitmapLimit then .error (.bitmapLimit s.bitmapLimit)
  else if s.ringLimit > maxRingLimit then .error (.ringLimit s.ringLimit)
  else .ok ()

theorem check_eq_ok_iff (s : Settings) :
    s.check = .ok () ↔ s.bitmapLimit ≤ maxBitmapLimit ∧ s.ringLimit ≤ maxRingLimit := by
  unfold check
  split
  · simp; omega
  · split
    · simp; omega
    · simp; omega

end Settings

/-- The text of a settings error. -/
def SettingsError.message : SettingsError → String
  | .bitmapLimit n =>
    s!"repeat.bitmap_limit is {n}, but the maximum is {Settings.maxBitmapLimit}"
  | .ringLimit n =>
    s!"repeat.ring_limit is {n}, but the maximum is {Settings.maxRingLimit}"

end StreamMatch
