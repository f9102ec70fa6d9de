-- The header of a program tells for which version of the library, and for
-- which platform, the program was built.
import StreamMatch.Error
import StreamMatch.Literal.Table

namespace StreamMatch

/-- The header of a program. -/
structure Header where
  magic : List UInt8
  version : UInt32
  platform : String
deriving DecidableEq, Repr

namespace Header

/-- The header of the programs that can be used, with the magic bytes `MPSC`. -/
def current : Header := ⟨[0x4d, 0x50, 0x53, 0x43], 1, "x86_64-linux-le"⟩

/-- Checks that a program with this header can be used. -/
def validate (h : Header) : Except Mismatch Unit :=
  if h.magic ≠ current.magic then .error .magic
  else if h.version ≠ current.version then .error (.version current.version h.version)
  else if h.platform ≠ current.platform then .error (.platform current.platform h.platform)
  else .ok ()

/-- The text of a header. -/
def text (h : Header) : String :=
  "ProgramHeader \x7b magic: " ++ LiteralTable.listText (fun b => toString b.toNat) h.magic
    ++ s!", version: {h.version}, platform: " ++ Quoted.text h.platform ++ " \x7d"

theorem validate_eq_ok_iff (h : Header) : h.validate = .ok () ↔ h = current := by
  unfold validate
  constructor
  · intro hv
    split at hv
    · cases hv
    · split at hv
      · cases hv
      · split at hv
        · cases hv
        · cases h; simp_all
  · intro hc
    subst hc
    rfl

end Header

end StreamMatch
