import ResourcePki.Time.Der
import ResourcePki.Error.Validation

/-!
Periods of validity. Both ends belong to the period; it may be empty.
-/

namespace ResourcePki

/-- The time from one moment to another, both included. -/
structure Validity where
  notBefore : Time
  notAfter : Time
  deriving DecidableEq, Repr

namespace Validity

open Der

/-- Reads an encoded period. -/
def read : Reader Validity :=
  inSequence do return ⟨← Time.read, ← Time.read⟩

/-- Checks that a moment lies in the period. -/
def check (v : Validity) (now : Time) : Except PeriodError Unit :=
  if now.before v.notBefore then .error .tooNew
  else if v.notAfter.before now then .error .tooOld
  else .ok ()

/-- Writes a period. The length in front is made from the lengths that the moments announce. -/
def encode (v : Validity) : Octets :=
  (Tag.sequence ||| 0x20) :: (writeLength (v.notBefore.announced + 2 + (v.notAfter.announced + 2))
    ++ v.notBefore.encode ++ v.notAfter.encode)

end Validity

end ResourcePki
