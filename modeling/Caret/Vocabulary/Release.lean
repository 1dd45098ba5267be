/-!
# Releases of the language
-/
namespace Caret

/-- A release of the language, as major and minor number. -/
structure Release where
  major : Nat
  minor : Nat
  deriving DecidableEq, Repr

namespace Release

/-- By major number, then by minor number. -/
def compare (a b : Release) : Ordering :=
  (Ord.compare a.major b.major).then (Ord.compare a.minor b.minor)

instance : Ord Release := ⟨Release.compare⟩

def render (r : Release) : String := s!"{r.major}.{r.minor}"

end Release

end Caret
