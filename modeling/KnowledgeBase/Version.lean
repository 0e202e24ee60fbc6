/-!
# Versions

The version of the library and of the format of exported states.
-/

namespace KnowledgeBase.Version

def library : String := "0.9.0"

/-- The format that exported states are written in. -/
def formatMajor : Int := 1
def formatMinor : Int := 0

/-- A reader takes states of its own major format and of no newer minor one. -/
def compatible (major minor : Int) : Bool :=
  decide (major = formatMajor) && decide (minor ≤ formatMinor)

end KnowledgeBase.Version
