/-!
# The use of threads

Large matrices may be built by several threads. An outer layer that is already
parallel switches that off, and the user can force it on again. Both are switches
that are on if they read TRUE, in upper or lower case.
-/

namespace PauliAlgebra

/-- The two switches, as far as they are set. -/
structure ThreadSettings where
  inParallel : Option String
  forceThreads : Option String
deriving DecidableEq, Repr

/-- Whether a switch is on. Only ASCII letters have their upper case in the word
TRUE, so no other character matters. -/
def isOn (switch : Option String) : Bool :=
  switch.any fun value => value.map Char.toUpper == "TRUE"

/-- Whether several threads may be used. -/
def ThreadSettings.allowsThreads (settings : ThreadSettings) : Bool :=
  !isOn settings.inParallel || isOn settings.forceThreads

end PauliAlgebra
