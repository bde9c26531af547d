import PhasedTests.SourceMap.Basic

/-!
# The source maps of a session

At most one source map per transformed file: registering one takes the place of the one that was
registered under the same path.
-/

namespace PhasedTests

/-- Source maps with different transformed paths, the latest first. -/
structure Registry where
  maps : List SourceMap
  deriving Repr

namespace Registry

/-- No source maps. -/
def empty : Registry :=
  ⟨[]⟩

/-- The map of a transformed file. -/
def find? (registry : Registry) (path : String) : Option SourceMap :=
  registry.maps.find? fun map => map.transformed == path

/-- The registry in which `map` is the map of its transformed file. -/
def register (registry : Registry) (map : SourceMap) : Registry :=
  ⟨map :: registry.maps.filter fun other => other.transformed != map.transformed⟩

/-- The number of transformed files. -/
def size (registry : Registry) : Nat :=
  registry.maps.length

end Registry

end PhasedTests
