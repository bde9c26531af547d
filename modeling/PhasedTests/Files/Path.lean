/-!
# Paths

Paths are text between slashes, taken apart without a look at any file. A leading slash is the
root; a leading `.` is a component of its own; other `.` and empty segments mean nothing; `..` is
kept. What is left of a path behind a prefix keeps its spelling, except for segments without
meaning at either end.
-/

namespace PhasedTests.Path

/-- A part of a path that has a meaning. -/
inductive Component where
  | root
  | current
  | parent
  | name (chars : List Char)
  deriving DecidableEq, Repr

/-- The texts between the slashes. -/
def segments : List Char → List (List Char)
  | [] => [[]]
  | c :: rest =>
    match segments rest with
    | [] => [[c]]
    | first :: others => if c = '/' then [] :: first :: others else (c :: first) :: others

/-- The path with these segments. -/
def ofSegments : List (List Char) → List Char
  | [] => []
  | [segment] => segment
  | segment :: rest => segment ++ '/' :: ofSegments rest

/-- A segment that means nothing inside a path. -/
def isIdle (segment : List Char) : Bool :=
  segment.isEmpty || segment == ['.']

/-- The meaning of a segment inside a path. -/
def innerComponent (segment : List Char) : Component :=
  if segment = ['.', '.'] then .parent else .name segment

/-- The meanings of segments inside a path. -/
def innerComponents (segments : List (List Char)) : List Component :=
  (segments.filter fun segment => !isIdle segment).map innerComponent

/-- Splits off a leading root or `.`. -/
def splitLead (path : List Char) : List Component × List (List Char) :=
  match segments path with
  | [] :: [] => ([], [])
  | [] :: rest => ([.root], rest)
  | ['.'] :: rest => ([.current], rest)
  | inner => ([], inner)

/-- The components of a path. -/
def components (path : List Char) : List Component :=
  let (lead, inner) := splitLead path
  lead ++ innerComponents inner

/-- The segments behind the first `count` components. -/
def dropComponents : Nat → List (List Char) → List (List Char)
  | 0, inner => inner
  | _ + 1, [] => []
  | count + 1, segment :: rest =>
    if isIdle segment then dropComponents (count + 1) rest else dropComponents count rest

/-- Segments without the idle ones at their end. -/
def trimEnd (segments : List (List Char)) : List (List Char) :=
  (segments.reverse.dropWhile isIdle).reverse

/-- A path without idle segments at its end; its lead stays. -/
def trimPath (path : List Char) : List Char :=
  let (lead, inner) := splitLead path
  match lead with
  | .root :: _ => '/' :: ofSegments (trimEnd inner)
  | .current :: _ => ofSegments (['.'] :: trimEnd inner)
  | _ => ofSegments (trimEnd inner)

/-- What is left of `path` behind the components of `base`, if the path starts with them. -/
def stripPrefix? (path base : List Char) : Option (List Char) :=
  let count := (components base).length
  if (components base).isPrefixOf (components path) then
    if count = 0 then some (trimPath path)
    else
      let (lead, inner) := splitLead path
      let left := dropComponents (count - lead.length) inner
      some (ofSegments (trimEnd (left.dropWhile isIdle)))
  else none

/-- Whether the path starts at the root. -/
def isAbsolute (path : List Char) : Bool :=
  path.head? == some '/'

/-- The path `inner` seen from the directory `outer`. An absolute path stays as it is. -/
def join (outer inner : List Char) : List Char :=
  if isAbsolute inner then inner
  else if outer.isEmpty || outer.getLast? == some '/' then outer ++ inner
  else outer ++ '/' :: inner

/-- The named components of a path, joined. -/
def namesOnly (path : List Char) : List Char :=
  ofSegments ((components path).filterMap fun component =>
    match component with
    | .name chars => some chars
    | _ => none)

end PhasedTests.Path
