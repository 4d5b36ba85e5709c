/-
Paths.

A path is a text with slashes between its parts.  `clean` gives the shortest path
that names the same place: no empty parts, no dots, and double dots only at the
front of a path that does not start at the root.
-/

namespace ListCalc.Path

/-- Characters between slashes. -/
def split : List Char → List (List Char)
  | [] => [[]]
  | c :: cs =>
    if c = '/' then [] :: split cs
    else match split cs with
      | [] => [[c]]
      | part :: rest => (c :: part) :: rest

/-- The parts of a path between its slashes. -/
def parts (path : String) : List String :=
  (split path.toList).map String.ofList

/-- The path starts at the root. -/
def isAbsolute (path : String) : Bool :=
  path.toList.head? == some '/'

/-- Adds a part to cleaned parts, last first. -/
def step (rooted : Bool) (done : List String) (part : String) : List String :=
  if part = "" || part = "." then done
  else if part = ".." then
    match done with
    | [] => if rooted then [] else [".."]
    | top :: rest => if top = ".." then ".." :: top :: rest else rest
  else part :: done

/-- The shortest path that names the same place. -/
def clean (path : String) : String :=
  let rooted := isAbsolute path
  let cleaned := "/".intercalate ((parts path).foldl (step rooted) []).reverse
  if rooted then "/" ++ cleaned else if cleaned = "" then "." else cleaned

/-- The paths one below the other, cleaned.  Empty ones in front do not count. -/
def join (paths : List String) : String :=
  match paths.dropWhile (· == "") with
  | [] => ""
  | rest => clean ("/".intercalate rest)

/-- The directory that holds what a path names. -/
def parent (path : String) : String :=
  clean (String.ofList (path.toList.reverse.dropWhile (· != '/')).reverse)

end ListCalc.Path
