/-
Names that every program knows: three constants and three functions.
-/
import ListCalc.Number.Circle

namespace ListCalc

/-- The constants by name. -/
def constants : List (String × Float) :=
  [("PI", 3.141592653589793), ("TAU", 6.283185307179586), ("GLR", 1.618033988749894)]

/-- The functions by name. -/
def functions : List (String × (Float → Float)) :=
  [("sin", Number.sine), ("cos", Number.cosine), ("tan", Number.tangent)]

/-- The value of a constant. -/
def constant? (name : String) : Option Float :=
  constants.lookup name

/-- The function of a name. -/
def function? (name : String) : Option (Float → Float) :=
  functions.lookup name

/-- A name that no declaration may take. -/
def isReserved (name : String) : Bool :=
  (constant? name).isSome || (function? name).isSome

/-- The names of all constants and functions, in order. -/
def reservedNames : List String :=
  ((constants.map Prod.fst) ++ (functions.map Prod.fst)).mergeSort

end ListCalc
