/-
How a run can fail.

A failure carries the mark of the place that caused it.  Marked with tokens,
failures have messages.
-/
import ListCalc.Scope
import ListCalc.Text.Quoted
import ListCalc.Token

namespace ListCalc

/-- How evaluation can fail. -/
inductive RuntimeError.Kind where
  | undefinedVariable
  | undefinedFunction
  | invalidArguments
  | invalidListLength
  | redeclaration
  | expectedList
  | expectedScalar
  | expectedIdentifier
  | emptyList
  | other (code : Int)
  deriving DecidableEq

namespace RuntimeError.Kind

/-- The kind with a given number. -/
def ofCode : Int → RuntimeError.Kind
  | 0 => undefinedVariable
  | 1 => undefinedFunction
  | 2 => invalidArguments
  | 3 => invalidListLength
  | 4 => redeclaration
  | 5 => expectedList
  | 6 => expectedScalar
  | 7 => expectedIdentifier
  | 8 => emptyList
  | n => other n

/-- The kind in words. -/
def text : RuntimeError.Kind → String
  | undefinedVariable => "undefined variable"
  | undefinedFunction => "undefined function"
  | invalidArguments => "invalid arguments for function"
  | invalidListLength => "lists must be the same length"
  | redeclaration => "redeclaration of"
  | expectedList => "expected a list"
  | expectedScalar => "expected a scalar"
  | expectedIdentifier => "expected an identifier"
  | emptyList => "empty list in for-loop"
  | other n => "RuntimeErrorKind(" ++ toString n ++ ")"

end RuntimeError.Kind

/-- A failure of evaluation: its kind, the name it is about (or nothing), the mark of its cause
and some detail (or nothing). -/
structure RuntimeError (τ : Type) where
  kind : RuntimeError.Kind
  name : String
  mark : τ
  detail : String

/-- The failure in words, behind its place. -/
def RuntimeError.message (e : RuntimeError Token) : String :=
  e.mark.report <|
    e.kind.text ++ (if e.name = "" then "" else " " ++ Text.quote e.name)
      ++ (if e.detail = "" then "" else ": " ++ e.detail)

/-- What is wrong with the use of a scope, in words. -/
def Fault.message : Fault → String
  | popWithoutFrame => "cannot pop from an empty frame stack"
  | putWithoutFrame => "cannot put without a frame"
  | setUnbound name => "cannot set unbound name " ++ name
  | unknownOperator op => "unsupported operator " ++ Text.quote op

/-- Why a run stopped early. -/
inductive Failure (τ : Type) where
  /-- an expression has no value, or a statement cannot be carried out -/
  | runtime (e : RuntimeError τ)
  /-- a number cannot be read -/
  | literal (mark : τ) (detail : String)
  /-- a line could not be printed -/
  | write (mark : τ) (reason : String)
  /-- the scope was misused -/
  | fault (f : Fault)

/-- The failure in words, behind its place if it has one. -/
def Failure.message : Failure Token → String
  | runtime e => e.message
  | literal t detail => t.report detail
  | write t reason => t.report ("print: " ++ reason)
  | fault f => f.message

end ListCalc
