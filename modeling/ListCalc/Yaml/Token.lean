/-
Tokens of a YAML stream.

Indentation and the colon behind a key are turned into tokens of their own, so
blocks and pairs are marked in the same way as brackets and braces.
-/
import ListCalc.Yaml.Scalar

namespace ListCalc.Yaml

/-- What a token is. -/
inductive TokenData where
  | streamStart
  | streamEnd
  | versionDirective (major minor : Nat)
  | tagDirective (handle front : String)
  | documentStart
  | documentEnd
  | blockSequenceStart
  | blockMappingStart
  | blockEnd
  | flowSequenceStart
  | flowSequenceEnd
  | flowMappingStart
  | flowMappingEnd
  | blockEntry
  | flowEntry
  | key
  | value
  | reference (name : String)
  | anchor (name : String)
  | tag (handle suffix : String)
  | scalar (text : String) (style : Style)
  deriving DecidableEq, Inhabited

/-- A token with the marks of its start and its end. -/
structure Token where
  data : TokenData
  start : Mark
  stop : Mark
  deriving Inhabited

end ListCalc.Yaml
