/-
Documents of a YAML stream.

A document is a tree of scalars, sequences and mappings.  Each node has the line
it starts on and a tag.  An alias stands for the node with its anchor, which may be
a node that the alias is inside of; so the tree holds the number of the anchor, and
the document knows the nodes by number.
-/

namespace ListCalc.Yaml

/-- A node of a document.  An alias has a number of its own and that of the anchor it names. -/
inductive Node where
  | scalar (line : Nat) (tag value : String)
  | sequence (line : Nat) (tag : String) (items : List Node)
  | mapping (line : Nat) (tag : String) (pairs : List (Node × Node))
  | reference (line : Nat) (name : String) (number anchor : Nat)

namespace Node

instance : Inhabited Node := ⟨.scalar 0 "" ""⟩

/-- The line a node starts on, from one. -/
def line : Node → Nat
  | scalar n _ _ => n
  | sequence n _ _ => n
  | mapping n _ _ => n
  | reference n _ _ _ => n

/-- The text of a scalar or the name of an alias. -/
def value : Node → String
  | scalar _ _ s => s
  | reference _ name _ _ => name
  | _ => ""

/-- Two nodes are of one kind. -/
def sameKind : Node → Node → Bool
  | scalar _ _ _, scalar _ _ _ => true
  | sequence _ _ _, sequence _ _ _ => true
  | mapping _ _ _, mapping _ _ _ => true
  | reference _ _ _ _, reference _ _ _ _ => true
  | _, _ => false

end Node

/-- A document: its root, and its nodes with an anchor by the number of the anchor. -/
structure Document where
  root : Node
  anchored : List (Nat × Node)

/-- The node with the anchor of a number. -/
def Document.anchoredNode (d : Document) (number : Nat) : Node :=
  (d.anchored.lookup number).getD default

end ListCalc.Yaml
