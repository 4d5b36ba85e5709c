/-
How syntax is spelled.

The text of an expression or a statement consists of tokens: its spelling, which
`Expr.spell` and `Stmt.spell` give without places.  Not every tree has a text
that means something: a name has to be a name, a number has to be a number.
`Expr.Legible` and `Stmt.Legible` say what is needed of the parts; every tree
that the parser builds is legible.

A legible statement need not be read again as it was.  `printsNegative` and
`unpacksOther` are the two forms of statement that are not.
-/
import ListCalc.Expr.Parser
import ListCalc.Stmt
import ListCalc.Token.Scan

namespace ListCalc

variable {τ : Type}

/-! ### Tokens without a place -/

namespace Token

/-- A character that is a token by itself. -/
def symbol (c : Char) : Token := ⟨(Kind.ofSymbol? c).getD .illegal, c.toString, default⟩

/-- A keyword or a name. -/
def word (text : String) : Token := ⟨.ofWord text, text, default⟩

/-- A number in canonical form. -/
def numeral (text : String) : Token := ⟨.number, text, default⟩

/-- The end of a line. -/
def lineEnd : Token := ⟨.newline, "\n", default⟩

theorem kind_lineEnd : lineEnd.kind = .newline := rfl

/-- An operator, given by its text. -/
def operator (op : String) : Token := symbol (op.toList.headD ' ')

/-- Sequences of tokens with commas between them. -/
def commas : List (List Token) → List Token
  | [] => []
  | ts :: more => ts ++ more.flatMap (symbol ',' :: ·)

/-- Lines of tokens, each behind a line end, between braces; no lines need no line end. -/
def braces (lines : List Token) : List Token :=
  symbol '\x7b' :: (if lines.isEmpty then [symbol '\x7d'] else lines ++ [lineEnd, symbol '\x7d'])

end Token

open Token

/-! ### Spellings -/

namespace Expr

mutual

/-- The tokens of an expression. -/
def spell : Expr τ → List Token
  | name id => [word id.name]
  | number _ text => [numeral text]
  | negative _ text => [symbol '-', numeral text]
  | binary _ op l r => symbol '(' :: (l.spell ++ operator op :: (r.spell ++ [symbol ')']))
  | call f args => word f.name :: symbol '(' :: (commas (spellAll args) ++ [symbol ')'])
  | list _ es => symbol '[' :: (commas (spellAll es) ++ [symbol ']'])

/-- The tokens of each of some expressions. -/
def spellAll : List (Expr τ) → List (List Token)
  | [] => []
  | e :: es => e.spell :: spellAll es

end

theorem spellAll_eq_map (es : List (Expr τ)) : spellAll es = es.map spell := by
  induction es with
  | nil => rfl
  | cons e es ih => rw [spellAll, ih, List.map_cons]

end Expr

namespace Stmt

mutual

/-- The tokens of a statement. -/
def spell : Stmt τ → List Token
  | declare _ x e => word x.name :: symbol '=' :: e.spell
  | define f params e =>
    word f.name :: symbol '(' ::
      (commas (params.map fun p => [word p.name]) ++ symbol ')' :: symbol '=' :: e.spell)
  | print _ e => e.spell
  | count _ a b i s body =>
    word "from" :: (a.spell ++ word "to" :: (b.spell ++ word "as" :: word i.name ::
      word "with" :: word "step" :: (s.spell ++ braces (spellLines body))))
  | each _ i e body =>
    word "for" :: word i.name :: word "in" :: (e.spell ++ braces (spellLines body))
  | block _ body => braces (spellLines body)
  | unpack _ l r => l.spell ++ symbol '=' :: r.spell

/-- The tokens of some statements, with a line end in front of each. -/
def spellLines : List (Stmt τ) → List Token
  | [] => []
  | s :: ss => lineEnd :: (s.spell ++ spellLines ss)

end

end Stmt

/-- The tokens of a program. -/
def Program.spell (p : Program τ) : List Token := (Stmt.spellLines p).tail

/-! ### Legible syntax -/

/-- A letter and letters or digits behind it. -/
def IsWord (text : String) : Prop :=
  ∃ c cs, text.toList = c :: cs ∧ isLetter c = true ∧ ∀ d ∈ cs, isWordChar d = true

/-- A word that is no keyword. -/
def IsName (text : String) : Prop := IsWord text ∧ Kind.ofWord text = .ident

/-- Digits, a point and digits. -/
def IsNumeral (text : String) : Prop :=
  ∃ whole fraction, text.toList = whole ++ '.' :: fraction ∧ whole ≠ [] ∧ fraction ≠ [] ∧
    (∀ d ∈ whole, isDigit d = true) ∧ ∀ d ∈ fraction, isDigit d = true

theorem isDigit_of_mem_zero : ∀ d ∈ ['0'], isDigit d = true := List.forall_mem_singleton.mpr rfl

/-- A character that stands for an operator. -/
def IsOperator (op : String) : Prop :=
  ∃ c k p, op = c.toString ∧ Kind.ofSymbol? c = some k ∧ Parser.precedence? k = some p

/-- A token that legible syntax can be made of. -/
structure Token.Proper (t : Token) : Prop where
  name : t.kind = .ident → IsName t.text
  number : t.kind = .number → IsNumeral t.text
  operator : ∀ p, Parser.precedence? t.kind = some p → IsOperator t.text

namespace Expr

/-- The expression is written as a list. -/
def isList : Expr τ → Bool
  | list _ _ => true
  | _ => false

/-- The expression is an operator with its operands. -/
def isBinary : Expr τ → Bool
  | binary _ _ _ _ => true
  | _ => false

theorem eq_list_of_isList {e : Expr τ} (h : e.isList = true) : ∃ m es, e = list m es := by
  cases e with
  | list m es => exact ⟨m, es, rfl⟩
  | _ => cases h

theorem eq_binary_of_isBinary {e : Expr τ} (h : e.isBinary = true) :
    ∃ m op l r, e = binary m op l r := by
  cases e with
  | binary m op l r => exact ⟨m, op, l, r, rfl⟩
  | _ => cases h

mutual

/-- Names are names, numbers are numbers and operators are operators. -/
def Legible : Expr τ → Prop
  | name id => IsName id.name
  | number _ text => IsNumeral text
  | negative _ text => IsNumeral text
  | binary _ op l r => IsOperator op ∧ l.Legible ∧ r.Legible
  | call f args => IsName f.name ∧ AllLegible args
  | list _ es => AllLegible es

/-- Every one of some expressions is legible. -/
def AllLegible : List (Expr τ) → Prop
  | [] => True
  | e :: es => e.Legible ∧ AllLegible es

end

theorem allLegible_iff {es : List (Expr τ)} : AllLegible es ↔ ∀ e ∈ es, e.Legible := by
  induction es with
  | nil => simp [AllLegible]
  | cons e es ih => simp [AllLegible, ih]

end Expr

namespace Stmt

mutual

/-- The parts are legible, and an unpacking has on its left what starts with a bracket. -/
def Legible : Stmt τ → Prop
  | declare _ x e => IsName x.name ∧ e.Legible
  | define f params e => IsName f.name ∧ (∀ p ∈ params, IsName p.name) ∧ e.Legible
  | print _ e => e.Legible
  | count _ a b i s body =>
    a.Legible ∧ b.Legible ∧ IsName i.name ∧ s.Legible ∧ AllLegible body
  | each _ i e body => IsName i.name ∧ e.Legible ∧ AllLegible body
  | block _ body => AllLegible body
  | unpack _ l r => (l.isList = true ∨ l.isBinary = true) ∧ l.Legible ∧ r.Legible

/-- Every one of some statements is legible. -/
def AllLegible : List (Stmt τ) → Prop
  | [] => True
  | s :: ss => s.Legible ∧ AllLegible ss

end

theorem allLegible_iff {ss : List (Stmt τ)} : AllLegible ss ↔ ∀ s ∈ ss, s.Legible := by
  induction ss with
  | nil => simp [AllLegible]
  | cons s ss ih => simp [AllLegible, ih]

/-! ### Statements that are not read again -/

/-- The statement prints a number behind a minus sign, and nothing else. -/
def printsNegative : Stmt τ → Bool
  | print _ (.negative _ _) => true
  | _ => false

theorem eq_negative_of_printsNegative {m : τ} {e : Expr τ}
    (h : (print m e).printsNegative = true) : ∃ m' text, e = .negative m' text := by
  cases e with
  | negative m' text => exact ⟨m', text, rfl⟩
  | _ => cases h

/-- The statement unpacks into something that is not written as a list. -/
def unpacksOther : Stmt τ → Bool
  | unpack _ l _ => !l.isList
  | _ => false

mutual

/-- A statement and all statements inside it. -/
def nested : Stmt τ → List (Stmt τ)
  | count m a b i s body => count m a b i s body :: nestedAll body
  | each m i e body => each m i e body :: nestedAll body
  | block m body => block m body :: nestedAll body
  | s => [s]

/-- Some statements and all statements inside them. -/
def nestedAll : List (Stmt τ) → List (Stmt τ)
  | [] => []
  | s :: ss => nested s ++ nestedAll ss

end

/-- Neither the statement nor one inside it is of a form that is not read again. -/
def Rereadable (s : Stmt τ) : Prop :=
  ∀ x ∈ nested s, x.printsNegative = false ∧ x.unpacksOther = false

theorem forall_nestedAll {P : Stmt τ → Prop} {ss : List (Stmt τ)} :
    (∀ x ∈ nestedAll ss, P x) ↔ ∀ s ∈ ss, ∀ x ∈ nested s, P x := by
  induction ss with
  | nil => simp [nestedAll]
  | cons s ss ih => rw [nestedAll, List.forall_mem_append, List.forall_mem_cons, ih]

/-- A statement with a body is read again if the statements of its body are. -/
theorem rereadable_of_nested {s : Stmt τ} {body : List (Stmt τ)}
    (hs : nested s = s :: nestedAll body) (hnegative : s.printsNegative = false)
    (hother : s.unpacksOther = false) : s.Rereadable ↔ ∀ x ∈ body, x.Rereadable := by
  rw [Rereadable, hs, List.forall_mem_cons, forall_nestedAll]
  exact ⟨fun h => h.2, fun h => ⟨⟨hnegative, hother⟩, h⟩⟩

/-- A statement without a body is read again if it is of neither form. -/
theorem rereadable_of_leaf {s : Stmt τ} (hs : nested s = [s]) :
    s.Rereadable ↔ s.printsNegative = false ∧ s.unpacksOther = false := by
  rw [Rereadable, hs, List.forall_mem_singleton]

end Stmt

end ListCalc
