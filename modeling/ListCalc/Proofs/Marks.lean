/-
Other marks on the same syntax.

The nodes of expressions and statements carry marks.  `Expr.map` and `Stmt.map`
put other marks in their place and keep all the rest; with the unit as the new
mark, what is left is the bare syntax.  The text of a node does not depend on
marks (`render_map`), and mapping twice is mapping once (`map_map`).
-/
import ListCalc.Stmt

namespace ListCalc

variable {τ υ ω : Type}

/-- The name with another mark. -/
def Ident.map (f : τ → υ) (id : Ident τ) : Ident υ := ⟨f id.mark, id.name⟩

@[simp] theorem Ident.map_name (f : τ → υ) (id : Ident τ) : (id.map f).name = id.name := rfl

@[simp] theorem Ident.map_map (f : τ → υ) (g : υ → ω) (id : Ident τ) :
    (id.map f).map g = id.map (g ∘ f) := rfl

@[simp] theorem Ident.map_id (id : Ident τ) : id.map (fun t => t) = id := rfl

namespace Expr

mutual

/-- The expression with other marks. -/
def map (f : τ → υ) : Expr τ → Expr υ
  | name id => name (id.map f)
  | number m text => number (f m) text
  | negative m text => negative (f m) text
  | binary m op l r => binary (f m) op (l.map f) (r.map f)
  | call callee args => call (callee.map f) (mapAll f args)
  | list m es => list (f m) (mapAll f es)

/-- Some expressions with other marks. -/
def mapAll (f : τ → υ) : List (Expr τ) → List (Expr υ)
  | [] => []
  | e :: es => e.map f :: mapAll f es

end

theorem mapAll_eq_map (f : τ → υ) (es : List (Expr τ)) : mapAll f es = es.map (map f) := by
  induction es with
  | nil => rfl
  | cons e es ih => rw [mapAll, ih, List.map_cons]

@[simp] theorem mark_map (f : τ → υ) (e : Expr τ) : (e.map f).mark = f e.mark := by
  cases e <;> rfl

mutual

@[simp] theorem render_map (f : τ → υ) : (e : Expr τ) → (e.map f).render = e.render
  | name id => rfl
  | number m text => rfl
  | negative m text => rfl
  | binary m op l r => by rw [map, render, render, render_map f l, render_map f r]
  | call callee args => by rw [map, render, render, renderAll_mapAll f args, Ident.map_name]
  | list m es => by rw [map, render, render, renderAll_mapAll f es]

@[simp] theorem renderAll_mapAll (f : τ → υ) : (es : List (Expr τ)) →
    renderAll (mapAll f es) = renderAll es
  | [] => rfl
  | e :: es => by rw [mapAll, renderAll, renderAll, render_map f e, renderAll_mapAll f es]

end

mutual

@[simp] theorem map_map (f : τ → υ) (g : υ → ω) : (e : Expr τ) → (e.map f).map g = e.map (g ∘ f)
  | name id => rfl
  | number m text => rfl
  | negative m text => rfl
  | binary m op l r => by rw [map, map, map, map_map f g l, map_map f g r]; rfl
  | call callee args => by rw [map, map, map, mapAll_mapAll f g args, Ident.map_map]
  | list m es => by rw [map, map, map, mapAll_mapAll f g es]; rfl

@[simp] theorem mapAll_mapAll (f : τ → υ) (g : υ → ω) : (es : List (Expr τ)) →
    mapAll g (mapAll f es) = mapAll (g ∘ f) es
  | [] => rfl
  | e :: es => by rw [mapAll, mapAll, mapAll, map_map f g e, mapAll_mapAll f g es]

end

mutual

@[simp] theorem map_id : (e : Expr τ) → e.map (fun t => t) = e
  | name id => rfl
  | number m text => rfl
  | negative m text => rfl
  | binary m op l r => by rw [map, map_id l, map_id r]
  | call callee args => by rw [map, mapAll_id args, Ident.map_id]
  | list m es => by rw [map, mapAll_id es]

@[simp] theorem mapAll_id : (es : List (Expr τ)) → mapAll (fun t => t) es = es
  | [] => rfl
  | e :: es => by rw [mapAll, map_id e, mapAll_id es]

end

end Expr

namespace Stmt

mutual

/-- The statement with other marks. -/
def map (f : τ → υ) : Stmt τ → Stmt υ
  | declare m x e => declare (f m) (x.map f) (e.map f)
  | define x params e => define (x.map f) (params.map (Ident.map f)) (e.map f)
  | print m e => print (f m) (e.map f)
  | count m a b i s body => count (f m) (a.map f) (b.map f) (i.map f) (s.map f) (mapAll f body)
  | each m i e body => each (f m) (i.map f) (e.map f) (mapAll f body)
  | block m body => block (f m) (mapAll f body)
  | unpack m l r => unpack (f m) (l.map f) (r.map f)

/-- Some statements with other marks. -/
def mapAll (f : τ → υ) : List (Stmt τ) → List (Stmt υ)
  | [] => []
  | s :: ss => s.map f :: mapAll f ss

end

theorem mapAll_eq_map (f : τ → υ) (ss : List (Stmt τ)) : mapAll f ss = ss.map (map f) := by
  induction ss with
  | nil => rfl
  | cons s ss ih => rw [mapAll, ih, List.map_cons]

theorem mapAll_append (f : τ → υ) (ss ss' : List (Stmt τ)) :
    mapAll f (ss ++ ss') = mapAll f ss ++ mapAll f ss' := by
  simp only [mapAll_eq_map, List.map_append]

mutual

@[simp] theorem map_map (f : τ → υ) (g : υ → ω) : (s : Stmt τ) → (s.map f).map g = s.map (g ∘ f)
  | declare m x e => by simp [map]
  | define x params e => by simp [map]
  | print m e => by simp [map]
  | count m a b i s body => by simp [map, mapAll_mapAll f g body]
  | each m i e body => by simp [map, mapAll_mapAll f g body]
  | block m body => by simp [map, mapAll_mapAll f g body]
  | unpack m l r => by simp [map]

@[simp] theorem mapAll_mapAll (f : τ → υ) (g : υ → ω) : (ss : List (Stmt τ)) →
    mapAll g (mapAll f ss) = mapAll (g ∘ f) ss
  | [] => rfl
  | s :: ss => by rw [mapAll, mapAll, mapAll, map_map f g s, mapAll_mapAll f g ss]

end

mutual

@[simp] theorem map_id : (s : Stmt τ) → s.map (fun t => t) = s
  | declare m x e => by simp [map]
  -- The parameters are a list of names, each mapped by the identity.
  | define x params e => by simp [map, show Ident.map (fun t : τ => t) = id from rfl]
  | print m e => by simp [map]
  | count m a b i s body => by simp [map, mapAll_id body]
  | each m i e body => by simp [map, mapAll_id body]
  | block m body => by simp [map, mapAll_id body]
  | unpack m l r => by simp [map]

@[simp] theorem mapAll_id : (ss : List (Stmt τ)) → mapAll (fun t => t) ss = ss
  | [] => rfl
  | s :: ss => by rw [mapAll, map_id s, mapAll_id ss]

end

end Stmt

/-- The syntax of an expression, without marks. -/
abbrev Expr.bare (e : Expr τ) : Expr Unit := e.map fun _ => ()

/-- The syntax of a statement, without marks. -/
abbrev Stmt.bare (s : Stmt τ) : Stmt Unit := s.map fun _ => ()

/-- The syntax of a program, without marks. -/
def Program.bare (p : Program τ) : Program Unit := Stmt.mapAll (fun _ => ()) p

@[simp] theorem Program.bare_mapAll (f : τ → υ) (p : Program τ) :
    Program.bare (Stmt.mapAll f p) = Program.bare p :=
  Stmt.mapAll_mapAll f _ p

theorem Program.bare_append (p q : Program τ) :
    Program.bare (p ++ q) = Program.bare p ++ Program.bare q :=
  Stmt.mapAll_append _ p q

end ListCalc
