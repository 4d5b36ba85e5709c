/-
Sessions are in order.

Whatever is done with a session, its names are in order: the frames record the names
that are bound, each of them once; a bound name is one that a source can spell and that
is not reserved; and the parameters of a function differ.  Names are bound in five
ways, by a declaration, a definition, an unpacking and the two kinds of loops, and each
checks on its own that a name may be taken.  So the invariant is one of all states
inside a run (`Names.Orderly`): opening and closing a frame, binding a name and
assigning to one keep it, hence do statements, however they end.

* `keepsOrder_run`, `keepsOrder_runAll` — statements of a source keep names in order;
* `Session.orderly_use` — so does every use of a session;
* `Session.orderly_of_uses` — what this comes to between the uses, where the only frame
  is the lasting one.
-/
import Mathlib.Data.List.Nodup
import ListCalc.Proofs.Guarded

namespace ListCalc

variable {τ α β : Type}

/-! ### Scopes -/

/-- A name that a program may bind, and a meaning that it may have. -/
structure Admitted (x : String) (b : Binding τ) : Prop where
  isName : IsName x
  free : isReserved x = false
  params : ∀ f, b = .function f → f.params.Nodup

/-- The frames record the bound names, each once, and names and meanings are admitted. -/
structure Names.Orderly (σ : Names τ) : Prop where
  tallies : σ.Tallies
  admitted : ∀ e ∈ σ.entries, Admitted e.1 e.2

namespace Names

variable {σ σ' : Names τ}

theorem orderly_empty : Orderly (.empty : Names τ) :=
  ⟨Scope.tallies_empty, fun _ he => absurd he List.not_mem_nil⟩

theorem Orderly.push (h : σ.Orderly) (kind : FrameKind) : Orderly (σ.push kind) :=
  ⟨h.tallies.push kind, h.admitted⟩

theorem Orderly.pop (h : σ.Orderly) {names : List String} (hpop : σ.pop = .ok (names, σ')) :
    σ'.Orderly := by
  refine ⟨h.tallies.pop hpop, ?_⟩
  obtain ⟨kind, rest, -, rfl⟩ := Scope.exists_frame_of_pop hpop
  intro e he
  exact h.admitted e (List.mem_filter.mp he).1

theorem Orderly.put (h : σ.Orderly) {x : String} {b : Binding τ} (hx : Admitted x b) {flag : Bool}
    (hput : σ.put x b = .ok (flag, σ')) : σ'.Orderly := by
  refine ⟨h.tallies.put hput, ?_⟩
  rcases Scope.put_cases hput with ⟨-, rfl⟩ | ⟨-, -, rfl⟩
  · exact h.admitted
  · exact List.forall_mem_cons.mpr ⟨hx, h.admitted⟩

theorem Orderly.set_value (h : σ.Orderly) {x : String} {v : Value}
    (hset : σ.set x (.value v) = .ok σ') : σ'.Orderly := by
  refine ⟨h.tallies.set hset, ?_⟩
  obtain rfl := Scope.eq_of_set hset
  intro e he
  obtain ⟨e', he', rfl⟩ := List.mem_map.mp he
  have hadmitted := h.admitted e' he'
  by_cases hname : e'.1 = x
  · -- The name has been bound before, so it may be.
    rw [if_pos (beq_iff_eq.mpr hname)]
    rw [hname] at hadmitted
    exact ⟨hadmitted.isName, hadmitted.free, fun f hf => by cases hf⟩
  · rw [if_neg (by simpa using hname)]
    exact hadmitted

end Names

/-! ### Actions -/

namespace Action

/-- Names that are in order before the action are in order after it, however it ends. -/
def KeepsOrder (x : Action τ α) : Prop := Preserves (fun m => m.names.Orderly) x

theorem Restores.keepsOrder {x : Action τ α} (hx : Restores x) : KeepsOrder x :=
  hx.preserves Names.Orderly

theorem keepsOrder_bind {x : Action τ α} {f : α → Action τ β} (hx : KeepsOrder x)
    (hf : ∀ a, KeepsOrder (f a)) : KeepsOrder (x >>= f) :=
  preserves_bind hx hf

theorem keepsOrder_bindNew {id : Ident τ} (hid : IsName id.name) {b : Binding τ}
    (hb : ∀ f, b = .function f → f.params.Nodup) : KeepsOrder (bindNew id b) := by
  intro m hm
  rw [bindNew]
  split
  · exact hm
  · next htaken =>
    rw [Names.isTaken, Bool.or_eq_true, not_or, Bool.not_eq_true] at htaken
    split
    · next hput => exact hm.put ⟨hid, htaken.1, hb⟩ hput
    · exact hm

theorem keepsOrder_bindNew_value {id : Ident τ} (hid : IsName id.name) (v : Value) :
    KeepsOrder (bindNew id (.value v)) :=
  keepsOrder_bindNew hid fun _ hf => by cases hf

theorem keepsOrder_assign (id : Ident τ) (v : Value) : KeepsOrder (assign id v) := by
  intro m hm
  rw [assign]
  split
  · next hset => exact hm.set_value hset
  · exact hm

theorem keepsOrder_inFrame {x : Action τ Unit} (hx : KeepsOrder x) (kind : FrameKind) :
    KeepsOrder (inFrame kind x) := by
  intro m hm
  have hinside := hx { m with names := m.names.push kind } (hm.push kind)
  simp only [inFrame]
  split
  · next hpop => exact hinside.pop hpop
  · exact hinside

end Action

/-! ### Statements -/

namespace Stmt

open ListCalc.Action

/-- Parameters of which none has occurred before differ. -/
theorem nodup_of_repeatedParam? {seen : List String} {params : List (Ident τ)}
    (h : repeatedParam? seen params = none) :
    (params.map Ident.name).Nodup ∧ ∀ p ∈ params, p.name ∉ seen := by
  induction params generalizing seen with
  | nil => exact ⟨List.nodup_nil, fun _ hp => absurd hp List.not_mem_nil⟩
  | cons p params ih =>
    rw [repeatedParam?] at h
    split at h
    · cases h
    · next hp =>
      obtain ⟨hnodup, hnew⟩ := ih h
      constructor
      · refine List.nodup_cons.mpr ⟨?_, hnodup⟩
        intro hmem
        obtain ⟨q, hq, hname⟩ := List.mem_map.mp hmem
        exact hnew q hq (hname ▸ List.mem_cons_self)
      · refine List.forall_mem_cons.mpr ⟨by simpa using hp, ?_⟩
        intro q hq hseen
        exact hnew q hq (List.mem_cons_of_mem _ hseen)

theorem keepsOrder_runDeclare (bound : Nat) {x : Ident τ} (hx : IsName x.name) (e : Expr τ) :
    KeepsOrder (runDeclare bound x e) := by
  refine keepsOrder_bind (restores_refuseTaken x).keepsOrder fun _ => ?_
  refine keepsOrder_bind (restores_query _).keepsOrder fun v => ?_
  exact keepsOrder_bindNew_value hx v

theorem keepsOrder_runDefine {f : Ident τ} (hf : IsName f.name) (params : List (Ident τ))
    (body : Expr τ) : KeepsOrder (runDefine f params body) := by
  refine keepsOrder_bind (restores_refuseTaken f).keepsOrder fun _ => ?_
  split
  · exact (restores_ofOutcome _).keepsOrder
  · next hparams =>
    refine keepsOrder_bindNew hf ?_
    rintro _ ⟨⟩
    exact (nodup_of_repeatedParam? hparams).1

theorem keepsOrder_runPair (bound : Nat) {pair : Expr τ × Expr τ} (hname : pair.1.Legible) :
    KeepsOrder (runPair bound pair) := by
  rw [runPair]
  split
  · next x hx =>
    rw [hx] at hname
    exact keepsOrder_runDeclare bound hname _
  · exact (restores_ofOutcome _).keepsOrder

theorem keepsOrder_runUnpack (bound : Nat) (mark : τ) {names : Expr τ} (hnames : names.Legible)
    (values : Expr τ) : KeepsOrder (runUnpack bound mark names values) := by
  unfold runUnpack
  split
  · next xs _ es =>
    split
    · refine preserves_forEach fun pair hpair => ?_
      refine keepsOrder_runPair bound ?_
      exact Expr.allLegible_iff.mp hnames pair.1 (List.of_mem_zip hpair).1
    · exact (restores_ofOutcome _).keepsOrder
  · exact (restores_ofOutcome _).keepsOrder
  · exact (restores_ofOutcome _).keepsOrder

theorem keepsOrder_runCount (bound : Nat) (start stop : Expr τ) {var : Ident τ}
    (hvar : IsName var.name) (step : Expr τ) {body : Action τ Unit} (hbody : KeepsOrder body) :
    KeepsOrder (runCount bound start stop var step body) := by
  refine keepsOrder_bind (restores_evalNumber bound start).keepsOrder fun a => ?_
  refine keepsOrder_bind (restores_evalNumber bound stop).keepsOrder fun b => ?_
  refine keepsOrder_bind (restores_evalNumber bound step).keepsOrder fun s => ?_
  refine keepsOrder_inFrame (keepsOrder_bind (keepsOrder_bindNew_value hvar _) fun _ => ?_) .loop
  refine preserves_countUp (fun i => ?_) b s bound a
  exact keepsOrder_bind (keepsOrder_assign var _) fun _ => keepsOrder_inFrame hbody .block

theorem keepsOrder_runEach (bound : Nat) {var : Ident τ} (hvar : IsName var.name)
    (source : Expr τ) {body : Action τ Unit} (hbody : KeepsOrder body) :
    KeepsOrder (runEach bound var source body) := by
  refine keepsOrder_bind (restores_query _).keepsOrder fun v => ?_
  split
  · exact (restores_ofOutcome _).keepsOrder
  · exact (restores_ofOutcome _).keepsOrder
  · refine keepsOrder_inFrame (keepsOrder_bind (keepsOrder_bindNew_value hvar _) fun _ => ?_) .loop
    refine preserves_forEach fun w _ => ?_
    exact keepsOrder_bind (keepsOrder_inFrame hbody .block) fun _ => keepsOrder_assign var w

mutual

/-- A legible statement keeps the names in order, however it ends. -/
theorem keepsOrder_run (bound : Nat) : (s : Stmt τ) → s.Legible → KeepsOrder (s.run bound)
  | declare _ _ e, h => keepsOrder_runDeclare bound h.1 e
  | define _ params body, h => keepsOrder_runDefine h.1 params body
  | print m _, _ =>
    (restores_bind (restores_query _) fun _ => restores_printLine m _).keepsOrder
  | count _ a b _ s body, h =>
    keepsOrder_runCount bound a b h.2.2.1 s (keepsOrder_runAll bound body h.2.2.2.2)
  | each _ _ e body, h => keepsOrder_runEach bound h.1 e (keepsOrder_runAll bound body h.2.2)
  | block _ body, h => keepsOrder_inFrame (keepsOrder_runAll bound body h) .block
  | unpack m _ values, h => keepsOrder_runUnpack bound m h.2.1 values

/-- Legible statements in order keep the names in order, however they end. -/
theorem keepsOrder_runAll (bound : Nat) :
    (ss : List (Stmt τ)) → AllLegible ss → KeepsOrder (runAll bound ss)
  | [], _ => (restores_ofOutcome (.done ())).keepsOrder
  | s :: ss, h =>
    keepsOrder_bind (keepsOrder_run bound s h.1) fun _ => keepsOrder_runAll bound ss h.2

end

end Stmt

/-! ### Sessions -/

/-- A use of a session: a call, or a text that is typed in. -/
inductive Use where
  | call (c : Call Token)
  | entry (bound : Nat) (source : String)

/-- The programs that are run are those of sources. -/
def Use.FromSource : Use → Prop
  | call (.interpret _ p) => Program.Parsed p
  | call (.execute _ p) => Program.Parsed p
  | _ => True

namespace Session

/-- The session after a use of it. -/
def use (s : Session Token) : Use → Session Token
  | .call c => (s.perform c).2
  | .entry bound source => (s.runEntry bound source).2

theorem orderly_execute {s : Session τ} (hs : s.machine.names.Orderly) (bound : Nat)
    {p : Program τ} (hp : Stmt.AllLegible p) : (s.execute bound p).2.machine.names.Orderly := by
  have hopened : s.opened.machine.names.Orderly := by
    rw [opened]
    split
    · exact hs
    · exact hs.push .program
  exact Stmt.keepsOrder_runAll bound p hp s.opened.machine hopened

theorem orderly_close {s : Session τ} (hs : s.machine.names.Orderly) :
    s.close.2.machine.names.Orderly := by
  rw [close]
  split
  · split
    · next hpop => exact hs.pop hpop
    · exact hs
  · exact hs

/-- A use leaves the names in order, and no frame open but the lasting one. -/
theorem orderly_use {s : Session Token} (hframe : s.HasLastingFrame)
    (hs : s.machine.names.Orderly) {u : Use} (hu : u.FromSource) :
    (s.use u).HasLastingFrame ∧ (s.use u).machine.names.Orderly := by
  cases u with
  | call c =>
    refine ⟨hframe.perform c, ?_⟩
    cases c with
    | interpret bound p =>
      obtain ⟨file, source, hparse⟩ := hu
      have hrun := Stmt.keepsOrder_runAll bound p (allLegible_of_parse hparse)
      exact Action.keepsOrder_inFrame hrun .program s.machine hs
    | execute bound p =>
      obtain ⟨file, source, hparse⟩ := hu
      exact orderly_execute hs bound (allLegible_of_parse hparse)
    | evaluate bound e => exact hs
    | close => exact orderly_close hs
  | entry bound source =>
    rw [use, runEntry]
    split
    · exact ⟨hframe, hs⟩
    · next p hparse =>
      exact ⟨hframe.execute bound p, orderly_execute hs bound (allLegible_of_parse hparse)⟩

/-- What is always true of a session between its uses. -/
structure Orderly (s : Session τ) : Prop where
  /-- a closed session has no names and no frames -/
  closed : s.isOpen = false → s.machine.names = .empty
  /-- an open one has one frame, which records the bound names, each once -/
  opened : s.isOpen = true → ∃ names, s.machine.names.frames = [⟨.program, names⟩] ∧
    names.Nodup ∧ s.machine.names.entries.map Prod.fst = names.reverse
  /-- a bound name is a name that is not reserved -/
  named : ∀ x, s.isDefined x = true →
    IsName x ∧ x ∉ keywordTexts ∧ constant? x = none ∧ ListCalc.function? x = none
  /-- it is that of a variable or that of a function, and not both -/
  meaning : ∀ x, s.isDefined x = true →
    (s.machine.names.value? x).isSome = !(s.machine.names.function? x).isSome
  /-- the parameters of a function differ -/
  params : ∀ x f, s.machine.names.function? x = some f → f.params.Nodup

end Session

theorem not_mem_keywordTexts {x : String} (h : IsName x) : x ∉ keywordTexts := by
  have hkeywords : ∀ w ∈ keywordTexts, Kind.ofWord w ≠ .ident := by decide
  intro hx
  exact hkeywords x hx h.2

theorem isReserved_eq_false_iff {x : String} :
    isReserved x = false ↔ constant? x = none ∧ ListCalc.function? x = none := by
  rw [isReserved, Bool.or_eq_false_iff, Option.isSome_eq_false_iff, Option.isSome_eq_false_iff,
    Option.isNone_iff_eq_none, Option.isNone_iff_eq_none]

namespace Names

variable {σ : Names τ}

theorem Orderly.admitted_of_get? (h : σ.Orderly) {x : String} {b : Binding τ}
    (hx : σ.get? x = some b) : Admitted x b :=
  h.admitted (x, b) (mem_of_lookup hx)

/-- A name in order is that of a variable or that of a function. -/
theorem Orderly.meaning (h : σ.Orderly) {x : String} (hx : σ.has x = true) :
    (σ.value? x).isSome = !(σ.function? x).isSome := by
  obtain ⟨b, hb⟩ := Option.isSome_iff_exists.mp hx
  have hconstant := (isReserved_eq_false_iff.mp (h.admitted_of_get? hb).free).1
  rw [value?, function?]
  cases b <;> simp [hconstant, hb]

theorem Orderly.params (h : σ.Orderly) {x : String} {f : Function τ}
    (hf : σ.function? x = some f) : f.params.Nodup := by
  rw [function?] at hf
  split at hf
  · next f' hget =>
    obtain rfl := Option.some.inj hf
    exact (h.admitted_of_get? hget).params f' rfl
  · cases hf

end Names

namespace Session

theorem orderly_of_names {s : Session τ} (hframe : s.HasLastingFrame)
    (hs : s.machine.names.Orderly) : s.Orderly where
  closed hclosed := by
    rw [HasLastingFrame, hclosed] at hframe
    have hkeys := hs.tallies.keys
    rw [hframe] at hkeys
    have hentries : s.machine.names.entries = [] := List.map_eq_nil_iff.mp hkeys
    show (⟨s.machine.names.entries, s.machine.names.frames⟩ : Names τ) = .empty
    rw [hentries, hframe]
    rfl
  opened hopen := by
    rw [HasLastingFrame, if_pos hopen] at hframe
    obtain ⟨names, hframes⟩ := hframe
    have hkeys := hs.tallies.keys
    rw [hframes, List.flatMap_singleton] at hkeys
    have hnodup := hs.tallies.nodup
    rw [hkeys, List.nodup_reverse] at hnodup
    exact ⟨names, hframes, hnodup, hkeys⟩
  named x hx := by
    obtain ⟨b, hb⟩ := Option.isSome_iff_exists.mp hx
    have hadmitted := hs.admitted_of_get? hb
    exact ⟨hadmitted.isName, not_mem_keywordTexts hadmitted.isName,
      isReserved_eq_false_iff.mp hadmitted.free⟩
  meaning _ hx := hs.meaning hx
  params _ _ hf := hs.params hf

/-- What one use keeps, a sequence of uses keeps. -/
theorem orderly_foldl_use {uses : List Use} (huses : ∀ u ∈ uses, u.FromSource)
    {s : Session Token} (hframe : s.HasLastingFrame) (hs : s.machine.names.Orderly) :
    (uses.foldl use s).HasLastingFrame ∧ (uses.foldl use s).machine.names.Orderly := by
  induction uses generalizing s with
  | nil => exact ⟨hframe, hs⟩
  | cons u uses ih =>
    obtain ⟨hu, hrest⟩ := List.forall_mem_cons.mp huses
    obtain ⟨hframe', hs'⟩ := orderly_use hframe hs hu
    exact ih hrest hframe' hs'

/-- **A session is in order after every sequence of uses.**  Programs of sources are run in frames
of their own or in the lasting one, expressions are evaluated, texts are typed in and the session
is closed, in any order and with any outcomes. -/
theorem orderly_of_uses (out : Writer) {uses : List Use} (huses : ∀ u ∈ uses, u.FromSource) :
    (uses.foldl use (start out)).Orderly := by
  obtain ⟨hframe, hs⟩ := orderly_foldl_use huses (s := start out) rfl Names.orderly_empty
  exact orderly_of_names hframe hs

/-- A session that is closed and used again: an unpacking fails behind its first pair, a loop has
a variable with the name that is bound by then, and an entry is no program. -/
theorem orderly_of_uses_failing :
    let loop := (parse "loop" "for b in [a, a] \x7b\n  c = b\n\x7d").toOption.getD []
    let uses : List Use := [.entry 1 "c = []", .call .close, .entry 1 "f(x) = [x, a]",
      .entry 1 "a = []\n[b, a] = [f(a), a]", .call (.interpret 1 loop), .entry 1 "f(f) ="]
    let s := uses.foldl use (start (.fresh none))
    s.machine.names.frames = [⟨.program, ["f", "a", "b"]⟩] ∧ s.Orderly := by
  intro loop uses s
  have hloop : parse "loop" "for b in [a, a] \x7b\n  c = b\n\x7d" = .ok loop := by
    have hparse : (parse "loop" "for b in [a, a] \x7b\n  c = b\n\x7d").toBool = true := by
      decide +kernel
    obtain ⟨p, hp⟩ := exists_of_toBool hparse
    simp only [loop, hp]
    rfl
  have hparsed : Program.Parsed loop := ⟨_, _, hloop⟩
  refine ⟨by decide +kernel, orderly_of_uses _ ?_⟩
  simpa [uses, Use.FromSource] using hparsed

end Session

end ListCalc
