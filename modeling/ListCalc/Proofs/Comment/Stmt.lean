/-
What the words of a comment can do.

Between a comment sign and the end of its line, statements look for one thing only:
an equals sign, which tells a definition or an unpacking from an expression to
print.  So let the words of one comment be replaced, a `Rewording`, such that no
equals sign gets lost.  Where a statement comes to another conclusion afterwards, it
looks for its own equals sign behind the comment sign and fails:

* `Begins` — where statements begin;
* `Undecided` — one of them begins on the line of the comment, and what it is depends
  on the words of the comment;
* `carries_statement` — a statement is read as before, or there is one that is
  undecided, and with the new words it fails;
* `program_reworded` — so it is with whole programs.
-/
import ListCalc.Proofs.Comment

namespace ListCalc

namespace Parser

variable {α β : Type}

/-! ### Where statements begin -/

/-- A statement begins at the second list of tokens if the first one is read as statements. -/
inductive Begins : List Token → List Token → Prop where
  | here (ts : List Token) : Begins ts ts
  /-- behind a statement -/
  | next {bound : Nat} {ts rest us : List Token} {s : Option (Stmt Token)}
      (hbound : ts.length ≤ bound) (h : statement bound ts = .ok (s, rest))
      (hrest : Begins rest us) : Begins ts us
  /-- in the body of a statement -/
  | inside {bound : Nat} {t : Token} {ts rest us : List Token}
      {make : List (Stmt Token) → Stmt Token} (hbound : ts.length ≤ bound)
      (h : opening t bound ts = .ok (make, rest)) (hrest : Begins rest us) : Begins (t :: ts) us

/-- The tokens start a definition or an unpacking if there is an equals sign on their line. -/
def AwaitsAssign : List Token → Prop
  | [] => False
  | t :: ts => t.kind = .lbrack ∨ (t.kind = .ident ∧ ts.head?.any (·.kind == .lparen) = true)

/-- In front of `tail`, on the same line, begins a statement that awaits an equals sign and has
none there. -/
def Undecided (front tail : List Token) : Prop :=
  ∃ f, f <:+ front ∧ AwaitsAssign f ∧ (∀ t ∈ f, t.kind ≠ .newline ∧ t.kind ≠ .assign) ∧
    Begins (front ++ tail) (f ++ tail)

/-- A statement reads a token at least. -/
theorem length_of_statement {bound : Nat} {ts rest : List Token} {s : Option (Stmt Token)}
    (hbound : ts.length ≤ bound) (h : statement bound ts = .ok (s, rest)) :
    rest.length + 1 ≤ ts.length := by
  have hsame : ∀ o : Option (Stmt Token),
      o.map (Stmt.map (Token.relocate Change.same.place)) = o := by
    intro o
    cases o with
    | none => rfl
    | some s => exact congrArg some (Stmt.map_id s)
  have hagree := (agree_iff_follows hsame).mpr (Change.follows_statement hbound hbound)
  exact (hagree ts (Nat.le_refl _)).2 s rest h

/-! ### Lines -/

theorem assignsOnLine_newline {t : Token} (ht : t.kind = .newline) (ts : List Token) :
    assignsOnLine (t :: ts) = false := by
  simp [assignsOnLine, ht]

/-- Words in front of a line end are all that is on the line. -/
theorem assignsOnLine_words {words : List Token} (hwords : ∀ t ∈ words, t.kind ≠ .newline)
    {nl : Token} (hnl : nl.kind = .newline) (us : List Token) :
    assignsOnLine (words ++ nl :: us) = words.any (·.kind == .assign) := by
  induction words with
  | nil => exact assignsOnLine_newline hnl us
  | cons t words ih =>
    obtain ⟨ht, hwords⟩ := List.forall_mem_cons.mp hwords
    rw [List.cons_append, assignsOnLine_cons ht, ih hwords, List.any_cons]

/-- A comment runs to the end of its line. -/
theorem dropWhile_words {words : List Token} (hwords : ∀ t ∈ words, t.kind ≠ .newline)
    {nl : Token} (hnl : nl.kind = .newline) (us : List Token) :
    (words ++ nl :: us).dropWhile (·.kind != .newline) = nl :: us := by
  rw [List.dropWhile_append_of_pos fun t ht => bne_iff_ne.mpr (hwords t ht)]
  exact List.dropWhile_cons_of_neg (by simp [hnl])

/-- What needs an equals sign and finds none in front of a comment fails. -/
theorem exists_error_of_heeds {p : Parser α} (hp : Heeds p) (k : α → Token → Parser β)
    {sign : Token} (hsign : sign.kind = .comment) {front : List Token}
    (hfront : ∀ t ∈ front, t.kind ≠ .assign) (tail : List Token) :
    ∃ c, (do let a ← p; let eq ← token .assign; k a eq) (front ++ sign :: tail) = .error c := by
  have hfirst := hp sign front tail tail hsign
  rw [bind_apply]
  generalize p (front ++ sign :: tail) = x at hfirst
  cases hfirst with
  | error => exact ⟨_, rfl⟩
  | @ok a rest h =>
    dsimp only
    rw [bind_apply]
    cases rest with
    | nil => rw [List.nil_append, token, if_neg (by rw [hsign]; decide)]; exact ⟨_, rfl⟩
    | cons t rest =>
      have ht := hfront t (h.subset List.mem_cons_self)
      rw [List.cons_append, token, if_neg ht]
      exact ⟨_, rfl⟩

/-! ### Other words in a comment -/

/-- A comment sign and two choices of the words that follow it on its line.  The new words have an
equals sign if the old ones have one. -/
structure Rewording where
  sign : Token
  old : List Token
  new : List Token
  oldEnd : Token
  newEnd : Token
  rest : List Token
  sign_kind : sign.kind = .comment
  old_words : ∀ t ∈ old, t.kind ≠ .newline
  new_words : ∀ t ∈ new, t.kind ≠ .newline
  oldEnd_kind : oldEnd.kind = .newline
  newEnd_kind : newEnd.kind = .newline
  assign_kept : old.any (·.kind == .assign) = true → new.any (·.kind == .assign) = true

namespace Rewording

variable (r : Rewording) {front : List Token}

/-- The tokens from the comment sign on, with the old words. -/
def oldTail : List Token := r.sign :: (r.old ++ r.oldEnd :: r.rest)

/-- The tokens from the comment sign on, with the new words. -/
def newTail : List Token := r.sign :: (r.new ++ r.newEnd :: r.rest)

/-- The new words have an equals sign, the old ones have none, and a statement in front of them is
undecided. -/
def Misled (front : List Token) : Prop :=
  r.old.any (·.kind == .assign) = false ∧ r.new.any (·.kind == .assign) = true ∧
    Undecided front r.oldTail

/-- Two answers to tokens with the old and the new words behind `front`. -/
inductive Carries (front : List Token) :
    Except Complaint (α × List Token) → Except Complaint (α × List Token) → Prop where
  | error {c : Complaint} : Carries front (.error c) (.error c)
  /-- tokens in front of the comment are left -/
  | before {a : α} {rest : List Token} (h : rest <:+ front) :
      Carries front (.ok (a, rest ++ r.oldTail)) (.ok (a, rest ++ r.newTail))
  /-- the end of the comment's line is left -/
  | lineEnd {a : α} : Carries front (.ok (a, r.oldEnd :: r.rest)) (.ok (a, r.newEnd :: r.rest))
  /-- tokens behind the comment's line are left -/
  | behind {a : α} {rest : List Token} : Carries front (.ok (a, rest)) (.ok (a, rest))
  | misled {x : Except Complaint (α × List Token)} {c : Complaint} (h : r.Misled front) :
      Carries front x (.error c)

variable {r}

theorem carries_same (front : List Token) (x : Except Complaint (α × List Token)) :
    r.Carries front x x := by
  cases x with
  | error c => exact .error
  | ok x => exact .behind

theorem Carries.map {p q : Parser α} {ts us : List Token} (h : r.Carries front (p ts) (q us))
    (g : α → β) : r.Carries front ((g <$> p) ts) ((g <$> q) us) := by
  rw [map_apply, map_apply]
  generalize p ts = x, q us = y at h
  cases h with
  | error => exact .error
  | before h => exact .before h
  | lineEnd => exact .lineEnd
  | behind => exact .behind
  | misled h => exact .misled h

/-- What the tokens behind some more tokens answer, they answer behind all of them, if the
statements that begin there begin in the whole. -/
theorem Carries.widen {rest : List Token} {x y : Except Complaint (α × List Token)}
    (h : r.Carries rest x y) (hrest : rest <:+ front)
    (hbegins : ∀ us, Begins (rest ++ r.oldTail) us → Begins (front ++ r.oldTail) us) :
    r.Carries front x y := by
  cases h with
  | error => exact .error
  | before h => exact .before (h.trans hrest)
  | lineEnd => exact .lineEnd
  | behind => exact .behind
  | misled h =>
    obtain ⟨hold, hnew, f, hf, hawaits, hline, hbegin⟩ := h
    exact .misled ⟨hold, hnew, f, hf.trans hrest, hawaits, hline, hbegins _ hbegin⟩

/-- What does not look behind a comment sign does not see the words. -/
theorem carries_of_heeds {p : Parser α} (hp : Heeds p) (front : List Token) :
    r.Carries front (p (front ++ r.oldTail)) (p (front ++ r.newTail)) := by
  have h := hp r.sign front (r.old ++ r.oldEnd :: r.rest) (r.new ++ r.newEnd :: r.rest) r.sign_kind
  rw [oldTail, newTail]
  generalize p (front ++ r.sign :: (r.old ++ r.oldEnd :: r.rest)) = x,
    p (front ++ r.sign :: (r.new ++ r.newEnd :: r.rest)) = y at h
  cases h with
  | ok h => exact .before h
  | error => exact .error

/-- The line of a comment has an equals sign with the new words if it has one with the old words;
or it has none in front of the comment, none in the old words, and one in the new ones. -/
theorem assignsOnLine_reworded (r : Rewording) (front : List Token) :
    assignsOnLine (front ++ r.oldTail) = assignsOnLine (front ++ r.newTail) ∨
    ((∀ t ∈ front, t.kind ≠ .newline ∧ t.kind ≠ .assign) ∧
      r.old.any (·.kind == .assign) = false ∧ r.new.any (·.kind == .assign) = true ∧
      assignsOnLine (front ++ r.oldTail) = false ∧ assignsOnLine (front ++ r.newTail) = true) := by
  induction front with
  | nil =>
    have hsign : r.sign.kind ≠ .newline := by rw [r.sign_kind]; decide
    have hassign : (r.sign.kind == .assign) = false := by rw [r.sign_kind]; rfl
    rw [List.nil_append, List.nil_append, oldTail, newTail, assignsOnLine_cons hsign,
      assignsOnLine_cons hsign, hassign, Bool.false_or, Bool.false_or,
      assignsOnLine_words r.old_words r.oldEnd_kind, assignsOnLine_words r.new_words r.newEnd_kind]
    have hkept := r.assign_kept
    cases hold : r.old.any (·.kind == .assign) with
    | true => exact .inl (hkept hold).symm
    | false =>
      cases hnew : r.new.any (·.kind == .assign) with
      | true => exact .inr ⟨by simp, rfl, rfl, rfl, rfl⟩
      | false => exact .inl rfl
  | cons t front ih =>
    rw [List.cons_append, List.cons_append]
    by_cases hline : t.kind = .newline
    · exact .inl ((assignsOnLine_newline hline _).trans (assignsOnLine_newline hline _).symm)
    · rw [assignsOnLine_cons hline, assignsOnLine_cons hline]
      by_cases hassign : t.kind = .assign
      · simp [hassign]
      · have hne : (t.kind == .assign) = false := beq_eq_false_iff_ne.mpr hassign
        rw [hne, Bool.false_or, Bool.false_or, List.forall_mem_cons]
        rcases ih with heq | ⟨hfront, hrest⟩
        · exact .inl heq
        · exact .inr ⟨⟨⟨hline, hassign⟩, hfront⟩, hrest⟩

/-- A comment, be it this one or one in front of it, ends with its line. -/
theorem carries_comment (r : Rewording) {rest : List Token} (h : front <:+ rest) :
    r.Carries rest (.ok ((none : Option (Stmt Token)),
        (front ++ r.oldTail).dropWhile (·.kind != .newline)))
      (.ok (none, (front ++ r.newTail).dropWhile (·.kind != .newline))) := by
  by_cases hline : ∀ t ∈ front, t.kind ≠ .newline
  · have hwords {words : List Token} (h : ∀ t ∈ words, t.kind ≠ .newline) :
        ∀ t ∈ front ++ r.sign :: words, t.kind ≠ .newline := by
      intro t ht
      rcases List.mem_append.mp ht with ht | ht
      · exact hline t ht
      · rcases List.mem_cons.mp ht with rfl | ht
        · rw [r.sign_kind]
          decide
        · exact h t ht
    have hold := dropWhile_words (hwords r.old_words) r.oldEnd_kind r.rest
    have hnew := dropWhile_words (hwords r.new_words) r.newEnd_kind r.rest
    rw [List.append_assoc, List.cons_append] at hold hnew
    rw [oldTail, newTail, hold, hnew]
    exact .lineEnd
  · -- There is a line end in front of the sign already.
    have hdrop : ¬ (front.dropWhile (·.kind != .newline)).isEmpty = true := by
      intro hempty
      refine hline fun t ht => ?_
      have htake : front.takeWhile (·.kind != .newline) ++ front.dropWhile (·.kind != .newline)
        = front := List.takeWhile_append_dropWhile
      rw [List.isEmpty_iff.mp hempty, List.append_nil] at htake
      rw [← htake] at ht
      exact bne_iff_ne.mp (List.all_eq_true.mp List.all_takeWhile t ht)
    rw [List.dropWhile_append, List.dropWhile_append, if_neg hdrop, if_neg hdrop]
    exact .before ((List.dropWhile_suffix _).trans h)

/-! ### Statements -/

/-- The rest of a body, if single statements are known to carry over. -/
theorem carries_bodyRest {b : Nat}
    (hstatement : ∀ front, (front ++ r.oldTail).length ≤ b →
      r.Carries front (statement b (front ++ r.oldTail)) (statement b (front ++ r.newTail)))
    {n : Nat} (hn : (front ++ r.oldTail).length ≤ n) (hb : n ≤ b) :
    r.Carries front (bodyRest (statement b) n (front ++ r.oldTail))
      (bodyRest (statement b) n (front ++ r.newTail)) := by
  have hlen (f : List Token) : f.length + 2 ≤ (f ++ r.oldTail).length := by
    simp [oldTail]
    omega
  induction n generalizing front with
  | zero =>
    have := hlen front
    omega
  | succ n ih =>
    by_cases hclose : front.head?.any (·.kind == .rbrace) = true
    · -- The body is closed.
      obtain ⟨t, rest, rfl, ht⟩ := exists_of_head?_any hclose
      rw [List.cons_append, List.cons_append, bodyRest_rbrace _ n ht, bodyRest_rbrace _ n ht]
      exact .before (List.suffix_cons t rest)
    · have hstep (tail : List Token) : bodyRest (statement b) (n + 1) (front ++ r.sign :: tail)
          = (do
            let s ← statement b
            let rest ← bodyRest (statement b) n
            return s.toList ++ rest) (front ++ r.sign :: tail) := by
        cases front with
        | nil => exact bodyRest_step n (by rw [r.sign_kind]; decide) _
        | cons t front => exact bodyRest_step n (by simpa using hclose) _
      have hfirst := hstatement front (by omega)
      have hbound : (front ++ r.oldTail).length ≤ b := by omega
      rw [oldTail, newTail, hstep, hstep, ← oldTail, ← newTail, bind_apply, bind_apply]
      generalize hx : statement b (front ++ r.oldTail) = x,
        statement b (front ++ r.newTail) = y at hfirst
      cases hfirst with
      | error => exact .error
      | @before s rest h =>
        have hshort := length_of_statement hbound hx
        have hrest : (rest ++ r.oldTail).length ≤ n := by omega
        have hothers := (ih hrest (by omega)).widen h fun us hus => .next hbound hx hus
        simp only [← map_eq_pure_bind]
        exact hothers.map _
      | @lineEnd s =>
        -- The line end is no statement, and what follows is the same.
        have hfront := hlen front
        obtain ⟨n, rfl⟩ : ∃ d, n = d + 1 := ⟨n - 1, by omega⟩
        obtain ⟨b, rfl⟩ : ∃ d, b = d + 1 := ⟨b - 1, by omega⟩
        dsimp only
        rw [bind_apply, bind_apply, bodyRest_newline r.oldEnd_kind, bodyRest_newline r.newEnd_kind]
        exact carries_same front _
      | behind => exact carries_same front _
      | misled h => exact .misled h

/-- A statement that awaits an equals sign: `p` reads it if there is one on the line, and `q` if
there is none.  If only the new words have one, `p` fails. -/
theorem carries_awaiting {b : Nat} {t : Token} (hawaits : AwaitsAssign (t :: front))
    {p q : Parser (Stmt Token)} (hp : Heeds p) (hq : Heeds q)
    (hassigned : ∀ tail, assignsOnLine (front ++ r.sign :: tail) = true →
      statement (b + 1) (t :: (front ++ r.sign :: tail))
        = (some <$> p) (t :: (front ++ r.sign :: tail)))
    (hquiet : ∀ tail, assignsOnLine (front ++ r.sign :: tail) = false →
      statement (b + 1) (t :: (front ++ r.sign :: tail))
        = (some <$> q) (t :: (front ++ r.sign :: tail)))
    (hfails : (∀ u ∈ t :: front, u.kind ≠ .assign) → ∀ tail,
      ∃ c, p (t :: (front ++ r.sign :: tail)) = .error c) :
    r.Carries (t :: front) (statement (b + 1) (t :: (front ++ r.oldTail)))
      (statement (b + 1) (t :: (front ++ r.newTail))) := by
  have ht : t.kind ≠ .newline ∧ t.kind ≠ .assign := by
    rcases hawaits with hk | ⟨hk, -⟩ <;> simp [hk]
  rcases r.assignsOnLine_reworded front with heq | ⟨hfront, hold, hnew, hno, hyes⟩
  · cases hline : assignsOnLine (front ++ r.newTail) with
    | true =>
      have hp := carries_of_heeds (r := r) (heeds_map hp some) (t :: front)
      have hbefore := hassigned _ (heq.trans hline)
      have hafter := hassigned _ hline
      rw [← oldTail] at hbefore
      rw [← newTail] at hafter
      rw [hbefore, hafter]
      exact hp
    | false =>
      have hq := carries_of_heeds (r := r) (heeds_map hq some) (t :: front)
      have hbefore := hquiet _ (heq.trans hline)
      have hafter := hquiet _ hline
      rw [← oldTail] at hbefore
      rw [← newTail] at hafter
      rw [hbefore, hafter]
      exact hq
  · -- The statement is taken for one whose equals sign is not there.
    have hline : ∀ u ∈ t :: front, u.kind ≠ .newline ∧ u.kind ≠ .assign :=
      List.forall_mem_cons.mpr ⟨ht, hfront⟩
    obtain ⟨c, hc⟩ := hfails (fun u hu => (hline u hu).2) (r.new ++ r.newEnd :: r.rest)
    have hafter := hassigned _ hyes
    rw [map_apply, hc, ← newTail] at hafter
    rw [hafter]
    exact .misled ⟨hold, hnew, t :: front, List.suffix_refl _, hawaits, hline, .here _⟩

/-- A statement that starts with a name: a call may be taken for a definition. -/
theorem carries_statement_name (b : Nat) {t : Token} (hk : t.kind = .ident) (front : List Token) :
    r.Carries (t :: front) (statement (b + 1) (t :: (front ++ r.oldTail)))
      (statement (b + 1) (t :: (front ++ r.newTail))) := by
  have hassign := head?_any_append_sign (show Kind.assign ≠ .comment by decide) r.sign_kind front
  have hparen := head?_any_append_sign (show Kind.lparen ≠ .comment by decide) r.sign_kind front
  cases ha : front.head?.any (·.kind == .assign) with
  | true =>
    have hstmt (tail : List Token) := statement_declaration b (front ++ r.sign :: tail) hk
      ((hassign tail).trans ha)
    rw [oldTail, newTail, hstmt, hstmt, ← oldTail, ← newTail]
    exact carries_of_heeds (heeds_map (heeds_declaration (b + 1)) some) (t :: front)
  | false =>
    cases hp : front.head?.any (·.kind == .lparen) with
    | false =>
      have hstmt (tail : List Token) := statement_print_name b (front ++ r.sign :: tail) hk
        ((hassign tail).trans ha) (by rw [hparen, hp, Bool.false_and])
      rw [oldTail, newTail, hstmt, hstmt, ← oldTail, ← newTail]
      exact carries_of_heeds (heeds_map (heeds_printing t (b + 1)) some) (t :: front)
    | true =>
      refine carries_awaiting (.inr ⟨hk, hp⟩) (heeds_definition (b + 1))
        (heeds_printing t (b + 1)) (fun tail hline => ?_) (fun tail hline => ?_)
        fun hnone tail => ?_
      · exact statement_definition b _ hk ((hassign tail).trans ha)
          (by rw [hparen, hp, Bool.true_and, hline])
      · exact statement_print_name b _ hk ((hassign tail).trans ha)
          (by rw [hparen, hp, Bool.true_and, hline])
      · rw [definition_eq]
        exact exists_error_of_heeds (heeds_signature (b + 1)) _ r.sign_kind hnone tail

/-- A statement that starts with a bracket: a list to print may be taken for an unpacking. -/
theorem carries_statement_list (b : Nat) {t : Token} (hk : t.kind = .lbrack)
    (front : List Token) :
    r.Carries (t :: front) (statement (b + 1) (t :: (front ++ r.oldTail)))
      (statement (b + 1) (t :: (front ++ r.newTail))) :=
  carries_awaiting (.inl hk) (heeds_unpacking (b + 1)) (heeds_printing t (b + 1))
    (fun _ hline => statement_unpacking b _ hk hline)
    (fun _ hline => statement_print_list b _ hk hline)
    fun hnone tail => exists_error_of_heeds (heeds_wholeExpression (b + 1)) _ r.sign_kind hnone tail

/-- **A statement is read alike with the old and the new words of a comment, or there is one that
is undecided and with the new words it fails.** -/
theorem carries_statement (r : Rewording) {b : Nat} {front : List Token}
    (hb : (front ++ r.oldTail).length ≤ b) :
    r.Carries front (statement b (front ++ r.oldTail)) (statement b (front ++ r.newTail)) := by
  induction b generalizing front with
  | zero => simp [oldTail] at hb
  | succ b ih =>
    cases front with
    | nil =>
      rw [List.nil_append, List.nil_append, oldTail, newTail, statement_comment b _ r.sign_kind,
        statement_comment b _ r.sign_kind, dropWhile_words r.old_words r.oldEnd_kind,
        dropWhile_words r.new_words r.newEnd_kind]
      exact .lineEnd
    | cons t front =>
      have hsuffix : front <:+ t :: front := List.suffix_cons t front
      have hlen : (front ++ r.oldTail).length ≤ b := Nat.le_of_succ_le_succ hb
      have hprint := carries_of_heeds (r := r) (heeds_map (heeds_printing t (b + 1)) some)
        (t :: front)
      rw [List.cons_append, List.cons_append] at hprint ⊢
      cases hopens : opensBody t.kind with
      | true =>
        -- A body is opened in front of the comment, or an error stands there.
        rw [statement_opening b _ hopens, statement_opening b _ hopens, bind_apply, bind_apply]
        have hopening := heeds_opening t b r.sign front (r.old ++ r.oldEnd :: r.rest)
          (r.new ++ r.newEnd :: r.rest) r.sign_kind
        rw [← oldTail, ← newTail] at hopening
        generalize hx : opening t b (front ++ r.oldTail) = x,
          opening t b (front ++ r.newTail) = y at hopening
        cases hopening with
        | error => exact .error
        | @ok make rest h =>
          have hrest : (rest ++ r.oldTail).length ≤ b := by
            have := h.length_le
            rw [List.length_append] at hlen ⊢
            omega
          have hbody := (carries_bodyRest (fun f hf => ih hf) hrest (Nat.le_refl b)).widen
            (h.trans hsuffix) fun us hus => .inside hlen hx hus
          simp only [← map_eq_pure_bind]
          exact hbody.map fun stmts => some (make stmts)
      | false =>
        cases hstart : startsStatement t.kind with
        | false =>
          rw [statement_unexpected b _ hstart, statement_unexpected b _ hstart]
          exact .error
        | true =>
          simp only [startsStatement, Bool.or_eq_true, beq_iff_eq, or_assoc] at hstart
          rcases hstart with hk | hk | hk | hk | hk | hk | hbody
          · rw [statement_newline b _ hk, statement_newline b _ hk]
            exact .before hsuffix
          · rw [statement_comment b _ hk, statement_comment b _ hk]
            exact carries_comment r hsuffix
          · exact carries_statement_name b hk front
          · rw [statement_print b _ (.inl hk), statement_print b _ (.inl hk)]
            exact hprint
          · rw [statement_print b _ (.inr hk), statement_print b _ (.inr hk)]
            exact hprint
          · exact carries_statement_list b hk front
          · rcases hbody with hk | hk | hk <;> simp [opensBody, hk] at hopens

/-! ### Programs -/

/-- All statements of a program. -/
theorem statements_reworded (r : Rewording) {b : Nat} {front : List Token}
    (hb : (front ++ r.oldTail).length ≤ b) :
    statements b (front ++ r.oldTail) = statements b (front ++ r.newTail) ∨
    ((∃ c, statements b (front ++ r.newTail) = .error c) ∧ r.Misled front) := by
  induction b generalizing front with
  | zero => simp [oldTail] at hb
  | succ b ih =>
    have hstep (tail : List Token) : statements (b + 1) (front ++ r.sign :: tail)
        = (do
          let s ← statement (b + 1)
          let rest ← statements b
          return s.toList ++ rest) (front ++ r.sign :: tail) := by
      cases front <;> rfl
    have hfirst := carries_statement r hb
    rw [oldTail, newTail, hstep, hstep, ← oldTail, ← newTail, bind_apply, bind_apply]
    generalize hx : statement (b + 1) (front ++ r.oldTail) = x,
      statement (b + 1) (front ++ r.newTail) = y at hfirst
    cases hfirst with
    | error => exact .inl rfl
    | @before s rest h =>
      have hshort := length_of_statement hb hx
      have hrest : (rest ++ r.oldTail).length ≤ b := by omega
      dsimp only
      rw [bind_apply, bind_apply]
      rcases ih hrest with heq | ⟨⟨c, hc⟩, hold, hnew, f, hf, hawaits, hline,
        hbegins⟩
      · exact .inl (by rw [heq])
      · rw [hc]
        exact .inr ⟨⟨c, rfl⟩, hold, hnew, f, hf.trans h, hawaits, hline, .next hb hx hbegins⟩
    | @lineEnd s =>
      obtain ⟨b, rfl⟩ : ∃ d, b = d + 1 := ⟨b - 1, by simp [oldTail] at hb; omega⟩
      have hline {nl : Token} (hnl : nl.kind = .newline) :
          statements (b + 1) (nl :: r.rest) = statements b r.rest := by
        rw [statements_cons, bind_of_ok (statement_newline b r.rest hnl)]
        exact congrFun (bind_pure (statements b)) r.rest
      dsimp only
      rw [bind_apply, bind_apply, hline r.oldEnd_kind, hline r.newEnd_kind]
      exact .inl rfl
    | behind => exact .inl rfl
    | misled h => exact .inr ⟨⟨_, rfl⟩, h⟩

/-- **Other words in a comment make the same program**, unless they have the first equals sign on
a line on which a statement awaits one; then they make none. -/
theorem program_reworded (r : Rewording) (front : List Token) :
    program (front ++ r.oldTail) = program (front ++ r.newTail) ∨
    ((∃ c, program (front ++ r.newTail) = .error c) ∧ r.Misled front) := by
  -- One bound covers the tokens with either words.
  have hold := Nat.le_max_left (front ++ r.oldTail).length (front ++ r.newTail).length
  have hnew := Nat.le_max_right (front ++ r.oldTail).length (front ++ r.newTail).length
  rw [program_of_le hold, program_of_le hnew]
  rcases statements_reworded r hold with heq | ⟨⟨c, hc⟩, hmisled⟩
  · exact .inl (by rw [heq])
  · exact .inr ⟨⟨c, by rw [hc]; rfl⟩, hmisled⟩

end Rewording

end Parser

end ListCalc
