import Wordlang.Proofs.Lexical.Naming

/-!
# The earliest lexeme at fault

A syntax error stands at the first lexeme with which the text is no longer the start of any program.
What stands before it can be completed, since each parser has recognised a start of what it reads;
and nothing that stands behind it matters, since a parser looks at no lexeme behind the one that it
blames. So if some program started with the lexemes up to that one, the parser would fail on it.

Both halves are one statement about each parser (`Predicts`), which is kept by the ways in which the
parsers are put together.
-/

namespace Wordlang

namespace Grammar

/-- Some program starts with the lexemes. -/
def Viable (ls : List Lexeme) : Prop := ∃ d : Program, ls <+: d.yield

end Grammar

namespace Parse

open Grammar

/-- The error is that the lexeme `l` was found. -/
def Blames (e : SyntaxError) (l : Lexeme) : Prop :=
  e.pos = l.pos ∧ ((∃ want, e.fault = .unexpected want l) ∨ l.token = .float)

/-- The text goes on to the end of the input. -/
def Ended (ls : List Lexeme) : Prop := ∃ l ∈ ls, l.token = .eof

/-- A parser and what it left over. -/
abbrev Reader (α : Type) := List Lexeme → Except SyntaxError (α × List Lexeme)

variable {α β : Type} {late : SyntaxError} {N M : List Lexeme → Prop} {P Q : Reader α}
  {ls : List Lexeme} {l : Lexeme}

/-- What the parser `P`, which is to read a text of `N`, does on `ls`. If it succeeds, it has read
such a text, and looks no further than the next lexeme. If it fails, it blames a lexeme before which
stands the start of such a text, and looks no further than that lexeme. -/
def Predicts (N : List Lexeme → Prop) (P : Reader α) (ls : List Lexeme) : Prop :=
  Ended ls → match P ls with
    | .ok (x, rest) => ∃ used, ls = used ++ rest ∧ N used ∧ Ended rest ∧
        ∀ rest', rest'.head? = rest.head? → P (used ++ rest') = .ok (x, rest')
    | .error e => ∃ before l after, ls = before ++ l :: after ∧ Blames e l ∧
        (∃ more, N (before ++ more)) ∧ ∀ after', P (before ++ l :: after') = .error e

theorem Ended.tail (h : Ended (l :: ls)) (hl : l.token ≠ .eof) : Ended ls := by
  obtain ⟨m, hm, ht⟩ := h
  rcases List.mem_cons.1 hm with rfl | hm
  · exact absurd ht hl
  · exact ⟨m, hm, ht⟩

theorem Ended.ne_nil (h : Ended ls) : ls ≠ [] := by
  obtain ⟨m, hm, -⟩ := h
  exact List.ne_nil_of_mem hm

namespace Predicts

theorem nil : Predicts N P [] := fun h => absurd rfl h.ne_nil

/-- The parser reads nothing. -/
theorem done {x : α} (h : ∀ r, P r = .ok (x, r)) (hN : N []) (ls : List Lexeme) :
    Predicts N P ls := by
  intro hls
  rw [h]
  exact ⟨[], rfl, hN, hls, fun rest _ => h rest⟩

/-- The parser stops in front of the lexeme `l`. -/
theorem stop {x : α} (h : ∀ r, P (l :: r) = .ok (x, l :: r)) (hN : N []) (ls : List Lexeme) :
    Predicts N P (l :: ls) := by
  intro hls
  rw [h]
  refine ⟨[], rfl, hN, hls, fun rest hrest => ?_⟩
  obtain ⟨r, rfl⟩ := List.head?_eq_some_iff.1 hrest
  exact h r

/-- The parser refuses the lexeme `l`. -/
theorem refuse {e : SyntaxError} (h : ∀ r, P (l :: r) = .error e) (he : Blames e l)
    (hN : ∃ more, N more) (ls : List Lexeme) : Predicts N P (l :: ls) := by
  intro _
  rw [h]
  exact ⟨[], l, ls, rfl, he, hN, h⟩

/-- The parser refuses the lexeme `l`, where it looks for something else. -/
theorem unexpected {w : Expected} (h : ∀ r, P (l :: r) = Parse.unexpected w l)
    (hN : ∃ more, N more) (ls : List Lexeme) : Predicts N P (l :: ls) :=
  refuse h ⟨rfl, .inl ⟨w, rfl⟩⟩ hN ls

/-- The parser reads the lexeme `l` and goes on. -/
theorem consume (hl : l.token ≠ .eof) (h : Predicts M (fun r => P (l :: r)) ls)
    (hM : ∀ u, M u → N (l :: u)) : Predicts N P (l :: ls) := by
  intro hls
  have h' := h (hls.tail hl)
  dsimp only at h'
  cases hP : P (l :: ls) with
  | ok p =>
    obtain ⟨x, rest⟩ := p
    rw [hP] at h'
    obtain ⟨used, rfl, hused, hrest, hlocal⟩ := h'
    exact ⟨l :: used, rfl, hM used hused, hrest, hlocal⟩
  | error e =>
    rw [hP] at h'
    obtain ⟨before, m, after, rfl, he, ⟨more, hmore⟩, hlocal⟩ := h'
    exact ⟨l :: before, m, after, rfl, he, ⟨more, hM _ hmore⟩, hlocal⟩

/-- The parser reads the lexeme `l` and no more. -/
theorem last {x : α} (hl : l.token ≠ .eof) (h : ∀ r, P (l :: r) = .ok (x, r)) (hN : N [l])
    (ls : List Lexeme) : Predicts N P (l :: ls) := by
  refine consume hl (M := fun u => [] = u) (done h rfl ls) ?_
  rintro _ rfl
  exact hN

/-- Parsers that agree on all texts that start with `l` predict the same there. -/
theorem congr (h : ∀ r, P (l :: r) = Q (l :: r)) (h' : Predicts N Q (l :: ls)) :
    Predicts N P (l :: ls) := by
  intro hls
  have h' := h' hls
  rw [h]
  cases hP : Q (l :: ls) with
  | ok p =>
    obtain ⟨x, rest⟩ := p
    rw [hP] at h'
    obtain ⟨used, hused, hN, hrest, hlocal⟩ := h'
    refine ⟨used, hused, hN, hrest, fun rest' hhead => ?_⟩
    -- the other text starts with `l` too, also where nothing was used
    obtain ⟨r, hr⟩ : ∃ r, used ++ rest' = l :: r := by
      apply List.head?_eq_some_iff.1
      rw [List.head?_append, hhead, ← List.head?_append, ← hused]
      rfl
    rw [hr, h, ← hr]
    exact hlocal rest' hhead
  | error e =>
    rw [hP] at h'
    obtain ⟨before, m, after, hls', he, hmore, hlocal⟩ := h'
    refine ⟨before, m, after, hls', he, hmore, fun after' => ?_⟩
    obtain ⟨r, hr⟩ : ∃ r, before ++ m :: after' = l :: r := by
      apply List.head?_eq_some_iff.1
      have hhead := congrArg List.head? hls'
      rw [List.head?_append, List.head?_cons] at hhead ⊢
      exact hhead.symm
    rw [hr, h, ← hr]
    exact hlocal after'

theorem imp (h : Predicts M P ls) (hM : ∀ u, M u → N u) : Predicts N P ls := by
  intro hls
  have h' := h hls
  cases hP : P ls with
  | ok p =>
    obtain ⟨x, rest⟩ := p
    rw [hP] at h'
    obtain ⟨used, hused, hMused, hrest⟩ := h'
    exact ⟨used, hused, hM used hMused, hrest⟩
  | error e =>
    rw [hP] at h'
    obtain ⟨before, m, after, hls', he, ⟨more, hmore⟩, hlocal⟩ := h'
    exact ⟨before, m, after, hls', he, ⟨more, hM _ hmore⟩, hlocal⟩

theorem map (h : Predicts N P ls) (f : α → β) :
    Predicts N (fun r => (P r).map (Prod.map f id)) ls := by
  intro hls
  have h' := h hls
  cases hP : P ls with
  | ok p =>
    obtain ⟨x, rest⟩ := p
    rw [hP] at h'
    obtain ⟨used, hused, hN, hrest, hlocal⟩ := h'
    simp only [hP, Except.map, Prod.map, id]
    refine ⟨used, hused, hN, hrest, fun rest' hhead => ?_⟩
    rw [hlocal rest' hhead]
  | error e =>
    rw [hP] at h'
    obtain ⟨before, m, after, hls', he, hmore, hlocal⟩ := h'
    simp only [hP, Except.map]
    refine ⟨before, m, after, hls', he, hmore, fun after' => ?_⟩
    rw [hlocal after']

/-- One parser after the other. -/
theorem bind {R : α → Reader β} (h : Predicts N P ls)
    (hR : ∀ x rest, P ls = .ok (x, rest) → Predicts M (R x) rest) (hM : ∃ u, M u) :
    Predicts (fun w => ∃ u v, N u ∧ M v ∧ u ++ v = w) (fun r => (P r).bind fun p => R p.1 p.2) ls := by
  intro hls
  have h' := h hls
  cases hP : P ls with
  | error e =>
    rw [hP] at h'
    obtain ⟨before, m, after, hls', he, ⟨more, hmore⟩, hlocal⟩ := h'
    obtain ⟨v, hv⟩ := hM
    simp only [hP, Except.bind]
    refine ⟨before, m, after, hls', he, ⟨more ++ v, _, v, hmore, hv, ?_⟩, fun after' => ?_⟩
    · rw [List.append_assoc]
    · rw [hlocal after']
  | ok p =>
    obtain ⟨x, rest⟩ := p
    rw [hP] at h'
    obtain ⟨used, hused, hN, hrest, hlocal⟩ := h'
    have hrest := hR x rest hP hrest
    simp only [hP, Except.bind]
    cases hRx : R x rest with
    | ok q =>
      obtain ⟨y, rest₂⟩ := q
      rw [hRx] at hrest
      obtain ⟨used₂, rfl, hM₂, hended, hlocal₂⟩ := hrest
      refine ⟨used ++ used₂, ?_, ⟨used, used₂, hN, hM₂, rfl⟩, hended, fun rest' hhead => ?_⟩
      · rw [hused, List.append_assoc]
      · -- the first parser looks no further than the first lexeme of what it left over
        have hsame : (used₂ ++ rest').head? = (used₂ ++ rest₂).head? := by
          rw [List.head?_append, List.head?_append, hhead]
        rw [List.append_assoc, hlocal _ hsame]
        exact hlocal₂ rest' hhead
    | error e =>
      rw [hRx] at hrest
      obtain ⟨before, m, after, rfl, he, ⟨more, hmore⟩, hlocal₂⟩ := hrest
      refine ⟨used ++ before, m, after, ?_, he, ⟨more, used, _, hN, hmore, ?_⟩, fun after' => ?_⟩
      · rw [hused, List.append_assoc]
      · rw [List.append_assoc]
      · have hsame : (before ++ m :: after').head? = (before ++ m :: after).head? := by
          rw [List.head?_append, List.head?_append]
          rfl
        rw [List.append_assoc, hlocal _ hsame]
        exact hlocal₂ after'

end Predicts

/-! ## What each parser reads -/

/-- A single lexeme of the kind `t`. -/
def Single (t : Token) (u : List Lexeme) : Prop := ∃ l : Terminal t, [l.val] = u

/-- A lexeme of each kind. -/
def sample (t : Token) : Terminal t := ⟨{ token := t, text := "", pos := {} }, rfl⟩

/-- Parameters with which a text is completed that breaks off before them. -/
def sampleNames : NameList := .last (sample .name) (sample .closeParen)

/-- An expression with which a text is completed that breaks off before one. -/
def samplePhrase : Phrase := .atom (.name (sample .name))

theorem token_predicts {t : Token} (ht : t ≠ .eof) (ls : List Lexeme) :
    Predicts (Single t) (fun r => result (token late t r)) ls := by
  cases ls with
  | nil => exact .nil
  | cons l ls =>
    by_cases hl : l.token = t
    · refine .last (x := ()) (hl ▸ ht) (fun r => ?_) ⟨⟨l, hl⟩, rfl⟩ ls
      rw [result_token, if_pos hl]
    · refine .unexpected (w := .token t) (fun r => ?_) ⟨_, sample t, rfl⟩ ls
      rw [result_token, if_neg hl]

theorem names_predicts (ls : List Lexeme) :
    Predicts (fun u => ∃ ns : NameList, ns.yield = u) (fun r => result (names late r)) ls := by
  match ls with
  | [] => exact .nil
  | l :: ls =>
    by_cases hl : l.token = .name
    · refine .consume (M := fun u => ∃ ns : NameList, ns.yield = l :: u) (by simp [hl]) ?_
        fun u hu => hu
      match ls with
      | [] => exact .nil
      | m :: ls =>
        by_cases hm : m.token = .comma
        · refine .consume (by simp [hm]) (M := fun u => ∃ ns : NameList, ns.yield = u) ?_ ?_
          · simpa only [result_names hl, if_pos hm] using
              (names_predicts ls).map (Expr.name (ident l) :: ·)
          · rintro _ ⟨ns, rfl⟩
            exact ⟨.more ⟨l, hl⟩ ⟨m, hm⟩ ns, rfl⟩
        · by_cases hc : m.token = .closeParen
          · refine .last (x := [.name (ident l)]) (by simp [hc]) (fun r => ?_)
              ⟨.last ⟨l, hl⟩ ⟨m, hc⟩, rfl⟩ ls
            rw [result_names hl, if_neg hm, if_pos hc]
          · refine .unexpected (w := .token .closeParen) (fun r => ?_)
              ⟨_, .last ⟨l, hl⟩ (sample .closeParen), rfl⟩ ls
            rw [result_names hl, if_neg hm, if_neg hc]
    · refine .unexpected (w := .token .name) (fun r => ?_) ⟨_, sampleNames, rfl⟩ ls
      rw [names.eq_def]
      simp only [hl, if_false]
      rfl
termination_by ls.length

theorem params_predicts (ls : List Lexeme) :
    Predicts (fun u => ∃ ps : Params, ps.yield = u) (fun r => result (params late r)) ls := by
  cases ls with
  | nil => exact .nil
  | cons l ls =>
    by_cases hl : l.token = .closeParen
    · refine .last (x := []) (by simp [hl]) (fun r => ?_) ⟨.empty ⟨l, hl⟩, rfl⟩ ls
      rw [result_params, if_pos hl]
    · refine .congr (Q := fun r => result (names late r)) (fun r => ?_)
        ((names_predicts (l :: ls)).imp ?_)
      · rw [result_params, if_neg hl]
      · rintro _ ⟨ns, rfl⟩
        exact ⟨.list ns, rfl⟩

/-- What is done behind the argument `x`. -/
def afterArgument (late : SyntaxError) (x : Expr) : Reader (List Expr)
  | [] => .error late
  | l :: rest =>
    if l.token = .comma then (result (argList late rest)).map (Prod.map (x :: ·) id)
    else if l.token = .closeParen then .ok ([x], rest)
    else unexpected (.token .closeParen) l

/-- What is done behind the expression `x` of a sequence. -/
def afterExpression (late : SyntaxError) (stop : Token) (x : Expr) : Reader (List Expr)
  | [] => .error late
  | l :: rest =>
    if l.token = .semicolon then (result (exprs late stop rest)).map (Prod.map (x :: ·) id)
    else .ok ([x], l :: rest)

/-- What is done behind the opening brace of a function with the parameters `ps`. -/
def bodyOf (late : SyntaxError) (pos : Position) (ps : List Expr) : Reader Expr := fun ls =>
  (result (exprs late .closeBrace ls)).bind fun p =>
    (result (token late .closeBrace p.2)).map (Prod.map (fun _ => .function pos ps p.1) id)

/-- What is done behind the parameters `ps` of a function. -/
def bracedOf (late : SyntaxError) (pos : Position) (ps : List Expr) : Reader Expr := fun ls =>
  (result (token late .openBrace ls)).bind fun p => bodyOf late pos ps p.2

/-- What may stand behind an argument. -/
inductive AfterArgument : List Lexeme → Prop
  | close (c : Terminal .closeParen) : AfterArgument [c.val]
  | more (c : Terminal .comma) (a : ArgList) : AfterArgument (c.val :: a.yield)

/-- What may stand behind an expression of a sequence. -/
inductive AfterExpression : List Lexeme → Prop
  | last : AfterExpression []
  | more (c : Terminal .semicolon) (b : Block) : AfterExpression (c.val :: b.yield)

theorem AfterArgument.argList {u : List Lexeme} (h : AfterArgument u) (p : Phrase) :
    ∃ a : ArgList, a.yield = p.yield ++ u := by
  cases h with
  | close c => exact ⟨.last p c, rfl⟩
  | more c a => exact ⟨.more p c a, rfl⟩

theorem AfterExpression.block {u : List Lexeme} (h : AfterExpression u) (p : Phrase) :
    ∃ b : Block, b.yield = p.yield ++ u := by
  cases h with
  | last => exact ⟨.list (.last p), (List.append_nil _).symm⟩
  | more c b =>
    cases b with
    | empty => exact ⟨.list (.ended p c), rfl⟩
    | list ps => exact ⟨.list (.more p c ps), rfl⟩

theorem argList_eq (ls : List Lexeme) : result (argList late ls) =
    (result (expr late ls)).bind fun p => afterArgument late p.1 p.2 := by
  rw [result_argList]
  congr 1
  funext ⟨x, rest⟩
  cases rest <;> rfl

theorem exprs_eq {stop : Token} (h : ¬ (l.token = stop ∨ l.token = .eof)) (ls : List Lexeme) :
    result (exprs late stop (l :: ls)) =
      (result (expr late (l :: ls))).bind fun p => afterExpression late stop p.1 p.2 := by
  rw [result_exprs h]
  congr 1
  funext ⟨x, rest⟩
  cases rest <;> rfl

theorem function_eq (pos : Position) (ls : List Lexeme) : result (function late pos ls) =
    (result (params late ls)).bind fun p => bracedOf late pos p.1 p.2 := by
  rw [result_function]
  rfl

mutual

theorem expr_predicts (ls : List Lexeme) :
    Predicts (fun u => ∃ p : Phrase, p.yield = u) (fun r => result (expr late r)) ls := by
  match ls with
  | [] => exact .nil
  | l :: ls =>
    cases hl : l.token
    case name =>
      refine .consume (M := fun u => ∃ p : Phrase, p.yield = l :: u) (by simp [hl]) ?_ fun u hu => hu
      -- which form begins with the name shows in the next lexeme
      match ls with
      | [] => exact .nil
      | m :: ls =>
        by_cases ha : m.token = .assign
        · refine .consume (by simp [ha]) (M := fun u => ∃ p : Phrase, p.yield = u) ?_ ?_
          · simpa only [result_expr_assign hl ha] using
              (expr_predicts ls).map (Expr.assign l.pos (ident l))
          · rintro _ ⟨p, rfl⟩
            exact ⟨.assign ⟨l, hl⟩ ⟨m, ha⟩ p, rfl⟩
        · by_cases hp : m.token = .openParen
          · refine .consume (by simp [hp]) (M := fun u => ∃ a : Args, a.yield = u) ?_ ?_
            · simpa only [result_expr_call hl hp] using
                (args_predicts ls).map (Expr.call l.pos (ident l))
            · rintro _ ⟨a, rfl⟩
              exact ⟨.call ⟨l, hl⟩ ⟨m, hp⟩ a, rfl⟩
          · exact .congr (fun r => result_expr_name hl ha hp r)
              (infixTail_predicts (.name ⟨l, hl⟩) (m :: ls))
    case int =>
      refine .consume (by simp [hl]) (M := fun u => ∃ p : Phrase, p.yield = l :: u) ?_ fun u hu => hu
      simp only [result_expr_int hl, intValue_eq]
      exact infixTail_predicts (.int ⟨l, hl⟩) ls
    case string =>
      refine .consume (by simp [hl]) (M := fun u => ∃ p : Phrase, p.yield = l :: u) ?_ fun u hu => hu
      simp only [result_expr_string hl]
      exact infixTail_predicts (.string ⟨l, hl⟩) ls
    case openParen =>
      refine .consume (by simp [hl]) (M := fun u => ∃ p : Phrase, p.yield = l :: u) ?_ fun u hu => hu
      simp only [result_expr_function hl]
      exact function_predicts hl ls
    case float =>
      refine .refuse (e := ⟨l.pos, .floatLiteral⟩) (fun r => ?_) ⟨rfl, .inr hl⟩
        ⟨_, samplePhrase, rfl⟩ ls
      rw [expr.eq_def]
      simp only [hl]
      rfl
    all_goals
      refine .unexpected (w := .expression) (fun r => ?_) ⟨_, samplePhrase, rfl⟩ ls
      rw [expr.eq_def]
      simp only [hl]
      rfl
termination_by (ls.length, 0)

theorem infixTail_predicts (a : Atom) (ls : List Lexeme) :
    Predicts (fun u => ∃ p : Phrase, p.yield = a.lexeme :: u)
      (fun r => result (infixTail late a.tree r)) ls := by
  match ls with
  | [] => exact .nil
  | l :: ls =>
    by_cases hl : l.token = .name
    · refine .consume (by simp [hl]) (M := fun u => ∃ p : Phrase, p.yield = u) ?_ ?_
      · simpa only [result_infixTail, if_pos hl] using
          (expr_predicts ls).map fun y => Expr.call a.tree.pos (ident l) [a.tree, y]
      · rintro _ ⟨p, rfl⟩
        exact ⟨.operation a ⟨l, hl⟩ p, rfl⟩
    · refine .stop (x := a.tree) (fun r => ?_) ⟨.atom a, rfl⟩ ls
      rw [result_infixTail, if_neg hl]
termination_by (ls.length, 1)

theorem args_predicts (ls : List Lexeme) :
    Predicts (fun u => ∃ a : Args, a.yield = u) (fun r => result (args late r)) ls := by
  match ls with
  | [] => exact .nil
  | l :: ls =>
    by_cases hl : l.token = .closeParen
    · refine .last (x := []) (by simp [hl]) (fun r => ?_) ⟨.empty ⟨l, hl⟩, rfl⟩ ls
      rw [result_args, if_pos hl]
    · refine .congr (Q := fun r => result (argList late r)) (fun r => ?_)
        ((argList_predicts (l :: ls)).imp ?_)
      · rw [result_args, if_neg hl]
      · rintro _ ⟨a, rfl⟩
        exact ⟨.list a, rfl⟩
termination_by (ls.length, 2)

theorem argList_predicts (ls : List Lexeme) :
    Predicts (fun u => ∃ a : ArgList, a.yield = u) (fun r => result (argList late r)) ls := by
  have hafter : ∀ x rest, result (expr late ls) = .ok (x, rest) →
      Predicts AfterArgument (afterArgument late x) rest := by
    intro x rest hx
    match rest with
    | [] => exact .nil
    | l :: rest =>
      have hlen : rest.length < ls.length := Nat.lt_of_succ_lt (result_lt hx)
      by_cases hm : l.token = .comma
      · refine .consume (by simp [hm]) (M := fun u => ∃ a : ArgList, a.yield = u) ?_ ?_
        · simpa only [afterArgument, if_pos hm] using (argList_predicts rest).map (x :: ·)
        · rintro _ ⟨a, rfl⟩
          exact .more ⟨l, hm⟩ a
      · by_cases hc : l.token = .closeParen
        · refine .last (x := [x]) (by simp [hc]) (fun r => ?_) (.close ⟨l, hc⟩) rest
          simp only [afterArgument, if_neg hm, if_pos hc]
        · refine .unexpected (w := .token .closeParen) (fun r => ?_) ⟨_, .close (sample _)⟩ rest
          simp only [afterArgument, if_neg hm, if_neg hc]
  simp only [argList_eq]
  refine ((expr_predicts ls).bind hafter ⟨_, .close (sample _)⟩).imp ?_
  rintro _ ⟨_, v, ⟨p, rfl⟩, hv, rfl⟩
  exact hv.argList p
termination_by (ls.length, 1)

theorem function_predicts {l : Lexeme} (hl : l.token = .openParen) (ls : List Lexeme) :
    Predicts (fun u => ∃ p : Phrase, p.yield = l :: u)
      (fun r => result (function late l.pos r)) ls := by
  have hbody : ∀ ps r, r.length < ls.length → Predicts (fun u => ∃ (b : Block)
      (close : Terminal .closeBrace), b.yield ++ [close.val] = u) (bodyOf late l.pos ps) r := by
    intro ps r hr
    have hclose : ∀ b r₁, result (exprs late .closeBrace r) = .ok (b, r₁) →
        Predicts (Single .closeBrace) (fun r => (result (token late .closeBrace r)).map
          (Prod.map (fun _ => Expr.function l.pos ps b) id)) r₁ :=
      fun b r₁ _ => (token_predicts (by simp) r₁).map fun _ => Expr.function l.pos ps b
    refine ((exprs_predicts .closeBrace r).bind hclose ⟨_, sample _, rfl⟩).imp ?_
    rintro _ ⟨_, _, ⟨b, rfl⟩, ⟨close, rfl⟩, rfl⟩
    exact ⟨b, close, rfl⟩
  have hopen : ∀ ps r, result (params late ls) = .ok (ps, r) → Predicts (fun u => ∃ (brace :
      Terminal .openBrace) (b : Block) (close : Terminal .closeBrace),
      brace.val :: (b.yield ++ [close.val]) = u) (bracedOf late l.pos ps) r := by
    intro ps r hps
    have hinner : ∀ x r₁, result (token late .openBrace r) = .ok (x, r₁) →
        Predicts (fun u => ∃ (b : Block) (close : Terminal .closeBrace),
          b.yield ++ [close.val] = u) (bodyOf late l.pos ps) r₁ := by
      intro x r₁ hx
      exact hbody ps r₁ ((result_lt hx).trans (result_lt hps))
    refine ((token_predicts (by simp) r).bind hinner ⟨_, .empty, sample _, rfl⟩).imp ?_
    rintro _ ⟨_, _, ⟨brace, rfl⟩, ⟨b, close, rfl⟩, rfl⟩
    exact ⟨brace, b, close, rfl⟩
  simp only [function_eq]
  refine ((params_predicts ls).bind hopen ⟨_, sample _, .empty, sample _, rfl⟩).imp ?_
  rintro _ ⟨_, _, ⟨ps, rfl⟩, ⟨brace, body, close, rfl⟩, rfl⟩
  exact ⟨.function ⟨l, hl⟩ ps brace body close, rfl⟩
termination_by (ls.length, 0)

theorem exprs_predicts (stop : Token) (ls : List Lexeme) :
    Predicts (fun u => ∃ b : Block, b.yield = u) (fun r => result (exprs late stop r)) ls := by
  match ls with
  | [] => exact .nil
  | l :: ls =>
    by_cases hs : l.token = stop ∨ l.token = .eof
    · exact .stop (x := []) (fun r => result_exprs_of_stop hs r) ⟨.empty, rfl⟩ ls
    · have hafter : ∀ x rest, result (expr late (l :: ls)) = .ok (x, rest) →
          Predicts AfterExpression (afterExpression late stop x) rest := by
        intro x rest hx
        match rest with
        | [] => exact .nil
        | m :: rest =>
          have hlen : rest.length < (l :: ls).length := Nat.lt_of_succ_lt (result_lt hx)
          by_cases hm : m.token = .semicolon
          · refine .consume (by simp [hm]) (M := fun u => ∃ b : Block, b.yield = u) ?_ ?_
            · simpa only [afterExpression, if_pos hm] using
                (exprs_predicts stop rest).map (x :: ·)
            · rintro _ ⟨b, rfl⟩
              exact .more ⟨m, hm⟩ b
          · refine .stop (x := [x]) (fun r => ?_) .last rest
            simp only [afterExpression, if_neg hm]
      -- only in front of `l` is it known that there is an expression to be read
      refine .congr (Q := fun r => (result (expr late r)).bind fun p =>
        afterExpression late stop p.1 p.2) (exprs_eq hs) ?_
      refine ((expr_predicts (l :: ls)).bind hafter ⟨_, .last⟩).imp ?_
      rintro _ ⟨_, v, ⟨p, rfl⟩, hv, rfl⟩
      exact hv.block p
termination_by (ls.length, 1)

end

/-! ## Programs -/

/-- If parsing fails on every text that starts in this way, no program does. -/
theorem not_viable (late : SyntaxError) {before : List Lexeme}
    (h : ∀ after, ∃ e, program late (before ++ after) = .error e) : ¬ Viable before := by
  rintro ⟨d, after, hd⟩
  obtain ⟨e, he⟩ := h after
  rw [hd, program_yield] at he
  cases he

/-- A failure to parse a text blames the first lexeme with which it is no start of a program. -/
theorem program_error {e : SyntaxError} (h : Ended ls) (he : program late ls = .error e) :
    ∃ before l after, ls = before ++ l :: after ∧ Blames e l ∧ Viable before ∧
      ¬ Viable (before ++ [l]) := by
  have hexprs : Predicts _ (fun r => result (exprs late .eof r)) ls := exprs_predicts .eof ls
  have hp := hexprs h
  dsimp only at hp
  rw [program_eq] at he
  cases hr : result (exprs late .eof ls) with
  | error e' =>
    rw [hr] at hp he
    obtain rfl : e' = e := Except.error.inj he
    obtain ⟨before, l, after, hls, hblames, ⟨more, b, hb⟩, hlocal⟩ := hp
    refine ⟨before, l, after, hls, hblames, ⟨⟨b, sample .eof⟩, ?_⟩, ?_⟩
    · rw [Program.yield, hb, List.append_assoc]
      exact List.prefix_append _ _
    · refine not_viable late fun after' => ⟨e', ?_⟩
      rw [program_eq, List.append_assoc, List.singleton_append, hlocal]
      rfl
  | ok p =>
    obtain ⟨es, rest⟩ := p
    rw [hr] at hp he
    obtain ⟨used, hls, ⟨b, rfl⟩, hrest, hlocal⟩ := hp
    cases rest with
    | nil => exact absurd rfl hrest.ne_nil
    | cons l rest =>
      simp only [Except.bind] at he
      split at he
      · cases he
      · next hl =>
        cases he
        -- the expressions are complete, but neither a separator nor the end follows
        refine ⟨b.yield, l, rest, hls, ⟨rfl, .inl ⟨_, rfl⟩⟩, ⟨⟨b, sample .eof⟩, ?_⟩, ?_⟩
        · exact List.prefix_append _ _
        · refine not_viable late fun after' => ⟨⟨l.pos, .unexpected .separator l⟩, ?_⟩
          rw [program_eq, List.append_assoc, List.singleton_append, hlocal (l :: after') rfl]
          simp only [Except.bind, if_neg hl]
          rfl

end Parse

namespace Source

open Grammar Parse

theorem ended_takeAll (stop : Position) (cs : List Located) :
    Ended ((takeAll stop cs).map Prod.snd) := by
  fun_induction takeAll stop cs with
  | case1 cs t ht => exact ⟨t.lexeme, by simp, ht⟩
  | case2 cs t ht ih =>
    obtain ⟨l, hl, heof⟩ := ih
    exact ⟨l, List.mem_cons_of_mem _ hl, heof⟩

/-- Syntax errors are reported at the earliest possible lexeme. If a source without lexical errors
cannot be parsed, the error stands at the first lexeme with which the text is no longer the start of
any program; and unless that is a literal with a decimal point, the message ends by naming it. -/
theorem parse_error_earliest (s : Source) (h : s.lexicalErrors = []) (e : SyntaxError)
    (he : s.parse = .error e) :
    ∃ before l after, s.tokens = before ++ l :: after ∧ e.pos = l.pos ∧ Viable before ∧
      ¬ Viable (before ++ [l]) ∧ (l.token ≠ .float → Names e.fault.message l) := by
  obtain ⟨late, hp⟩ := parse_eq_program h
  rw [hp] at he
  obtain ⟨before, l, after, hls, ⟨hpos, hfault⟩, hviable⟩ :=
    program_error (ended_takeAll _ _) he
  refine ⟨before, l, after, hls, hpos, hviable.1, hviable.2, fun hl => ?_⟩
  rcases hfault with ⟨want, hwant⟩ | hfloat
  · have hmem : l ∈ (takeAll s.stop s.located).map Prod.snd := by
      rw [hls]
      exact List.mem_append_right _ List.mem_cons_self
    rw [hwant]
    exact names_unexpected want (genuine_of_mem_tokens h hmem)
  · exact absurd hfloat hl

/-- A text in which the right operand of a sum is missing, in the body of a function. -/
def unfinished : Source := .ofBytes "f" (Text.Utf8.ofString "f = (x) { x + }; 2")

theorem unfinished_earliest :
    let e : SyntaxError := ⟨⟨"f", 1, 15⟩, .unexpected .expression ⟨.closeBrace, "\x7d", ⟨"f", 1, 15⟩⟩⟩
    unfinished.lexicalErrors = [] ∧ unfinished.parse = .error e ∧
      ∃ before l after, unfinished.tokens = before ++ l :: after ∧ e.pos = l.pos ∧ Viable before ∧
        ¬ Viable (before ++ [l]) ∧ (l.token ≠ .float → Names e.fault.message l) := by
  intro e
  have h : unfinished.lexicalErrors = [] := by decide +kernel
  have htokens : unfinished.tokens =
      [⟨.name, "f", ⟨"f", 1, 1⟩⟩, ⟨.assign, "=", ⟨"f", 1, 3⟩⟩, ⟨.openParen, "(", ⟨"f", 1, 5⟩⟩,
        ⟨.name, "x", ⟨"f", 1, 6⟩⟩, ⟨.closeParen, ")", ⟨"f", 1, 7⟩⟩,
        ⟨.openBrace, "\x7b", ⟨"f", 1, 9⟩⟩, ⟨.name, "x", ⟨"f", 1, 11⟩⟩, ⟨.name, "+", ⟨"f", 1, 13⟩⟩,
        ⟨.closeBrace, "\x7d", ⟨"f", 1, 15⟩⟩, ⟨.semicolon, ";", ⟨"f", 1, 16⟩⟩,
        ⟨.int, "2", ⟨"f", 1, 18⟩⟩, ⟨.eof, "", ⟨"f", 1, 19⟩⟩] := by
    decide +kernel
  have he : unfinished.parse = .error e := by
    obtain ⟨late, hp⟩ := parse_eq_program h
    rw [hp, htokens]
    cbv
  exact ⟨h, he, parse_error_earliest unfinished h e he⟩

end Source

end Wordlang
