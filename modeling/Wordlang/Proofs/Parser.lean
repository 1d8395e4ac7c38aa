import Wordlang.Expr.Parser
import Wordlang.Proofs.Grammar.Parse
import Wordlang.Proofs.Lexical.Scan

/-!
# The parser at work reports once

Behind an error the parser comes to its end without another report, wherever the error was noticed;
and until then it sees the lexemes that the grammar is read from.
-/

namespace Wordlang

/-- The lexemes `ls` can be taken from the text `cs`, and if they do not reach its end, `late` is
what is reported with the lexeme behind them. -/
def Supplies (late : SyntaxError) (stop : Position) (cs : List Located) (ls : List Lexeme) : Prop :=
  (cleanLexemes (takeAll stop cs)).1 = ls ∧
    ∀ e ∈ (cleanLexemes (takeAll stop cs)).2, e.toSyntaxError = late

/-- Taking a lexeme reports the error that is awaited, or gives the first of the lexemes. -/
theorem Supplies.take {late : SyntaxError} {stop : Position} {cs : List Located} {ls : List Lexeme}
    (h : Supplies late stop cs ls) :
    (∃ e es, (take stop cs).errors = e :: es ∧ e.toSyntaxError = late ∧ ls = []) ∨
      (take stop cs).errors = [] ∧ ∃ rest, ls = (take stop cs).lexeme :: rest ∧
        ((take stop cs).lexeme.token ≠ .eof → Supplies late stop (take stop cs).rest rest) := by
  obtain ⟨rfl, hlate⟩ := h
  rw [takeAll] at hlate ⊢
  cases herrors : (Wordlang.take stop cs).errors with
  | cons e es =>
    refine .inl ⟨e, es, rfl, ?_⟩
    by_cases ht : (Wordlang.take stop cs).lexeme.token = .eof
    · simpa [ht, herrors, cleanLexemes] using hlate
    · simpa [ht, herrors, cleanLexemes] using hlate
  | nil =>
    refine .inr ⟨rfl, ?_⟩
    by_cases ht : (Wordlang.take stop cs).lexeme.token = .eof
    · exact ⟨[], by simp [ht, cleanLexemes], fun h => absurd ht h⟩
    · rw [dif_neg ht, herrors] at hlate
      rw [dif_neg ht]
      exact ⟨_, rfl, fun _ => ⟨rfl, hlate⟩⟩

namespace Parser

open Parse (result ident intValue)

/-! ## One equation for each form -/

variable {p : Parser}

/-- What was read and the parser behind it, without the bound on what lies ahead. -/
def Step.out {α : Type} {n : Nat} (r : Step α n) : α × Parser := (r.value, r.parser)

theorem out_names (p : Parser) : (names p).out =
    if p.first.isSome then ([], p)
    else if (p.expect .name).current.token = .comma then
      (names ((p.expect .name).expect .comma)).out.map (Expr.name (ident p.current) :: ·) id
    else ([.name (ident p.current)], p.expect .name) := by
  rw [names]
  split
  · rfl
  · dsimp only
    split <;> rfl

theorem out_params (p : Parser) : (params p).out =
    if p.current.token = .closeParen then ([], p.next)
    else (names p).out.map id (·.expect .closeParen) := by
  rw [params]
  split <;> rfl

theorem out_expr_assign (h : p.current.token = .name) (ht : p.peek.1 = .assign) : (expr p).out =
    (expr ((p.peek.2.expect .name).expect .assign)).out.map
      (Expr.assign p.current.pos (ident p.peek.2.current)) id := by
  rw [expr]
  split
  · simp only [ht]
    rfl
  · simp_all
  · simp_all

theorem out_expr_call (h : p.current.token = .name) (ht : p.peek.1 = .openParen) : (expr p).out =
    (args ((p.peek.2.expect .name).expect .openParen)).out.map
      (Expr.call p.current.pos (ident p.peek.2.current)) id := by
  rw [expr]
  split
  · simp only [ht]
    rfl
  · simp_all
  · simp_all

theorem out_expr_name (h : p.current.token = .name) (ha : p.peek.1 ≠ .assign)
    (hp : p.peek.1 ≠ .openParen) : (expr p).out =
      (tail (atom p.peek.2).1 (atom p.peek.2).2).out := by
  rw [expr]
  split
  · split
    · contradiction
    · contradiction
    · rfl
  · simp_all
  · simp_all

theorem out_expr_function (h : p.current.token = .openParen) : (expr p).out = (function p h).out := by
  rw [expr]
  split
  · rename_i hname
    rw [h] at hname
    cases hname
  · rfl
  · contradiction

theorem out_expr_other (hn : p.current.token ≠ .name) (hp : p.current.token ≠ .openParen) :
    (expr p).out = (tail (atom p).1 (atom p).2).out := by
  rw [expr]
  split
  · contradiction
  · contradiction
  · rfl

theorem out_tail (x : Expr) (p : Parser) : (tail x p).out =
    if p.current.token = .name then
      (expr (p.expect .name)).out.map (fun y => .call x.pos (ident p.current) [x, y]) id
    else (x, p) := by
  rw [tail]
  split <;> rfl

theorem out_args (p : Parser) : (args p).out =
    if p.current.token = .closeParen then ([], p.next)
    else (argList p).out.map id (·.expect .closeParen) := by
  rw [args]
  split <;> rfl

theorem out_argList (p : Parser) : (argList p).out =
    if p.first.isSome then ([], p)
    else if (expr p).parser.current.token = .comma then
      (argList ((expr p).parser.expect .comma)).out.map ((expr p).value :: ·) id
    else ([(expr p).value], (expr p).parser) := by
  rw [argList]
  split
  · rfl
  · dsimp only
    split <;> rfl

theorem out_function (h : p.current.token = .openParen) : (function p h).out =
    (.function p.current.pos (params (p.expect .openParen)).value
        (exprs .closeBrace ((params (p.expect .openParen)).parser.expect .openBrace)).value,
      (exprs .closeBrace ((params (p.expect .openParen)).parser.expect .openBrace)).parser.expect
        .closeBrace) := by
  rw [function]
  rfl

theorem out_exprs (close : Token) (p : Parser) : (exprs close p).out =
    if p.first.isSome ∨ p.current.token = close ∨ p.current.token = .eof then ([], p)
    else if (expr p).parser.current.token = .semicolon then
      (exprs close ((expr p).parser.expect .semicolon)).out.map ((expr p).value :: ·) id
    else ([(expr p).value], (expr p).parser) := by
  rw [exprs]
  split
  · rfl
  · dsimp only
    split <;> rfl

/-! ## Behind an error -/

variable {e : SyntaxError}

/-- There has been the error `e`, and the error handler has been called with it and nothing else. -/
structure Failed (e : SyntaxError) (p : Parser) : Prop where
  first : p.first = some e
  reports : p.reports = [e]

/-- Moreover, no lexeme is left. -/
structure Spent (e : SyntaxError) (p : Parser) : Prop extends Failed e p where
  current : p.current.token = .eof

theorem Failed.report (h : Failed e p) (e' : SyntaxError) : p.report e' = p := by
  rw [Parser.report, h.first]

theorem Failed.reportAll (h : Failed e p) (es : List SyntaxError) : es.foldl Parser.report p = p := by
  induction es with
  | nil => rfl
  | cons e' es ih => rw [List.foldl_cons, h.report, ih]

theorem Failed.refuse (h : Failed e p) (want : Expected) : p.refuse want = p := h.report _

theorem Failed.next (h : Failed e p) : Spent e p.next := by
  rw [Parser.next, h.first]
  exact ⟨⟨h.first, h.reports⟩, rfl⟩

theorem Failed.peek (h : Failed e p) : Failed e p.peek.2 ∧ p.peek.2.current = p.current := by
  unfold Parser.peek
  cases p.peeked with
  | some l => exact ⟨h, rfl⟩
  | none =>
    have htext : Failed e { p with text := (take p.stop p.text).rest } := ⟨h.first, h.reports⟩
    dsimp only [Parser.scan]
    -- the scanner may still find errors, but they are not reported
    rw [htext.reportAll]
    exact ⟨⟨h.first, h.reports⟩, rfl⟩

theorem Spent.expect (h : Spent e p) (t : Token) : Spent e (p.expect t) := by
  rw [Parser.expect, h.refuse]
  split
  · exact h.next
  · exact h

/-- Taking the token at hand leaves nothing. -/
theorem Failed.expect (h : Failed e p) {t : Token} (ht : p.current.token = t) :
    Spent e (p.expect t) := by
  rw [Parser.expect, if_pos ht]
  exact h.next

theorem Failed.expect' (h : Failed e p) (t : Token) : Failed e (p.expect t) := by
  rw [Parser.expect, h.refuse]
  split
  · exact h.next.toFailed
  · exact h

/-! No loop goes on. -/

theorem names_failed (h : Failed e p) : (names p).out = ([], p) := by
  rw [out_names, if_pos]
  simp [h.first]

theorem argList_failed (h : Failed e p) : (argList p).out = ([], p) := by
  rw [out_argList, if_pos]
  simp [h.first]

theorem exprs_failed (h : Failed e p) (close : Token) : (exprs close p).out = ([], p) := by
  rw [out_exprs, if_pos]
  simp [h.first]

/-! An item read with an error is the last one of its list. -/

theorem names_more_failed (h : Failed e (p.expect .name)) (hp : ¬ p.first.isSome = true) :
    Failed e ((names p).out.map id (·.expect .closeParen)).2 := by
  rw [out_names, if_neg hp]
  split
  · rw [names_failed (h.expect' _)]
    exact (h.expect' _).expect' _
  · exact h.expect' _

theorem argList_more_failed (h : Failed e (expr p).parser) (hp : ¬ p.first.isSome = true) :
    Failed e ((argList p).out.map id (·.expect .closeParen)).2 := by
  rw [out_argList, if_neg hp]
  split
  · rw [argList_failed (h.expect' _)]
    exact (h.expect' _).expect' _
  · exact h.expect' _

theorem exprs_more_failed {close : Token} (h : Failed e (expr p).parser)
    (hp : ¬ (p.first.isSome = true ∨ p.current.token = close ∨ p.current.token = .eof)) :
    Failed e (exprs close p).out.2 := by
  rw [out_exprs, if_neg hp]
  split
  · rw [exprs_failed (h.expect' _)]
    exact h.expect' _
  · exact h

theorem atom_failed (h : Failed e p) : Failed e (atom p).2 := by
  unfold atom
  split
  · exact h.expect' .name
  · exact h.next.toFailed
  · exact h.next.toFailed
  · rw [h.report]
    exact h
  · rw [h.refuse]
    exact h

theorem atom_spent (h : Spent e p) : Spent e (atom p).2 := by
  rw [atom, h.current, h.refuse]
  exact h

theorem expr_spent (h : Spent e p) : Failed e (expr p).out.2 := by
  have hatom := atom_spent h
  rw [out_expr_other (by simp [h.current]) (by simp [h.current]), out_tail, if_neg]
  · exact hatom.toFailed
  · simp [hatom.current]

theorem tail_failed (h : Failed e p) (x : Expr) : Failed e (tail x p).out.2 := by
  rw [out_tail]
  split
  · rename_i hname
    exact expr_spent (h.expect hname)
  · exact h

theorem args_failed (h : Failed e p) : Failed e (args p).out.2 := by
  rw [out_args]
  split
  · exact h.next.toFailed
  · rw [argList_failed h]
    exact h.expect' _

theorem params_failed (h : Failed e p) : Failed e (params p).out.2 := by
  rw [out_params]
  split
  · exact h.next.toFailed
  · rw [names_failed h]
    exact h.expect' _

/-- The body of a function is not read. -/
theorem body_failed (h : Failed e p) :
    Failed e ((exprs .closeBrace p).parser.expect .closeBrace) := by
  have hparser : (exprs .closeBrace p).parser = p := congrArg Prod.snd (exprs_failed h .closeBrace)
  rw [hparser]
  exact h.expect' _

theorem function_failed (h : Failed e p) (hopen : p.current.token = .openParen) :
    Failed e (function p hopen).out.2 := by
  have hparams : Failed e ((params (p.expect .openParen)).parser.expect .openBrace) :=
    Failed.expect' (params_failed (h.expect' _)) _
  rw [out_function]
  exact body_failed hparams

/-- Behind a name nothing is left, whether it is still there or not. -/
theorem named_failed (h : p.current.token = .name) (hpeek : Failed e p.peek.2)
    (hcurrent : p.peek.2.current.token = .name ∨ p.peek.2.current.token = .eof) :
    Failed e (expr p).out.2 := by
  have hname : Spent e (p.peek.2.expect .name) := by
    rcases hcurrent with hname | heof
    · exact hpeek.expect hname
    · exact Spent.expect ⟨hpeek, heof⟩ _
  by_cases hassign : p.peek.1 = .assign
  · rw [out_expr_assign h hassign]
    exact expr_spent (hname.expect _)
  by_cases hopen : p.peek.1 = .openParen
  · rw [out_expr_call h hopen]
    exact args_failed (hname.expect _).toFailed
  · rw [out_expr_name h hassign hopen]
    exact tail_failed (atom_failed hpeek) _

theorem expr_failed (h : Failed e p) : Failed e (expr p).out.2 := by
  by_cases hname : p.current.token = .name
  · obtain ⟨hpeek, hcurrent⟩ := h.peek
    exact named_failed hname hpeek (.inl (hcurrent ▸ hname))
  by_cases hopen : p.current.token = .openParen
  · rw [out_expr_function hopen]
    exact function_failed h hopen
  · rw [out_expr_other hname hopen]
    exact tail_failed (atom_failed h) _

/-! ## Before the first error -/

variable {late : SyntaxError} {l : Lexeme} {ls : List Lexeme}

/-- The lexemes behind the current one. -/
def Awaits (late : SyntaxError) (ls : List Lexeme) (p : Parser) : Prop :=
  match p.peeked with
  | none => Supplies late p.stop p.text ls
  | some m => m.token ≠ .error ∧ ∃ rest, ls = m :: rest ∧
      (m.token ≠ .eof → Supplies late p.stop p.text rest)

/-- The parser has the lexemes `ls` before it, and behind them the error `late` if they do not reach
the end of the input. Where there are none, this error has been reported. -/
def Sees (late : SyntaxError) : List Lexeme → Parser → Prop
  | [], p => Failed late p
  | l :: ls, p => p.first = none ∧ p.reports = [] ∧ p.current = l ∧
      (l.token ≠ .eof → Awaits late ls p)

theorem Sees.current (h : Sees late (l :: ls) p) : p.current = l := h.2.2.1

theorem Sees.report (h : Sees late (l :: ls) p) (e : SyntaxError) : Spent e (p.report e) := by
  obtain ⟨hfirst, hreports, -⟩ := h
  rw [Parser.report, hfirst]
  exact ⟨⟨rfl, by rw [hreports]; rfl⟩, rfl⟩

theorem Sees.refuse (h : Sees late (l :: ls) p) (want : Expected) :
    Spent ⟨l.pos, .unexpected want l⟩ (p.refuse want) := by
  rw [Parser.refuse, h.current]
  exact h.report _

/-- What happens to a parser without an error that takes a lexeme. -/
theorem scan_cases (hfirst : p.first = none) (hreports : p.reports = [])
    (h : Supplies late p.stop p.text ls) :
    ls = [] ∧ Spent late p.scan.2 ∨
      p.scan.1.token ≠ .error ∧ p.scan.2 = { p with text := p.scan.2.text } ∧
        ∃ rest, ls = p.scan.1 :: rest ∧
          (p.scan.1.token ≠ .eof → Supplies late p.stop p.scan.2.text rest) := by
  rcases h.take with ⟨e, es, herrors, rfl, rfl⟩ | ⟨herrors, rest, rfl, hrest⟩
  · refine .inl ⟨rfl, ?_⟩
    have hspent : Spent e.toSyntaxError
        ({ p with text := (take p.stop p.text).rest }.report e.toSyntaxError) := by
      rw [Parser.report]
      simp only [hfirst]
      exact ⟨⟨rfl, by rw [hreports]; rfl⟩, rfl⟩
    simp only [Parser.scan, herrors, List.map_cons, List.foldl_cons]
    -- of several errors in one lexeme the first one is reported
    rw [hspent.toFailed.reportAll]
    exact hspent
  · refine .inr ?_
    simp only [Parser.scan, herrors, List.map_nil, List.foldl_nil]
    exact ⟨fun h => Lexical.take_error h herrors, trivial, rest, rfl, hrest⟩

theorem Awaits.next (h : Awaits late ls p) (hfirst : p.first = none) (hreports : p.reports = []) :
    Sees late ls p.next := by
  unfold Awaits at h
  rw [Parser.next.eq_def]
  split
  · simp_all
  · rename_i m _ hpeeked
    rw [hpeeked] at h
    obtain ⟨hm, rest, rfl, hrest⟩ := h
    rw [look, if_neg hm]
    exact ⟨hfirst, hreports, rfl, hrest⟩
  · rename_i _ hpeeked
    rw [hpeeked] at h
    rcases scan_cases hfirst hreports h with ⟨rfl, hspent⟩ | ⟨hm, hscan, rest, rfl, hrest⟩
    · unfold look
      split
      · exact ⟨hspent.first, hspent.reports⟩
      · exact ⟨hspent.first, hspent.reports⟩
    · rw [look, if_neg hm, hscan]
      refine ⟨hfirst, hreports, rfl, fun ht => ?_⟩
      simp only [Awaits, hpeeked]
      exact hrest ht

theorem Sees.next (h : Sees late (l :: ls) p) (hl : l.token ≠ .eof) : Sees late ls p.next :=
  (h.2.2.2 hl).next h.1 h.2.1

theorem Sees.peek_nil (h : Sees late [l] p) (hl : l.token ≠ .eof) : Spent late p.peek.2 := by
  obtain ⟨hfirst, hreports, -, hls⟩ := h
  have hls := hls hl
  unfold Awaits at hls
  unfold Parser.peek
  cases hpeeked : p.peeked with
  | some m =>
    rw [hpeeked] at hls
    obtain ⟨-, rest, hrest, -⟩ := hls
    cases hrest
  | none =>
    rw [hpeeked] at hls
    rcases scan_cases hfirst hreports hls with ⟨-, hspent⟩ | ⟨-, -, rest, hrest, -⟩
    · exact ⟨⟨hspent.first, hspent.reports⟩, hspent.current⟩
    · cases hrest

theorem Sees.peek_cons {m : Lexeme} (h : Sees late (l :: m :: ls) p) (hl : l.token ≠ .eof) :
    p.peek.1 = m.token ∧ Sees late (l :: m :: ls) p.peek.2 := by
  obtain ⟨hfirst, hreports, hcurrent, hls⟩ := h
  have hls := hls hl
  unfold Awaits at hls
  unfold Parser.peek
  cases hpeeked : p.peeked with
  | some m' =>
    rw [hpeeked] at hls
    obtain ⟨hm, rest, hrest, hsupplies⟩ := hls
    obtain ⟨rfl, rfl⟩ := List.cons.inj hrest
    refine ⟨rfl, hfirst, hreports, hcurrent, fun _ => ?_⟩
    simp only [Awaits, hpeeked]
    exact ⟨hm, _, rfl, hsupplies⟩
  | none =>
    rw [hpeeked] at hls
    rcases scan_cases hfirst hreports hls with ⟨hnil, -⟩ | ⟨hm, hscan, rest, hrest, hsupplies⟩
    · cases hnil
    · obtain ⟨rfl, rfl⟩ := List.cons.inj hrest
      dsimp only
      rw [hscan]
      exact ⟨rfl, hfirst, hreports, hcurrent, fun _ => ⟨hm, _, rfl, hsupplies⟩⟩

theorem Sees.taken {t : Token} (h : Sees late (l :: ls) p) (hl : l.token = t) (ht : t ≠ .eof) :
    Sees late ls (p.expect t) := by
  rw [Parser.expect, h.current, if_pos hl]
  exact h.next (hl ▸ ht)

theorem Sees.missed {t : Token} (h : Sees late (l :: ls) p) (hl : l.token ≠ t) :
    Spent ⟨l.pos, .unexpected (.token t) l⟩ (p.expect t) := by
  rw [Parser.expect, h.current, if_neg hl]
  exact h.refuse _

/-- The parser does what is to be read off the lexemes: it gives the result `r` and has the remaining
lexemes before it, or it has reported the error `r`. -/
def Mirrors {α : Type} (late : SyntaxError) (r : Except SyntaxError (α × List Lexeme))
    (o : α × Parser) : Prop :=
  match r with
  | .ok (x, rest) => o.1 = x ∧ Sees late rest o.2
  | .error e => Failed e o.2

theorem Mirrors.map {α β : Type} {r : Except SyntaxError (α × List Lexeme)} {o : α × Parser}
    (h : Mirrors late r o) (f : α → β) : Mirrors late (r.map (Prod.map f id)) (o.map f id) := by
  cases r with
  | error e => exact h
  | ok x => exact ⟨congrArg f h.1, h.2⟩

/-- A parser that does not fail has a lexeme before it, unless the lexemes end too early. -/
theorem Mirrors.cases {α : Type} {r : Except SyntaxError (α × List Lexeme)} {o : α × Parser}
    (h : Mirrors late r o) :
    (∃ e, r = .error e ∧ Failed e o.2) ∨ (∃ x, r = .ok (x, []) ∧ Failed late o.2) ∨
      ∃ x l rest, r = .ok (x, l :: rest) ∧ o.1 = x ∧ Sees late (l :: rest) o.2 := by
  cases r with
  | error e => exact .inl ⟨e, rfl, h⟩
  | ok y =>
    obtain ⟨x, rest⟩ := y
    obtain ⟨hvalue, hrest⟩ := h
    cases rest with
    | nil => exact .inr (.inl ⟨x, rfl, hrest⟩)
    | cons l rest => exact .inr (.inr ⟨x, l, rest, rfl, hvalue, hrest⟩)

theorem Sees.expect {t : Token} (h : Sees late ls p) (ht : t ≠ .eof) :
    Mirrors late (result (Parse.token late t ls)) ((), p.expect t) := by
  cases ls with
  | nil => exact Failed.expect' h t
  | cons l ls =>
    rw [Parse.result_token]
    by_cases hl : l.token = t
    · rw [if_pos hl]
      exact ⟨rfl, h.taken hl ht⟩
    · rw [if_neg hl]
      exact (h.missed hl).toFailed

theorem names_mirrors (ls : List Lexeme) {p : Parser} (h : Sees late ls p) :
    Mirrors late (result (Parse.names late ls)) ((names p).out.map id (·.expect .closeParen)) := by
  match ls with
  | [] =>
    rw [names_failed h]
    exact Failed.expect' h _
  | l :: ls =>
    have hfirst : ¬ p.first.isSome = true := by simp [h.1]
    by_cases hl : l.token = .name
    · have hname := h.taken hl (by simp)
      match ls with
      | [] =>
        have hlist := names_more_failed hname hfirst
        rw [Parse.names.eq_def]
        simp only [hl, if_true]
        exact hlist
      | m :: ls =>
        rw [Parse.result_names hl, out_names, if_neg hfirst, hname.current, h.current]
        by_cases hcomma : m.token = .comma
        · rw [if_pos hcomma, if_pos hcomma]
          exact (names_mirrors ls (hname.taken hcomma (by simp))).map _
        · rw [if_neg hcomma, if_neg hcomma]
          by_cases hclose : m.token = .closeParen
          · rw [if_pos hclose]
            exact ⟨rfl, hname.taken hclose (by simp)⟩
          · rw [if_neg hclose]
            exact (hname.missed hclose).toFailed
    · have hlist := names_more_failed (h.missed hl).toFailed hfirst
      rw [Parse.names.eq_def]
      simp only [hl, if_false]
      exact hlist
termination_by ls.length

theorem params_mirrors (ls : List Lexeme) (h : Sees late ls p) :
    Mirrors late (result (Parse.params late ls)) (params p).out := by
  match ls with
  | [] => exact params_failed h
  | l :: ls =>
    rw [out_params, h.current, Parse.result_params]
    by_cases hl : l.token = .closeParen
    · rw [if_pos hl, if_pos hl]
      exact ⟨rfl, h.next (by simp [hl])⟩
    · rw [if_neg hl, if_neg hl]
      exact names_mirrors _ h

/-- An atom is taken, or refused where there is none. -/
theorem operation_mirrors {ls : List Lexeme} (h : Sees late (l :: ls) p)
    (hn : l.token ≠ .name) (hp : l.token ≠ .openParen)
    (htail : ∀ x {q}, Sees late ls q →
      Mirrors late (result (Parse.infixTail late x ls)) (tail x q).out) :
    Mirrors late (result (Parse.expr late (l :: ls)))
      (tail (atom p).1 (atom p).2).out := by
  rw [atom, h.current]
  cases hl : l.token
  case name => exact absurd hl hn
  case openParen => exact absurd hl hp
  case int =>
    rw [Parse.result_expr_int hl]
    exact htail _ (h.next (by simp [hl]))
  case string =>
    rw [Parse.result_expr_string hl]
    exact htail _ (h.next (by simp [hl]))
  case float =>
    rw [Parse.expr.eq_def]
    simp only [hl]
    exact tail_failed (h.report _).toFailed _
  all_goals
    rw [Parse.expr.eq_def]
    simp only [hl]
    exact tail_failed (h.refuse _).toFailed _

mutual

theorem expr_mirrors (ls : List Lexeme) {p : Parser} (h : Sees late ls p) :
    Mirrors late (result (Parse.expr late ls)) (expr p).out := by
  match ls with
  | [] =>
    rw [Parse.expr.eq_def]
    exact expr_failed h
  | l :: ls =>
    by_cases hl : l.token = .name
    · have hname : p.current.token = .name := h.current.symm ▸ hl
      match ls with
      | [] =>
        -- the error is noticed while the parser looks behind the name
        have hspent := h.peek_nil (by simp [hl])
        rw [Parse.expr.eq_def]
        simp only [hl]
        exact named_failed hname hspent.toFailed (.inr hspent.current)
      | m :: ls =>
        obtain ⟨hm, hsees⟩ := h.peek_cons (by simp [hl])
        have hrest := hsees.taken hl (by simp)
        by_cases hassign : m.token = .assign
        · rw [out_expr_assign hname (hm ▸ hassign), Parse.result_expr_assign hl hassign, h.current,
            hsees.current]
          exact (expr_mirrors ls (hrest.taken hassign (by simp))).map _
        by_cases hopen : m.token = .openParen
        · rw [out_expr_call hname (hm ▸ hopen), Parse.result_expr_call hl hopen, h.current,
            hsees.current]
          exact (args_mirrors ls (hrest.taken hopen (by simp))).map _
        · rw [out_expr_name hname (hm ▸ hassign) (hm ▸ hopen),
            Parse.result_expr_name hl hassign hopen, atom, hsees.current, hl]
          exact tail_mirrors (.name (ident l)) (m :: ls) hrest
    · have hname : p.current.token ≠ .name := h.current.symm ▸ hl
      by_cases hopen : l.token = .openParen
      · rw [out_expr_function (h.current.symm ▸ hopen), Parse.result_expr_function hopen]
        exact function_mirrors hopen ls h
      · rw [out_expr_other hname (h.current.symm ▸ hopen)]
        exact operation_mirrors h hl hopen fun x q hq => tail_mirrors x ls hq
termination_by (ls.length, 0)

theorem tail_mirrors (x : Expr) (ls : List Lexeme) {p : Parser} (h : Sees late ls p) :
    Mirrors late (result (Parse.infixTail late x ls)) (tail x p).out := by
  match ls with
  | [] =>
    rw [Parse.infixTail.eq_def]
    exact tail_failed h x
  | l :: ls =>
    rw [out_tail, h.current, Parse.result_infixTail]
    by_cases hl : l.token = .name
    · rw [if_pos hl, if_pos hl]
      exact (expr_mirrors ls (h.taken hl (by simp))).map _
    · rw [if_neg hl, if_neg hl]
      exact ⟨rfl, h⟩
termination_by (ls.length, 1)

theorem args_mirrors (ls : List Lexeme) {p : Parser} (h : Sees late ls p) :
    Mirrors late (result (Parse.args late ls)) (args p).out := by
  match ls with
  | [] =>
    rw [Parse.args.eq_def]
    exact args_failed h
  | l :: ls =>
    rw [out_args, h.current, Parse.result_args]
    by_cases hl : l.token = .closeParen
    · rw [if_pos hl, if_pos hl]
      exact ⟨rfl, h.next (by simp [hl])⟩
    · rw [if_neg hl, if_neg hl]
      exact argList_mirrors _ h
termination_by (ls.length, 2)

theorem argList_mirrors (ls : List Lexeme) {p : Parser} (h : Sees late ls p) :
    Mirrors late (result (Parse.argList late ls))
      ((argList p).out.map id (·.expect .closeParen)) := by
  rw [Parse.result_argList]
  match ls with
  | [] =>
    rw [Parse.expr.eq_def, argList_failed h]
    exact Failed.expect' h _
  | l :: ls =>
    have hfirst : ¬ p.first.isSome = true := by simp [h.1]
    -- behind an error the loop stops, wherever in the argument it was noticed
    rcases (expr_mirrors (l :: ls) h).cases with
      ⟨e, hr, hx⟩ | ⟨x, hr, hx⟩ | ⟨x, m, rest, hr, hvalue, hrest⟩
    · rw [hr]
      exact argList_more_failed hx hfirst
    · rw [hr]
      exact argList_more_failed hx hfirst
    have hlt : rest.length < ls.length + 1 := Nat.lt_of_succ_lt (Parse.result_lt hr)
    have hcurrent : (expr p).parser.current = m := hrest.current
    have hvalue : (expr p).value = x := hvalue
    rw [hr, out_argList, if_neg hfirst, hcurrent, hvalue]
    simp only [Except.bind]
    by_cases hcomma : m.token = .comma
    · rw [if_pos hcomma, if_pos hcomma]
      exact (argList_mirrors rest (hrest.taken hcomma (by simp))).map _
    · rw [if_neg hcomma, if_neg hcomma]
      by_cases hclose : m.token = .closeParen
      · rw [if_pos hclose]
        exact ⟨rfl, hrest.taken hclose (by simp)⟩
      · rw [if_neg hclose]
        exact (hrest.missed hclose).toFailed
termination_by (ls.length, 1)

theorem function_mirrors {l : Lexeme} (hl : l.token = .openParen) (ls : List Lexeme) {p : Parser}
    (h : Sees late (l :: ls) p) : Mirrors late (result (Parse.function late l.pos ls))
      (function p (h.current.symm ▸ hl)).out := by
  have hps := params_mirrors ls (h.taken hl (by simp))
  rw [out_function, h.current, Parse.result_function]
  -- the parser reads on behind an error; the grammar does not
  cases hr₁ : result (Parse.params late ls) with
  | error e =>
    rw [hr₁] at hps
    exact body_failed (Failed.expect' hps _)
  | ok r₁ =>
    obtain ⟨ps, r₁⟩ := r₁
    rw [hr₁] at hps
    obtain ⟨hps, hsees₁⟩ := hps
    have hopened := hsees₁.expect (t := .openBrace) (by simp)
    simp only [Except.bind]
    cases hr₂ : result (Parse.token late .openBrace r₁) with
    | error e =>
      rw [hr₂] at hopened
      exact body_failed hopened
    | ok r₂ =>
      obtain ⟨_, r₂⟩ := r₂
      rw [hr₂] at hopened
      have hlt : r₂.length < ls.length := (Parse.result_lt hr₂).trans (Parse.result_lt hr₁)
      have hbody := exprs_mirrors .closeBrace r₂ hopened.2
      dsimp only
      cases hr₃ : result (Parse.exprs late .closeBrace r₂) with
      | error e =>
        rw [hr₃] at hbody
        exact Failed.expect' hbody _
      | ok r₃ =>
        obtain ⟨body, r₃⟩ := r₃
        rw [hr₃] at hbody
        obtain ⟨hbody, hsees₃⟩ := hbody
        have hclosed := hsees₃.expect (t := .closeBrace) (by simp)
        dsimp only
        cases hr₄ : result (Parse.token late .closeBrace r₃) with
        | error e =>
          rw [hr₄] at hclosed
          exact hclosed
        | ok r₄ =>
          rw [hr₄] at hclosed
          refine ⟨?_, hclosed.2⟩
          rw [← hps, ← hbody]
          rfl
termination_by (ls.length, 0)

theorem exprs_mirrors (close : Token) (ls : List Lexeme) {p : Parser} (h : Sees late ls p) :
    Mirrors late (result (Parse.exprs late close ls)) (exprs close p).out := by
  match ls with
  | [] =>
    rw [Parse.exprs.eq_def, exprs_failed h close]
    exact h
  | l :: ls =>
    by_cases hstop : l.token = close ∨ l.token = .eof
    · rw [out_exprs, if_pos (.inr (h.current.symm ▸ hstop)), Parse.result_exprs_of_stop hstop]
      exact ⟨rfl, h⟩
    have hgo : ¬ (p.first.isSome = true ∨ p.current.token = close ∨ p.current.token = .eof) := by
      simpa [h.1, h.current] using hstop
    rw [Parse.result_exprs hstop]
    rcases (expr_mirrors (l :: ls) h).cases with
      ⟨e, hr, hx⟩ | ⟨x, hr, hx⟩ | ⟨x, m, rest, hr, hvalue, hrest⟩
    · rw [hr]
      exact exprs_more_failed hx hgo
    · rw [hr]
      exact exprs_more_failed hx hgo
    have hlt : rest.length < ls.length + 1 := Nat.lt_of_succ_lt (Parse.result_lt hr)
    have hcurrent : (expr p).parser.current = m := hrest.current
    have hvalue : (expr p).value = x := hvalue
    rw [hr, out_exprs, if_neg hgo, hcurrent, hvalue]
    simp only [Except.bind]
    by_cases hsemicolon : m.token = .semicolon
    · rw [if_pos hsemicolon, if_pos hsemicolon]
      exact (exprs_mirrors close rest (hrest.taken hsemicolon (by simp))).map _
    · rw [if_neg hsemicolon, if_neg hsemicolon]
      exact ⟨rfl, hrest⟩
termination_by (ls.length, 1)

end

/-! ## Programs -/

/-- The parser has given the expressions and never called the error handler, or it has given none and
called it once. -/
def Reports (r : Except SyntaxError (List Expr)) (es : List Expr) (p : Parser) : Prop :=
  match r with
  | .ok xs => es = xs ∧ p.first = none ∧ p.reports = []
  | .error e => es = [] ∧ p.first = some e ∧ p.reports = [e]

theorem program_failed (h : Failed e (exprs .eof p).parser) :
    (program p).1 = [] ∧ (program p).2.first = some e ∧ (program p).2.reports = [e] := by
  simp [program, h.first, h.reports]

theorem program_reports (h : Sees late ls p) :
    Reports (Parse.program late ls) (program p).1 (program p).2 := by
  rw [Parse.program_eq]
  rcases (exprs_mirrors .eof ls h).cases with
    ⟨e, hr, hes⟩ | ⟨es, hr, hes⟩ | ⟨es, l, rest, hr, hvalue, hrest⟩
  · rw [hr]
    exact program_failed hes
  · rw [hr]
    exact program_failed hes
  have hfirst : (exprs .eof p).parser.first = none := hrest.1
  have hcurrent : (exprs .eof p).parser.current = l := hrest.current
  rw [hr]
  simp only [Except.bind]
  by_cases hl : l.token = .eof
  · have hprogram : program p = ((exprs .eof p).value, (exprs .eof p).parser) := by
      simp [program, hfirst, hcurrent, hl]
    rw [if_pos hl, hprogram]
    exact ⟨hvalue, hfirst, hrest.2.1⟩
  · have hrefused : Failed _ ((exprs .eof p).parser.refuse .separator) :=
      (hrest.refuse .separator).toFailed
    have hprogram : program p = ([], (exprs .eof p).parser.refuse .separator) := by
      simp [program, hfirst, hcurrent, hl, hrefused.first]
    rw [if_neg hl, hprogram]
    exact ⟨rfl, hrefused.first, hrefused.reports⟩

theorem ofSource_sees (s : Source) : ∃ late, s.parse = Parse.program late s.parserInput.1 ∧
    Sees late s.parserInput.1 (ofSource s) := by
  unfold Source.parse Source.parserInput ofSource
  cases hopening : s.openingErrors with
  | cons e es =>
    refine ⟨e.toSyntaxError, rfl, ?_⟩
    have hfailed : Failed e.toSyntaxError
        (Parser.report ⟨s.located, s.stop, ⟨.eof, "", {}⟩, none, none, []⟩ e.toSyntaxError) :=
      ⟨rfl, rfl⟩
    dsimp only
    rw [List.map_cons, List.foldl_cons, hfailed.reportAll]
    exact hfailed.next.toFailed
  | nil =>
    refine ⟨_, rfl, ?_⟩
    refine Awaits.next ?_ rfl rfl
    refine ⟨rfl, fun e he => ?_⟩
    have he : (cleanLexemes s.lexemes).2 = some e := he
    simp only [he]

/-- The parser at work does what is to be read off the lexemes. -/
theorem ofSource_reports (s : Source) :
    Reports s.parse (program (.ofSource s)).1 (program (.ofSource s)).2 := by
  obtain ⟨late, hparse, hsees⟩ := ofSource_sees s
  rw [hparse]
  exact program_reports hsees

end Parser

end Wordlang
