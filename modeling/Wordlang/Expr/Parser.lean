import Wordlang.Expr.Parse

/-!
# The parser at work

The parser as it runs on the text of a source. It takes the lexemes one after the other, keeps the
one that it looks at and sometimes the one behind it, and hands the first error, lexical or
syntactic, to the error handler. No loop goes on behind an error, and every lexeme looked at from
then on is the end of the input.

What lies ahead of a parser never grows, and becomes less with every token that it takes; so the
recursion ends by itself.
-/

namespace Wordlang

/-- A parser that runs. -/
structure Parser where
  /-- The text behind the lexemes taken so far. -/
  text : List Located
  /-- Where the text ends. -/
  stop : Position
  /-- The lexeme that is looked at. -/
  current : Lexeme
  /-- The lexeme behind it, if it has been taken already. -/
  peeked : Option Lexeme
  /-- The first error. -/
  first : Option SyntaxError
  /-- The errors that the error handler was called with, in order. -/
  reports : List SyntaxError

namespace Parser

/-- The parser as if it looked at the end of the input. -/
def atEnd (p : Parser) : Parser := { p with current := { p.current with token := .eof } }

/-- Records an error and calls the error handler, unless there has been an error before. -/
def report (p : Parser) (e : SyntaxError) : Parser :=
  match p.first with
  | some _ => p
  | none => { p.atEnd with first := some e, reports := p.reports ++ [e] }

/-- Reports that the current lexeme is not what was wanted. -/
def refuse (p : Parser) (want : Expected) : Parser :=
  p.report ⟨p.current.pos, .unexpected want p.current⟩

/-- Takes a lexeme of the text. -/
def scan (p : Parser) : Lexeme × Parser :=
  let t := take p.stop p.text
  (t.lexeme, (t.errors.map LexicalError.toSyntaxError).foldl report { p with text := t.rest })

/-- Looks at the lexeme `l`. What is wrong with an error token has been reported when it was taken. -/
def look (p : Parser) (l : Lexeme) : Parser :=
  if l.token = .error then { p with current := l }.atEnd else { p with current := l }

/-- Goes on to the next lexeme. -/
def next (p : Parser) : Parser :=
  match p.first, p.peeked with
  | some _, _ => p.atEnd
  | none, some l => { p with peeked := none }.look l
  | none, none => p.scan.2.look p.scan.1

/-- The kind of the lexeme behind the current one. -/
def peek (p : Parser) : Token × Parser :=
  match p.peeked with
  | some l => (l.token, p)
  | none => (p.scan.1.token, { p.scan.2 with peeked := some p.scan.1 })

/-- Takes the token `t`. -/
def expect (p : Parser) (t : Token) : Parser :=
  if p.current.token = t then p.next else p.refuse (.token t)

/-- The parser of a source, which looks at its first lexeme. -/
def ofSource (s : Source) : Parser :=
  let p : Parser := ⟨s.located, s.stop, ⟨.eof, "", {}⟩, none, none, []⟩
  ((s.openingErrors.map LexicalError.toSyntaxError).foldl report p).next

/-! ## What lies ahead -/

/-- What a lexeme counts: nothing at the end of the input. -/
def weight (l : Lexeme) : Nat := if l.token = .eof then 0 else 1

/-- What lies ahead: the text and the lexemes at hand. -/
def ahead (p : Parser) : Nat :=
  p.text.length + p.peeked.elim 0 weight + weight p.current

/-- A lexeme is taken from what is there. -/
theorem weight_take_le (stop : Position) (cs : List Located) :
    (take stop cs).rest.length + weight (take stop cs).lexeme ≤ cs.length := by
  unfold weight
  split
  · unfold take
    split
    · exact Nat.zero_le _
    · rename_i c rest hc
      have hd : (cs.dropWhile (isBlank ·.char)).length ≤ cs.length :=
        (List.dropWhile_sublist _).length_le
      rw [hc] at hd
      exact Nat.le_of_succ_le (Nat.le_trans (Nat.succ_le_succ (cut_rest_length_le c rest)) hd)
  · rename_i h
    exact take_rest_length_lt h

/-- What a report changes: at most the current lexeme, to the end of the input. -/
def Spares (p q : Parser) : Prop :=
  q.text = p.text ∧ q.peeked = p.peeked ∧ (q.current = p.current ∨ q.current.token = .eof)

theorem spares_report (p : Parser) (e : SyntaxError) : Spares p (p.report e) := by
  unfold report
  split
  · exact ⟨rfl, rfl, .inl rfl⟩
  · exact ⟨rfl, rfl, .inr rfl⟩

theorem spares_reportAll (es : List SyntaxError) (p : Parser) : Spares p (es.foldl report p) := by
  induction es generalizing p with
  | nil => exact ⟨rfl, rfl, .inl rfl⟩
  | cons e es ih =>
    obtain ⟨htext, hpeeked, hcurrent⟩ := p.spares_report e
    obtain ⟨htext', hpeeked', hcurrent'⟩ := ih (p.report e)
    refine ⟨htext'.trans htext, hpeeked'.trans hpeeked, ?_⟩
    rcases hcurrent' with hsame | heof
    · rw [List.foldl_cons, hsame]
      exact hcurrent
    · exact .inr heof

theorem weight_of_eof {l : Lexeme} (h : l.token = .eof) : weight l = 0 := if_pos h

theorem weight_of_ne_eof {l : Lexeme} (h : l.token ≠ .eof) : weight l = 1 := if_neg h

theorem Spares.ahead_le {p q : Parser} (h : Spares p q) : q.ahead ≤ p.ahead := by
  obtain ⟨htext, hpeeked, hcurrent⟩ := h
  rw [ahead, ahead, htext, hpeeked]
  rcases hcurrent with hsame | heof
  · exact Nat.le_of_eq (congrArg _ (congrArg weight hsame))
  · rw [weight_of_eof heof]
    exact Nat.le_add_right _ _

theorem ahead_refuse_le (p : Parser) (want : Expected) : (p.refuse want).ahead ≤ p.ahead :=
  (p.spares_report _).ahead_le

/-- Taking a lexeme makes the text shorter, and may report. -/
theorem scan_spec (p : Parser) : p.scan.2.text.length + weight p.scan.1 ≤ p.text.length ∧
    p.scan.2.peeked = p.peeked ∧
      (p.scan.2.current = p.current ∨ p.scan.2.current.token = .eof) := by
  obtain ⟨htext, hrest⟩ := spares_reportAll
    ((take p.stop p.text).errors.map LexicalError.toSyntaxError)
    { p with text := (take p.stop p.text).rest }
  refine ⟨?_, hrest⟩
  rw [scan, htext]
  exact weight_take_le p.stop p.text

theorem ahead_look_le (p : Parser) (l : Lexeme) :
    (p.look l).ahead ≤ p.text.length + p.peeked.elim 0 weight + weight l := by
  have hatEnd : Spares { p with current := l } { p with current := l }.atEnd :=
    ⟨rfl, rfl, .inr rfl⟩
  unfold look
  split
  · exact hatEnd.ahead_le
  · exact Nat.le_refl _

/-- Going on leaves the current lexeme behind. -/
theorem ahead_next (p : Parser) : p.next.ahead + weight p.current ≤ p.ahead := by
  rw [next.eq_def]
  split
  · exact Nat.le_refl _
  · rename_i l _ hpeeked
    refine Nat.add_le_add_right (Nat.le_trans (ahead_look_le _ l) ?_) _
    rw [hpeeked]
    exact Nat.le_refl _
  · rename_i _ hpeeked
    obtain ⟨htext, hnone, -⟩ := p.scan_spec
    refine Nat.add_le_add_right (Nat.le_trans (ahead_look_le _ _) ?_) _
    rw [hnone, hpeeked]
    exact htext

/-- Looking at the lexeme behind the current one keeps this, unless an error is reported. -/
theorem ahead_peek (p : Parser) : p.peek.2.ahead ≤ p.ahead ∧
    (p.peek.2.current = p.current ∨ p.peek.2.ahead + weight p.current ≤ p.ahead) := by
  unfold peek
  cases hpeeked : p.peeked with
  | some l => exact ⟨Nat.le_refl _, .inl rfl⟩
  | none =>
    obtain ⟨htext, -, hcurrent⟩ := p.scan_spec
    have hahead : p.ahead = p.text.length + weight p.current := by
      rw [ahead, hpeeked]
      rfl
    rw [hahead]
    rcases hcurrent with hsame | heof
    · refine ⟨?_, .inl hsame⟩
      refine Nat.le_trans (Nat.le_of_eq ?_) (Nat.add_le_add_right htext _)
      rw [← hsame]
      rfl
    · have hle : (Parser.mk p.scan.2.text p.scan.2.stop p.scan.2.current (some p.scan.1)
          p.scan.2.first p.scan.2.reports).ahead ≤ p.text.length := by
        rw [ahead, weight_of_eof heof]
        exact htext
      exact ⟨Nat.le_trans hle (Nat.le_add_right _ _), .inr (Nat.add_le_add_right hle _)⟩

/-- Taking a token that is there leaves it behind. -/
theorem ahead_expect_lt {p : Parser} {t : Token} (h : p.current.token = t) (ht : t ≠ .eof) :
    (p.expect t).ahead < p.ahead := by
  have hnext := p.ahead_next
  rw [weight_of_ne_eof (h ▸ ht)] at hnext
  rw [expect, if_pos h]
  exact hnext

theorem ahead_next_le (p : Parser) : p.next.ahead ≤ p.ahead :=
  Nat.le_trans (Nat.le_add_right _ _) p.ahead_next

theorem ahead_expect_le (p : Parser) (t : Token) : (p.expect t).ahead ≤ p.ahead := by
  unfold expect
  split
  · exact p.ahead_next_le
  · exact p.ahead_refuse_le _

/-- Taking the name behind which the parser has looked leaves it behind. -/
theorem ahead_peek_expect_lt {p : Parser} (h : p.current.token = .name) :
    (p.peek.2.expect .name).ahead < p.ahead := by
  have hweight : weight p.current = 1 := weight_of_ne_eof (by simp [h])
  obtain ⟨hle, hsame | hlt⟩ := p.ahead_peek
  · exact Nat.lt_of_lt_of_le (ahead_expect_lt (hsame ▸ h) (by simp)) hle
  · rw [hweight] at hlt
    exact Nat.lt_of_le_of_lt (ahead_expect_le _ _) hlt

/-! ## The grammar -/

open Parse (ident intValue)

/-- What was read, and the parser behind it, which has at most `bound` ahead. -/
structure Step (α : Type) (bound : Nat) where
  /-- What was read. -/
  value : α
  /-- The parser behind it. -/
  parser : Parser
  /-- Nothing has been added to what lies ahead. -/
  ahead_le : parser.ahead ≤ bound

/-- Changes what was read, and allows more ahead. -/
def Step.map {α β : Type} {m n : Nat} (r : Step α m) (f : α → β) (h : m ≤ n) : Step β n :=
  ⟨f r.value, r.parser, Nat.le_trans r.ahead_le h⟩

/-- `atom`. -/
def atom (p : Parser) : Expr × Parser :=
  match p.current.token with
  | .name => (.name (ident p.current), p.expect .name)
  | .int => (.int p.current.pos (intValue p.current), p.next)
  | .string => (.string p.current.pos p.current.text, p.next)
  | .float => (.empty p.current.pos, p.report ⟨p.current.pos, .floatLiteral⟩)
  | _ => (.empty p.current.pos, p.refuse .expression)

theorem ahead_atom_le (p : Parser) : (atom p).2.ahead ≤ p.ahead := by
  unfold atom
  split
  · exact p.ahead_expect_le _
  · exact p.ahead_next_le
  · exact p.ahead_next_le
  · exact (p.spares_report _).ahead_le
  · exact p.ahead_refuse_le _

/-- `NAME { "," NAME }`. -/
def names (p : Parser) : Step (List Expr) p.ahead :=
  if p.first.isSome then ⟨[], p, Nat.le_refl _⟩
  else
    have hname := p.ahead_expect_le .name
    if h : (p.expect .name).current.token = .comma then
      have hcomma := Nat.lt_of_lt_of_le (ahead_expect_lt h (by simp)) hname
      (names ((p.expect .name).expect .comma)).map (Expr.name (ident p.current) :: ·)
        (Nat.le_of_lt hcomma)
    else ⟨[.name (ident p.current)], p.expect .name, hname⟩
termination_by p.ahead

/-- `params` after the opening parenthesis. -/
def params (p : Parser) : Step (List Expr) p.ahead :=
  if p.current.token = .closeParen then ⟨[], p.next, p.ahead_next_le⟩
  else
    let ps := names p
    ⟨ps.value, ps.parser.expect .closeParen, Nat.le_trans (ahead_expect_le _ _) ps.ahead_le⟩

mutual

/-- `expr`. -/
def expr (p : Parser) : Step Expr p.ahead :=
  match h : p.current.token with
  | .name =>
    have hname := ahead_peek_expect_lt h
    match p.peek.1 with
    | .assign =>
      have hassign := Nat.lt_of_le_of_lt (ahead_expect_le _ .assign) hname
      (expr ((p.peek.2.expect .name).expect .assign)).map
        (Expr.assign p.current.pos (ident p.peek.2.current)) (Nat.le_of_lt hassign)
    | .openParen =>
      have hopen := Nat.lt_of_le_of_lt (ahead_expect_le _ .openParen) hname
      (args ((p.peek.2.expect .name).expect .openParen)).map
        (Expr.call p.current.pos (ident p.peek.2.current)) (Nat.le_of_lt hopen)
    | _ =>
      have hatom := Nat.le_trans p.peek.2.ahead_atom_le p.ahead_peek.1
      (tail (atom p.peek.2).1 (atom p.peek.2).2).map id hatom
  | .openParen => function p h
  | _ =>
    have hatom := p.ahead_atom_le
    (tail (atom p).1 (atom p).2).map id hatom
termination_by 4 * p.ahead + 1

/-- `[ NAME expr ]` after the atom `x`. -/
def tail (x : Expr) (p : Parser) : Step Expr p.ahead :=
  if h : p.current.token = .name then
    have hname := ahead_expect_lt h (by simp)
    (expr (p.expect .name)).map (fun y => .call x.pos (ident p.current) [x, y])
      (Nat.le_of_lt hname)
  else ⟨x, p, Nat.le_refl _⟩
termination_by 4 * p.ahead

/-- `args` after the opening parenthesis. -/
def args (p : Parser) : Step (List Expr) p.ahead :=
  if p.current.token = .closeParen then ⟨[], p.next, p.ahead_next_le⟩
  else
    let xs := argList p
    ⟨xs.value, xs.parser.expect .closeParen, Nat.le_trans (ahead_expect_le _ _) xs.ahead_le⟩
termination_by 4 * p.ahead + 3

/-- `expr { "," expr }`. -/
def argList (p : Parser) : Step (List Expr) p.ahead :=
  if p.first.isSome then ⟨[], p, Nat.le_refl _⟩
  else
    let x := expr p
    if h : x.parser.current.token = .comma then
      have hcomma := Nat.lt_of_lt_of_le (ahead_expect_lt h (by simp)) x.ahead_le
      (argList (x.parser.expect .comma)).map (x.value :: ·) (Nat.le_of_lt hcomma)
    else ⟨[x.value], x.parser, x.ahead_le⟩
termination_by 4 * p.ahead + 2

/-- `"(" params "{" [ exprs ] "}"`. -/
def function (p : Parser) (h : p.current.token = .openParen) : Step Expr p.ahead :=
  let ps := params (p.expect .openParen)
  have hbrace : ((params (p.expect .openParen)).parser.expect .openBrace).ahead < p.ahead :=
    Nat.lt_of_le_of_lt (Nat.le_trans (ahead_expect_le _ _) (params (p.expect .openParen)).ahead_le)
      (ahead_expect_lt h (by simp))
  let body := exprs .closeBrace (ps.parser.expect .openBrace)
  ⟨.function p.current.pos ps.value body.value, body.parser.expect .closeBrace,
    Nat.le_trans (ahead_expect_le _ _) (Nat.le_trans body.ahead_le (Nat.le_of_lt hbrace))⟩
termination_by 4 * p.ahead

/-- `[ exprs ]`, up to the token `close` or whatever else cannot go on. -/
def exprs (close : Token) (p : Parser) : Step (List Expr) p.ahead :=
  if p.first.isSome ∨ p.current.token = close ∨ p.current.token = .eof then
    ⟨[], p, Nat.le_refl _⟩
  else
    let x := expr p
    if h : x.parser.current.token = .semicolon then
      have hsemicolon := Nat.lt_of_lt_of_le (ahead_expect_lt h (by simp)) x.ahead_le
      (exprs close (x.parser.expect .semicolon)).map (x.value :: ·) (Nat.le_of_lt hsemicolon)
    else ⟨[x.value], x.parser, x.ahead_le⟩
termination_by 4 * p.ahead + 2

end

/-- `program`. Behind an error there is no list of expressions. -/
def program (p : Parser) : List Expr × Parser :=
  let es := exprs .eof p
  let q := if es.parser.first.isNone ∧ es.parser.current.token ≠ .eof then
      es.parser.refuse .separator
    else es.parser
  (if q.first.isSome then [] else es.value, q)

end Parser

end Wordlang
