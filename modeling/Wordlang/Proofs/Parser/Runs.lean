import Wordlang.Proofs.Parser

/-!
# Runs of the parser

The parser as a procedure: it has a stack of tasks before it and does the topmost, which may put
others in its place. A run goes on until the stack is empty, and keeps a record of the lexemes that
are taken from the text, of those that are left behind, of the rounds that the loops make and of the
first error.

Nothing here says that there is an end. A run is a finite one by definition, so that it is a theorem
that every stack of tasks has a run (`existsUnique_run`), and that it comes to where the parser at work
comes to.
-/

namespace Wordlang.Parser

/-- Something that happens in a run. -/
inductive Act where
  /-- A lexeme is taken from the text. -/
  | scan
  /-- The current lexeme is left behind. -/
  | consume
  /-- The body of a loop is entered. -/
  | round
  /-- The first error is recorded. -/
  | error
  deriving DecidableEq, Repr

/-! ## Moves -/

/-- What can be done to the state of a parser. -/
inductive Move where
  | next
  | peek
  | report (e : SyntaxError)

namespace Move

/-- The parser after a move. -/
def run (p : Parser) : Move → Parser
  | next => p.next
  | peek => p.peek.2
  | report e => p.report e

/-- What a move does to the lexemes. -/
def lexemes (p : Parser) : Move → List Act
  | next =>
    if p.first.isSome then [] else if p.peeked.isSome then [.consume] else [.consume, .scan]
  | peek => if p.peeked.isSome then [] else [.scan]
  | report _ => []

/-- What happens in a move. -/
def acts (p : Parser) (m : Move) : List Act :=
  m.lexemes p ++ if p.first = none ∧ (m.run p).first.isSome then [.error] else []

end Move

/-! ## Routines -/

/-- A routine of the parser. -/
inductive Routine where
  | expect (t : Token)
  | atom
  | expr
  /-- `expr` at a name, when the lexeme behind it is known. -/
  | named
  | tail
  | args
  | argList
  | function
  | params
  | names
  | exprs (close : Token)
  /-- Behind an item of the list that `list` reads: goes on if there is a separator. -/
  | more (separator : Token) (list : Routine)
  | program
  /-- Behind the expressions of a program. -/
  | finish

/-- Something that is still to be done. -/
inductive Task where
  | move (m : Move)
  | routine (r : Routine)

namespace Routine

/-- Refuses the current lexeme. -/
def refusal (p : Parser) (want : Expected) : List Task :=
  [.move (.report ⟨p.current.pos, .unexpected want p.current⟩)]

/-- What a routine comes down to at a parser. -/
def tasks (p : Parser) : Routine → List Task
  | expect t => if p.current.token = t then [.move .next] else refusal p (.token t)
  | atom =>
    match p.current.token with
    | .name => [.routine (.expect .name)]
    | .int | .string => [.move .next]
    | .float => [.move (.report ⟨p.current.pos, .floatLiteral⟩)]
    | _ => refusal p .expression
  | expr =>
    match p.current.token with
    | .name => [.move .peek, .routine .named]
    | .openParen => [.routine .function]
    | _ => [.routine .atom, .routine .tail]
  | named =>
    match p.peeked.map Lexeme.token with
    | some .assign => [.routine (.expect .name), .routine (.expect .assign), .routine .expr]
    | some .openParen => [.routine (.expect .name), .routine (.expect .openParen), .routine .args]
    | _ => [.routine .atom, .routine .tail]
  | tail => if p.current.token = .name then [.routine (.expect .name), .routine .expr] else []
  | args =>
    if p.current.token = .closeParen then [.move .next]
    else [.routine .argList, .routine (.expect .closeParen)]
  | argList =>
    if p.first.isSome then [] else [.routine .expr, .routine (.more .comma .argList)]
  | function => [.routine (.expect .openParen), .routine .params, .routine (.expect .openBrace),
      .routine (.exprs .closeBrace), .routine (.expect .closeBrace)]
  | params =>
    if p.current.token = .closeParen then [.move .next]
    else [.routine .names, .routine (.expect .closeParen)]
  | names =>
    if p.first.isSome then [] else [.routine (.expect .name), .routine (.more .comma .names)]
  | exprs close =>
    if p.first.isSome ∨ p.current.token = close ∨ p.current.token = .eof then []
    else [.routine .expr, .routine (.more .semicolon (.exprs close))]
  | more separator list =>
    if p.current.token = separator then [.move .next, .routine list] else []
  | program => [.routine (.exprs .eof), .routine .finish]
  | finish =>
    if p.first.isNone ∧ p.current.token ≠ .eof then refusal p .separator else []

/-- Whether the routine is a loop. What it comes down to is then one round of it. -/
def isLoop : Routine → Bool
  | argList | names | exprs _ => true
  | _ => false

/-- What happens when a routine is begun. -/
def acts (p : Parser) (r : Routine) : List Act :=
  if r.isLoop ∧ r.tasks p ≠ [] then [.round] else []

end Routine

/-! ## Runs -/

/-- With the tasks before it, the parser `p` becomes `q`, and `as` happens on the way. -/
inductive Runs : List Task → Parser → List Act → Parser → Prop where
  | done (p : Parser) : Runs [] p [] p
  | move {m : Move} {ts : List Task} {p q : Parser} {as : List Act}
      (h : Runs ts (m.run p) as q) : Runs (.move m :: ts) p (m.acts p ++ as) q
  | routine {r : Routine} {ts : List Task} {p q : Parser} {as : List Act}
      (h : Runs (r.tasks p ++ ts) p as q) : Runs (.routine r :: ts) p (r.acts p ++ as) q

variable {r : Routine} {ts us : List Task} {p q q' : Parser} {as bs : List Act}

namespace Runs

/-- There is only one run. -/
theorem unique (h : Runs ts p as q) (h' : Runs ts p bs q') : as = bs ∧ q = q' := by
  induction h generalizing bs with
  | done p =>
    cases h'
    exact ⟨rfl, rfl⟩
  | move _ ih =>
    cases h' with
    | move h' =>
      obtain ⟨rfl, rfl⟩ := ih h'
      exact ⟨rfl, rfl⟩
  | routine _ ih =>
    cases h' with
    | routine h' =>
      obtain ⟨rfl, rfl⟩ := ih h'
      exact ⟨rfl, rfl⟩

/-- One run after the other. -/
theorem append (h : Runs ts p as q) (h' : Runs us q bs q') : Runs (ts ++ us) p (as ++ bs) q' := by
  induction h with
  | done p => exact h'
  | move _ ih =>
    rw [List.append_assoc]
    exact .move (ih h')
  | @routine r ts p q as _ ih =>
    have htasks : r.tasks p ++ ts ++ us = r.tasks p ++ (ts ++ us) := List.append_assoc _ _ _
    rw [List.append_assoc]
    exact .routine (htasks ▸ ih h')

end Runs

/-- A run leads from one parser to the other. -/
def Leads (ts : List Task) (p q : Parser) : Prop := ∃ as, Runs ts p as q

namespace Leads

theorem nil (p : Parser) : Leads [] p p := ⟨[], .done p⟩

theorem move (m : Move) (p : Parser) : Leads [.move m] p (m.run p) := ⟨_, .move (.done _)⟩

theorem routine (h : Leads (r.tasks p) p q) : Leads [.routine r] p q := by
  obtain ⟨as, h⟩ := h
  exact ⟨_, .routine ((List.append_nil (r.tasks p)).symm ▸ h)⟩

theorem cons {t : Task} (h : Leads [t] p q) (h' : Leads ts q q') : Leads (t :: ts) p q' := by
  obtain ⟨as, h⟩ := h
  obtain ⟨bs, h'⟩ := h'
  exact ⟨as ++ bs, h.append h'⟩

theorem refusal (p : Parser) (want : Expected) :
    Leads (Routine.refusal p want) p (p.refuse want) := move _ _

/-- The end of a loop goes on with the loop, or is there. -/
theorem more_of_eq {separator : Token} {list : Routine} (h : p.current.token = separator)
    (hlist : Leads [.routine list] (p.expect separator) q) :
    Leads [.routine (.more separator list)] p q := by
  refine routine ?_
  rw [expect, if_pos h] at hlist
  rw [Routine.tasks, if_pos h]
  exact (move .next p).cons hlist

theorem more_of_ne {separator : Token} {list : Routine} (h : p.current.token ≠ separator) :
    Leads [.routine (.more separator list)] p p := by
  refine routine ?_
  rw [Routine.tasks, if_neg h]
  exact nil p

end Leads

/-! ## Where runs lead -/

theorem leads_expect (t : Token) (p : Parser) :
    Leads [.routine (.expect t)] p (p.expect t) := by
  refine .routine ?_
  rw [Routine.tasks, expect]
  split
  · exact .move .next p
  · exact .refusal p _

theorem leads_atom (p : Parser) : Leads [.routine .atom] p (atom p).2 := by
  refine .routine ?_
  rw [Routine.tasks, atom]
  cases p.current.token with
  | name => exact leads_expect .name p
  | int | string => exact .move .next p
  | float => exact .move _ p
  | _ => exact .refusal p _

theorem leads_names (p : Parser) : Leads [.routine .names] p (names p).parser := by
  have hout : (names p).parser = _ := congrArg Prod.snd (out_names p)
  refine .routine ?_
  rw [hout, Routine.tasks]
  by_cases hp : p.first.isSome
  · rw [if_pos hp, if_pos hp]
    exact .nil p
  rw [if_neg hp, if_neg hp]
  refine (leads_expect .name p).cons ?_
  by_cases hcomma : (p.expect .name).current.token = .comma
  · have hlt := Nat.lt_of_lt_of_le (ahead_expect_lt hcomma (by simp)) (p.ahead_expect_le .name)
    rw [if_pos hcomma]
    exact .more_of_eq hcomma (leads_names _)
  · rw [if_neg hcomma]
    exact .more_of_ne hcomma
termination_by p.ahead

theorem leads_params (p : Parser) : Leads [.routine .params] p (params p).parser := by
  have hout : (params p).parser = _ := congrArg Prod.snd (out_params p)
  refine .routine ?_
  rw [hout, Routine.tasks]
  split
  · exact .move .next p
  · exact (leads_names p).cons (leads_expect .closeParen _)

/-- The lexeme behind the current one is at hand when it has been looked at. -/
theorem peeked_peek (p : Parser) : p.peek.2.peeked.map Lexeme.token = some p.peek.1 := by
  unfold peek
  split
  · next l h => rw [h]; rfl
  · rfl

/-- What is read before a tail makes no difference for what is left. -/
theorem parser_tail (x : Expr) (p : Parser) : (tail x p).parser = (tail .absent p).parser := by
  have hout : ∀ x, (tail x p).parser = _ := fun x => congrArg Prod.snd (out_tail x p)
  rw [hout, hout]
  split <;> rfl

mutual

theorem leads_expr (p : Parser) : Leads [.routine .expr] p (expr p).parser := by
  refine .routine ?_
  rw [Routine.tasks]
  by_cases hname : p.current.token = .name
  · have hlt := ahead_peek_expect_lt hname
    rw [hname]
    refine (Leads.move .peek p).cons (.routine ?_)
    show Leads (Routine.tasks p.peek.2 .named) p.peek.2 _
    rw [Routine.tasks, peeked_peek]
    by_cases hassign : p.peek.1 = .assign
    · have hout : (expr p).parser = _ := congrArg Prod.snd (out_expr_assign hname hassign)
      have hvalue := Nat.lt_of_le_of_lt (ahead_expect_le _ .assign) hlt
      rw [hassign, hout]
      exact (leads_expect _ _).cons ((leads_expect _ _).cons (leads_expr _))
    by_cases hopen : p.peek.1 = .openParen
    · have hout : (expr p).parser = _ := congrArg Prod.snd (out_expr_call hname hopen)
      have hargs := Nat.lt_of_le_of_lt (ahead_expect_le _ .openParen) hlt
      rw [hopen, hout]
      exact (leads_expect _ _).cons ((leads_expect _ _).cons (leads_args _))
    · have hout : (expr p).parser = (tail _ _).parser :=
        congrArg Prod.snd (out_expr_name hname hassign hopen)
      have hatom := Nat.le_trans p.peek.2.ahead_atom_le p.ahead_peek.1
      have htail := leads_tail (atom p.peek.2).2
      rw [hout, parser_tail]
      cases ht : p.peek.1
      case assign => exact absurd ht hassign
      case openParen => exact absurd ht hopen
      all_goals exact (leads_atom _).cons htail
  by_cases hopen : p.current.token = .openParen
  · have hout : (expr p).parser = _ := congrArg Prod.snd (out_expr_function hopen)
    rw [hopen, hout]
    exact leads_function hopen
  · have hout : (expr p).parser = (tail _ _).parser := congrArg Prod.snd (out_expr_other hname hopen)
    have hatom := p.ahead_atom_le
    have htail := leads_tail (atom p).2
    rw [hout, parser_tail]
    cases ht : p.current.token
    case name => exact absurd ht hname
    case openParen => exact absurd ht hopen
    all_goals exact (leads_atom p).cons htail
termination_by 4 * p.ahead + 1

theorem leads_tail (p : Parser) : Leads [.routine .tail] p (tail .absent p).parser := by
  have hout : (tail .absent p).parser = _ := congrArg Prod.snd (out_tail .absent p)
  refine .routine ?_
  rw [hout, Routine.tasks]
  by_cases hname : p.current.token = .name
  · have hlt := ahead_expect_lt hname (by simp)
    rw [if_pos hname, if_pos hname]
    exact (leads_expect .name p).cons (leads_expr _)
  · rw [if_neg hname, if_neg hname]
    exact .nil p
termination_by 4 * p.ahead

theorem leads_args (p : Parser) : Leads [.routine .args] p (args p).parser := by
  have hout : (args p).parser = _ := congrArg Prod.snd (out_args p)
  refine .routine ?_
  rw [hout, Routine.tasks]
  split
  · exact .move .next p
  · exact (leads_argList p).cons (leads_expect .closeParen _)
termination_by 4 * p.ahead + 3

theorem leads_argList (p : Parser) : Leads [.routine .argList] p (argList p).parser := by
  have hout : (argList p).parser = _ := congrArg Prod.snd (out_argList p)
  refine .routine ?_
  rw [hout, Routine.tasks]
  by_cases hp : p.first.isSome
  · rw [if_pos hp, if_pos hp]
    exact .nil p
  rw [if_neg hp, if_neg hp]
  refine (leads_expr p).cons ?_
  by_cases hcomma : (expr p).parser.current.token = .comma
  · have hlt := Nat.lt_of_lt_of_le (ahead_expect_lt hcomma (by simp)) (expr p).ahead_le
    rw [if_pos hcomma]
    exact .more_of_eq hcomma (leads_argList _)
  · rw [if_neg hcomma]
    exact .more_of_ne hcomma
termination_by 4 * p.ahead + 2

theorem leads_function {p : Parser} (h : p.current.token = .openParen) :
    Leads [.routine .function] p (function p h).parser := by
  have hout : (function p h).parser = _ := congrArg Prod.snd (out_function h)
  have hlt : ((params (p.expect .openParen)).parser.expect .openBrace).ahead < p.ahead :=
    Nat.lt_of_le_of_lt (Nat.le_trans (ahead_expect_le _ _) (params (p.expect .openParen)).ahead_le)
      (ahead_expect_lt h (by simp))
  refine .routine ?_
  rw [hout, Routine.tasks]
  exact (leads_expect _ _).cons ((leads_params _).cons ((leads_expect _ _).cons
    ((leads_exprs _ _).cons (leads_expect _ _))))
termination_by 4 * p.ahead

theorem leads_exprs (close : Token) (p : Parser) :
    Leads [.routine (.exprs close)] p (exprs close p).parser := by
  have hout : (exprs close p).parser = _ := congrArg Prod.snd (out_exprs close p)
  refine .routine ?_
  rw [hout, Routine.tasks]
  by_cases hp : p.first.isSome ∨ p.current.token = close ∨ p.current.token = .eof
  · rw [if_pos hp, if_pos hp]
    exact .nil p
  rw [if_neg hp, if_neg hp]
  refine (leads_expr p).cons ?_
  by_cases hsemicolon : (expr p).parser.current.token = .semicolon
  · have hlt := Nat.lt_of_lt_of_le (ahead_expect_lt hsemicolon (by simp)) (expr p).ahead_le
    rw [if_pos hsemicolon]
    exact .more_of_eq hsemicolon (leads_exprs close _)
  · rw [if_neg hsemicolon]
    exact .more_of_ne hsemicolon
termination_by 4 * p.ahead + 2

end

theorem leads_finish (p : Parser) : Leads [.routine .finish] p
    (if p.first.isNone ∧ p.current.token ≠ .eof then p.refuse .separator else p) := by
  refine .routine ?_
  rw [Routine.tasks]
  split
  · exact .refusal p .separator
  · exact .nil p

theorem leads_program (p : Parser) : Leads [.routine .program] p (program p).2 :=
  .routine ((leads_exprs .eof p).cons (leads_finish _))

/-! ## Every run ends -/

/-- However the parser stands, there is a run. -/
def Ends (t : Task) : Prop := ∀ p, ∃ q, Leads [t] p q

theorem leads_of_ends (h : ∀ t ∈ ts, Ends t) (p : Parser) : ∃ q, Leads ts p q := by
  induction ts generalizing p with
  | nil => exact ⟨p, .nil p⟩
  | cons t ts ih =>
    obtain ⟨ht, hts⟩ := List.forall_mem_cons.1 h
    obtain ⟨q, hq⟩ := ht p
    obtain ⟨q', hq'⟩ := ih hts q
    exact ⟨q', hq.cons hq'⟩

theorem ends_move (m : Move) : Ends (.move m) := fun p => ⟨_, .move m p⟩

theorem Ends.of_tasks (h : ∀ p, ∀ t ∈ r.tasks p, Ends t) : Ends (.routine r) := by
  intro p
  obtain ⟨q, hq⟩ := leads_of_ends (h p) p
  exact ⟨q, hq.routine⟩

theorem ends_expect (t : Token) : Ends (.routine (.expect t)) := fun p => ⟨_, leads_expect t p⟩

theorem ends_named : Ends (.routine .named) := by
  have hatom : Ends (.routine .atom) := fun p => ⟨_, leads_atom p⟩
  have htail : Ends (.routine .tail) := fun p => ⟨_, leads_tail p⟩
  have hexpr : Ends (.routine .expr) := fun p => ⟨_, leads_expr p⟩
  have hargs : Ends (.routine .args) := fun p => ⟨_, leads_args p⟩
  refine .of_tasks fun p => ?_
  rw [Routine.tasks]
  split
  · simp [ends_expect, hexpr]
  · simp [ends_expect, hargs]
  · simp [hatom, htail]

theorem ends_function : Ends (.routine .function) := by
  have hparams : Ends (.routine .params) := fun p => ⟨_, leads_params p⟩
  have hbody : Ends (.routine (.exprs .closeBrace)) := fun p => ⟨_, leads_exprs .closeBrace p⟩
  refine .of_tasks fun p => ?_
  simp [Routine.tasks, ends_expect, hparams, hbody]

theorem ends_more {separator : Token} (h : Ends (.routine r)) :
    Ends (.routine (.more separator r)) := by
  refine .of_tasks fun p => ?_
  rw [Routine.tasks]
  split
  · simp [ends_move, h]
  · simp

theorem ends_routine : ∀ r : Routine, Ends (.routine r)
  | .expect t => ends_expect t
  | .atom => fun p => ⟨_, leads_atom p⟩
  | .expr => fun p => ⟨_, leads_expr p⟩
  | .named => ends_named
  | .tail => fun p => ⟨_, leads_tail p⟩
  | .args => fun p => ⟨_, leads_args p⟩
  | .argList => fun p => ⟨_, leads_argList p⟩
  | .function => ends_function
  | .params => fun p => ⟨_, leads_params p⟩
  | .names => fun p => ⟨_, leads_names p⟩
  | .exprs close => fun p => ⟨_, leads_exprs close p⟩
  | .more _ r => ends_more (ends_routine r)
  | .program => fun p => ⟨_, leads_program p⟩
  | .finish => fun p => ⟨_, leads_finish p⟩

/-- Every stack of tasks comes to an end, in one way. -/
theorem existsUnique_run (ts : List Task) (p : Parser) :
    ∃! x : List Act × Parser, Runs ts p x.1 x.2 := by
  have hends : ∀ t ∈ ts, Ends t := by
    rintro (m | r) -
    · exact ends_move m
    · exact ends_routine r
  obtain ⟨q, as, h⟩ := leads_of_ends hends p
  refine ⟨(as, q), h, ?_⟩
  rintro ⟨bs, q'⟩ h'
  obtain ⟨has, hq⟩ := h'.unique h
  exact Prod.ext has hq

/-! ## Sources -/

/-- The parser of a source before anything has been done. -/
def blank (s : Source) : Parser := ⟨s.located, s.stop, ⟨.eof, "", {}⟩, none, none, []⟩

/-- What is done to parse a source: what is wrong with its start is reported, the first lexeme is
taken, and the program is read. -/
def parsing (s : Source) : List Task :=
  (s.openingErrors.map fun e => .move (.report e.toSyntaxError)) ++
    [.move .next, .routine .program]

theorem leads_reports (es : List LexicalError) (h : Leads ts
    ((es.map LexicalError.toSyntaxError).foldl report p) q) :
    Leads ((es.map fun e => .move (.report e.toSyntaxError)) ++ ts) p q := by
  induction es generalizing p with
  | nil => exact h
  | cons e es ih => exact (Leads.move (.report e.toSyntaxError) p).cons (ih h)

theorem leads_parsing (s : Source) : Leads (parsing s) (blank s) (program (.ofSource s)).2 :=
  leads_reports s.openingErrors ((Leads.move .next _).cons (leads_program (.ofSource s)))

end Wordlang.Parser
