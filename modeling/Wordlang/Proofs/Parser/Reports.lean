import Wordlang.Proofs.Lexical.Table
import Wordlang.Proofs.Parser

/-!
# Parser, scanner and token table agree on lexical errors

All three read the same lexemes up to the first one that is reported with an error. The parser never
gets to the end of the input behind such a lexeme, and the table has no row behind it.
-/

namespace Wordlang

/-- A lexeme and what was reported while it was taken. -/
abbrev Reported := List LexicalError × Lexeme

/-- Either nothing is reported, or there is a first lexeme with a report. -/
theorem exists_first_report (ls : List Reported) :
    (∀ x ∈ ls, x.1 = []) ∨ ∃ before errors l after, ls = before ++ (errors, l) :: after ∧
      (∀ x ∈ before, x.1 = []) ∧ errors ≠ [] := by
  induction ls with
  | nil => exact .inl (by simp)
  | cons x ls ih =>
    obtain ⟨errors, l⟩ := x
    by_cases herrors : errors = []
    · subst herrors
      rcases ih with hnone | ⟨before, errors, m, after, rfl, hbefore, herrors⟩
      · exact .inl (by simpa using hnone)
      · exact .inr ⟨([], l) :: before, errors, m, after, rfl, by simpa using hbefore, herrors⟩
    · exact .inr ⟨[], errors, l, ls, rfl, by simp, herrors⟩

theorem cleanLexemes_append {before : List Reported} (h : ∀ x ∈ before, x.1 = [])
    (rest : List Reported) : cleanLexemes (before ++ rest) =
      (before.map Prod.snd ++ (cleanLexemes rest).1, (cleanLexemes rest).2) := by
  induction before with
  | nil => rfl
  | cons x before ih =>
    obtain ⟨errors, l⟩ := x
    obtain ⟨rfl, hbefore⟩ : errors = [] ∧ ∀ x ∈ before, x.1 = [] := by simpa using h
    rw [List.cons_append, cleanLexemes, ih hbefore]
    rfl

namespace TokenTable

theorem rows_append {before : List Reported} (h : ∀ x ∈ before, x.1 = []) (rest : List Reported) :
    rows [] (before ++ rest) = (before.map Prod.snd ++ (rows [] rest).1, (rows [] rest).2) := by
  induction before with
  | nil => rfl
  | cons x before ih =>
    obtain ⟨errors, l⟩ := x
    obtain ⟨rfl, hbefore⟩ : errors = [] ∧ ∀ x ∈ before, x.1 = [] := by simpa using h
    rw [List.cons_append, rows, List.nil_append, ih hbefore]
    rfl

/-- No row follows the one that something was reported before or with. -/
theorem rows_cons {seen errors : List LexicalError} (h : seen ++ errors ≠ []) (l : Lexeme)
    (rest : List Reported) : rows seen ((errors, l) :: rest) = ([l], seen ++ errors) := by
  obtain ⟨e, es, he⟩ := List.exists_cons_of_ne_nil h
  rw [rows, he]

end TokenTable

namespace Source

open TokenTable (heading row Tabulates)

theorem lexemes_ne_nil (s : Source) : s.lexemes ≠ [] := by
  rw [lexemes, takeAll]
  split <;> simp

/-- Either the source has no lexical error, or there is a first lexeme before or while the taking of
which one was reported. -/
theorem exists_first_error (s : Source) :
    (s.openingErrors = [] ∧ ∀ x ∈ s.lexemes, x.1 = []) ∨
      ∃ before errors l after, s.lexemes = before ++ (errors, l) :: after ∧
        (∀ x ∈ before, s.openingErrors = [] ∧ x.1 = []) ∧ s.openingErrors ++ errors ≠ [] := by
  by_cases hopening : s.openingErrors = []
  · rcases exists_first_report s.lexemes with hnone | ⟨before, errors, l, after, hls, hbefore, h⟩
    · exact .inl ⟨hopening, hnone⟩
    · refine .inr ⟨before, errors, l, after, hls, fun x hx => ⟨hopening, hbefore x hx⟩, ?_⟩
      simp [h]
  · obtain ⟨⟨errors, l⟩, after, hls⟩ := List.exists_cons_of_ne_nil s.lexemes_ne_nil
    exact .inr ⟨[], errors, l, after, hls, by simp, by simp [hopening]⟩

theorem lexicalErrors_eq_nil_iff (s : Source) :
    s.lexicalErrors = [] ↔ s.openingErrors = [] ∧ ∀ x ∈ s.lexemes, x.1 = [] := by
  rw [lexicalErrors, List.append_eq_nil_iff, List.flatMap_eq_nil_iff]

/-- A source with a lexical error is not parsed: the error cuts off the end of the input. -/
theorem lexicalErrors_of_parse {s : Source} {es : List Expr} (h : s.parse = .ok es) :
    s.lexicalErrors = [] := by
  rw [lexicalErrors_eq_nil_iff]
  obtain ⟨b, stop, rest, -, hyield⟩ := Parse.program_sound h
  rcases s.exists_first_error with hnone | ⟨before, errors, l, after, hls, hbefore, herrors⟩
  · exact hnone
  exfalso
  -- the parser is given what stands before the error, and the end of the input does not
  have hinput : b.yield ++ stop.val :: rest <+: before.map Prod.snd := by
    rw [hyield]
    cases hopening : s.openingErrors with
    | cons e es => exact List.nil_prefix
    | nil =>
      rw [hopening, List.nil_append] at herrors
      obtain ⟨e, es, rfl⟩ := List.exists_cons_of_ne_nil herrors
      rw [hls, cleanLexemes_append fun x hx => (hbefore x hx).2]
      simp [cleanLexemes]
  obtain ⟨more, hmore⟩ := hinput
  have hall : s.lexemes.map Prod.snd =
      b.yield ++ stop.val :: (rest ++ more ++ l :: after.map Prod.snd) := by
    rw [hls, List.map_append, ← hmore]
    simp
  have hnil := eq_nil_of_takeAll stop.property hall
  simp at hnil

/-- The table of a source without a lexical error has a row for every lexeme. -/
theorem tokenTable_of_no_error {s : Source} (h : s.lexicalErrors = []) :
    s.tokenTable = (heading ++ String.join (s.tokens.map row), []) := by
  obtain ⟨hopening, hnone⟩ := s.lexicalErrors_eq_nil_iff.1 h
  have hrows := TokenTable.rows_append hnone []
  rw [List.append_nil] at hrows
  rw [tokenTable, hopening, hrows]
  simp [TokenTable.rows, tokens]

/-- The table ends with the lexeme before or with which the first error was reported. -/
theorem tokenTable_of_error {s : Source} {before after : List Reported} {errors : List LexicalError}
    {l : Lexeme} (hls : s.lexemes = before ++ (errors, l) :: after)
    (hbefore : ∀ x ∈ before, s.openingErrors = [] ∧ x.1 = []) (h : s.openingErrors ++ errors ≠ []) :
    s.tokenTable = (heading ++ String.join ((before.map Prod.snd ++ [l]).map row),
      s.openingErrors ++ errors) := by
  have hrows : TokenTable.rows s.openingErrors s.lexemes =
      (before.map Prod.snd ++ [l], s.openingErrors ++ errors) := by
    rw [hls]
    cases before with
    | nil => exact TokenTable.rows_cons h l after
    | cons x before =>
      obtain ⟨hopening, -⟩ := hbefore x List.mem_cons_self
      rw [hopening] at h ⊢
      rw [TokenTable.rows_append fun x hx => (hbefore x hx).2, TokenTable.rows_cons h]
  rw [tokenTable, hrows]

/-- The parser, the scanner and the token table agree on lexical errors, and the parser reports
once. For every source:

* if it is parsed, it has no lexical error;
* the token table ends in no error if and only if there is none;
* it then has one row for every lexeme, up to and including the end of the input;
* otherwise its last row is the first before or while the lexeme of which was taken an error was
  reported;
* if the parser at work fails, it returns no expressions and has called the error handler once, with
  the first error; if it succeeds, it has never called it. -/
theorem lexical_errors_agree (s : Source) :
    (∀ es, s.parse = .ok es → s.lexicalErrors = []) ∧
    (s.tokenTable.2 = [] ↔ s.lexicalErrors = []) ∧
    (s.lexicalErrors = [] → Tabulates s.file s.tokenTable.1 s.tokens) ∧
    (s.lexicalErrors ≠ [] → ∃ before errors l after, s.lexemes = before ++ (errors, l) :: after ∧
      (∀ x ∈ before, s.openingErrors = [] ∧ x.1 = []) ∧ s.openingErrors ++ errors ≠ [] ∧
      Tabulates s.file s.tokenTable.1 (before.map Prod.snd ++ [l]) ∧
      s.tokenTable.2 = s.openingErrors ++ errors) ∧
    ∃ es p, Parser.program (.ofSource s) = (es, p) ∧ match s.parse with
      | .ok xs => es = xs ∧ p.first = none ∧ p.reports = []
      | .error e => es = [] ∧ p.first = some e ∧ p.reports = [e] := by
  have hfile : ∀ l ∈ s.tokens, l.pos.file = s.file := fun l hl => (has_of_mem_tokens hl).file_eq
  refine ⟨fun _ => lexicalErrors_of_parse, ⟨fun h => ?_, fun h => ?_⟩, fun h => ?_, fun h => ?_,
    _, _, rfl, Parser.ofSource_reports s⟩
  · rcases s.exists_first_error with hnone | ⟨before, errors, l, after, hls, hbefore, herrors⟩
    · exact s.lexicalErrors_eq_nil_iff.2 hnone
    · rw [tokenTable_of_error hls hbefore herrors] at h
      exact absurd h herrors
  · rw [tokenTable_of_no_error h]
  · rw [tokenTable_of_no_error h]
    exact TokenTable.tabulates hfile
  · rcases s.exists_first_error with hnone | ⟨before, errors, l, after, hls, hbefore, herrors⟩
    · exact absurd (s.lexicalErrors_eq_nil_iff.2 hnone) h
    · have htokens : s.tokens = (before.map Prod.snd ++ [l]) ++ after.map Prod.snd := by
        simp [tokens, hls]
      refine ⟨before, errors, l, after, hls, hbefore, herrors, ?_, ?_⟩
      · rw [tokenTable_of_error hls hbefore herrors]
        exact TokenTable.tabulates fun m hm =>
          hfile m (htokens ▸ List.mem_append_left _ hm)
      · rw [tokenTable_of_error hls hbefore herrors]

/-- A text with a stray byte in a name, which the parser notices while it looks at the name before. -/
def smudged : Source :=
  .ofBytes "f" (Text.Utf8.ofString "g x" ++ [0xff] ++ Text.Utf8.ofString "; 2")

/-- The table has the rows of the two names, below the heading. -/
theorem smudged_errors_agree :
    let e : SyntaxError := ⟨⟨"f", 1, 4⟩, .lexical .badEncoding⟩
    smudged.lexicalErrors ≠ [] ∧ smudged.tokenTable.2 ≠ [] ∧
      smudged.tokenTable.1.toList.count '\n' = 4 ∧ smudged.parse = .error e ∧
      ∃ p, Parser.program (.ofSource smudged) = ([], p) ∧ p.first = some e ∧ p.reports = [e] := by
  intro e
  obtain ⟨-, htable, -, -, es, p, hrun, hp⟩ := lexical_errors_agree smudged
  have herrors : smudged.lexicalErrors ≠ [] := by decide +kernel
  have hparse : smudged.parse = .error e := by
    have hinput : smudged.parserInput =
        ([⟨.name, "g", ⟨"f", 1, 1⟩⟩], some ⟨⟨"f", 1, 4⟩, .badEncoding⟩) := by
      decide +kernel
    rw [parse, hinput]
    cbv
  rw [hparse] at hp
  obtain ⟨rfl, hfirst, hreports⟩ := hp
  exact ⟨herrors, mt htable.1 herrors, by decide +kernel, hparse, p, hrun, hfirst, hreports⟩

end Source

end Wordlang
