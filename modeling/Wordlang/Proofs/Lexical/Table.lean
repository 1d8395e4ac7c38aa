import Wordlang.Proofs.Lexical.Naming
import Wordlang.Proofs.Outline
import Wordlang.Proofs.Scanner.Places
import Wordlang.Token.Table

/-!
# Rows of the token table

The row of a lexeme shows where it stands, of what kind it is, and its text between quotes. All three
can be told from the row. It is a single line, unless there is a line break in the name of the file;
otherwise a table therefore has two lines more than it has rows, which are those of the heading.
-/

namespace Wordlang

/-! ## Literals -/

/-- Reads a literal as the table shows it: behind a backslash, a letter stands for a line end or a
tab, and anything else for itself. -/
def readLiteral : List Char → List Char
  | '\\' :: c :: cs =>
    (if c = 'n' then '\n' else if c = 't' then '\t' else if c = 'r' then '\r' else c) ::
      readLiteral cs
  | c :: cs => c :: readLiteral cs
  | [] => []

/-- A character is shown as it is, or as two of which the first is a backslash. -/
theorem literalChar_spec (c : Char) :
    (literalChar c = [c] ∧ c ≠ '"' ∧ c ≠ '\\' ∧ c ≠ '\n') ∨
      ∃ d, literalChar c = ['\\', d] ∧ d ≠ ' ' ∧ d ≠ '\n' ∧
        (if d = 'n' then '\n' else if d = 't' then '\t' else if d = 'r' then '\r' else d) = c := by
  unfold literalChar
  split
  · exact .inr ⟨'n', rfl, by decide⟩
  · exact .inr ⟨'t', rfl, by decide⟩
  · exact .inr ⟨'r', rfl, by decide⟩
  · exact .inr ⟨'\\', rfl, by decide⟩
  · exact .inr ⟨'"', rfl, by decide⟩
  · next hfeed _ _ hslash hquote => exact .inl ⟨rfl, hquote, hslash, hfeed⟩

theorem readLiteral_flatMap (cs : List Char) : readLiteral (cs.flatMap literalChar) = cs := by
  induction cs with
  | nil => rfl
  | cons c cs ih =>
    rw [List.flatMap_cons]
    rcases literalChar_spec c with ⟨hc, -, hslash, -⟩ | ⟨d, hc, -, -, hd⟩
    · rw [hc, List.singleton_append, readLiteral.eq_2 _ _ fun _ _ heq _ => hslash heq, ih]
    · rw [hc, List.cons_append, List.singleton_append, readLiteral, hd, ih]

theorem lineFeed_notMem_literalChar (c : Char) : '\n' ∉ literalChar c := by
  rcases literalChar_spec c with ⟨hc, -, -, hfeed⟩ | ⟨d, hc, -, hfeed, -⟩
  · simp [hc, Ne.symm hfeed]
  · simp [hc, Ne.symm hfeed]

/-- No literal starts with a quote of its own. -/
theorem literal_ne_quote (cs ds : List Char) : cs.flatMap literalChar ≠ '"' :: ds := by
  cases cs with
  | nil => exact List.cons_ne_nil _ _ ∘ Eq.symm
  | cons c cs =>
    intro h
    rw [List.flatMap_cons] at h
    rcases literalChar_spec c with ⟨hc, hquote, -⟩ | ⟨d, hc, -⟩
    · rw [hc] at h
      exact hquote (List.cons.inj h).1
    · rw [hc] at h
      exact absurd (List.cons.inj h).1 (by decide)

/-- Before a quote in a literal stands a backslash, and so no space. -/
theorem literal_ne_space_quote (cs as bs : List Char) :
    cs.flatMap literalChar ≠ as ++ ' ' :: '"' :: bs := by
  induction cs generalizing as with
  | nil => simp
  | cons c cs ih =>
    intro h
    rw [List.flatMap_cons] at h
    rcases literalChar_spec c with ⟨hc, -⟩ | ⟨d, hc, hspace, -⟩
    · rw [hc, List.singleton_append] at h
      cases as with
      | nil => exact literal_ne_quote _ _ (List.cons.inj h).2
      | cons a as => exact ih as (List.cons.inj h).2
    · rw [hc, List.cons_append, List.singleton_append] at h
      match as with
      | [] => exact absurd (List.cons.inj h).1 (by decide)
      | [a] => exact hspace (List.cons.inj (List.cons.inj h).2).1
      | a :: b :: as => exact ih as (List.cons.inj (List.cons.inj h).2).2

/-! ## Columns -/

/-- A shift would put the opening quote of one column into the literal of the other. -/
theorem literal_shift {cs ds es : List Char}
    (h : ' ' :: '"' :: cs.flatMap literalChar = es ++ ' ' :: '"' :: ds.flatMap literalChar) :
    es = [] ∧ cs = ds := by
  match es with
  | [] =>
    have hsame := congrArg readLiteral (List.cons.inj (List.cons.inj h).2).2
    rw [readLiteral_flatMap, readLiteral_flatMap] at hsame
    exact ⟨rfl, hsame⟩
  | [e] => exact absurd (List.cons.inj (List.cons.inj h).2).1 (by decide)
  | e :: e' :: es =>
    exact absurd (List.cons.inj (List.cons.inj h).2).2 (literal_ne_space_quote _ _ _)

/-- The last column is told from the quote that opens it, before which stands a space. -/
theorem literal_unique {as bs cs ds : List Char}
    (h : as ++ ' ' :: '"' :: (cs.flatMap literalChar ++ ['"']) =
      bs ++ ' ' :: '"' :: (ds.flatMap literalChar ++ ['"'])) : as = bs ∧ cs = ds := by
  have hfront : as ++ ' ' :: '"' :: cs.flatMap literalChar =
      bs ++ ' ' :: '"' :: ds.flatMap literalChar := by
    apply (List.append_left_inj ['"']).1
    simpa only [List.append_assoc, List.cons_append] using h
  rcases List.append_eq_append_iff.1 hfront with ⟨es, hbs, htail⟩ | ⟨es, has, htail⟩
  · obtain ⟨rfl, hsame⟩ := literal_shift htail
    exact ⟨by rw [hbs, List.append_nil], hsame⟩
  · obtain ⟨rfl, hsame⟩ := literal_shift htail
    exact ⟨by rw [has, List.append_nil], hsame.symm⟩

/-- What stands before trailing spaces is told from the last other character. -/
theorem trailing_unique {as bs : List Char} {m n : Nat} (has : as.getLast? ≠ some ' ')
    (hbs : bs.getLast? ≠ some ' ')
    (h : as ++ List.replicate m ' ' = bs ++ List.replicate n ' ') : as = bs := by
  have hreverse := congrArg List.reverse h
  rw [List.reverse_append, List.reverse_append, List.reverse_replicate,
    List.reverse_replicate] at hreverse
  obtain ⟨-, hsame⟩ := replicate_append_inj (List.head?_reverse ▸ has) (List.head?_reverse ▸ hbs)
    hreverse
  exact List.reverse_inj.1 hsame

theorem getLast?_column {as cs : List Char} (hcs : ' ' ∉ cs) (hne : cs ≠ []) :
    (as ++ ' ' :: cs).getLast? ≠ some ' ' := by
  intro hspace
  rw [List.append_cons, List.getLast?_append_of_ne_nil _ hne] at hspace
  exact hcs (List.mem_of_getLast? hspace)

/-- A column without spaces is told from those on both sides. -/
theorem column_unique {as bs cs ds : List Char} {m n : Nat} (hcs : ' ' ∉ cs) (hds : ' ' ∉ ds)
    (hne : cs ≠ []) (hne' : ds ≠ [])
    (h : as ++ ' ' :: (cs ++ List.replicate m ' ') = bs ++ ' ' :: (ds ++ List.replicate n ' ')) :
    as = bs ∧ cs = ds := by
  have hfront : as ++ ' ' :: cs = bs ++ ' ' :: ds := by
    apply trailing_unique (m := m) (n := n) (getLast?_column hcs hne) (getLast?_column hds hne')
    simpa only [List.append_assoc, List.cons_append] using h
  have hreverse := congrArg List.reverse hfront
  simp only [List.reverse_append, List.reverse_cons, List.append_assoc,
    List.singleton_append] at hreverse
  obtain ⟨hsame, hrest⟩ := split_unique (mt List.mem_reverse.1 hcs) (mt List.mem_reverse.1 hds)
    hreverse
  exact ⟨List.reverse_inj.1 hrest, List.reverse_inj.1 hsame⟩

/-- The text of a position does not end with a space. -/
theorem Position.getLast?_text (p : Position) : p.text.toList.getLast? ≠ some ' ' := by
  cases hp : p.isKnown with
  | false =>
    rw [text_of_unknown hp]
    decide
  | true =>
    have hcolumn : ' ' ∉ ':' :: (toString p.column.toNat).toList :=
      List.not_mem_cons_of_ne_of_not_mem (by decide) (notMem_natText rfl _)
    rw [toList_text hp, ← List.append_assoc,
      List.getLast?_append_of_ne_nil _ (List.cons_ne_nil _ _)]
    exact fun hspace => hcolumn (List.mem_of_getLast? hspace)

theorem Token.label_spec (t : Token) :
    t.label.toList ≠ [] ∧ ' ' ∉ t.label.toList ∧ '\n' ∉ t.label.toList := by
  cases t <;> decide

/-! ## Rows -/

namespace TokenTable

variable {text : String} {l : Lexeme} {file : String} {ls : List Lexeme}

/-- The text has three columns: the position, the kind and the literal of the lexeme, the last of
them between quotes. -/
def HasColumns (text : String) (l : Lexeme) : Prop := ∃ m n,
  text.toList = l.pos.text.toList ++ List.replicate m ' ' ++ ' ' ::
    (l.token.label.toList ++ List.replicate n ' ') ++
      ' ' :: '"' :: (l.text.toList.flatMap literalChar ++ ['"'])

/-- The columns tell the kind and the text of the lexeme, and its position as far as it is shown. -/
theorem HasColumns.unique {l' : Lexeme} (h : HasColumns text l) (h' : HasColumns text l')
    (hfile : l.pos.file = l'.pos.file) :
    l.pos.shown = l'.pos.shown ∧ l.token = l'.token ∧ l.text = l'.text := by
  obtain ⟨m, n, htext⟩ := h
  obtain ⟨m', n', htext'⟩ := h'
  obtain ⟨hfront, hliteral⟩ := literal_unique (htext.symm.trans htext')
  obtain ⟨hne, hspace, -⟩ := l.token.label_spec
  obtain ⟨hne', hspace', -⟩ := l'.token.label_spec
  obtain ⟨hposition, hlabel⟩ := column_unique hspace hspace' hne hne' hfront
  have hpos := trailing_unique l.pos.getLast?_text l'.pos.getLast?_text hposition
  exact ⟨Position.shown_of_text hfile (String.toList_inj.1 hpos),
    Token.label_injective (String.toList_inj.1 hlabel), String.toList_inj.1 hliteral⟩

/-- The text shows the lexeme: it has its columns, and those of no lexeme of another kind, with
another text or at another place of the file. It is a single line, unless there is a line break in
the name of the file. -/
structure Shows (text : String) (l : Lexeme) : Prop where
  columns : HasColumns text l
  only : ∀ l' : Lexeme, l'.pos.file = l.pos.file → HasColumns text l' →
    l'.pos.shown = l.pos.shown ∧ l'.token = l.token ∧ l'.text = l.text
  unbroken : '\n' ∉ l.pos.file.toList → '\n' ∉ text.toList

/-- A row is a text that shows the lexeme, and a line break. -/
theorem row_shows (l : Lexeme) : ∃ text, row l = text ++ "\n" ∧ Shows text l := by
  have hcolumns : HasColumns (padRight 20 l.pos.text ++ " " ++ padRight 12 l.token.label ++ " " ++
      showLiteral l.text) l := by
    refine ⟨20 - l.pos.text.length, 12 - l.token.label.length, ?_⟩
    simp [padRight, showLiteral]
  refine ⟨_, rfl, hcolumns, fun l' hfile h' => h'.unique hcolumns hfile, fun hfile => ?_⟩
  obtain ⟨m, n, htext⟩ := hcolumns
  obtain ⟨-, -, hlabel⟩ := l.token.label_spec
  rw [htext]
  simp [Position.lineFeed_notMem_text hfile, hlabel, lineFeed_notMem_literalChar]

/-- The table is the heading and a row for each of the lexemes, which are from the file. Unless there
is a line break in the name of the file, the table has a line for each of them and two more. -/
structure Tabulates (file table : String) (ls : List Lexeme) : Prop where
  text : table = heading ++ String.join (ls.map row)
  rows : ∀ l ∈ ls, l.pos.file = file ∧ ∃ text, row l = text ++ "\n" ∧ Shows text l
  lines : '\n' ∉ file.toList → table.toList.count '\n' = ls.length + 2

theorem count_row (hfile : '\n' ∉ l.pos.file.toList) : (row l).toList.count '\n' = 1 := by
  obtain ⟨text, hrow, hshows⟩ := row_shows l
  rw [hrow, String.toList_append, List.count_append, List.count_eq_zero.2 (hshows.unbroken hfile)]
  rfl

theorem count_rows (hls : ∀ l ∈ ls, '\n' ∉ l.pos.file.toList) :
    (String.join (ls.map row)).toList.count '\n' = ls.length := by
  induction ls with
  | nil => rfl
  | cons l ls ih =>
    obtain ⟨hl, hls⟩ := List.forall_mem_cons.1 hls
    rw [List.map_cons, String.join_cons, String.toList_append, List.count_append, count_row hl,
      ih hls, List.length_cons, Nat.add_comm]

theorem tabulates (h : ∀ l ∈ ls, l.pos.file = file) :
    Tabulates file (heading ++ String.join (ls.map row)) ls where
  text := rfl
  rows := fun l hl => ⟨h l hl, row_shows l⟩
  lines := by
    intro hfile
    have hheading : heading.toList.count '\n' = 2 := by decide +kernel
    have hrows := count_rows fun l hl => (h l hl).symm ▸ hfile
    rw [String.toList_append, List.count_append, hheading, hrows, Nat.add_comm]

end TokenTable

end Wordlang
