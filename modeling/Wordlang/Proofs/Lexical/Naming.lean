import Wordlang.Proofs.Lexical.Scan
import Wordlang.Proofs.Quoted

/-!
# What messages say of lexemes

A message that something else was expected ends by naming the lexeme that was found: last stands the
name, the number, the string between quotes or the mark itself, as it is in the source. From the
whole message it can be told which kind of lexeme was found, and with which text.
-/

namespace Wordlang

open Lexical

/-! ## Names of lexemes -/

/-- What a message writes of a lexeme: a string between quotes, the end of the input by its name, and
everything else as it stands in the source. -/
def Lexeme.written (l : Lexeme) : String :=
  if l.token = .string then Text.quote l.text
  else if l.token = .eof then "EOF"
  else l.text

/-- The lexeme is the end of the input or a token of the grammar, and no error. -/
structure Lexeme.Genuine (l : Lexeme) : Prop where
  clean : l.token ≠ .error
  form : (l.token = .eof ∧ l.text = "") ∨ ∃ rest text, TokenText rest text l.token l.text

theorem Source.genuine_of_mem_tokens {s : Source} (h : s.lexicalErrors = []) {l : Lexeme}
    (hl : l ∈ s.tokens) : l.Genuine :=
  ⟨token_ne_error h hl, tokenText_of_mem_tokens hl⟩

/-- Of a delimiter, the kind is called by the character. -/
theorem label_of_delimiter {c : Char} {t : Token} (h : (c, t) ∈ delimiters) :
    t.label = String.singleton c := by
  have hall : ∀ p ∈ delimiters, p.2.label = String.singleton p.1 := by decide
  exact hall (c, t) h

theorem Token.label_injective : Function.Injective Token.label := by
  have hfind : ∀ t : Token, Token.all.find? (·.label = t.label) = some t := by
    intro t
    cases t <;> decide
  intro t t' h
  have ht := hfind t
  rw [h, hfind t'] at ht
  exact (Option.some.inj ht).symm

/-- A token that is neither a name nor a literal, and so has one text only. -/
def Token.IsMark (t : Token) : Prop := t ∉ [.name, .int, .float, .string]

namespace Lexeme

variable {l l' : Lexeme}

theorem Genuine.text_of_mark (h : l.Genuine) (hmark : l.token.IsMark) :
    l.text = if l.token = .eof then "" else l.token.label := by
  rcases h.form with ⟨htoken, htext⟩ | ⟨rest, text, htext⟩
  · rw [if_pos htoken, htext]
  · rw [if_neg htext.kind_ne_eof]
    obtain ⟨t, literal, pos⟩ := l
    have hother : ∀ u ∈ [Token.name, .int, .float, .string], u ≠ t :=
      fun u hu heq => hmark (heq ▸ hu)
    cases htext with
    | delimiter entry => exact (label_of_delimiter entry).symm
    | emptyString | unterminated => exact absurd rfl h.clean
    | string => exact absurd rfl (hother _ (by simp))
    | word _ _ _ kind =>
      cases kind with
      | atSign => rfl
      | overflow => exact absurd rfl h.clean
      | int | float | name => exact absurd rfl (hother _ (by simp))

/-- A number is a word of its kind. -/
theorem Genuine.word (h : l.Genuine) (hl : l.token = .int ∨ l.token = .float) :
    (∀ c ∈ l.text.toList, InWord c) ∧ WordKind l.text.toList l.token := by
  obtain ⟨t, literal, pos⟩ := l
  have hother : t ≠ .eof ∧ t ≠ .string ∧ t ≠ .error ∧ t ∉ delimiters.map Prod.snd := by
    rcases hl with rfl | rfl <;> decide
  obtain ⟨heof, hstring, herror, hdelim⟩ := hother
  rcases h.form with ⟨htoken, -⟩ | ⟨rest, text, htext⟩
  · exact absurd htoken heof
  · cases htext with
    | delimiter entry => exact absurd (List.mem_map_of_mem entry) hdelim
    | string => exact absurd rfl hstring
    | emptyString | unterminated => exact absurd rfl herror
    | word _ chars _ kind =>
      show (∀ c ∈ (String.ofList text).toList, InWord c) ∧ WordKind (String.ofList text).toList t
      rw [String.toList_ofList]
      exact ⟨chars, kind⟩

/-! ## Labels -/

theorem label_name (h : l.token = .name) : l.label = "name " ++ l.text := by
  rw [label, h]

theorem label_number (h : l.token = .int ∨ l.token = .float) : l.label = "literal " ++ l.text := by
  rcases h with h | h
  · rw [label, h]
  · rw [label, h]

theorem label_string (h : l.token = .string) : l.label = "literal " ++ Text.quote l.text := by
  rw [label, h]

theorem label_mark (h : l.token.IsMark) : l.label = l.token.label := by
  obtain ⟨t, text, pos⟩ := l
  cases t with
  | name | int | float | string => simp [Token.IsMark] at h
  | _ => rfl

/-- How a label starts: as that of a name, of a number, of a string or of a mark. -/
def labelSort (label : String) : Nat :=
  match label.toList with
  | 'n' :: _ => 0
  | 'l' :: cs => if cs[7]? = some '"' then 2 else 1
  | _ => 3

/-- The kinds of lexemes that are named in one way, and how the label then starts. -/
inductive Sorted (l : Lexeme) : Nat → Prop where
  | name (h : l.token = .name) : Sorted l 0
  | number (h : l.token = .int ∨ l.token = .float) : Sorted l 1
  | string (h : l.token = .string) : Sorted l 2
  | mark (h : l.token.IsMark) : Sorted l 3

theorem Genuine.sorted (h : l.Genuine) : l.Sorted (labelSort l.label) := by
  have hkinds : l.token = .name ∨ (l.token = .int ∨ l.token = .float) ∨ l.token = .string ∨
      l.token.IsMark := by
    cases l.token <;> simp [Token.IsMark]
  rcases hkinds with hname | hnumber | hstring | hmark
  · have hsort : labelSort l.label = 0 := by
      rw [label_name hname]
      simp [labelSort]
    exact hsort ▸ .name hname
  · have hhead : l.text.toList[0]? ≠ some '"' := fun hquote =>
      ((h.word hnumber).1 _ (List.mem_of_getElem? hquote)).2.1 rfl
    have hsort : labelSort l.label = 1 := by
      rw [label_number hnumber]
      simp [labelSort, hhead]
    exact hsort ▸ .number hnumber
  · have hsort : labelSort l.label = 2 := by
      rw [label_string hstring]
      simp [labelSort, Text.toList_quote]
    exact hsort ▸ .string hstring
  · have hsort : labelSort l.label = 3 := by
      rw [label_mark hmark]
      unfold Token.IsMark at hmark
      cases ht : l.token with
      | name | int | float | string => simp [ht] at hmark
      | _ => decide
    exact hsort ▸ .mark hmark

/-- The label of a lexeme tells its kind and its text. -/
theorem key_eq_of_label (h : l.Genuine) (h' : l'.Genuine) (heq : l.label = l'.label) :
    l.token = l'.token ∧ l.text = l'.text := by
  have hsorted := h.sorted
  have hsorted' := h'.sorted
  rw [← heq] at hsorted'
  generalize labelSort l.label = sort at hsorted hsorted'
  cases hsorted with
  | name hl =>
    cases hsorted' with
    | name hl' =>
      rw [label_name hl, label_name hl', String.append_right_inj] at heq
      exact ⟨hl.trans hl'.symm, heq⟩
  | number hl =>
    cases hsorted' with
    | number hl' =>
      rw [label_number hl, label_number hl', String.append_right_inj] at heq
      have hword := (h.word hl).2.classifyWord_eq
      rw [heq, (h'.word hl').2.classifyWord_eq] at hword
      exact ⟨hword.symm, heq⟩
  | string hl =>
    cases hsorted' with
    | string hl' =>
      rw [label_string hl, label_string hl', String.append_right_inj] at heq
      refine ⟨hl.trans hl'.symm, (Text.quote_append_inj (u := "") (v := "") ?_).1⟩
      rw [heq]
  | mark hl =>
    cases hsorted' with
    | mark hl' =>
      rw [label_mark hl, label_mark hl'] at heq
      have htoken := Token.label_injective heq
      exact ⟨htoken, by rw [h.text_of_mark hl, h'.text_of_mark hl', htoken]⟩

/-- At the end of the label stands what is written of the lexeme. -/
theorem Genuine.exists_label (h : l.Genuine) : ∃ start, l.label = start ++ l.written := by
  have hsorted := h.sorted
  generalize labelSort l.label = sort at hsorted
  cases hsorted with
  | name hl =>
    refine ⟨"name ", ?_⟩
    rw [label_name hl, written, hl]
    rfl
  | number hl =>
    refine ⟨"literal ", ?_⟩
    rcases hl with hl | hl
    all_goals
      rw [label_number (by simp [hl]), written, hl]
      rfl
  | string hl =>
    refine ⟨"literal ", ?_⟩
    rw [label_string hl, written, if_pos hl]
  | mark hl =>
    refine ⟨"", ?_⟩
    have hstring : l.token ≠ .string := fun ht => hl (by simp [ht])
    rw [label_mark hl, String.empty_append, written, if_neg hstring, h.text_of_mark hl]
    by_cases heof : l.token = .eof
    · rw [if_pos heof, heof]
      rfl
    · rw [if_neg heof, if_neg heof]

end Lexeme

/-! ## Messages -/

/-- Everything that can be looked for. -/
def Expected.all : List Expected := .expression :: .separator :: Token.all.map .token

theorem Expected.mem_all (want : Expected) : want ∈ all := by
  cases want with
  | token t => cases t <;> decide
  | _ => decide

/-- The message that something was expected, up to what was found. -/
def Expected.opening (want : Expected) : String := "expected " ++ want.label ++ ", found "

/-- How such a message opens can be told from the whole message. -/
theorem Expected.opening_append_inj {want want' : Expected} {a b : String}
    (h : want.opening ++ a = want'.opening ++ b) : a = b := by
  have hall : ∀ w ∈ all, ∀ w' ∈ all, w.opening.toList <+: w'.opening.toList →
      w.opening = w'.opening := by
    decide +kernel
  have hchars := congrArg String.toList h
  rw [String.toList_append, String.toList_append] at hchars
  have hprefix := hchars ▸ List.prefix_append want.opening.toList a.toList
  have hsame : want.opening = want'.opening := by
    rcases List.prefix_or_prefix_of_prefix hprefix (List.prefix_append _ _) with h | h
    · exact hall _ want.mem_all _ want'.mem_all h
    · exact (hall _ want'.mem_all _ want.mem_all h).symm
  rwa [hsame, String.append_right_inj] at h

/-- The message says that the lexeme was found where something else was expected, and ends by naming
it: last stands what is written of it, and no other kind of lexeme and no other text would give this
message. -/
structure Names (message : String) (l : Lexeme) : Prop where
  found : ∃ want : Expected, message = "expected " ++ want.label ++ ", found " ++ l.label
  ending : ∃ start, message = start ++ l.written
  only : ∀ l' : Lexeme, l'.Genuine → ∀ want : Expected,
    message = "expected " ++ want.label ++ ", found " ++ l'.label →
      l'.token = l.token ∧ l'.text = l.text

theorem names_unexpected (want : Expected) {l : Lexeme} (h : l.Genuine) :
    Names (SyntaxFault.message (.unexpected want l)) l where
  found := ⟨want, rfl⟩
  ending := by
    obtain ⟨start, hstart⟩ := h.exists_label
    exact ⟨want.opening ++ start, by rw [String.append_assoc, ← hstart]; rfl⟩
  only := fun _ h' _ heq =>
    Lexeme.key_eq_of_label h' h (Expected.opening_append_inj heq.symm)

end Wordlang
