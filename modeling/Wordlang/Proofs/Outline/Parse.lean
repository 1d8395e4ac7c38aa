import Wordlang.Proofs.Notation
import Wordlang.Proofs.Outline
import Wordlang.Proofs.Scanner.Places
import Wordlang.Proofs.Shape.Parse

/-!
# Outlines of parsed programs

Every position in a tree that was parsed is that of a lexeme, so it is in the file of the source,
and it is known unless the source has more lines than a machine word can count. The outlines of two
programs that were parsed under one file name are therefore the same only if the programs are, up to
positions in lines that were not counted, which are not shown.
-/

namespace Wordlang

open Text (Glyph)
open Grammar

/-! ## Positions in trees -/

namespace Grammar

variable {P : Position → Prop}

theorem Atom.forall_positions (a : Atom) (h : P a.lexeme.pos) : ∀ p ∈ a.tree.positions, P p := by
  cases a <;> exact List.forall_mem_singleton.2 h

theorem NameList.forall_positions (ns : NameList) (h : ∀ l ∈ ns.yield, P l.pos) :
    ∀ p ∈ Expr.positionsAll ns.trees, P p := by
  induction ns with
  | last name close => exact List.forall_mem_singleton.2 (h _ List.mem_cons_self)
  | more name comma ns ih =>
    obtain ⟨hname, hrest⟩ := List.forall_mem_cons.1 h
    exact List.forall_mem_cons.2 ⟨hname, ih (List.forall_mem_cons.1 hrest).2⟩

theorem Params.forall_positions (ps : Params) (h : ∀ l ∈ ps.yield, P l.pos) :
    ∀ p ∈ Expr.positionsAll ps.trees, P p := by
  cases ps with
  | empty close => exact fun _ hp => nomatch hp
  | list ns => exact ns.forall_positions h

mutual

/-- What is true of the positions of the lexemes is true of those in the tree. -/
theorem Phrase.forall_positions : ∀ d : Phrase, (∀ l ∈ d.yield, P l.pos) →
    ∀ p ∈ d.tree.positions, P p
  | .assign name sign v, h => by
    simp only [Phrase.yield, List.forall_mem_cons] at h
    exact List.forall_mem_cons.2 ⟨h.1, v.forall_positions h.2.2⟩
  | .call name paren args, h => by
    simp only [Phrase.yield, List.forall_mem_cons] at h
    exact List.forall_mem_cons.2 ⟨h.1, args.forall_positions h.2.2⟩
  | .function paren params brace body close, h => by
    simp only [Phrase.yield, List.forall_mem_cons, List.forall_mem_append] at h
    obtain ⟨hparen, hparams, -, hbody, -⟩ := h
    exact List.forall_mem_cons.2 ⟨hparen, List.forall_mem_append.2
      ⟨params.forall_positions hparams, body.forall_positions hbody⟩⟩
  | .atom a, h => by
    rw [Phrase.tree]
    exact a.forall_positions (h _ List.mem_cons_self)
  | .operation a op rhs, h => by
    simp only [Phrase.yield, List.forall_mem_cons] at h
    obtain ⟨ha, -, hrhs⟩ := h
    rw [Phrase.tree, Expr.positions, Expr.positionsAll, Expr.positionsAll, Expr.positionsAll,
      List.append_nil]
    exact List.forall_mem_cons.2 ⟨ha, List.forall_mem_append.2
      ⟨a.forall_positions ha, rhs.forall_positions hrhs⟩⟩

theorem Args.forall_positions : ∀ d : Args, (∀ l ∈ d.yield, P l.pos) →
    ∀ p ∈ Expr.positionsAll d.trees, P p
  | .empty _, _ => fun _ hp => nomatch hp
  | .list l, h => l.forall_positions h

theorem ArgList.forall_positions : ∀ d : ArgList, (∀ l ∈ d.yield, P l.pos) →
    ∀ p ∈ Expr.positionsAll d.trees, P p
  | .last e _, h => by
    simp only [ArgList.yield, List.forall_mem_append] at h
    rw [ArgList.trees, Expr.positionsAll, Expr.positionsAll, List.append_nil]
    exact e.forall_positions h.1
  | .more e _ rest, h => by
    simp only [ArgList.yield, List.forall_mem_append, List.forall_mem_cons] at h
    exact List.forall_mem_append.2 ⟨e.forall_positions h.1, rest.forall_positions h.2.2⟩

theorem Block.forall_positions : ∀ d : Block, (∀ l ∈ d.yield, P l.pos) →
    ∀ p ∈ Expr.positionsAll d.trees, P p
  | .empty, _ => fun _ hp => nomatch hp
  | .list l, h => l.forall_positions h

theorem Phrases.forall_positions : ∀ d : Phrases, (∀ l ∈ d.yield, P l.pos) →
    ∀ p ∈ Expr.positionsAll d.trees, P p
  | .last e, h => by
    rw [Phrases.trees, Expr.positionsAll, Expr.positionsAll, List.append_nil]
    exact e.forall_positions h
  | .ended e _, h => by
    simp only [Phrases.yield, List.forall_mem_append] at h
    rw [Phrases.trees, Expr.positionsAll, Expr.positionsAll, List.append_nil]
    exact e.forall_positions h.1
  | .more e _ rest, h => by
    simp only [Phrases.yield, List.forall_mem_append, List.forall_mem_cons] at h
    exact List.forall_mem_append.2 ⟨e.forall_positions h.1, rest.forall_positions h.2.2⟩

end

end Grammar

/-! ## Outlines of what was parsed -/

namespace Source

variable {s : Source} {es : List Expr}

/-- Every position in a tree that was parsed is one of the source. -/
theorem has_of_parse (h : s.parse = .ok es) : ∀ p ∈ Expr.positionsAll es, s.Has p := by
  obtain ⟨b, rfl, hyield⟩ := exists_block_of_parse h
  exact b.forall_positions fun l hl => has_of_mem_tokens (hyield hl)

theorem readableAll_of_parse (h : s.parse = .ok es) : Expr.ReadableAll s.file es :=
  Expr.readableAll_iff.2 ⟨shapedAll_of_parse h, fun p hp => (has_of_parse h p hp).file_eq⟩

/-- Of a tree from a source that has a word for each of its lines, every position is shown. -/
theorem isKnown_of_parse (h : s.parse = .ok es)
    (hlines : s.glyphs.count (.char '\n') < 2 ^ 32 - 1) :
    ∀ p ∈ Expr.positionsAll es, p.isKnown = true :=
  fun p hp => (has_of_parse h p hp).isKnown hlines

/-- Outlines are unambiguous. Two programs that were parsed under one file name without a line break
have the same outline if and only if they are the same up to the positions of the targets of
assignments and of callees, which are not shown at all, and positions that are not known, which are
shown as a dash. Known are all of them unless a source has more lines than a word can count. -/
theorem outline_unambiguous {s s' : Source} {es es' : List Expr} (hfile : s.file = s'.file)
    (hbreak : '\n' ∉ s.file.toList) (h : s.parse = .ok es) (h' : s'.parse = .ok es') :
    (Expr.outlineAll es = Expr.outlineAll es' ↔
      Expr.unlabelledAll Position.shown es = Expr.unlabelledAll Position.shown es') ∧
    (s.glyphs.count (.char '\n') < 2 ^ 32 - 1 → Expr.outlineAll es = Expr.outlineAll es' →
      Expr.unlabelledAll id es = Expr.unlabelledAll id es') := by
  have hreadable' : Expr.ReadableAll s.file es' := by
    rw [hfile]
    exact readableAll_of_parse h'
  have hiff := Expr.outlineAll_eq_iff hbreak (readableAll_of_parse h) hreadable'
  exact ⟨hiff, fun hlines heq =>
    Expr.unlabelledAll_of_known (isKnown_of_parse h hlines) (hiff.1 heq)⟩

/-- A sum whose operator stands close to the left operand. -/
def leftSum : Source := .ofBytes "f" (Text.Utf8.ofString "1 +  2")

/-- A sum whose operator stands close to the right operand. -/
def rightSum : Source := .ofBytes "f" (Text.Utf8.ofString "1  + 2")

/-- The derivation of a sum of two numbers. -/
def sumDerivation (s : Source) : Grammar.Program where
  block := .list (.last (.operation (.int (s.terminal 0)) (s.terminal 1)
    (.atom (.int (s.terminal 2)))))
  stop := s.terminal 3

/-- The operator stands at another place, which the outline does not show. -/
theorem sum_outlines :
    leftSum.parse = .ok leftSum.sumDerivation.trees ∧
    rightSum.parse = .ok rightSum.sumDerivation.trees ∧
    Expr.labelPositionsAll leftSum.sumDerivation.trees ≠
      Expr.labelPositionsAll rightSum.sumDerivation.trees ∧
    Expr.outlineAll leftSum.sumDerivation.trees = Expr.outlineAll rightSum.sumDerivation.trees ∧
    Expr.unlabelledAll id leftSum.sumDerivation.trees =
      Expr.unlabelledAll id rightSum.sumDerivation.trees := by
  have hleft : leftSum.parse = .ok leftSum.sumDerivation.trees :=
    (parse_eq_ok_iff (by decide +kernel) _).2 ⟨leftSum.sumDerivation, by decide +kernel, rfl⟩
  have hright : rightSum.parse = .ok rightSum.sumDerivation.trees :=
    (parse_eq_ok_iff (by decide +kernel) _).2 ⟨rightSum.sumDerivation, by decide +kernel, rfl⟩
  have hmoved : Expr.labelPositionsAll leftSum.sumDerivation.trees ≠
      Expr.labelPositionsAll rightSum.sumDerivation.trees := by decide +kernel
  have hsame : Expr.outlineAll leftSum.sumDerivation.trees =
      Expr.outlineAll rightSum.sumDerivation.trees := by decide +kernel
  have hfile : leftSum.file = rightSum.file := rfl
  exact ⟨hleft, hright, hmoved, hsame,
    (outline_unambiguous hfile (by decide) hleft hright).2 (by decide +kernel) hsame⟩

/-! ## Lines that a word does not count -/

open Lexical (Blank)

/-- A text of which only a name is left when the blanks in front of it are taken away. -/
def indented (blanks : List Char) : Source := ofText "f" (String.ofList (blanks ++ ['x']))

/-- The position behind the blanks. -/
def behind (blanks : List Char) : Position := positionAfter ⟨"f", 1, 1⟩ (blanks.map .char)

variable {blanks : List Char}

theorem tokens_indented (h : ∀ c ∈ blanks, Blank c) : (indented blanks).tokens =
    [⟨.name, "x", behind blanks⟩, ⟨.eof, "", (indented blanks).stop⟩] := by
  have hlocated : (indented blanks).located =
      locate ⟨"f", 1, 1⟩ (blanks.map .char) ++ [⟨.char 'x', behind blanks⟩] := by
    rw [located, indented, glyphs_ofText, String.toList_ofList, List.map_append, locate_append]
    rfl
  have hdrop : (indented blanks).located.dropWhile (isBlank ·.char) =
      [⟨.char 'x', behind blanks⟩] := by
    rw [hlocated, List.dropWhile_append_of_pos]
    · rfl
    · intro l hl
      have hchar : l.char ∈ textOf (locate ⟨"f", 1, 1⟩ (blanks.map .char)) :=
        List.mem_map_of_mem hl
      rw [Lexical.textOf_locate, List.map_map] at hchar
      obtain ⟨c, hc, hl⟩ := List.mem_map.1 hchar
      exact (Lexical.isBlank_iff _).2 (hl ▸ h c hc)
  rw [tokens, lexemes, ← Lexical.lexemes_takeAll_dropWhile, hdrop, Lexical.lexemes_takeAll]
  show ⟨.name, "x", behind blanks⟩ :: (takeAll (indented blanks).stop []).map Prod.snd = _
  rw [Lexical.lexemes_takeAll]
  rfl

theorem parse_indented (h : ∀ c ∈ blanks, Blank c) :
    (indented blanks).parse = .ok [.name ⟨behind blanks, "x"⟩] := by
  have htokens := tokens_indented h
  have hclean : (indented blanks).lexicalErrors = [] := by
    refine List.eq_nil_iff_forall_not_mem.2 fun e he => ?_
    obtain ⟨⟨l, hl, herror⟩, -⟩ := lexicalErrors_ofText he
    rw [← indented, htokens] at hl
    simp only [List.mem_cons, List.not_mem_nil, or_false] at hl
    rcases hl with rfl | rfl <;> cases herror
  let d : Grammar.Program :=
    { block := .list (.last (.atom (.name ⟨⟨.name, "x", behind blanks⟩, rfl⟩)))
      stop := ⟨⟨.eof, "", (indented blanks).stop⟩, rfl⟩ }
  exact (parse_eq_ok_iff hclean _).2 ⟨d, htokens.symm, rfl⟩

/-- Each line feed leads to the start of the next line, which is number zero behind the last one that
a word can count. -/
theorem behind_lineFeeds (n : Nat) :
    behind (List.replicate n '\n') = ⟨"f", 1 + UInt32.ofNat n, 1⟩ := by
  induction n with
  | zero => rfl
  | succ n ih =>
    rw [behind, List.map_replicate] at ih ⊢
    rw [List.replicate_succ', positionAfter_concat, ih, UInt32.ofNat_add, ← UInt32.add_assoc]
    rfl

theorem behind_space (blanks : List Char) :
    behind (blanks ++ [' ']) = (behind blanks).after ' ' := by
  rw [behind, List.map_append]
  exact positionAfter_concat _ _ _

/-- Without a bound on the lines, outlines are ambiguous. Behind as many line feeds as take the number
of the line to zero, a name is shown without its position, in whatever column it stands. -/
theorem outline_ambiguous :
    ¬ ∀ {s s' : Source} {es es' : List Expr}, s.file = s'.file → '\n' ∉ s.file.toList →
      s.parse = .ok es → s'.parse = .ok es' → Expr.outlineAll es = Expr.outlineAll es' →
        Expr.unlabelledAll id es = Expr.unlabelledAll id es' := by
  intro h
  -- the number of line feeds is not spelled out below, so that nothing tries to write them down
  obtain ⟨n, hn⟩ : ∃ n, 1 + UInt32.ofNat n = 0 := ⟨2 ^ 32 - 1, by decide⟩
  have hfeeds : ∀ c ∈ List.replicate n '\n', Blank c :=
    fun c hc => List.eq_of_mem_replicate hc ▸ by decide
  have hspace : ∀ c ∈ List.replicate n '\n' ++ [' '], Blank c :=
    List.forall_mem_append.2 ⟨hfeeds, List.forall_mem_singleton.2 (by decide)⟩
  have hflush := parse_indented hfeeds
  have hmoved := parse_indented hspace
  rw [behind_space] at hmoved
  rw [behind_lineFeeds, hn] at hflush hmoved
  have hfile : (indented (List.replicate n '\n')).file =
      (indented (List.replicate n '\n' ++ [' '])).file := rfl
  have hbreak : '\n' ∉ "f".toList := by decide
  have houtline : Expr.outlineAll [.name ⟨⟨"f", 0, 1⟩, "x"⟩] =
      Expr.outlineAll [.name ⟨⟨"f", 0, 2⟩, "x"⟩] := by decide +kernel
  have hsame := h hfile hbreak hflush hmoved houtline
  simp [Expr.unlabelledAll, Expr.unlabelled, Position.after] at hsame

end Source

end Wordlang
