import Mathlib.Data.List.TakeWhile
import Wordlang.Proofs.Lexical.Scan
import Wordlang.Proofs.Utf8.Reading
import Wordlang.Token.Scanner

/-!
# The scanner at work takes the lexemes

What lies ahead of a scanner are its current character and the characters that its bytes decode to,
each where it stands. To pass a character is to go on to the next of them, and to report it if it is a
stray byte; so a scanner takes the lexemes of the text ahead of it, and its reports are those made
while they are taken.
-/

namespace Wordlang.Scanner

open Text (Glyph)
open Text.Utf8 (decode)

variable {sc sc₁ sc₂ : Scanner} {g : Glyph} {n m : Nat} {faults : List LexicalError}

/-! ## What lies ahead -/

/-- The characters that have not been passed. -/
def ahead (sc : Scanner) : List Located :=
  match sc.current with
  | none => []
  | some g => ⟨g, sc.pos⟩ :: locate (sc.pos.after g.toChar) (decode sc.bytes)

/-- Where they end. -/
def stop (sc : Scanner) : Position :=
  match sc.current with
  | none => sc.pos
  | some g => positionAfter (sc.pos.after g.toChar) (decode sc.bytes)

theorem ahead_of_none (h : sc.current = none) : sc.ahead = [] := by rw [ahead, h]

theorem stop_of_none (h : sc.current = none) : sc.stop = sc.pos := by rw [stop, h]

theorem ahead_of_some (h : sc.current = some g) :
    sc.ahead = ⟨g, sc.pos⟩ :: locate (sc.pos.after g.toChar) (decode sc.bytes) := by rw [ahead, h]

theorem stop_of_some (h : sc.current = some g) :
    sc.stop = positionAfter (sc.pos.after g.toChar) (decode sc.bytes) := by rw [stop, h]

theorem current_of_ahead_nil (h : sc.ahead = []) : sc.current = none := by
  unfold ahead at h
  split at h
  · assumption
  · cases h

theorem pos_move (h : sc.current = some g) : sc.move.pos = sc.pos.after g.toChar := by
  have hchar : sc.char? = some g.toChar := by rw [char?, h]; rfl
  unfold move Position.after
  rw [hchar]
  by_cases hline : g.toChar = '\n'
  · simp [hline, pos]
  · simp [hline, pos]

theorem reports_move (sc : Scanner) : sc.move.reports = sc.reports := by
  unfold move
  split <;> rfl

/-- The scanner comes to the first character that its bytes decode to. -/
theorem read_spec (sc : Scanner) : sc.read.ahead = locate sc.pos (decode sc.bytes) ∧
    sc.read.stop = positionAfter sc.pos (decode sc.bytes) ∧
    sc.read.reports = sc.reports ++ strayErrors ((locate sc.pos (decode sc.bytes)).take 1) := by
  unfold read
  cases hbytes : sc.bytes with
  | nil => exact ⟨rfl, rfl, (List.append_nil _).symm⟩
  | cons a rest =>
    cases hread : Text.Utf8.leading? a rest with
    | none =>
      simp only [hread, Text.Utf8.decode_cons_of_none hread]
      exact ⟨rfl, rfl, rfl⟩
    | some r =>
      obtain ⟨c, more⟩ := r
      simp only [hread, Text.Utf8.decode_cons_of_some hread]
      exact ⟨rfl, rfl, (List.append_nil _).symm⟩

/-! ## Passing characters -/

/-- The scanner `sc` has passed `n` characters to become `sc'`. It has reported the stray bytes among
the characters that it came to, and then the faults. -/
structure Passed (n : Nat) (faults : List LexicalError) (sc sc' : Scanner) : Prop where
  le : n ≤ sc.ahead.length
  ahead : sc'.ahead = sc.ahead.drop n
  stop : sc'.stop = sc.stop
  reports : sc'.reports = sc.reports ++ strayErrors ((sc.ahead.drop 1).take n) ++ faults

namespace Passed

theorem refl (sc : Scanner) : Passed 0 [] sc sc := by
  refine ⟨Nat.zero_le _, rfl, rfl, ?_⟩
  simp [strayErrors]

theorem trans (h₁ : Passed n [] sc sc₁) (h₂ : Passed m faults sc₁ sc₂) :
    Passed (n + m) faults sc sc₂ := by
  obtain ⟨hle₁, hahead₁, hstop₁, hreports₁⟩ := h₁
  obtain ⟨hle₂, hahead₂, hstop₂, hreports₂⟩ := h₂
  rw [hahead₁, List.length_drop] at hle₂
  refine ⟨by omega, ?_, hstop₂.trans hstop₁, ?_⟩
  · rw [hahead₂, hahead₁, List.drop_drop]
  · rw [hreports₂, hreports₁, hahead₁, List.take_add, strayErrors, strayErrors, strayErrors,
      List.drop_drop, List.drop_drop, Nat.add_comm 1 n]
    simp

theorem report (h : Passed n [] sc sc₁) (pos : Position) (fault : LexicalFault) :
    Passed n [⟨pos, fault⟩] sc (sc₁.report pos fault) := by
  refine ⟨h.le, h.ahead, h.stop, ?_⟩
  rw [Scanner.report, h.reports, List.append_nil]

theorem take (h : Passed n faults sc sc₁) (start : Position) (token : Token) (text : String) :
    Passed n faults sc (sc₁.take start token text) := ⟨h.le, h.ahead, h.stop, h.reports⟩

end Passed

theorem passed_advance (h : sc.current = some g) : Passed 1 [] sc sc.advance := by
  obtain ⟨hahead, hstop, hreports⟩ := sc.move.read_spec
  rw [pos_move h, bytes_move] at hahead hstop hreports
  have hsc := ahead_of_some h
  refine ⟨?_, ?_, ?_, ?_⟩
  · rw [hsc]
    exact Nat.succ_le_succ (Nat.zero_le _)
  · rw [hsc]
    exact hahead
  · rw [stop_of_some h]
    exact hstop
  · rw [hsc, List.append_nil]
    rw [reports_move] at hreports
    exact hreports

/-- A scanner passes the characters at the front that satisfy `p`. -/
theorem passWhile_spec (p : Char → Bool) (sc : Scanner) :
    (sc.passWhile p).1 = textOf (sc.ahead.takeWhile fun c => p c.char) ∧
      Passed (sc.passWhile p).1.length [] sc (sc.passWhile p).2 := by
  fun_induction passWhile p sc with
  | case1 sc h => exact ⟨by rw [ahead_of_none h]; rfl, .refl sc⟩
  | case2 sc g h hp cs sc' hcs ih =>
    rw [hcs] at ih
    obtain ⟨htext, hpassed⟩ := ih
    have hadvance := passed_advance h
    have hahead : sc.ahead = ⟨g, sc.pos⟩ :: sc.advance.ahead := by
      rw [hadvance.ahead, ahead_of_some h]
      rfl
    refine ⟨?_, ?_⟩
    · rw [hahead, List.takeWhile_cons_of_pos (by exact hp)]
      exact congrArg _ htext
    · rw [List.length_cons, Nat.add_comm]
      exact hadvance.trans hpassed
  | case3 sc g h hp =>
    rw [ahead_of_some h, List.takeWhile_cons_of_neg (by exact hp)]
    exact ⟨rfl, .refl sc⟩

theorem ahead_passWhile (p : Char → Bool) (sc : Scanner) :
    (sc.passWhile p).2.ahead = sc.ahead.dropWhile fun c => p c.char := by
  obtain ⟨htext, hpassed⟩ := sc.passWhile_spec p
  have hdrop (q : Located → Bool) :
      (sc.ahead.takeWhile q ++ sc.ahead.dropWhile q).drop (sc.ahead.takeWhile q).length =
        sc.ahead.dropWhile q := List.drop_left
  simp only [List.takeWhile_append_dropWhile] at hdrop
  rw [hpassed.ahead, htext, textOf, List.length_map]
  exact hdrop _

/-! ## Taking lexemes -/

/-- By passing characters, the scanner `sc` has become `sc'` and has taken the token `t`, which
starts with its current character. -/
structure Took (t : Cut) (sc sc' : Scanner) : Prop where
  passed : ∃ n, Passed n (t.fault.map fun f => ⟨sc.pos, f⟩).toList sc sc'
  rest : sc'.ahead = t.rest
  lexeme : sc'.lexeme = ⟨t.token, t.text, sc.pos⟩

theorem took_word (h : sc.current = some g) (hword : isWordChar g.toChar = true) :
    Took (cutWord ⟨g, sc.pos⟩ sc.advance.ahead) sc sc.word := by
  obtain ⟨htext, hpassed⟩ := sc.passWhile_spec isWordChar
  have hahead := sc.ahead_passWhile isWordChar
  have hcons : sc.ahead = ⟨g, sc.pos⟩ :: sc.advance.ahead := by
    rw [(passed_advance h).ahead, ahead_of_some h]
    rfl
  rw [hcons, List.takeWhile_cons_of_pos (by exact hword)] at htext
  rw [hcons, List.dropWhile_cons_of_pos (by exact hword)] at hahead
  change (sc.passWhile isWordChar).1 = textOf (⟨g, sc.pos⟩ :: sc.advance.ahead.takeWhile inWord)
    at htext
  simp only [cutWord, ← htext]
  unfold word
  cases hfault : (classifyWord (sc.passWhile isWordChar).1).2 with
  | none =>
    simp only [hfault]
    exact ⟨⟨_, hpassed.take _ _ _⟩, hahead, rfl⟩
  | some f =>
    simp only [hfault]
    exact ⟨⟨_, (hpassed.report _ f).take _ _ _⟩, hahead, rfl⟩

theorem took_string (h : sc.current = some g) :
    Took (cutString sc.advance.ahead) sc sc.string := by
  obtain ⟨htext, hpassed⟩ := sc.advance.passWhile_spec (· != '"')
  have hahead := sc.advance.ahead_passWhile (· != '"')
  have hopened := (passed_advance h).trans hpassed
  change (sc.advance.passWhile (· != '"')).1 = textOf (sc.advance.ahead.takeWhile inString) at htext
  change _ = sc.advance.ahead.dropWhile inString at hahead
  have hempty : (sc.advance.passWhile (· != '"')).1.isEmpty =
      (sc.advance.ahead.takeWhile inString).isEmpty := by
    rw [htext, textOf, List.isEmpty_map]
  unfold string cutString
  cases hc : (sc.advance.passWhile (· != '"')).2.current with
  | none =>
    rw [ahead_of_none hc] at hahead
    simp only [hc, ← hahead, ← htext]
    exact ⟨⟨_, (hopened.report _ _).take _ _ _⟩, ahead_of_none hc, rfl⟩
  | some q =>
    have hclosed := passed_advance hc
    rw [ahead_of_some hc] at hahead
    have hrest : (sc.advance.passWhile (· != '"')).2.advance.ahead =
        locate ((sc.advance.passWhile (· != '"')).2.pos.after q.toChar)
          (decode (sc.advance.passWhile (· != '"')).2.bytes) := by
      rw [hclosed.ahead, ahead_of_some hc]
      rfl
    simp only [hc, ← hahead, hempty]
    split
    · next hnil =>
      rw [← hempty, List.isEmpty_iff] at hnil
      refine ⟨⟨_, ((hopened.trans hclosed).report _ _).take _ _ _⟩, hrest, ?_⟩
      rw [hnil]
      rfl
    · rw [← htext]
      exact ⟨⟨_, (hopened.trans hclosed).take _ _ _⟩, hrest, rfl⟩

/-- A scanner takes the token that is cut off where it stands. -/
theorem took_token (h : sc.current = some g) (hblank : isBlank g.toChar = false) :
    Took (cut ⟨g, sc.pos⟩ sc.advance.ahead) sc (sc.token g.toChar) := by
  have hchar : Located.char ⟨g, sc.pos⟩ = g.toChar := rfl
  unfold token cut
  rw [hchar]
  cases hdelim : Token.ofDelimiter? g.toChar with
  | some t => exact ⟨⟨_, (passed_advance h).take _ _ _⟩, rfl, rfl⟩
  | none =>
    by_cases hquote : g.toChar = '"'
    · simp only [hquote, if_true]
      exact took_string h
    · -- every other character may stand in a word
      have hword : isWordChar g.toChar = true := by
        simp [isWordChar, hblank, hquote, hdelim]
      have hin : inWord ⟨g, sc.pos⟩ = true := hword
      simp only [hquote, hword, hin, if_true, if_false]
      exact took_word h hword

/-- A scanner takes the lexeme that comes next in the text ahead of it. -/
theorem next_spec (sc : Scanner) :
    sc.next.ahead = (Wordlang.take sc.stop sc.ahead).rest ∧ sc.next.stop = sc.stop ∧
      sc.next.lexeme = (Wordlang.take sc.stop sc.ahead).lexeme ∧
      sc.next.reports = sc.reports ++ (Wordlang.take sc.stop sc.ahead).errors := by
  obtain ⟨-, hpassed⟩ := sc.passWhile_spec isBlank
  have hahead := sc.ahead_passWhile isBlank
  unfold next Wordlang.take
  rw [← hahead]
  generalize (sc.passWhile isBlank).2 = sc₁ at hpassed hahead ⊢
  generalize (sc.passWhile isBlank).1.length = n at hpassed
  cases hc : sc₁.current with
  | none =>
    have hchar : sc₁.char? = none := by rw [char?, hc]; rfl
    have hnil := ahead_of_none hc
    -- only blanks were left, and all of them have been passed
    have hall : (sc.ahead.drop 1).take n = sc.ahead.drop 1 := by
      have hlength := congrArg List.length hpassed.ahead
      rw [hnil, List.length_nil, List.length_drop] at hlength
      apply List.take_of_length_le
      rw [List.length_drop]
      omega
    rw [hnil]
    simp only [hchar]
    refine ⟨hnil, hpassed.stop, ?_, ?_⟩
    · rw [← hpassed.stop, stop_of_none hc]
      rfl
    · rw [← hall, ← List.append_nil (strayErrors _), ← List.append_assoc]
      exact hpassed.reports
  | some g =>
    have hchar : sc₁.char? = some g.toChar := by rw [char?, hc]; rfl
    have hcons : sc₁.ahead = ⟨g, sc₁.pos⟩ :: sc₁.advance.ahead := by
      rw [(passed_advance hc).ahead, ahead_of_some hc]
      rfl
    have hblank : isBlank g.toChar = false := by
      have hstop := List.head?_dropWhile_not (fun l : Located => isBlank l.char) sc.ahead
      rw [← hahead, hcons] at hstop
      simpa [Located.char] using hstop
    obtain ⟨⟨m, htoken⟩, hrest, hlexeme⟩ := took_token hc hblank
    obtain ⟨hle, hdrop, hstop, hreports⟩ := hpassed.trans htoken
    have hcount : sc.ahead.length - (cut ⟨g, sc₁.pos⟩ sc₁.advance.ahead).rest.length = n + m := by
      rw [← hrest, hdrop, List.length_drop]
      omega
    rw [hcons]
    simp only [hchar, hcount]
    exact ⟨hrest, hstop, hlexeme, hreports.trans (List.append_assoc _ _ _)⟩

/-! ## The scanner of a source -/

theorem ofSource_spec (s : Source) : (ofSource s).ahead = s.located ∧ (ofSource s).stop = s.stop ∧
    (ofSource s).reports = s.openingErrors := by
  unfold ofSource Source.openingErrors Source.located Source.stop Source.glyphs
  cases s.content with
  | ok bytes => exact read_spec _
  | error reason => exact ⟨rfl, rfl, rfl⟩

/-- A scanner that has come to the end stays there, as it is. -/
theorem next_of_ended (h : sc.current = none) (hlexeme : sc.lexeme = ⟨.eof, "", sc.pos⟩) :
    sc.next = sc := by
  have hpass : sc.passWhile isBlank = ([], sc) := by
    rw [passWhile]
    split
    · rfl
    · next g hg =>
      rw [h] at hg
      cases hg
  have hchar : sc.char? = none := by rw [char?, h]; rfl
  unfold next
  rw [hpass]
  simp only [hchar, take, ← hlexeme]

end Wordlang.Scanner

namespace Wordlang.Lexical

variable {stop : Position} {cs : List Located}

/-- The end of the input is taken from blanks, and nothing follows it. -/
theorem take_eof (h : (take stop cs).lexeme.token = .eof) :
    take stop cs = ⟨⟨.eof, "", stop⟩, strayErrors (cs.drop 1), []⟩ := by
  unfold take at h ⊢
  cases hd : cs.dropWhile (isBlank ·.char) with
  | nil => rfl
  | cons c rest =>
    obtain ⟨text, -, htext⟩ := cut_tokenText (not_blank_of_dropWhile hd) rest
    simp only [hd] at h
    exact absurd h htext.kind_ne_eof

theorem takeAll_zero (stop : Position) (cs : List Located) :
    (takeAll stop cs)[0]? = some ((take stop cs).errors, (take stop cs).lexeme) := by
  rw [takeAll]
  split <;> rfl

theorem takeAll_succ (stop : Position) (cs : List Located) (k : Nat) :
    (takeAll stop cs)[k + 1]? =
      if (take stop cs).lexeme.token = .eof then none else (takeAll stop (take stop cs).rest)[k]? := by
  rw [takeAll]
  split <;> rfl

end Wordlang.Lexical

namespace Wordlang.Scanner

/-- What a scanner takes and reports at a call of `next` is the entry of the lexeme that it comes to;
behind the end it stays as it is. -/
theorem iterate_next (sc : Scanner) (k : Nat) :
    match (takeAll sc.stop sc.ahead)[k]? with
    | some (errors, l) => (next^[k + 1] sc).lexeme = l ∧
        (next^[k + 1] sc).reports = (next^[k] sc).reports ++ errors
    | none => next^[k + 1] sc = next^[k] sc := by
  induction k generalizing sc with
  | zero =>
    obtain ⟨-, -, hlexeme, hreports⟩ := sc.next_spec
    rw [Lexical.takeAll_zero]
    exact ⟨hlexeme, hreports⟩
  | succ k ih =>
    obtain ⟨hahead, hstop, hlexeme, -⟩ := sc.next_spec
    rw [Lexical.takeAll_succ]
    by_cases heof : (Wordlang.take sc.stop sc.ahead).lexeme.token = .eof
    · rw [Lexical.take_eof heof] at hahead hlexeme
      have hnone := current_of_ahead_nil hahead
      have hended := next_of_ended hnone (by rw [hlexeme, ← hstop, stop_of_none hnone])
      rw [if_pos heof]
      exact (Function.iterate_fixed hended (k + 1)).trans (Function.iterate_fixed hended k).symm
    · have hnext := ih sc.next
      rw [hahead, hstop] at hnext
      rw [if_neg heof]
      exact hnext

end Wordlang.Scanner

namespace Wordlang.Source

/-- The scanner of a source after `k` calls of `next`. -/
def scanned (s : Source) (k : Nat) : Scanner := Scanner.next^[k] (.ofSource s)

end Wordlang.Source
