import Wordlang.Proofs.Scanner.End

/-!
# Positions are exact

The position of a character counts the line feeds before it, and the characters since the last of
them. Every token stands where its first character does, every report where its token or its stray
byte does, and the positions of the tokens increase strictly up to the end of the input.
-/

namespace Wordlang

open Text (Glyph)
open Text.Utf8 (Reads)

/-- One position comes before another: in an earlier line, or further left in the same one. -/
def Position.Before (p q : Position) : Prop :=
  p.line < q.line ∨ p.line = q.line ∧ p.column < q.column

/-! ## Lines and columns -/

/-- The line of the character with the given number: one more than there are line feeds before. -/
def lineOf (gs : List Glyph) (i : Nat) : Nat := 1 + (gs.take i).count (.char '\n')

/-- The column of the character with the given number: one more than there are characters between the
last line feed before it, or the start of the text, and the character. -/
def columnOf (gs : List Glyph) (i : Nat) : Nat :=
  1 + ((gs.take i).reverse.takeWhile (· != .char '\n')).length

/-- The position is that of the character with the given number. The end of the text stands where
one more character would. -/
structure StandsAt (file : String) (gs : List Glyph) (i : Nat) (p : Position) : Prop where
  le : i ≤ gs.length
  file : p.file = file
  line : p.line.toNat = lineOf gs i
  column : p.column.toNat = columnOf gs i

variable {file : String} {gs : List Glyph} {i j : Nat} {p q : Position}

theorem toChar_eq_lineFeed (g : Glyph) : g.toChar = '\n' ↔ g = .char '\n' := by
  cases g with
  | char c => simp [Glyph.toChar]
  | stray b => simp [Glyph.toChar, Text.replacement]

theorem positionAfter_concat (p : Position) (gs : List Glyph) (g : Glyph) :
    positionAfter p (gs ++ [g]) = (positionAfter p gs).after g.toChar := by
  induction gs generalizing p with
  | nil => rfl
  | cons h gs ih => exact ih _

theorem toNat_add_one {n : UInt32} (h : n.toNat + 1 < 2 ^ 32) : (n + 1).toNat = n.toNat + 1 := by
  rw [UInt32.toNat_add]
  exact Nat.mod_eq_of_lt h

/-- The position behind a text that is not too long counts its line feeds, and its characters since
the last of them. -/
theorem standsAt_end (file : String) (gs : List Glyph) (hsize : gs.length < 2 ^ 32 - 1) :
    StandsAt file gs gs.length (positionAfter ⟨file, 1, 1⟩ gs) := by
  induction gs using List.reverseRecOn with
  | nil => exact ⟨Nat.le_refl _, rfl, rfl, rfl⟩
  | append_singleton gs g ih =>
    rw [List.length_append, List.length_singleton] at hsize
    obtain ⟨-, hfile, hline, hcolumn⟩ := ih (by omega)
    rw [lineOf, List.take_length] at hline
    rw [columnOf, List.take_length] at hcolumn
    have hlines : gs.count (.char '\n') ≤ gs.length := List.count_le_length
    have hcolumns :=
      (List.takeWhile_sublist (p := (· != Glyph.char '\n')) (l := gs.reverse)).length_le
    rw [List.length_reverse] at hcolumns
    have hwhole : (gs ++ [g]).take (gs ++ [g]).length = gs ++ [g] := List.take_length
    rw [positionAfter_concat]
    unfold Position.after
    by_cases hfeed : g = .char '\n'
    · rw [if_pos ((toChar_eq_lineFeed g).2 hfeed)]
      refine ⟨Nat.le_refl _, hfile, ?_, ?_⟩
      · rw [lineOf, hwhole, toNat_add_one (by omega), hline, hfeed, List.count_append,
          List.count_singleton_self]
        omega
      · rw [columnOf, hwhole, List.reverse_concat, List.takeWhile_cons_of_neg (by simp [hfeed])]
        rfl
    · rw [if_neg (mt (toChar_eq_lineFeed g).1 hfeed)]
      refine ⟨Nat.le_refl _, hfile, ?_, ?_⟩
      · rw [lineOf, hwhole, hline, List.count_append, List.count_singleton,
          if_neg (by simpa using hfeed)]
        rfl
      · rw [columnOf, hwhole, toNat_add_one (by omega), hcolumn, List.reverse_concat,
          List.takeWhile_cons_of_pos (by simpa using hfeed), List.length_cons]
        omega

/-- The places before the end are those of the text up to there. -/
theorem standsAt_take (hi : i ≤ gs.length) :
    StandsAt file (gs.take i) (gs.take i).length p ↔ StandsAt file gs i p := by
  have htake : (gs.take i).take (gs.take i).length = gs.take i := List.take_length
  constructor
  · rintro ⟨-, hfile, hline, hcolumn⟩
    rw [lineOf, htake] at hline
    rw [columnOf, htake] at hcolumn
    exact ⟨hi, hfile, hline, hcolumn⟩
  · rintro ⟨-, hfile, hline, hcolumn⟩
    refine ⟨Nat.le_refl _, hfile, ?_, ?_⟩
    · rw [lineOf, htake]
      exact hline
    · rw [columnOf, htake]
      exact hcolumn

/-- A character that comes later stands behind. -/
theorem StandsAt.before (hp : StandsAt file gs i p) (hq : StandsAt file gs j q) (hij : i < j) :
    p.Before q := by
  obtain ⟨-, -, hline, hcolumn⟩ := hp
  obtain ⟨hj, -, hline', hcolumn'⟩ := hq
  have hsplit : gs.take j = gs.take i ++ (gs.drop i).take (j - i) := by
    rw [← List.take_add, Nat.add_sub_cancel' hij.le]
  have hpositive : 0 < ((gs.drop i).take (j - i)).length := by
    rw [List.length_take, List.length_drop]
    omega
  rw [lineOf, hsplit, List.count_append] at hline'
  rw [columnOf, hsplit, List.reverse_append] at hcolumn'
  rw [lineOf] at hline
  rw [columnOf] at hcolumn
  by_cases hfeed : Glyph.char '\n' ∈ (gs.drop i).take (j - i)
  · have hcount := List.count_pos_iff.2 hfeed
    exact .inl (UInt32.lt_iff_toNat_lt.2 (by omega))
  · have hall : ∀ g ∈ ((gs.drop i).take (j - i)).reverse, (g != Glyph.char '\n') = true := by
      intro g hg
      rw [bne_iff_ne]
      rintro rfl
      exact hfeed (List.mem_reverse.1 hg)
    rw [List.takeWhile_append_of_pos hall, List.length_append, List.length_reverse] at hcolumn'
    rw [List.count_eq_zero.2 hfeed] at hline'
    exact .inr ⟨UInt32.toNat.inj (by omega), UInt32.lt_iff_toNat_lt.2 (by omega)⟩

/-! ## The characters of a source -/

theorem locate_getElem? (p : Position) (gs : List Glyph) (i : Nat) :
    (locate p gs)[i]? = gs[i]?.map fun g => ⟨g, positionAfter p (gs.take i)⟩ := by
  induction gs generalizing p i with
  | nil => rfl
  | cons g gs ih =>
    cases i with
    | zero => rfl
    | succ i => exact ih _ i

theorem locate_append (p : Position) (gs hs : List Glyph) :
    locate p (gs ++ hs) = locate p gs ++ locate (positionAfter p gs) hs := by
  induction gs generalizing p with
  | nil => rfl
  | cons g gs ih => exact congrArg (_ :: ·) (ih _)

/-- A character of a source that is not too long stands where it is said to. -/
theorem standsAt_of_located {c : Located} (hsize : gs.length < 2 ^ 32 - 1)
    (hc : (locate ⟨file, 1, 1⟩ gs)[i]? = some c) :
    gs[i]? = some c.glyph ∧ StandsAt file gs i c.pos := by
  rw [locate_getElem?] at hc
  obtain ⟨g, hg, rfl⟩ := Option.map_eq_some_iff.1 hc
  have hi : i < gs.length := (List.getElem?_eq_some_iff.1 hg).1
  refine ⟨hg, (standsAt_take hi.le).1 (standsAt_end file (gs.take i) ?_)⟩
  rw [List.length_take]
  omega

/-! ## The positions that a source has -/

theorem file_positionAfter (p : Position) (gs : List Glyph) :
    (positionAfter p gs).file = p.file := by
  induction gs generalizing p with
  | nil => rfl
  | cons g gs ih =>
    rw [positionAfter, ih, Position.after]
    split <;> rfl

/-- The line grows by one with each line feed, as long as there is a word for it. -/
theorem line_positionAfter {p : Position} {gs : List Glyph}
    (h : p.line.toNat + gs.count (.char '\n') < 2 ^ 32) :
    (positionAfter p gs).line.toNat = p.line.toNat + gs.count (.char '\n') := by
  induction gs generalizing p with
  | nil => rfl
  | cons g gs ih =>
    rw [positionAfter]
    by_cases hg : g = .char '\n'
    · subst hg
      rw [List.count_cons_self] at h ⊢
      have hnext : (p.after '\n').line.toNat = p.line.toNat + 1 := by
        rw [Position.after, if_pos rfl]
        exact toNat_add_one (by omega)
      rw [Glyph.toChar, ih (by omega), hnext]
      omega
    · rw [List.count_cons_of_ne hg] at h ⊢
      have hsame : (p.after g.toChar).line = p.line := by
        rw [Position.after, if_neg (mt (toChar_eq_lineFeed g).1 hg)]
      rw [ih (by rwa [hsame]), hsame]

namespace Source

/-- The position is that of a glyph of the source, or of its end. -/
def Has (s : Source) (p : Position) : Prop := ∃ i, p = positionAfter s.start (s.glyphs.take i)

variable {s : Source}

theorem Has.file_eq (h : s.Has p) : p.file = s.file := by
  obtain ⟨i, rfl⟩ := h
  exact file_positionAfter _ _

theorem Has.isKnown (h : s.Has p) (hlines : s.glyphs.count (.char '\n') < 2 ^ 32 - 1) :
    p.isKnown = true := by
  obtain ⟨i, rfl⟩ := h
  have hle := (List.take_sublist i s.glyphs).count_le (.char '\n')
  have hstart : s.start.line.toNat = 1 := rfl
  have hline : (positionAfter s.start (s.glyphs.take i)).line.toNat =
      s.start.line.toNat + (s.glyphs.take i).count (.char '\n') := line_positionAfter (by omega)
  rw [Position.isKnown, bne_iff_ne]
  intro hzero
  rw [hzero] at hline
  have hnone : (0 : UInt32).toNat = 0 := rfl
  omega

theorem has_of_located {c : Located} (hc : c ∈ s.located) : s.Has c.pos := by
  obtain ⟨i, hi⟩ := List.mem_iff_getElem?.1 hc
  rw [located, locate_getElem?] at hi
  obtain ⟨g, -, rfl⟩ := Option.map_eq_some_iff.1 hi
  exact ⟨i, rfl⟩

theorem has_stop : s.Has s.stop := ⟨s.glyphs.length, by rw [List.take_length, stop]⟩

end Source

/-- A lexeme stands where one of the characters does, or at the end. -/
theorem pos_takeAll {stop : Position} {cs : List Located} {x : List LexicalError × Lexeme}
    (hx : x ∈ takeAll stop cs) : x.2.pos = stop ∨ ∃ c ∈ cs, x.2.pos = c.pos := by
  have hfirst : ∀ cs, (take stop cs).lexeme.pos = stop ∨
      ∃ c ∈ cs, (take stop cs).lexeme.pos = c.pos := by
    intro cs
    have hdrop := (List.dropWhile_suffix (isBlank ·.char) (l := cs)).subset
    unfold take
    split
    · exact .inl rfl
    · next c rest hc =>
      rw [hc] at hdrop
      exact .inr ⟨c, hdrop List.mem_cons_self, rfl⟩
  induction cs using takeAll.induct stop with
  | case1 cs t ht =>
    rw [takeAll, dif_pos ht] at hx
    obtain rfl := List.mem_singleton.1 hx
    exact hfirst cs
  | case2 cs t ht ih =>
    rw [takeAll, dif_neg ht] at hx
    rcases List.mem_cons.1 hx with rfl | hx
    · exact hfirst cs
    · rcases ih hx with hstop | ⟨c, hc, hpos⟩
      · exact .inl hstop
      · exact .inr ⟨c, (Lexical.take_rest_suffix stop cs).subset hc, hpos⟩

theorem Source.has_of_mem_tokens {s : Source} {l : Lexeme} (hl : l ∈ s.tokens) : s.Has l.pos := by
  obtain ⟨x, hx, rfl⟩ := List.mem_map.1 hl
  rcases pos_takeAll hx with hstop | ⟨c, hc, hpos⟩
  · rw [hstop]
    exact has_stop
  · rw [hpos]
    exact has_of_located hc

/-! ## Reports -/

/-- The report is of a byte that UTF-8 rejects, and stands where the byte does. -/
def OfStray (file : String) (gs : List Glyph) (e : LexicalError) : Prop :=
  e.fault = .badEncoding ∧ ∃ i b, gs[i]? = some (.stray b) ∧ StandsAt file gs i e.pos

theorem ofStray_of_mem {e : LexicalError} (hsize : gs.length < 2 ^ 32 - 1)
    (he : e ∈ strayErrors (locate ⟨file, 1, 1⟩ gs)) : OfStray file gs e := by
  obtain ⟨c, hc, rfl⟩ := List.mem_map.1 he
  obtain ⟨hmem, hstray⟩ := List.mem_filter.1 hc
  obtain ⟨i, hi⟩ := List.mem_iff_getElem?.1 hmem
  obtain ⟨hglyph, hstands⟩ := standsAt_of_located hsize hi
  cases hg : c.glyph with
  | char d =>
    rw [hg] at hstray
    cases hstray
  | stray b => exact ⟨rfl, i, b, hg ▸ hglyph, hstands⟩

namespace Lexical

variable {stop : Position} {cs : List Located}

theorem strayErrors_subset {cs cs' : List Located} (h : cs ⊆ cs') :
    strayErrors cs ⊆ strayErrors cs' := List.map_subset _ (List.filter_subset _ h)

/-- With a lexeme, only stray bytes and what is wrong with the lexeme are reported. -/
theorem takeAll_reports {x : List LexicalError × Lexeme} (hx : x ∈ takeAll stop cs) :
    ∃ strays own, x.1 = strays ++ own ∧ strays ⊆ strayErrors cs ∧ OwnReports x.2 own := by
  have hfirst : ∀ cs, ∃ strays own, (take stop cs).errors = strays ++ own ∧
      strays ⊆ strayErrors cs ∧ OwnReports (take stop cs).lexeme own := by
    intro cs
    obtain ⟨n, own, -, herrors, hown⟩ := take_reports stop cs
    have hnoticed : (cs.drop 1).take n ⊆ cs :=
      List.Subset.trans (List.take_subset _ _) (List.drop_subset _ _)
    exact ⟨_, own, herrors, strayErrors_subset hnoticed, hown⟩
  fun_induction takeAll stop cs with
  | case1 cs t heof =>
    obtain rfl : x = (t.errors, t.lexeme) := by simpa using hx
    exact hfirst cs
  | case2 cs t hne ih =>
    rcases List.mem_cons.1 hx with rfl | hx
    · exact hfirst cs
    · obtain ⟨strays, own, herrors, hstrays, hown⟩ := ih hx
      have hrest := strayErrors_subset (take_rest_suffix stop cs).subset
      exact ⟨strays, own, herrors, List.Subset.trans hstrays hrest, hown⟩

/-- Each token starts behind the one before it. -/
theorem Splits.entries_sorted {text : List Char} {ps : List Piece} (h : Splits text ps) (i : Nat) :
    (entries i ps).Pairwise (fun x y => x.start < y.start) ∧ ∀ x ∈ entries i ps, i ≤ x.start := by
  induction h generalizing i with
  | nil => exact ⟨.nil, by simp [entries]⟩
  | @cons p rest ps fits _ ih =>
    obtain ⟨hsorted, hbound⟩ := ih (i + p.text.length)
    have hlater : ∀ x ∈ entries (i + p.text.length) ps, i ≤ x.start := fun x hx =>
      (Nat.le_add_right _ _).trans (hbound x hx)
    cases p with
    | blanks bs => exact ⟨hsorted, hlater⟩
    | token w t literal =>
      obtain ⟨d, tail, rfl, -⟩ := TokenText.text_eq_cons fits
      refine ⟨List.pairwise_cons.2 ⟨?_, hsorted⟩, List.forall_mem_cons.2 ⟨Nat.le_refl i, hlater⟩⟩
      intro x hx
      exact Nat.lt_of_lt_of_le (Nat.lt_add_of_pos_right (Nat.zero_lt_succ _)) (hbound x hx)

end Lexical

/-! ## The scanner of a source -/

namespace Scanner

open Lexical

variable {sc : Scanner}

/-- The lexeme that a scanner takes at a call of `next`: the one that it comes to, or the end. -/
theorem iterate_lexeme (sc : Scanner) (k : Nat) : (next^[k + 1] sc).lexeme =
    ((takeAll sc.stop sc.ahead).map Prod.snd)[k]?.getD ⟨.eof, "", sc.stop⟩ := by
  obtain ⟨before, errors, hall, hbefore, hend, hstay⟩ := sc.exists_end
  rw [hall, List.map_append, List.map_singleton]
  rcases Nat.lt_or_ge k before.length with hk | hk
  · rw [List.getElem?_append_left (by simpa using hk), (hbefore k hk).1]
    simp [hk]
  · have hlater : (next^[k + 1] sc).lexeme = ⟨.eof, "", sc.stop⟩ := by
      rw [← Nat.add_sub_cancel' hk, Nat.add_right_comm, hstay, hend]
    rw [hlater, List.getElem?_append_right (by simpa using hk)]
    cases k - (before.map Prod.snd).length <;> rfl

/-- With a lexeme, a scanner reports stray bytes ahead of it and what is wrong with the lexeme. -/
theorem iterate_own (sc : Scanner) (k : Nat) : ∃ strays own,
    (next^[k + 1] sc).reports = (next^[k] sc).reports ++ (strays ++ own) ∧
      strays ⊆ strayErrors sc.ahead ∧ OwnReports (next^[k + 1] sc).lexeme own := by
  have hstep := sc.iterate_next k
  cases hk : (takeAll sc.stop sc.ahead)[k]? with
  | none =>
    -- the scanner has come to the end before
    rw [hk] at hstep
    have hlexeme : (next^[k + 1] sc).lexeme = ⟨.eof, "", sc.stop⟩ := by
      rw [iterate_lexeme, List.getElem?_map, hk]
      rfl
    refine ⟨[], [], ?_, List.nil_subset _, .inl ⟨?_, rfl⟩⟩
    · rw [show next^[k + 1] sc = next^[k] sc from hstep]
      simp
    · rw [hlexeme]
      simp
  | some x =>
    obtain ⟨errors, l⟩ := x
    rw [hk] at hstep
    obtain ⟨hlexeme, hreports⟩ := hstep
    obtain ⟨strays, own, rfl, hstrays, hown⟩ := takeAll_reports (List.mem_of_getElem? hk)
    exact ⟨strays, own, hreports, hstrays, hlexeme ▸ hown⟩

/-- A scanner at the start of a text takes the tokens of the split text, each where its first
character stands, and then the end. -/
theorem exists_entries (hsize : gs.length < 2 ^ 32 - 1)
    (hahead : sc.ahead = locate ⟨file, 1, 1⟩ gs) : ∃ ps, Splits (gs.map Glyph.toChar) ps ∧
      (∀ k x, (entries 0 ps)[k]? = some x → x.start < gs.length ∧
        (next^[k + 1] sc).lexeme.token = x.kind ∧ (next^[k + 1] sc).lexeme.text = x.literal ∧
        StandsAt file gs x.start (next^[k + 1] sc).lexeme.pos) ∧
      ∀ k, (entries 0 ps).length ≤ k → (next^[k + 1] sc).lexeme = ⟨.eof, "", sc.stop⟩ := by
  obtain ⟨ps, hps⟩ := exists_splits (gs.map Glyph.toChar)
  have htext : textOf (sc.ahead.drop 0) = gs.map Glyph.toChar := by
    rw [List.drop_zero, hahead, textOf_locate]
  obtain ⟨ls, hls, htaken⟩ := hps.exists_lexemes sc.stop htext
  have hlength := htaken.length_eq
  have hlexeme := sc.iterate_lexeme
  rw [List.drop_zero] at hls
  rw [hls] at hlexeme
  refine ⟨ps, hps, ?_, ?_⟩
  · intro k x hx
    obtain ⟨hk, rfl⟩ := List.getElem?_eq_some_iff.1 hx
    have hk' : k < ls.length := hlength ▸ hk
    obtain ⟨htoken, hliteral, c, hc, hpos⟩ := htaken.get hk hk'
    rw [hahead] at hc
    obtain ⟨hglyph, hstands⟩ := standsAt_of_located hsize hc
    rw [hlexeme, List.getElem?_append_left hk', List.getElem?_eq_getElem hk', Option.getD_some]
    exact ⟨(List.getElem?_eq_some_iff.1 hglyph).1, htoken, hliteral, hpos ▸ hstands⟩
  · intro k hk
    rw [hlexeme, List.getElem?_append_right (hlength ▸ hk)]
    cases k - ls.length <;> rfl

/-- Positions are exact. When the bytes are read as the glyphs, and those are not too many for
positions to count them, every lexeme that the scanner takes is a token of the split text and stands
where the first character of the token does, or it is the end and stands there; the positions
increase strictly up to the end. The scanner reports stray bytes where they stand, and an error token
where the token does. -/
theorem positions_exact (file : String) {bytes : List UInt8} {gs : List Glyph}
    (hgs : Reads bytes gs) (hsize : gs.length < 2 ^ 32 - 1) :
    ∃ ps, Splits (gs.map Glyph.toChar) ps ∧
      (∀ k x, (entries 0 ps)[k]? = some x →
        ((Source.ofBytes file bytes).scanned (k + 1)).lexeme.token = x.kind ∧
          ((Source.ofBytes file bytes).scanned (k + 1)).lexeme.text = x.literal ∧
          StandsAt file gs x.start ((Source.ofBytes file bytes).scanned (k + 1)).lexeme.pos) ∧
      (∀ k, (entries 0 ps).length ≤ k →
        ((Source.ofBytes file bytes).scanned (k + 1)).lexeme.token = .eof ∧
          StandsAt file gs gs.length ((Source.ofBytes file bytes).scanned (k + 1)).lexeme.pos) ∧
      (∀ j k, j < k → k ≤ (entries 0 ps).length →
        ((Source.ofBytes file bytes).scanned (j + 1)).lexeme.pos.Before
          ((Source.ofBytes file bytes).scanned (k + 1)).lexeme.pos) ∧
      (∀ e ∈ ((Source.ofBytes file bytes).scanned 0).reports, OfStray file gs e) ∧
      ∀ k, ∃ strays own, ((Source.ofBytes file bytes).scanned (k + 1)).reports =
          ((Source.ofBytes file bytes).scanned k).reports ++ (strays ++ own) ∧
        (∀ e ∈ strays, OfStray file gs e) ∧
        OwnReports ((Source.ofBytes file bytes).scanned (k + 1)).lexeme own := by
  obtain ⟨hahead, hstop, hreports⟩ := ofSource_spec (.ofBytes file bytes)
  have hglyphs : (Source.ofBytes file bytes).glyphs = gs := hgs.eq_decode.symm
  have hend := standsAt_end file gs hsize
  rw [Source.openingErrors, Source.located, hglyphs] at hreports
  rw [Source.located, hglyphs] at hahead
  rw [Source.stop, hglyphs] at hstop
  obtain ⟨ps, hps, htokens, hlast⟩ := exists_entries hsize hahead
  obtain ⟨hsorted, -⟩ := hps.entries_sorted 0
  rw [hstop] at hlast
  refine ⟨ps, hps, ?_, ?_, ?_, ?_, ?_⟩
  · intro k x hx
    exact (htokens k x hx).2
  · intro k hk
    rw [Source.scanned, hlast k hk]
    exact ⟨rfl, hend⟩
  · intro j k hjk hk
    have hj := hjk.trans_le hk
    obtain ⟨hlt, -, -, hstands⟩ := htokens j _ (List.getElem?_eq_getElem hj)
    rcases hk.lt_or_eq with hk | hk
    · obtain ⟨-, -, -, hstands'⟩ := htokens k _ (List.getElem?_eq_getElem hk)
      exact hstands.before hstands' (List.pairwise_iff_getElem.1 hsorted j k hj hk hjk)
    · rw [Source.scanned, Source.scanned, hlast k hk.ge]
      exact hstands.before hend hlt
  · intro e he
    rw [Source.scanned, Function.iterate_zero, id, hreports] at he
    exact ofStray_of_mem hsize (strayErrors_subset (List.take_subset 1 _) he)
  · intro k
    obtain ⟨strays, own, hnext, hstrays, hown⟩ := iterate_own (ofSource (.ofBytes file bytes)) k
    rw [hahead] at hstrays
    exact ⟨strays, own, hnext, fun e he => ofStray_of_mem hsize (hstrays he), hown⟩

theorem frayed_positions :
    Reads frayed frayedGlyphs ∧ frayedGlyphs.length < 2 ^ 32 - 1 ∧
      ∃ n, ((Source.ofBytes "f" frayed).scanned (n + 1)).lexeme.token = .eof ∧
        ((Source.ofBytes "f" frayed).scanned (n + 1)).lexeme.pos = ⟨"f", 3, 3⟩ ∧
        ∀ k < n, ((Source.ofBytes "f" frayed).scanned (k + 1)).lexeme.pos.Before ⟨"f", 3, 3⟩ := by
  have hreads : Reads frayed frayedGlyphs := Text.Utf8.reads_iff.2 (by decide +kernel)
  have hsize : frayedGlyphs.length < 2 ^ 32 - 1 := by decide
  obtain ⟨ps, -, -, hend, hbefore, -, -⟩ := positions_exact "f" hreads hsize
  obtain ⟨heof, -, hfile, hline, hcolumn⟩ := hend _ (Nat.le_refl _)
  have hpos : ((Source.ofBytes "f" frayed).scanned ((entries 0 ps).length + 1)).lexeme.pos =
      ⟨"f", 3, 3⟩ := by
    have hlines : lineOf frayedGlyphs frayedGlyphs.length = 3 := by decide +kernel
    have hcolumns : columnOf frayedGlyphs frayedGlyphs.length = 3 := by decide +kernel
    rw [hlines] at hline
    rw [hcolumns] at hcolumn
    generalize ((Source.ofBytes "f" frayed).scanned _).lexeme.pos = p at hfile hline hcolumn ⊢
    exact (Position.mk.injEq ..).mpr ⟨hfile, UInt32.toNat.inj hline, UInt32.toNat.inj hcolumn⟩
  refine ⟨hreads, hsize, _, heof, hpos, ?_⟩
  intro k hk
  rw [← hpos]
  exact hbefore k _ hk (Nat.le_refl _)

end Scanner

end Wordlang
