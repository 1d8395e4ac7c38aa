import Wordlang.Proofs.Scanner

/-!
# Scanning ends

A scanner comes to the end of the input after at most as many lexemes as there are bytes, and stays
there. Until then it has reported every error token once, and every byte that UTF-8 rejects once.
-/

namespace Wordlang.Lexical

/-! ## The reports of a lexeme -/

/-- What is reported of a lexeme itself: one fault, at its first character, if it is an error token. -/
def OwnReports (l : Lexeme) (own : List LexicalError) : Prop :=
  (l.token ≠ .error ∧ own = []) ∨ (l.token = .error ∧ ∃ f, own = [⟨l.pos, f⟩])

theorem OwnReports.length_eq {l : Lexeme} {own : List LexicalError} (h : OwnReports l own) :
    own.length = if l.token = .error then 1 else 0 := by
  rcases h with ⟨hne, rfl⟩ | ⟨herror, f, rfl⟩
  · rw [if_neg hne]
    rfl
  · rw [if_pos herror]
    rfl

variable {stop : Position} {cs : List Located}

/-- Taking a lexeme passes over characters. It reports the stray bytes among those that it comes to,
and then what is wrong with the lexeme. -/
theorem take_reports (stop : Position) (cs : List Located) :
    ∃ n own, (take stop cs).rest = cs.drop n ∧
      (take stop cs).errors = strayErrors ((cs.drop 1).take n) ++ own ∧
      OwnReports (take stop cs).lexeme own := by
  have hrest := List.suffix_iff_eq_drop.1 (take_rest_suffix stop cs)
  unfold take at hrest ⊢
  cases hd : cs.dropWhile (isBlank ·.char) with
  | nil =>
    refine ⟨cs.length, [], by simp, ?_, .inl ⟨by simp, rfl⟩⟩
    rw [List.append_nil, List.take_of_length_le (List.drop_sublist 1 cs).length_le]
  | cons c rest =>
    simp only [hd] at hrest
    refine ⟨_, _, hrest, rfl, ?_⟩
    cases hfault : (cut c rest).fault with
    | none => exact .inl ⟨fun herror => cut_error herror hfault, rfl⟩
    | some f => exact .inr ⟨(cut_fault (not_blank_of_dropWhile hd) hfault).1, f, rfl⟩

/-- The reports of all lexemes: the stray bytes behind the first character, and the faults of the
error tokens. -/
theorem length_takeAll_reports (stop : Position) (cs : List Located) :
    ((takeAll stop cs).flatMap (·.1)).length =
      ((takeAll stop cs).countP fun x => x.2.token = .error) + (strayErrors (cs.drop 1)).length := by
  fun_induction takeAll stop cs with
  | case1 cs t heof =>
    have ht : t = ⟨⟨.eof, "", stop⟩, strayErrors (cs.drop 1), []⟩ := take_eof heof
    simp [ht]
  | case2 cs t hne ih =>
    obtain ⟨n, own, hrest, herrors, hown⟩ : ∃ n own, t.rest = cs.drop n ∧
        t.errors = strayErrors ((cs.drop 1).take n) ++ own ∧ OwnReports t.lexeme own :=
      take_reports stop cs
    have hsplit : (strayErrors (cs.drop 1)).length =
        (strayErrors ((cs.drop 1).take n)).length + (strayErrors ((cs.drop n).drop 1)).length := by
      conv_lhs => rw [← List.take_append_drop n (cs.drop 1)]
      rw [strayErrors, List.filter_append, List.map_append, List.length_append, List.drop_drop,
        List.drop_drop, Nat.add_comm 1 n]
      rfl
    rw [List.flatMap_cons, List.length_append, ih, hrest, List.countP_cons, herrors,
      List.length_append, hown.length_eq, hsplit]
    simp only [decide_eq_true_eq]
    omega

/-- There is at most one lexeme for each character, and the end. -/
theorem length_takeAll_le (stop : Position) (cs : List Located) :
    (takeAll stop cs).length ≤ cs.length + 1 := by
  fun_induction takeAll stop cs with
  | case1 cs t heof => exact Nat.succ_le_succ (Nat.zero_le _)
  | case2 cs t hne ih =>
    have hlt : t.rest.length < cs.length := take_rest_length_lt hne
    rw [List.length_cons]
    omega

/-- The last lexeme is the end of the input, and no other one. -/
theorem takeAll_eq_concat (stop : Position) (cs : List Located) :
    ∃ before errors, takeAll stop cs = before ++ [(errors, ⟨.eof, "", stop⟩)] ∧
      ∀ x ∈ before, x.2.token ≠ .eof := by
  fun_induction takeAll stop cs with
  | case1 cs t heof =>
    have ht : t = ⟨⟨.eof, "", stop⟩, strayErrors (cs.drop 1), []⟩ := take_eof heof
    refine ⟨[], t.errors, ?_, by simp⟩
    rw [ht]
    rfl
  | case2 cs t hne ih =>
    obtain ⟨before, errors, hrest, hbefore⟩ := ih
    exact ⟨(t.errors, t.lexeme) :: before, errors, by rw [hrest]; rfl,
      List.forall_mem_cons.2 ⟨hne, hbefore⟩⟩

end Wordlang.Lexical

namespace Wordlang.Scanner

open Text (Glyph)
open Text.Utf8 (Reads)
open Lexical

/-! ## The end of the input -/

/-- A scanner has reported what belongs to the lexemes that it has taken. -/
theorem iterate_reports (sc : Scanner) (k : Nat) :
    (next^[k] sc).reports = sc.reports ++ ((takeAll sc.stop sc.ahead).take k).flatMap (·.1) := by
  induction k with
  | zero => simp
  | succ k ih =>
    have hstep := sc.iterate_next k
    rw [List.take_add_one]
    cases hk : (takeAll sc.stop sc.ahead)[k]? with
    | none =>
      rw [hk] at hstep
      rw [show next^[k + 1] sc = next^[k] sc from hstep, ih]
      simp
    | some x =>
      rw [hk] at hstep
      rw [hstep.2, ih]
      simp

/-- The lexemes of a scanner: those before the end of the input, which is not among them, and from
then on the end. -/
theorem exists_end (sc : Scanner) : ∃ before errors,
    takeAll sc.stop sc.ahead = before ++ [(errors, ⟨.eof, "", sc.stop⟩)] ∧
    (∀ k (hk : k < before.length), (next^[k + 1] sc).lexeme = before[k].2 ∧
      before[k].2.token ≠ .eof) ∧
    (next^[before.length + 1] sc).lexeme = ⟨.eof, "", sc.stop⟩ ∧
    ∀ k, next^[before.length + 1 + k] sc = next^[before.length + 1] sc := by
  obtain ⟨before, errors, hall, hbefore⟩ := takeAll_eq_concat sc.stop sc.ahead
  have hstep : ∀ k, _ := sc.iterate_next
  rw [hall] at hstep
  refine ⟨before, errors, hall, ?_, ?_, ?_⟩
  · intro k hk
    have hlexeme := hstep k
    rw [List.getElem?_append_left hk, List.getElem?_eq_getElem hk] at hlexeme
    exact ⟨hlexeme.1, hbefore _ (List.getElem_mem hk)⟩
  · have hlexeme := hstep before.length
    rw [List.getElem?_append_right (Nat.le_refl _), Nat.sub_self] at hlexeme
    exact hlexeme.1
  · intro k
    induction k with
    | zero => rfl
    | succ k ih =>
      have hlast := hstep (before.length + 1 + k)
      rw [List.getElem?_eq_none (by simp)] at hlast
      exact hlast.trans ih

/-- As many error tokens are taken as stand before the end. -/
theorem countP_next_error {sc : Scanner} {before : List (List LexicalError × Lexeme)}
    (h : ∀ k (hk : k < before.length), (next^[k + 1] sc).lexeme = before[k].2) :
    ((List.range before.length).countP fun k => (next^[k + 1] sc).lexeme.token = .error) =
      before.countP fun x => x.2.token = .error := by
  have hmap : (List.range before.length).map (fun k => (next^[k + 1] sc).lexeme) =
      before.map Prod.snd := by
    refine List.ext_getElem (by simp) ?_
    intro k hk hk'
    rw [List.getElem_map, List.getElem_map, List.getElem_range]
    exact h k (by simpa using hk')
  have hcount := congrArg (List.countP fun l : Lexeme => l.token = .error) hmap
  rw [List.countP_map, List.countP_map] at hcount
  exact hcount

/-- By the end, a scanner has reported every error token, and every stray byte behind its current
character. -/
theorem length_reports_end {sc : Scanner} {before : List (List LexicalError × Lexeme)}
    {errors : List LexicalError}
    (hall : takeAll sc.stop sc.ahead = before ++ [(errors, ⟨.eof, "", sc.stop⟩)])
    (h : ∀ k (hk : k < before.length), (next^[k + 1] sc).lexeme = before[k].2) :
    (next^[before.length + 1] sc).reports.length = sc.reports.length +
      (((List.range before.length).countP fun k => (next^[k + 1] sc).lexeme.token = .error) +
        (strayErrors (sc.ahead.drop 1)).length) := by
  have hcount := length_takeAll_reports sc.stop sc.ahead
  have htake : (takeAll sc.stop sc.ahead).take (before.length + 1) = takeAll sc.stop sc.ahead := by
    rw [hall]
    exact List.take_of_length_le (by simp)
  have herrors : ((takeAll sc.stop sc.ahead).countP fun x => x.2.token = .error) =
      before.countP fun x => x.2.token = .error := by
    rw [hall, List.countP_append]
    simp
  rw [iterate_reports, htake, List.length_append, hcount, herrors, countP_next_error h]

/-! ## The scanner of a source -/

/-- The stray bytes among the characters of a source are those of its glyphs. -/
theorem length_strayErrors_located (s : Source) :
    (strayErrors (s.located.take 1)).length + (strayErrors (s.located.drop 1)).length =
      s.glyphs.countP Glyph.isStray := by
  rw [strayErrors, strayErrors, List.length_map, List.length_map, ← List.length_append,
    ← List.filter_append, List.take_append_drop, ← List.countP_eq_length_filter,
    ← Source.map_glyph_located, List.countP_map]
  rfl

/-- Scanning always ends, and accounts for every error. When the bytes are read as the glyphs, the
scanner comes to the end of the input after at most as many other lexemes as there are bytes. From
then on each call of `next` changes nothing: it gives the end of the input at the same position, and
reports nothing. By then the error handler has been called once for every error token and once for
every byte that UTF-8 rejects. -/
theorem scanning_ends (file : String) {bytes : List UInt8} {gs : List Glyph}
    (hgs : Reads bytes gs) :
    ∃ n ≤ bytes.length,
      (∀ k < n, ((Source.ofBytes file bytes).scanned (k + 1)).lexeme.token ≠ .eof) ∧
      ((Source.ofBytes file bytes).scanned (n + 1)).lexeme.token = .eof ∧
      ((Source.ofBytes file bytes).scanned (n + 1)).lexeme.text = "" ∧
      (∀ k, (Source.ofBytes file bytes).scanned (n + 1 + k) =
        (Source.ofBytes file bytes).scanned (n + 1)) ∧
      ((Source.ofBytes file bytes).scanned (n + 1)).reports.length =
        ((List.range n).countP fun k =>
          ((Source.ofBytes file bytes).scanned (k + 1)).lexeme.token = .error) +
            gs.countP Glyph.isStray := by
  obtain ⟨hahead, -, hreports⟩ := ofSource_spec (.ofBytes file bytes)
  have hglyphs : (Source.ofBytes file bytes).glyphs = gs := hgs.eq_decode.symm
  have hlocated : (Source.ofBytes file bytes).located.length = gs.length := by
    rw [← List.length_map (f := Located.glyph), Source.map_glyph_located, hglyphs]
  have hopening : (Source.ofBytes file bytes).openingErrors =
      strayErrors ((Source.ofBytes file bytes).located.take 1) := rfl
  have hstray := length_strayErrors_located (.ofBytes file bytes)
  have hbytes := hgs.length_le
  unfold Source.scanned
  rw [hopening] at hreports
  rw [hglyphs, ← hahead] at hstray
  rw [← hahead] at hlocated hreports
  generalize ofSource (.ofBytes file bytes) = sc at hreports hlocated hstray ⊢
  obtain ⟨before, errors, hall, hbefore, hend, hstay⟩ := sc.exists_end
  have hlexemes := fun k hk => (hbefore k hk).1
  refine ⟨before.length, ?_, ?_, ?_, ?_, hstay, ?_⟩
  · have hsize := length_takeAll_le sc.stop sc.ahead
    rw [hall, hlocated, List.length_append, List.length_singleton] at hsize
    omega
  · intro k hk
    rw [hlexemes k hk]
    exact (hbefore k hk).2
  · rw [hend]
  · rw [hend]
  · rw [length_reports_end hall hlexemes, hreports, ← hstray]
    omega

/-- A text with a string that spans lines, a byte that UTF-8 rejects in front of an encoded replacement
character, an empty string, and a string that does not end. -/
def frayed : List UInt8 :=
  Text.Utf8.ofString "a \"b\nc\" " ++ [0xff] ++ Text.Utf8.ofString "\uFFFD \"\"\n\"x"

def frayedGlyphs : List Glyph :=
  "a \"b\nc\" ".toList.map .char ++ [.stray 0xff] ++ "\uFFFD \"\"\n\"x".toList.map .char

theorem frayed_ends :
    Reads frayed frayedGlyphs ∧ ∃ n ≤ 18,
      ((Source.ofBytes "f" frayed).scanned (n + 1)).lexeme.token = .eof ∧
      ((Source.ofBytes "f" frayed).scanned (n + 1)).reports.length =
        ((List.range n).countP fun k =>
          ((Source.ofBytes "f" frayed).scanned (k + 1)).lexeme.token = .error) + 1 := by
  have hreads : Reads frayed frayedGlyphs := Text.Utf8.reads_iff.2 (by decide +kernel)
  have hlength : frayed.length = 18 := by decide +kernel
  obtain ⟨n, hn, -, heof, -, -, hreports⟩ := scanning_ends "f" hreads
  rw [hlength] at hn
  exact ⟨hreads, n, hn, heof, hreports⟩

end Wordlang.Scanner
