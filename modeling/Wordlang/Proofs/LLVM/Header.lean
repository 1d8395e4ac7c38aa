import Wordlang.Proofs.LLVM.Decode
import Wordlang.Proofs.LLVM.Delivery
import Wordlang.Proofs.LLVM.Text

/-!
# The header of a module, read back

Above its functions and constants, a module is written with its name, twice, and with its target
triple. A reader of the text meets a comment, the name of a source and a triple, each in a line of
its own. The name of the source is escaped; the comment and the triple are written as they are, so
that what they hold decides what is read.

A name or a triple may also be bytes that are no text. What is read does not depend on how the bytes
of a character are found (`Coding`): in UTF-8, or as one byte for each character.
-/

namespace Wordlang.LLVM

open IR Reader

/-! ## The bytes of characters -/

/-- How characters stand for bytes: a character of ASCII for itself, and none for nothing. -/
structure Coding (code : Char → List UInt8) : Prop where
  ascii : ∀ c, c.toNat < 0x80 → code c = [UInt8.ofNat c.toNat]
  pos : ∀ c, 0 < (code c).length

/-- The byte of a character, in a text with a character for each byte. -/
def byteOf (c : Char) : List UInt8 := [UInt8.ofNat c.toNat]

theorem coding_utf8 : Coding String.utf8EncodeChar where
  ascii := fun c hc => by
    rcases utf8EncodeChar_cases c with ⟨-, h⟩ | ⟨hhigh, -⟩
    · exact h
    · omega
  pos := fun c => by
    rcases utf8EncodeChar_cases c with ⟨-, h⟩ | ⟨-, b, hb, -⟩
    · simp [h]
    · exact List.length_pos_of_mem hb

theorem coding_byteOf : Coding byteOf where
  ascii := fun _ _ => rfl
  pos := fun _ => Nat.one_pos

/-! ## A reader of headers -/

/-- The value of a hexadecimal digit. -/
def nibble? (c : Char) : Option Nat := hexValue? c.toUpper

/-- The bytes that a text between quotes stands for: a backslash with two hexadecimal digits is the
byte of this number, every other character its own bytes. -/
def unescapeBy (code : Char → List UInt8) : List Char → List UInt8
  | '\\' :: high :: low :: cs =>
    match nibble? high, nibble? low with
    | some a, some b => UInt8.ofNat (16 * a + b) :: unescapeBy code cs
    | _, _ => 0x5C :: unescapeBy code (high :: low :: cs)
  | c :: cs => code c ++ unescapeBy code cs
  | [] => []

/-- The same for a text in UTF-8. -/
abbrev unescape : List Char → List UInt8 := unescapeBy String.utf8EncodeChar

/-- Reads up to the quote that closes, which has to be the last character. -/
def readQuotedBy (code : Char → List UInt8) (cs : List Char) : Option (List UInt8) :=
  if cs.dropWhile (· ≠ '"') = ['"'] then some (unescapeBy code (cs.takeWhile (· ≠ '"'))) else none

/-- The same for a text in UTF-8. -/
abbrev readQuoted : List Char → Option (List UInt8) := readQuotedBy String.utf8EncodeChar

/-- A line above the functions and constants. -/
inductive Heading where
  | blank
  | comment
  /-- The name of the source. -/
  | source (name : List UInt8)
  | triple (target : List UInt8)
  deriving DecidableEq, Repr

/-- What follows the given text. -/
def after? (start : String) (line : String) : Option (List Char) :=
  if start.toList <+: line.toList then some (line.toList.drop start.toList.length) else none

/-- Reads a line by what it starts with; what is behind a triple or a name has to be quoted. -/
def readHeadingBy (code : Char → List UInt8) (line : String) : Option Heading :=
  if line = "" then some .blank
  else if line.toList.head? = some ';' then some .comment
  else match after? "source_filename = \"" line, after? "target triple = \"" line with
    | some cs, _ => (readQuotedBy code cs).map .source
    | none, some cs => (readQuotedBy code cs).map .triple
    | none, none => none

abbrev readHeading : String → Option Heading := readHeadingBy String.utf8EncodeChar

/-- The headings of a text, line by line; `none` is a line that is no heading. -/
def headingsBy (code : Char → List UInt8) (text : String) : List (Option Heading) :=
  (linesOf text).map (readHeadingBy code)

abbrev headings : String → List (Option Heading) := headingsBy String.utf8EncodeChar

/-- What a header with the name and the triple is to be read as. The line at the end is what follows
the last line feed. -/
def intendedOf (name triple : List UInt8) : List Heading :=
  [.comment, .source name] ++ (if triple = [] then [] else [.triple triple]) ++ [.blank]

/-- What the header of a module is to be read as. -/
def intended (m : Module) : List Heading :=
  [.comment, .source (Text.Utf8.ofString m.name)] ++
    (if m.triple = "" then [] else [.triple (Text.Utf8.ofString m.triple)]) ++ [.blank]

/-! ## Escapes -/

/-- There is a backslash with two hexadecimal digits. -/
def Escaped (cs : List Char) : Prop :=
  ∃ high low, (nibble? high).isSome ∧ (nibble? low).isSome ∧ ['\\', high, low] <:+: cs

theorem escaped_cons {c : Char} {cs : List Char} : Escaped (c :: cs) ↔
    (c = '\\' ∧ ∃ high low rest, cs = high :: low :: rest ∧
      (nibble? high).isSome ∧ (nibble? low).isSome) ∨ Escaped cs := by
  constructor
  · rintro ⟨high, low, hhigh, hlow, hwithin⟩
    rcases List.infix_cons_iff.1 hwithin with hprefix | hwithin
    · obtain ⟨rest, hrest⟩ := hprefix
      obtain ⟨rfl, rfl⟩ := List.cons.inj hrest
      exact .inl ⟨rfl, high, low, rest, rfl, hhigh, hlow⟩
    · exact .inr ⟨high, low, hhigh, hlow, hwithin⟩
  · rintro (⟨rfl, high, low, rest, rfl, hhigh, hlow⟩ | ⟨high, low, hhigh, hlow, hwithin⟩)
    · exact ⟨high, low, hhigh, hlow, (List.prefix_append _ rest).isInfix⟩
    · exact ⟨high, low, hhigh, hlow, List.infix_cons hwithin⟩

section Coding

variable {code : Char → List UInt8} (hcode : Coding code)

/-- Whether a text stands for its own bytes. -/
def Verdict (code : Char → List UInt8) (cs : List Char) (bytes : List UInt8) : Prop :=
  (¬ Escaped cs ∧ bytes = cs.flatMap code) ∨
    (Escaped cs ∧ bytes.length < (cs.flatMap code).length)

/-- A character that begins no escape. -/
theorem Verdict.cons {c : Char} {cs : List Char} {bytes : List UInt8} (h : Verdict code cs bytes)
    (hc : Escaped (c :: cs) ↔ Escaped cs) : Verdict code (c :: cs) (code c ++ bytes) := by
  unfold Verdict
  rw [hc, List.flatMap_cons]
  rcases h with ⟨hplain, heq⟩ | ⟨hescaped, hlt⟩
  · exact .inl ⟨hplain, by rw [heq]⟩
  · refine .inr ⟨hescaped, ?_⟩
    simp only [List.length_append]
    omega

include hcode

/-- A text stands for its own bytes, or for fewer if there is an escape in it. -/
theorem verdict_unescapeBy (cs : List Char) : Verdict code cs (unescapeBy code cs) := by
  fun_induction unescapeBy code cs with
  | case1 high low cs a b hlow hhigh ih =>
    have hescaped : Escaped ('\\' :: high :: low :: cs) :=
      escaped_cons.2 (.inl ⟨rfl, high, low, cs, rfl, by simp [hhigh], by simp [hlow]⟩)
    have hfirst := hcode.pos high
    have hsecond := hcode.pos low
    have hbackslash := hcode.pos '\\'
    have hrest : (unescapeBy code cs).length ≤ (cs.flatMap code).length := by
      rcases ih with ⟨-, heq⟩ | ⟨-, hlt⟩
      · exact heq ▸ Nat.le_refl _
      · omega
    refine .inr ⟨hescaped, ?_⟩
    simp only [List.flatMap_cons, List.length_append, List.length_cons]
    omega
  | case2 high low cs hnone ih =>
    have hbackslash : code '\\' = [0x5C] := hcode.ascii _ (by decide)
    have hpass := ih.cons (c := '\\') ⟨fun h => ?_, fun h => escaped_cons.2 (.inr h)⟩
    · rwa [hbackslash] at hpass
    · rcases escaped_cons.1 h with ⟨-, h', l', rest, heq, hhigh, hlow⟩ | h
      · cases heq
        obtain ⟨a, ha⟩ := Option.isSome_iff_exists.1 hhigh
        obtain ⟨b, hb⟩ := Option.isSome_iff_exists.1 hlow
        exact (hnone a b ha hb).elim
      · exact h
  | case3 c cs hne ih =>
    refine ih.cons ⟨fun h => ?_, fun h => escaped_cons.2 (.inr h)⟩
    rcases escaped_cons.1 h with ⟨hc, high, low, rest, hcs, -⟩ | h
    · exact (hne high low rest hc hcs).elim
    · exact h
  | case4 =>
    refine .inl ⟨?_, rfl⟩
    rintro ⟨high, low, -, -, hwithin⟩
    simp at hwithin

theorem unescapeBy_eq_iff (cs : List Char) :
    unescapeBy code cs = cs.flatMap code ↔ ¬ Escaped cs := by
  rcases verdict_unescapeBy hcode cs with ⟨hplain, heq⟩ | ⟨hescaped, hlt⟩
  · exact ⟨fun _ => hplain, fun _ => heq⟩
  · refine ⟨fun heq => ?_, fun h => absurd hescaped h⟩
    rw [heq] at hlt
    exact absurd hlt (by omega)

/-! ## What was escaped -/

omit hcode in
theorem nibble?_hexDigit {n : Nat} (h : n < 16) : nibble? (hexDigit n) = some n := by
  have hall : ∀ n < 16, nibble? (hexDigit n) = some n := by decide
  exact hall n h

omit hcode in
theorem unescapeBy_cons {c : Char} (h : c ≠ '\\') (cs : List Char) :
    unescapeBy code (c :: cs) = code c ++ unescapeBy code cs := by
  rw [unescapeBy]
  rintro high low rest rfl
  exact absurd rfl h

theorem unescapeBy_escapeByte (b : UInt8) (cs : List Char) :
    unescapeBy code (escapeByte b ++ cs) = b :: unescapeBy code cs := by
  unfold escapeByte
  by_cases hb : needsEscape b = true
  · have hlt := b.toNat_lt
    have hbyte : 16 * (b.toNat / 16) + b.toNat % 16 = b.toNat := by omega
    have hhigh := nibble?_hexDigit (n := b.toNat / 16) (by omega)
    have hlow := nibble?_hexDigit (n := b.toNat % 16) (by omega)
    rw [if_pos hb]
    show unescapeBy code ('\\' :: hexDigit (b.toNat / 16) :: hexDigit (b.toNat % 16) :: cs) = _
    simp only [unescapeBy, hhigh, hlow, hbyte, UInt8.ofNat_toNat]
  · obtain ⟨hc, hn, hlt⟩ := escapeByte_plain (Bool.not_eq_true _ ▸ hb)
    have hbytes : code (Char.ofNat b.toNat) = [b] := by
      rw [hcode.ascii _ (by omega), hn, UInt8.ofNat_toNat]
    rw [if_neg hb, List.singleton_append, unescapeBy_cons hc, hbytes]
    rfl

theorem unescapeBy_escape (bytes : List UInt8) :
    unescapeBy code (escape bytes).toList = bytes := by
  rw [escape, String.toList_ofList]
  induction bytes with
  | nil => rfl
  | cons b bytes ih => rw [List.flatMap_cons, unescapeBy_escapeByte hcode, ih]

end Coding

theorem unescape_escape (bytes : List UInt8) : unescape (escape bytes).toList = bytes :=
  unescapeBy_escape coding_utf8 bytes

/-! ## Lines -/

section Lines

variable {code : Char → List UInt8}

/-- Between quotes, a text is read to its end if there is no other quote. -/
theorem readQuotedBy_iff {cs : List Char} {bytes : List UInt8} :
    readQuotedBy code (cs ++ ['"']) = some bytes ↔ '"' ∉ cs ∧ unescapeBy code cs = bytes := by
  have hpass : ∀ before : List Char, '"' ∉ before → ∀ c ∈ before, decide (c ≠ '"') = true := by
    intro before hnone c hc
    refine decide_eq_true ?_
    rintro rfl
    exact hnone hc
  unfold readQuotedBy
  by_cases hquote : '"' ∈ cs
  · obtain ⟨before, rest, rfl, hnone⟩ := List.eq_append_cons_of_mem hquote
    have hdrop : (before ++ '"' :: rest ++ ['"']).dropWhile (· ≠ '"') =
        '"' :: (rest ++ ['"']) := by
      rw [List.append_assoc, List.dropWhile_append_of_pos (hpass before hnone)]
      simp
    rw [hdrop, if_neg (by simp)]
    simp
  · rw [List.dropWhile_append_of_pos (hpass cs hquote),
      List.takeWhile_append_of_pos (hpass cs hquote)]
    simp [hquote]

theorem after?_append (start rest : String) : after? start (start ++ rest) = some rest.toList := by
  have hprefix : start.toList <+: (start ++ rest).toList := by simp
  rw [after?, if_pos hprefix]
  simp

/-- A line that is no comment is read by what it starts with. -/
theorem readHeadingBy_of_head {line : String} {c : Char} (h : line.toList.head? = some c)
    (hc : c ≠ ';') : readHeadingBy code line =
      match after? "source_filename = \"" line, after? "target triple = \"" line with
      | some cs, _ => (readQuotedBy code cs).map .source
      | none, some cs => (readQuotedBy code cs).map .triple
      | none, none => none := by
  have hne : line ≠ "" := by
    rintro rfl
    simp at h
  have hcomment : line.toList.head? ≠ some ';' := by
    rw [h]
    exact fun heq => hc (Option.some.inj heq)
  rw [readHeadingBy, if_neg hne, if_neg hcomment]

theorem readHeadingBy_comment (name : String) :
    readHeadingBy code ("; ModuleID = '" ++ name ++ "'") = some .comment := by
  have hhead : ("; ModuleID = '" ++ name ++ "'").toList.head? = some ';' := by simp
  have hne : "; ModuleID = '" ++ name ++ "'" ≠ "" := by
    intro h
    simp [h] at hhead
  rw [readHeadingBy, if_neg hne, if_pos hhead]

theorem readHeadingBy_source (hcode : Coding code) (bytes : List UInt8) :
    readHeadingBy code ("source_filename = \"" ++ escape bytes ++ "\"") = some (.source bytes) := by
  have hhead : ("source_filename = \"" ++ escape bytes ++ "\"").toList.head? = some 's' := by simp
  have hafter : after? "source_filename = \"" ("source_filename = \"" ++ escape bytes ++ "\"") =
      some ((escape bytes).toList ++ ['"']) := by
    rw [String.append_assoc, after?_append]
    simp
  have hquoted : readQuotedBy code ((escape bytes).toList ++ ['"']) = some bytes :=
    readQuotedBy_iff.2 ⟨fun h => (escape_chars _ _ h).1 rfl, unescapeBy_escape hcode _⟩
  rw [readHeadingBy_of_head hhead (by decide), hafter]
  dsimp only
  rw [hquoted]
  rfl

theorem readHeadingBy_triple (t : String) : readHeadingBy code ("target triple = \"" ++ t ++ "\"") =
    (readQuotedBy code (t.toList ++ ['"'])).map .triple := by
  have hhead : ("target triple = \"" ++ t ++ "\"").toList.head? = some 't' := by simp
  have hother : after? "source_filename = \"" ("target triple = \"" ++ t ++ "\"") = none := by
    refine if_neg ?_
    rintro ⟨rest, hrest⟩
    rw [← hrest] at hhead
    simp at hhead
  have hafter : after? "target triple = \"" ("target triple = \"" ++ t ++ "\"") =
      some (t.toList ++ ['"']) := by
    rw [String.append_assoc, after?_append]
    simp
  rw [readHeadingBy_of_head hhead (by decide), hother, hafter]

theorem readHeadingBy_triple_iff (hcode : Coding code) {t : String} :
    readHeadingBy code ("target triple = \"" ++ t ++ "\"") = some (.triple (t.toList.flatMap code)) ↔
      '"' ∉ t.toList ∧ ¬ Escaped t.toList := by
  rw [readHeadingBy_triple, ← unescapeBy_eq_iff hcode, ← readQuotedBy_iff]
  constructor
  · intro h
    obtain ⟨bytes, hbytes, heq⟩ := Option.map_eq_some_iff.1 h
    cases heq
    exact hbytes
  · intro h
    rw [h, Option.map_some]

end Lines

/-! ## Texts of lines -/

theorem length_linesOf_pos (text : String) : 1 ≤ (linesOf text).length := by
  rw [linesOf, List.length_map]
  exact List.length_pos_of_ne_nil (List.splitOnP_ne_nil _ _)

theorem unbroken_iff {text : String} : Unbroken text ↔ (linesOf text).length = 1 := by
  constructor
  · intro h
    rw [linesOf_unbroken h]
    rfl
  · intro h c hc
    by_contra hbreak
    obtain ⟨before, rest, hsplit⟩ := List.append_of_mem hc
    have hbefore := List.length_pos_of_ne_nil (List.splitOnP_ne_nil isBreak before)
    have hrest := List.length_pos_of_ne_nil (List.splitOnP_ne_nil isBreak rest)
    rw [linesOf, List.length_map, hsplit,
      List.splitOnP_append_cons _ _ (Bool.not_eq_false _ ▸ hbreak), List.length_append] at h
    omega

theorem length_le_linesOf (texts : List String) :
    texts.length ≤ (texts.flatMap linesOf).length := by
  induction texts with
  | nil => simp
  | cons text texts ih =>
    have hfirst := length_linesOf_pos text
    rw [List.flatMap_cons, List.length_append, List.length_cons]
    omega

/-- Texts that make up no more lines than they are stay as they are. -/
theorem unbroken_of_length {texts : List String}
    (h : (texts.flatMap linesOf).length = texts.length) : ∀ text ∈ texts, Unbroken text := by
  induction texts with
  | nil => simp
  | cons text texts ih =>
    have hfirst := length_linesOf_pos text
    have hrest := length_le_linesOf texts
    rw [List.flatMap_cons, List.length_append, List.length_cons] at h
    exact List.forall_mem_cons.2 ⟨unbroken_iff.2 (by omega), ih (by omega)⟩

/-- What is intended is read, exactly if no line is broken and each is read as intended. -/
theorem headingsBy_joined_iff {code : Char → List UInt8} {texts : List String} {hs : List Heading}
    (h : hs.length = texts.length) :
    headingsBy code (joined texts) = (hs ++ [Heading.blank]).map some ↔
      (∀ text ∈ texts, Unbroken text) ∧ texts.map (readHeadingBy code) = hs.map some := by
  have hread : headingsBy code (joined texts) = (hs ++ [Heading.blank]).map some ↔
      (texts.flatMap linesOf).map (readHeadingBy code) = hs.map some := by
    rw [headingsBy, linesOf_joined, List.map_append, List.map_append]
    exact List.append_left_inj _
  have hunbroken : (∀ text ∈ texts, Unbroken text) → texts.flatMap linesOf = texts := by
    intro hall
    conv_rhs => rw [← List.flatMap_singleton' texts]
    exact List.flatMap_congr fun text htext => linesOf_unbroken (hall text htext)
  rw [hread]
  constructor
  · intro heq
    have hall := unbroken_of_length (by simpa [h] using congrArg List.length heq)
    rw [hunbroken hall] at heq
    exact ⟨hall, heq⟩
  · rintro ⟨hall, heq⟩
    rw [hunbroken hall]
    exact heq

/-! ## The header -/

/-- A text that can be written between quotes as it is. -/
structure Plain (text : String) : Prop where
  unbroken : Unbroken text
  unquoted : '"' ∉ text.toList
  unescaped : ¬ Escaped text.toList

theorem unbroken_middle {start text rest : String} (h : Unbroken (start ++ text ++ rest)) :
    Unbroken text := by
  intro c hc
  exact h c (by simp [hc])

/-- The lines are none, or the first one is blank. -/
def Apart (ls : List Line) : Prop := ls.takeWhile (· ≠ .blank) = []

theorem Apart.append {a b : List Line} (ha : Apart a) (hb : Apart b) : Apart (a ++ b) := by
  cases a with
  | nil => exact hb
  | cons l a =>
    have hl : l = .blank := by simpa [Apart, List.takeWhile_cons] using ha
    simp [Apart, hl]

theorem apart_group (ls : List Line) : Apart (group ls) := by
  unfold group
  split
  · rfl
  · simp [Apart]

theorem apart_definedLines (m : Module) : Apart (definedLines m) := by
  unfold definedLines
  induction m.funcs.filter (!·.external) with
  | nil => rfl
  | cons f fs ih =>
    have hfunc : Apart (f.sig.elim [] (funcLines m f)) := by
      cases f.sig with
      | none => rfl
      | some sig => simp [Apart, funcLines]
    exact hfunc.append ih

/-- The header is what stands above the first blank line. -/
theorem takeWhile_header {m : Module} {r : Rendering} (h : render? m = some r) :
    r.lines.takeWhile (· ≠ .blank) = header m := by
  obtain ⟨declared, hpieces⟩ := render_pieces h
  have hheader : ∀ l ∈ header m, decide (l ≠ .blank) = true := by
    unfold header
    split
    · simp
    · simp
  have hrest : Apart (group (m.globals.map fun g => .global g.name g.data) ++ group declared ++
      definedLines m) :=
    ((apart_group _).append (apart_group _)).append (apart_definedLines m)
  rw [hpieces.lines, frontLines, List.append_assoc, List.append_assoc,
    List.takeWhile_append_of_pos hheader, ← List.append_assoc, hrest, List.append_nil]

theorem unbroken_moduleComment {name : String} :
    Unbroken ("; ModuleID = '" ++ name ++ "'") ↔ Unbroken name :=
  ⟨unbroken_middle, fun h => unbroken_line (l := .moduleComment name) h⟩

theorem unbroken_source (bytes : List UInt8) :
    Unbroken ("source_filename = \"" ++ escape bytes ++ "\"") :=
  .append (.append (by decide) (unbroken_escape _)) (by decide)

theorem unbroken_triple {t : String} : Unbroken ("target triple = \"" ++ t ++ "\"") ↔ Unbroken t :=
  ⟨unbroken_middle, fun h => unbroken_line (l := .triple t) h⟩

/-- The lines of a header with the name and the triple. The name is escaped by its bytes. -/
def headerTexts (code : Char → List UInt8) (name triple : String) : List String :=
  ["; ModuleID = '" ++ name ++ "'",
      "source_filename = \"" ++ escape (name.toList.flatMap code) ++ "\""] ++
    if triple = "" then [] else ["target triple = \"" ++ triple ++ "\""]

theorem map_text_header (m : Module) :
    (header m).map Line.text = headerTexts String.utf8EncodeChar m.name m.triple := by
  unfold header headerTexts
  rw [← Text.Utf8.ofString_eq]
  split <;> rfl

section Header

variable {code : Char → List UInt8} (hcode : Coding code)

include hcode

/-- The name of the source is in a line of its own, and can be read there. -/
theorem source_headerTexts (name triple : String) : ∃ text ∈ headerTexts code name triple,
    Unbroken text ∧ readHeadingBy code text = some (.source (name.toList.flatMap code)) := by
  refine ⟨_, ?_, unbroken_source _, readHeadingBy_source hcode _⟩
  exact List.mem_append_left _ (List.mem_cons_of_mem _ List.mem_cons_self)

/-- The header is read as intended if the comment and the triple can stand there as they are. -/
theorem headings_headerTexts (name triple : String) :
    headingsBy code (joined (headerTexts code name triple)) =
        (intendedOf (name.toList.flatMap code) (triple.toList.flatMap code)).map some ↔
      Unbroken name ∧ Plain triple := by
  have hsource := unbroken_source (name.toList.flatMap code)
  by_cases htriple : triple = ""
  · have hplain : Plain "" := by
      refine ⟨by decide, by simp, ?_⟩
      rintro ⟨high, low, -, -, h⟩
      simp at h
    subst htriple
    rw [headerTexts, if_pos rfl, intendedOf, if_pos (by simp), List.append_nil, List.append_nil,
      headingsBy_joined_iff rfl]
    simp [readHeadingBy_comment, readHeadingBy_source hcode, unbroken_moduleComment, hsource, hplain]
  · have hne : triple.toList.flatMap code ≠ [] := by
      intro hnil
      obtain ⟨c, cs, hcs⟩ := List.exists_cons_of_ne_nil (mt String.toList_eq_nil_iff.1 htriple)
      have hempty := List.flatMap_eq_nil_iff.1 hnil c (by simp [hcs])
      exact absurd (hcode.pos c) (by simp [hempty])
    have hplain : Plain triple ↔
        Unbroken triple ∧ '"' ∉ triple.toList ∧ ¬ Escaped triple.toList :=
      ⟨fun h => ⟨h.unbroken, h.unquoted, h.unescaped⟩, fun h => ⟨h.1, h.2.1, h.2.2⟩⟩
    rw [headerTexts, if_neg htriple, intendedOf, if_neg hne, headingsBy_joined_iff rfl, hplain]
    simp [readHeadingBy_comment, readHeadingBy_source hcode, readHeadingBy_triple_iff hcode,
      unbroken_moduleComment, hsource, unbroken_triple, and_assoc]

end Header

theorem intended_eq (m : Module) :
    intended m = intendedOf (Text.Utf8.ofString m.name) (Text.Utf8.ofString m.triple) := by
  have hnone : Text.Utf8.ofString "" = [] := by decide +kernel
  have hempty : Text.Utf8.ofString m.triple = [] ↔ m.triple = "" :=
    ⟨fun h => Text.Utf8.ofString_injective (h.trans hnone.symm), fun h => h ▸ hnone⟩
  simp only [intended, intendedOf, hempty]

theorem headings_header (m : Module) :
    headings (textOf (header m)) = (intended m).map some ↔ Unbroken m.name ∧ Plain m.triple := by
  rw [textOf_eq_joined, map_text_header, intended_eq, Text.Utf8.ofString_eq, Text.Utf8.ofString_eq]
  exact headings_headerTexts coding_utf8 m.name m.triple

/-- What is read of a header: the name of the source always, and all of it as intended exactly if
the name is in one line and the triple can stand between quotes as it is. -/
theorem header_read {ε : Type} (m : Module) {ls : List Line} {error : Option (GenerateError ε)}
    (hwritten : generate (.unfailing ε) m = some (ls, error)) :
    (∃ l ∈ ls.takeWhile (· ≠ .blank), Unbroken l.text ∧
      readHeading l.text = some (.source (Text.Utf8.ofString m.name))) ∧
    ((∃ t, Line.triple t ∈ ls.takeWhile (· ≠ .blank)) ↔ m.triple ≠ "") ∧
    (headings (textOf (ls.takeWhile (· ≠ .blank))) = (intended m).map some ↔
      Unbroken m.name ∧ Plain m.triple) := by
  rw [generate_unfailing, Option.map_eq_some_iff] at hwritten
  obtain ⟨r, hr, hwritten⟩ := hwritten
  obtain rfl : r.lines = ls := congrArg Prod.fst hwritten
  rw [takeWhile_header hr]
  have hmem : Line.sourceFile m.name ∈ header m := by simp [header]
  refine ⟨⟨_, hmem, unbroken_source _, readHeadingBy_source coding_utf8 _⟩, ?_, headings_header m⟩
  by_cases htriple : m.triple = ""
  · simp [header, htriple]
  · simp [header, htriple]

/-- A module whose triple goes on where it should have ended. -/
def forged : Module := .empty "m" "x\"\nsource_filename = \"y"

theorem forged_header : ∃ ls error, generate (.unfailing String) forged = some (ls, error) ∧
    (∃ l ∈ ls.takeWhile (· ≠ .blank), Unbroken l.text ∧
      readHeading l.text = some (.source (Text.Utf8.ofString forged.name))) ∧
    ((∃ t, Line.triple t ∈ ls.takeWhile (· ≠ .blank)) ↔ forged.triple ≠ "") ∧
    (headings (textOf (ls.takeWhile (· ≠ .blank))) = (intended forged).map some ↔
      Unbroken forged.name ∧ Plain forged.triple) := by
  have hwritten : generate (.unfailing String) forged = some (header forged, none) := by decide
  exact ⟨_, _, hwritten, header_read forged hwritten⟩

/-- The triple of that module is read as a triple and another name of the source. -/
theorem forged_misread : ¬ ∀ (m : Module) ls error,
    generate (.unfailing String) m = some (ls, error) →
      headings (textOf (ls.takeWhile (· ≠ .blank))) = (intended m).map some := by
  intro hall
  have hwritten : generate (.unfailing String) forged = some (header forged, none) := by decide
  have hread : headings (textOf ((header forged).takeWhile (· ≠ .blank))) =
      [some .comment, some (.source [109]), some (.triple [120]), some (.source [121]),
        some .blank] := by decide +kernel
  have hintended := hall forged _ _ hwritten
  rw [hread] at hintended
  exact absurd hintended (by decide +kernel)

/-! ## Names and triples that are no texts -/

theorem flatMap_byteOf (bytes : List UInt8) : (byteText bytes).toList.flatMap byteOf = bytes := by
  have h := charBytes_byteText bytes
  rwa [charBytes, List.map_eq_flatMap] at h

/-- The text with a character for each byte of a text. -/
def bytewise (s : String) : String := byteText (Text.Utf8.ofString s)

theorem bytewise_append (s t : String) : bytewise (s ++ t) = bytewise s ++ bytewise t := by
  simp only [bytewise, Text.Utf8.ofString_eq, String.toList_append, List.flatMap_append,
    byteText_append]

theorem bytewise_eq_empty_iff (s : String) : bytewise s = "" ↔ s = "" := by
  have hempty : bytewise "" = "" := by decide +kernel
  refine ⟨fun h => ?_, fun h => h ▸ hempty⟩
  have hbytes := congrArg charBytes (h.trans hempty.symm)
  rw [bytewise, bytewise, charBytes_byteText, charBytes_byteText] at hbytes
  exact Text.Utf8.ofString_injective hbytes

/-- The frame of a line is written in ASCII. -/
theorem bytewise_framed {start rest : String} (hstart : bytewise start = start)
    (hrest : bytewise rest = rest) (s : String) :
    bytewise (start ++ s ++ rest) = start ++ bytewise s ++ rest := by
  rw [bytewise_append, bytewise_append, hstart, hrest]

theorem escape_ascii (data : List UInt8) : ∀ c ∈ (escape data).toList, c.toNat < 0x80 := by
  rw [escape, String.toList_ofList]
  intro c hc
  obtain ⟨b, -, hc⟩ := List.mem_flatMap.1 hc
  obtain ⟨-, hhigh, -⟩ := escapeByte_printable b c hc
  omega

/-- The bytes of a header are the lines of a header with the bytes of the name and of the triple. -/
theorem bytewise_header (m : Module) : (header m).map (fun l => bytewise l.text) =
    headerTexts byteOf (bytewise m.name) (bytewise m.triple) := by
  have hmark : bytewise "\"" = "\"" := by decide +kernel
  have hcomment : bytewise ("; ModuleID = '" ++ m.name ++ "'") =
      "; ModuleID = '" ++ bytewise m.name ++ "'" :=
    bytewise_framed (by decide +kernel) (by decide +kernel) _
  have hsource : bytewise ("source_filename = \"" ++ escape (Text.Utf8.ofString m.name) ++ "\"") =
      "source_filename = \"" ++ escape (Text.Utf8.ofString m.name) ++ "\"" := by
    rw [bytewise_framed (by decide +kernel) hmark, bytewise, byteText_ofString (escape_ascii _)]
  have htriple : bytewise ("target triple = \"" ++ m.triple ++ "\"") =
      "target triple = \"" ++ bytewise m.triple ++ "\"" :=
    bytewise_framed (by decide +kernel) hmark _
  have hname : (bytewise m.name).toList.flatMap byteOf = Text.Utf8.ofString m.name :=
    flatMap_byteOf _
  rw [header, headerTexts, hname, List.map_append, ← hcomment, ← hsource, ← htriple]
  congr 1
  by_cases hnone : m.triple = ""
  · rw [if_pos hnone, if_pos ((bytewise_eq_empty_iff _).2 hnone), List.map_nil]
  · rw [if_neg hnone, if_neg (mt (bytewise_eq_empty_iff _).1 hnone), List.map_singleton]
    rfl

/-- The same is read of a header whose name and triple are any bytes, a character of the text for
each of them. -/
theorem header_read_bytes (name triple : List UInt8) :
    (∃ text ∈ headerTexts byteOf (byteText name) (byteText triple), Unbroken text ∧
      readHeadingBy byteOf text = some (.source name)) ∧
    (headingsBy byteOf (joined (headerTexts byteOf (byteText name) (byteText triple))) =
        (intendedOf name triple).map some ↔
      Unbroken (byteText name) ∧ Plain (byteText triple)) := by
  have hsource := source_headerTexts coding_byteOf (byteText name) (byteText triple)
  have hheader := headings_headerTexts coding_byteOf (byteText name) (byteText triple)
  rw [flatMap_byteOf] at hsource
  rw [flatMap_byteOf, flatMap_byteOf] at hheader
  exact ⟨hsource, hheader⟩

end Wordlang.LLVM
