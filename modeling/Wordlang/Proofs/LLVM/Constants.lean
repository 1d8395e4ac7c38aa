import Wordlang.Proofs.LLVM.Defined
import Wordlang.Proofs.LLVM.Determined
import Wordlang.Proofs.LLVM.Header

/-!
# String constants as they are written

A string constant is written as an array: how many bytes there are, and a text between quotes that
stands for them. Such a text is printable and has no quote in it, so that it ends where it is meant
to; every backslash in it begins an escape; and read back it gives the bytes, whatever these are.
-/

namespace Wordlang.LLVM

open IR Reader

/-! ## Texts between quotes -/

/-- An upper-case hexadecimal digit. -/
def IsHexDigit (c : Char) : Prop := '0' ≤ c ∧ c ≤ '9' ∨ 'A' ≤ c ∧ c ≤ 'F'

instance : DecidablePred IsHexDigit := fun c =>
  inferInstanceAs (Decidable ('0' ≤ c ∧ c ≤ '9' ∨ 'A' ≤ c ∧ c ≤ 'F'))

/-- Every backslash is followed by two hexadecimal digits. -/
def EscapesOnly (cs : List Char) : Prop :=
  ∀ after, '\\' :: after <:+ cs →
    ∃ high low rest, after = high :: low :: rest ∧ IsHexDigit high ∧ IsHexDigit low

/-- Between quotes, the text stands for the bytes. -/
structure Spells (text : String) (data : List UInt8) : Prop where
  /-- It is written in the printable part of ASCII. -/
  printable : ∀ b ∈ Text.Utf8.ofString text, 0x20 ≤ b ∧ b ≤ 0x7E
  unquoted : 0x22 ∉ Text.Utf8.ofString text
  escapes : EscapesOnly text.toList
  bytes : unescape text.toList = data

theorem isHexDigit_hexDigit {n : Nat} (h : n < 16) : IsHexDigit (hexDigit n) := by
  have hall : ∀ n < 16, IsHexDigit (hexDigit n) := by decide
  exact hall n h

theorem EscapesOnly.cons {c : Char} {cs : List Char} (hc : c ≠ '\\') (h : EscapesOnly cs) :
    EscapesOnly (c :: cs) := by
  intro after hafter
  rcases List.suffix_cons_iff.1 hafter with heq | hafter
  · exact absurd (List.cons.inj heq).1.symm hc
  · exact h after hafter

theorem EscapesOnly.escape {high low : Char} {cs : List Char} (hhigh : IsHexDigit high)
    (hlow : IsHexDigit low) (h : EscapesOnly cs) : EscapesOnly ('\\' :: high :: low :: cs) := by
  have hdigit : ∀ {c}, IsHexDigit c → c ≠ '\\' := by
    rintro c hc rfl
    exact absurd hc (by decide)
  intro after hafter
  rcases List.suffix_cons_iff.1 hafter with heq | hafter
  · exact ⟨high, low, cs, (List.cons.inj heq).2, hhigh, hlow⟩
  · exact (h.cons (hdigit hlow)).cons (hdigit hhigh) after hafter

theorem escapesOnly_escape (data : List UInt8) : EscapesOnly (escape data).toList := by
  rw [escape, String.toList_ofList]
  induction data with
  | nil => simp [EscapesOnly]
  | cons b data ih =>
    rw [List.flatMap_cons, escapeByte]
    by_cases hb : needsEscape b = true
    · have hlt := b.toNat_lt
      rw [if_pos hb]
      exact ih.escape (isHexDigit_hexDigit (by omega)) (isHexDigit_hexDigit (by omega))
    · rw [if_neg hb]
      exact ih.cons (escapeByte_plain (Bool.not_eq_true _ ▸ hb)).1

/-- Every byte of an escaped text is printable, and none is a quote. -/
theorem escape_printable (data : List UInt8) :
    ∀ b ∈ Text.Utf8.ofString (escape data), 0x20 ≤ b ∧ b ≤ 0x7E ∧ b ≠ 0x22 := by
  intro b hb
  rw [Text.Utf8.ofString_eq, escape, String.toList_ofList] at hb
  obtain ⟨c, hc, hb⟩ := List.mem_flatMap.1 hb
  obtain ⟨a, -, hc⟩ := List.mem_flatMap.1 hc
  obtain ⟨hlow, hhigh, hquote⟩ := escapeByte_printable a c hc
  rcases utf8EncodeChar_cases c with ⟨-, hbytes⟩ | ⟨habove, -⟩
  · rw [hbytes, List.mem_singleton] at hb
    have hnat : b.toNat = c.toNat := hb ▸ Text.Utf8.toNat_ofNat_small (by omega)
    refine ⟨UInt8.le_iff_toNat_le.2 (hnat ▸ hlow), UInt8.le_iff_toNat_le.2 (hnat ▸ hhigh), ?_⟩
    rintro rfl
    exact hquote hnat.symm
  · omega

theorem spells_escape (data : List UInt8) : Spells (escape data) data where
  printable b hb := ⟨(escape_printable data b hb).1, (escape_printable data b hb).2.1⟩
  unquoted h := (escape_printable data _ h).2.2 rfl
  escapes := escapesOnly_escape data
  bytes := unescape_escape data

/-- What looks like an escape is written as something else. -/
example : escape [0x5C, 0x30, 0x41] = "\\5C0A" := by decide

/-! ## Constants -/

/-- A constant as it is written: how many bytes its array has, and those that it is filled with. -/
structure Storage where
  length : Nat
  bytes : List UInt8
  deriving DecidableEq, Repr

/-- The storage is that of the global: its bytes and a zero byte, and no more and no fewer. -/
structure Storage.Holds (s : Storage) (g : Global) : Prop where
  bytes : s.bytes = g.data ++ [0]
  full : s.length = s.bytes.length
  size : s.length = g.size

/-- The bytes of a text between quotes behind a `c`. -/
def readLiteral? (t : String) : Option (List UInt8) :=
  match t.toList with
  | 'c' :: '"' :: cs => readQuoted cs
  | _ => none

/-- Reads the line of a constant. -/
def readStorage? : List String → Option Storage
  | _ :: "=" :: "private" :: "unnamed_addr" :: "constant" :: "[" :: length :: "x" :: "i8" :: "]" ::
      data :: _ => do
    return ⟨← readNat? length.toList, ← readLiteral? data⟩
  | _ => none

/-- The storage of a global. -/
def storage (g : Global) : Storage := ⟨g.size, g.data ++ [0]⟩

theorem holds_storage (g : Global) : (storage g).Holds g where
  bytes := rfl
  full := by simp [storage, Global.size]
  size := rfl

theorem readLiteral?_text (data : List UInt8) :
    readLiteral? ("c\"" ++ escape data ++ "\\00\"") = some (data ++ [0]) := by
  have hquoted : ("\"" ++ escape (data ++ [0]) ++ "\"").toList =
      '"' :: ((escape (data ++ [0])).toList ++ ['"']) := by
    simp
  rw [readLiteral?, constant_text, hquoted]
  exact readQuotedBy_iff.2 ⟨fun h => (escape_chars _ _ h).1 rfl, unescape_escape _⟩

theorem readStorage?_global (g : Global) :
    readStorage? (lineTokens (.global g.name g.data)) = some (storage g) := by
  rw [lineTokens, readStorage?, readNat?_toString, readLiteral?_text]
  rfl

/-! ## Constants of a module -/

theorem isConstant_definedLines (m : Module) :
    ∀ l ∈ definedLines m, l.isConstant = false := by
  intro l hl
  obtain ⟨f, -, hl⟩ := List.mem_flatMap.1 hl
  cases hsig : f.sig with
  | none =>
    rw [hsig] at hl
    cases hl
  | some sig =>
    rw [hsig, Option.elim_some, funcLines] at hl
    rcases List.mem_append.1 hl with hl | hl
    · rcases List.mem_append.1 hl with hl | hl
      · rcases List.mem_pair.1 hl with rfl | rfl <;> rfl
      · rcases bodyLines_cases l hl with ⟨n, rfl⟩ | ⟨i, rfl⟩ <;> rfl
    · obtain rfl := List.mem_singleton.1 hl
      rfl

theorem isConstant_header (m : Module) : ∀ l ∈ header m, l.isConstant = false := by
  unfold header
  split <;> simp [Line.isConstant]

theorem isConstant_declared {fs : List Func} {declared : List Line}
    (h : fs.mapM declare? = some declared) : ∀ l ∈ declared, l.isConstant = false := by
  intro l hl
  obtain ⟨name, sig, rfl⟩ := declare_cases h l hl
  rfl

/-- The constants of a rendering are the globals of its module. -/
theorem constants_render {m : Module} {r : Rendering} (h : render? m = some r) :
    r.lines.filter Line.isConstant = m.globals.map fun g => .global g.name g.data := by
  have hnone : ∀ {lines : List Line}, (∀ l ∈ lines, l.isConstant = false) →
      lines.filter Line.isConstant = [] := by
    intro lines hlines
    exact List.filter_eq_nil_iff.2 fun l hl => by simp [hlines l hl]
  have hglobals : (m.globals.map fun g => Line.global g.name g.data).filter Line.isConstant =
      m.globals.map fun g => Line.global g.name g.data := by
    simp [Line.isConstant]
  obtain ⟨declared, hpieces⟩ := render_pieces h
  rw [hpieces.lines, frontLines, List.filter_append, List.filter_append, List.filter_append,
    filter_group rfl, filter_group rfl, hglobals, hnone (isConstant_header m),
    hnone (isConstant_declared hpieces.declarations), hnone (isConstant_definedLines m),
    List.append_nil, List.append_nil, List.nil_append]

/-- Escaping is exact: all bytes are spelled by their escaped text, so what is written for a global
is read as its storage, and what is written for a module as the storage of each of its globals. -/
theorem constants_exact : (∀ data, Spells (escape data) data) ∧
    (∀ g : Global, ∃ s, readStorage? (tokens (Line.global g.name g.data).text) = some s ∧
      s.Holds g) ∧
    ∀ {ε : Type} (m : Module) (ls : List Line) (error : Option (GenerateError ε)),
      generate (.unfailing ε) m = some (ls, error) →
        ∃ storages,
          ((ls.map fun l => tokens l.text).filter (IsConstant ·)).mapM readStorage? =
            some storages ∧
          List.Forall₂ Storage.Holds storages m.globals := by
  simp only [tokens_line]
  refine ⟨spells_escape, fun g => ⟨storage g, readStorage?_global g, holds_storage g⟩, ?_⟩
  intro ε m ls error hwritten
  rw [generate_unfailing, Option.map_eq_some_iff] at hwritten
  obtain ⟨r, hr, hwritten⟩ := hwritten
  obtain rfl : r.lines = ls := congrArg Prod.fst hwritten
  refine ⟨m.globals.map storage, ?_, ?_⟩
  · rw [filter_lineTokens isConstant_line, constants_render hr, List.map_map]
    exact mapM_map_eq fun g _ => readStorage?_global g
  · rw [List.forall₂_map_left_iff, List.forall₂_same]
    exact fun g _ => holds_storage g

/-- A module with constants that look like an escape, and that stand at the ends of what is written
as it is. -/
def awkward : Module :=
  let (_, m) := (Module.empty "awkward" "").internString [0x5C, 0x30, 0x41]
  let (_, m) := m.internString [0x1F, 0x20, 0x22, 0x7E, 0x7F, 0x80, 0xFF, 0x00]
  m

theorem awkward_exact : Spells (escape [0x5C, 0x30, 0x41]) [0x5C, 0x30, 0x41] ∧
    ∃ ls error storages, generate (.unfailing String) awkward = some (ls, error) ∧
      ((ls.map fun l => tokens l.text).filter (IsConstant ·)).mapM readStorage? = some storages ∧
      List.Forall₂ Storage.Holds storages awkward.globals := by
  obtain ⟨hspells, -, hmodule⟩ := constants_exact
  have hsome : (generate (.unfailing String) awkward).isSome := by decide +kernel
  obtain ⟨⟨ls, error⟩, hwritten⟩ := Option.isSome_iff_exists.1 hsome
  obtain ⟨storages, hread, hholds⟩ := hmodule awkward ls error hwritten
  exact ⟨hspells _, ls, error, storages, hwritten, hread, hholds⟩

end Wordlang.LLVM
