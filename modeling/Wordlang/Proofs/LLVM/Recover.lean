import Wordlang.Proofs.LLVM.Decode
import Wordlang.Proofs.LLVM.Skeleton
import Wordlang.Proofs.LLVM.Text

/-!
# Reading skeletons

The skeleton of a module is read from its text, line by line: header, constants, declarations and
definitions are told apart by the tokens that they start with, and an operand by its first
characters. Comments do not count, so that the names of slots make no difference.
-/

namespace Wordlang.LLVM.Reader

open IR (Ty Signature Global)
open Skeleton (Use Step Function)

/-! ## The reader -/

/-- The text that is encoded by the bytes. -/
def textOf? (bytes : List UInt8) : Option String :=
  let char? : Text.Glyph → Option Char
    | .char c => some c
    | .stray _ => none
  ((Text.Utf8.decode bytes).mapM char?).map String.ofList

/-- The bytes that are written between quotes. -/
def unquote? : List Char → Option (List UInt8)
  | '"' :: cs => readBytes cs.dropLast
  | _ => none

def readType? : String → Option Ty
  | "i32" => some .i32
  | "ptr" => some .ptr
  | "void" => some .void
  | _ => none

def readName? (t : String) : Option String := do textOf? (← readSymbol t.toList)

def readNat? (cs : List Char) : Option Nat :=
  if cs ≠ [] ∧ cs.all Char.isDigit then some (Nat.ofDigitChars 10 cs 0) else none

def readInt? : List Char → Option Int
  | '-' :: cs => (readNat? cs).map fun n => -(n : Int)
  | cs => (readNat? cs).map Int.ofNat

/-- The number of the value with the given name. -/
def readNumber? (t : String) : Option Nat :=
  match t.toList with
  | '%' :: 'v' :: cs => readNat? cs
  | _ => none

section

variable (globals : List String)

/-- Where the operand comes from, if `globals` are the names of the globals. -/
def readUse? (t : String) : Option Use :=
  match t.toList with
  | '@' :: _ => (readName? t).map fun name => if name ∈ globals then .global name else .func name
  | '%' :: 'a' :: 'r' :: 'g' :: cs => (readInt? cs).map .arg
  | '%' :: _ => (readNumber? t).map .value
  | cs => (readInt? cs).map .int

def readTyped? : List String → Option (Ty × Use)
  | [t, x] => do return (← readType? t, ← readUse? globals x)
  | _ => none

/-- The pieces between the commas. -/
def splitList (ts : List String) : List (List String) := if ts = [] then [] else ts.splitOn ","

/-- The tokens after the type of what is called, of which the types of parameters may be a part. -/
def skipParams : List String → List String
  | "(" :: ts => (ts.dropWhile (· ≠ ")")).tail
  | ts => ts

/-- A call with number `n` and a result of type `t`. -/
def readCall? (n : Nat) (t : Ty) : List String → Option Step
  | callee :: "(" :: ts => do
    let args ← (splitList ts.dropLast).mapM (readTyped? globals)
    if IsGlobal callee then return .call n (← readName? callee) args
    else return .callIndirect n ⟨args.map (·.1), t, false⟩ (← readUse? globals callee) args
  | _ => none

/-- What is computed for the value with number `n`. -/
def readResult? (n : Nat) : List String → Option Step
  | ["alloca", t] => do return .alloca n (← readType? t)
  | ["load", t, ",", "ptr", slot] => do return .load n (← readType? t) (← readUse? globals slot)
  | ["add", "i32", a, ",", b] => do return .add32 n (← readUse? globals a) (← readUse? globals b)
  | "call" :: t :: ts => do readCall? globals n (← readType? t) (skipParams ts)
  | _ => none

def readStep? : List String → Option Step
  | dst :: "=" :: ts => do readResult? globals (← readNumber? dst) ts
  | ["store", t, x, ",", "ptr", slot] => do
    return .store (← readTyped? globals [t, x]) (← readUse? globals slot)
  | _ => none

/-- The types of the parameters of a definition. -/
def readParams? (ts : List String) : Option (List Ty) :=
  let type? : List String → Option Ty
    | [t, _] => readType? t
    | _ => none
  (splitList ts).mapM type?

/-- A function with one block that ends with a return. -/
def readFunction? (d : Definition) : Option Function :=
  match d.head, d.body with
  | "define" :: t :: name :: "(" :: ts, ["entry", ":"] :: lines =>
    match lines.getLast? with
    | some ["ret", u, x] => do
      return ⟨← readName? name, ← readParams? ts.dropLast.dropLast, ← readType? t,
        ← lines.dropLast.mapM (readStep? globals), ← readTyped? globals [u, x]⟩
    | _ => none
  | _, _ => none

end

/-- The bytes of a constant, without the zero byte that ends it. -/
def readData? (t : String) : Option (List UInt8) :=
  match t.toList with
  | 'c' :: cs => (unquote? cs).map List.dropLast
  | _ => none

def readGlobal? : List String → Option Global
  | name :: "=" :: "private" :: "unnamed_addr" :: "constant" :: "[" :: _ :: "x" :: "i8" :: "]" ::
      data :: _ => do
    return ⟨← readName? name, ← readData? data⟩
  | _ => none

def readDeclare? : List String → Option (String × Signature)
  | "declare" :: t :: name :: "(" :: ts => do
    let words := (splitList ts.dropLast).flatten
    let params ← (words.filter (· ≠ "...")).mapM readType?
    return (← readName? name, ⟨params, ← readType? t, words.contains "..."⟩)
  | _ => none

/-- The name of the module. -/
def readSource? : List String → Option String
  | ["source_filename", "=", t] => do textOf? (← unquote? t.toList)
  | _ => none

/-- The target triple, which is empty if the line is another one. -/
def readTriple : List String → String
  | ["target", "triple", "=", t] => String.ofList t.toList.tail.dropLast
  | _ => ""

/-- The line is that of a constant. -/
def IsConstant (ts : List String) : Prop := ∃ t ∈ ts.head?, IsGlobal t

instance : DecidablePred IsConstant := fun ts =>
  decidable_of_iff (∃ t ∈ ts.head?.toList, IsGlobal t) (by simp [IsConstant])

/-- The skeleton of the module with the given text. -/
def readModule? (text : String) : Option Skeleton := do
  let lines := readText text
  let name ← readSource? (← lines[1]?)
  let triple := readTriple (← lines[2]?)
  let globals ← (lines.filter (IsConstant ·)).mapM readGlobal?
  let externals ← (lines.filter (·.head? = some "declare")).mapM readDeclare?
  let funcs ← (definitions lines).mapM (readFunction? (globals.map (·.name)))
  return ⟨name, triple, globals, externals, funcs⟩

/-! ## Tokens -/

theorem textOf?_ofString (s : String) : textOf? (Text.Utf8.ofString s) = some s := by
  have hall : ∀ cs : List Char, (cs.map Text.Glyph.char).mapM (fun g => match g with
      | .char c => some c
      | .stray _ => none) = some cs := by
    intro cs
    refine (mapM_map_eq (k := id) ?_).trans (congrArg some (List.map_id cs))
    exact fun _ _ => rfl
  rw [textOf?, Text.Utf8.decode_ofString, hall, Option.map_some, String.ofList_toList]

theorem readType?_typeText {t : Ty} (h : Spelled t) : readType? (typeText t) = some t := by
  rcases h with rfl | rfl | rfl <;> rfl

theorem readName?_symbol (name : String) : readName? (LLVM.symbol name) = some name := by
  rw [readName?, symbol_eq, readSymbol_symbolOfBytes]
  exact textOf?_ofString name

theorem isDigit_natText (n : Nat) : ∀ c ∈ (toString n).toList, c.isDigit = true := by
  rw [Nat.toString_eq_repr, Nat.toList_repr]
  exact fun c hc => Nat.isDigit_of_mem_toDigits (by decide) (by decide) hc

theorem readNat?_toString (n : Nat) : readNat? (toString n).toList = some n := by
  have hne : (toString n).toList ≠ [] := by simp
  rw [readNat?, if_pos ⟨hne, List.all_eq_true.2 (isDigit_natText n)⟩, Nat.toString_eq_repr,
    Nat.toList_repr, Nat.ofDigitChars_ten_toDigits]

theorem readInt?_toString (n : Int) : readInt? (toString n).toList = some n := by
  cases n with
  | ofNat n =>
    have htext : (toString (Int.ofNat n)).toList = (toString n).toList := rfl
    have hread : readInt? (toString n).toList = (readNat? (toString n).toList).map Int.ofNat := by
      rw [readInt?]
      rintro cs hcs
      have hminus := isDigit_natText n '-' (hcs ▸ List.mem_cons_self)
      exact absurd hminus (by decide)
    rw [htext, hread, readNat?_toString]
    rfl
  | negSucc n =>
    have htext : (toString (Int.negSucc n)).toList = '-' :: (toString (n + 1)).toList :=
      String.toList_append
    rw [htext, readInt?, readNat?_toString]
    rfl

theorem toList_valueText (n : Nat) : (valueText n).toList = '%' :: 'v' :: (toString n).toList :=
  String.toList_append

theorem readNumber?_valueText (n : Nat) : readNumber? (valueText n) = some n := by
  rw [readNumber?, toList_valueText]
  exact readNat?_toString n

/-- An operand is read as what it is. -/
theorem readUse?_text (globals : List String) (o : Operand) :
    readUse? globals o.text = some (o.use globals) := by
  cases o with
  | const n =>
    have hname := not_isName_const n
    have hread : readUse? globals (toString n) = (readInt? (toString n).toList).map .int := by
      rw [readUse?]
      split
      · next h => exact absurd (.inr (List.head?_eq_some_iff.2 ⟨_, h⟩)) hname
      · next h => exact absurd (.inl (List.head?_eq_some_iff.2 ⟨_, h⟩)) hname
      · next h => exact absurd (.inl (List.head?_eq_some_iff.2 ⟨_, h⟩)) hname
      · rfl
    exact hread.trans (congrArg (Option.map Use.int) (readInt?_toString n))
  | symbol name =>
    obtain ⟨cs, htext⟩ : ∃ cs, (LLVM.symbol name).toList = '@' :: cs :=
      List.head?_eq_some_iff.1 (isGlobal_symbol name)
    show readUse? globals (LLVM.symbol name) = _
    rw [readUse?, htext]
    simp only [readName?_symbol]
    rfl
  | arg n =>
    have htext : (argText n).toList = '%' :: 'a' :: 'r' :: 'g' :: (toString n).toList :=
      String.toList_append
    show readUse? globals (argText n) = _
    rw [readUse?, htext]
    simp only [readInt?_toString]
    rfl
  | value n =>
    show readUse? globals (valueText n) = _
    rw [readUse?, toList_valueText]
    simp only [readNumber?_valueText]
    rfl

theorem readTyped?_typed (globals : List String) {a : Ty × Operand} (h : Spelled a.1) :
    readTyped? globals [typeText a.1, a.2.text] = some (typedUse globals a) := by
  rw [readTyped?, readType?_typeText h, readUse?_text]
  rfl

/-! ## Lists -/

/-- What stands between commas is found again. -/
theorem splitList_intercalate {ls : List (List String)} (h : ∀ l ∈ ls, l ≠ [] ∧ "," ∉ l) :
    splitList ([","].intercalate ls) = ls := by
  cases ls with
  | nil => rfl
  | cons l ls =>
    have hne : [","].intercalate (l :: ls) ≠ [] := by
      have hl := (h l List.mem_cons_self).1
      cases ls with
      | nil => simpa using hl
      | cons l' ls => simp [List.intercalate_cons_cons]
    rw [splitList, if_neg hne]
    exact List.splitOn_intercalate _ (fun l hl => (h l hl).2) (by simp)

/-- The arguments of a call are read. -/
theorem readArgs_typed (globals : List String) {args : List (Ty × Operand)}
    (h : ∀ a ∈ args, Spelled a.1) :
    (splitList ([","].intercalate (args.map fun a => [typeText a.1, a.2.text]))).mapM
      (readTyped? globals) = some (args.map (typedUse globals)) := by
  rw [splitList_intercalate]
  · exact mapM_map_eq fun a ha => readTyped?_typed globals (h a ha)
  · rintro l hl
    obtain ⟨a, -, rfl⟩ := List.mem_map.1 hl
    refine ⟨by simp, ?_⟩
    have htype : "," ≠ typeText a.1 := (type_ne (by decide) a.1).symm
    have hoperand : "," ≠ a.2.text := (operand_ne (by decide) (by decide) a.2).symm
    simp [htype, hoperand]

/-! ## Instructions -/

/-- The types of parameters are skipped where they are written. -/
theorem skipParams_called (sig : Signature) (callee : Operand) (ts : List String) :
    ∃ us, calledTokens sig ++ callee.text :: ts = typeText sig.result :: us ∧
      skipParams us = callee.text :: ts := by
  have hopen : callee.text ≠ "(" := operand_ne (by decide) (by decide) callee
  unfold calledTokens
  split
  · refine ⟨_, rfl, ?_⟩
    have hparts : ∀ x ∈ [","].intercalate ((sig.parts typeText).map fun t => [t]), x ≠ ")" :=
      forall_mem_parts (by decide) sig
    show skipParams ("(" :: (_ ++ [")"] ++ callee.text :: ts)) = _
    rw [skipParams, List.append_assoc,
      List.dropWhile_append_of_pos (fun x hx => by simpa using hparts x hx)]
    simp
  · refine ⟨_, rfl, ?_⟩
    show skipParams (callee.text :: ts) = _
    rw [skipParams]
    exact fun _ h => hopen (List.cons.inj h).1

theorem readStep?_result (globals : List String) (n : Nat) (ts : List String) :
    readStep? globals (valueText n :: "=" :: ts) = readResult? globals n ts := by
  rw [readStep?, readNumber?_valueText]
  rfl

theorem readCall?_tokens (globals : List String) {dst : Nat} {sig : Signature} {callee : Operand}
    {args : List (Ty × Operand)} (h : (Inst.call dst sig callee args).Legible) :
    readCall? globals dst sig.result (callee.text :: "(" ::
      [","].intercalate (args.map fun a => [typeText a.1, a.2.text]) ++ [")"]) =
      (Inst.call dst sig callee args).step? globals := by
  obtain ⟨-, hargs, hcallee⟩ := h
  have hread := readArgs_typed globals hargs
  rw [List.cons_append, List.cons_append, readCall?, List.dropLast_concat, hread]
  rcases hcallee with ⟨name, rfl⟩ | ⟨⟨n, rfl⟩, hsig⟩
  · have hglobal : IsGlobal (Operand.symbol name).text := isGlobal_symbol name
    have hname : readName? (Operand.symbol name).text = some name := readName?_symbol name
    simp [hglobal, hname, Inst.step?]
  · have hlocal : ¬ IsGlobal (Operand.value n).text := not_isGlobal_of_isLocal (isLocal_value n)
    have hcalled : ⟨(args.map (typedUse globals)).map (·.1), sig.result, false⟩ = sig := by
      rw [List.map_map]
      exact hsig.symm
    simp only [Option.bind_eq_bind, Option.bind_some, if_neg hlocal, readUse?_text, hcalled]
    rfl

/-- What an instruction computes is read from its tokens. -/
theorem readStep?_inst (globals : List String) {i : Inst} (h : i.Legible)
    (hplain : i.isEnd = false) :
    readStep? globals (instTokens i) = i.step? globals := by
  cases i with
  | alloca dst elem comment =>
    refine (readStep?_result globals dst _).trans ?_
    rw [useTokens, readResult?, readType?_typeText h]
    rfl
  | load dst type slot =>
    refine (readStep?_result globals dst _).trans ?_
    rw [useTokens, readResult?, readType?_typeText h, readUse?_text]
    rfl
  | store type value slot =>
    have hsecond : typeText type ≠ "=" := type_ne (by decide) type
    show readStep? globals ["store", typeText type, value.text, ",", "ptr", slot.text] = _
    rw [readStep?, readTyped?_typed globals (a := (type, value)) h, readUse?_text]
    · rfl
    · exact hsecond
  | add dst a b =>
    refine (readStep?_result globals dst _).trans ?_
    rw [useTokens, readResult?, readUse?_text, readUse?_text]
    rfl
  | call dst sig callee args =>
    refine (readStep?_result globals dst _).trans ?_
    obtain ⟨us, hus, hskip⟩ := skipParams_called sig callee
      ("(" :: [","].intercalate (args.map fun a => [typeText a.1, a.2.text]) ++ [")"])
    have htokens : useTokens (.call dst sig callee args) = "call" :: typeText sig.result :: us := by
      rw [← hus]
      simp [useTokens]
    rw [htokens, readResult?, readType?_typeText h.1, Option.bind_eq_bind, Option.bind_some, hskip]
    exact readCall?_tokens globals h
  | ret | retVoid | unreachable => cases hplain

/-! ## Functions -/

theorem readParams?_tokens {params : List Ty} (h : ∀ t ∈ params, Spelled t) :
    readParams? ([","].intercalate (params.zipIdx.map fun a => [typeText a.1, argText a.2])) =
      some params := by
  rw [readParams?, splitList_intercalate]
  · rw [mapM_map_eq (k := fun a => a.1), List.zipIdx_map_fst]
    rintro ⟨t, i⟩ ha
    exact readType?_typeText (h t (List.fst_mem_of_mem_zipIdx ha))
  · rintro l hl
    obtain ⟨a, -, rfl⟩ := List.mem_map.1 hl
    refine ⟨by simp, ?_⟩
    have htype : "," ≠ typeText a.1 := (type_ne (by decide) a.1).symm
    have harg : "," ≠ argText a.2 := (ne_of_isLocal (isLocal_arg _) (by decide)).symm
    simp [htype, harg]

/-- A function is read from its definition. -/
theorem readFunction?_definition (globals : List String) {b : Body} (h : b.Legible)
    (hplain : ∀ i ∈ b.code, i.isEnd = false) {t : Ty} {x : Operand} (hstop : b.stop = .ret t x) :
    readFunction? globals (definition b) = b.function? globals := by
  have hcode := h.code
  rw [List.forall_mem_append, List.forall_mem_singleton, hstop] at hcode
  have hlines : (b.code.map instTokens).mapM (readStep? globals) =
      b.code.mapM (Inst.step? globals) :=
    mapM_map_congr fun i hi => readStep?_inst globals (hcode.1 i hi) (hplain i hi)
  have hlast : instTokens b.stop = ["ret", typeText t, x.text] := by rw [hstop]; rfl
  have hparams : ([","].intercalate (b.params.zipIdx.map fun a => [typeText a.1, argText a.2]) ++
      [")", "\x7b"]).dropLast.dropLast =
        [","].intercalate (b.params.zipIdx.map fun a => [typeText a.1, argText a.2]) := by
    simp
  have hhead : (definition b).head = "define" :: typeText b.result :: LLVM.symbol b.name :: "(" ::
      ([","].intercalate (b.params.zipIdx.map fun a => [typeText a.1, argText a.2]) ++
        [")", "\x7b"]) := by
    simp [definition, lineTokens]
  rw [readFunction?, hhead, definition, List.map_append, List.map_singleton, hlast]
  simp only [List.getLast?_concat, List.dropLast_concat, hparams, readName?_symbol,
    readParams?_tokens h.params, readType?_typeText h.result, hlines, Body.function?, hstop,
    readTyped?_typed globals (a := (t, x)) hcode.2]
  cases b.code.mapM (Inst.step? globals) <;> rfl

/-! ## Other lines -/

theorem unquote?_escape (data : List UInt8) :
    unquote? ("\"" ++ escape data ++ "\"").toList = some data := by
  have htext : ("\"" ++ escape data ++ "\"").toList = '"' :: ((escape data).toList ++ ['"']) := by
    simp
  rw [htext, unquote?, List.dropLast_concat, readBytes_escape]

/-- The text of a constant is the escaped text of its bytes and a zero byte. -/
theorem constant_text (data : List UInt8) : ("c\"" ++ escape data ++ "\\00\"").toList =
    'c' :: ("\"" ++ escape (data ++ [0]) ++ "\"").toList := by
  have hzero : escape (data ++ [0]) = escape data ++ "\\00" := by
    rw [escape, List.flatMap_append, String.ofList_append]
    rfl
  rw [hzero]
  simp

theorem readData?_text (data : List UInt8) :
    readData? ("c\"" ++ escape data ++ "\\00\"") = some data := by
  rw [readData?, constant_text]
  show (unquote? _).map List.dropLast = _
  rw [unquote?_escape, Option.map_some, List.dropLast_concat]

theorem readGlobal?_tokens (g : Global) :
    readGlobal? (lineTokens (.global g.name g.data)) = some g := by
  rw [lineTokens, readGlobal?, readName?_symbol, readData?_text]
  rfl

theorem readDeclare?_tokens (name : String) {sig : Signature} (hresult : Spelled sig.result)
    (hparams : ∀ t ∈ sig.params, Spelled t) :
    readDeclare? (lineTokens (.declare name sig)) = some (name, sig) := by
  have hwords : (splitList ([","].intercalate ((sig.parts typeText).map fun t => [t]))).flatten =
      sig.parts typeText := by
    rw [splitList_intercalate]
    · rw [← List.flatMap_def, List.flatMap_singleton']
    · rintro l hl
      obtain ⟨w, hw, rfl⟩ := List.mem_map.1 hl
      have hcomma : "," ≠ w := forall_parts (P := fun w => "," ≠ w) (by decide) sig w hw
      simp [hcomma]
  have hdots : ∀ t, typeText t ≠ "..." := type_ne (by decide)
  have htypes : (sig.parts typeText).filter (· ≠ "...") = sig.params.map typeText := by
    have hall : (sig.params.map typeText).filter (· ≠ "...") = sig.params.map typeText := by
      simp [hdots]
    rw [Signature.parts, List.filter_append, hall]
    split <;> simp
  have hvariadic : (sig.parts typeText).contains "..." = sig.variadic := by
    rw [Signature.parts]
    cases sig.variadic <;> simp [hdots]
  have hread : (sig.params.map typeText).mapM readType? = some (sig.params.map id) :=
    mapM_map_eq fun t ht => readType?_typeText (hparams t ht)
  show readDeclare? ("declare" :: typeText sig.result :: LLVM.symbol name :: "(" ::
    ([","].intercalate ((sig.parts typeText).map fun t => [t]) ++ [")"])) = _
  rw [readDeclare?]
  simp only [List.dropLast_concat, hwords, htypes, hvariadic, hread, readName?_symbol,
    readType?_typeText hresult, List.map_id]
  rfl

theorem readSource?_tokens (name : String) :
    readSource? (lineTokens (.sourceFile name)) = some name := by
  rw [lineTokens, readSource?, unquote?_escape]
  exact textOf?_ofString name

/-- A triple without quotes is read as it is. -/
theorem readTriple_tokens {t : String} (h : '"' ∉ t.toList) :
    readTriple (lineTokens (.triple t)) = t := by
  have hword : Cut "target triple = ".toList ["target", "triple", "="] := by decide
  have hquoted : ("\"" ++ t ++ "\"").toList = '"' :: (t.toList ++ ['"']) := by simp
  have hchars : ∀ c ∈ t.toList, c ≠ '"' := by
    rintro c hc rfl
    exact h hc
  have hread : Reads ("\"" ++ t ++ "\"").toList ["\"" ++ t ++ "\""] :=
    reads_quoted (p := []) hquoted rfl hchars
  have htext : "target triple = \"" ++ t ++ "\"" = "target triple = " ++ ("\"" ++ t ++ "\"") := by
    apply String.toList_inj.1
    simp
  have htokens : lineTokens (.triple t) = ["target", "triple", "=", "\"" ++ t ++ "\""] :=
    (congrArg tokens htext).trans (hword.then hread).tokens
  rw [htokens, readTriple, hquoted, List.tail_cons, List.dropLast_concat, String.ofList_toList]

end Wordlang.LLVM.Reader
