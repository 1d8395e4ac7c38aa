import Wordlang.LLVM.Render
import Wordlang.Proofs.LLVM.Body
import Wordlang.Proofs.LLVM.Decode
import Wordlang.Proofs.LLVM.Tokens
import Wordlang.Proofs.Symbols

/-!
# Rendered functions, read back

Straight-line code is read back as such: the lines of a function give a definition in static single
assignment form, and the text of lines gives these lines.
-/

namespace Wordlang.LLVM.Reader

open IR (Ty Signature)

/-! ## Names among the tokens -/

theorem isLocal_value (n : Nat) : IsLocal (valueText n) := by simp [IsLocal, valueText]

theorem isLocal_arg (n : Int) : IsLocal (argText n) := by simp [IsLocal, argText]

theorem isGlobal_symbol (name : String) : IsGlobal (LLVM.symbol name) := by
  unfold LLVM.symbol IsGlobal
  split
  · simp
  · simp

/-- The token is a name. -/
def IsName (t : String) : Prop := IsLocal t ∨ IsGlobal t

instance : DecidablePred IsName := fun t => inferInstanceAs (Decidable (IsLocal t ∨ IsGlobal t))

theorem not_isName_type (t : Ty) : ¬ IsName (typeText t) := by
  have hall : ∀ w ∈ ["i32", "ptr", "void"], ¬ IsName w := by decide
  exact forall_typeText hall t

theorem not_isName_const (n : Int) : ¬ IsName (Operand.const n).text := by
  have hchars := isSymbolChar_intText n
  have hhead : ∀ c, isSymbolChar c = false → (toString n).toList.head? ≠ some c := by
    intro c hc h
    rw [hchars c (List.mem_of_head? h)] at hc
    cases hc
  rintro (h | h)
  · exact hhead '%' rfl h
  · exact hhead '@' rfl h

theorem mem_intercalate {x : String} {ls : List (List String)} (hx : x ∈ [","].intercalate ls) :
    x = "," ∨ ∃ l ∈ ls, x ∈ l := by
  induction ls with
  | nil => cases hx
  | cons l ls ih =>
    cases ls with
    | nil => exact .inr ⟨l, by simp, by simpa using hx⟩
    | cons l' ls =>
      rw [List.intercalate_cons_cons, List.append_assoc] at hx
      rcases List.mem_append.1 hx with hx | hx
      · exact .inr ⟨l, by simp, hx⟩
      · rcases List.mem_cons.1 hx with hx | hx
        · exact .inl hx
        · rcases ih hx with hx | ⟨l'', hl'', hx⟩
          · exact .inl hx
          · exact .inr ⟨l'', List.mem_cons_of_mem _ hl'', hx⟩

/-- The tokens between the parentheses of a signature. -/
theorem forall_mem_parts {P : String → Prop} (h : ∀ w ∈ ["i32", "ptr", "void", "...", ","], P w)
    (sig : Signature) : ∀ x ∈ [","].intercalate ((sig.parts typeText).map fun t => [t]), P x := by
  intro x hx
  rcases mem_intercalate hx with rfl | ⟨l, hl, hx⟩
  · exact h "," (by decide)
  · obtain ⟨t, ht, rfl⟩ := List.mem_map.1 hl
    obtain rfl := List.mem_singleton.1 hx
    exact forall_parts (fun w hw => h w (List.mem_append_left [","] hw)) sig x ht

theorem not_isName_parts {sig : Signature} {x : String}
    (hx : x ∈ [","].intercalate ((sig.parts typeText).map fun t => [t])) : ¬ IsName x :=
  forall_mem_parts (P := fun w => ¬ IsName w) (by decide) sig x hx

theorem not_isName_called {sig : Signature} {x : String} (hx : x ∈ calledTokens sig) :
    ¬ IsName x := by
  unfold calledTokens at hx
  split at hx
  · simp only [List.mem_cons, List.mem_append, List.not_mem_nil, or_false] at hx
    rcases hx with rfl | rfl | hx | rfl
    · exact not_isName_type sig.result
    · decide
    · exact not_isName_parts hx
    · decide
  · obtain rfl := List.mem_singleton.1 hx
    exact not_isName_type sig.result

theorem uses_inst (i : Inst) : uses (instTokens i) = useTokens i := by
  -- the second token of an instruction without a result is a type
  have hsecond : ∀ w t ts, uses (w :: typeText t :: ts) = w :: typeText t :: ts := by
    intro w t ts
    cases t with
    | _ => rfl
  cases i with
  | store type value slot => exact hsecond _ _ _
  | ret type value => exact hsecond _ _ _
  | _ => rfl

theorem defined?_inst (i : Inst) : defined? (instTokens i) = i.dst?.map valueText := by
  have hsecond : ∀ w t ts, defined? (w :: typeText t :: ts) = none := by
    intro w t ts
    cases t with
    | _ => rfl
  have hvalue : ∀ n ts, defined? (valueText n :: "=" :: ts) = some (valueText n) := by
    intro n ts
    rw [defined?, if_pos (isLocal_value n)]
  cases i with
  | store type value slot => exact hsecond _ _ _
  | ret type value => exact hsecond _ _ _
  | retVoid => rfl
  | unreachable => rfl
  | _ => exact hvalue _ _

/-- The names that an instruction uses are operands of it. -/
theorem mem_operands_of_uses {i : Inst} {x : String} (hx : x ∈ uses (instTokens i))
    (hname : IsName x) : ∃ o ∈ i.operands, x = o.text := by
  have hword : ∀ w, ¬ IsName w → x ≠ w := by
    rintro w hw rfl
    exact hw hname
  have htype : ∀ t, x ≠ typeText t := fun t => hword _ (not_isName_type t)
  rw [uses_inst] at hx
  cases i with
  | alloca dst elem comment => simp (disch := decide) [useTokens, htype, hword] at hx
  | load dst type slot =>
    have hslot : x = slot.text := by simpa (disch := decide) [useTokens, htype, hword] using hx
    exact ⟨slot, by simp [Inst.operands], hslot⟩
  | store type value slot =>
    have hvalue : x = value.text ∨ x = slot.text := by
      simpa (disch := decide) [useTokens, htype, hword] using hx
    simpa [Inst.operands] using hvalue
  | add dst a b =>
    have hvalue : x = a.text ∨ x = b.text := by
      simpa (disch := decide) [useTokens, hword] using hx
    simpa [Inst.operands] using hvalue
  | call dst sig callee args =>
    have hcases : x ∈ calledTokens sig ∨ x = callee.text ∨
        x ∈ [","].intercalate (args.map fun a => [typeText a.1, a.2.text]) := by
      simpa (disch := decide) [useTokens, hword] using hx
    rcases hcases with hx | hx | hx
    · exact absurd hname (not_isName_called hx)
    · exact ⟨callee, by simp [Inst.operands], hx⟩
    · rcases mem_intercalate hx with hx | ⟨l, hl, hx⟩
      · exact absurd hx (hword "," (by decide))
      · obtain ⟨a, ha, rfl⟩ := List.mem_map.1 hl
        have harg : x = a.2.text := by simpa [htype] using hx
        exact ⟨a.2, List.mem_cons_of_mem _ (List.mem_map_of_mem ha), harg⟩
  | ret type value =>
    have hvalue : x = value.text := by simpa (disch := decide) [useTokens, htype, hword] using hx
    exact ⟨value, by simp [Inst.operands], hvalue⟩
  | retVoid => simp (disch := decide) [useTokens, hword] at hx
  | unreachable => simp (disch := decide) [useTokens, hword] at hx

/-- A name is not local and global at once. -/
theorem not_isGlobal_of_isLocal {t : String} (h : IsLocal t) : ¬ IsGlobal t := by
  intro h'
  rw [IsLocal] at h
  rw [IsGlobal, h] at h'
  cases h'

/-! ## First and last tokens -/

theorem head?_inst (i : Inst) : ∃ w, (instTokens i).head? = some w ∧
    (IsLocal w ∨ w = "store" ∨ i.isEnd = true ∧ (w = "ret" ∨ w = "unreachable")) := by
  cases i with
  | store type value slot => exact ⟨_, rfl, .inr (.inl rfl)⟩
  | ret type value => exact ⟨_, rfl, .inr (.inr ⟨rfl, .inl rfl⟩)⟩
  | retVoid => exact ⟨_, rfl, .inr (.inr ⟨rfl, .inl rfl⟩)⟩
  | unreachable => exact ⟨_, rfl, .inr (.inr ⟨rfl, .inr rfl⟩)⟩
  | _ => exact ⟨_, rfl, .inl (isLocal_value _)⟩

theorem ne_of_isLocal {t w : String} (h : IsLocal t) (hw : ¬ IsLocal w) : t ≠ w := by
  rintro rfl
  exact hw h

/-- An operand is no punctuation. -/
theorem operand_ne {w : String} (hname : ¬ IsName w)
    (hchars : w.toList.all isSymbolChar = false) (o : Operand) : o.text ≠ w := by
  rintro rfl
  cases o with
  | const n =>
    have hall := List.all_eq_true.2 (isSymbolChar_intText n)
    exact absurd (hall.symm.trans hchars) (by decide)
  | symbol name => exact hname (.inr (isGlobal_symbol name))
  | arg n => exact hname (.inl (isLocal_arg n))
  | value n => exact hname (.inl (isLocal_value n))

theorem type_ne {w : String} (h : w ∉ ["i32", "ptr", "void"]) (t : Ty) : typeText t ≠ w := by
  apply forall_typeText (P := (· ≠ w)) _ t
  rintro v hv rfl
  exact h hv

theorem instTokens_ne {i : Inst} {w : String} {ts : List String} (hlocal : ¬ IsLocal w)
    (hword : w ∉ ["store", "ret", "unreachable"]) : instTokens i ≠ w :: ts := by
  intro h
  obtain ⟨t, ht, hcases⟩ := head?_inst i
  rw [h] at ht
  obtain rfl : w = t := Option.some.inj ht
  rcases hcases with hw | rfl | ⟨-, rfl | rfl⟩
  · exact hlocal hw
  all_goals exact hword (by decide)

/-! ## Symbols -/

/-- A token that no line which introduces a symbol starts with. -/
def Quiet (w : String) : Prop := w ≠ "define" ∧ w ≠ "declare" ∧ ¬ IsGlobal w

instance : DecidablePred Quiet := fun w =>
  inferInstanceAs (Decidable (w ≠ "define" ∧ w ≠ "declare" ∧ ¬ IsGlobal w))

theorem Quiet.introduced? {w : String} (h : Quiet w) (ts : List String) :
    introduced? (w :: ts) = none := by
  obtain ⟨hdefine, hdeclare, hglobal⟩ := h
  rw [Reader.introduced?, if_neg hglobal]
  · exact hdefine
  · exact hdeclare

theorem quiet_of_head {w : String} {c : Char} (h : w.toList.head? = some c) (hd : c ≠ 'd')
    (hglobal : c ≠ '@') : Quiet w := by
  have hne : ∀ c', w.toList.head? = some c' → c = c' := by
    intro c' h'
    exact Option.some.inj (h.symm.trans h')
  refine ⟨?_, ?_, fun h' => hglobal (hne '@' h')⟩
  · rintro rfl
    exact hd (hne 'd' (by decide))
  · rintro rfl
    exact hd (hne 'd' (by decide))

/-- A line that introduces nothing starts with a token that says so. -/
theorem quiet_of_line {l : Line} (h : l.introduces? = none) {w : String} {ts : List String}
    (hl : lineTokens l = w :: ts) : Quiet w := by
  cases l with
  | blank => cases hl
  | moduleComment name => cases hl
  | sourceFile name =>
    cases hl
    decide
  | triple t =>
    have hhead := head?_triple t
    rw [hl] at hhead
    cases hhead
    decide
  | global name data => cases h
  | declare name sig => cases h
  | define name params result => cases h
  | label n =>
    cases n with
    | zero =>
      cases hl
      decide
    | succ n =>
      cases hl
      have hb : ("b" ++ toString (n + 1)).toList.head? = some 'b' := by simp
      exact quiet_of_head hb (by decide) (by decide)
  | inst i =>
    obtain ⟨t, ht, hcases⟩ := head?_inst i
    obtain rfl : w = t := by
      have hw : (lineTokens (.inst i)).head? = some w := by rw [hl]; rfl
      exact Option.some.inj (hw.symm.trans ht)
    rcases hcases with hw | rfl | ⟨-, rfl | rfl⟩
    · exact quiet_of_head hw (by decide) (by decide)
    all_goals decide
  | close =>
    cases hl
    decide

/-- What is read of a function that is rendered. -/
def definition (b : Body) : Definition where
  head := lineTokens (.define b.name b.params b.result)
  body := ["entry", ":"] :: (b.code ++ [b.stop]).map instTokens

theorem definitions_append_of_forall {ls : List (List String)}
    (h : ∀ l ∈ ls, l.head? ≠ some "define") (rest : List (List String)) :
    definitions (ls ++ rest) = definitions rest := by
  induction ls with
  | nil => rfl
  | cons l ls ih =>
    obtain ⟨hl, hls⟩ := List.forall_mem_cons.1 h
    rw [List.cons_append, definitions, if_neg hl, ih hls]

theorem definitions_define {head : List String} {body : List (List String)}
    (hhead : head.head? = some "define")
    (hbody : ∀ l ∈ body, l ≠ ["\x7d"] ∧ l.head? ≠ some "define") (rest : List (List String)) :
    definitions (head :: (body ++ ["\x7d"] :: rest)) = ⟨head, body⟩ :: definitions rest := by
  rw [definitions, if_pos hhead]
  congr 1
  · have htake : (body ++ ["\x7d"] :: rest).takeWhile (· ≠ ["\x7d"]) = body := by
      rw [List.takeWhile_append_of_pos fun l hl => by simpa using (hbody l hl).1]
      simp
    rw [htake]
  · rw [definitions_append_of_forall fun l hl => (hbody l hl).2, definitions, if_neg (by simp)]

/-- An instruction neither closes nor begins a function. -/
theorem inst_inside (i : Inst) :
    instTokens i ≠ ["\x7d"] ∧ (instTokens i).head? ≠ some "define" := by
  refine ⟨instTokens_ne (by decide) (by decide), ?_⟩
  intro h
  obtain ⟨ts, hts⟩ := List.head?_eq_some_iff.1 h
  exact instTokens_ne (by decide) (by decide) hts

theorem definitions_body (b : Body) (rest : List (List String)) :
    definitions (b.lines.map lineTokens ++ rest) = definition b :: definitions rest := by
  have hbody : ∀ l ∈ (definition b).body, l ≠ ["\x7d"] ∧ l.head? ≠ some "define" := by
    intro l hl
    rcases List.mem_cons.1 hl with rfl | hl
    · decide
    · obtain ⟨i, -, rfl⟩ := List.mem_map.1 hl
      exact inst_inside i
  have hlines : b.lines.map lineTokens ++ rest =
      [] :: (definition b).head :: ((definition b).body ++ ["\x7d"] :: rest) := by
    simp [Body.lines, definition, lineTokens]
  rw [hlines, definitions, if_neg (by simp), definitions_define rfl hbody]

theorem definitions_bodies (bs : List Body) (rest : List (List String)) :
    definitions ((bs.flatMap Body.lines).map lineTokens ++ rest) =
      bs.map definition ++ definitions rest := by
  induction bs with
  | nil => rfl
  | cons b bs ih =>
    rw [List.flatMap_cons, List.map_append, List.append_assoc, definitions_body, ih]
    rfl

theorem valueText_injective : Function.Injective valueText := by
  intro i j h
  exact IR.Module.repr_injective ((String.append_right_inj _).1 h)

theorem Unbroken.append {a b : String} (ha : Unbroken a) (hb : Unbroken b) : Unbroken (a ++ b) := by
  rw [Unbroken, String.toList_append, List.forall_mem_append]
  exact ⟨ha, hb⟩

theorem unbroken_of_symbolChars {s : String} (h : ∀ c ∈ s.toList, isSymbolChar c = true) :
    Unbroken s := by
  intro c hc
  by_contra hbreak
  have hcases : c = '\n' ∨ c = '\r' := by simpa [isBreak, or_iff_not_imp_left] using hbreak
  rcases hcases with rfl | rfl
  · exact absurd (h _ hc) (by decide)
  · exact absurd (h _ hc) (by decide)

theorem unbroken_escape (data : List UInt8) : Unbroken (escape data) :=
  fun c hc => (escape_chars data c hc).2

theorem unbroken_symbol (name : String) : Unbroken (LLVM.symbol name) := by
  unfold LLVM.symbol
  split
  · next hplain =>
    exact .append (by decide) (unbroken_of_symbolChars (isSymbolChar_of_isPlainSymbol hplain))
  · exact .append (.append (by decide) (unbroken_escape _)) (by decide)

theorem unbroken_nat (n : Nat) : Unbroken (toString n) :=
  unbroken_of_symbolChars (isSymbolChar_natText n)

theorem unbroken_operand (o : Operand) : Unbroken o.text := by
  cases o with
  | const n => exact unbroken_of_symbolChars (isSymbolChar_intText n)
  | symbol name => exact unbroken_symbol name
  | arg n => exact .append (by decide) (unbroken_of_symbolChars (isSymbolChar_intText n))
  | value n => exact .append (by decide) (unbroken_nat n)

theorem unbroken_type (t : Ty) : Unbroken (typeText t) := by
  have hall : ∀ w ∈ ["i32", "ptr", "void"], Unbroken w := by decide
  exact forall_typeText hall t

theorem unbroken_intercalate {l : List String} (h : ∀ s ∈ l, Unbroken s) :
    Unbroken (", ".intercalate l) := by
  induction l with
  | nil => decide
  | cons a l ih =>
    obtain ⟨ha, hl⟩ := List.forall_mem_cons.1 h
    cases l with
    | nil => simpa using ha
    | cons b l =>
      rw [String.intercalate_cons_cons]
      exact .append (.append ha (by decide)) (ih hl)

theorem unbroken_typed (a : Ty × Operand) : Unbroken (typedText a) :=
  .append (.append (unbroken_type a.1) (by decide)) (unbroken_operand a.2)

theorem unbroken_parts (sig : Signature) : Unbroken (", ".intercalate (sig.parts typeText)) :=
  unbroken_intercalate (forall_parts (by decide) sig)

theorem unbroken_inst {i : Inst} (h : Unbroken (Line.inst i).raw) : Unbroken i.text := by
  have hvalue : ∀ n, Unbroken (valueText n) := fun n => unbroken_operand (.value n)
  cases i with
  | alloca dst elem comment =>
    have hcomment : Unbroken (if comment = "" then "" else " ; " ++ comment) := by
      split
      · decide
      · exact .append (by decide) h
    exact .append (.append (.append (hvalue dst) (by decide)) (unbroken_type elem)) hcomment
  | load dst type slot =>
    have htype : Unbroken (valueText dst ++ " = load " ++ typeText type) :=
      .append (.append (hvalue dst) (by decide)) (unbroken_type type)
    exact .append (htype.append (by decide)) (unbroken_operand slot)
  | store type value slot =>
    have htyped : Unbroken ("store " ++ typedText (type, value)) :=
      .append (by decide) (unbroken_typed _)
    exact .append (htyped.append (by decide)) (unbroken_operand slot)
  | add dst a b =>
    have hfirst : Unbroken (valueText dst ++ " = add i32 " ++ a.text) :=
      .append (.append (hvalue dst) (by decide)) (unbroken_operand a)
    exact .append (hfirst.append (by decide)) (unbroken_operand b)
  | call dst sig callee args =>
    have hcalled : Unbroken (if sig.variadic then funcTypeText sig else typeText sig.result) := by
      split
      · exact .append (.append (.append (unbroken_type _) (by decide)) (unbroken_parts sig))
          (by decide)
      · exact unbroken_type _
    have hargs : Unbroken (", ".intercalate (args.map typedText)) := by
      apply unbroken_intercalate
      intro s hs
      obtain ⟨a, -, rfl⟩ := List.mem_map.1 hs
      exact unbroken_typed a
    have htype : Unbroken (valueText dst ++ " = call " ++
        (if sig.variadic then funcTypeText sig else typeText sig.result) ++ " ") :=
      .append (.append (.append (hvalue dst) (by decide)) hcalled) (by decide)
    exact .append (.append (.append (htype.append (unbroken_operand callee)) (by decide)) hargs)
      (by decide)
  | ret type value => exact .append (by decide) (unbroken_typed _)
  | retVoid => decide
  | unreachable => decide

/-- A line is broken only where something is written as it is. -/
theorem unbroken_line {l : Line} (h : Unbroken l.raw) : Unbroken l.text := by
  cases l with
  | blank => decide
  | moduleComment name => exact .append (.append (by decide) h) (by decide)
  | sourceFile name => exact .append (.append (by decide) (unbroken_escape _)) (by decide)
  | triple t => exact .append (.append (by decide) h) (by decide)
  | global name data =>
    have hsize : Unbroken
        (LLVM.symbol name ++ " = private unnamed_addr constant [" ++ toString (data.length + 1)) :=
      .append (.append (unbroken_symbol name) (by decide)) (unbroken_nat _)
    exact .append (.append (hsize.append (by decide)) (unbroken_escape data))
      (by decide)
  | declare name sig =>
    have hname : Unbroken ("declare " ++ typeText sig.result ++ " " ++ LLVM.symbol name) :=
      .append (.append (.append (by decide) (unbroken_type _)) (by decide)) (unbroken_symbol name)
    exact .append (.append (hname.append (by decide)) (unbroken_parts sig)) (by decide)
  | define name params result =>
    have hparams : Unbroken (", ".intercalate
        (params.zipIdx.map fun a => typeText a.1 ++ " %arg" ++ toString a.2)) := by
      apply unbroken_intercalate
      intro s hs
      obtain ⟨a, -, rfl⟩ := List.mem_map.1 hs
      exact .append (.append (unbroken_type a.1) (by decide)) (unbroken_nat a.2)
    have hname : Unbroken ("define " ++ typeText result ++ " " ++ LLVM.symbol name) :=
      .append (.append (.append (by decide) (unbroken_type _)) (by decide)) (unbroken_symbol name)
    exact .append (.append (hname.append (by decide)) hparams) (by decide)
  | label n =>
    cases n with
    | zero => decide
    | succ n => exact .append (.append (by decide) (unbroken_nat _)) (by decide)
  | inst i => exact .append (by decide) (unbroken_inst h)
  | close => decide

theorem linesOf_unbroken {text : String} (h : Unbroken text) : linesOf text = [text] := by
  rw [linesOf, List.splitOnP_eq_singleton h, List.map_singleton, String.ofList_toList]

/-- Lines one below the other, each ended by a line feed. -/
def joined (texts : List String) : String := String.join (texts.map (· ++ "\n"))

theorem textOf_eq_joined (lines : List Line) : textOf lines = joined (lines.map Line.text) := by
  rw [textOf, joined, List.map_map]
  rfl

/-- Lines one below the other are split into what each of them is split into. -/
theorem linesOf_joined (texts : List String) :
    linesOf (joined texts) = texts.flatMap linesOf ++ [""] := by
  induction texts with
  | nil => rfl
  | cons text texts ih =>
    have hchars : (joined (text :: texts)).toList = text.toList ++ '\n' :: (joined texts).toList := by
      simp [joined]
    have hsplit : linesOf (joined (text :: texts)) = linesOf text ++ linesOf (joined texts) := by
      rw [linesOf, hchars, List.splitOnP_append_cons _ _ rfl, List.map_append]
      rfl
    rw [hsplit, ih, List.flatMap_cons, List.append_assoc]

theorem linesOf_textOf (lines : List Line) :
    linesOf (textOf lines) = lines.flatMap (fun l => linesOf l.text) ++ [""] := by
  rw [textOf_eq_joined, linesOf_joined, List.flatMap_map]

/-- The text of lines is split into them again. -/
theorem readText_textOf {lines : List Line} (h : ∀ l ∈ lines, Unbroken l.raw) :
    readText (textOf lines) = lines.map lineTokens ++ [[]] := by
  have hlines : lines.flatMap (fun l => linesOf l.text) = lines.map Line.text := by
    rw [List.map_eq_flatMap]
    exact List.flatMap_congr fun l hl => linesOf_unbroken (unbroken_line (h l hl))
  rw [readText, linesOf_textOf, hlines, List.map_append, List.map_map]
  congr 1
  exact List.map_congr_left fun l _ => tokens_line l

end Wordlang.LLVM.Reader
