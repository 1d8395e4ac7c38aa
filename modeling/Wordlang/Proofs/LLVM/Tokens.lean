import Mathlib.Data.List.Basic
import Wordlang.Proofs.LLVM.Body
import Wordlang.Proofs.LLVM.Reader

/-!
# The tokens of a line

Every line that is rendered has the tokens that it was made of: the reader takes an operand for one
token, whatever the names in it, and nothing else for a name.
-/

namespace Wordlang.LLVM.Reader

open IR (Ty Signature)

/-! ## Reading in pieces -/

theorem step_done (m : Mode) (cur : List Char) (d : List (List Char)) (c : Char) :
    step ⟨m, cur, d⟩ c =
      ⟨(step ⟨m, cur, []⟩ c).mode, (step ⟨m, cur, []⟩ c).current,
        d ++ (step ⟨m, cur, []⟩ c).done⟩ := by
  have hflush : State.flush ⟨m, cur, d⟩ = d ++ State.flush ⟨m, cur, []⟩ := by
    unfold State.flush
    by_cases h : cur = []
    · simp [h]
    · simp [h]
  cases m with
  | comment => simp [step]
  | quoted => simp [step]
  | code =>
    simp only [step, hflush]
    split
    · rfl
    split
    · simp
    split
    · rfl
    split
    · rfl
    split
    · simp
    · simp

/-- The tokens before do not matter for what is read. -/
theorem read_done (m : Mode) (cur : List Char) (d : List (List Char)) (cs : List Char) :
    read ⟨m, cur, d⟩ cs =
      ⟨(read ⟨m, cur, []⟩ cs).mode, (read ⟨m, cur, []⟩ cs).current,
        d ++ (read ⟨m, cur, []⟩ cs).done⟩ := by
  induction cs generalizing m cur d with
  | nil => simp [read]
  | cons c cs ih =>
    have hcons : ∀ s, read s (c :: cs) = read (step s c) cs := fun _ => rfl
    rw [hcons, hcons, step_done m cur d c, ih]
    -- the first character may have completed tokens of its own
    generalize step ⟨m, cur, []⟩ c = s
    obtain ⟨m', cur', d'⟩ := s
    rw [ih m' cur' d']
    simp

theorem flush_read (d : List (List Char)) (cs : List Char) :
    (read ⟨.code, [], d⟩ cs).flush = d ++ scan cs := by
  rw [read_done, scan]
  generalize read {} cs = s
  unfold State.flush
  by_cases h : s.current = []
  · simp [h]
  · simp [h]

/-- A character that ends the token before it. -/
def Ends (c : Char) : Prop := c ∈ [' ', ',', '(', ')', ':']

instance : DecidablePred Ends := fun c =>
  inferInstanceAs (Decidable (c ∈ [' ', ',', '(', ')', ':']))

theorem step_ends {c : Char} (hc : Ends c) (cur : List Char) (d : List (List Char)) :
    step ⟨.code, cur, d⟩ c = step ⟨.code, [], State.flush ⟨.code, cur, d⟩⟩ c := by
  simp only [Ends, List.mem_cons, List.not_mem_nil, or_false] at hc
  rcases hc with rfl | rfl | rfl | rfl | rfl
  all_goals rfl

/-- Reading the characters gives the tokens, and leaves no quote and no comment open. -/
structure Reads (cs : List Char) (ts : List String) : Prop where
  mode : (read {} cs).mode = .code
  tokens : (scan cs).map String.ofList = ts

instance (cs : List Char) (ts : List String) : Decidable (Reads cs ts) :=
  decidable_of_iff ((read {} cs).mode = .code ∧ (scan cs).map String.ofList = ts)
    ⟨fun h => ⟨h.1, h.2⟩, fun h => ⟨h.mode, h.tokens⟩⟩

/-- What is read in two pieces: the first has no token that goes on in the second. -/
theorem read_append {p s : List Char} (hmode : (read {} p).mode = .code)
    (hjoin : (read {} p).current = [] ∨ ∃ c ∈ s.head?, Ends c) :
    read {} (p ++ s) = read ⟨.code, [], scan p⟩ s := by
  have happend : read {} (p ++ s) = read (read {} p) s := List.foldl_append
  have hscan : scan p = (read {} p).flush := rfl
  rw [happend, hscan]
  generalize read {} p = r at hmode hjoin
  obtain ⟨m, cur, d⟩ := r
  obtain rfl : m = .code := hmode
  rcases hjoin with hcur | ⟨c, hc, hends⟩
  · obtain rfl : cur = [] := hcur
    rfl
  · obtain ⟨s, rfl⟩ : ∃ s', s = c :: s' := by
      cases s with
      | nil => cases hc
      | cons a s =>
        cases hc
        exact ⟨s, rfl⟩
    have hcons : ∀ r, read r (c :: s) = read (step r c) s := fun _ => rfl
    rw [hcons, hcons, step_ends hends]

theorem Reads.append {p s : List Char} {ts us : List String} (hp : Reads p ts) (hs : Reads s us)
    (hjoin : (read {} p).current = [] ∨ ∃ c ∈ s.head?, Ends c) : Reads (p ++ s) (ts ++ us) := by
  have hread := read_append hp.mode hjoin
  refine ⟨?_, ?_⟩
  · rw [hread, read_done]
    exact hs.mode
  · rw [scan, hread, flush_read, List.map_append, hp.tokens, hs.tokens]

/-- Reading the characters gives the tokens, the last of which is complete. -/
structure Cut (cs : List Char) (ts : List String) : Prop extends Reads cs ts where
  clear : (read {} cs).current = []

instance (cs : List Char) (ts : List String) : Decidable (Cut cs ts) :=
  decidable_of_iff (Reads cs ts ∧ (read {} cs).current = [])
    ⟨fun h => ⟨h.1, h.2⟩, fun h => ⟨h.toReads, h.clear⟩⟩

/-- A piece behind which no token is open may be followed by anything. -/
theorem Cut.then {p s : String} {ts us : List String} (hp : Cut p.toList ts)
    (hs : Reads s.toList us) : Reads (p ++ s).toList (ts ++ us) := by
  rw [String.toList_append]
  exact hp.toReads.append hs (.inl hp.clear)

/-- The characters begin with one that ends the token before it. -/
structure Separator (cs : List Char) (ts : List String) : Prop extends Cut cs ts where
  starts : ∃ c ∈ cs.head?, Ends c

instance (cs : List Char) (ts : List String) : Decidable (Separator cs ts) :=
  have := List.decidableBEx Ends cs.head?.toList
  decidable_of_iff (Cut cs ts ∧ ∃ c ∈ cs.head?.toList, Ends c)
    ⟨fun h => ⟨h.1, by simpa using h.2⟩, fun h => ⟨h.toCut, by simpa using h.starts⟩⟩

/-- Any piece may be followed by one that ends its last token. -/
theorem Reads.then {p s : String} {ts us : List String} (hp : Reads p.toList ts)
    (hs : Separator s.toList us) : Cut (p ++ s).toList (ts ++ us) := by
  rw [String.toList_append]
  refine ⟨hp.append hs.toReads (.inr hs.starts), ?_⟩
  rw [read_append hp.mode (.inr hs.starts), read_done]
  exact hs.clear

/-! ## Operands -/

theorem read_symbolChars (cs : List Char) (h : ∀ c ∈ cs, isSymbolChar c = true) (cur : List Char)
    (d : List (List Char)) : read ⟨.code, cur, d⟩ cs = ⟨.code, cur ++ cs, d⟩ := by
  induction cs generalizing cur with
  | nil => simp [read]
  | cons c cs ih =>
    have hc : isSymbolChar c = true := h c (by simp)
    have hne : ∀ a, isSymbolChar a = false → c ≠ a := by
      rintro a ha rfl
      rw [hc] at ha
      cases ha
    have hstep : step ⟨.code, cur, d⟩ c = ⟨.code, cur ++ [c], d⟩ := by
      simp [step, hc, hne ';' rfl, hne '"' rfl, hne ' ' rfl, hne '%' rfl, hne '@' rfl]
    have hcons : read ⟨.code, cur, d⟩ (c :: cs) = read (step ⟨.code, cur, d⟩ c) cs := rfl
    rw [hcons, hstep, ih fun a ha => h a (List.mem_cons_of_mem c ha)]
    simp

theorem reads_of_read {s : String} (h : read {} s.toList = ⟨.code, s.toList, []⟩)
    (hne : s.toList ≠ []) : Reads s.toList [s] := by
  refine ⟨by rw [h], ?_⟩
  simp [scan, h, State.flush, hne]

/-- A name with its sigil is one token, and so is a word. -/
theorem reads_name {s : String} {c : Char} {cs : List Char} (hs : s.toList = c :: cs)
    (hc : c = '%' ∨ c = '@' ∨ isSymbolChar c = true) (hcs : ∀ a ∈ cs, isSymbolChar a = true) :
    Reads s.toList [s] := by
  refine reads_of_read ?_ (by simp [hs])
  rw [hs]
  rcases hc with rfl | rfl | hc
  · exact read_symbolChars cs hcs ['%'] []
  · exact read_symbolChars cs hcs ['@'] []
  · exact read_symbolChars (c :: cs) (List.forall_mem_cons.2 ⟨hc, hcs⟩) [] []

theorem isSymbolChar_of_isDigit {c : Char} (h : c.isDigit = true) : isSymbolChar c = true := by
  simp only [Char.isDigit, Bool.and_eq_true, decide_eq_true_eq] at h
  have hrange : '0' ≤ c ∧ c ≤ '9' := h
  simp [isSymbolChar, hrange]

theorem isSymbolChar_natText (n : Nat) : ∀ c ∈ (toString n).toList, isSymbolChar c = true := by
  intro c hc
  rw [Nat.toString_eq_repr, Nat.repr, String.toList_ofList] at hc
  exact isSymbolChar_of_isDigit (Nat.isDigit_of_mem_toDigits (by decide) (by decide) hc)

theorem isSymbolChar_intText (n : Int) : ∀ c ∈ (toString n).toList, isSymbolChar c = true := by
  cases n with
  | ofNat n => exact isSymbolChar_natText n
  | negSucc n =>
    have htext : toString (Int.negSucc n) = "-" ++ toString (n + 1) := rfl
    rw [htext, String.toList_append, List.forall_mem_append]
    exact ⟨List.all_eq_true.1 rfl, isSymbolChar_natText (n + 1)⟩

theorem intText_ne_empty (n : Int) : toString n ≠ "" := by
  cases n with
  | ofNat n => exact Nat.repr_ne_empty
  | negSucc n =>
    intro h
    have hlist : (toString (Int.negSucc n)).toList = '-' :: (toString (n + 1)).toList :=
      String.toList_append
    simp [h] at hlist

/-- A property of all bytes, checked number by number. -/
theorem forall_byte {P : UInt8 → Prop} (h : ∀ n < 256, P (UInt8.ofNat n)) (b : UInt8) : P b := by
  have hb := h b.toNat b.toNat_lt
  rwa [UInt8.ofNat_toNat] at hb

/-- Neither a quote nor a line break is ever written between quotes. -/
theorem escapeByte_chars (b : UInt8) : ∀ c ∈ escapeByte b, c ≠ '"' ∧ isBreak c = false := by
  have hall : ∀ b, (escapeByte b).all (fun c => c ≠ '"' ∧ isBreak c = false) = true :=
    forall_byte (by decide +kernel)
  exact fun c hc => of_decide_eq_true (List.all_eq_true.1 (hall b) c hc)

theorem escape_chars (data : List UInt8) :
    ∀ c ∈ (escape data).toList, c ≠ '"' ∧ isBreak c = false := by
  intro c hc
  rw [escape, String.toList_ofList] at hc
  obtain ⟨b, -, hc⟩ := List.mem_flatMap.1 hc
  exact escapeByte_chars b c hc

/-- Up to the closing quote, a text between quotes belongs to the token that has been started. -/
theorem read_quoted {cs : List Char} (h : ∀ c ∈ cs, c ≠ '"') (cur : List Char)
    (d : List (List Char)) :
    read ⟨.quoted, cur, d⟩ (cs ++ ['"']) = ⟨.code, cur ++ cs ++ ['"'], d⟩ := by
  induction cs generalizing cur with
  | nil => simp [read, step]
  | cons c cs ih =>
    have hstep : step ⟨.quoted, cur, d⟩ c = ⟨.quoted, cur ++ [c], d⟩ := by
      simp [step, h c (by simp)]
    have hcons : read ⟨.quoted, cur, d⟩ (c :: cs ++ ['"']) =
        read (step ⟨.quoted, cur, d⟩ c) (cs ++ ['"']) := rfl
    rw [hcons, hstep, ih fun a ha => h a (List.mem_cons_of_mem c ha)]
    simp

theorem isSymbolChar_of_isPlainSymbol {name : String} (h : isPlainSymbol name = true) :
    ∀ c ∈ name.toList, isSymbolChar c = true := by
  unfold isPlainSymbol at h
  split at h
  · cases h
  · next c cs hname =>
    rw [Bool.and_eq_true, List.all_eq_true] at h
    rw [hname, List.forall_mem_cons]
    exact ⟨by simp [isSymbolChar, h.1], h.2⟩

/-- A text between quotes is one token, with what stands right before it. -/
theorem reads_quoted {s : String} {p cs : List Char} (hs : s.toList = p ++ '"' :: (cs ++ ['"']))
    (hp : read {} p = ⟨.code, p, []⟩) (hcs : ∀ c ∈ cs, c ≠ '"') : Reads s.toList [s] := by
  have happend : read {} (p ++ '"' :: (cs ++ ['"'])) =
      read (step (read {} p) '"') (cs ++ ['"']) := List.foldl_append
  have hstep : step ⟨.code, p, []⟩ '"' = ⟨.quoted, p ++ ['"'], []⟩ := rfl
  refine reads_of_read ?_ (by simp [hs])
  rw [hs, happend, hp, hstep, read_quoted hcs]
  simp

theorem reads_symbol (name : String) : Reads (LLVM.symbol name).toList [LLVM.symbol name] := by
  unfold LLVM.symbol
  by_cases hplain : isPlainSymbol name = true
  · rw [if_pos hplain]
    exact reads_name String.toList_append (.inr (.inl rfl)) (isSymbolChar_of_isPlainSymbol hplain)
  · rw [if_neg hplain]
    refine reads_quoted (p := ['@']) ?_ rfl
      fun c hc => (escape_chars (Text.Utf8.ofString name) c hc).1
    rw [String.toList_append, String.toList_append]
    rfl

/-- Every operand is one token. -/
theorem reads_operand (x : Operand) : Reads x.text.toList [x.text] := by
  cases x with
  | const n =>
    obtain ⟨c, cs, htext⟩ := List.exists_cons_of_ne_nil (l := (toString n).toList)
      (by simpa using intText_ne_empty n)
    have hchars := isSymbolChar_intText n
    rw [htext, List.forall_mem_cons] at hchars
    exact reads_name htext (.inr (.inr hchars.1)) hchars.2
  | symbol name => exact reads_symbol name
  | arg n =>
    refine reads_name String.toList_append (.inl rfl) ?_
    exact List.forall_mem_append.2 ⟨List.all_eq_true.1 rfl, isSymbolChar_intText n⟩
  | value n =>
    refine reads_name String.toList_append (.inl rfl) ?_
    exact List.forall_mem_append.2 ⟨List.all_eq_true.1 rfl, isSymbolChar_natText n⟩

/-- There are three types that are written. -/
theorem forall_typeText {P : String → Prop} (h : ∀ w ∈ ["i32", "ptr", "void"], P w) (t : Ty) :
    P (typeText t) := by
  apply h
  cases t with
  | i32 => decide
  | ptr => decide
  | _ => exact List.mem_of_getElem? (i := 2) rfl

/-- Between the parentheses of a signature there are dots as well. -/
theorem forall_parts {P : String → Prop} (h : ∀ w ∈ ["i32", "ptr", "void", "..."], P w)
    (sig : Signature) : ∀ w ∈ sig.parts typeText, P w := by
  intro w hw
  rcases List.mem_append.1 hw with hw | hw
  · obtain ⟨t, -, rfl⟩ := List.mem_map.1 hw
    exact forall_typeText (fun w hw => h w (List.mem_append_left ["..."] hw)) t
  · split at hw
    · obtain rfl := List.mem_singleton.1 hw
      exact h "..." (by decide)
    · cases hw

theorem reads_type (t : Ty) : Reads (typeText t).toList [typeText t] := by
  have hall : ∀ w ∈ ["i32", "ptr", "void"], Reads w.toList [w] := by decide
  exact forall_typeText hall t

/-! ## Instructions -/

theorem separator_space : Separator " ".toList [] := by decide

theorem separator_comma : Separator ", ".toList [","] := by decide

theorem separator_open : Separator "(".toList ["("] := by decide

theorem separator_close : Separator ")".toList [")"] := by decide

theorem reads_intercalate {α : Type} (text : α → String) (ts : α → List String) (xs : List α)
    (h : ∀ x ∈ xs, Reads (text x).toList (ts x)) :
    Reads (", ".intercalate (xs.map text)).toList ([","].intercalate (xs.map ts)) := by
  induction xs with
  | nil => exact ⟨rfl, rfl⟩
  | cons x xs ih =>
    obtain ⟨hx, hxs⟩ := List.forall_mem_cons.1 h
    cases xs with
    | nil => simpa using hx
    | cons y xs =>
      have hrest := (hx.then separator_comma).then (ih hxs)
      simpa [String.intercalate_cons_cons] using hrest

theorem reads_typed (a : Ty × Operand) :
    Reads (typedText a).toList [typeText a.1, a.2.text] := by
  exact ((reads_type a.1).then separator_space).then (reads_operand a.2)

theorem reads_typedList (xs : List (Ty × Operand)) :
    Reads (", ".intercalate (xs.map typedText)).toList
      ([","].intercalate (xs.map fun a => [typeText a.1, a.2.text])) :=
  reads_intercalate typedText _ xs fun a _ => reads_typed a

theorem reads_parts (sig : Signature) :
    Reads (", ".intercalate (sig.parts typeText)).toList
      ([","].intercalate ((sig.parts typeText).map fun t => [t])) := by
  have hwords : ∀ w ∈ ["i32", "ptr", "void", "..."], Reads w.toList [w] := by decide
  simpa using reads_intercalate id (fun t => [t]) (sig.parts typeText)
    (forall_parts hwords sig)

/-- The tokens between the word `call` and the callee. -/
def calledTokens (sig : Signature) : List String :=
  if sig.variadic then
    typeText sig.result :: "(" ::
      ([","].intercalate ((sig.parts typeText).map fun t => [t]) ++ [")"])
  else [typeText sig.result]

/-- The tokens that say what an instruction computes. -/
def useTokens : Inst → List String
  | .alloca _ elem _ => ["alloca", typeText elem]
  | .load _ type slot => ["load", typeText type, ",", "ptr", slot.text]
  | .store type value slot => ["store", typeText type, value.text, ",", "ptr", slot.text]
  | .add _ a b => ["add", "i32", a.text, ",", b.text]
  | .call _ sig callee args =>
    "call" :: calledTokens sig ++ callee.text :: "(" ::
      [","].intercalate (args.map fun a => [typeText a.1, a.2.text]) ++ [")"]
  | .ret type value => ["ret", typeText type, value.text]
  | .retVoid => ["ret", "void"]
  | .unreachable => ["unreachable"]

/-- The tokens of an instruction. -/
def instTokens (i : Inst) : List String :=
  match i.dst? with
  | some n => valueText n :: "=" :: useTokens i
  | none => useTokens i

theorem reads_called (sig : Signature) :
    Reads (if sig.variadic then funcTypeText sig else typeText sig.result).toList
      (calledTokens sig) := by
  have hopen : Separator " (".toList ["("] := by decide
  unfold calledTokens
  by_cases hvar : sig.variadic = true
  · rw [if_pos hvar, if_pos hvar]
    have hparams := ((reads_type sig.result).then hopen).then (reads_parts sig)
    simpa [funcTypeText] using (hparams.then separator_close).toReads
  · rw [if_neg hvar, if_neg hvar]
    exact reads_type sig.result

/-- A comment goes on to the end of the line. -/
theorem read_comment (d : List (List Char)) (cs : List Char) :
    read ⟨.comment, [], d⟩ cs = ⟨.comment, [], d⟩ := by
  induction cs with
  | nil => rfl
  | cons c cs ih => exact ih

/-- What stands in a line before its comment is read. -/
theorem tokens_comment {p : String} {ts : List String} (hp : Reads p.toList ts) (comment : String) :
    tokens (p ++ (" ; " ++ comment)) = ts := by
  have hread : read {} (p ++ (" ; " ++ comment)).toList = ⟨.comment, [], scan p.toList⟩ := by
    rw [String.toList_append, read_append hp.mode (.inr ⟨' ', by simp, by decide⟩),
      String.toList_append]
    exact read_comment _ _
  rw [tokens, scan, hread, ← hp.tokens]
  rfl

theorem tokens_inst (i : Inst) : tokens (Line.inst i).text = instTokens i := by
  have hindent : Cut "  ".toList [] := by decide
  have hslot : Separator ", ptr ".toList [",", "ptr"] := by decide
  have hvalue : ∀ n, Reads (valueText n).toList [valueText n] := fun n => reads_operand (.value n)
  cases i with
  | alloca dst elem comment =>
    have halloca : Separator " = alloca ".toList ["=", "alloca"] := by decide
    have hcode := hindent.then (((hvalue dst).then halloca).then (reads_type elem))
    show tokens ("  " ++ (valueText dst ++ " = alloca " ++ typeText elem ++ _)) = _
    rw [← String.append_assoc]
    by_cases hc : comment = ""
    · rw [if_pos hc, String.append_empty]
      exact hcode.tokens
    · rw [if_neg hc]
      exact tokens_comment hcode comment
  | load dst type slot =>
    have hload : Separator " = load ".toList ["=", "load"] := by decide
    have htype := ((hvalue dst).then hload).then (reads_type type)
    exact (hindent.then ((htype.then hslot).then (reads_operand slot))).tokens
  | store type value slot =>
    have hstore : Cut "store ".toList ["store"] := by decide
    have htyped := hstore.then (reads_typed (type, value))
    exact (hindent.then ((htyped.then hslot).then (reads_operand slot))).tokens
  | add dst a b =>
    have hadd : Separator " = add i32 ".toList ["=", "add", "i32"] := by decide
    have hfirst := ((hvalue dst).then hadd).then (reads_operand a)
    exact (hindent.then ((hfirst.then separator_comma).then (reads_operand b))).tokens
  | call dst sig callee args =>
    have hcall : Separator " = call ".toList ["=", "call"] := by decide
    have htype := ((hvalue dst).then hcall).then (reads_called sig)
    have hcallee := (htype.then separator_space).then (reads_operand callee)
    have hargs := (hcallee.then separator_open).then (reads_typedList args)
    have hline := hindent.then (hargs.then separator_close).toReads
    refine hline.tokens.trans ?_
    simp [instTokens, useTokens, Inst.dst?]
  | ret type value =>
    have hret : Cut "ret ".toList ["ret"] := by decide
    exact (hindent.then (hret.then (reads_typed (type, value)))).tokens
  | retVoid =>
    have hret : Reads "ret void".toList ["ret", "void"] := by decide
    exact (hindent.then hret).tokens
  | unreachable =>
    have hword : Reads "unreachable".toList ["unreachable"] := by decide
    exact (hindent.then hword).tokens

/-! ## Lines -/

/-- The tokens of a line. Of a target triple, which is written as it is, only the first is known. -/
def lineTokens : Line → List String
  | .blank => []
  | .moduleComment _ => []
  | .sourceFile name =>
    ["source_filename", "=", "\"" ++ escape (Text.Utf8.ofString name) ++ "\""]
  | .triple t => tokens (Line.triple t).text
  | .global name data =>
    [LLVM.symbol name, "=", "private", "unnamed_addr", "constant", "[", toString (data.length + 1),
      "x", "i8", "]", "c\"" ++ escape data ++ "\\00\"", ",", "align", "1"]
  | .declare name sig =>
    ["declare", typeText sig.result, LLVM.symbol name, "("] ++
      [","].intercalate ((sig.parts typeText).map fun t => [t]) ++ [")"]
  | .define name params result =>
    ["define", typeText result, LLVM.symbol name, "("] ++
      [","].intercalate (params.zipIdx.map fun a => [typeText a.1, argText a.2]) ++ [")", "\x7b"]
  | .label 0 => ["entry", ":"]
  | .label n => ["b" ++ toString n, ":"]
  | .inst i => instTokens i
  | .close => ["\x7d"]

/-- What a function that is declared or defined begins with. -/
theorem cut_prototype {s w : String} (hword : Cut s.toList [w]) (result : Ty) (name : String) :
    Cut (s ++ typeText result ++ " " ++ LLVM.symbol name ++ "(").toList
      [w, typeText result, LLVM.symbol name, "("] := by
  have hresult := (hword.then (reads_type result)).then separator_space
  exact (hresult.then (reads_symbol name)).then separator_open

theorem tokens_define (name : String) (params : List Ty) (result : Ty) :
    tokens (Line.define name params result).text = lineTokens (.define name params result) := by
  have hdefine : Cut "define ".toList ["define"] := by decide
  have hclose : Separator ") \x7b".toList [")", "\x7b"] := by decide
  -- a parameter is written like an operand with its type
  have hparam : ∀ a : Ty × Nat,
      typeText a.1 ++ " %arg" ++ toString a.2 = typedText (a.1, .arg a.2) := by
    intro a
    have hspell : " %arg" = " " ++ "%arg" := rfl
    rw [hspell, ← String.append_assoc, String.append_assoc]
    rfl
  have hparams : Reads (", ".intercalate
      (params.zipIdx.map fun a => typeText a.1 ++ " %arg" ++ toString a.2)).toList
      ([","].intercalate (params.zipIdx.map fun a => [typeText a.1, argText a.2])) := by
    refine reads_intercalate _ _ _ fun a _ => ?_
    rw [hparam]
    exact reads_typed (a.1, .arg a.2)
  have hname := cut_prototype hdefine result name
  exact ((hname.then hparams).then hclose).tokens

theorem tokens_declare (name : String) (sig : Signature) :
    tokens (Line.declare name sig).text = lineTokens (.declare name sig) := by
  have hdeclare : Cut "declare ".toList ["declare"] := by decide
  have hname := cut_prototype hdeclare sig.result name
  exact ((hname.then (reads_parts sig)).then separator_close).tokens

theorem tokens_global (name : String) (data : List UInt8) :
    tokens (Line.global name data).text = lineTokens (.global name data) := by
  have hkind : Separator " = private unnamed_addr constant [".toList
      ["=", "private", "unnamed_addr", "constant", "["] := by decide
  have helem : Separator " x i8] ".toList ["x", "i8", "]"] := by decide
  have halign : Reads ", align 1".toList [",", "align", "1"] := by decide
  have hsize : Reads (toString (data.length + 1)).toList [toString (data.length + 1)] :=
    reads_operand (.const (data.length + 1 : Nat))
  have hchars : ∀ c ∈ (escape data).toList ++ "\\00".toList, c ≠ '"' :=
    List.forall_mem_append.2 ⟨fun c hc => (escape_chars data c hc).1, by simp⟩
  have hdata : Reads ("c\"" ++ escape data ++ "\\00\"").toList
      ["c\"" ++ escape data ++ "\\00\""] := by
    refine reads_quoted (p := ['c']) ?_ rfl hchars
    simp
  have hhead := ((reads_symbol name).then hkind).then hsize
  have hline := ((hhead.then helem).then hdata).append halign
    (.inr ⟨',', rfl, by decide⟩)
  rw [← String.toList_append] at hline
  -- the quotes go with the text between them
  have htext : ∀ a e : String, a ++ " x i8] c\"" ++ e ++ "\\00\", align 1" =
      a ++ " x i8] " ++ ("c\"" ++ e ++ "\\00\"") ++ ", align 1" := by
    intro a e
    apply String.toList_inj.1
    simp
  exact (congrArg tokens (htext _ _)).trans hline.tokens

theorem tokens_sourceFile (name : String) :
    tokens (Line.sourceFile name).text = lineTokens (.sourceFile name) := by
  have hword : Cut "source_filename = ".toList ["source_filename", "="] := by decide
  have hname : Reads ("\"" ++ escape (Text.Utf8.ofString name) ++ "\"").toList
      ["\"" ++ escape (Text.Utf8.ofString name) ++ "\""] := by
    refine reads_quoted (p := []) ?_ rfl
      fun c hc => (escape_chars (Text.Utf8.ofString name) c hc).1
    simp
  have htext : ∀ e : String,
      "source_filename = \"" ++ e ++ "\"" = "source_filename = " ++ ("\"" ++ e ++ "\"") := by
    intro e
    apply String.toList_inj.1
    simp
  exact (congrArg tokens (htext _)).trans (hword.then hname).tokens

theorem tokens_label (n : Nat) : tokens (Line.label n).text = lineTokens (.label n) := by
  cases n with
  | zero =>
    have hentry : Reads "entry:".toList ["entry", ":"] := by decide
    exact hentry.tokens
  | succ n =>
    have hcolon : Separator ":".toList [":"] := by decide
    have hword : Reads ("b" ++ toString (n + 1)).toList ["b" ++ toString (n + 1)] :=
      reads_name String.toList_append (.inr (.inr rfl)) (isSymbolChar_natText (n + 1))
    exact (hword.then hcolon).tokens

theorem tokens_moduleComment (name : String) : tokens (Line.moduleComment name).text = [] := by
  have hread : read {} ("; ModuleID = '" ++ name ++ "'").toList = ⟨.comment, [], []⟩ := by
    have hcons : ∀ s : String,
        ("; ModuleID = '" ++ s).toList = ';' :: (" ModuleID = '" ++ s).toList := by
      simp
    rw [String.append_assoc, hcons]
    exact read_comment [] _
  show tokens ("; ModuleID = '" ++ name ++ "'") = []
  rw [tokens, scan, hread]
  rfl

/-- The tokens of every line are known. -/
theorem tokens_line (l : Line) : tokens l.text = lineTokens l := by
  cases l with
  | blank => decide
  | moduleComment name => exact tokens_moduleComment name
  | sourceFile name => exact tokens_sourceFile name
  | triple t => rfl
  | global name data => exact tokens_global name data
  | declare name sig => exact tokens_declare name sig
  | define name params result => exact tokens_define name params result
  | label n => exact tokens_label n
  | inst i => exact tokens_inst i
  | close => decide

theorem head?_triple (t : String) : (lineTokens (.triple t)).head? = some "target" := by
  -- a quote in the text may open anything behind it, but what stands before it is complete
  let d := ["target".toList, "triple".toList, "=".toList]
  have hbefore : read {} "target triple = \"".toList = ⟨.quoted, ['"'], d⟩ := by decide
  have hread : read {} ("target triple = \"" ++ t ++ "\"").toList =
      read ⟨.quoted, ['"'], d⟩ (t ++ "\"").toList := by
    rw [String.append_assoc, String.toList_append, ← hbefore]
    exact List.foldl_append
  have hscan : ∃ ts, scan ("target triple = \"" ++ t ++ "\"").toList = d ++ ts := by
    rw [scan, hread, read_done, State.flush]
    split
    · exact ⟨_, rfl⟩
    · exact ⟨_, List.append_assoc _ _ _⟩
  obtain ⟨ts, hts⟩ := hscan
  show ((scan ("target triple = \"" ++ t ++ "\"").toList).map String.ofList).head? = _
  rw [hts]
  rfl

end Wordlang.LLVM.Reader
