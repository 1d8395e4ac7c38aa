import Wordlang.Proofs.LLVM.Compile
import Wordlang.Proofs.LLVM.Recover
import Wordlang.Proofs.Shape.Parse

/-!
# The text determines the module

The text of an accepted program is read back to the skeleton of its module. Two programs with the
same text hence have modules that differ in nothing but what a skeleton forgets.
-/

namespace Wordlang

open IR Lowering LLVM Reader

/-! ## Names of a program -/

/-- The text can be written between quotes as it is. -/
def Quotable (s : String) : Prop := '"' ∉ s.toList

instance : DecidablePred Quotable := fun s => inferInstanceAs (Decidable ('"' ∉ s.toList))

theorem IsName.unbroken {name : String} (h : IsName name) : Unbroken name := by
  intro c hc
  obtain ⟨hblank, -⟩ := h.chars c hc
  by_contra hbreak
  have hcases : c = '\n' ∨ c = '\r' := by simpa [isBreak, or_iff_not_imp_left] using hbreak
  rcases hcases with rfl | rfl
  · exact hblank (by decide)
  · exact hblank (by decide)

theorem IsName.quotable {name : String} (h : IsName name) : Quotable name :=
  fun hc => (h.chars _ hc).2.1 rfl

namespace Expr

mutual

/-- The names in a tree that can be written down are names of the language. -/
theorem isName_of_shaped : ∀ e : Expr, Shaped e → ∀ n ∈ e.names, IsName n
  | .name id, h => by
    rw [Shaped] at h
    rw [names, List.forall_mem_singleton]
    exact h
  | .assign _ target value, h => by
    rw [Shaped] at h
    rw [names, List.forall_mem_cons]
    exact ⟨h.1, isName_of_shaped value h.2⟩
  | .call _ callee args, h => by
    rw [Shaped] at h
    rw [names, List.forall_mem_cons]
    exact ⟨h.1, isName_of_shapedAll args h.2⟩
  | .function _ params body, h => by
    rw [Shaped] at h
    have hparams := (shapedAll_iff params).2 fun p hp => (h.1 p hp).shaped
    rw [names, List.forall_mem_append]
    exact ⟨isName_of_shapedAll params hparams, isName_of_shapedAll body h.2⟩
  | .int .., _ => by simp [names]
  | .string .., _ => by simp [names]
  | .absent, _ => by simp [names]
  | .infixTail .., h => by
    rw [Shaped] at h
    exact h.elim
  | .empty _, _ => by simp [names]

theorem isName_of_shapedAll : ∀ es : List Expr, ShapedAll es → ∀ n ∈ namesAll es, IsName n
  | [], _ => by simp [namesAll]
  | e :: es, h => by
    rw [ShapedAll] at h
    rw [namesAll, List.forall_mem_append]
    exact ⟨isName_of_shaped e h.1, isName_of_shapedAll es h.2⟩

end

end Expr

/-! ## Kinds of lines -/

namespace LLVM

/-- The line is that of a constant. -/
def Line.isConstant : Line → Bool
  | .global .. => true
  | _ => false

/-- The line declares a function. -/
def Line.isDeclaration : Line → Bool
  | .declare .. => true
  | _ => false

theorem isConstant_cons {w : String} {ts : List String} : IsConstant (w :: ts) ↔ IsGlobal w := by
  simp [IsConstant]

theorem isConstant_line (l : Line) : IsConstant (lineTokens l) ↔ l.isConstant = true := by
  have hquiet : l.introduces? = none → ¬ IsConstant (lineTokens l) := by
    rintro hl ⟨w, hw, hglobal⟩
    obtain ⟨ts, hts⟩ := List.head?_eq_some_iff.1 hw
    exact (quiet_of_line hl hts).2.2 hglobal
  cases l with
  | global name data => exact iff_of_true (isConstant_cons.2 (isGlobal_symbol name)) rfl
  | declare | define => exact iff_of_false (mt isConstant_cons.1 (by decide)) nofun
  | _ => exact iff_of_false (hquiet rfl) nofun

theorem isDeclaration_line (l : Line) :
    (lineTokens l).head? = some "declare" ↔ l.isDeclaration = true := by
  have hquiet : l.introduces? = none → (lineTokens l).head? ≠ some "declare" := by
    intro hl hw
    obtain ⟨ts, hts⟩ := List.head?_eq_some_iff.1 hw
    exact (quiet_of_line hl hts).2.1 rfl
  cases l with
  | declare name sig => exact iff_of_true rfl rfl
  | global name data =>
    refine iff_of_false (fun hw => ?_) nofun
    have hglobal := isGlobal_symbol name
    have hname : LLVM.symbol name = "declare" := Option.some.inj hw
    rw [hname] at hglobal
    exact absurd hglobal (by decide)
  | define => exact iff_of_false (fun hw => absurd (Option.some.inj hw) (by decide)) nofun
  | _ => exact iff_of_false (hquiet rfl) nofun

theorem filter_group {kind : Line → Bool} (hblank : kind .blank = false) (lines : List Line) :
    (group lines).filter kind = lines.filter kind := by
  cases lines with
  | nil => rfl
  | cons l lines => exact List.filter_cons_of_neg (by simp [hblank])

/-- Only constants and declarations are found where these are looked for. -/
theorem filter_module (m : Module) (declared : List Line) (bodies : List Body) {kind : Line → Bool}
    (hkind : ∀ l : Line, l.isConstant = false → l.isDeclaration = false → kind l = false) :
    (frontLines m declared ++ bodies.flatMap Body.lines).filter kind =
      (m.globals.map fun g => Line.global g.name g.data).filter kind ++ declared.filter kind := by
  have hnone : ∀ {lines : List Line},
      (∀ l ∈ lines, l.isConstant = false ∧ l.isDeclaration = false) → lines.filter kind = [] := by
    intro lines h
    rw [List.filter_eq_nil_iff]
    intro l hl
    simp [hkind l (h l hl).1 (h l hl).2]
  have hheader : (header m).filter kind = [] := by
    apply hnone
    unfold header
    split
    · simp [Line.isConstant, Line.isDeclaration]
    · simp [Line.isConstant, Line.isDeclaration]
  have hbodies : (bodies.flatMap Body.lines).filter kind = [] := by
    apply hnone
    intro l hl
    obtain ⟨b, -, hl⟩ := List.mem_flatMap.1 hl
    rcases Body.mem_lines hl with ⟨i, -, rfl⟩ | hl
    · exact ⟨rfl, rfl⟩
    · simp only [List.mem_cons, List.not_mem_nil, or_false] at hl
      rcases hl with rfl | rfl | rfl | rfl
      all_goals exact ⟨rfl, rfl⟩
  have hblank := hkind .blank rfl rfl
  rw [frontLines, List.filter_append, List.filter_append, List.filter_append, filter_group hblank,
    filter_group hblank, hheader, hbodies, List.append_nil, List.nil_append]

theorem filter_lineTokens {p : List String → Prop} [DecidablePred p] {kind : Line → Bool}
    (h : ∀ l, p (lineTokens l) ↔ kind l = true) (lines : List Line) :
    (lines.map lineTokens).filter (p ·) = (lines.filter kind).map lineTokens := by
  have hkind : (fun l => decide (p (lineTokens l))) = kind := by
    funext l
    exact Bool.eq_iff_iff.2 (decide_eq_true_iff.trans (h l))
  rw [List.filter_map, Function.comp_def, hkind]

theorem filter_lines {p : List String → Prop} [DecidablePred p] {kind : Line → Bool} (hnil : ¬ p [])
    (h : ∀ l, p (lineTokens l) ↔ kind l = true) (lines : List Line) :
    (lines.map lineTokens ++ [[]]).filter (p ·) = (lines.filter kind).map lineTokens := by
  have hend : [[]].filter (p ·) = [] := List.filter_cons_of_neg (by simpa using hnil)
  rw [List.filter_append, filter_lineTokens h, hend, List.append_nil]

section Modules

variable {m : Module} {ds : List Draft} {externals : List (String × Signature)} {bodies : List Body}

/-- The lines of declarations. -/
def declarations (externals : List (String × Signature)) : List Line :=
  externals.map fun e => .declare e.1 e.2

/-- The lines of a module, below its name. -/
def moduleLines (m : Module) (externals : List (String × Signature)) (bodies : List Body) :
    List Line :=
  frontLines m (declarations externals) ++ bodies.flatMap Body.lines

theorem constants_module : ((moduleLines m externals bodies).map lineTokens ++ [[]]).filter
    (IsConstant ·) = m.globals.map fun g => lineTokens (.global g.name g.data) := by
  have hglobals : (m.globals.map fun g => Line.global g.name g.data).filter Line.isConstant =
      m.globals.map fun g => Line.global g.name g.data := by
    simp [Line.isConstant]
  have hdeclared : (declarations externals).filter Line.isConstant = [] := by
    rw [declarations, List.filter_map]
    simp [Function.comp_def, Line.isConstant]
  rw [filter_lines (by simp [IsConstant]) isConstant_line, moduleLines,
    filter_module m _ bodies fun _ h _ => h, hglobals, hdeclared, List.append_nil, List.map_map]
  rfl

theorem declarations_module : ((moduleLines m externals bodies).map lineTokens ++ [[]]).filter
    (·.head? = some "declare") = (declarations externals).map lineTokens := by
  have hglobals : (m.globals.map fun g => Line.global g.name g.data).filter Line.isDeclaration =
      [] := by
    simp [Line.isDeclaration]
  have hdeclared : (declarations externals).filter Line.isDeclaration = declarations externals := by
    rw [declarations, List.filter_map]
    simp [Function.comp_def, Line.isDeclaration]
  rw [filter_lines (p := fun ts => ts.head? = some "declare") (by simp) isDeclaration_line,
    moduleLines, filter_module m _ bodies fun _ _ h => h, hglobals, hdeclared, List.nil_append]

/-- An empty line stands behind the header. -/
theorem header_module (m : Module) (externals : List (String × Signature)) (bodies : List Body) :
    ∃ rest, (moduleLines m externals bodies).map lineTokens ++ [[]] =
      (header m).map lineTokens ++ [] :: rest := by
  have hempty : ∀ constants declared : List Line, ∃ rest,
      (group constants ++ group declared ++ bodies.flatMap Body.lines).map lineTokens ++ [[]] =
        [] :: rest := by
    rintro (_ | ⟨g, constants⟩) (_ | ⟨l, declared⟩)
    · cases bodies with
      | nil => exact ⟨[], rfl⟩
      | cons b bodies => exact ⟨_, rfl⟩
    all_goals exact ⟨_, rfl⟩
  obtain ⟨rest, hrest⟩ := hempty (m.globals.map fun g => .global g.name g.data)
    (declarations externals)
  refine ⟨rest, ?_⟩
  rw [← hrest, moduleLines, frontLines]
  simp only [List.append_assoc, List.map_append]

theorem readHeader_module (h : Quotable m.triple) (externals : List (String × Signature))
    (bodies : List Body) :
    ∃ source triple, ((moduleLines m externals bodies).map lineTokens ++ [[]])[1]? = some source ∧
      ((moduleLines m externals bodies).map lineTokens ++ [[]])[2]? = some triple ∧
      readSource? source = some m.name ∧ readTriple triple = m.triple := by
  obtain ⟨rest, hrest⟩ := header_module m externals bodies
  rw [hrest, header]
  split
  · next hnone => exact ⟨_, _, rfl, rfl, readSource?_tokens m.name, hnone.symm⟩
  · exact ⟨_, _, rfl, rfl, readSource?_tokens m.name, readTriple_tokens h⟩

/-- The text of a module is read back to what its lines were made of. -/
theorem readModule?_text (ht : m.Tidy Unbroken) (hquote : Quotable m.triple)
    (hr : Rendered Unbroken m ds (frontLines m (declarations externals)) bodies)
    (hexternals : ∀ e ∈ externals, (∀ t ∈ e.2.params, Spelled t) ∧ Spelled e.2.result)
    {funcs : List Skeleton.Function}
    (hfuncs : bodies.mapM (fun b => readFunction? (globalNames m) (definition b)) = some funcs) :
    readModule? (textOf (moduleLines m externals bodies)) =
      some ⟨m.name, m.triple, m.globals, externals, funcs⟩ := by
  have hlines : readText (textOf (moduleLines m externals bodies)) =
      (moduleLines m externals bodies).map lineTokens ++ [[]] := read_module ht hr
  obtain ⟨source, triple, hsource, htriple, hname, hreadTriple⟩ :=
    readHeader_module hquote externals bodies
  have hglobals : (m.globals.map fun g => lineTokens (.global g.name g.data)).mapM readGlobal? =
      some m.globals := by
    rw [mapM_map_eq (k := id) fun g _ => readGlobal?_tokens g, List.map_id]
  have hdeclared : ((declarations externals).map lineTokens).mapM readDeclare? =
      some externals := by
    rw [declarations, List.map_map, mapM_map_eq (k := id), List.map_id]
    exact fun e he => readDeclare?_tokens e.1 (hexternals e he).2 (hexternals e he).1
  have hdefined : (bodies.map definition).mapM (readFunction? (globalNames m)) = some funcs := by
    rw [← hfuncs]
    exact mapM_map_congr fun b _ => rfl
  have hdefinitions : definitions ((moduleLines m externals bodies).map lineTokens ++ [[]]) =
      bodies.map definition := definitions_module hr
  rw [readModule?, hlines, hsource, htriple, constants_module, declarations_module, hdefinitions]
  simp only [Option.bind_eq_bind, Option.bind_some, hname, hreadTriple, hglobals, hdeclared]
  rw [globalNames] at hdefined
  rw [hdefined]
  rfl

/-! ## Functions of a module -/

/-- The declarations of a module say which functions live elsewhere. -/
theorem externals_module (hr : m.Readable) {declared : List Line}
    (h : (m.funcs.filter (·.external)).mapM declare? = some declared) :
    ∃ externals, (m.funcs.filter (·.external)).mapM (fun f => f.sig.map (f.name, ·)) =
        some externals ∧ declared = declarations externals ∧
      ∀ e ∈ externals, (∀ t ∈ e.2.params, Spelled t) ∧ Spelled e.2.result := by
  have hdeclare : declare? =
      fun f => (f.sig.map (f.name, ·)).map fun e => Line.declare e.1 e.2 := by
    funext f
    rw [declare?, Option.map_map]
    rfl
  rw [hdeclare, mapM_map_some] at h
  obtain ⟨externals, hexternals, rfl⟩ := Option.map_eq_some_iff.1 h
  refine ⟨externals, hexternals, rfl, fun e he => ?_⟩
  obtain ⟨i, hi⟩ := List.getElem?_of_mem he
  rw [(getElem?_of_mapM hexternals).2] at hi
  obtain ⟨f, hf, he⟩ := Option.bind_eq_some_iff.1 hi
  obtain ⟨sig, hsig, rfl⟩ := Option.map_eq_some_iff.1 he
  have hmem := List.mem_of_mem_filter (List.mem_of_getElem? hf)
  obtain ⟨hparams, hresult⟩ := spelled_of_signature (hr.sig f hmem sig hsig)
  exact ⟨hparams, .inl hresult⟩

/-- The definitions of a finished module say what its functions compute. -/
theorem funcs_module {q : String → Prop} {front : List Line} (hs : Sound m ds) (hr : m.Readable)
    (hclosed : Draft.openPlaces 0 ds = []) (h : Rendered q m ds front bodies)
    (hbodies : (m.funcs.filter (!·.external)).mapM (renderFunc? m) =
      some (bodies.map fun b => .ofLines b.lines)) :
    ∃ funcs, (m.funcs.filter (!·.external)).mapM m.function? = some funcs ∧
      bodies.mapM (fun b => readFunction? (globalNames m) (definition b)) = some funcs := by
  apply mapM_both hbodies
  intro f hf b hb hrender
  obtain ⟨hmem, hinside⟩ := List.mem_filter.1 hf
  obtain ⟨d, hd, hbody⟩ := h.bodies b hb
  have hopen : ¬ d.isOpen = true := by
    intro hopen
    obtain ⟨i, hi⟩ := List.getElem?_of_mem hd
    have hplace := mem_openPlaces.2 ⟨i, d, (Nat.zero_add i).symm, hi, hopen⟩
    rw [hclosed] at hplace
    cases hplace
  obtain ⟨x, hstop⟩ := hbody.ok.ends.resolve_left (mt hbody.unended.1 hopen)
  obtain ⟨hlegible, s, hs, hread⟩ :=
    function_of_lines hs hr hmem (by simpa using hinside) hrender hstop
  exact ⟨s, hs, (readFunction?_definition _ hlegible hbody.ok.plain hstop).trans hread⟩

/-- A finished module is rendered to text that is read back to its skeleton. -/
theorem readModule?_render (hs : Sound m ds) (ht : m.Tidy Unbroken) (hquote : Quotable m.triple)
    (hr : m.Readable) (hclosed : Draft.openPlaces 0 ds = []) :
    ∃ lines k, render? m = some (.ofLines lines) ∧ m.skeleton? = some k ∧
      readModule? (textOf lines) = some k := by
  obtain ⟨declared, bodies, hdeclared, hbodies, hrendered⟩ := render_lines hs ht
  obtain ⟨externals, hexternals, rfl, hspelled⟩ := externals_module hr hdeclared
  obtain ⟨funcs, hfuncs, hread⟩ := funcs_module hs hr hclosed hrendered hbodies
  refine ⟨_, ⟨m.name, m.triple, m.globals, externals, funcs⟩, hrendered.lines, ?_, ?_⟩
  · rw [Module.skeleton?, hexternals, hfuncs]
    rfl
  · exact readModule?_text ht hquote hrendered hspelled hread

end Modules

end LLVM

/-! ## Programs -/

theorem stillOpen_eq_nil {o : CompileOptions} {es : List Expr} (h : (lower o es).failure = none) :
    stillOpen o es = [] := by
  rw [lower_failure] at h
  unfold stillOpen
  cases htop : topLevel 0 es (Builder.initial o.effectiveName o.triple) with
  | ok u b => rfl
  | error e b =>
    rw [htop] at h
    cases h

/-- The source is a program that is accepted, and the options name its module and its target by
texts that can be written between quotes. -/
structure Accepted (o : CompileOptions) (s : Source) (es : List Expr) : Prop where
  parsed : s.parse = .ok es
  lowered : (lower o es).failure = none
  name : Unbroken o.moduleName ∧ Quotable o.moduleName
  triple : Unbroken o.triple ∧ Quotable o.triple

theorem effectiveName_of {P : String → Prop} (hdefault : P Builtin.defaultModule)
    {o : CompileOptions} (h : P o.moduleName) : P o.effectiveName := by
  unfold CompileOptions.effectiveName
  split
  · exact hdefault
  · exact h

theorem Accepted.read {o : CompileOptions} {s : Source} {es : List Expr} (h : Accepted o s es) :
    (compile o es).failure = none ∧ ∃ k, (lower o es).module.skeleton? = some k ∧
      readModule? (compile o es).text = some k := by
  have hnames := Expr.isName_of_shapedAll es (Source.shapedAll_of_parse h.parsed)
  have htidy : (lower o es).module.Tidy Unbroken :=
    lower_tidy (effectiveName_of (by decide) h.name.1) h.triple.1 fun n hn => (hnames n hn).unbroken
  have hquote : (lower o es).module.Tidy Quotable :=
    lower_tidy (effectiveName_of (by decide) h.name.2) h.triple.2 fun n hn => (hnames n hn).quotable
  obtain ⟨ds, hs, hopen⟩ := lower_sound o es
  rw [stillOpen_eq_nil h.lowered] at hopen
  obtain ⟨lines, k, hlines, hskeleton, hread⟩ :=
    readModule?_render hs htidy hquote.triple (lower_readable h.lowered) hopen
  have hcompile : (compile o es).failure = none ∧ (compile o es).text = LLVM.textOf lines := by
    rw [compile, hlines]
    exact ⟨by simp [h.lowered, Rendering.ofLines], rfl⟩
  exact ⟨hcompile.1, k, hskeleton, hcompile.2 ▸ hread⟩

/-- The text determines the module: an accepted program is compiled to text from which the skeleton
of its module is read, with every constant, every function, every instruction in its place and under
its number, and where every operand comes from. Only the number of a store, which has no result, is
not in the text. An accepted program with the same text has a module with the same skeleton. -/
theorem compile_determines {o : CompileOptions} {s : Source} {es : List Expr}
    (h : Accepted o s es) : (compile o es).failure = none ∧
      ∃ k, (lower o es).module.skeleton? = some k ∧ readModule? (compile o es).text = some k ∧
        ∀ {o' : CompileOptions} {s' : Source} {es' : List Expr}, Accepted o' s' es' →
          (compile o' es').text = (compile o es).text →
            (lower o' es').module.skeleton? = some k := by
  obtain ⟨hfailure, k, hk, hread⟩ := h.read
  refine ⟨hfailure, k, hk, hread, fun {o' s' es'} h' htext => ?_⟩
  obtain ⟨-, k', hk', hread'⟩ := h'.read
  rw [htext, hread] at hread'
  obtain rfl : k = k' := Option.some.inj hread'
  exact hk'

theorem accepted_of_derivation {s : Source} {d : Grammar.Program} (hclean : s.lexicalErrors = [])
    (hyield : d.yield = s.tokens) (hlower : (lower {} d.trees).failure = none) :
    Accepted {} s d.trees where
  parsed := (Source.parse_eq_ok_iff hclean _).2 ⟨d, hyield, rfl⟩
  lowered := hlower
  name := by decide
  triple := by decide

/-- A lexeme in the first line. -/
def lexemeAt {t : Token} (text : String) (column : UInt32) : Grammar.Terminal t :=
  ⟨⟨t, text, ⟨"f", 1, column⟩⟩, rfl⟩

/-- A program with a constant that is not used, and with a call through a variable. -/
def relay (unused : String) : Source :=
  .ofBytes "f" (Text.Utf8.ofString (unused ++ "; s = \"a b\"; f = (x) { x }; g = f; g(4)"))

/-- The derivation of the program. -/
def relayDerivation (unused : String) : Grammar.Program where
  block := .list <|
    .more (.atom (.int (lexemeAt unused 1))) (lexemeAt ";" 2) <|
    .more (.assign (lexemeAt "s" 4) (lexemeAt "=" 6) (.atom (.string (lexemeAt "a b" 8))))
      (lexemeAt ";" 13) <|
    .more (.assign (lexemeAt "f" 15) (lexemeAt "=" 17) <|
      .function (lexemeAt "(" 19) (.list (.last (lexemeAt "x" 20) (lexemeAt ")" 21)))
        (lexemeAt "\x7b" 23) (.list (.last (.atom (.name (lexemeAt "x" 25)))))
        (lexemeAt "\x7d" 27)) (lexemeAt ";" 28) <|
    .more (.assign (lexemeAt "g" 30) (lexemeAt "=" 32) (.atom (.name (lexemeAt "f" 34))))
      (lexemeAt ";" 35) <|
    .last (.call (lexemeAt "g" 37) (lexemeAt "(" 38)
      (.list (.last (.atom (.int (lexemeAt "4" 39))) (lexemeAt ")" 40))))
  stop := lexemeAt "" 41

def relayTrees (unused : String) : List Expr := (relayDerivation unused).trees

theorem relay_determined :
    (compile {} (relayTrees "2")).text = (compile {} (relayTrees "1")).text ∧
      (lower {} (relayTrees "2")).module ≠ (lower {} (relayTrees "1")).module ∧
      (lower {} (relayTrees "2")).module.skeleton? = readModule? (compile {} (relayTrees "1")).text ∧
      ((readModule? (compile {} (relayTrees "1")).text).bind fun k => k.funcs[2]?) =
        some ⟨"main", [], .i32,
          [.alloca 2 .ptr, .store (.ptr, .global ".str.1") (.value 2), .alloca 6 .ptr,
            .store (.ptr, .func "f") (.value 6), .load 9 .ptr (.value 6),
            .callIndirect 10 ⟨[.i32], .i32, false⟩ (.value 9) [(.i32, .int 4)], .alloca 11 .i32,
            .store (.i32, .value 10) (.value 11)],
          (.i32, .int 0)⟩ := by
  have h : Accepted {} (relay "1") (relayTrees "1") :=
    accepted_of_derivation (by decide +kernel) (by decide +kernel) (by decide +kernel)
  have h' : Accepted {} (relay "2") (relayTrees "2") :=
    accepted_of_derivation (by decide +kernel) (by decide +kernel) (by decide +kernel)
  have htext : (compile {} (relayTrees "2")).text = (compile {} (relayTrees "1")).text := by
    decide +kernel
  have hmodule : (lower {} (relayTrees "2")).module ≠ (lower {} (relayTrees "1")).module := by
    decide +kernel
  obtain ⟨-, k, hk, hread, hsame⟩ := compile_determines h
  refine ⟨htext, hmodule, ?_, ?_⟩
  · rw [hread, hsame h' htext]
  · rw [hread, ← hk]
    decide +kernel

/-! ## What the text leaves out -/

/-- The numbers of the stores of each function. -/
def IR.Module.storeNumbers (m : Module) : List (List Nat) :=
  m.funcs.map fun f => f.values.zipIdx.filterMap fun (v, n) =>
    if v.op = .store then some n else none

/-- Two assignments, between which something else may stand. -/
def assigning (between : String) : Source :=
  .ofBytes "f" (Text.Utf8.ofString ("x = 1; " ++ between ++ "x = 2"))

/-- The derivation of the assignments alone. -/
def closeDerivation : Grammar.Program where
  block := .list <|
    .more (.assign (lexemeAt "x" 1) (lexemeAt "=" 3) (.atom (.int (lexemeAt "1" 5))))
      (lexemeAt ";" 6) <|
    .last (.assign (lexemeAt "x" 8) (lexemeAt "=" 10) (.atom (.int (lexemeAt "2" 12))))
  stop := lexemeAt "" 13

/-- The derivation of the assignments with a constant between them. -/
def apartDerivation : Grammar.Program where
  block := .list <|
    .more (.assign (lexemeAt "x" 1) (lexemeAt "=" 3) (.atom (.int (lexemeAt "1" 5))))
      (lexemeAt ";" 6) <|
    .more (.atom (.int (lexemeAt "5" 8))) (lexemeAt ";" 9) <|
    .last (.assign (lexemeAt "x" 11) (lexemeAt "=" 13) (.atom (.int (lexemeAt "2" 15))))
  stop := lexemeAt "" 16

/-- The numbers of stores are not in the text, from which therefore nothing can recover them: where
a constant stands between two assignments, the text is the same as without it, but the second store
has another number. -/
theorem storeNumbers_not_recovered :
    ¬ ∃ read : String → List (List Nat), ∀ (s : Source) (es : List Expr), Accepted {} s es →
      read (compile {} es).text = (lower {} es).module.storeNumbers := by
  rintro ⟨read, hread⟩
  have hclose : Accepted {} (assigning "") closeDerivation.trees :=
    accepted_of_derivation (by decide +kernel) (by decide +kernel) (by decide +kernel)
  have hapart : Accepted {} (assigning "5; ") apartDerivation.trees :=
    accepted_of_derivation (by decide +kernel) (by decide +kernel) (by decide +kernel)
  have htext : (compile {} apartDerivation.trees).text = (compile {} closeDerivation.trees).text := by
    decide +kernel
  have hnumbers := hread _ _ hapart
  rw [htext, hread _ _ hclose] at hnumbers
  exact absurd hnumbers (by decide +kernel)

end Wordlang
