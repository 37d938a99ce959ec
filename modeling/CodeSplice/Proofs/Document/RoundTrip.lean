/-
Module: CodeSplice.Proofs.Document.RoundTrip
Purpose: Import declarations that are built name by name are read back as they are. Whatever the style,
  on one line or with one binding a line, the text of such a declaration is the text of a document of
  one import, which is the declaration. The specifier must be such that it can stand between quotes.
Main exports: ImportDeclaration.Built, ImportDeclaration.Writable, ImportDeclaration.Quotable,
  ImportDeclaration.RoundTrips, ImportDeclaration.Writable.round_trips
-/
import CodeSplice.Proofs.Document.Imported
import CodeSplice.Proofs.Layout.Measure

namespace CodeSplice

open Layout Syntax Automaton

namespace ImportDeclaration

/-- A declaration that is built from a specifier by adding names. -/
inductive Built : ImportDeclaration → Prop where
  | new (specifier : String) : Built { specifier }
  | default {declaration : ImportDeclaration} (built : Built declaration) {name : String}
      (bindable : IsBindable name) : Built { declaration with default := some name }
  | space {declaration : ImportDeclaration} (built : Built declaration) {name : String}
      (bindable : IsBindable name) : Built { declaration with namespaceName := some name }
  | named {declaration : ImportDeclaration} (built : Built declaration) {name : String}
      (bindable : IsBindable name) : Built (declaration.pushNamed name)
  | typeOnly {declaration : ImportDeclaration} (built : Built declaration) :
      Built { declaration with typeOnly := true }

/-- The declarations that are built and can be written: a namespace is bound alone or behind a default
name, and types are bound by name. -/
structure Writable (declaration : ImportDeclaration) : Prop where
  built : declaration.Built
  one : ¬ (declaration.namespaceName.isSome ∧ declaration.named ≠ [])
  types : declaration.typeOnly = true →
    declaration.default.isSome ∨ declaration.namespaceName.isSome ∨ declaration.named ≠ []

/-- A specifier that has none of the given characters, and not both kinds of quotes. -/
def Quotable (excluded : List Char) (specifier : String) : Prop :=
  (∀ c ∈ specifier.toList, c ∉ excluded) ∧
    ¬ ('\'' ∈ specifier.toList ∧ '"' ∈ specifier.toList)

instance (excluded : List Char) (specifier : String) : Decidable (Quotable excluded specifier) :=
  have : Decidable (∀ c ∈ specifier.toList, c ∉ excluded) := List.decidableBAll _ _
  inferInstanceAs (Decidable ((∀ c ∈ specifier.toList, c ∉ excluded) ∧ _))

/-- The characters that cannot stand between quotes as they are. -/
def unquotable : List Char :=
  ['\\', '\r', '\n', '\x00']

/-- In whatever style the declaration is written, its text is read as a document of it alone. -/
def RoundTrips (declaration : ImportDeclaration) : Prop :=
  ∀ (style : Style) (name : String), Document.ofSource? name (declaration.toSource style) =
    some { name, items := [{ node := .importing declaration }], dangling := [] }

variable {declaration : ImportDeclaration}

theorem Built.exists_plain (h : declaration.Built) :
    ∃ names, declaration = plain declaration.specifier declaration.typeOnly declaration.default
        declaration.namespaceName names ∧ (∀ name ∈ names, IsBindable name) ∧
      (∀ name ∈ declaration.default, IsBindable name) ∧
      ∀ name ∈ declaration.namespaceName, IsBindable name := by
  induction h with
  | new specifier => exact ⟨[], rfl, by simp⟩
  | @default declaration built name bindable ih =>
    obtain ⟨names, heq, hnames, -, hspace⟩ := ih
    refine ⟨names, ?_, hnames, by simpa using bindable, hspace⟩
    rw [heq]
    rfl
  | @space declaration built name bindable ih =>
    obtain ⟨names, heq, hnames, hdefault, -⟩ := ih
    refine ⟨names, ?_, hnames, hdefault, by simpa using bindable⟩
    rw [heq]
    rfl
  | @named declaration built name bindable ih =>
    obtain ⟨names, heq, hnames, hdefault, hspace⟩ := ih
    refine ⟨names ++ [name], ?_, ?_, hdefault, hspace⟩
    · rw [heq]
      simp [plain, pushNamed, plainBindings]
    · simpa [or_imp, forall_and] using ⟨hnames, bindable⟩
  | @typeOnly declaration built ih =>
    obtain ⟨names, heq, hnames, hdefault, hspace⟩ := ih
    refine ⟨names, ?_, hnames, hdefault, hspace⟩
    rw [heq]
    rfl

/-- The quotes that a style puts around a specifier do not stand in it. -/
theorem isPlainText_forText {specifier : String} (h : Quotable unquotable specifier) (quote : Quote) :
    IsPlainText (quote.forText specifier) specifier.toList ∧
      (quote.forText specifier = '"' ∨ quote.forText specifier = '\'') := by
  obtain ⟨hchars, hboth⟩ := h
  have hquote : quote.forText specifier ∉ specifier.toList := by
    rw [Quote.forText]
    split
    · rename_i hmem
      rw [List.contains_iff_mem] at hmem
      cases quote with
      | single => exact fun hother => hboth ⟨hmem, hother⟩
      | double => exact fun hother => hboth ⟨hother, hmem⟩
    · rename_i hmem
      simpa using hmem
  refine ⟨fun c hc => ⟨fun heq => hquote (heq ▸ hc), hchars c hc⟩, ?_⟩
  rw [Quote.forText]
  split <;> cases quote <;> decide

/-! ### The text -/

section

variable {specifier : String} {typeOnly : Bool} {binding space : Option String}
  {names : List String} {style : Style}

theorem toList_line (w : Writer) (line : String) :
    (w.line line).text.toList = w.text.toList ++ (w.margin.toList ++ line.toList ++ ['\n']) := by
  simp [Writer.line, Writer.raw]

/-- A line by itself. -/
theorem toList_firstLine (indent : Indent) (line : String) :
    (({ indent } : Writer).line line).text.toList = line.toList ++ ['\n'] := by
  simp [toList_line, Writer.margin, toList_spaces]

variable (specifier typeOnly binding space names style) in
theorem toList_tail : ((plain specifier typeOnly binding space names).tail style).toList =
    style.quote.forText specifier :: (specifier.toList ++ [style.quote.forText specifier, ';']) := by
  simp [tail, quoted, plain]

/-- An import without bindings. -/
theorem toList_toSource_nothing :
    ((plain specifier typeOnly none none []).toSource style).toList =
      "import".toList ++ (' ' :: style.quote.forText specifier ::
        (specifier.toList ++ style.quote.forText specifier :: ';' :: ['\n'])) := by
  have hrender : (plain specifier typeOnly none none []).render style { indent := style.indent } =
      ({ indent := style.indent } : Writer).line
        ("import " ++ (plain specifier typeOnly none none []).tail style) := rfl
  rw [toSource, hrender, toList_firstLine, String.toList_append, toList_tail]
  simp

/-- Names without comments are written as they are. -/
theorem map_toSource_plainBindings (names : List String) :
    (plainBindings names).map (·.toSource) = names := by
  simp [plainBindings, NamedBinding.toSource, Function.comp_def]

/-- The text of an import on one line. -/
theorem toList_oneLine :
    ((plain specifier typeOnly binding space names).oneLine style).toList ++ ['\n'] =
      importText typeOnly (' ' :: (", ".intercalate
        ((plain specifier typeOnly binding space names).head ++
          if names.isEmpty then []
          else ["\x7b " ++ ", ".intercalate names ++ " \x7d"])).toList)
        (style.quote.forText specifier) specifier.toList := by
  rw [oneLine]
  simp only [show (plain specifier typeOnly binding space names).named = plainBindings names from rfl,
    map_toSource_plainBindings, String.toList_append, toList_tail]
  cases typeOnly <;> simp [importText, typeKeyword, plain]

/-- Names behind commas. -/
theorem toList_intercalate (name : String) (names : List String) :
    (", ".intercalate (name :: names)).toList = name.toList ++ Builds.listText [' '] names := by
  induction names generalizing name with
  | nil => simp [Builds.listText]
  | cons other names ih =>
    rw [String.intercalate_cons_cons, String.toList_append, String.toList_append, ih]
    simp [Builds.listText]

/-- A default name stands in front of what else a clause binds. -/
theorem toList_intercalate_front (binding : Option String) (item : String) :
    ' ' :: (", ".intercalate (binding.toList ++ [item])).toList =
      frontText binding ++ ' ' :: item.toList := by
  cases binding with
  | none => simp [frontText]
  | some name => simp [frontText, String.intercalate_cons_cons]

/-- Names with one on each line. -/
theorem foldl_renderBinding (names : List String) (w : Writer) :
    (plainBindings names).foldl (fun w binding => renderBinding binding w) w =
      w.raw (String.ofList (names.flatMap fun name =>
        w.margin.toList ++ name.toList ++ [',', '\n'])) := by
  induction names generalizing w with
  | nil => simp [plainBindings, Writer.raw]
  | cons name names ih =>
    have hbinding : renderBinding { name } w = w.line (name ++ ",") := by
      simp [renderBinding, renderLines, appendComment, NamedBinding.toSource]
    have hmargin : (w.line (name ++ ",")).margin = w.margin := rfl
    have hnames := ih (w.line (name ++ ","))
    rw [plainBindings, List.map_cons, List.foldl_cons, hbinding]
    rw [plainBindings, hmargin] at hnames
    rw [hnames]
    refine congrArg (fun text => { w with text }) (String.toList_inj.1 ?_)
    simp [Writer.line, Writer.raw]

/-- The lines of names, as the text of a list that ends with a comma. -/
theorem flatMap_lines (margin : List Char) (name : String) (names : List String) :
    '\n' :: (name :: names).flatMap (fun name => margin ++ name.toList ++ [',', '\n']) =
      '\n' :: margin ++ name.toList ++ (Builds.listText ('\n' :: margin) names ++ [',', '\n']) := by
  induction names generalizing name with
  | nil => simp [Builds.listText]
  | cons other names ih =>
    have hother := ih other
    simp only [List.flatMap_cons, Builds.listText, List.cons_append, List.append_assoc,
      List.cons.injEq, true_and, List.append_cancel_left_eq] at hother ⊢
    simpa using hother

/-- The text of an import with one binding a line. -/
theorem toList_renderBroken (name : String) (others : List String) :
    ((plain specifier typeOnly binding none (name :: others)).renderBroken style
        { indent := style.indent }).text.toList =
      importText typeOnly (frontText binding ++ ' ' :: '\x7b' ::
        ('\n' :: (Text.spaces style.indent.width).toList ++ name.toList ++
          (Builds.listText ('\n' :: (Text.spaces style.indent.width).toList) others ++
            ([','] ++ (['\n'] ++ ['\x7d'])))))
        (style.quote.forText specifier) specifier.toList := by
  have hnamed : (plain specifier typeOnly binding none (name :: others)).named =
      plainBindings (name :: others) := rfl
  have hopening : ("import " ++ (plain specifier typeOnly binding none (name :: others)).typeKeyword ++
      String.join ((plain specifier typeOnly binding none (name :: others)).head.map (· ++ ", ")) ++
        "\x7b").toList =
      "import".toList ++ ((if typeOnly then ' ' :: "type".toList else []) ++
        (frontText binding ++ [' ', '\x7b'])) := by
    cases typeOnly <;> cases binding <;>
      simp [typeKeyword, plain, head, frontText, String.join]
  have hclose := toList_tail specifier typeOnly binding none (name :: others) style
  have hcomments : (plain specifier typeOnly binding none (name :: others)).braceComments = [] := rfl
  have hlines := flatMap_lines (Text.spaces style.indent.width).toList name others
  rw [renderBroken]
  generalize "import " ++ (plain specifier typeOnly binding none (name :: others)).typeKeyword ++
    String.join ((plain specifier typeOnly binding none (name :: others)).head.map (· ++ ", ")) ++
      "\x7b" = opening at hopening ⊢
  have hinner : (({ indent := style.indent } : Writer).line opening).deeper.margin =
      Text.spaces style.indent.width := by
    simp [Writer.margin, Writer.deeper, Writer.line, Writer.raw]
  have houter : ∀ text, ((({ indent := style.indent } : Writer).line opening).deeper.raw
      text).shallower.margin = "" := by
    simp [Writer.margin, Writer.shallower, Text.spaces]
  have htext : ∀ text, ((({ indent := style.indent } : Writer).line opening).deeper.raw
      text).shallower.text.toList = opening.toList ++ '\n' :: text.toList := by
    intro text
    change ((({ indent := style.indent } : Writer).line opening).text ++ text).toList = _
    rw [String.toList_append, toList_firstLine, List.append_assoc, List.singleton_append]
  simp only [hnamed, hcomments, foldl_renderBinding, renderLines, List.foldl_nil, toList_line,
    String.toList_append, hclose, hinner, houter, htext, String.toList_ofList, hlines, hopening]
  simp [importText]

/-- A declaration with bindings is written on one line, or with one binding a line if it binds several
names in braces. -/
theorem toList_toSource (style : Style)
    (h : (plain specifier typeOnly binding space names).head ≠ [] ∨ names ≠ []) :
    ((plain specifier typeOnly binding space names).toSource style).toList =
        ((plain specifier typeOnly binding space names).oneLine style).toList ++ ['\n'] ∨
      2 ≤ names.length ∧
        (plain specifier typeOnly binding space names).toSource style =
          ((plain specifier typeOnly binding space names).renderBroken style
            { indent := style.indent }).text := by
  have hplain : (plain specifier typeOnly binding space names).commented = false := by
    simp [commented, plain, plainBindings, NamedBinding.commented]
  have hsome : ((plain specifier typeOnly binding space names).head.isEmpty &&
      (plain specifier typeOnly binding space names).named.isEmpty) = false := by
    rw [Bool.and_eq_false_iff]
    refine h.imp (by simp) fun hnames => ?_
    simpa [plain, plainBindings] using hnames
  have hlength : (plain specifier typeOnly binding space names).named.length = names.length := by
    simp [plain, plainBindings]
  rw [toSource, render.eq_def]
  simp only [show (plain specifier typeOnly binding space names).verbatim = none from rfl,
    show (plain specifier typeOnly binding space names).isRequire = false from rfl, hsome, hplain,
    hlength, Bool.false_eq_true, if_false, Bool.not_false, Bool.true_and]
  split
  · exact .inl (toList_firstLine ..)
  · rename_i hwide
    simp only [Bool.or_eq_true, decide_eq_true_eq, not_or] at hwide
    exact .inr ⟨Nat.le_of_not_lt hwide.2, rfl⟩

/-- A default name alone is written on one line. -/
theorem toList_toSource_default (name : String) :
    ((plain specifier typeOnly (some name) none []).toSource style).toList =
      importText typeOnly (' ' :: name.toList) (style.quote.forText specifier) specifier.toList := by
  have hhead : (plain specifier typeOnly (some name) none []).head = [name] := rfl
  have hline := (toList_toSource style (.inl (hhead ▸ List.cons_ne_nil _ _))).resolve_right (by simp)
  rw [hline, toList_oneLine, hhead]
  rfl

/-- A namespace is written on one line. -/
theorem toList_toSource_space (name : String) :
    ((plain specifier typeOnly binding (some name) []).toSource style).toList =
      importText typeOnly (frontText binding ++ ' ' :: '*' :: ' ' :: ("as".toList ++ ' ' :: name.toList))
        (style.quote.forText specifier) specifier.toList := by
  have hhead : (plain specifier typeOnly binding (some name) []).head =
      binding.toList ++ ["* as " ++ name] := rfl
  have hsome : (plain specifier typeOnly binding (some name) []).head ≠ [] := by simp [hhead]
  have hline := (toList_toSource style (.inl hsome)).resolve_right (by simp)
  have hclause : ' ' :: (", ".intercalate (binding.toList ++ ["* as " ++ name] ++ [])).toList =
      frontText binding ++ ' ' :: '*' :: ' ' :: ("as".toList ++ ' ' :: name.toList) := by
    rw [List.append_nil]
    exact (toList_intercalate_front binding ("* as " ++ name)).trans (by simp)
  rw [hline, toList_oneLine, hhead]
  simp only [List.isEmpty_nil, if_true, hclause]

/-- On one line or one a line, the names in braces stand behind the same white space. A comma follows
the last one only where there are several. -/
theorem toList_toSource_named (name : String) (others : List String) :
    ∃ (gap margin : List Char) (trailing : Bool), IsMargin gap ∧ IsMargin margin ∧
      (trailing = true → others ≠ []) ∧
      ((plain specifier typeOnly binding none (name :: others)).toSource style).toList =
        importText typeOnly (frontText binding ++ ' ' :: '\x7b' :: (gap ++ name.toList ++
          (Builds.listText gap others ++ ((if trailing then [','] else []) ++ (margin ++ ['\x7d'])))))
          (style.quote.forText specifier) specifier.toList := by
  have hhead : (plain specifier typeOnly binding none (name :: others)).head = binding.toList := by
    simp [plain, head]
  have hsome : (plain specifier typeOnly binding none (name :: others)).head ≠ [] ∨
      name :: others ≠ [] := .inr (List.cons_ne_nil name others)
  rcases toList_toSource style hsome with hline | ⟨hlength, hbroken⟩
  · refine ⟨[' '], [' '], false, isMargin_space, isMargin_space, by simp, ?_⟩
    have hclause : ' ' :: (", ".intercalate
        (binding.toList ++ ["\x7b " ++ ", ".intercalate (name :: others) ++ " \x7d"])).toList =
        frontText binding ++ ' ' :: '\x7b' :: ([' '] ++ name.toList ++
          (Builds.listText [' '] others ++ ([] ++ ([' '] ++ ['\x7d'])))) := by
      rw [toList_intercalate_front, String.toList_append, String.toList_append, toList_intercalate]
      simp
    rw [hline, toList_oneLine, hhead]
    simp only [List.isEmpty_cons, Bool.false_eq_true, if_false, hclause]
  · refine ⟨'\n' :: (Text.spaces style.indent.width).toList, ['\n'], true, ?_, isMargin_newline, ?_, ?_⟩
    · intro c hc
      rw [toList_spaces] at hc
      rcases List.mem_cons.1 hc with rfl | hc
      · exact .inr rfl
      · exact .inl (List.eq_of_mem_replicate hc)
    · rintro - rfl
      simp at hlength
    · rw [hbroken, toList_renderBroken]
      rfl

example :
    (plain "it's" true (some "server") none ["Request", "Response"]).toSource { printWidth := 20 } =
      "import type server, \x7b\n  Request,\n  Response,\n\x7d from \"it's\";\n" := by
  decide +kernel

/-- The text of a declaration is read as one import statement. -/
theorem readsImport_toSource (hspecifier : Quotable unquotable specifier)
    (hnames : ∀ name ∈ names, IsBindable name) (hbinding : ∀ name ∈ binding, IsBindable name)
    (hspace : ∀ name ∈ space, IsBindable name) (hone : ¬ (space.isSome ∧ names ≠ []))
    (htypes : typeOnly = true → binding.isSome ∨ space.isSome ∨ names ≠ []) (style : Style) :
    typeScriptAutomaton.ReadsImport
      ((plain specifier typeOnly binding space names).toSource style).toList specifier.toList
      typeOnly binding space names := by
  obtain ⟨htext, hquote⟩ := isPlainText_forText hspecifier style.quote
  have hmoves := importMoves_typeScript
  match binding, space, names, hone, htypes with
  | none, none, [], _, htypes =>
    have hvalue : typeOnly = false := Bool.eq_false_iff.2 fun htrue => by simpa using htypes htrue
    rw [hvalue, toList_toSource_nothing]
    exact Builds.importingNothing hmoves hquote htext .start
  | some name, none, [], _, _ =>
    rw [toList_toSource_default]
    exact readsImport_default hmoves typeOnly (hbinding name rfl) hquote htext
  | binding, some name, [], _, _ =>
    rw [toList_toSource_space]
    exact readsImport_space hmoves typeOnly hbinding (hspace name rfl) hquote htext
  | binding, none, name :: others, _, _ =>
    obtain ⟨gap, margin, trailing, hgap, hmargin, htrailing, hsource⟩ :=
      toList_toSource_named name others
    rw [hsource]
    exact readsImport_named hmoves typeOnly hbinding hgap hmargin hnames trailing htrailing hquote htext
  | _, some name, other :: others, hone, _ => exact absurd ⟨rfl, List.cons_ne_nil other others⟩ hone

end

/-! ### Round trips -/

/-- A declaration that is built name by name is read back from its text, one line or many. -/
theorem Writable.round_trips (h : declaration.Writable)
    (hspecifier : Quotable unquotable declaration.specifier) : declaration.RoundTrips := by
  intro style name
  obtain ⟨names, hplain, hnames, hdefault, hspace⟩ := h.built.exists_plain
  have hempty : declaration.named ≠ [] ↔ names ≠ [] := by
    rw [hplain]
    simp [plain, plainBindings]
  obtain ⟨tree, himport, hcode, hread⟩ := readsImport_toSource hspecifier hnames hdefault hspace
    (fun hboth => h.one ⟨hboth.1, hempty.2 hboth.2⟩)
    (fun htypes => (h.types htypes).imp_right (·.imp_right hempty.1)) style
  have hdocument := ofSource?_of_isImport name himport hcode hread
  rwa [← hplain] at hdocument

/-- An import of types, by default and by name, from a path with a quote in it. -/
def mixedImport : ImportDeclaration :=
  .plain "it's" true (some "server") none ["Request", "Response"]

theorem round_trips_mixedImport :
    mixedImport.Writable ∧ Quotable unquotable mixedImport.specifier ∧ mixedImport.RoundTrips := by
  have hserver : IsBindable "server" := by decide
  have hrequest : IsBindable "Request" := by decide
  have hresponse : IsBindable "Response" := by decide
  have hbuilt : mixedImport.Built :=
    .named (.named (.default (.typeOnly (.new "it's")) hserver) hrequest) hresponse
  have hwritable : mixedImport.Writable :=
    { built := hbuilt
      one := by decide
      types := fun _ => .inl rfl }
  have hspecifier : Quotable unquotable mixedImport.specifier := by decide
  exact ⟨hwritable, hspecifier, hwritable.round_trips hspecifier⟩

/-- A specifier with a NUL is written between quotes as well, but no string is read there. -/
theorem not_forall_round_trips : ¬ ∀ declaration : ImportDeclaration, declaration.Writable →
    Quotable ['\\', '\r', '\n'] declaration.specifier → declaration.RoundTrips := by
  intro h
  have hwritable : Writable { specifier := "\x00" } := ⟨.new "\x00", by decide, by decide⟩
  have hquotable : Quotable ['\\', '\r', '\n'] "\x00" := by decide
  exact absurd (h _ hwritable hquotable {} "") (by decide +kernel)

end ImportDeclaration

end CodeSplice
