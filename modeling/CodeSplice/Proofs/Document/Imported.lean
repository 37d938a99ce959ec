/-
Module: CodeSplice.Proofs.Document.Imported
Purpose: What the tree of an import statement says. The declaration that is made of it binds what the
  clause of the tree binds, under the specifier between the quotes; a text whose tree is one such
  statement is a document of one import and nothing else.
Main exports: Syntax.Tree.IsCode.trailing, plainBindings, Bindings.Hold.listed,
  ImportDeclaration.plain, ImportDeclaration.ofTree?_of_isImport, ofSource?_of_isImport
-/
import CodeSplice.Document.Reading
import CodeSplice.Proofs.Syntax.Imports
import CodeSplice.Proofs.Syntax.Run

namespace CodeSplice

open Layout Syntax

namespace Syntax.Tree

variable {tree : Tree}

theorem spread_of_symbol {phrase : Phrase} (h : tree.symbol = .phrase phrase)
    (hgroups : groups phrase = false) : tree.spread = [tree] := by
  cases tree with
  | leaf => cases h
  | node kind extent weight parts =>
    obtain rfl : kind = phrase := by simpa [symbol] using h
    rw [spread_node, hgroups]
    rfl

theorem isPhrase_of_symbol {phrase : Phrase} (h : tree.symbol = .phrase phrase) (other : Phrase) :
    tree.isPhrase other = (phrase == other) := by
  cases tree with
  | leaf => cases h
  | node kind extent weight parts =>
    obtain rfl : kind = phrase := by simpa [symbol] using h
    rfl

theorem spread_mark (text : String) (extent : Extent) : (mark text extent).spread = [mark text extent] :=
  rfl

theorem isPhrase_mark (text : String) (extent : Extent) (phrase : Phrase) :
    (mark text extent).isPhrase phrase = false := rfl

theorem spread_name (text : String) (extent : Extent) : (name text extent).spread = [name text extent] :=
  rfl

theorem spread_specifier (text : String) (extent : Extent) :
    (specifier text extent).spread = [specifier text extent] := rfl

theorem children_ofParts (phrase : Phrase) (weight : Int) (parts : List Tree) :
    (ofParts phrase weight parts).children = parts.flatMap spread :=
  children_eq _

theorem spread_ofParts (phrase : Phrase) (weight : Int) (parts : List Tree) :
    (ofParts phrase weight parts).spread =
      if groups phrase then parts.flatMap spread else [ofParts phrase weight parts] :=
  spread_node ..

theorem Binds.spread {space : Option String} {names : List String} (h : Binds space names tree) :
    tree.spread = [tree] := by
  cases h <;> rfl

/-! ### Code -/

theorem IsCode.child (h : tree.IsCode) {child : Tree} (hchild : child ∈ tree.children) :
    child.IsCode := by
  cases tree with
  | leaf token => simp [children_eq, parts] at hchild
  | node phrase extent weight parts =>
    intro token htoken
    refine h token ?_
    rw [← flatMap_tokens_children]
    exact List.mem_flatMap.2 ⟨child, hchild, htoken⟩

theorem IsCode.floats (h : tree.IsCode) : tree.floats = false := by
  cases tree with
  | node => rfl
  | leaf token =>
    cases hline : token.is .lineEnd with
    | true =>
      simp only [Token.is, beq_iff_eq] at hline
      simp [Tree.floats, Token.floats, Token.is, hline]
    | false => exact h token (by rw [tokens_leaf, hline]; simp)

theorem IsCode.comments (h : tree.IsCode) : tree.comments = [] := by
  rw [Tree.comments, List.filter_eq_nil_iff]
  intro token htoken hcomment
  have hfloats := h token htoken
  rw [Token.floats, hcomment] at hfloats
  exact Bool.noConfusion hfloats

theorem IsCode.trailing (h : tree.IsCode) : tree.trailing = [] := by
  rw [Tree.trailing, List.reverse_eq_nil_iff]
  cases htokens : tree.tokens.reverse with
  | nil => rfl
  | cons token tokens =>
    have hfloats := h token (List.mem_reverse.1 (htokens ▸ List.mem_cons_self))
    rw [Token.floats, Bool.or_eq_false_iff] at hfloats
    exact List.takeWhile_cons_of_neg (by simp [hfloats.1])

end Syntax.Tree

/-! ### Names in braces -/

/-- Names bound as they are, without comments. -/
def plainBindings (names : List String) : List NamedBinding :=
  names.map fun name => { name }

section

variable {source : Source}

theorem textOf_leaf {token : Token} (h : (Tree.leaf token).Placed source.text) :
    source.textOf (.leaf token) = token.text := by
  cases h with
  | leaf placed =>
    have htext := congrArg String.ofList placed.text_eq
    rw [String.ofList_toList] at htext
    exact htext.symm

namespace Bindings

/-- The bindings that have been read, the last one first, are these, and no comment waits. -/
def Hold (reversed : List NamedBinding) (bindings : Bindings) : Prop :=
  bindings.reversed = reversed ∧ bindings.comments = []

variable {reversed : List NamedBinding} {bindings : Bindings}

variable (source) in
theorem Hold.mark (h : Hold reversed bindings) (text : String) (extent : Extent) :
    Hold reversed (part source bindings (.mark text extent)) := by
  have hcomment : (⟨.spelled text.toList, text, extent⟩ : Token).is .comment = false := by
    simp [Token.is]
  rw [Tree.mark, part, hcomment]
  cases (Tree.leaf ⟨.spelled text.toList, text, extent⟩).isSpelled "," <;> exact h

theorem Hold.specifier (h : Hold reversed bindings) {name : String} {extent : Extent}
    (hplaced : (Tree.specifier name extent).Placed source.text) :
    Hold ({ name } :: reversed) (part source bindings (.specifier name extent)) := by
  have hchild : Tree.name name extent ∈ (Tree.specifier name extent).children := by
    rw [Tree.specifier, Tree.children_ofParts, List.flatMap_singleton, Tree.spread_ofParts]
    exact List.mem_singleton_self _
  have htext := textOf_leaf (hplaced.child hchild).1
  have hbinding : binding source (.specifier name extent) bindings.comments = { name } := by
    have hchildren : (Tree.specifier name extent).codeChildren = [Tree.name name extent] := rfl
    rw [binding, hchildren, h.2, List.map_singleton]
    exact congrArg (fun text => ({ name := text } : NamedBinding)) htext
  exact ⟨by rw [← hbinding, ← h.1]; rfl, rfl⟩

variable (source) in
theorem Hold.marks (h : Hold reversed bindings) (text : String) (extents : List Extent) :
    Hold reversed ((extents.map (Tree.mark text)).foldl (part source) bindings) := by
  induction extents generalizing bindings with
  | nil => exact h
  | cons extent extents ih => exact ih (h.mark source text extent)

/-- The names in braces are read as they are listed. -/
theorem Hold.listed (h : Hold reversed bindings) {stage : Stage} {names : List String}
    {trees : List Tree} (hlisted : Tree.Listed stage names trees)
    (hplaced : ∀ tree ∈ trees, tree.Placed source.text) :
    Hold ((plainBindings names).reverse ++ reversed)
      ((trees.reverse.flatMap Tree.spread).foldl (part source) bindings) := by
  induction hlisted generalizing reversed bindings with
  | first name extent => exact h.specifier (hplaced _ List.mem_cons_self)
  | second name other extent comma last =>
    have hmore := hplaced _ List.mem_cons_self
    have hfirst := h.specifier (hplaced (.specifier name extent) (by simp))
    exact (hfirst.mark source "," comma).specifier (hmore.part (by simp [Tree.ofParts]))
  | @later stage names others first listed name comma last ih =>
    have hmore := hplaced _ List.mem_cons_self
    have hnames := ih h fun tree htree => by
      rcases List.mem_cons.1 htree with rfl | htree
      · exact hmore.part (by simp [Tree.ofParts])
      · exact hplaced tree (List.mem_cons_of_mem _ htree)
    have hplacedLast : (Tree.specifier name last).Placed source.text :=
      hmore.part (by simp [Tree.ofParts])
    have hlast := (hnames.mark source "," comma).specifier hplacedLast
    have hspread : ([Tree.ofParts .moreImportSpecifiers 0
        [others, .mark "," comma, .specifier name last], first].reverse.flatMap Tree.spread) =
        [others, first].reverse.flatMap Tree.spread ++ [.mark "," comma, .specifier name last] := by
      simp [Tree.spread_ofParts, Tree.groups, Tree.spread_mark, Tree.spread_specifier]
    rw [hspread, List.foldl_append]
    simpa [plainBindings] using hlast

end Bindings

/-! ### The clause -/

namespace ImportDeclaration

/-- A declaration that binds neither a namespace nor names in braces. -/
def BindsNothing (declaration : ImportDeclaration) : Prop :=
  declaration.namespaceName = none ∧ declaration.named = [] ∧ declaration.braceComments = []

variable {space : Option String} {names : List String} {tree : Tree}
  {declaration : ImportDeclaration}

theorem addClausePart_of_binds (h : Tree.Binds space names tree) (hplaced : tree.Placed source.text)
    (hnothing : declaration.BindsNothing) :
    addClausePart source declaration tree =
      { declaration with namespaceName := space, named := plainBindings names } := by
  obtain ⟨hspace, hnamed, hcomments⟩ := hnothing
  cases h with
  | space name star middle extent =>
    have hname : (Tree.ofParts .namespaceImport 0
        [.mark "*" star, .mark "as" middle, .name name extent]).name? =
        some ⟨.kind .word, name, extent⟩ := rfl
    rw [addClausePart.eq_def]
    simp only [Tree.ofParts] at hname ⊢
    rw [hname]
    simp [plainBindings, ← hnamed]
  | @named stage names trees listed commas left right =>
    have hinner : ∀ part ∈ trees, part.Placed source.text := fun part hpart =>
      hplaced.part (by simp [Tree.ofParts, hpart])
    have hchildren : (Tree.ofParts .namedImports 0 (.mark "\x7b" left :: trees.reverse ++
        commas.map (.mark ",") ++ [.mark "\x7d" right])).children =
        .mark "\x7b" left :: (trees.reverse.flatMap Tree.spread ++ commas.map (.mark ",") ++
          [.mark "\x7d" right]) := by
      have hcommas : (commas.map (Tree.mark ",")).flatMap Tree.spread = commas.map (.mark ",") := by
        rw [List.flatMap_map]
        exact (List.flatMap_congr fun extent _ => Tree.spread_mark "," extent).trans
          (List.map_eq_flatMap ..).symm
      simp [Tree.children_ofParts, Tree.spread_mark, hcommas]
    have hopened : Bindings.Hold [] (Bindings.part source {} (.mark "\x7b" left)) :=
      Bindings.Hold.mark source ⟨rfl, rfl⟩ "\x7b" left
    have hclosed := ((hopened.listed listed hinner).marks source "," commas).mark source "\x7d" right
    rw [List.append_nil] at hclosed
    rw [addClausePart.eq_def]
    simp only [Tree.ofParts] at hchildren ⊢
    rw [hchildren, List.foldl_cons, List.foldl_append, List.foldl_append, List.foldl_cons,
      List.foldl_nil, hclosed.1, hclosed.2, List.reverse_reverse, ← hspace, ← hcomments]

theorem interrupts_of_isCode (h : tree.IsCode) : interrupts tree = false := by
  have hfloats := h.floats
  cases tree with
  | node => rfl
  | leaf token =>
    rw [Tree.floats, Token.floats, Bool.or_eq_false_iff] at hfloats
    exact hfloats.2

theorem takeWhile_children (h : tree.IsCode) :
    tree.children.takeWhile (!interrupts ·) = tree.children :=
  List.takeWhile_eq_self_iff.2 fun child hchild => by
    simp [interrupts_of_isCode (h.child hchild)]

theorem addClausePart_name (name : String) (extent : Extent) :
    addClausePart source declaration (.name name extent) =
      { declaration with default := some name } := rfl

theorem addClausePart_comma (extent : Extent) :
    addClausePart source declaration (.mark "," extent) = declaration := rfl

/-- The clause of an import binds what it says. -/
theorem addPart_clause {binding : Option String} (h : Tree.IsClause binding space names tree)
    (hplaced : tree.Placed source.text) (hcode : tree.IsCode) (hdefault : declaration.default = none)
    (hnothing : declaration.BindsNothing) :
    addPart source declaration tree =
      { declaration with default := binding, namespaceName := space, named := plainBindings names } := by
  have hchildren := takeWhile_children hcode
  have hpart : addPart source declaration tree =
      (tree.children.takeWhile (!interrupts ·)).foldl (addClausePart source) declaration := by
    cases h <;> rfl
  rw [hpart, hchildren]
  cases h with
  | default name extent =>
    rw [show (Tree.ofParts .importClause 0 [.ofParts .importedName 0 [.name name extent]]).children =
      [.name name extent] from rfl]
    obtain ⟨hspace, hnamed, -⟩ := hnothing
    simp [addClausePart_name, plainBindings, ← hspace, ← hnamed]
  | @only _ _ inner binds =>
    have hinner : (Tree.ofParts .importClause 0 [inner]).children = [inner] := by
      simp [Tree.children_ofParts, binds.spread]
    rw [hinner, List.foldl_cons, List.foldl_nil,
      addClausePart_of_binds binds (hplaced.part (by simp [Tree.ofParts])) hnothing, ← hdefault]
  | @both _ _ inner name extent comma binds =>
    have hinner : (Tree.ofParts .importClause 0
        [.ofParts .importedName 0 [.name name extent], .mark "," comma, inner]).children =
        [.name name extent, .mark "," comma, inner] := by
      simp [Tree.children_ofParts, binds.spread, Tree.spread_ofParts, Tree.groups, Tree.spread_name,
        Tree.spread_mark]
    rw [hinner, List.foldl_cons, List.foldl_cons, List.foldl_cons, List.foldl_nil,
      addClausePart_name, addClausePart_comma]
    exact addClausePart_of_binds binds (hplaced.part (by simp [Tree.ofParts])) hnothing

/-! ### The statement -/

/-- The declaration that binds these names. -/
def plain (specifier : String) (typeOnly : Bool) (binding space : Option String)
    (names : List String) : ImportDeclaration where
  specifier
  typeOnly
  default := binding
  namespaceName := space
  named := plainBindings names

theorem textOf_quotes {text : List Char} (h : Tree.Quotes source.text text tree)
    (hplaced : tree.Placed source.text) :
    String.ofList ((source.textOf tree).toList.drop 1).dropLast = String.ofList text := by
  obtain ⟨quote, opening, closing, middle, rfl, hslice⟩ := h
  have hextent : (Tree.ofParts .string 0 (.leaf opening :: middle ++ [.leaf closing])).extent.start =
      opening.extent.start ∧
      (Tree.ofParts .string 0 (.leaf opening :: middle ++ [.leaf closing])).extent.stop =
        closing.extent.stop := by
    cases hplaced with
    | node placed inOrder head start_eq tail stop_eq =>
      obtain rfl := Option.some_inj.1 head
      rw [List.getLast?_concat] at tail
      obtain rfl := Option.some_inj.1 tail
      exact ⟨start_eq, stop_eq⟩
  have htext : source.textOf (.ofParts .string 0 (.leaf opening :: middle ++ [.leaf closing])) =
      String.ofList (quote :: text ++ [quote]) := by
    rw [← hslice, ← hextent.1, ← hextent.2]
    rfl
  rw [htext, String.toList_ofList]
  simp

theorem isCode_child? (h : tree.IsCode) {phrase : Phrase} {child : Tree}
    (hchild : tree.child? phrase = some child) : child.IsCode :=
  h.child (List.mem_of_find?_eq_some hchild)

theorem isReadable_of_isCode (h : tree.IsCode) : isReadable tree = true := by
  rw [isReadable]
  cases hclause : tree.child? .importClause with
  | none => rfl
  | some clause =>
    have hcode := isCode_child? h hclause
    simp only [Option.all_some, Bool.not_eq_true', List.any_eq_false]
    intro child hchild
    simp [interrupts_of_isCode (hcode.child hchild)]

theorem hasStrayComment_of_isCode (h : tree.IsCode) (stop : Nat) :
    hasStrayComment tree stop = false := by
  have hnone : ∀ bindings, (tree.child? .importClause).bind (·.child? .namedImports) =
      some bindings → bindings.children.filter (·.isKind .comment) = [] := by
    intro bindings hbindings
    obtain ⟨clause, hclause, hinner⟩ := Option.bind_eq_some_iff.1 hbindings
    have hcode := isCode_child? (isCode_child? h hclause) hinner
    refine List.filter_eq_nil_iff.2 fun child hchild hcomment => ?_
    have hfloats := (hcode.child hchild).floats
    cases child with
    | node => cases hcomment
    | leaf token =>
      rw [Tree.floats, Token.floats, Bool.or_eq_false_iff] at hfloats
      exact Bool.false_ne_true (hfloats.1.symm.trans hcomment)
  rw [hasStrayComment, h.comments]
  cases hbindings : (tree.child? .importClause).bind (·.child? .namedImports) with
  | none => rfl
  | some bindings => simp [hnone bindings hbindings]

theorem addPart_of_symbol (h : tree.symbol = .phrase .string) :
    addPart source declaration tree = declaration := by
  cases tree with
  | leaf => cases h
  | node kind extent weight parts =>
    obtain rfl : kind = .string := by simpa [Tree.symbol] using h
    rfl

/-- The keywords say whether types only are bound. -/
theorem foldl_keywords {typeOnly : Bool} {base : List Tree} (h : Tree.Keywords typeOnly base)
    (specifier : String) :
    base.reverse.foldl (addPart source) { specifier } = { specifier, typeOnly } := by
  cases h <;> rfl

theorem addPart_mark {text : String} (h : text ≠ "type") (extent : Extent) :
    addPart source declaration (.mark text extent) = declaration := by
  have hspelled : (Tree.leaf ⟨.spelled text.toList, text, extent⟩).isSpelled "type" = false :=
    beq_eq_false_iff_ne.2 fun heq => h (String.toList_inj.1 (Terminal.spelled.inj heq))
  rw [Tree.mark, addPart, hspelled]
  rfl

/-- What a statement without bindings is made of. -/
theorem children_bare {string : Tree} (h : string.symbol = .phrase .string) (first last : Extent) :
    (Tree.ofParts .importStatement 0 [.mark "import" first, string, .mark ";" last]).children =
      [.mark "import" first, string, .mark ";" last] := by
  simp [Tree.children_ofParts, Tree.spread_of_symbol h rfl, Tree.spread_mark]

/-- What a statement with bindings is made of. -/
theorem children_clause {typeOnly : Bool} {base : List Tree} {clause string : Tree}
    (hbase : Tree.Keywords typeOnly base) (hclause : clause.symbol = .phrase .importClause)
    (hstring : string.symbol = .phrase .string) (first last : Extent) :
    (Tree.ofParts .importStatement 0
      ((.ofParts .fromClause 0 [.mark "from" first, string] :: clause :: base).reverse ++
        [.mark ";" last])).children =
      base.reverse ++ [clause, .mark "from" first, string, .mark ";" last] := by
  have hkeywords : base.reverse.flatMap Tree.spread = base.reverse := by
    cases hbase <;> rfl
  simp [Tree.children_ofParts, Tree.spread_of_symbol hstring rfl, Tree.spread_mark,
    Tree.spread_of_symbol hclause rfl, Tree.spread_ofParts, Tree.groups, hkeywords]

/-- The declaration that is made of an import statement. -/
theorem ofTree?_of_isImport {specifier : String} {typeOnly : Bool} {binding : Option String}
    (h : Tree.IsImport source.text specifier.toList typeOnly binding space names tree)
    (hplaced : tree.Placed source.text) (hcode : tree.IsCode) (extent : Extent) :
    ofTree? source tree extent = some (plain specifier typeOnly binding space names) := by
  have hstray := hasStrayComment_of_isCode hcode extent.stop
  have hreadable := isReadable_of_isCode hcode
  cases h with
  | @bare string quotes symbol_eq first last =>
    have hchildren := children_bare symbol_eq first last
    have hspecifier : specifier? (Tree.ofParts .importStatement 0
        [.mark "import" first, string, .mark ";" last]) = some string := by
      simp [specifier?, Tree.child?, hchildren, Tree.isPhrase_of_symbol symbol_eq,
        Tree.isPhrase_mark]
    have hstring : string.Placed source.text := hplaced.part (by simp [Tree.ofParts])
    rw [ofTree?, hspecifier, Option.map_some, textOf_quotes quotes hstring, hstray, hreadable,
      hchildren]
    simp [addPart_of_symbol symbol_eq, addPart_mark, plain, plainBindings]
  | @clause _ _ _ _ base clause string keywords binds quotes symbol_eq first last =>
    have hchildren := children_clause keywords binds.symbol symbol_eq first last
    have hspecifier : specifier? (Tree.ofParts .importStatement 0
        ((.ofParts .fromClause 0 [.mark "from" first, string] :: clause :: base).reverse ++
          [.mark ";" last])) = some string := by
      have hnone : base.reverse.find? (·.isPhrase .string) = none := by
        cases keywords <;> rfl
      rw [specifier?, Tree.child?, hchildren]
      simp [List.find?_append, hnone, Tree.isPhrase_of_symbol symbol_eq,
        Tree.isPhrase_of_symbol binds.symbol, Tree.isPhrase_mark]
    have hclause : clause.Placed source.text := hplaced.part (by simp [Tree.ofParts])
    have hfrom : (Tree.ofParts .fromClause 0 [.mark "from" first, string]).Placed source.text :=
      hplaced.part (by simp [Tree.ofParts])
    have hstring : string.Placed source.text := hfrom.part (by simp [Tree.ofParts])
    have hclauseCode : clause.IsCode := hcode.child (hchildren ▸ by simp)
    have hdeclaration : (base.reverse ++ [clause, .mark "from" first, string, .mark ";" last]).foldl
        (addPart source) { specifier } = plain specifier typeOnly binding space names := by
      rw [List.foldl_append, foldl_keywords keywords, List.foldl_cons,
        addPart_clause binds hclause hclauseCode rfl ⟨rfl, rfl, rfl⟩]
      simp [addPart_of_symbol symbol_eq, addPart_mark, plain]
    rw [ofTree?, hspecifier, Option.map_some, textOf_quotes quotes hstring, hstray, hreadable,
      hchildren, String.ofList_toList]
    simp only [hdeclaration]
    rfl

end ImportDeclaration

end

/-! ### The document -/

/-- A text whose tree is one import statement is a document of one import. -/
theorem ofSource?_of_isImport (name : String) {text specifier : String} {typeOnly : Bool}
    {binding space : Option String} {names : List String} {tree : Tree}
    (h : Tree.IsImport text.toList specifier.toList typeOnly binding space names tree)
    (hcode : tree.IsCode)
    (hparse : parse? text.toList = some (.ofParts typeScriptAutomaton.grammar.goal 0
      [.ofParts .statements 0 [.ofParts .statement 0 [tree]]])) :
    Document.ofSource? name text =
      some
        { name
          items := [{ node := .importing (.plain specifier typeOnly binding space names) }]
          dangling := [] } := by
  have hspread : tree.spread = [tree] := by cases h <;> rfl
  have hchildren : (Tree.ofParts typeScriptAutomaton.grammar.goal 0
      [.ofParts .statements 0 [.ofParts .statement 0 [tree]]]).children = [tree] := by
    simp [Tree.children_ofParts, Tree.spread_ofParts, Tree.groups, hspread]
  have hplaced : tree.Placed text.toList :=
    ((placed_of_parse? hparse).child (by rw [hchildren]; exact List.mem_singleton_self _)).1
  have hpieces : Piece.ofTree tree = [.child tree tree.codeExtent] := by
    have hnode : Piece.ofTree tree = .child tree tree.codeExtent :: tree.trailing.map .remark := by
      cases h <;> rfl
    rw [hnode, hcode.trailing, List.map_nil]
  have hitem : ∀ source : Source, source.text = text.toList → ∀ extent,
      source.item tree extent = .importing (.plain specifier typeOnly binding space names) := by
    intro source hsource extent
    have hnode : source.item tree extent =
        ((ImportDeclaration.ofTree? source tree extent).map Item.importing).getD
          (.other (source.block extent.span)) := by
      cases h <;> rfl
    rw [← hsource] at h hplaced
    rw [hnode, ImportDeclaration.ofTree?_of_isImport h hplaced hcode]
    rfl
  rw [Document.ofSource?, hparse, Option.map_some]
  simp only [hchildren, attach, List.flatMap_singleton, hpieces]
  simp [Attached.run, Attached.child, Attached.entries, Attached.gap, hitem, Source.ofTree]

end CodeSplice
