/-
Module: CodeSplice.Proofs.Syntax.Imports
Purpose: How the text of an import declaration is read. What it writes one after another, the search
  reads with a single reading: after the keywords a default name, a namespace or names in braces, then
  the specifier in quotes. The names in braces are read by induction, and the tree that comes out says
  what has been written.
Main exports: Tree.IsClause, Tree.Quotes, Tree.IsImport, Automaton.ReadsImport,
  Automaton.readsImport_default, Automaton.readsImport_space, Automaton.readsImport_named
-/
import CodeSplice.Proofs.Syntax.ImportMoves

namespace CodeSplice.Syntax

open Automaton

/-- A name that is a keyword nowhere in an import. -/
def IsBindable (name : String) : Prop :=
  IsName name.toList ∧ name.toList ∉ contextual

instance (name : String) : Decidable (IsBindable name) :=
  inferInstanceAs (Decidable (_ ∧ _))

/-! ### Trees of what is written -/

namespace Tree

@[simp] theorem symbol_mark (text : String) (extent : Extent) :
    (mark text extent).symbol = keyword text := rfl

/-- The keywords of an import, the last one first. -/
inductive Keywords : Bool → List Tree → Prop where
  | value (extent : Extent) : Keywords false [mark "import" extent]
  | type (first extent : Extent) : Keywords true [mark "type" extent, mark "import" first]

/-- What stands in front of a namespace or of names in braces: the keywords `base`, and a default name
with its comma if one precedes. The last tree comes first. -/
inductive Front (base : List Tree) : Option String → List Tree → Prop where
  | base : Front base none base
  | default (binding : String) (extent comma : Extent) :
      Front base (some binding)
        (mark "," comma :: ofParts .importedName 0 [name binding extent] :: base)

/-- A name in braces. -/
def specifier (binding : String) (extent : Extent) : Tree :=
  ofParts .importSpecifier 0 [ofParts .importedName 0 [name binding extent]]

/-- Names in braces, up to the one at a stage. The last tree comes first. -/
inductive Listed : Stage → List String → List Tree → Prop where
  | first (binding : String) (extent : Extent) : Listed .first [binding] [specifier binding extent]
  | second (binding other : String) (extent comma last : Extent) :
      Listed .second [binding, other]
        [ofParts .moreImportSpecifiers 0 [mark "," comma, specifier other last],
          specifier binding extent]
  | later {stage : Stage} {bindings : List String} {others first : Tree}
      (listed : Listed stage bindings [others, first]) (binding : String) (comma last : Extent) :
      Listed .later (bindings ++ [binding])
        [ofParts .moreImportSpecifiers 0 [others, mark "," comma, specifier binding last], first]

/-- Names in braces of which the last one has just been read. The last tree comes first. -/
inductive Pending : Stage → List String → List Tree → Prop where
  | first (binding : String) (extent : Extent) : Pending .first [binding] [name binding extent]
  | next {stage : Stage} {bindings : List String} {trees : List Tree}
      (listed : Listed stage bindings trees) (binding : String) (comma extent : Extent) :
      Pending stage.next (bindings ++ [binding]) (name binding extent :: mark "," comma :: trees)

/-- A namespace, or names in braces. -/
inductive Binds : Option String → List String → Tree → Prop where
  | space (binding : String) (star middle extent : Extent) :
      Binds (some binding) []
        (ofParts .namespaceImport 0 [mark "*" star, mark "as" middle, name binding extent])
  | named {stage : Stage} {bindings : List String} {trees : List Tree}
      (listed : Listed stage bindings trees) (commas : List Extent) (left right : Extent) :
      Binds none bindings
        (ofParts .namedImports 0
          (mark "\x7b" left :: trees.reverse ++ commas.map (mark ",") ++ [mark "\x7d" right]))

/-- The clause of an import: a default name, a namespace or names in braces, or both. -/
inductive IsClause : Option String → Option String → List String → Tree → Prop where
  | default (binding : String) (extent : Extent) :
      IsClause (some binding) none []
        (ofParts .importClause 0 [ofParts .importedName 0 [name binding extent]])
  | only {space : Option String} {bindings : List String} {tree : Tree}
      (binds : Binds space bindings tree) :
      IsClause none space bindings (ofParts .importClause 0 [tree])
  | both {space : Option String} {bindings : List String} {tree : Tree} (binding : String)
      (extent comma : Extent) (binds : Binds space bindings tree) :
      IsClause (some binding) space bindings
        (ofParts .importClause 0
          [ofParts .importedName 0 [name binding extent], mark "," comma, tree])

/-- A string that stands in quotes in the source. -/
def Quotes (source text : List Char) (tree : Tree) : Prop :=
  ∃ (quote : Char) (opening closing : Token) (middle : List Tree),
    tree = ofParts .string 0 (leaf opening :: middle ++ [leaf closing]) ∧
      Text.slice source opening.extent.start closing.extent.stop = quote :: text ++ [quote]

/-- An import statement of a source text. -/
inductive IsImport (source specifier : List Char) :
    Bool → Option String → Option String → List String → Tree → Prop where
  | bare {string : Tree} (quotes : Quotes source specifier string)
      (symbol_eq : string.symbol = .phrase .string) (extent last : Extent) :
      IsImport source specifier false none none []
        (ofParts .importStatement 0 [mark "import" extent, string, mark ";" last])
  | clause {typeOnly : Bool} {binding space : Option String} {names : List String}
      {base : List Tree} {clause string : Tree} (keywords : Keywords typeOnly base)
      (binds : IsClause binding space names clause) (quotes : Quotes source specifier string)
      (symbol_eq : string.symbol = .phrase .string) (extent last : Extent) :
      IsImport source specifier typeOnly binding space names
        (ofParts .importStatement 0
          ((ofParts .fromClause 0 [mark "from" extent, string] :: clause :: base).reverse ++
            [mark ";" last]))

section

variable {base front trees : List Tree} {typeOnly : Bool} {binding : Option String} {stage : Stage}
  {bindings : List String}

theorem IsClause.symbol {space : Option String} {clause : Tree}
    (h : IsClause binding space bindings clause) : clause.symbol = .phrase .importClause := by
  cases h <;> rfl

theorem Keywords.symbols (h : Keywords typeOnly base) : base.map symbol = keywords typeOnly := by
  cases h <;> rfl

theorem Front.symbols (h : Front base binding front) (hbase : Keywords typeOnly base) :
    front.map symbol = frontOf typeOnly binding.isSome := by
  cases h with
  | base => exact hbase.symbols
  | default binding extent comma =>
    simp only [List.map_cons, hbase.symbols]
    rfl

/-- With a namespace or names in braces the clause is complete. -/
theorem Front.join (h : Front base binding front) {space : Option String} {tree : Tree}
    (hbinds : Binds space bindings tree) :
    ∃ clause, IsClause binding space bindings clause ∧
      (clauseOf binding.isSome).join (tree :: front) = clause :: base := by
  cases h with
  | base => exact ⟨_, .only hbinds, rfl⟩
  | default binding extent comma => exact ⟨_, .both binding extent comma hbinds, rfl⟩

theorem Listed.symbols (h : Listed stage bindings trees) : trees.map symbol = stage.listed := by
  induction h with
  | first => rfl
  | second => rfl
  | @later stage bindings others first listed binding comma last ih =>
    have hfirst : first.symbol = .phrase .importSpecifier := by
      cases stage <;> simp_all [Stage.listed]
    simp only [List.map_cons, List.map_nil, hfirst]
    rfl

theorem Pending.symbols (h : Pending stage bindings trees) :
    trees.map symbol = word :: stage.before := by
  cases h with
  | first => rfl
  | @next stage bindings trees listed binding comma extent =>
    simp only [List.map_cons, listed.symbols]
    cases stage <;> rfl

theorem Pending.length_eq_one (h : Pending .first bindings trees) : bindings.length = 1 := by
  generalize hstage : Stage.first = stage at h
  cases h with
  | first => rfl
  | @next stage => cases stage <;> cases hstage

/-- Behind the name the phrases are completed. -/
theorem Pending.join (h : Pending stage bindings trees) :
    ∃ joined, Listed stage bindings joined ∧ ∀ below,
      stage.joins.foldl Reduction.join (trees ++ below) = joined ++ below := by
  cases h with
  | first binding extent => exact ⟨_, .first binding extent, fun _ => rfl⟩
  | next listed binding comma extent =>
    cases listed with
    | first other first => exact ⟨_, .second other binding first comma extent, fun _ => rfl⟩
    | second => exact ⟨_, .later (.second ..) binding comma extent, fun _ => rfl⟩
    | later listed => exact ⟨_, .later (.later listed ..) binding comma extent, fun _ => rfl⟩

end

end Tree

/-- The source is read as one import statement that binds these names. -/
def Automaton.ReadsImport (automaton : Automaton) (source text : List Char) (typeOnly : Bool)
    (binding space : Option String) (names : List String) : Prop :=
  ∃ tree, Tree.IsImport source text typeOnly binding space names tree ∧ tree.IsCode ∧
    automaton.read? source = some (.ofParts automaton.grammar.goal 0
      [.ofParts .statements 0 [.ofParts .statement 0 [tree]]])

/-! ### Reading what is written -/

theorem endsName_cons {c : Char} (h : isWordPart c = false ∧ c ≠ '\\') (rest : List Char) :
    EndsName (c :: rest) := by
  rintro d ⟨⟩
  exact h

namespace Automaton.Builds

variable {automaton : Automaton} {source rest : List Char} {base ahead trees : List Tree}
  {typeOnly : Bool}

/-- The keywords are read. -/
theorem keywords (moves : KeywordMoves automaton) (typeOnly : Bool)
    (h : automaton.Builds source []
      ("import".toList ++ ((if typeOnly then ' ' :: "type".toList else []) ++ rest)))
    (hrest : EndsName rest) :
    ∃ base, Tree.Keywords typeOnly base ∧ automaton.Builds source base rest := by
  obtain ⟨himport, htype⟩ := moves
  cases typeOnly with
  | false =>
    obtain ⟨extent, hbuilds⟩ := Builds.keyword [] "import" h
      himport isMargin_nil (by decide) (by decide) hrest
    exact ⟨_, .value extent, hbuilds⟩
  | true =>
    obtain ⟨first, hbuilds⟩ := Builds.keyword [] "import" h
      himport isMargin_nil (by decide) (by decide) (endsName_cons (by decide) _)
    obtain ⟨extent, hbuilds⟩ := Builds.keyword [' '] "type" hbuilds
      htype isMargin_space (by decide) (by decide) hrest
    exact ⟨_, .type first extent, hbuilds⟩

/-- The keyword behind a clause is read. -/
theorem fromKeyword {reductions : List Reduction}
    (h : automaton.Builds source trees (' ' :: "from".toList ++ ' ' :: rest))
    (moves : automaton.Moves (trees.map Tree.symbol) (.spelled "from".toList) reductions) :
    ∃ extent, automaton.Builds source
      (.mark "from" extent :: reductions.foldl Reduction.join trees) (' ' :: rest) :=
  Builds.keyword [' '] "from" h moves isMargin_space (by decide) (by decide)
    (endsName_cons (by decide) _)

/-- A default name is read that no comma follows. -/
theorem default (moves : DefaultMoves automaton typeOnly) (hbase : Tree.Keywords typeOnly base)
    {binding : String} (hbinding : IsBindable binding)
    (h : automaton.Builds source base
      (' ' :: binding.toList ++ (' ' :: "from".toList ++ ' ' :: rest))) :
    ∃ clause extent, Tree.IsClause (some binding) none [] clause ∧
      automaton.Builds source (.mark "from" extent :: clause :: base) (' ' :: rest) := by
  obtain ⟨hword, -, hfrom⟩ := moves
  rw [← hbase.symbols] at hword hfrom
  obtain ⟨extent, hname⟩ := Builds.name [' '] _ h hword isMargin_space hbinding.1 hbinding.2
    (endsName_cons (by decide) _)
  obtain ⟨last, hlast⟩ := hname.fromKeyword hfrom
  exact ⟨_, last, .default binding extent, hlast⟩

/-- A default name is read with the comma behind it, if there is one. -/
theorem front (moves : DefaultMoves automaton typeOnly) (hbase : Tree.Keywords typeOnly base)
    {binding : Option String} (hbinding : ∀ name ∈ binding, IsBindable name)
    (h : automaton.Builds source base
      ((binding.map fun name => ' ' :: name.toList ++ [',']).getD [] ++ rest)) :
    ∃ ahead, Tree.Front base binding ahead ∧ automaton.Builds source ahead rest := by
  obtain ⟨hword, hcomma, -⟩ := moves
  cases binding with
  | none => exact ⟨base, .base, h⟩
  | some binding =>
    rw [← hbase.symbols] at hword hcomma
    have hbinding := hbinding binding rfl
    have hsplit : ' ' :: binding.toList ++ [','] ++ rest = [' '] ++ binding.toList ++ ',' :: rest := by
      simp
    rw [Option.map_some, Option.getD_some, hsplit] at h
    obtain ⟨extent, hname⟩ := Builds.name [' '] _ h hword isMargin_space hbinding.1 hbinding.2
      (endsName_cons (by decide) _)
    obtain ⟨comma, hlast⟩ := Builds.mark [] "," hname hcomma rfl isMargin_nil (by decide)
    exact ⟨_, .default binding extent comma, hlast⟩

/-- A namespace is read. -/
theorem space (hbase : Tree.Keywords typeOnly base) {binding : Option String}
    (hfront : Tree.Front base binding ahead)
    (moves : NamespaceMoves automaton typeOnly binding.isSome) {name : String}
    (hname : IsBindable name)
    (h : automaton.Builds source ahead
      (' ' :: '*' :: ' ' :: "as".toList ++ (' ' :: name.toList ++
        (' ' :: "from".toList ++ ' ' :: rest)))) :
    ∃ clause extent, Tree.IsClause binding (some name) [] clause ∧
      automaton.Builds source (.mark "from" extent :: clause :: base) (' ' :: rest) := by
  obtain ⟨hstar, has, hword, hfrom⟩ := moves
  rw [← hfront.symbols hbase] at hstar has hword hfrom
  obtain ⟨star, h⟩ := Builds.mark [' '] "*" h hstar rfl isMargin_space (by decide)
  obtain ⟨middle, h⟩ := Builds.keyword [' '] "as" h has isMargin_space (by decide)
    (by decide) (endsName_cons (by decide) _)
  obtain ⟨extent, h⟩ := Builds.name [' '] _ h hword isMargin_space hname.1 hname.2
    (endsName_cons (by decide) _)
  obtain ⟨last, h⟩ := h.fromKeyword hfrom
  obtain ⟨clause, hclause, hjoin⟩ := hfront.join (.space name star middle extent)
  refine ⟨clause, last, hclause, ?_⟩
  rw [← hjoin]
  exact h

theorem symbols_braced (hbase : Tree.Keywords typeOnly base) {binding : Option String}
    (hahead : Tree.Front base binding ahead) (trees : List Tree) (left : Extent) :
    (trees ++ .mark "\x7b" left :: ahead).map Tree.symbol =
      trees.map Tree.symbol ++ Syntax.keyword "\x7b" :: frontOf typeOnly binding.isSome := by
  rw [List.map_append, List.map_cons, hahead.symbols hbase]
  rfl

/-- The text of names in braces behind the first one. -/
def listText (gap : List Char) (names : List String) : List Char :=
  names.flatMap fun name => ',' :: gap ++ name.toList

theorem endsName_listText (gap : List Char) (names : List String) (hrest : EndsName rest) :
    EndsName (listText gap names ++ rest) := by
  cases names with
  | nil => exact hrest
  | cons name names => exact endsName_cons (by decide) _

theorem endsName_closing {margin : List Char} (hmargin : IsMargin margin) (trailing : Bool)
    (rest : List Char) :
    EndsName ((if trailing then [','] else []) ++ (margin ++ '\x7d' :: rest)) := by
  cases trailing with
  | true => exact endsName_cons (by decide) _
  | false =>
    cases margin with
    | nil => exact endsName_cons (by decide) _
    | cons c margin =>
      refine endsName_cons ?_ _
      rcases hmargin c List.mem_cons_self with rfl | rfl <;> decide

/-- Names in braces are read one after another. -/
theorem listed (hbase : Tree.Keywords typeOnly base) {binding : Option String}
    (hahead : Tree.Front base binding ahead)
    (moves : ∀ stage, ListedMoves automaton typeOnly binding.isSome stage) {stage : Stage}
    {names : List String} {trees : List Tree} (hpending : Tree.Pending stage names trees)
    {left : Extent} {gap : List Char} (hgap : IsMargin gap) {others : List String}
    (hothers : ∀ name ∈ others, IsBindable name) (hrest : EndsName rest)
    (h : automaton.Builds source (trees ++ .mark "\x7b" left :: ahead) (listText gap others ++ rest)) :
    ∃ stage trees, Tree.Pending stage (names ++ others) trees ∧
      automaton.Builds source (trees ++ .mark "\x7b" left :: ahead) rest := by
  induction others generalizing stage names trees with
  | nil => exact ⟨stage, trees, by simpa using hpending, h⟩
  | cons name others ih =>
    have hname := hothers name List.mem_cons_self
    have hends := endsName_listText gap others hrest
    obtain ⟨-, hcomma, -, -⟩ := moves stage
    obtain ⟨hword, -, -, -⟩ := moves stage.next
    rw [stage.before_next] at hword
    obtain ⟨joined, hjoined, hjoin⟩ := hpending.join
    have hsplit : listText gap (name :: others) ++ rest =
        ',' :: (gap ++ name.toList ++ (listText gap others ++ rest)) := by
      simp [listText]
    rw [hsplit] at h
    have hpendingMoves : automaton.Moves
        ((trees ++ .mark "\x7b" left :: ahead).map Tree.symbol) (.spelled ",".toList) stage.joins := by
      rw [symbols_braced hbase hahead, hpending.symbols]
      exact hcomma
    obtain ⟨comma, h⟩ := Builds.mark [] "," h hpendingMoves rfl isMargin_nil
      (by decide)
    have hlistedMoves : automaton.Moves
        ((.mark "," comma :: joined ++ .mark "\x7b" left :: ahead).map Tree.symbol) (.kind .word) [] := by
      rw [symbols_braced hbase hahead, List.map_cons, hjoined.symbols]
      exact hword
    rw [hjoin] at h
    obtain ⟨extent, h⟩ := Builds.name gap name h hlistedMoves hgap hname.1 hname.2 hends
    rw [List.append_cons]
    exact ih (.next hjoined name comma extent)
      (fun other hother => hothers other (List.mem_cons_of_mem _ hother)) h

/-- The first name in braces is read. -/
theorem firstListed (hbase : Tree.Keywords typeOnly base) {binding : Option String}
    (hahead : Tree.Front base binding ahead)
    (hbrace : BraceMoves automaton typeOnly binding.isSome)
    (moves : ListedMoves automaton typeOnly binding.isSome .first) {gap : List Char}
    (hgap : IsMargin gap) {name : String} (hname : IsBindable name) (hrest : EndsName rest)
    (h : automaton.Builds source ahead (' ' :: '\x7b' :: (gap ++ name.toList ++ rest))) :
    ∃ extent left, automaton.Builds source (.name name extent :: .mark "\x7b" left :: ahead) rest := by
  obtain ⟨hopen, -, -⟩ := hbrace
  obtain ⟨hword, -, -, -⟩ := moves
  rw [← hahead.symbols hbase] at hopen
  obtain ⟨left, h⟩ := Builds.mark [' '] "\x7b" h hopen rfl isMargin_space (by decide)
  have hfirst : automaton.Moves ((.mark "\x7b" left :: ahead).map Tree.symbol) (.kind .word) [] := by
    rw [← List.nil_append (.mark "\x7b" left :: ahead), symbols_braced hbase hahead]
    exact hword
  obtain ⟨extent, h⟩ := Builds.name gap name h hfirst hgap hname.1 hname.2 hrest
  exact ⟨extent, left, h⟩

/-- What stands in braces becomes one tree. -/
theorem join_braced (inner : List Tree) (left right : Extent) :
    (joining .namedImports (inner.length + 2)).join
        (.mark "\x7d" right :: inner ++ .mark "\x7b" left :: ahead) =
      Tree.ofParts .namedImports 0 (.mark "\x7b" left :: inner.reverse ++ [.mark "\x7d" right]) ::
        ahead := by
  have hsplit : Tree.mark "\x7d" right :: inner ++ Tree.mark "\x7b" left :: ahead =
      (Tree.mark "\x7d" right :: inner ++ [Tree.mark "\x7b" left]) ++ ahead := by simp
  have hlength : (Tree.mark "\x7d" right :: inner ++ [Tree.mark "\x7b" left]).length =
      (joining .namedImports (inner.length + 2)).count := by simp [joining]
  rw [Reduction.join, hsplit, ← hlength, List.take_left, List.drop_left]
  simp [joining]

/-- Behind the braces the clause is complete. -/
theorem behindBraces (hbase : Tree.Keywords typeOnly base) {binding : Option String}
    (hahead : Tree.Front base binding ahead) {stage : Stage} {names : List String}
    {trees : List Tree} (hlisted : Tree.Listed stage names trees) (commas : List Extent)
    {left right : Extent}
    (moves : automaton.Moves (Syntax.keyword "\x7d" :: (commas.map fun _ => Syntax.keyword ",") ++
      (stage.listed ++ Syntax.keyword "\x7b" :: frontOf typeOnly binding.isSome))
      (.spelled "from".toList)
      [joining .namedImports (commas.length + stage.listed.length + 2), clauseOf binding.isSome])
    (h : automaton.Builds source
      (.mark "\x7d" right :: (commas.map (.mark ",") ++ trees) ++ .mark "\x7b" left :: ahead)
      (' ' :: "from".toList ++ ' ' :: rest)) :
    ∃ clause extent, Tree.IsClause binding none names clause ∧
      automaton.Builds source (.mark "from" extent :: clause :: base) (' ' :: rest) := by
  have hsymbols : (Tree.mark "\x7d" right :: (commas.map (.mark ",") ++ trees) ++
      .mark "\x7b" left :: ahead).map Tree.symbol =
      Syntax.keyword "\x7d" :: (commas.map fun _ => Syntax.keyword ",") ++
        (stage.listed ++ Syntax.keyword "\x7b" :: frontOf typeOnly binding.isSome) := by
    rw [symbols_braced hbase hahead, List.map_cons, List.map_append, hlisted.symbols, List.map_map]
    simp [Function.comp_def]
  have hlength : (commas.map (Tree.mark ",") ++ trees).length =
      commas.length + stage.listed.length := by
    simp [← hlisted.symbols]
  rw [← hsymbols, ← hlength] at moves
  obtain ⟨extent, h⟩ := h.fromKeyword moves
  obtain ⟨clause, hclause, hjoin⟩ := hahead.join (.named hlisted commas.reverse left right)
  refine ⟨clause, extent, hclause, ?_⟩
  rw [List.foldl_cons, join_braced, List.foldl_cons, List.foldl_nil] at h
  rw [← hjoin]
  simpa using h

/-- The closing brace is read, behind a comma or without one. -/
theorem closed (hbase : Tree.Keywords typeOnly base) {binding : Option String}
    (hahead : Tree.Front base binding ahead)
    (hbrace : BraceMoves automaton typeOnly binding.isSome)
    (moves : ∀ stage, ListedMoves automaton typeOnly binding.isSome stage) {stage : Stage}
    {names : List String} {trees : List Tree} (hpending : Tree.Pending stage names trees)
    {left : Extent} {margin : List Char} (hmargin : IsMargin margin) {trailing : Bool}
    (htrailing : trailing = true → stage ≠ .first)
    (h : automaton.Builds source (trees ++ .mark "\x7b" left :: ahead)
      ((if trailing then [','] else []) ++ (margin ++ '\x7d' ::
        (' ' :: "from".toList ++ ' ' :: rest)))) :
    ∃ clause extent, Tree.IsClause binding none names clause ∧
      automaton.Builds source (.mark "from" extent :: clause :: base) (' ' :: rest) := by
  obtain ⟨-, hcomma, hclose, hfrom⟩ := moves stage
  obtain ⟨-, hbehind, hlast⟩ := hbrace
  obtain ⟨joined, hlisted, hjoin⟩ := hpending.join
  rw [← hpending.symbols, ← symbols_braced hbase hahead trees left] at hcomma hclose
  cases trailing with
  | false =>
    obtain ⟨right, h⟩ := Builds.mark margin "\x7d" h hclose rfl hmargin (by decide)
    rw [hjoin] at h
    exact behindBraces hbase hahead hlisted [] (by simpa using hfrom) h
  | true =>
    obtain ⟨comma, h⟩ := Builds.mark [] "," h hcomma rfl isMargin_nil (by decide)
    rw [hjoin] at h
    have hlater : stage.listed = Stage.later.listed := by
      cases stage
      · exact absurd rfl (htrailing rfl)
      · rfl
      · rfl
    rw [← hlater] at hbehind hlast
    have hsymbols : (Tree.mark "," comma :: joined ++ .mark "\x7b" left :: ahead).map Tree.symbol =
        Syntax.keyword "," :: stage.listed ++ Syntax.keyword "\x7b" ::
          frontOf typeOnly binding.isSome := by
      rw [symbols_braced hbase hahead, List.map_cons, hlisted.symbols]
      rfl
    rw [← hsymbols] at hbehind
    obtain ⟨right, h⟩ := Builds.mark margin "\x7d" h hbehind rfl hmargin (by decide)
    refine behindBraces hbase hahead hlisted [comma] ?_ h
    rw [hlater] at hlast ⊢
    exact hlast

theorem slice_of_lengths (before : List Char) {text : List Char} (rest : List Char) {start stop : Nat}
    (hsource : source = before ++ text ++ rest)
    (hstart : start + text.length + rest.length = source.length)
    (hstop : stop + rest.length = source.length) : Text.slice source start stop = text := by
  have hbefore : start = before.length := by
    simp only [hsource, List.length_append] at hstart
    omega
  have hlength : stop - start = text.length := by omega
  rw [Text.slice, hlength, hsource, hbefore, List.append_assoc, List.drop_left, List.take_left]

/-- The closing quote of a string is read, and the semicolon behind it. -/
theorem quoteEnd {quote : Char} {joins endings : List Reduction}
    (h : automaton.Builds source trees (quote :: ';' :: rest))
    (hquote : quote = '"' ∨ quote = '\'')
    (hinside : (automaton.expectation (trees.map Tree.symbol)).isInside quote = true)
    (hsettled : automaton.settle? 8 (.spelled [quote]) (trees.map Tree.symbol) = some joins)
    (hend : (automaton.expectation (.terminal (.spelled [quote]) ::
      (joins.foldl Reduction.join trees).map Tree.symbol)).awaitsEnd = true)
    (hendSettled : automaton.settle? 8 (.spelled [';']) (.terminal (.spelled [quote]) ::
      (joins.foldl Reduction.join trees).map Tree.symbol) = some endings) :
    ∃ last extent : Extent, last.stop + (';' :: rest).length = source.length ∧
      automaton.Builds source (.mark ";" extent :: endings.foldl Reduction.join
        (.leaf ⟨.spelled [quote], String.ofList [quote], last⟩ :: joins.foldl Reduction.join trees))
        rest := by
  obtain ⟨last, -, hlast, hclosed⟩ := h.take [] [quote]
    (Expectation.next?_quote hinside hquote _) (List.cons_ne_nil _ _) (isTaken_spelled _) hsettled
  obtain ⟨extent, -, -, hended⟩ := hclosed.take [] [';']
    (Expectation.next?_semicolon hend _) (List.cons_ne_nil _ _) (isTaken_spelled _) hendSettled
  exact ⟨last, extent, hlast, hended⟩

/-- A string is read, and the semicolon behind it. -/
theorem string {symbols : List Symbol} {closing : List Reduction} {quote : Char}
    (moves : StringMoves automaton symbols closing quote) (hsymbols : trees.map Tree.symbol = symbols)
    (hquote : quote = '"' ∨ quote = '\'') {text : List Char} (htext : IsPlainText quote text)
    (h : automaton.Builds source trees (' ' :: quote :: (text ++ quote :: ';' :: rest))) :
    ∃ string extent, Tree.Quotes source text string ∧ string.symbol = .phrase .string ∧
      automaton.Builds source
        (.mark ";" extent :: closing.foldl Reduction.join (string :: trees)) rest := by
  subst hsymbols
  obtain ⟨hopen, ⟨hinside, htextSettled, hemptySettled⟩, ⟨hbehind, hcloseSettled⟩,
    ⟨hempty, hemptyEnd⟩, hend, hendSettled⟩ := moves
  have hmark : IsMark quote := by rcases hquote with rfl | rfl <;> decide
  obtain ⟨first, hfirst, -, hopened⟩ := h.take [' '] [quote]
    (Expectation.next?_mark hopen.1 isMargin_space hmark.1 hmark.2.1 hmark.2.2 _)
    (List.cons_ne_nil _ _) (isTaken_spelled _) hopen.2
  -- The string is what lies between the places of its quotes, whatever its parts are.
  have hslice : ∀ last : Extent, last.stop + (';' :: rest).length = source.length →
      Text.slice source first.start last.stop = quote :: text ++ [quote] := by
    obtain ⟨before, hsource⟩ := h.isSuffix
    intro last hlast
    change first.start + 1 + (text ++ quote :: ';' :: rest).length = source.length at hfirst
    simp only [List.length_append, List.length_cons] at hfirst hlast
    refine slice_of_lengths (before ++ [' ']) (';' :: rest) (by simp [← hsource]) ?_ hlast
    simp only [List.length_append, List.length_cons, List.length_nil]
    omega
  by_cases hsolid : text = []
  · subst hsolid
    obtain ⟨last, extent, hlast, hended⟩ :=
      hopened.quoteEnd hquote hinside hemptySettled hempty hemptyEnd
    exact ⟨_, extent, ⟨quote, _, _, [], rfl, hslice last hlast⟩, rfl, hended⟩
  · obtain ⟨middle, -, -, htexted⟩ := hopened.take [] text
      (Expectation.next?_text hinside hquote htext hsolid _) hsolid
      (by rcases hquote with rfl | rfl <;> decide) htextSettled
    obtain ⟨last, extent, hlast, hended⟩ :=
      htexted.quoteEnd hquote hbehind hcloseSettled hend hendSettled
    exact ⟨_, extent, ⟨quote, _, _, [_], rfl, hslice last hlast⟩, rfl, hended⟩

/-- At the end of the text the statement is complete. -/
theorem statement {symbols : List Symbol} (moves : EndMoves automaton symbols)
    (hsymbols : trees.map Tree.symbol = symbols) {extent : Extent}
    (h : automaton.Builds source (.mark ";" extent :: trees) ['\n']) :
    automaton.read? source = some (.ofParts automaton.grammar.goal 0 [.ofParts .statements 0
      [.ofParts .statement 0 [.ofParts .importStatement 0 (trees.reverse ++ [.mark ";" extent])]]]) := by
  subst hsymbols
  obtain ⟨hplain, hsettled⟩ := moves
  have hnext := Expectation.next?_end hplain isMargin_newline
  have hread := h.read? hnext hsettled
  have hlength : (Tree.mark ";" extent :: trees).length =
      (joining .importStatement ((trees.map Tree.symbol).length + 1)).count := by
    simp [joining]
  have hjoin : (joining .importStatement ((trees.map Tree.symbol).length + 1)).join
      (.mark ";" extent :: trees) =
      [.ofParts .importStatement 0 (trees.reverse ++ [.mark ";" extent])] := by
    rw [Reduction.join, ← hlength, List.take_length, List.drop_length, List.reverse_cons]
    rfl
  rw [List.foldl_cons, hjoin] at hread
  exact hread

theorem isCode_statement {extent : Extent}
    (h : automaton.Builds source (.mark ";" extent :: trees) rest) :
    (Tree.ofParts .importStatement 0 (trees.reverse ++ [.mark ";" extent])).IsCode := by
  refine Tree.isCode_ofParts.2 fun part hpart => h.isCode part ?_
  rw [← List.reverse_cons] at hpart
  exact List.mem_reverse.1 hpart

/-- An import with bindings is read from the specifier on. -/
theorem importing (moves : ImportMoves automaton) (hbase : Tree.Keywords typeOnly base)
    {binding space : Option String} {names : List String} {clause : Tree}
    (hclause : Tree.IsClause binding space names clause) {quote : Char}
    (hquote : quote = '"' ∨ quote = '\'') {text : List Char} (htext : IsPlainText quote text)
    {extent : Extent}
    (h : automaton.Builds source (.mark "from" extent :: clause :: base)
      (' ' :: quote :: (text ++ quote :: ';' :: ['\n']))) :
    automaton.ReadsImport source text typeOnly binding space names := by
  obtain ⟨-, hall, -, -⟩ := moves
  obtain ⟨-, -, hstring, hend⟩ := hall typeOnly
  have hsymbols : (Tree.mark "from" extent :: clause :: base).map Tree.symbol = fromOf typeOnly := by
    simp only [List.map_cons, hbase.symbols, hclause.symbol]
    rfl
  have hmem : quote ∈ ['\'', '"'] := by rcases hquote with rfl | rfl <;> decide
  obtain ⟨string, last, hquotes, hsymbol, hbuilds⟩ :=
    string (hstring quote hmem) hsymbols hquote htext h
  have hjoined : ((joining .fromClause 2).join (string :: .mark "from" extent :: clause :: base)) =
      .ofParts .fromClause 0 [.mark "from" extent, string] :: clause :: base := rfl
  rw [List.foldl_cons, List.foldl_nil, hjoined] at hbuilds
  refine ⟨_, .clause hbase hclause hquotes hsymbol extent last, isCode_statement hbuilds,
    statement hend ?_ hbuilds⟩
  simp only [List.map_cons, hbase.symbols, hclause.symbol]
  rfl

/-- An import without bindings is read. -/
theorem importingNothing (moves : ImportMoves automaton) {quote : Char}
    (hquote : quote = '"' ∨ quote = '\'') {text : List Char} (htext : IsPlainText quote text)
    (h : automaton.Builds source []
      ("import".toList ++ (' ' :: quote :: (text ++ quote :: ';' :: ['\n'])))) :
    automaton.ReadsImport source text false none none [] := by
  obtain ⟨hkeywords, -, hstring, hend⟩ := moves
  obtain ⟨base, hbase, h⟩ := keywords hkeywords false h (endsName_cons (by decide) _)
  have hmem : quote ∈ ['\'', '"'] := by rcases hquote with rfl | rfl <;> decide
  obtain ⟨string, last, hquotes, hsymbol, hbuilds⟩ :=
    string (hstring quote hmem) hbase.symbols hquote htext h
  cases hbase with
  | value extent =>
    have hsymbols : [string, Tree.mark "import" extent].map Tree.symbol =
        .phrase .string :: Syntax.keywords false := by
      simp only [List.map_cons, hsymbol]
      rfl
    exact ⟨_, .bare hquotes hsymbol extent last, isCode_statement hbuilds,
      statement hend hsymbols hbuilds⟩

end Automaton.Builds

/-! ### Whole texts -/

namespace Automaton

variable {automaton : Automaton} {quote : Char} {text : List Char}

/-- The text of an import statement: its keywords, the given clause, and the specifier in quotes. -/
def importText (typeOnly : Bool) (clause : List Char) (quote : Char) (text : List Char) : List Char :=
  "import".toList ++ ((if typeOnly then ' ' :: "type".toList else []) ++
    (clause ++ (' ' :: "from".toList ++ (' ' :: quote :: (text ++ quote :: ';' :: ['\n'])))))

/-- The text in front of a namespace or of names in braces: a default name with its comma. -/
def frontText (binding : Option String) : List Char :=
  (binding.map fun name => ' ' :: name.toList ++ [',']).getD []

theorem Builds.start_importText (moves : ImportMoves automaton) (typeOnly : Bool)
    (clause : List Char) (quote : Char) (text : List Char) :
    ∃ base, Tree.Keywords typeOnly base ∧
      automaton.Builds (importText typeOnly (' ' :: clause) quote text) base
        (' ' :: clause ++ (' ' :: "from".toList ++
          (' ' :: quote :: (text ++ quote :: ';' :: ['\n'])))) :=
  Builds.keywords moves.1 typeOnly .start (endsName_cons (by decide) _)

theorem readsImport_default (moves : ImportMoves automaton) (typeOnly : Bool) {name : String}
    (hname : IsBindable name) (hquote : quote = '"' ∨ quote = '\'')
    (htext : IsPlainText quote text) :
    automaton.ReadsImport (importText typeOnly (' ' :: name.toList) quote text) text typeOnly
      (some name) none [] := by
  obtain ⟨hdefault, -⟩ := moves.2.1 typeOnly
  obtain ⟨base, hbase, h⟩ := Builds.start_importText moves typeOnly name.toList quote text
  obtain ⟨clause, extent, hclause, h⟩ := h.default hdefault hbase hname
  exact h.importing moves hbase hclause hquote htext

theorem Builds.start_frontText (moves : ImportMoves automaton) (typeOnly : Bool)
    {binding : Option String} (hbinding : ∀ name ∈ binding, IsBindable name) (clause : List Char)
    (quote : Char) (text : List Char) :
    ∃ base ahead, Tree.Keywords typeOnly base ∧ Tree.Front base binding ahead ∧
      automaton.Builds (importText typeOnly (frontText binding ++ ' ' :: clause) quote text) ahead
        (' ' :: clause ++ (' ' :: "from".toList ++
          (' ' :: quote :: (text ++ quote :: ';' :: ['\n'])))) := by
  obtain ⟨hdefault, -⟩ := moves.2.1 typeOnly
  have hspace : ∃ front, frontText binding ++ ' ' :: clause = ' ' :: front := by
    cases binding with
    | none => exact ⟨clause, rfl⟩
    | some name => exact ⟨name.toList ++ [','] ++ ' ' :: clause, rfl⟩
  obtain ⟨front, hfront⟩ := hspace
  obtain ⟨base, hbase, h⟩ := Builds.start_importText moves typeOnly front quote text
  rw [← hfront, List.append_assoc] at h
  obtain ⟨ahead, hahead, h⟩ := h.front hdefault hbase hbinding
  exact ⟨base, ahead, hbase, hahead, h⟩

theorem readsImport_space (moves : ImportMoves automaton) (typeOnly : Bool)
    {binding : Option String} (hbinding : ∀ name ∈ binding, IsBindable name) {space : String}
    (hspace : IsBindable space) (hquote : quote = '"' ∨ quote = '\'')
    (htext : IsPlainText quote text) :
    automaton.ReadsImport
      (importText typeOnly (frontText binding ++
        ' ' :: '*' :: ' ' :: ("as".toList ++ ' ' :: space.toList)) quote text)
      text typeOnly binding (some space) [] := by
  obtain ⟨-, hclauses, -⟩ := moves.2.1 typeOnly
  obtain ⟨hmoves, -⟩ := hclauses binding.isSome
  obtain ⟨base, ahead, hbase, hahead, h⟩ := Builds.start_frontText moves typeOnly hbinding
    ('*' :: ' ' :: ("as".toList ++ ' ' :: space.toList)) quote text
  obtain ⟨clause, extent, hclause, h⟩ := h.space hbase hahead hmoves hspace
  exact h.importing moves hbase hclause hquote htext

/-- The names in braces are written with the same white space in front of each. -/
theorem readsImport_named (moves : ImportMoves automaton) (typeOnly : Bool)
    {binding : Option String} (hbinding : ∀ name ∈ binding, IsBindable name) {gap margin : List Char}
    (hgap : IsMargin gap) (hmargin : IsMargin margin) {name : String} {others : List String}
    (hnames : ∀ other ∈ name :: others, IsBindable other) (trailing : Bool)
    (htrailing : trailing = true → others ≠ [])
    (hquote : quote = '"' ∨ quote = '\'') (htext : IsPlainText quote text) :
    automaton.ReadsImport
      (importText typeOnly (frontText binding ++
        ' ' :: '\x7b' :: (gap ++ name.toList ++ (Builds.listText gap others ++
          ((if trailing then [','] else []) ++ (margin ++ ['\x7d']))))) quote text)
      text typeOnly binding none (name :: others) := by
  obtain ⟨-, hclauses, -⟩ := moves.2.1 typeOnly
  obtain ⟨-, hbrace, hlisted⟩ := hclauses binding.isSome
  have hmoves : ∀ stage, ListedMoves automaton typeOnly binding.isSome stage := fun stage =>
    hlisted stage (by cases stage <;> decide)
  obtain ⟨base, ahead, hbase, hahead, h⟩ := Builds.start_frontText moves typeOnly hbinding
    ('\x7b' :: (gap ++ name.toList ++ (Builds.listText gap others ++
      ((if trailing then [','] else []) ++ (margin ++ ['\x7d']))))) quote text
  rw [List.cons_append, List.cons_append, List.append_assoc (gap ++ name.toList),
    List.append_assoc (Builds.listText gap others), List.append_assoc (if trailing then _ else _),
    List.append_assoc margin, List.singleton_append] at h
  have hends := Builds.endsName_closing hmargin trailing (' ' :: "from".toList ++
    (' ' :: quote :: (text ++ quote :: ';' :: ['\n'])))
  have hothers : ∀ other ∈ others, IsBindable other := fun other hother =>
    hnames other (List.mem_cons_of_mem _ hother)
  obtain ⟨extent, left, h⟩ := h.firstListed hbase hahead hbrace (hmoves .first) hgap
    (hnames name List.mem_cons_self) (Builds.endsName_listText gap others hends)
  obtain ⟨stage, trees, hpending, h⟩ := Builds.listed hbase hahead hmoves (.first name extent)
    hgap hothers hends h
  have hstage : trailing = true → stage ≠ .first := by
    rintro htrue rfl
    cases hothers : others with
    | nil => exact htrailing htrue hothers
    | cons other rest => simpa [hothers] using hpending.length_eq_one
  obtain ⟨clause, last, hclause, h⟩ := h.closed hbase hahead hbrace hmoves hpending hmargin hstage
  exact h.importing moves hbase hclause hquote htext

end Automaton

end CodeSplice.Syntax
