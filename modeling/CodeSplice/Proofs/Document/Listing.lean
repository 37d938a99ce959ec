/-
Module: CodeSplice.Proofs.Document.Listing
Purpose: The comments in the braces of an import. Reading the braces places each of them with a binding or
  behind the bindings; writing the import writes them there, if it binds anything by its clause, and does
  not write them otherwise.
Main exports: Source.SaysNothing, Source.Notes, Source.Lists, Source.Reading, Source.Reading.statement,
  Source.Reading.carries_render
-/
import CodeSplice.Proofs.Document.Bodies
import CodeSplice.Proofs.Document.Shape

namespace CodeSplice

open Layout Syntax Text

/-- A text that begins and ends with something visible is laid out anew between white space. -/
theorem Layout.Laid.exists_relaid {inside : Nat → Bool} {start : Nat} {text output : List Char}
    (h : Laid inside start text output) (hne : text ≠ [])
    (hfirst : ∀ c, text.head? = some c → isSpace c = false)
    (hlast : ∀ c, text.getLast? = some c → isSpace c = false) :
    ∃ lead core tail, output = lead ++ core ++ tail ∧ White lead ∧ White tail ∧
      Relaid inside start text core := by
  obtain @⟨lead, core, tail, lead', core', tail', rfl, output_eq, white, white', whiteTail,
    whiteTail', relaid⟩ := h
  obtain rfl : lead = [] := by
    cases lead with
    | nil => rfl
    | cons c lead =>
      have := hfirst c rfl
      rw [white c List.mem_cons_self] at this
      contradiction
  obtain rfl : tail = [] := by
    cases tail using List.reverseRecOn with
    | nil => rfl
    | append_singleton tail c =>
      have := hlast c (by simp)
      rw [whiteTail c (by simp)] at this
      contradiction
  refine ⟨lead', core', tail', output_eq, white', whiteTail', ?_⟩
  simpa using relaid

/-- Whether a declaration binds nothing by a clause, so that it is written without braces. -/
def ImportDeclaration.bare (declaration : ImportDeclaration) : Bool :=
  declaration.isRequire || (declaration.head.isEmpty && declaration.named.isEmpty)

namespace Source

variable {source : Source} {rs qs : List Token}

/-! ### Comments in braces -/

/-- A token that is a tree of its own, and no unmarked end of a line, is the token of this tree. -/
theorem mem_tokens_leaf {token : Token} (h : token.is .comment = true) :
    token ∈ (Tree.leaf token).tokens := by
  have hterminal : token.terminal = .kind .comment := by simpa [Token.is] using h
  simp [Tree.tokens_leaf, Token.is, hterminal]

/-- A comment outside of template literals says one empty line for several. -/
theorem shown_of_holds (hs : source.Sound) {token : Token} (h : source.Holds (.leaf token))
    (hr : token ∈ source.remarks) : source.shown token = squeezed (said token.text.toList) := by
  have hlt := hs.start_lt_solidStop hr
  have hle := hs.solidStop_le hr
  rw [shown, if_neg]
  rw [List.any_eq_true]
  rintro ⟨literal, hliteral, hwithin⟩
  simp only [Bool.and_eq_true, decide_eq_true_eq] at hwithin
  rcases h.literal literal hliteral with ⟨inner, hinner, -⟩ | hbefore | hbehind
  · simp at hinner
  · simp only [Tree.extent_leaf] at hbefore
    omega
  · simp only [Tree.extent_leaf] at hbehind
    omega

/-- A comment outside of template literals is carried by a block of its text. -/
theorem carries_ofText (hs : source.Sound) {token : Token} (h : source.Holds (.leaf token))
    (hcomment : token.is .comment = true) :
    source.Carries (Block.ofText (Attached.trimmed token)).render [token] := by
  have hr := h.mem token (Tree.mem_comments.2 ⟨mem_tokens_leaf hcomment, hcomment⟩)
  have htext := hs.isComment hr
  have htrimmed : (Attached.trimmed token).toList = trimEnd token.text.toList := by
    simp only [Attached.trimmed, String.toList_ofList, trim_of_isComment htext]
  obtain ⟨rest, hrest⟩ := htext.trimEnd_ne_nil
  intro w os hw
  have hlaid := laid_ofRange (Attached.trimmed token).toList
    ⟨0, (Attached.trimmed token).toList.length⟩ [] (unitOf (Attached.trimmed token).toList []) w
  rw [show Text.slice (Attached.trimmed token).toList 0 (Attached.trimmed token).toList.length =
    trimEnd token.text.toList by simp [Text.slice, htrimmed]] at hlaid
  obtain ⟨lead, core, tail, houtput, hlead, htail, hcore⟩ := hlaid.exists_relaid
    (by simp [hrest]) (by simp [hrest, show isSpace '/' = false by decide])
    fun c hc => not_isSpace_getLast_trimEnd hc
  have hsaid : said core = source.shown token := by
    rw [shown_of_holds hs h hr]
    exact htext.said_relaid (fun _ _ _ => rfl) hcore
  have hbears := ((Bears.ofPlain (slash_not_mem hlead)).append (hs.bears_said hr hcore hsaid)).append
    (Bears.ofPlain (slash_not_mem htail) : source.Bears tail [])
  rw [Block.toList_text_render]
  refine hw.append ?_
  rw [Block.ofText, houtput]
  simpa using hbears

/-! ### Texts without comments -/

/-- A text that bears no comments. -/
def SaysNothing (source : Source) (text : String) : Prop :=
  source.Bears text.toList []

theorem SaysNothing.append {first second : String} (h : source.SaysNothing first)
    (h' : source.SaysNothing second) : source.SaysNothing (first ++ second) := by
  rw [SaysNothing, String.toList_append]
  exact Bears.append h h'

theorem saysNothing_of_plain {text : String} (h : '/' ∉ text.toList) : source.SaysNothing text :=
  .ofPlain h

/-- The text of a tree without comments bears none. -/
theorem saysNothing_textOf (hs : source.Sound) {tree : Tree} (h : source.Holds tree)
    (hnone : tree.comments = []) : source.SaysNothing (source.textOf tree) :=
  .ofCode _ _ (h.free hs hnone) (by rw [textOf, slice, String.toList_ofList]; rfl)

/-- The text of a token that is no comment bears none. -/
theorem saysNothing_token (hs : source.Sound) {tree : Tree} (h : source.Holds tree) {token : Token}
    (htoken : token ∈ tree.tokens) (hcode : token.is .comment = false) :
    source.SaysNothing token.text :=
  .ofCode _ _ (h.free_token hs htoken hcode) (by rw [(h.placed.token htoken).1.text_eq])

/-! ### Bindings in braces -/

/-- Comments on lines of their own carry the given ones. -/
def SaysLines (source : Source) (comments : List String) (rs : List Token) : Prop :=
  source.Carries (ImportDeclaration.renderLines comments) rs

theorem saysLines_nil : source.SaysLines [] [] :=
  .ofText fun _ => rfl

theorem SaysLines.concat {comments : List String} (h : source.SaysLines comments rs) {text : String}
    (h' : source.Carries (Block.ofText text).render qs) :
    source.SaysLines (comments ++ [text]) (rs ++ qs) := by
  have heq : ImportDeclaration.renderLines (comments ++ [text]) = fun w =>
      (Block.ofText text).render (ImportDeclaration.renderLines comments w) := by
    funext w
    rw [ImportDeclaration.renderLines, List.foldl_append]
    rfl
  rw [SaysLines, heq]
  exact Carries.comp h h'

theorem SaysLines.eq_nil (h : source.SaysLines [] rs) : rs = [] :=
  Carries.eq_nil h fun _ => rfl

/-- A binding carries the given comments in front of it and behind it. -/
structure Notes (source : Source) (binding : NamedBinding) (before behind : List Token) : Prop where
  lines : source.SaysLines binding.comments before
  trailing : source.Says binding.trailing behind
  nothing : source.SaysNothing binding.toSource

theorem Notes.carries {binding : NamedBinding} (h : source.Notes binding rs qs) :
    source.Carries (ImportDeclaration.renderBinding binding) (rs ++ qs) := by
  have hline : source.SaysNothing (binding.toSource ++ ",") :=
    h.nothing.append (saysNothing_of_plain (by decide))
  have hcarries := (Carries.comp h.lines (.line hline)).comp (carries_appendComment h.trailing)
  rw [List.append_nil] at hcarries
  exact hcarries

/-- A binding without comments carries none. -/
theorem Notes.eq_nil {binding : NamedBinding} (h : source.Notes binding rs qs)
    (hnone : binding.commented = false) : rs ++ qs = [] := by
  simp only [NamedBinding.commented, Bool.or_eq_false_iff, Bool.not_eq_false',
    List.isEmpty_iff, Option.isSome_eq_false_iff, Option.isNone_iff_eq_none] at hnone
  have hlines := h.lines
  have htrailing := h.trailing
  rw [hnone.1] at hlines
  rw [hnone.2] at htrailing
  rw [hlines.eq_nil, show qs = [] from htrailing, List.nil_append]

/-- The comments of bindings, of which the last one comes first. -/
inductive NotesAll (source : Source) : List NamedBinding → List Token → Prop where
  | nil : NotesAll source [] []
  | cons {binding : NamedBinding} {bindings : List NamedBinding} {rs before behind : List Token}
      (others : NotesAll source bindings rs) (last : source.Notes binding before behind) :
      NotesAll source (binding :: bindings) (rs ++ (before ++ behind))

theorem NotesAll.carries {bindings : List NamedBinding} (h : source.NotesAll bindings rs) :
    source.Carries
      (bindings.reverse.foldl fun w binding => ImportDeclaration.renderBinding binding w) rs := by
  induction h with
  | nil => exact .ofText fun _ => rfl
  | cons others last ih =>
    have := ih.comp last.carries
    simpa only [List.reverse_cons, List.foldl_append, List.foldl_cons, List.foldl_nil] using this

theorem NotesAll.eq_nil {bindings : List NamedBinding} (h : source.NotesAll bindings rs)
    (hnone : ∀ binding ∈ bindings, binding.commented = false) : rs = [] := by
  induction h with
  | nil => rfl
  | cons others last ih =>
    rw [ih fun binding hbinding => hnone binding (List.mem_cons_of_mem _ hbinding),
      last.eq_nil (hnone _ List.mem_cons_self), List.nil_append]

/-- The bindings read from braces so far carry the given comments. -/
def Lists (source : Source) (bindings : Bindings) (rs : List Token) : Prop :=
  ∃ es cs, source.NotesAll bindings.reversed es ∧ source.SaysLines bindings.comments cs ∧
    ∀ r, rs.count r = es.count r + cs.count r

theorem lists_nil : source.Lists {} [] :=
  ⟨[], [], .nil, saysLines_nil, fun _ => rfl⟩

/-- Placing a comment adds it. -/
theorem Lists.remark (hs : source.Sound) {bindings : Bindings} (h : source.Lists bindings rs)
    {token : Token} (holds : source.Holds (.leaf token)) (hcomment : token.is .comment = true) :
    source.Lists (bindings.remark token) (rs ++ [token]) := by
  obtain ⟨es, cs, hes, hcs, hcount⟩ := h
  have hwait : source.Lists
      { bindings with comments := bindings.comments ++ [Attached.trimmed token] }
      (rs ++ [token]) := by
    refine ⟨es, _, hes, hcs.concat (carries_ofText hs holds hcomment), fun r => ?_⟩
    have := hcount r
    simp only [List.count_append]
    omega
  unfold Bindings.remark
  simp only
  split
  · rename_i last others hreversed
    split
    · rename_i hplace
      simp only [Bool.and_eq_true, Option.isNone_iff_eq_none] at hplace
      obtain ⟨⟨⟨-, hnone⟩, hrow⟩, -⟩ := hplace
      rw [hreversed] at hes
      cases hes with
      | @cons _ _ os before behind hothers hlast =>
        have hbehind := hlast.trailing
        rw [hnone] at hbehind
        obtain rfl : behind = [] := hbehind
        have hremarks : token.remarks = [token] := by simp [Token.remarks, hcomment]
        have htext := bears_trimmed_token hs holds (mem_tokens_leaf hcomment) hrow
        rw [hremarks] at htext
        refine ⟨_, cs, .cons hothers ⟨hlast.lines, htext, hlast.nothing⟩, hcs, fun r => ?_⟩
        have := hcount r
        simp only [List.count_append, List.count_nil] at this ⊢
        omega
    · exact hwait
  · exact hwait

theorem comments_binding (source : Source) (tree : Tree) (comments : List String) :
    (Bindings.binding source tree comments).comments = comments := by
  unfold Bindings.binding
  split <;> rfl

/-- A binding that is read from a specifier without comments says what the specifier does. -/
theorem saysNothing_binding (hs : source.Sound) {tree : Tree} {phrase : Phrase}
    (h : source.Holds tree) (hphrase : tree.isPhrase phrase = true) (hne : phrase ≠ .template)
    (hnone : tree.comments = []) (comments : List String) :
    source.SaysNothing (Bindings.binding source tree comments).toSource := by
  have htexts : ∀ text ∈ tree.codeChildren.map source.textOf, source.SaysNothing text := by
    intro text htext
    obtain ⟨child, hchild, rfl⟩ := List.mem_map.1 htext
    have hmem := (List.mem_filter.1 hchild).1
    refine saysNothing_textOf hs (h.child (Tree.isPhrase_of_ne hphrase hne) hmem).1 ?_
    cases tree with
    | leaf => simp [Tree.isPhrase] at hphrase
    | node =>
      rw [Tree.comments_node] at hnone
      exact List.flatMap_eq_nil_iff.1 hnone child hmem
  have htype : ∀ typeOnly : Bool, source.SaysNothing (if typeOnly then "type " else "") := by
    intro typeOnly
    cases typeOnly <;> exact saysNothing_of_plain (by decide)
  have hplain : source.SaysNothing "" := saysNothing_of_plain (by decide)
  have has : source.SaysNothing " as " := saysNothing_of_plain (by decide)
  unfold Bindings.binding
  split
  · rename_i name htexts'
    rw [htexts'] at htexts
    exact ((htype _).append (htexts name (by simp))).append hplain
  · rename_i modifier name htexts'
    rw [htexts'] at htexts
    exact ((htype _).append (htexts name (by simp))).append hplain
  · rename_i name word asName htexts'
    rw [htexts'] at htexts
    exact ((htype _).append (htexts name (by simp))).append (has.append (htexts asName (by simp)))
  · rename_i modifier name word asName htexts'
    rw [htexts'] at htexts
    exact ((htype _).append (htexts name (by simp))).append (has.append (htexts asName (by simp)))
  · exact ((htype _).append hplain).append hplain

/-- The comments among some children. -/
def remarksOf (children : List Tree) : List Token :=
  (children.filter (·.isKind .comment)).flatMap Tree.comments

theorem remarksOf_cons (child : Tree) (children : List Tree) :
    remarksOf (child :: children) =
      if child.isKind .comment then child.comments ++ remarksOf children else remarksOf children := by
  simp only [remarksOf, List.filter_cons]
  split <;> simp

theorem comments_leaf {token : Token} (h : token.is .comment = true) :
    (Tree.leaf token).comments = [token] := by
  have hterminal : token.terminal = .kind .comment := by simpa [Token.is] using h
  simp [Tree.comments, Tree.tokens_leaf, Token.is, hterminal]

/-- Reading one part of the braces adds its comment. -/
theorem Lists.part (hs : source.Sound) {bindings : Bindings} (h : source.Lists bindings rs)
    {tree : Tree} (holds : source.Holds tree)
    (hnone : tree.isPhrase .importSpecifier = true → tree.comments = []) :
    ∃ qs, source.Lists (Bindings.part source bindings tree) qs ∧
      ∀ r, qs.count r = rs.count r + (remarksOf [tree]).count r := by
  have hsame : tree.isKind .comment = false → ∀ r,
      rs.count r = rs.count r + (remarksOf [tree]).count r := by
    intro hkind r
    simp [hkind, remarksOf]
  unfold Bindings.part
  split
  · rename_i extent weight parts
    obtain ⟨es, cs, hes, hcs, hcount⟩ := h
    let specifier := Syntax.Tree.node .importSpecifier extent weight parts
    have hkind : specifier.isPhrase .importSpecifier = true := rfl
    have hnotes : source.Notes (Bindings.binding source specifier bindings.comments) cs [] :=
      { lines := by rwa [comments_binding]
        trailing := by rw [Bindings.trailing_binding]; rfl
        nothing := saysNothing_binding hs holds hkind (by decide) (hnone rfl) _ }
    refine ⟨rs, ⟨_, [], hes.cons hnotes, saysLines_nil, fun r => ?_⟩, hsame rfl⟩
    simpa using hcount r
  · rename_i token
    split
    · rename_i hcomment
      refine ⟨_, h.remark hs holds hcomment, fun r => ?_⟩
      have hkind : (Tree.leaf token).isKind .comment = true := hcomment
      rw [remarksOf_cons, if_pos hkind, comments_leaf hcomment, List.count_append]
      simp [remarksOf]
    · rename_i hcode
      have hkind : (Tree.leaf token).isKind .comment = false := by simpa [Tree.isKind] using hcode
      split
      · exact ⟨rs, h, hsame hkind⟩
      · exact ⟨rs, h, hsame hkind⟩
  · rename_i hspecifier hleaf
    refine ⟨rs, h, hsame ?_⟩
    cases tree with
    | leaf token => exact absurd rfl (hleaf token)
    | node => rfl

/-- Reading the parts of the braces adds their comments. -/
theorem Lists.parts (hs : source.Sound) {bindings : Bindings} (h : source.Lists bindings rs)
    {children : List Tree} (holds : ∀ child ∈ children, source.Holds child)
    (hnone : ∀ child ∈ children, child.isPhrase .importSpecifier = true → child.comments = []) :
    ∃ qs, source.Lists (children.foldl (Bindings.part source) bindings) qs ∧
      ∀ r, qs.count r = rs.count r + (remarksOf children).count r := by
  induction children generalizing bindings rs with
  | nil => exact ⟨rs, h, fun _ => rfl⟩
  | cons child children ih =>
    obtain ⟨ps, hpart, hcount⟩ :=
      h.part hs (holds child List.mem_cons_self) (hnone child List.mem_cons_self)
    obtain ⟨qs, hparts, hcount'⟩ :=
      ih hpart (fun other hother => holds other (List.mem_cons_of_mem _ hother))
        fun other hother => hnone other (List.mem_cons_of_mem _ hother)
    refine ⟨qs, hparts, fun r => ?_⟩
    have hall : remarksOf (child :: children) = remarksOf [child] ++ remarksOf children := by
      rw [remarksOf_cons, remarksOf_cons]
      split <;> simp [remarksOf]
    rw [hcount' r, hcount r, hall, List.count_append, Nat.add_assoc]

/-! ### Declarations -/

/-- An import that is being read: its bindings carry the given comments, and the texts in it none. It is
not kept as a block. -/
structure Reading (source : Source) (declaration : ImportDeclaration) (rs : List Token) : Prop where
  specifier : source.SaysNothing declaration.specifier
  default : ∀ name ∈ declaration.default, source.SaysNothing name
  space : ∀ name ∈ declaration.namespaceName, source.SaysNothing name
  attributes : ∀ text ∈ declaration.attributes, source.SaysNothing text
  lists : ∃ es cs, source.NotesAll declaration.named.reverse es ∧
    source.SaysLines declaration.braceComments cs ∧ ∀ r, rs.count r = es.count r + cs.count r
  verbatim : declaration.verbatim = none

section

variable (hs : source.Sound)
include hs

/-- The name in a phrase bears no comments. -/
theorem saysNothing_name? {tree : Tree} (h : source.Holds tree) {phrase : Phrase}
    (hphrase : tree.isPhrase phrase = true) (hne : phrase ≠ .template) :
    ∀ name ∈ tree.name?.map (·.text), source.SaysNothing name := by
  intro name hname
  obtain ⟨token, htoken, rfl⟩ := Option.map_eq_some_iff.1 hname
  obtain ⟨child, hchild, hword⟩ := List.exists_of_findSome?_eq_some htoken
  cases child with
  | node => cases hword
  | leaf other =>
    simp only at hword
    split at hword
    · rename_i hkind
      obtain rfl := Option.some.inj hword
      refine saysNothing_token hs h (h.mem_tokens_of_leaf hphrase hne hchild) ?_
      have hterminal : other.terminal = .kind .word := by simpa [Token.is] using hkind
      simp [Token.is, hterminal]
    · cases hword

/-- Reading a part of a clause other than names in braces adds no comments. -/
theorem Reading.clausePart {declaration : ImportDeclaration} (h : source.Reading declaration rs)
    {tree : Tree} (holds : source.Holds tree) (hnamed : tree.isPhrase .namedImports = false) :
    source.Reading (declaration.addClausePart source tree) rs := by
  unfold ImportDeclaration.addClausePart
  split
  · rename_i token
    split
    · rename_i hname
      refine { h with default := ?_ }
      rintro _ ⟨⟩
      have hterminal : token.terminal = .kind .word ∨ token.terminal = .spelled "type".toList := by
        simpa [Token.is, Tree.isSpelled] using hname
      have hmem : token ∈ (Tree.leaf token).tokens := by
        rcases hterminal with hterminal | hterminal <;>
          simp [Tree.tokens_leaf, Token.is, hterminal]
      refine saysNothing_token hs holds hmem ?_
      rcases hterminal with hterminal | hterminal <;> simp [Token.is, hterminal]
    · exact h
  · rename_i extent weight parts
    have hkind : (Syntax.Tree.node .namespaceImport extent weight parts).isPhrase .namespaceImport =
      true := rfl
    exact { h with space := saysNothing_name? hs holds hkind (by decide) }
  · simp [Tree.isPhrase] at hnamed
  · exact h

/-- Reading names in braces adds the comments among them. -/
theorem Reading.named {declaration : ImportDeclaration} (h : source.Reading declaration [])
    {tree : Tree} (holds : source.Holds tree) (hphrase : tree.isPhrase .namedImports = true)
    (hnone : ∀ child ∈ tree.children, child.isPhrase .importSpecifier = true →
      child.comments = []) :
    ∃ qs, source.Reading (declaration.addClausePart source tree) qs ∧
      ∀ r, qs.count r = (remarksOf tree.children).count r := by
  obtain ⟨qs, hlists, hcount⟩ := lists_nil.parts hs
    (fun child hchild => (holds.child (Tree.isPhrase_of_ne hphrase (by decide)) hchild).1) hnone
  cases tree with
  | leaf => simp [Tree.isPhrase] at hphrase
  | node kind extent weight parts =>
    obtain rfl : kind = .namedImports := by simpa [Tree.isPhrase] using hphrase
    refine ⟨qs, { h with lists := ?_ }, by simpa using hcount⟩
    simpa [Lists, ImportDeclaration.addClausePart] using hlists

theorem Reading.clauseParts {declaration : ImportDeclaration} (h : source.Reading declaration rs)
    {children : List Tree} (holds : ∀ child ∈ children, source.Holds child)
    (hnamed : ∀ child ∈ children, child.isPhrase .namedImports = false) :
    source.Reading (children.foldl (ImportDeclaration.addClausePart source) declaration) rs := by
  refine List.foldlRecOn (motive := fun declaration => source.Reading declaration rs) _ _ h ?_
  exact fun declaration hdeclaration child hchild =>
    hdeclaration.clausePart hs (holds child hchild) (hnamed child hchild)

/-- Reading a part of an import other than its clause adds no comments. -/
theorem Reading.part {declaration : ImportDeclaration} (h : source.Reading declaration rs)
    {tree : Tree} (holds : source.Holds tree) (hclause : tree.isPhrase .importClause = false)
    (hnone : tree.isPhrase .importAttributes = true → tree.comments = []) :
    source.Reading (declaration.addPart source tree) rs := by
  unfold ImportDeclaration.addPart
  split
  · split
    · exact { h with }
    · exact h
  · simp [Tree.isPhrase] at hclause
  · rename_i extent weight parts
    have hkind : (Syntax.Tree.node .requireClause extent weight parts).isPhrase .requireClause =
      true := rfl
    exact { h with default := saysNothing_name? hs holds hkind (by decide) }
  · refine { h with attributes := ?_ }
    rintro _ ⟨⟩
    exact saysNothing_textOf hs holds (hnone rfl)
  · exact h

theorem Reading.foldl_parts {declaration : ImportDeclaration} (h : source.Reading declaration rs)
    {children : List Tree} (holds : ∀ child ∈ children, source.Holds child)
    (hclause : ∀ child ∈ children, child.isPhrase .importClause = false)
    (hnone : ∀ child ∈ children, child.isPhrase .importAttributes = true → child.comments = []) :
    source.Reading (children.foldl (ImportDeclaration.addPart source) declaration) rs := by
  refine List.foldlRecOn (motive := fun declaration => source.Reading declaration rs) _ _ h ?_
  exact fun declaration hdeclaration child hchild =>
    hdeclaration.part hs (holds child hchild) (hclause child hchild) (hnone child hchild)

end

/-- A list has no element with a property, or one only, if it has at most one. -/
theorem find?_of_length_filter_le_one {α : Type} {p : α → Bool} {list : List α}
    (h : (list.filter p).length ≤ 1) :
    (list.find? p = none ∧ ∀ a ∈ list, p a = false) ∨
      ∃ before a behind, list = before ++ a :: behind ∧ list.find? p = some a ∧ p a = true ∧
        (∀ b ∈ before, p b = false) ∧ ∀ b ∈ behind, p b = false := by
  cases hfind : list.find? p with
  | none => exact .inl ⟨rfl, fun a ha => by simpa using List.find?_eq_none.1 hfind a ha⟩
  | some a =>
    obtain ⟨ha, before, behind, rfl, hbefore⟩ := List.find?_eq_some_iff_append.1 hfind
    refine .inr ⟨before, a, behind, rfl, rfl, ha, fun b hb => by simpa using hbefore b hb, ?_⟩
    have hnone : behind.filter p = [] := by
      rw [List.filter_append, List.filter_cons_of_pos ha, List.length_append,
        List.length_cons] at h
      exact List.length_eq_zero_iff.1 (by omega)
    exact fun b hb => by simpa using List.filter_eq_nil_iff.1 hnone b hb

/-- The children of the names in braces in a clause. -/
def namesIn (clause : Tree) : List Tree :=
  ((clause.child? .namedImports).map (·.children)).getD []

/-- The children of the names in braces in an import. -/
def namesOf (tree : Tree) : List Tree :=
  ((tree.child? .importClause).map namesIn).getD []

section

variable (hs : source.Sound)
include hs

/-- Reading a clause adds the comments among the names in braces. -/
theorem Reading.clause {declaration : ImportDeclaration} (h : source.Reading declaration [])
    {clause : Tree} (holds : source.Holds clause) (derived : clause.Derived typeScriptAutomaton)
    (hphrase : clause.isPhrase .importClause = true)
    (hnone : ∀ child ∈ namesIn clause, child.isPhrase .importSpecifier = true →
      child.comments = []) :
    ∃ qs, source.Reading
        (clause.children.foldl (ImportDeclaration.addClausePart source) declaration) qs ∧
      ∀ r, qs.count r = (remarksOf (namesIn clause)).count r := by
  have hholds : ∀ child ∈ clause.children, source.Holds child := fun child hchild =>
    (holds.child (Tree.isPhrase_of_ne hphrase (by decide)) hchild).1
  have hone := derived.filter_children marksPhrases_typeScript.keepsPhrases
    ordersParts_typeScript.forward ordersParts_typeScript.names hphrase
  rcases find?_of_length_filter_le_one hone with ⟨hfind, hnamed⟩ | ⟨before, named, behind,
    hchildren, hfind, hnamed, hbefore, hbehind⟩
  · refine ⟨[], h.clauseParts hs hholds hnamed, fun r => ?_⟩
    rw [namesIn, Tree.child?, hfind]
    rfl
  · have hnames : namesIn clause = named.children := by
      rw [namesIn, Tree.child?, hfind]
      rfl
    rw [hnames] at hnone ⊢
    rw [hchildren] at hholds ⊢
    rw [List.foldl_append, List.foldl_cons]
    have hfront := h.clauseParts hs (fun child hchild => hholds child (by simp [hchild])) hbefore
    obtain ⟨qs, hread, hcount⟩ := hfront.named hs (hholds named (by simp)) hnamed hnone
    exact ⟨qs, hread.clauseParts hs (fun child hchild => hholds child (by simp [hchild])) hbehind,
      hcount⟩

/-- Reading an import to its end adds the comments among the names in braces. -/
theorem Reading.statement {declaration : ImportDeclaration} (h : source.Reading declaration [])
    {tree : Tree} (holds : source.Holds tree) (derived : tree.Derived typeScriptAutomaton)
    (hphrase : tree.isPhrase .importStatement = true)
    (hreadable : ImportDeclaration.isReadable tree = true)
    (hattributes : ∀ child ∈ tree.children, child.isPhrase .importAttributes = true →
      child.comments = [])
    (hnone : ∀ child ∈ namesOf tree, child.isPhrase .importSpecifier = true →
      child.comments = []) :
    ∃ qs, source.Reading (tree.children.foldl (ImportDeclaration.addPart source) declaration) qs ∧
      ∀ r, qs.count r = (remarksOf (namesOf tree)).count r := by
  have hholds := fun child (hchild : child ∈ tree.children) =>
    holds.child (Tree.isPhrase_of_ne hphrase (by decide)) hchild
  have hone := derived.filter_children marksPhrases_typeScript.keepsPhrases
    ordersParts_typeScript.forward ordersParts_typeScript.clause hphrase
  rcases find?_of_length_filter_le_one hone with ⟨hfind, hclause⟩ | ⟨before, clause, behind,
    hchildren, hfind, hclause, hbefore, hbehind⟩
  · refine ⟨[], h.foldl_parts hs (fun child hchild => (hholds child hchild).1) hclause hattributes,
      fun r => ?_⟩
    rw [namesOf, Tree.child?, hfind]
    rfl
  · have hnames : namesOf tree = namesIn clause := by
      rw [namesOf, Tree.child?, hfind]
      rfl
    have hwhole : clause.children.takeWhile (!ImportDeclaration.interrupts ·) =
        clause.children := by
      rw [ImportDeclaration.isReadable, Tree.child?, hfind] at hreadable
      refine List.takeWhile_eq_self_iff.2 fun child hchild => ?_
      simpa using (by simpa using hreadable : ∀ child ∈ clause.children,
        ImportDeclaration.interrupts child = false) child hchild
    have hpart : ∀ declaration : ImportDeclaration, declaration.addPart source clause =
        clause.children.foldl (ImportDeclaration.addClausePart source) declaration := by
      intro declaration
      cases clause with
      | leaf => simp [Tree.isPhrase] at hclause
      | node kind extent weight parts =>
        obtain rfl : kind = .importClause := by simpa [Tree.isPhrase] using hclause
        rw [ImportDeclaration.addPart, hwhole]
    rw [hnames] at hnone ⊢
    rw [hchildren] at hholds hattributes ⊢
    rw [List.foldl_append, List.foldl_cons, hpart]
    obtain ⟨hclauseHolds, hclauseDerived, -⟩ := hholds clause (by simp)
    have hfront := h.foldl_parts hs (fun child hchild => (hholds child (by simp [hchild])).1) hbefore
      fun child hchild => hattributes child (by simp [hchild])
    obtain ⟨qs, hread, hcount⟩ := hfront.clause hs hclauseHolds hclauseDerived hclause hnone
    exact ⟨qs, hread.foldl_parts hs (fun child hchild => (hholds child (by simp [hchild])).1)
      hbehind fun child hchild => hattributes child (by simp [hchild]), hcount⟩

end

/-! ### Rendering -/

section

variable {declaration : ImportDeclaration}

theorem Reading.quoted (h : source.Reading declaration rs) (style : Style) :
    source.SaysNothing (declaration.quoted style) := by
  have hquote : source.SaysNothing
      (String.singleton (style.quote.forText declaration.specifier)) := by
    refine saysNothing_of_plain ?_
    unfold Quote.forText
    cases style.quote <;> split <;> decide
  exact (hquote.append h.specifier).append hquote

theorem Reading.tail (h : source.Reading declaration rs) (style : Style) :
    source.SaysNothing (declaration.tail style) := by
  refine ((h.quoted style).append ?_).append (saysNothing_of_plain (by decide))
  cases hattributes : declaration.attributes with
  | none => exact saysNothing_of_plain (by decide)
  | some text =>
    exact (saysNothing_of_plain (by decide)).append (h.attributes text hattributes)

theorem saysNothing_typeKeyword (declaration : ImportDeclaration) :
    source.SaysNothing declaration.typeKeyword := by
  unfold ImportDeclaration.typeKeyword
  split <;> exact saysNothing_of_plain (by decide)

theorem Reading.head (h : source.Reading declaration rs) :
    ∀ text ∈ declaration.head, source.SaysNothing text := by
  intro text htext
  rw [ImportDeclaration.head, List.mem_append] at htext
  rcases htext with htext | htext
  · exact h.default text (by simpa using htext)
  · obtain ⟨name, hname, rfl⟩ := Option.map_eq_some_iff.1 (Option.mem_toList.1 htext)
    exact (saysNothing_of_plain (by decide)).append (h.space name hname)

theorem saysNothing_intercalate {separator : String} (hplain : '/' ∉ separator.toList)
    {texts : List String} (h : ∀ text ∈ texts, source.SaysNothing text) :
    source.SaysNothing (separator.intercalate texts) := by
  have hall : source.SaysAll texts [] := by
    induction texts with
    | nil => exact .nil
    | cons text texts ih =>
      exact .cons (h text List.mem_cons_self)
        (ih fun other hother => h other (List.mem_cons_of_mem _ hother))
  exact hall.intercalate hplain

theorem saysNothing_join {texts : List String} (h : ∀ text ∈ texts, source.SaysNothing text) :
    source.SaysNothing (String.join texts) := by
  rw [String.join]
  refine List.foldlRecOn (motive := fun text => source.SaysNothing text) _ _
    (saysNothing_of_plain (by decide)) ?_
  exact fun front hfront text htext => hfront.append (h text htext)

theorem NotesAll.nothing {bindings : List NamedBinding} (h : source.NotesAll bindings rs) :
    ∀ binding ∈ bindings, source.SaysNothing binding.toSource := by
  induction h with
  | nil => simp
  | cons others last ih =>
    intro binding hbinding
    rcases List.mem_cons.1 hbinding with rfl | hbinding
    · exact last.nothing
    · exact ih binding hbinding

theorem Reading.oneLine (h : source.Reading declaration rs) (style : Style) :
    source.SaysNothing (declaration.oneLine style) := by
  obtain ⟨es, cs, hes, -, -⟩ := h.lists
  have hcomma : '/' ∉ ", ".toList := by decide
  have hnames : source.SaysNothing (", ".intercalate (declaration.named.map (·.toSource))) := by
    refine saysNothing_intercalate hcomma fun text htext => ?_
    obtain ⟨binding, hbinding, rfl⟩ := List.mem_map.1 htext
    exact hes.nothing binding (List.mem_reverse.2 hbinding)
  have hclause : source.SaysNothing (", ".intercalate (declaration.head ++
      if (declaration.named.map (·.toSource)).isEmpty then []
      else ["\x7b " ++ ", ".intercalate (declaration.named.map (·.toSource)) ++ " \x7d"])) := by
    refine saysNothing_intercalate hcomma fun text htext => ?_
    rcases List.mem_append.1 htext with htext | htext
    · exact h.head text htext
    · split at htext
      · simp at htext
      · obtain rfl := List.mem_singleton.1 htext
        exact ((saysNothing_of_plain (by decide)).append hnames).append
          (saysNothing_of_plain (by decide))
  exact ((((saysNothing_of_plain (by decide)).append (saysNothing_typeKeyword declaration)).append
    hclause).append (saysNothing_of_plain (by decide))).append (h.tail style)

theorem Reading.carries_broken (h : source.Reading declaration rs) (style : Style) :
    ∃ qs, source.Carries (declaration.renderBroken style) qs ∧ ∀ r, qs.count r = rs.count r := by
  obtain ⟨es, cs, hes, hcs, hcount⟩ := h.lists
  have hhead : source.SaysNothing (String.join (declaration.head.map (· ++ ", "))) := by
    refine saysNothing_join fun text htext => ?_
    obtain ⟨name, hname, rfl⟩ := List.mem_map.1 htext
    exact (h.head name hname).append (saysNothing_of_plain (by decide))
  have hopening : source.SaysNothing ("import " ++ declaration.typeKeyword ++
      String.join (declaration.head.map (· ++ ", ")) ++ "\x7b") :=
    (((saysNothing_of_plain (by decide)).append (saysNothing_typeKeyword declaration)).append
      hhead).append (saysNothing_of_plain (by decide))
  have hclosing : source.SaysNothing ("\x7d from " ++ declaration.tail style) :=
    (saysNothing_of_plain (by decide)).append (h.tail style)
  have hnames := hes.carries
  rw [List.reverse_reverse] at hnames
  have hall := ((((Carries.line hopening).comp .deeper).comp hnames).comp hcs).comp
    (Carries.shallower.comp (.line hclosing))
  exact ⟨_, hall, fun r => by simpa using (hcount r).symm⟩

/-- A declaration without comments carries none. -/
theorem Reading.eq_nil (h : source.Reading declaration rs) (hnone : declaration.commented = false)
    (r : Token) : rs.count r = 0 := by
  obtain ⟨es, cs, hes, hcs, hcount⟩ := h.lists
  simp only [ImportDeclaration.commented, Bool.or_eq_false_iff, Bool.not_eq_false',
    List.isEmpty_iff, List.any_eq_false, Bool.not_eq_true] at hnone
  rw [hnone.1] at hcs
  rw [hcount r, hcs.eq_nil,
    hes.eq_nil fun binding hbinding => hnone.2 binding (List.mem_reverse.1 hbinding)]
  rfl

/-- An import that is written out carries the comments in its braces, if it has any. -/
theorem Reading.carries_render (h : source.Reading declaration rs) (style : Style) :
    ∃ qs, source.Carries (declaration.render style) qs ∧
      ∀ r, qs.count r = if declaration.bare then 0 else rs.count r := by
  have hline : ∀ {text : String}, source.SaysNothing text →
      source.Carries (fun w => w.line text) [] := fun htext => .line htext
  have hbare : declaration.bare = true → ∀ r,
      ([] : List Token).count r = if declaration.bare then 0 else rs.count r :=
    fun hbare r => by simp [hbare]
  unfold ImportDeclaration.render
  simp only [h.verbatim]
  split
  · rename_i hrequire
    refine ⟨[], hline ?_, hbare (by simp [ImportDeclaration.bare, hrequire])⟩
    have hdefault : source.SaysNothing (declaration.default.getD "") := by
      cases hname : declaration.default with
      | none => exact saysNothing_of_plain (by decide)
      | some name => exact h.default name hname
    exact (((((saysNothing_of_plain (by decide)).append (saysNothing_typeKeyword declaration)).append
      hdefault).append (saysNothing_of_plain (by decide))).append (h.quoted style)).append
        (saysNothing_of_plain (by decide))
  · rename_i hrequire
    split
    · rename_i hempty
      refine ⟨[], hline ((saysNothing_of_plain (by decide)).append (h.tail style)), hbare ?_⟩
      simp only [ImportDeclaration.bare, hempty, Bool.or_true]
    · rename_i hempty
      have hwritten : declaration.bare = false := by
        simp only [ImportDeclaration.bare, Bool.eq_false_iff.2 hrequire, Bool.eq_false_iff.2 hempty,
          Bool.or_false]
      simp only [hwritten, Bool.false_eq_true, if_false]
      obtain ⟨qs, hbroken, hcount⟩ := h.carries_broken style
      cases hcommented : declaration.commented with
      | true => exact ⟨qs, by simpa using hbroken, hcount⟩
      | false =>
        -- Without comments it does not matter whether the import fits on one line.
        have hnone := h.eq_nil hcommented
        obtain rfl : qs = [] := List.eq_nil_iff_forall_not_mem.2 fun r hr => by
          have := List.count_pos_iff.2 hr
          rw [hcount r, hnone r] at this
          contradiction
        refine ⟨[], fun w os hw => ?_, hcount⟩
        beta_reduce
        split
        · exact hline (h.oneLine style) w os hw
        · exact hbroken w os hw

end

end Source

end CodeSplice
