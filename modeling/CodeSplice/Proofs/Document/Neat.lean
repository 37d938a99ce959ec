/-
Module: CodeSplice.Proofs.Document.Neat
Purpose: The shape of a rendered document. If what a document keeps of its source is neat, all of its
  rendering is tidy: empty lines are wanted by entries, by comments, between imports and what follows
  them and inside blocks, but never meet, and braces enclose tidy rows. Exactly one empty row stands
  between an import and the item behind it that is none.
Main exports: Document.Neat, fills_renderEntries, renderBraced_rows, ImportDeclaration.fills_render,
  Document.render_tidy, Document.render_apart
-/
import CodeSplice.Document.Basic
import CodeSplice.Proofs.Layout.Tidy

namespace CodeSplice

open Layout Text

/-! ### Texts in one row -/

/-- A text without a line feed. -/
def Flat (text : String) : Prop :=
  '\n' ∉ text.toList

instance (text : String) : Decidable (Flat text) :=
  inferInstanceAs (Decidable ('\n' ∉ text.toList))

theorem flat_append {text other : String} : Flat (text ++ other) ↔ Flat text ∧ Flat other := by
  simp [Flat]

theorem flat_join {texts : List String} (h : ∀ text ∈ texts, Flat text) :
    Flat (String.join texts) := by
  unfold Flat
  rw [String.toList_join, List.mem_flatMap]
  rintro ⟨text, htext, hmem⟩
  exact h text htext hmem

theorem flat_intercalate {separator : String} (hseparator : Flat separator) {texts : List String}
    (h : ∀ text ∈ texts, Flat text) : Flat (separator.intercalate texts) := by
  induction texts with
  | nil => simp [Flat]
  | cons text texts ih =>
    have htext := h text (by simp)
    have hrest := ih fun other hother => h other (by simp [hother])
    by_cases hnil : texts = []
    · simpa [hnil] using htext
    · rw [String.intercalate_cons_of_ne_nil hnil]
      exact flat_append.2 ⟨flat_append.2 ⟨htext, hseparator⟩, hrest⟩

/-- A text that does not begin with white space of an indentation. -/
def Bare (text : String) : Prop :=
  ∃ c rest, text.toList = c :: rest ∧ isBlank c = false

theorem Bare.append {text : String} (h : Bare text) (other : String) : Bare (text ++ other) := by
  obtain ⟨c, rest, heq, hc⟩ := h
  exact ⟨c, rest ++ other.toList, by rw [String.toList_append, heq, List.cons_append], hc⟩

theorem Bare.tab_not_mem_lead {text : String} (h : Bare text) : '\t' ∉ lead text.toList := by
  obtain ⟨c, rest, heq, hc⟩ := h
  simp [lead, heq, hc]

theorem bare_import : Bare "import " :=
  ⟨'i', "mport ".toList, by decide, by decide⟩

theorem bare_brace : Bare "\x7d from " :=
  ⟨'\x7d', " from ".toList, by decide, by decide⟩

/-- A text that can stand at the end of a row. -/
structure RowEnd (text : String) : Prop where
  flat : Flat text
  visible : endsVisibly text.toList = true

/-- A text that is written behind something else: a comment, if there is one. -/
def EndsRow (comment : Option String) : Prop :=
  ∀ text, comment = some text → RowEnd text

/-- A block that is neat and not empty. -/
structure Layout.Block.Shown (keeps : List Char → Prop) (block : Block) : Prop where
  neat : block.Neat keeps
  some_line : block.isEmpty = false

theorem Layout.Block.Shown.fills {keeps : List Char → Prop} {block : Block}
    (h : block.Shown keeps) : Fills keeps block.render :=
  h.neat.fills_render h.some_line

section

variable {keeps : List Char → Prop} {step next : Writer → Writer}

/-! ### Comments -/

/-- What is separated from a step above it goes on below with an empty row or without one. -/
theorem Layout.Fills.separate (h : Fills keeps step) (h' : Fills keeps next) (wanted : Bool) :
    Fills keeps fun w => next (separate (step w) true wanted) := by
  cases wanted with
  | false => exact h.comp h'
  | true => exact h.below h'

theorem fills_appendComment (h : Fills keeps step) {comment : Option String}
    (hcomment : EndsRow comment) : Fills keeps fun w => appendComment (step w) comment := by
  cases comment with
  | none => exact h
  | some text =>
    obtain ⟨hflat, hvisible⟩ := hcomment text rfl
    refine h.extendLast ?_ ?_
    · rw [String.toList_append, List.mem_append, not_or]
      exact ⟨by decide, hflat⟩
    · rw [String.toList_append]
      exact endsVisibly_append _ hvisible

/-- Comments below a step. -/
theorem fills_renderComments (h : Fills keeps step) (forced : Bool) {comments : List Comment}
    (hcomments : ∀ comment ∈ comments, comment.text.Shown keeps) :
    Fills keeps fun w => renderComments (step w) true forced comments := by
  induction comments generalizing step forced with
  | nil => exact h
  | cons comment comments ih =>
    have hfirst := hcomments comment (by simp)
    exact ih (h.separate hfirst.fills _) false fun other hother => hcomments other (by simp [hother])

/-! ### Entries -/

section

variable {α : Type} {good : α → Prop} {node : α → Writer → Writer} {apart : α → α → Bool}
  {entry : Entry α} {entries : List (Entry α)}

/-- An entry that is neat, with a node that has the given property. -/
structure Entry.Neat (keeps : List Char → Prop) (good : α → Prop) (entry : Entry α) : Prop where
  comments : ∀ comment ∈ entry.comments, comment.text.Shown keeps
  node : good entry.node
  trailing : EndsRow entry.trailing

/-- What stands above an entry matters only to the blank line in front of it. -/
theorem renderEntry_eq (w : Writer) (below forced : Bool) (entry : Entry α) :
    renderEntry node w below forced entry =
      renderEntry node (separate w below (entry.leadingBlank || forced)) false false entry := by
  obtain ⟨comments, blankBefore, inner, trailing⟩ := entry
  cases comments <;> simp [renderEntry, renderComments, Entry.leadingBlank, separate]

variable (hnode : ∀ a, good a → Fills keeps (node a))

include hnode

/-- An entry is written below an empty row, if something stands above it and a blank line is wanted in
front of it or forced. Nothing else depends on what stands above it. -/
theorem Entry.Neat.exists_own (h : entry.Neat keeps good) :
    ∃ own, Fills keeps own ∧ ∀ w below forced, renderEntry node w below forced entry =
      own (separate w below (entry.leadingBlank || forced)) := by
  refine ⟨fun w => renderEntry node w false false entry, ?_, fun w below forced =>
    renderEntry_eq w below forced entry⟩
  obtain ⟨comments, blankBefore, inner, trailing⟩ := entry
  obtain ⟨hcomments, hinner, htrailing⟩ := h
  cases comments with
  | nil => exact fills_appendComment (hnode _ hinner) htrailing
  | cons comment comments =>
    have hfirst := (hcomments comment (by simp)).fills
    have habove := fills_renderComments hfirst false fun other hother =>
      hcomments other (List.mem_cons_of_mem comment hother)
    simpa [renderEntry, renderComments, separate] using
      fills_appendComment (habove.separate (hnode _ hinner) blankBefore) htrailing

/-- Entries below a step. -/
theorem fills_renderAfter (apart : α → α → Bool) (h : Fills keeps step) (previous : α)
    (hentries : ∀ entry ∈ entries, entry.Neat keeps good) :
    Fills keeps fun w => renderAfter apart node (step w) (some previous) entries := by
  induction entries generalizing step previous with
  | nil => exact h
  | cons entry entries ih =>
    obtain ⟨own, hown, heq⟩ := (hentries entry (by simp)).exists_own hnode
    simp only [renderAfter, heq]
    exact ih (h.separate hown _) _ fun other hother => hentries other (by simp [hother])

/-- The first entry of a container, and those behind it. -/
theorem fills_renderAfter_none (apart : α → α → Bool) (hne : entries ≠ [])
    (hentries : ∀ entry ∈ entries, entry.Neat keeps good) :
    Fills keeps fun w => renderAfter apart node w none entries := by
  cases entries with
  | nil => exact absurd rfl hne
  | cons entry entries =>
    obtain ⟨own, hown, heq⟩ := (hentries entry (by simp)).exists_own hnode
    simp only [renderAfter, heq]
    exact fills_renderAfter hnode apart hown _ fun other hother => hentries other (by simp [hother])

/-- A container in which something stands is written in tidy rows. -/
theorem fills_renderEntries (apart : α → α → Bool) {dangling : List Comment}
    (hne : (entries.isEmpty && dangling.isEmpty) = false)
    (hentries : ∀ entry ∈ entries, entry.Neat keeps good)
    (hdangling : ∀ comment ∈ dangling, comment.text.Shown keeps) :
    Fills keeps (renderEntries apart node entries dangling) := by
  cases entries with
  | cons entry entries =>
    exact fills_renderComments (fills_renderAfter_none hnode apart (List.cons_ne_nil _ _) hentries) false
      hdangling
  | nil =>
    cases dangling with
    | nil => cases hne
    | cons comment dangling =>
      have hfirst := (hdangling comment (by simp)).fills
      exact fills_renderComments hfirst false fun other hother => hdangling other (by simp [hother])

omit hnode in
theorem renderAfter_append (w : Writer) (previous : Option α) (front back : List (Entry α)) :
    renderAfter apart node w previous (front ++ back) =
      renderAfter apart node (renderAfter apart node w previous front)
        ((front.getLast?.map (·.node)).or previous) back := by
  induction front generalizing w previous with
  | nil => rfl
  | cons entry front ih =>
    simp only [List.cons_append, renderAfter, ih]
    cases hlast : front.getLast? with
    | none => simp [List.getLast?_cons, hlast]
    | some last => simp [List.getLast?_cons, hlast]

end

/-! ### Braces -/

/-- A head with its brace, in tidy rows. -/
theorem fills_opening {head : Block} (hhead : head.Neat keeps) {comment : Option String}
    (hcomment : EndsRow comment) (hollow : Bool) :
    Fills keeps fun w =>
      appendComment (head.renderOpen (if hollow then " \x7b\x7d" else " \x7b") w) comment := by
  refine fills_appendComment ?_ hcomment
  cases hollow with
  | true =>
    exact hhead.fills_renderOpen (by decide) (by decide) (.line (by decide) (by decide) (by decide))
  | false =>
    exact hhead.fills_renderOpen (by decide) (by decide) (.line (by decide) (by decide) (by decide))

theorem fills_renderBraced {head : Block} (hhead : head.Neat keeps) {comment : Option String}
    (hcomment : EndsRow comment) {hollow : Bool} {body : Writer → Writer}
    (hbody : hollow = false → Fills keeps body) :
    Fills keeps (renderBraced head comment hollow body) := by
  have hopening := fills_opening hhead hcomment hollow
  cases hollow with
  | true => exact hopening
  | false =>
    have hclose : Fills keeps (·.line "\x7d") := .line (by decide) (by decide) (by decide)
    exact (hopening.comp (hbody rfl).within).comp hclose

/-- Between braces stand tidy rows: no empty row behind the opening brace, with the comment that stands
there, or in front of the closing one. -/
theorem renderBraced_rows {head : Block} (hhead : head.Neat keeps) {comment : Option String}
    (hcomment : EndsRow comment) {body : Writer → Writer} (hbody : Fills keeps body) (w : Writer) :
    ∃ opening inner margin, opening ≠ [] ∧ Tidy keeps opening ∧ inner ≠ [] ∧ Tidy keeps inner ∧
      (appendComment (head.renderOpen " \x7b" w) comment).text.toList =
        w.text.toList ++ textOfRows opening ∧
      (renderBraced head comment false body w).text.toList =
        w.text.toList ++ textOfRows (opening ++ inner ++ [.plain (margin ++ ['\x7d'])]) ∧
      White margin := by
  obtain ⟨opening, hne, htidy, htext⟩ := fills_opening hhead hcomment false w
  simp only [Bool.false_eq_true, if_false] at htext
  let opened := appendComment (head.renderOpen " \x7b" w) comment
  obtain ⟨inner, hne', htidy', htext'⟩ := hbody.within opened
  refine ⟨opening, inner, (body opened.deeper).shallower.margin.toList, hne, htidy, hne', htidy',
    htext, ?_, white_spaces _⟩
  have hclosed : (renderBraced head comment false body w).text.toList =
      (body opened.deeper).shallower.text.toList ++
        ((body opened.deeper).shallower.margin.toList ++ ['\x7d', '\n']) := by
    simp [renderBraced, Writer.line, Writer.raw, opened]
  rw [hclosed, htext', htext]
  simp [Row.text]

/-! ### Classes -/

/-- A method whose blocks are neat. -/
structure Method.Neat (keeps : List Char → Prop) (method : Method) : Prop where
  head : method.head.Neat keeps
  braceComment : EndsRow method.braceComment
  body : method.body.Neat keeps

theorem Method.Neat.fills_render {method : Method} (h : method.Neat keeps) :
    Fills keeps method.render :=
  fills_renderBraced h.head h.braceComment h.body.fills_render

/-- A constructor whose blocks are neat. -/
structure Constructor.Neat (keeps : List Char → Prop) (constructor : Constructor) : Prop where
  head : constructor.head.Neat keeps
  braceComment : EndsRow constructor.braceComment
  statements : ∀ entry ∈ constructor.statements, entry.Neat keeps (·.text.Shown keeps)
  dangling : ∀ comment ∈ constructor.dangling, comment.text.Shown keeps

theorem Constructor.Neat.fills_render {constructor : Constructor} (h : constructor.Neat keeps) :
    Fills keeps constructor.render :=
  fills_renderBraced h.head h.braceComment fun hne =>
    fills_renderEntries (fun _ hstatement => hstatement.fills) _ hne h.statements h.dangling

/-- A member whose blocks are neat. -/
def Member.Neat (keeps : List Char → Prop) : Member → Prop
  | constructor c => c.Neat keeps
  | method m => m.Neat keeps
  | other block => block.Shown keeps

theorem Member.Neat.fills_render {member : Member} (h : member.Neat keeps) :
    Fills keeps member.render := by
  cases member with
  | constructor c => exact Constructor.Neat.fills_render h
  | method m => exact Method.Neat.fills_render h
  | other block => exact h.fills

/-- A class whose blocks are neat. -/
structure ClassDeclaration.Neat (keeps : List Char → Prop) (declaration : ClassDeclaration) :
    Prop where
  header : declaration.header.Neat keeps
  braceComment : EndsRow declaration.braceComment
  members : ∀ entry ∈ declaration.members, entry.Neat keeps (Member.Neat keeps)
  dangling : ∀ comment ∈ declaration.dangling, comment.text.Shown keeps

theorem ClassDeclaration.Neat.fills_render {declaration : ClassDeclaration}
    (h : declaration.Neat keeps) : Fills keeps declaration.render :=
  fills_renderBraced h.header h.braceComment fun hne =>
    fills_renderEntries (fun _ hmember => hmember.fills_render) _ hne h.members h.dangling

/-! ### Imports -/

/-- A binding whose names are in one row. -/
structure NamedBinding.Plain (binding : NamedBinding) : Prop where
  name : Flat binding.name
  asName : ∀ name ∈ binding.asName, Flat name
  untabbed : '\t' ∉ lead binding.name.toList

/-- An import whose texts are in one row each. -/
structure ImportDeclaration.Plain (declaration : ImportDeclaration) : Prop where
  specifier : Flat declaration.specifier
  default : ∀ name ∈ declaration.default, Flat name
  namespaceName : ∀ name ∈ declaration.namespaceName, Flat name
  attributes : ∀ text ∈ declaration.attributes, Flat text
  named : ∀ binding ∈ declaration.named, binding.Plain

/-- An import that keeps its own text as a block, or whose texts are in one row each. -/
structure ImportDeclaration.Neat (keeps : List Char → Prop) (declaration : ImportDeclaration) :
    Prop where
  verbatim : ∀ block ∈ declaration.verbatim, block.Shown keeps
  plain : declaration.verbatim = none → declaration.Plain
  trailing : ∀ binding ∈ declaration.named, EndsRow binding.trailing

/-- What follows a name on its row is not taken for its indentation. -/
theorem NamedBinding.Plain.tab_not_mem_lead {binding : NamedBinding} (h : binding.Plain) :
    '\t' ∉ lead (binding.toSource ++ ",").toList := by
  simp only [toSource, String.toList_append]
  refine tab_not_mem_lead_append (tab_not_mem_lead_append
    (tab_not_mem_lead_append ?_ h.untabbed) ?_) (by decide)
  · split <;> decide
  · split
    · rw [show " as " = " as" ++ " " by decide, String.append_assoc, String.toList_append,
        lead_append (by decide)]
      decide
    · decide

theorem NamedBinding.Plain.flat_toSource {binding : NamedBinding} (h : binding.Plain) :
    Flat binding.toSource := by
  refine flat_append.2 ⟨flat_append.2 ⟨?_, h.name⟩, ?_⟩
  · split <;> decide
  · split
    · rename_i other hother
      exact flat_append.2 ⟨by decide, h.asName other hother⟩
    · decide

namespace ImportDeclaration

variable {declaration : ImportDeclaration} {style : Style}

theorem flat_quoted (h : Flat declaration.specifier) : Flat (declaration.quoted style) := by
  have hquote : Flat (String.singleton (style.quote.forText declaration.specifier)) := by
    unfold Quote.forText
    cases style.quote <;> split <;> decide
  exact flat_append.2 ⟨flat_append.2 ⟨hquote, h⟩, hquote⟩

theorem flat_typeKeyword (declaration : ImportDeclaration) : Flat declaration.typeKeyword := by
  unfold typeKeyword
  split <;> decide

theorem visible_tail (declaration : ImportDeclaration) (style : Style) :
    endsVisibly (declaration.tail style).toList = true := by
  rw [tail, String.toList_append]
  exact endsVisibly_append _ (by decide)

namespace Plain

theorem flat_tail (h : declaration.Plain) : Flat (declaration.tail style) := by
  refine flat_append.2 ⟨flat_append.2 ⟨flat_quoted h.specifier, ?_⟩, by decide⟩
  split
  · rename_i text htext
    exact flat_append.2 ⟨by decide, h.attributes text htext⟩
  · decide

theorem flat_head (h : declaration.Plain) : ∀ text ∈ declaration.head, Flat text := by
  intro text htext
  simp only [head, List.mem_append, Option.mem_toList, Option.map_eq_some_iff] at htext
  rcases htext with htext | ⟨name, hname, rfl⟩
  · exact h.default text htext
  · exact flat_append.2 ⟨by decide, h.namespaceName name hname⟩

theorem flat_oneLine (h : declaration.Plain) : Flat (declaration.oneLine style) := by
  have hnamed : ∀ text ∈ declaration.named.map (·.toSource), Flat text := by
    intro text htext
    obtain ⟨binding, hbinding, rfl⟩ := List.mem_map.1 htext
    exact (h.named binding hbinding).flat_toSource
  have hclause : ∀ text ∈ declaration.head ++
      (if (declaration.named.map (·.toSource)).isEmpty then []
        else ["\x7b " ++ ", ".intercalate (declaration.named.map (·.toSource)) ++ " \x7d"]),
      Flat text := by
    intro text htext
    rcases List.mem_append.1 htext with htext | htext
    · exact h.flat_head text htext
    · split at htext
      · cases htext
      · rw [List.mem_singleton.1 htext]
        exact flat_append.2 ⟨flat_append.2 ⟨by decide, flat_intercalate (by decide) hnamed⟩,
          by decide⟩
  refine flat_append.2 ⟨flat_append.2 ⟨flat_append.2 ⟨flat_append.2 ⟨by decide,
    flat_typeKeyword declaration⟩, flat_intercalate (by decide) hclause⟩, by decide⟩, h.flat_tail⟩

end Plain

/-- A row that begins with a keyword or a brace. -/
theorem fills_statement {text : String} (hflat : Flat text) (hbare : Bare text)
    (hlast : endsVisibly text.toList = true) : Fills keeps (·.line text) :=
  .line hflat hbare.tab_not_mem_lead hlast

/-- The comments of a binding list, below a step. Comments that show nothing are left out. -/
theorem fills_renderLines (h : Fills keeps step) (comments : List String) :
    Fills keeps fun w => renderLines comments (step w) := by
  unfold renderLines
  induction comments generalizing step with
  | nil => exact h
  | cons comment comments ih =>
    simp only [List.foldl_cons]
    cases hempty : (Block.ofText comment).isEmpty with
    | false => exact ih (h.comp ((neat_ofText comment).fills_render hempty))
    | true =>
      have hnone (w : Writer) : (Block.ofText comment).render w = w := by
        simp only [Block.isEmpty, List.isEmpty_iff] at hempty
        simp [Block.render, hempty]
      simp only [hnone]
      exact ih h

/-- A binding, below a step. -/
theorem fills_renderBinding (h : Fills keeps step) {binding : NamedBinding}
    (hbinding : binding.Plain) (htrailing : EndsRow binding.trailing) :
    Fills keeps fun w => renderBinding binding (step w) := by
  have hrow : Fills keeps (·.line (binding.toSource ++ ",")) := by
    refine .line (flat_append.2 ⟨hbinding.flat_toSource, by decide⟩) hbinding.tab_not_mem_lead ?_
    rw [String.toList_append]
    exact endsVisibly_append _ (by decide)
  exact fills_appendComment ((fills_renderLines h binding.comments).comp hrow) htrailing

theorem fills_renderBindings (h : Fills keeps step) {named : List NamedBinding}
    (hnamed : ∀ binding ∈ named, binding.Plain ∧ EndsRow binding.trailing) :
    Fills keeps fun w => named.foldl (fun w binding => renderBinding binding w) (step w) := by
  induction named generalizing step with
  | nil => exact h
  | cons binding named ih =>
    obtain ⟨hplain, htrailing⟩ := hnamed binding (by simp)
    exact ih (fills_renderBinding h hplain htrailing) fun other hother =>
      hnamed other (by simp [hother])

theorem Plain.fills_renderBroken (h : declaration.Plain)
    (htrailing : ∀ binding ∈ declaration.named, EndsRow binding.trailing) (style : Style) :
    Fills keeps (declaration.renderBroken style) := by
  have hjoin : Flat (String.join (declaration.head.map (· ++ ", "))) := by
    refine flat_join fun text htext => ?_
    obtain ⟨part, hpart, rfl⟩ := List.mem_map.1 htext
    exact flat_append.2 ⟨h.flat_head part hpart, by decide⟩
  have hopening : Fills keeps (·.line ("import " ++ declaration.typeKeyword ++
      String.join (declaration.head.map (· ++ ", ")) ++ "\x7b")) := by
    refine fills_statement (flat_append.2 ⟨flat_append.2 ⟨flat_append.2 ⟨by decide,
      flat_typeKeyword declaration⟩, hjoin⟩, by decide⟩) ?_ ?_
    · exact ((bare_import.append _).append _).append _
    · rw [String.toList_append]
      exact endsVisibly_append _ (by decide)
  have hclosing : Fills keeps (·.line ("\x7d from " ++ declaration.tail style)) := by
    refine fills_statement (flat_append.2 ⟨by decide, h.flat_tail⟩) ?_ ?_
    · exact bare_brace.append _
    · rw [String.toList_append]
      exact endsVisibly_append _ (visible_tail declaration style)
  have hbindings := fills_renderBindings hopening.deeper fun binding hbinding =>
    ⟨h.named binding hbinding, htrailing binding hbinding⟩
  exact (fills_renderLines hbindings declaration.braceComments).shallower.comp hclosing

/-- An import is written in tidy rows, on one row or with one binding a row. -/
theorem Neat.fills_render (h : declaration.Neat keeps) (style : Style) :
    Fills keeps (declaration.render style) := by
  intro w
  unfold render
  split
  · rename_i block hblock
    exact (h.verbatim block hblock).fills w
  · rename_i hnone
    have hplain := h.plain hnone
    split
    · have hdefault : Flat (declaration.default.getD "") := by
        cases hname : declaration.default with
        | none => decide
        | some name => exact hplain.default name hname
      refine fills_statement (flat_append.2 ⟨flat_append.2 ⟨flat_append.2 ⟨flat_append.2
        ⟨flat_append.2 ⟨by decide, flat_typeKeyword declaration⟩, hdefault⟩, by decide⟩,
        flat_quoted hplain.specifier⟩, by decide⟩) ?_ ?_ w
      · exact ((((bare_import.append _).append _).append _).append _).append _
      · rw [String.toList_append]
        exact endsVisibly_append _ (by decide)
    · split
      · refine fills_statement (flat_append.2 ⟨by decide, hplain.flat_tail⟩) (bare_import.append _) ?_ w
        rw [String.toList_append]
        exact endsVisibly_append _ (visible_tail declaration style)
      · dsimp only
        split
        · refine fills_statement hplain.flat_oneLine ?_ ?_ w
          · exact (((bare_import.append _).append _).append _).append _
          · rw [oneLine, String.toList_append]
            exact endsVisibly_append _ (visible_tail declaration style)
        · exact hplain.fills_renderBroken h.trailing style w

end ImportDeclaration

/-! ### Documents -/

/-- An item that is neat. -/
def Item.Neat (keeps : List Char → Prop) : Item → Prop
  | importing declaration => declaration.Neat keeps
  | classlike declaration => declaration.Neat keeps
  | other block => block.Shown keeps

theorem Item.Neat.fills_render {item : Item} (h : item.Neat keeps) (style : Style) :
    Fills keeps (item.render style) := by
  cases item with
  | importing declaration => exact ImportDeclaration.Neat.fills_render h style
  | classlike declaration => exact ClassDeclaration.Neat.fills_render h
  | other block => exact h.fills

namespace Document

variable {document : Document}

/-- A document whose items and comments are neat. -/
structure Neat (keeps : List Char → Prop) (document : Document) : Prop where
  items : ∀ entry ∈ document.items, entry.Neat keeps (Item.Neat keeps)
  dangling : ∀ comment ∈ document.dangling, comment.text.Shown keeps

/-- A neat document is rendered to tidy rows. -/
theorem Neat.render_tidy (h : document.Neat keeps) (style : Style) :
    ∃ rows, Tidy keeps rows ∧ (document.render style).toList = textOfRows rows := by
  cases hne : document.items.isEmpty && document.dangling.isEmpty with
  | true =>
    simp only [Bool.and_eq_true, List.isEmpty_iff] at hne
    exact ⟨[], .nil, by simp [render, renderEntries, renderAfter, renderComments, hne]⟩
  | false =>
    obtain ⟨rows, -, htidy, htext⟩ := fills_renderEntries
      (fun item hitem => Item.Neat.fills_render hitem style) Item.apart hne h.items h.dangling
      { indent := style.indent }
    exact ⟨rows, htidy, by simpa [render] using htext⟩

/-- Between an import and an item behind it that is none stands exactly one empty row: `above` is what
the items up to the import are rendered to, and `below` begins with the item or its comments. -/
theorem Neat.render_apart (h : document.Neat keeps) {front back : List (Entry Item)}
    {entry next : Entry Item} (hitems : document.items = front ++ entry :: next :: back)
    (hapart : entry.node.apart next.node = true) (style : Style) :
    ∃ above below, above ≠ [] ∧ below ≠ [] ∧ Tidy keeps above ∧ Tidy keeps below ∧
      (({ document with items := front ++ [entry], dangling := [] } : Document).render style).toList =
        textOfRows above ∧
      (document.render style).toList = textOfRows (above ++ .blank :: below) := by
  have hnode : ∀ item : Item, item.Neat keeps → Fills keeps (item.render style) :=
    fun item hitem => hitem.fills_render style
  have hentries := h.items
  rw [hitems, List.append_cons] at hentries
  have hback : ∀ other ∈ back, other.Neat keeps (Item.Neat keeps) :=
    fun other hother => hentries other (by simp [hother])
  obtain ⟨own, hown, heq⟩ := (hentries next (by simp)).exists_own hnode
  let start : Writer := { indent := style.indent }
  let upTo := renderAfter Item.apart (Item.render style) start none (front ++ [entry])
  obtain ⟨above, hne, htidy, htext⟩ := fills_renderAfter_none hnode Item.apart
    (List.append_ne_nil_of_right_ne_nil front (List.cons_ne_nil entry []))
    (fun other hother => hentries other (List.mem_append_left _ hother)) start
  obtain ⟨below, hne', htidy', htext'⟩ := fills_renderComments
    (fills_renderAfter hnode Item.apart hown next.node hback) false h.dangling upTo.blank
  have habove : upTo.text.toList = textOfRows above := by simpa [start, upTo] using htext
  refine ⟨above, below, hne, hne', htidy, htidy', ?_, ?_⟩
  · simpa [render, renderEntries, renderComments] using habove
  · have hrender : document.render style =
        (renderComments (renderAfter Item.apart (Item.render style) (own upTo.blank)
          (some next.node) back) true false document.dangling).text := by
      have hnonempty : document.items.isEmpty = false := by simp [hitems]
      rw [render, renderEntries, hnonempty, hitems, List.append_cons, renderAfter_append]
      simp [renderAfter, heq, hapart, separate, start, upTo]
    rw [hrender, htext']
    simp [Writer.blank, Writer.raw, habove, Row.text]

end Document

end

end CodeSplice
