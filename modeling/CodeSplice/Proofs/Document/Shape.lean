/-
Module: CodeSplice.Proofs.Document.Shape
Purpose: The documents that are read from source texts are neat. Their blocks are stretches of the text;
  a comment goes behind something only if it has one row; and only line comments are moved from a head
  behind its brace. So the canonical form of a text has the canonical shape, as far as it is regular:
  nothing in it is empty and its imports go over one row each, or are kept as blocks.
Main exports: Document.Regular, Source.neat_item, neat_ofSource?, canonical_ofSource?
-/
import CodeSplice.Proofs.Document.Attachment
import CodeSplice.Proofs.Document.Members
import CodeSplice.Proofs.Document.Neat
import CodeSplice.Proofs.Layout.Canonical

namespace CodeSplice

open Layout Syntax Text

/-! ### Texts of comments -/

theorem RowEnd.append {text : String} (h : RowEnd text) {front : String} (hfront : Flat front) :
    RowEnd (front ++ text) where
  flat := flat_append.2 ⟨hfront, h.flat⟩
  visible := by
    rw [String.toList_append]
    exact endsVisibly_append _ h.visible

/-- A comment or an interpreter line of a text. -/
structure Syntax.Token.Remarks (text : List Char) (token : Token) : Prop where
  placed : token.Placed text
  kind : (token.is .comment || token.is .interpreter) = true

/-- A comment in one row can stand behind something. -/
theorem Syntax.Token.Remarks.rowEnd {text : List Char} {token : Token} (h : token.Remarks text)
    (hline : '\n' ∉ token.text.toList) : RowEnd (Attached.trimmed token) := by
  obtain ⟨c, rest, htext, hc⟩ := h.placed.exists_visible h.kind
  have htrim : (Attached.trimmed token).toList = trimEnd token.text.toList := by
    rw [Attached.trimmed, String.toList_ofList, trim, htext, trimStart_cons_of_not_space hc]
  obtain ⟨w, hw, -⟩ := exists_trimEnd token.text.toList
  constructor
  · rw [Flat, htrim]
    exact fun hmem => hline (hw ▸ List.mem_append_left w hmem)
  · rw [htrim]
    refine endsVisibly_trimEnd ?_
    rw [htext, trimEnd_cons, if_neg (by simp [hc])]
    exact List.cons_ne_nil _ _

theorem Syntax.Token.Remarks.rowEnd_oneRow {text : List Char} {token : Token}
    (h : token.Remarks text) (hrow : token.extent.oneRow = true) : RowEnd (Attached.trimmed token) :=
  h.rowEnd (Source.newline_not_mem_of_oneRow h.placed hrow)

theorem rowEnd_intercalate {texts : List String} (hne : texts ≠ [])
    (h : ∀ text ∈ texts, RowEnd text) : RowEnd (" ".intercalate texts) := by
  induction texts with
  | nil => exact absurd rfl hne
  | cons text texts ih =>
    have htext := h text (by simp)
    by_cases hnil : texts = []
    · simpa [hnil] using htext
    · rw [String.intercalate_cons_of_ne_nil hnil]
      exact (ih hnil fun other hother => h other (by simp [hother])).append
        (flat_append.2 ⟨htext.flat, by decide⟩)

theorem endsRow_none : EndsRow none :=
  nofun

theorem endsRow_some {text : String} (h : RowEnd text) : EndsRow (some text) := by
  rintro _ ⟨⟩
  exact h

theorem endsRow_joinComments {first second : Option String} (h : EndsRow first)
    (h' : EndsRow second) : EndsRow (joinComments first second) := by
  cases first with
  | none => exact h'
  | some text =>
    cases second with
    | none => exact h
    | some other =>
      have htext := h text rfl
      exact endsRow_some ((h' other rfl).append (flat_append.2 ⟨htext.flat, by decide⟩))

/-! ### Blocks -/

/-- What is laid out anew has the same characters, apart from white space. -/
theorem Layout.Laid.solid_eq {inside : Nat → Bool} {start : Nat} {source output : List Char}
    (h : Laid inside start source output) : solid output = solid source := by
  cases h with
  | intro source_eq output_eq white white' whiteTail whiteTail' relaid =>
    simp only [source_eq, output_eq, solid_append, solid_of_white, white, white', whiteTail,
      whiteTail', relaid.solid_eq]

/-- A stretch in which something can be seen makes a block that is not empty. -/
theorem isEmpty_ofRange {source : List Char} {range : Span} {literals : List Span} {unit : Nat}
    {c : Char} (hmem : c ∈ Text.slice source range.start range.stop) (hc : isSpace c = false) :
    (Block.ofRange source range literals unit).isEmpty = false := by
  have hlaid := laid_ofRange source range literals unit { indent := default }
  have hsolid : c ∈ solid (Text.slice source range.start range.stop) := by
    simp [solid, hmem, hc]
  rw [← hlaid.solid_eq] at hsolid
  rw [Bool.eq_false_iff]
  intro hempty
  have hlines : (Block.ofRange source range literals unit).lines = [] := by
    simpa [Block.isEmpty] using hempty
  rw [hlines] at hsolid
  simp [Block.written, solid] at hsolid

/-- A text in which something can be seen makes a block that is not empty. -/
theorem isEmpty_ofText {text : String} {c : Char} (hmem : c ∈ text.toList)
    (hc : isSpace c = false) : (Block.ofText text).isEmpty = false :=
  isEmpty_ofRange (by simpa [Text.slice] using hmem) hc

namespace Source

variable {source : Source}

/-- The pieces of a source that are kept as they are. -/
def Keeps (source : Source) : List Char → Prop :=
  TouchesLiteral source.text source.literals

theorem neat_block (span : Span) : (source.block span).Neat source.Keeps :=
  neat_ofRange ..

theorem shown_block {span : Span} {c : Char}
    (hmem : c ∈ Text.slice source.text span.start span.stop) (hc : isSpace c = false) :
    (source.block span).Shown source.Keeps :=
  ⟨neat_block span, isEmpty_ofRange hmem hc⟩

theorem shown_remark {token : Token} (h : token.Remarks source.text) :
    (source.block token.extent.span).Shown source.Keeps := by
  obtain ⟨c, rest, htext, hc⟩ := h.placed.exists_visible h.kind
  refine shown_block ?_ hc
  have heq : Text.slice source.text token.extent.span.start token.extent.span.stop =
    token.text.toList := h.placed.text_eq.symm
  rw [heq, htext]
  exact List.mem_cons_self

/-! ### Heads -/

section

variable (hs : source.Sound)
include hs

/-- The comments that are moved to the brace behind a head are line comments. -/
theorem rowEnd_splitLineComments {start stop : Nat} {comments : List String}
    (hcomments : ∀ comment ∈ comments, RowEnd comment) {remarks : List Token}
    (hremarks : ∀ remark ∈ remarks, remark ∈ source.remarks) :
    ∀ comment ∈ (source.splitLineComments start comments stop remarks).2, RowEnd comment := by
  induction remarks generalizing comments stop with
  | nil => exact hcomments
  | cons remark remarks ih =>
    simp only [splitLineComments]
    split
    · rename_i hguard
      simp only [Bool.and_eq_true] at hguard
      obtain ⟨⟨-, hline⟩, -⟩ := hguard
      have hremark := hremarks remark (by simp)
      obtain ⟨hplaced, hcomment⟩ := hs.placed remark hremark
      refine ih (fun comment hmem => ?_) fun other hother => hremarks other (by simp [hother])
      rcases List.mem_cons.1 hmem with rfl | hmem
      · exact Token.Remarks.rowEnd ⟨hplaced, by simp [hcomment]⟩ ((hs.isComment hremark).line hline)
      · exact hcomments comment hmem
    · exact hcomments

theorem endsRow_head (start brace : Nat) : EndsRow (source.head start brace).2 := by
  have hremarks : ∀ r ∈ (source.remarks.filter fun remark =>
      decide (remark.extent.start < brace)).reverse, r ∈ source.remarks :=
    fun r hr => (List.mem_filter.1 (List.mem_reverse.1 hr)).1
  have hcomments : ∀ comment ∈ (source.splitLineComments start []
      (source.trimmedStop start brace) _).2, RowEnd comment :=
    rowEnd_splitLineComments hs (by simp) hremarks
  simp only [head]
  split
  · exact endsRow_none
  · rename_i hne
    exact endsRow_some (rowEnd_intercalate (by simpa using hne) hcomments)

end

theorem neat_head (start brace : Nat) : (source.head start brace).1.Neat source.Keeps :=
  neat_block _

end Source

/-! ### What is attached -/

section

variable {α : Type} {good : α → Prop} {source : Source} {attached : Attached α}

theorem Entry.Neat.imp {keeps : List Char → Prop} {entry : Entry α} {better : α → Prop}
    (h : entry.Neat keeps good) (himp : good entry.node → better entry.node) :
    entry.Neat keeps better :=
  ⟨h.comments, himp h.node, h.trailing⟩

namespace Attached

/-- What has been attached so far is neat. -/
structure Neat (keeps : List Char → Prop) (good : α → Prop) (attached : Attached α) : Prop where
  entries : ∀ entry ∈ attached.reversed, entry.Neat keeps good
  comments : ∀ comment ∈ attached.comments, comment.text.Shown keeps
  opening : EndsRow attached.opening

theorem Neat.remark (h : attached.Neat source.Keeps good) {token : Token}
    (hremark : token.Remarks source.text) (openRow : Option Nat) :
    (attached.remark (fun extent => source.block extent.span) openRow token).Neat source.Keeps
      good := by
  have hwait : (attached.wait (fun extent => source.block extent.span) token).Neat source.Keeps
      good := by
    refine ⟨h.entries, fun comment hcomment => ?_, h.opening⟩
    rcases List.mem_append.1 hcomment with hcomment | hcomment
    · exact h.comments comment hcomment
    · rw [List.mem_singleton.1 hcomment]
      exact Source.shown_remark hremark
  unfold Attached.remark
  simp only
  split
  · rename_i last others hreversed
    split
    · rename_i hplace
      simp only [Bool.and_eq_true] at hplace
      obtain ⟨⟨⟨⟨hrow, -⟩, -⟩, -⟩, -⟩ := hplace
      have hentries := h.entries
      rw [hreversed] at hentries
      refine ⟨fun entry hentry => ?_, h.comments, h.opening⟩
      rcases List.mem_cons.1 hentry with rfl | hentry
      · obtain ⟨hcomments, hnode, -⟩ := hentries last (by simp)
        exact ⟨hcomments, hnode, endsRow_some (hremark.rowEnd_oneRow hrow)⟩
      · exact hentries entry (by simp [hentry])
    · exact ⟨hwait.entries, hwait.comments, hwait.opening⟩
  · split
    · rename_i hplace
      simp only [Bool.and_eq_true] at hplace
      obtain ⟨⟨⟨⟨hrow, -⟩, -⟩, -⟩, -⟩ := hplace
      exact ⟨h.entries, h.comments, endsRow_some (hremark.rowEnd_oneRow hrow)⟩
    · exact ⟨hwait.entries, hwait.comments, hwait.opening⟩

theorem Neat.child {keeps : List Char → Prop} (h : attached.Neat keeps good)
    {convert : Tree → Extent → α} {tree : Tree} (hconvert : ∀ whole, good (convert tree whole))
    (extent : Extent) : (attached.child convert tree extent).Neat keeps good := by
  refine ⟨fun entry hentry => ?_, by simp [Attached.child], h.opening⟩
  rcases List.mem_cons.1 hentry with rfl | hentry
  · exact ⟨h.comments, hconvert _, endsRow_none⟩
  · exact h.entries entry hentry

/-- Attaching pieces keeps what is attached neat. -/
theorem Neat.run (h : attached.Neat source.Keeps good) {convert : Tree → Extent → α}
    {pieces : List Piece} (hremarks : ∀ token, .remark token ∈ pieces → token.Remarks source.text)
    (hconvert : ∀ tree extent, .child tree extent ∈ pieces → ∀ whole, good (convert tree whole))
    (openRow : Option Nat) :
    (attached.run (fun extent => source.block extent.span) convert openRow pieces).Neat source.Keeps
      good := by
  fun_induction Attached.run (fun extent => source.block extent.span) convert openRow attached
    pieces with
  | case1 => exact h
  | case2 attached token pieces ih =>
    exact ih (h.remark (hremarks token (by simp)) openRow)
      (fun other hother => hremarks other (by simp [hother]))
      fun tree extent hchild => hconvert tree extent (by simp [hchild])
  | case3 attached extent pieces ih =>
    exact ih ⟨h.entries, h.comments, h.opening⟩
      (fun other hother => hremarks other (by simp [hother]))
      fun tree extent hchild => hconvert tree extent (by simp [hchild])
  | case4 attached extent pieces ih =>
    exact ih h (fun other hother => hremarks other (by simp [hother]))
      fun tree extent hchild => hconvert tree extent (by simp [hchild])
  | case5 attached tree extent stop pieces ih =>
    exact ih (h.child (hconvert tree extent (by simp)) _)
      (fun other hother => hremarks other (by simp [hother]))
      fun tree extent hchild => hconvert tree extent (by simp [hchild])
  | case6 attached tree extent pieces _ ih =>
    exact ih (h.child (hconvert tree extent (by simp)) _)
      (fun other hother => hremarks other (by simp [hother]))
      fun tree extent hchild => hconvert tree extent (by simp [hchild])

end Attached

/-- The pieces of a tree that become comments are comments or interpreter lines. -/
theorem remarks_of_mem_ofTree {text : List Char} {tree : Tree} (h : tree.Placed text) {token : Token}
    (hmem : .remark token ∈ Piece.ofTree tree) : token.Remarks text := by
  have htrailing : token ∈ tree.trailing → token.Remarks text := by
    intro htoken
    have htoken' := List.mem_reverse.1 htoken
    have hcomment : token.is .comment = true := List.all_eq_true.1 List.all_takeWhile token htoken'
    have hmem := List.mem_reverse.1 ((List.takeWhile_sublist _).mem htoken')
    exact ⟨(h.token hmem).1, by simp [hcomment]⟩
  unfold Piece.ofTree at hmem
  split at hmem
  · rename_i other
    split at hmem
    · rename_i hkind
      obtain rfl : token = other := by simpa using hmem
      cases h with
      | leaf placed => exact ⟨placed, hkind⟩
    · split at hmem
      · simp at hmem
      · split at hmem <;> simp at hmem
  · simp at hmem
  · exact htrailing (by simpa using hmem)

/-- What is attached in a container is neat, if its children are converted to what is good. -/
theorem neat_attach {convert : Tree → Extent → α} {children : List Tree}
    (hplaced : ∀ tree ∈ children, tree.Placed source.text)
    (hconvert : ∀ tree ∈ children, ∀ whole, good (convert tree whole)) (openRow : Option Nat) :
    (attach (fun extent => source.block extent.span) convert openRow children).Neat source.Keeps
      good := by
  have hnone : ({ lastRow := openRow } : Attached α).Neat source.Keeps good :=
    ⟨by simp, by simp, endsRow_none⟩
  refine hnone.run (fun token htoken => ?_) (fun tree extent hchild => ?_) openRow
  · obtain ⟨tree, htree, hmem⟩ := List.mem_flatMap.1 htoken
    exact remarks_of_mem_ofTree (hplaced tree htree) hmem
  · obtain ⟨other, hother, hmem⟩ := List.mem_flatMap.1 hchild
    obtain rfl := eq_of_child_mem_ofTree hmem
    exact hconvert tree hother

end

/-! ### Regular documents -/

/-- A member in which no statement is empty, and that is not empty itself. -/
def Member.Regular : Member → Prop
  | constructor c => ∀ entry ∈ c.statements, entry.node.text.isEmpty = false
  | method _ => True
  | other block => block.isEmpty = false

instance : (member : Member) → Decidable member.Regular
  | .constructor c =>
    inferInstanceAs (Decidable (∀ entry ∈ c.statements, entry.node.text.isEmpty = false))
  | .method _ => inferInstanceAs (Decidable True)
  | .other block => inferInstanceAs (Decidable (block.isEmpty = false))

/-- An item that is not empty and holds nothing that is. An import that is not kept as a block has texts
in one row each. -/
def Item.Regular : Item → Prop
  | importing declaration => (∀ block ∈ declaration.verbatim, block.isEmpty = false) ∧
      (declaration.verbatim = none → declaration.Plain)
  | classlike declaration => ∀ entry ∈ declaration.members, entry.node.Regular
  | other block => block.isEmpty = false

/-- A document whose items are regular. -/
def Document.Regular (document : Document) : Prop :=
  ∀ entry ∈ document.items, entry.node.Regular

namespace Source

variable {source : Source}

/-! ### Classes that are read -/

theorem neat_attachBody {α : Type} {good : α → Prop} {convert : Tree → Extent → α} {body : Tree}
    (hbody : body.Placed source.text)
    (hconvert : ∀ tree, tree.Placed source.text → ∀ whole, good (convert tree whole)) :
    (source.attachBody convert body).Neat source.Keeps good := by
  have hplaced : ∀ tree ∈ enclosed body, tree.Placed source.text :=
    fun tree htree => (hbody.child (mem_of_mem_enclosed htree)).1
  exact neat_attach hplaced (fun tree htree => hconvert tree (hplaced tree htree)) _

section

variable (hs : source.Sound)
include hs

theorem neat_constructor {body : Tree} (hbody : body.Placed source.text) (start brace : Nat)
    (hregular : (Member.constructor
      (source.constructor (source.head start brace) body)).Regular) :
    (source.constructor (source.head start brace) body).Neat source.Keeps := by
  have hattached : (source.attachBody source.statement body).Neat source.Keeps
      (·.text.Neat source.Keeps) := neat_attachBody hbody fun _ _ _ => neat_block _
  refine ⟨neat_head start brace, endsRow_joinComments (endsRow_head hs start brace)
    hattached.opening, fun entry hentry => ?_, hattached.comments⟩
  exact (hattached.entries entry (List.mem_reverse.1 hentry)).imp fun hneat =>
    ⟨hneat, hregular entry hentry⟩

omit hs in
theorem endsRow_openingComment? {body : Tree} (hbody : body.Placed source.text) :
    EndsRow ((openingComment? body).map Attached.trimmed) := by
  unfold openingComment?
  split
  · rename_i brace token rest hchildren
    split
    · rename_i hguard
      simp only [Bool.and_eq_true] at hguard
      obtain ⟨⟨hcomment, hrow⟩, -⟩ := hguard
      have hmem : Tree.leaf token ∈ enclosed body := by simp [hchildren]
      cases (hbody.child (mem_of_mem_enclosed hmem)).1 with
      | leaf placed =>
        exact endsRow_some (Token.Remarks.rowEnd_oneRow ⟨placed, by simp [hcomment]⟩ hrow)
    · exact endsRow_none
  · exact endsRow_none

omit hs in
theorem neat_methodBody (body : Tree) (opening : Option Token) :
    (source.methodBody body opening).Neat source.Keeps := by
  unfold methodBody
  split
  · exact neat_block _
  · exact ⟨by simp [Block.empty], .nil⟩

theorem neat_definition? {tree : Tree} (htree : tree.Placed source.text) {start : Nat}
    {member : Member} (h : source.definition? tree start = some member)
    (hregular : member.Regular) : member.Neat source.Keeps := by
  simp only [definition?] at h
  split at h
  · rename_i name body hname hbody
    have hplaced := (htree.child (List.mem_of_find?_eq_some hbody)).1
    split at h
    · split at h
      · obtain rfl := Option.some.inj h
        exact neat_constructor hs hplaced _ _ hregular
      · obtain rfl := Option.some.inj h
        exact ⟨neat_head _ _, endsRow_joinComments (endsRow_head hs _ _)
          (endsRow_openingComment? hplaced), neat_methodBody _ _⟩
    · contradiction
  · contradiction

theorem neat_member {tree : Tree} (htree : tree.Placed source.text) (extent : Extent)
    (hregular : (source.member tree extent).Regular) :
    (source.member tree extent).Neat source.Keeps := by
  have hother : (Member.other (source.block extent.span)).Regular →
      (Member.other (source.block extent.span)).Neat source.Keeps :=
    fun hregular => ⟨neat_block _, hregular⟩
  unfold member at hregular ⊢
  split
  · rename_i extent' weight parts
    simp only at hregular
    cases hdefinition :
        source.definition? (.node .methodDefinition extent' weight parts) extent.start with
    | none =>
      rw [hdefinition] at hregular
      exact hother hregular
    | some read =>
      rw [hdefinition] at hregular
      exact neat_definition? hs htree hdefinition hregular
  · exact hother (by simpa using hregular)

theorem neat_class? {tree : Tree} (htree : tree.Placed source.text) {start : Nat}
    {declaration : ClassDeclaration} (h : source.class? tree start = some declaration)
    (hregular : (Item.classlike declaration).Regular) : declaration.Neat source.Keeps := by
  unfold class? at h
  split at h
  · rename_i name body hname hbody
    obtain rfl := Option.some.inj h
    have hplaced := (htree.child (List.mem_of_find?_eq_some hbody)).1
    have hattached : (source.attachBody source.member body).Neat source.Keeps
        fun member => member.Regular → member.Neat source.Keeps :=
      neat_attachBody hplaced fun tree htree whole => neat_member hs htree whole
    refine ⟨neat_head _ _, endsRow_joinComments (endsRow_head hs _ _) hattached.opening,
      fun entry hentry => ?_, hattached.comments⟩
    exact (hattached.entries entry (List.mem_reverse.1 hentry)).imp fun hneat =>
      hneat (hregular entry hentry)
  · contradiction

end

end Source

/-! ### Imports that are read -/

/-- The bindings read from braces so far have nothing behind them but comments in one row. -/
def Bindings.Neat (bindings : Bindings) : Prop :=
  ∀ binding ∈ bindings.reversed, EndsRow binding.trailing

theorem Bindings.trailing_binding (source : Source) (tree : Tree) (comments : List String) :
    (Bindings.binding source tree comments).trailing = none := by
  unfold Bindings.binding
  split <;> rfl

theorem Bindings.Neat.remark {bindings : Bindings} (h : bindings.Neat) {text : List Char}
    {token : Token} (hremark : token.Remarks text) : (bindings.remark token).Neat := by
  unfold Bindings.remark
  simp only
  split
  · rename_i last others hreversed
    split
    · rename_i hplace
      simp only [Bool.and_eq_true] at hplace
      obtain ⟨⟨-, hrow⟩, -⟩ := hplace
      intro binding hbinding
      rcases List.mem_cons.1 hbinding with rfl | hbinding
      · exact endsRow_some (hremark.rowEnd_oneRow hrow)
      · exact h binding (by simp [hreversed, hbinding])
    · exact h
  · exact h

theorem Bindings.Neat.part {source : Source} {bindings : Bindings} (h : bindings.Neat) {tree : Tree}
    (htree : tree.Placed source.text) : (Bindings.part source bindings tree).Neat := by
  unfold Bindings.part
  split
  · intro binding hbinding
    rcases List.mem_cons.1 hbinding with rfl | hbinding
    · rw [Bindings.trailing_binding]
      exact endsRow_none
    · exact h binding hbinding
  · rename_i token
    split
    · rename_i hcomment
      cases htree with
      | leaf placed => exact h.remark ⟨placed, by simp [hcomment]⟩
    · split
      · exact h
      · exact h
  · exact h

namespace ImportDeclaration

variable {source : Source}

/-- An import that is being read: what it binds has nothing behind it but comments in one row, and it is
not kept as a block. -/
structure Read (declaration : ImportDeclaration) : Prop where
  trailing : ∀ binding ∈ declaration.named, EndsRow binding.trailing
  verbatim : declaration.verbatim = none

theorem Read.addClausePart {declaration : ImportDeclaration} (h : declaration.Read) {tree : Tree}
    (htree : tree.Placed source.text) : (declaration.addClausePart source tree).Read := by
  unfold ImportDeclaration.addClausePart
  split
  · split
    · exact ⟨h.trailing, h.verbatim⟩
    · exact h
  · exact ⟨h.trailing, h.verbatim⟩
  · rename_i extent weight parts
    have hbindings : ((Syntax.Tree.node .namedImports extent weight parts).children.foldl
        (Bindings.part source) {}).Neat := by
      refine List.foldlRecOn (motive := Bindings.Neat) _ _ (by simp [Bindings.Neat]) ?_
      exact fun bindings hbindings child hchild => hbindings.part (htree.child hchild).1
    exact ⟨fun binding hbinding => hbindings binding (List.mem_reverse.1 hbinding), h.verbatim⟩
  · exact h

theorem Read.addPart {declaration : ImportDeclaration} (h : declaration.Read) {tree : Tree}
    (htree : tree.Placed source.text) : (declaration.addPart source tree).Read := by
  unfold ImportDeclaration.addPart
  split
  · split
    · exact ⟨h.trailing, h.verbatim⟩
    · exact h
  · refine List.foldlRecOn (motive := Read) _ _ h ?_
    exact fun declaration hdeclaration child hchild =>
      hdeclaration.addClausePart (htree.child ((List.takeWhile_sublist _).mem hchild)).1
  · exact ⟨h.trailing, h.verbatim⟩
  · exact ⟨h.trailing, h.verbatim⟩
  · exact h

/-- An import that is read from a statement is neat, if it is regular. -/
theorem neat_ofTree? {tree : Tree} (htree : tree.Placed source.text) {extent : Extent}
    {declaration : ImportDeclaration} (h : ofTree? source tree extent = some declaration)
    (hregular : (Item.importing declaration).Regular) : declaration.Neat source.Keeps := by
  obtain ⟨string, -, rfl⟩ := Option.map_eq_some_iff.1 h
  obtain ⟨hlines, hplain⟩ := hregular
  have hread (specifier : String) :
      (tree.children.foldl (addPart source) ({ specifier } : ImportDeclaration)).Read := by
    refine List.foldlRecOn (motive := Read) _ _ ⟨by simp, rfl⟩ ?_
    exact fun declaration hdeclaration child hchild => hdeclaration.addPart (htree.child hchild).1
  refine ⟨fun block hblock => ⟨?_, hlines block hblock⟩, hplain, ?_⟩
  · simp only at hblock
    split at hblock
    · obtain rfl := Option.some.inj hblock
      exact Source.neat_block _
    · simp [(hread _).verbatim] at hblock
  · simp only
    split
    · exact (hread _).trailing
    · exact (hread _).trailing

end ImportDeclaration

/-! ### Documents that are read -/

namespace Source

variable {source : Source}

theorem neat_item (hs : source.Sound) {tree : Tree} (htree : tree.Placed source.text)
    (extent : Extent) (hregular : (source.item tree extent).Regular) :
    (source.item tree extent).Neat source.Keeps := by
  have hall : ∀ found : Option Item,
      (∀ item, found = some item → item.Regular → item.Neat source.Keeps) →
        (found.getD (.other (source.block extent.span))).Regular →
          (found.getD (.other (source.block extent.span))).Neat source.Keeps := by
    intro found hfound hregular
    cases found with
    | none => exact ⟨neat_block _, hregular⟩
    | some item => exact hfound item rfl hregular
  unfold item at hregular ⊢
  refine hall _ (fun item hitem => ?_) hregular
  split at hitem
  · obtain ⟨declaration, hread, rfl⟩ := Option.map_eq_some_iff.1 hitem
    exact ImportDeclaration.neat_ofTree? htree hread
  · obtain ⟨declaration, hread, rfl⟩ := Option.map_eq_some_iff.1 hitem
    exact neat_class? hs htree hread
  · obtain ⟨declaration, hread, rfl⟩ := Option.map_eq_some_iff.1 hitem
    exact neat_class? hs htree hread
  · obtain ⟨declaration, hread, rfl⟩ := Option.map_eq_some_iff.1 hitem
    obtain ⟨exported, hexported, hread⟩ := Option.bind_eq_some_iff.1 hread
    exact neat_class? hs (htree.child (List.mem_of_find?_eq_some hexported)).1 hread
  · simp at hitem

end Source

namespace Document

/-- A document that is read from a text is neat, if it is regular. What is kept of the text as it is are
pieces of lines that begin or end in a template literal. -/
theorem neat_ofSource? {name text : String} {document : Document}
    (h : Document.ofSource? name text = some document) (hregular : document.Regular) :
    ∃ tree, parse? text.toList = some tree ∧
      document.Neat (Source.ofTree text.toList tree).Keeps := by
  obtain ⟨tree, htree, rfl⟩ := Option.map_eq_some_iff.1 h
  have hplaced := placed_of_parse? htree
  let source := Source.ofTree text.toList tree
  have hs : source.Sound := Source.sound_ofTree hplaced
  have hchildren : ∀ child ∈ tree.children, child.Placed source.text :=
    fun child hchild => (hplaced.child hchild).1
  have hattached : (attach (fun extent => source.block extent.span) source.item none
      tree.children).Neat source.Keeps fun item => item.Regular → item.Neat source.Keeps :=
    neat_attach hchildren
      (fun child hchild whole => Source.neat_item hs (hchildren child hchild) whole) none
  refine ⟨tree, htree, fun entry hentry => ?_, hattached.comments⟩
  exact (hattached.entries entry (List.mem_reverse.1 hentry)).imp fun hneat =>
    hneat (hregular entry hentry)

/-- The canonical form of a text without template literals has the canonical shape, if what is read from
the text is regular. -/
theorem canonical_ofSource? {name text : String} {document : Document}
    (h : Document.ofSource? name text = some document) (hregular : document.Regular)
    (hliterals : ∀ tree, parse? text.toList = some tree → tree.outermost .template = [])
    (style : Style) : Canonical [] (document.render style).toList := by
  obtain ⟨tree, htree, hneat⟩ := neat_ofSource? h hregular
  obtain ⟨rows, htidy, htext⟩ := hneat.render_tidy style
  rw [htext]
  refine htidy.canonical ?_
  rintro piece ⟨start, line, -, -, hinside⟩
  simp [Source.ofTree, hliterals tree htree, inside] at hinside

end Document

end CodeSplice
