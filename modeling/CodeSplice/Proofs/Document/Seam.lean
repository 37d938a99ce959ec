/-
Module: CodeSplice.Proofs.Document.Seam
Purpose: Where a container gains a node, its rendering gains the rows of that node. What stands above
  the new node and what stands below it is written as before; only the blank line in front of the
  neighbour may have to go to the new node. This goes through the containers around: a class in which
  the rendering of a member gains rows gains them, and so does the document that holds the class.
Main exports: local_renderEntries, local_renderBraced, Item.local_render, Enters, Enters.wedged,
  wedged_renderBraced, wedged_renderEntries, Document.gainsLines_of_class
-/
import CodeSplice.Proofs.Document.Shape
import CodeSplice.Proofs.Edit.Insertion
import CodeSplice.Proofs.Layout.Seam

namespace CodeSplice

open Layout

/-! ### Rendering is local -/

variable {p : String → Prop}

section

variable (hp : ∀ text, Closed text → p text)
include hp

theorem local_separate (below wanted : Bool) : Local p p fun w => separate w below wanted := by
  unfold separate
  cases below && wanted with
  | false => exact .id
  | true => exact Local.blank.mono (fun _ h => h) hp

theorem local_renderComments (below forced : Bool) (comments : List Comment) :
    Local p p fun w => renderComments w below forced comments := by
  induction comments generalizing below forced with
  | nil => exact .id
  | cons comment comments ih =>
    exact ((local_separate hp _ _).comp (comment.text.local_render hp)).comp (ih true false)

end

theorem local_appendComment (comment : Option String) :
    Local Closed Closed fun w => appendComment w comment := by
  cases comment with
  | none => exact .id
  | some text => exact .extendLast _

section

variable {α : Type} {apart : α → α → Bool} {render : α → Writer → Writer} {entry : Entry α}
  {entries : List (Entry α)} (hp : ∀ text, Closed text → p text)
include hp

/-- An entry can be written wherever its node can be. -/
theorem local_renderEntry (hnode : Local p Closed (render entry.node)) (below forced : Bool) :
    Local p Closed fun w => renderEntry render w below forced entry :=
  (((local_renderComments hp below forced entry.comments).comp (local_separate hp _ _)).comp
    hnode).comp (local_appendComment entry.trailing)

theorem local_renderAfter (hnodes : ∀ e ∈ entries, Local p Closed (render e.node))
    (previous : Option α) : Local p p fun w => renderAfter apart render w previous entries := by
  induction entries generalizing previous with
  | nil => exact .id
  | cons entry entries ih =>
    have hentry := local_renderEntry hp (hnodes entry List.mem_cons_self) previous.isSome
      ((previous.map fun a => apart a entry.node).getD false)
    exact (hentry.mono (fun _ h => h) hp).comp
      (ih (fun e he => hnodes e (List.mem_cons_of_mem entry he)) _)

theorem local_renderEntries (hnodes : ∀ e ∈ entries, Local p Closed (render e.node))
    (dangling : List Comment) :
    Local p p fun w => renderEntries apart render entries dangling w :=
  (local_renderAfter hp hnodes none).comp (local_renderComments hp _ _ dangling)

end

/-- A head with its brace. -/
theorem local_opening (head : Block) (suffix : String) (comment : Option String) :
    Local p Closed fun w => appendComment (head.renderOpen suffix w) comment :=
  (head.local_renderOpen suffix).comp (local_appendComment comment)

theorem local_renderBraced (head : Block) (comment : Option String) (hollow : Bool)
    {body : Writer → Writer} (hbody : Local Closed Closed body) :
    Local p Closed fun w => renderBraced head comment hollow body w := by
  unfold renderBraced
  cases hollow with
  | true => exact local_opening head _ comment
  | false => exact ((local_opening head _ comment).comp hbody.within).comp (.line _)

theorem Constructor.local_render (constructor : Constructor) : Local p Closed constructor.render :=
  local_renderBraced _ _ _ <| local_renderEntries (fun _ h => h)
    (fun e _ => e.node.text.local_render fun _ h => h) _

theorem Method.local_render (method : Method) : Local p Closed method.render :=
  local_renderBraced _ _ _ (method.body.local_render fun _ h => h)

theorem Member.local_render (member : Member) : Local Closed Closed member.render := by
  cases member with
  | constructor constructor => exact constructor.local_render
  | method method => exact method.local_render
  | other block => exact block.local_render fun _ h => h

/-- A member that is not empty can be written below anything. -/
theorem Member.Regular.local_render {member : Member} (h : member.Regular) :
    Local p Closed member.render := by
  cases member with
  | constructor constructor => exact constructor.local_render
  | method method => exact method.local_render
  | other block => exact block.local_render_of_isEmpty h

theorem ClassDeclaration.local_render (declaration : ClassDeclaration) :
    Local p Closed declaration.render :=
  local_renderBraced _ _ _ <| local_renderEntries (fun _ h => h) (fun e _ => e.node.local_render) _

namespace ImportDeclaration

theorem local_renderLines (comments : List String) : Local Closed Closed (renderLines comments) :=
  .foldl fun comment _ => (Block.ofText comment).local_render fun _ h => h

theorem local_renderBinding (binding : NamedBinding) :
    Local Closed Closed (renderBinding binding) :=
  ((local_renderLines binding.comments).comp (.line _)).comp (local_appendComment binding.trailing)

theorem local_renderBroken (declaration : ImportDeclaration) (style : Style) :
    Local p Closed (declaration.renderBroken style) := by
  have hbindings : Local Closed Closed fun w =>
      declaration.named.foldl (fun w binding => renderBinding binding w) w :=
    .foldl fun binding _ => local_renderBinding binding
  have hbody := hbindings.comp (local_renderLines declaration.braceComments)
  exact ((Local.line _).comp hbody.within).comp (.line _)

/-- An import may be kept as a block that is empty. -/
theorem local_render (declaration : ImportDeclaration) (style : Style) :
    Local Closed Closed fun w => declaration.render style w := by
  unfold render
  split
  · rename_i block _
    exact block.local_render fun _ h => h
  · split
    · exact .line _
    · split
      · exact .line _
      · exact (Local.line _).ite (declaration.local_renderBroken style) fun level =>
          !declaration.commented &&
            (decide (level * style.indent.width + (declaration.oneLine style).utf8ByteSize ≤
              style.printWidth) || decide (declaration.named.length < 2))

end ImportDeclaration

theorem Item.local_render (style : Style) (item : Item) :
    Local Closed Closed (item.render style) := by
  cases item with
  | importing declaration => exact declaration.local_render style
  | classlike declaration => exact declaration.local_render
  | other block => exact block.local_render fun _ h => h

/-! ### An entry with and without a blank line in front -/

section

variable {α : Type} {apart : α → α → Bool} {render : α → Writer → Writer}

/-- Which node stands above matters only to what has to stand apart from it. -/
theorem renderAfter_congr (a b : α) (h : ∀ c, apart a c = apart b c) (w : Writer)
    (entries : List (Entry α)) :
    renderAfter apart render w (some a) entries = renderAfter apart render w (some b) entries := by
  cases entries with
  | nil => rfl
  | cons entry entries => simp [renderAfter, h]

theorem renderEntry_setLeadingBlank (w : Writer) (blank : Bool) (entry : Entry α) :
    renderEntry render w false false (entry.setLeadingBlank blank) =
      renderEntry render w false false entry := by
  obtain ⟨comments, blankBefore, node, trailing⟩ := entry
  cases comments <;> simp [renderEntry, renderComments, Entry.setLeadingBlank, separate]

end

/-! ### A container that gains a node -/

/-- How a node gets among the entries of a container: at the top, where the first entry is set off by a
blank line; behind other entries; or in the place of an entry, whose blank line passes to it. -/
inductive Enters {α : Type} (node : α) : List (Entry α) → List (Entry α) → Prop
  | atTop {next : Entry α} {back : List (Entry α)} (blankBefore : Bool) :
      Enters node (next :: back)
        ({ blankBefore, node } :: next.setLeadingBlank true :: back)
  | behind {front back : List (Entry α)} (blankBefore : Bool) (nonempty : front ≠ []) :
      Enters node (front ++ back) (front ++ { blankBefore, node } :: back)
  | inPlace {front back : List (Entry α)} {next : Entry α} :
      Enters node (front ++ next :: back)
        (front ++ { blankBefore := next.leadingBlank, node } :: next.setLeadingBlank false :: back)

section

variable {α : Type} {render : α → Writer → Writer} {node : α} {entries entries' : List (Entry α)}
  {w : Writer}

theorem Enters.nonempty (h : Enters node entries entries') :
    entries.isEmpty = false ∧ entries'.isEmpty = false := by
  cases h with
  | atTop blankBefore => exact ⟨rfl, rfl⟩
  | @behind front back blankBefore nonempty => simp [nonempty]
  | @inPlace front back next => simp

/-! In a container without neighbours that have to stand apart, an entry is written below a blank line,
if something stands above and the entry wants one. Nothing else depends on what stands above. -/

/-- Render entries without a blank line in front of the first one. -/
def renderBelow (render : α → Writer → Writer) (next : Entry α) (back : List (Entry α)) (w : Writer) :
    Writer :=
  renderAfter (fun _ _ => false) render (renderEntry render w false false next) (some next.node) back

theorem renderAfter_cons (w : Writer) (previous : Option α) (next : Entry α)
    (back : List (Entry α)) :
    renderAfter (fun _ _ => false) render w previous (next :: back) =
      renderBelow render next back (separate w previous.isSome next.leadingBlank) := by
  rw [renderBelow, ← Bool.or_false next.leadingBlank, ← renderEntry_eq]
  cases previous <;> rfl

theorem renderAfter_setLeadingBlank (w : Writer) (previous : Option α) (next : Entry α)
    (back : List (Entry α)) (blank : Bool) :
    renderAfter (fun _ _ => false) render w previous (next.setLeadingBlank blank :: back) =
      renderBelow render next back (separate w previous.isSome blank) := by
  rw [renderAfter_cons, Entry.leadingBlank_setLeadingBlank, renderBelow,
    renderEntry_setLeadingBlank, node_setLeadingBlank, renderBelow]

/-- A node on its own, and entries behind it. -/
theorem renderAfter_node (w : Writer) (previous : Option α) (blankBefore : Bool) (node : α)
    (back : List (Entry α)) :
    renderAfter (fun _ _ => false) render w previous ({ blankBefore, node } :: back) =
      renderAfter (fun _ _ => false) render
        (render node (separate w previous.isSome blankBefore)) (some node) back :=
  renderAfter_cons w previous _ back

variable (hnode : Local (fun _ => True) Closed (render node))
  (hnodes : ∀ e ∈ entries, Local (fun _ => True) Closed (render e.node))

theorem local_renderBelow {next : Entry α} {back : List (Entry α)}
    (hnodes : ∀ e ∈ next :: back, Local (fun _ => True) Closed (render e.node)) :
    Local (fun _ => True) (fun _ => True) (renderBelow render next back) := by
  have hany : ∀ text, Closed text → True := fun _ _ => trivial
  have hnext := local_renderEntry hany (hnodes next List.mem_cons_self) false false
  exact (hnext.mono (fun _ h => h) hany).comp
    (local_renderAfter hany (fun e he => hnodes e (List.mem_cons_of_mem next he)) _)

include hnode hnodes

variable (render)

theorem Enters.wedged_renderAfter (h : Enters node entries entries') (hw : Closed w.text) :
    Wedged (fun _ => True) (render node w.fresh).text
      (renderAfter (fun _ _ => false) render w none entries)
      (renderAfter (fun _ _ => false) render w none entries') := by
  have hany : ∀ text, Closed text → True := fun _ _ => trivial
  -- What stands in front of the node ends with a finished row, at the level of the container.
  have hfront (front : List (Entry α)) (hmem : ∀ e ∈ front, e ∈ entries) :
      Local Closed Closed fun w => renderAfter (fun _ _ => false) render w none front :=
    local_renderAfter (fun _ h => h)
      (fun e he => (hnodes e (hmem e he)).mono hany fun _ h => h) none
  cases h with
  | @atTop next back blankBefore =>
    rw [renderAfter_cons, renderAfter_node, renderAfter_setLeadingBlank]
    exact (local_renderBelow hnodes).wedged (hnode.wedged_above_blank hw)
  | @behind front back blankBefore nonempty =>
    have habove := hfront front fun e he => List.mem_append_left back he
    rw [renderAfter_append, renderAfter_append, renderAfter_node,
      List.getLast?_eq_some_getLast nonempty,
      renderAfter_congr node (front.getLast nonempty).node fun _ => rfl]
    refine (local_renderAfter hany (fun e he => hnodes e (List.mem_append_right front he)) _).wedged ?_
    have hclosed := habove.reaches w hw
    rw [← habove.fresh_eq w]
    cases blankBefore with
    | false => exact hnode.wedged_self hclosed
    | true => exact hnode.wedged_below_blank hclosed
  | @inPlace front back next =>
    have habove := hfront front fun e he => List.mem_append_left _ he
    rw [renderAfter_append, renderAfter_append, renderAfter_node, renderAfter_cons,
      renderAfter_setLeadingBlank]
    generalize ((front.getLast?.map (·.node)).or none).isSome = below
    have hseparate := habove.comp (local_separate (fun _ h => h) below next.leadingBlank)
    refine (local_renderBelow fun e he => hnodes e (List.mem_append_right front he)).wedged ?_
    have hwedged := hnode.wedged_self (hseparate.reaches w hw)
    rwa [hseparate.fresh_eq w] at hwedged

theorem Enters.wedged (h : Enters node entries entries') (dangling : List Comment)
    (hw : Closed w.text) :
    Wedged (fun _ => True) (render node w.fresh).text
      (renderEntries (fun _ _ => false) render entries dangling w)
      (renderEntries (fun _ _ => false) render entries' dangling w) := by
  unfold renderEntries
  rw [h.nonempty.1, h.nonempty.2]
  exact (local_renderComments (fun _ _ => trivial) true false dangling).wedged
    (h.wedged_renderAfter render hnode hnodes hw)

end

/-! ### The containers around -/

section

variable {α : Type} {apart : α → α → Bool} {render : α → Writer → Writer} {text : String}
  {w : Writer}

/-- Braces around a seam. -/
theorem wedged_renderBraced (head : Block) (comment : Option String) {body body' : Writer → Writer}
    (h : ∀ v, Closed v.text → v.fresh = w.fresh.deeper →
      Wedged p text (body v) (body' v)) :
    Wedged Closed text (renderBraced head comment false body w)
      (renderBraced head comment false body' w) := by
  have hopening := local_opening (p := fun _ => True) head " \x7b" comment
  have hbody := h (appendComment (head.renderOpen " \x7b" w) comment).deeper
    (hopening.reaches w trivial) (congrArg Writer.deeper (hopening.fresh_eq w))
  exact (Local.line _).wedged hbody.shallower

/-- Entries around a seam: one of them has another node, whose rendering gains rows. -/
theorem wedged_renderEntries (front back : List (Entry α)) (entry : Entry α) (node : α)
    (hapart : ∀ a, apart a node = apart a entry.node) (hapart' : ∀ a, apart node a = apart entry.node a)
    (hfront : ∀ e ∈ front, Local Closed Closed (render e.node))
    (hback : ∀ e ∈ back, Local Closed Closed (render e.node))
    (h : ∀ v, v.fresh = w.fresh → Wedged Closed text (render entry.node v) (render node v))
    (dangling : List Comment) :
    Wedged Closed text (renderEntries apart render (front ++ entry :: back) dangling w)
      (renderEntries apart render (front ++ { entry with node } :: back) dangling w) := by
  have hclosed : ∀ text, Closed text → Closed text := fun _ h => h
  have habove : Local Closed Closed fun w => renderAfter apart render w none front :=
    local_renderAfter hclosed hfront none
  have hnonempty (e : Entry α) : (front ++ e :: back).isEmpty = false := by simp
  unfold renderEntries
  rw [hnonempty, hnonempty, renderAfter_append, renderAfter_append]
  refine (local_renderComments hclosed _ _ dangling).wedged ?_
  simp only [renderAfter, renderAfter_congr node entry.node hapart', hapart]
  refine (local_renderAfter hclosed hback _).wedged ?_
  simp only [renderEntry]
  exact (local_appendComment entry.trailing).wedged <| h _ <|
    ((habove.comp (local_renderComments hclosed _ _ entry.comments)).comp
      (local_separate hclosed _ _)).fresh_eq w

end

variable {text : String} {w : Writer}

/-- A constructor that gains a statement. -/
theorem Constructor.wedged_render {constructor : Constructor} {statement : Statement}
    {statements : List (Entry Statement)}
    (h : Enters statement constructor.statements statements)
    (hstatement : statement.text.isEmpty = false)
    (hregular : (Member.constructor constructor).Regular) (w : Writer) :
    Wedged Closed (statement.text.render w.fresh.deeper).text (constructor.render w)
      ({ constructor with statements }.render w) := by
  unfold render
  simp only [h.nonempty, Bool.false_and]
  refine wedged_renderBraced (p := fun _ => True) _ _ fun v hclosed hfresh => ?_
  rw [← hfresh]
  exact h.wedged (·.text.render) (Block.local_render_of_isEmpty hstatement)
    (fun e he => Block.local_render_of_isEmpty (hregular e he)) _ hclosed

namespace ClassDeclaration

variable {declaration : ClassDeclaration} {members : List (Entry Member)}

/-- A class that gains a member. -/
theorem wedged_render_of_enters {member : Member} (h : Enters member declaration.members members)
    (hmember : member.Regular) (hregular : ∀ e ∈ declaration.members, e.node.Regular)
    (w : Writer) :
    Wedged Closed (member.render w.fresh.deeper).text (declaration.render w)
      ({ declaration with members }.render w) := by
  unfold render
  simp only [h.nonempty, Bool.false_and]
  refine wedged_renderBraced (p := fun _ => True) _ _ fun v hclosed hfresh => ?_
  rw [← hfresh]
  exact h.wedged (·.render) hmember.local_render
    (fun e he => (hregular e he).local_render) _ hclosed

/-- A class with a constructor that gains a statement. -/
theorem wedged_render_of_constructor {above below : List (Entry Member)} {entry : Entry Member}
    {constructor changed : Constructor}
    (hmembers : declaration.members = above ++ entry :: below)
    (hentry : entry.node = .constructor constructor)
    (h : ∀ v, v.fresh = w.fresh.deeper →
      Wedged Closed text (constructor.render v) (changed.render v)) :
    Wedged Closed text (declaration.render w)
      ({ declaration with
        members := above ++ { entry with node := Member.constructor changed } :: below }.render w) := by
  have hnonempty (e : Entry Member) : (above ++ e :: below).isEmpty = false := by simp
  unfold render
  simp only [hmembers, hnonempty, Bool.false_and]
  refine wedged_renderBraced (p := Closed) _ _ fun v _ hfresh => ?_
  refine wedged_renderEntries above below entry (.constructor changed) (fun _ => rfl) (fun _ => rfl)
    (fun e _ => e.node.local_render) (fun e _ => e.node.local_render) (fun u hu => ?_) _
  rw [hentry]
  exact h u (hu.trans hfresh)

end ClassDeclaration

/-- A document with a class whose rendering gains rows. -/
theorem Document.gainsLines_of_class {document : Document} {style : Style}
    {front back : List (Entry Item)} {entry : Entry Item} {declaration changed : ClassDeclaration}
    (hitems : document.items = front ++ entry :: back)
    (hentry : entry.node = .classlike declaration)
    (h : ∀ v, v.fresh = { indent := style.indent } →
      Wedged Closed text (declaration.render v) (changed.render v)) (htext : Closed text) :
    GainsLines (document.render style)
      ({ document with
        items := front ++ { entry with node := Item.classlike changed } :: back }.render style)
      text := by
  unfold Document.render
  rw [hitems]
  have hapart (a : Item) : a.apart (.classlike changed) = a.apart entry.node := by rw [hentry]; rfl
  have hapart' (a : Item) : (Item.classlike changed).apart a = entry.node.apart a := by
    rw [hentry]
    rfl
  refine Wedged.gainsLines (wedged_renderEntries front back entry (.classlike changed) hapart hapart'
    (fun e _ => e.node.local_render style) (fun e _ => e.node.local_render style)
    (fun v hv => ?_) document.dangling) htext
  rw [hentry]
  exact h v hv

end CodeSplice
