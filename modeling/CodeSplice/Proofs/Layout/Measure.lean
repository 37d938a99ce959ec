/-
Module: CodeSplice.Proofs.Layout.Measure
Purpose: How the lines of a stretch of source are measured, with everything that the measure of a line
  says about it. Rendering the block of a stretch writes the stretch laid out anew: apart from white
  space at both ends, only white space around line feeds changes.
Main exports: Block.written, Block.toList_text_render, Measures, measures_measureLine,
  commonIndent_spec, measureAt, measure_eq_map, laid_ofRange
-/
import CodeSplice.Layout.Measure
import CodeSplice.Proofs.Layout.Relaid

namespace CodeSplice.Layout

open Text

/-! ### What a block writes -/

theorem toList_spaces (count : Nat) : (spaces count).toList = List.replicate count ' ' := by
  simp [spaces]

theorem white_spaces (count : Nat) : White (spaces count).toList := by
  rw [toList_spaces]
  exact white_replicate (by decide) count

theorem newline_not_mem_spaces (count : Nat) : '\n' ∉ (spaces count).toList := by
  rw [toList_spaces]
  intro h
  exact absurd (List.eq_of_mem_replicate h) (by decide)

namespace Block

/-- The white space that a writer puts in front of a line. -/
def Line.margin (w : Writer) : Line → List Char
  | code depth offset _ => w.margin.toList ++ (spaces (depth * w.indent.width + offset)).toList
  | _ => []

/-- The text of a line without its indentation. -/
def Line.chars : Line → List Char
  | code _ _ text => text.toList
  | literal text => text.toList
  | blank => []

theorem Line.white_margin (w : Writer) (line : Line) : White (line.margin w) := by
  cases line with
  | code depth offset text =>
    exact white_append.2 ⟨white_spaces _, white_spaces _⟩
  | literal text => exact white_nil
  | blank => exact white_nil

theorem Line.newline_not_mem_margin (w : Writer) (line : Line) : '\n' ∉ line.margin w := by
  cases line with
  | code depth offset text =>
    simp only [margin, List.mem_append, not_or]
    exact ⟨newline_not_mem_spaces _, newline_not_mem_spaces _⟩
  | literal text => simp [margin]
  | blank => simp [margin]

/-- What a writer appends for lines of a block. -/
def written (w : Writer) (lines : List Line) : List Char :=
  lines.flatMap fun line => line.margin w ++ line.chars ++ ['\n']

@[simp] theorem indent_lineRender (line : Line) (w : Writer) :
    (line.render w).indent = w.indent := by
  cases line <;> rfl

theorem toList_text_lineRender (line : Line) (w : Writer) :
    (line.render w).text.toList = w.text.toList ++ (line.margin w ++ line.chars ++ ['\n']) := by
  cases line with
  | code depth offset text =>
    simp [Line.render, Writer.line, Writer.raw, Line.margin, Line.chars, List.append_assoc]
  | literal text => simp [Line.render, Writer.raw, Writer.blank, Line.margin, Line.chars]
  | blank => simp [Line.render, Writer.raw, Writer.blank, Line.margin, Line.chars]

/-- Rendering a block appends its lines to what has been written. -/
theorem toList_text_render (block : Block) (w : Writer) :
    (block.render w).text.toList = w.text.toList ++ written w block.lines := by
  obtain ⟨lines⟩ := block
  simp only [render]
  induction lines generalizing w with
  | nil => simp [written]
  | cons line lines ih =>
    have hmargin : ∀ other : Line, other.margin (line.render w) = other.margin w := by
      intro other
      cases other <;> simp [Line.margin, Writer.margin]
    rw [List.foldl_cons, ih, toList_text_lineRender]
    simp [written, hmargin, List.append_assoc]

@[simp] theorem indent_render (block : Block) (w : Writer) :
    (block.render w).indent = w.indent := by
  obtain ⟨lines⟩ := block
  simp only [render]
  induction lines generalizing w with
  | nil => rfl
  | cons line lines ih => simp [ih]

end Block

/-! ### Lines as they are measured -/

/-- How a line of source, which begins at `start`, stands in a block. `startsInside` tells whether it
begins inside a template literal. -/
inductive Stands (inside : Nat → Bool) (startsInside : Bool) (start : Nat) (line : List Char) :
    Block.Line → Prop where
  | code {depth offset : Nat} {text : String} {lead tail : List Char}
      (outside : startsInside = false) (line_eq : line = lead ++ text.toList ++ tail)
      (white : White lead) (white' : White tail)
      (visible : White text.toList → ∃ q, start + lead.length ≤ q ∧
        q ≤ start + lead.length + text.toList.length ∧ inside q = true) :
      Stands inside startsInside start line (.code depth offset text)
  | literal {text : String} {tail : List Char} (within : startsInside = true)
      (line_eq : line = text.toList ++ tail) (white : White tail) :
      Stands inside startsInside start line (.literal text)
  | blank (outside : startsInside = false) (white : White line) :
      Stands inside startsInside start line .blank

/-- A carriage return at the end is all that is left out of a line. -/
theorem exists_return (line : List Char) : ∃ tail, line = dropReturn line ++ tail ∧
    (tail = [] ∧ line.getLast? ≠ some '\r' ∨ tail = ['\r']) := by
  unfold dropReturn
  split
  · rename_i h
    obtain ⟨front, rfl⟩ := List.getLast?_eq_some_iff.1 (by simpa using h)
    exact ⟨['\r'], by simp, .inr rfl⟩
  · rename_i h
    exact ⟨[], by simp, .inl ⟨rfl, by simpa using h⟩⟩

theorem exists_dropReturn (line : List Char) : ∃ w, line = dropReturn line ++ w ∧ White w := by
  obtain ⟨tail, hline, ⟨rfl, -⟩ | rfl⟩ := exists_return line
  · exact ⟨[], hline, white_nil⟩
  · exact ⟨['\r'], hline, by simpa [White] using (by decide : isSpace '\r' = true)⟩

theorem lead_append_body (line : List Char) : lead line ++ body line = line :=
  List.takeWhile_append_dropWhile

theorem not_white_of_trimEnd {cs : List Char} (h : trimEnd cs ≠ []) : ¬ White (trimEnd cs) := by
  intro hwhite
  have hlast := not_isSpace_getLast_trimEnd (List.getLast?_eq_some_getLast h)
  rw [hwhite _ (List.getLast_mem h)] at hlast
  contradiction

theorem white_lead (line : List Char) : White (lead line) := fun _ hc =>
  isSpace_of_isBlank (List.all_eq_true.1 List.all_takeWhile _ hc)

theorem lead_body (line : List Char) : lead (body line) = [] := by
  induction line with
  | nil => rfl
  | cons c line ih =>
    simp only [lead, body] at ih ⊢
    rw [List.dropWhile_cons]
    split
    · exact ih
    · rename_i hc
      rw [List.takeWhile_cons, if_neg hc]

theorem lead_eq_nil_of_prefix {front text : List Char} (h : front <+: text) (hlead : lead text = []) :
    lead front = [] := by
  obtain ⟨back, rfl⟩ := h
  cases front with
  | nil => rfl
  | cons c front =>
    rw [lead, List.cons_append, List.takeWhile_cons] at hlead
    rw [lead, List.takeWhile_cons]
    split at hlead
    · cases hlead
    · rename_i hc
      rw [if_neg hc]

/-- What is measured of a line of source, which begins at `start`. The text of a line of code stands
between blanks and white space that is trimmed; nothing is trimmed if the line, without its carriage
return, ends in a literal. -/
inductive Measures (literals : List Span) (base : Option Nat) (startsInside : Bool) (start : Nat)
    (line : List Char) : MeasuredLine → Prop where
  | code {text trimmed : List Char} (outside : startsInside = false)
      (line_eq : dropReturn line = lead (dropReturn line) ++ (text ++ trimmed)) (ne_nil : text ≠ [])
      (lead_eq : lead text = []) (white : White trimmed)
      (ends : trimEnd text = text ∧ inside literals (start + (dropReturn line).length) = false ∨
        trimmed = [] ∧ inside literals (start + (dropReturn line).length) = true) :
      Measures literals base startsInside start line
        (.code (base.map (· + columns (lead (dropReturn line)))) text)
  | literal (within : startsInside = true) :
      Measures literals base startsInside start line (.literal (dropReturn line))
  | blank (outside : startsInside = false) (white : White line) :
      Measures literals base startsInside start line .blank

theorem measures_measureLine (literals : List Span) (base : Option Nat) (startsInside : Bool)
    (start : Nat) (line : List Char) : Measures literals base startsInside start line
      (measureLine literals base startsInside start line) := by
  have hsplit := (lead_append_body (dropReturn line)).symm
  obtain ⟨trimmed, htrim, hwhite⟩ := exists_trimEnd (body (dropReturn line))
  have hblank (hbody : White (body (dropReturn line))) : White line := by
    obtain ⟨tail, hline, htail⟩ := exists_dropReturn line
    rw [hline, hsplit]
    exact white_append.2 ⟨white_append.2 ⟨white_lead _, hbody⟩, htail⟩
  unfold measureLine
  cases startsInside with
  | true => exact .literal rfl
  | false =>
    simp only [Bool.false_eq_true, if_false]
    split
    · rename_i hend
      split
      · rename_i hempty
        exact .blank rfl (hblank (List.isEmpty_iff.1 hempty ▸ white_nil))
      · rename_i hempty
        exact .code rfl (by rw [List.append_nil]; exact hsplit) (by simpa using hempty)
          (lead_body _) white_nil (.inr ⟨rfl, hend⟩)
    · rename_i hend
      split
      · rename_i hempty
        rw [List.isEmpty_iff.1 hempty, List.nil_append] at htrim
        exact .blank rfl (hblank (htrim ▸ hwhite))
      · rename_i hempty
        have hlead := lead_eq_nil_of_prefix ⟨trimmed, htrim.symm⟩ (lead_body (dropReturn line))
        exact .code rfl (by rw [← htrim]; exact hsplit) (by simpa using hempty) hlead hwhite
          (.inl ⟨trimEnd_trimEnd _, Bool.eq_false_iff.2 hend⟩)

/-- A measured line stands in the block. -/
theorem stands_measureLine (literals : List Span) (base : Option Nat) (startsInside : Bool)
    (start : Nat) (line : List Char) (common unit : Nat) :
    Stands (inside literals) startsInside start line
      ((measureLine literals base startsInside start line).place common unit) := by
  obtain ⟨tail, hline, htail⟩ := exists_dropReturn line
  have hmeasures := measures_measureLine literals base startsInside start line
  generalize measureLine literals base startsInside start line = measured at hmeasures
  cases hmeasures with
  | literal within => exact .literal within (by simpa using hline) htail
  | blank outside white => exact .blank outside white
  | @code text trimmed outside line_eq ne_nil lead_eq white ends =>
    have hall : line = lead (dropReturn line) ++ (String.ofList text).toList ++ (trimmed ++ tail) := by
      rw [String.toList_ofList, List.append_assoc, ← List.append_assoc text, ← List.append_assoc,
        ← line_eq]
      exact hline
    refine .code outside hall (white_lead _) (white_append.2 ⟨white, htail⟩) fun hwhite => ?_
    rw [String.toList_ofList] at hwhite ⊢
    rcases ends with ⟨htrim, -⟩ | ⟨rfl, hend⟩
    · exact absurd (htrim.symm ▸ hwhite) (not_white_of_trimEnd (by rwa [htrim]))
    · have hlength := congrArg List.length line_eq
      rw [List.append_nil, List.length_append] at hlength
      exact ⟨_, by omega, by omega, hend⟩

/-- The indentation that lines have in common is the least that is known of one of them. -/
theorem commonIndent_spec {lines : List MeasuredLine} {line : MeasuredLine} {column : Nat}
    (hline : line ∈ lines) (hcolumn : line.indent? = some column) :
    commonIndent lines ≤ column ∧ ∃ other ∈ lines, other.indent? = some (commonIndent lines) := by
  have hmem : column ∈ lines.filterMap (·.indent?) := List.mem_filterMap.2 ⟨line, hline, hcolumn⟩
  unfold commonIndent
  cases hmin : (lines.filterMap (·.indent?)).min? with
  | none => simp [List.min?_eq_none_iff.1 hmin] at hmem
  | some least =>
    obtain ⟨hleast, hall⟩ := List.min?_eq_some_iff.1 hmin
    exact ⟨hall column hmem, List.mem_filterMap.1 hleast⟩

/-! ### Lines one after another -/

/-- What the lines behind a line of a block, which begin at `start`, write: nothing, or white space and
something laid out anew, where the white space in front is a run that goes on from the line above. -/
inductive Behind (inside : Nat → Bool) (w : Writer) (start : Nat) (source : List Char)
    (lines : List Block.Line) : Prop where
  | nothing (collapse_eq : Block.collapse lines = []) (white : White source)
  | something {lead core tail lead' core' tail' : List Char}
      (ne_nil : Block.collapse lines ≠ []) (source_eq : source = lead ++ core ++ tail)
      (written_eq : Block.written w (Block.collapse lines) = lead' ++ core' ++ tail')
      (white : White lead) (white' : White lead') (whiteTail : White tail)
      (whiteTail' : White tail')
      (relaid : Relaid inside (start + lead.length) core core')
      (count_eq : lead'.count '\n' = min (lead.count '\n') 1)
      (blank_iff : (Block.collapse lines).head? = some .blank ↔ '\n' ∈ lead)
      (within : inside start = true → '\n' ∉ lead)
      (longest : inside start = false → Feeds (inside · = false) start lead →
        ∀ v u, core = v ++ '\n' :: u → White v → ∃ q, start + lead.length ≤ q ∧
          q ≤ start + lead.length + v.length ∧ inside q = true)

/-- The white space between a line and the text behind it is a run that is laid out anew. -/
theorem runRelaid_of_lead {inside : Nat → Bool} {position start : Nat}
    {front lead lead' core : List Char} (whiteFront : White front) (hfront : '\n' ∉ front)
    (hstart : position + front.length + 1 = start) (white : White lead) (white' : White lead')
    (count_eq : lead'.count '\n' = min (lead.count '\n') 1)
    (within : inside start = true → '\n' ∉ lead)
    (longest : inside start = false → Feeds (inside · = false) start lead →
      ∀ v u, core = v ++ '\n' :: u → White v → ∃ q, start + lead.length ≤ q ∧
        q ≤ start + lead.length + v.length ∧ inside q = true) :
    RunRelaid inside position (front ++ '\n' :: lead) ('\n' :: lead') core := by
  have hspace : isSpace '\n' = true := isSpace_newline
  have hcount : (front ++ '\n' :: lead).count '\n' = lead.count '\n' + 1 := by
    simp [List.count_append, List.count_eq_zero.2 hfront]
  have hcount' : ('\n' :: lead').count '\n' = lead'.count '\n' + 1 := by simp
  have hfirst : ∀ {p : Nat → Prop}, Feeds p position (front ++ '\n' :: lead) → p start := by
    intro p h
    have := h front.length (by simp)
    rwa [hstart] at this
  refine
    { white := white_append.2 ⟨whiteFront, white_cons.2 ⟨hspace, white⟩⟩
      white' := white_cons.2 ⟨hspace, white'⟩
      mem := by simp
      mem' := by simp
      count_outside := fun _ => by rw [hcount, hcount', count_eq]; omega
      longest := fun hfeeds v u hcore hv => ?_
      count_inside := fun hfeeds => ?_ }
  · have hrest : Feeds (inside · = false) start lead := by
      intro i hi
      have := hfeeds (front.length + 1 + i) (by
        rw [List.getElem?_append_right (by omega),
          show front.length + 1 + i - front.length = i + 1 by omega]
        simpa using hi)
      rwa [show position + (front.length + 1 + i) + 1 = start + i + 1 by omega] at this
    obtain ⟨q, hle, hlt, hq⟩ := longest (hfirst hfeeds) hrest v u hcore hv
    refine ⟨q, ?_, ?_, hq⟩
    all_goals simp only [List.length_append, List.length_cons]; omega
  · have := within (hfirst hfeeds)
    rw [hcount, hcount', count_eq, List.count_eq_zero.2 this]
    omega

theorem joinLines_cons (line : List Char) (lines : List (List Char)) :
    joinLines (line :: lines) =
      line ++ if lines = [] then [] else '\n' :: joinLines lines := by
  cases lines <;> simp [joinLines]

/-- What stands in the block of a line that is not blank lies between white space. If it is white space
itself, it reaches into a literal. -/
theorem Stands.exists_chars {inside : Nat → Bool} {startsInside : Bool} {start : Nat} {line : List Char}
    {first : Block.Line} (h : Stands inside startsInside start line first) (hblank : first ≠ .blank) :
    ∃ lead behind, line = lead ++ first.chars ++ behind ∧ White lead ∧ White behind ∧
      (startsInside = false → White first.chars → ∃ q, start + lead.length ≤ q ∧
        q ≤ start + lead.length + first.chars.length ∧ inside q = true) := by
  cases h with
  | code _ line_eq white white' visible => exact ⟨_, _, line_eq, white, white', fun _ => visible⟩
  | literal within line_eq white =>
    exact ⟨[], _, line_eq, white_nil, white, fun houtside => by simp [within] at houtside⟩
  | blank => exact absurd rfl hblank

/-- White space up to a line feed behind a stretch reaches into a literal if the stretch does, should it
be white space. -/
theorem exists_inside_of_append {inside : Nat → Bool} {start : Nat} {chars rest v u : List Char}
    (hmem : '\n' ∉ chars) (hvisible : White chars → ∃ q, start ≤ q ∧ q ≤ start + chars.length ∧
      inside q = true) (hv : chars ++ rest = v ++ '\n' :: u) (hwhite : White v) :
    ∃ q, start ≤ q ∧ q ≤ start + v.length ∧ inside q = true := by
  obtain ⟨v', rfl⟩ : ∃ v', v = chars ++ v' := by
    rcases List.append_eq_append_iff.1 hv with ⟨v', rfl, -⟩ | ⟨v', hchars, hrest⟩
    · exact ⟨v', rfl⟩
    · cases v' with
      | nil => exact ⟨[], by simpa using hchars.symm⟩
      | cons c v' =>
        obtain rfl : '\n' = c := (List.cons.inj hrest).1
        exact absurd (hchars ▸ List.mem_append_right v List.mem_cons_self) hmem
  obtain ⟨q, hle, hlt, hq⟩ := hvisible (white_append.1 hwhite).1
  exact ⟨q, hle, by rw [List.length_append]; omega, hq⟩

/-- A line that is not blank, with the lines behind it. -/
theorem laid_cons {inside : Nat → Bool} {w : Writer} {startsInside : Bool} {start : Nat}
    {line : List Char} {lines : List (List Char)} {first : Block.Line} {others : List Block.Line}
    (hline : '\n' ∉ line) (hs : Stands inside startsInside start line first)
    (hblank : first ≠ .blank) (hnil : lines = [] → others = [])
    (hb : Behind inside w (start + line.length + 1) (joinLines lines) others) :
    ∃ lead core tail lead' core' tail',
      joinLines (line :: lines) = lead ++ core ++ tail ∧
      Block.written w (first :: Block.collapse others) = lead' ++ core' ++ tail' ∧
      White lead ∧ White lead' ∧ White tail ∧ White tail' ∧ '\n' ∉ lead ∧ '\n' ∉ lead' ∧
      Relaid inside (start + lead.length) core core' ∧
      (startsInside = false → ∀ v u, core = v ++ '\n' :: u → White v →
        ∃ q, start + lead.length ≤ q ∧ q ≤ start + lead.length + v.length ∧ inside q = true) := by
  obtain ⟨lead, behind, hline_eq, white, white', hvisible⟩ := hs.exists_chars hblank
  have hmem : '\n' ∉ lead ∧ '\n' ∉ first.chars ∧ '\n' ∉ behind := by
    rw [hline_eq] at hline
    simp only [List.mem_append, not_or] at hline
    exact ⟨hline.1.1, hline.1.2, hline.2⟩
  have hlength : line.length = lead.length + first.chars.length + behind.length := by
    rw [hline_eq, List.length_append, List.length_append]
  -- Whatever follows, a run of white space in front of it reaches the visible part of the line.
  have hlongest : ∀ rest, startsInside = false → ∀ v u, first.chars ++ rest = v ++ '\n' :: u →
      White v → ∃ q, start + lead.length ≤ q ∧ q ≤ start + lead.length + v.length ∧
        inside q = true :=
    fun rest houtside v u => exists_inside_of_append hmem.2.1 (hvisible houtside)
  have hwritten : Block.written w (first :: Block.collapse others) =
      first.margin w ++ first.chars ++ '\n' :: Block.written w (Block.collapse others) := by
    simp [Block.written]
  have hnewline : White ['\n'] := white_cons.2 ⟨isSpace_newline, white_nil⟩
  rw [joinLines_cons, hwritten, hline_eq]
  cases hb with
  | nothing collapse_eq whiteRest =>
    have whiteTail : White (behind ++ if lines = [] then [] else '\n' :: joinLines lines) := by
      refine white_append.2 ⟨white', ?_⟩
      split
      · exact white_nil
      · exact white_cons.2 ⟨isSpace_newline, whiteRest⟩
    refine ⟨lead, first.chars, _, first.margin w, first.chars, ['\n'], by simp, ?_, white,
      first.white_margin w, whiteTail, hnewline, hmem.1, first.newline_not_mem_margin w, ?_, ?_⟩
    · simp [collapse_eq, Block.written]
    · simpa using Relaid.keepAll hmem.2.1 .nil
    · simpa using hlongest []
  | @something lead₂ core₂ tail₂ lead₂' core₂' tail₂' ne_nil source_eq written_eq white₂ white₂' whiteTail
      whiteTail' relaid count_eq blank_iff within longest =>
    have hlines : lines ≠ [] := by
      intro h
      simp [hnil h, Block.collapse] at ne_nil
    refine ⟨lead, first.chars ++ (behind ++ '\n' :: lead₂ ++ core₂), tail₂, first.margin w,
      first.chars ++ ('\n' :: lead₂' ++ core₂'), tail₂', ?_, ?_, white,
      first.white_margin w, whiteTail, whiteTail', hmem.1, first.newline_not_mem_margin w, ?_, ?_⟩
    · simp [hlines, source_eq, List.append_assoc]
    · simp [written_eq, List.append_assoc]
    · refine Relaid.keepAll hmem.2.1 (.run ?_ ?_)
      · exact runRelaid_of_lead white' hmem.2.2 (by omega) white₂ white₂' count_eq within longest
      · rw [show start + lead.length + first.chars.length + (behind ++ '\n' :: lead₂).length =
            start + line.length + 1 + lead₂.length by
          simp only [List.length_append, List.length_cons]; omega]
        exact relaid
    · exact hlongest _

theorem Block.collapse_cons {line : Block.Line} (h : line ≠ .blank) (lines : List Block.Line) :
    Block.collapse (line :: lines) = line :: Block.collapse lines := by
  cases line with
  | blank => exact absurd rfl h
  | code => rfl
  | literal => rfl

theorem Block.collapse_blank_cons (lines : List Block.Line) :
    Block.collapse (.blank :: lines) =
      if Block.collapse lines = [] ∨ (Block.collapse lines).head? = some .blank then
        Block.collapse lines
      else .blank :: Block.collapse lines := by
  rw [Block.collapse]
  cases h : Block.collapse lines with
  | nil => simp
  | cons line rest => cases line <;> simp

/-- A blank line in front of others joins the white space in front of them. -/
theorem Behind.blank_cons {inside : Nat → Bool} {w : Writer} {start : Nat} {line : List Char}
    {lines : List (List Char)} {others : List Block.Line} (hline : '\n' ∉ line)
    (hwhite : White line) (houtside : inside start = false) (hnil : lines = [] → others = [])
    (hb : Behind inside w (start + line.length + 1) (joinLines lines) others) :
    Behind inside w start (joinLines (line :: lines)) (.blank :: others) := by
  cases hb with
  | nothing collapse_eq white =>
    refine .nothing (by rw [Block.collapse_blank_cons, if_pos (.inl collapse_eq), collapse_eq]) ?_
    rw [joinLines_cons]
    refine white_append.2 ⟨hwhite, ?_⟩
    split
    · exact white_nil
    · exact white_cons.2 ⟨isSpace_newline, white⟩
  | @something lead core tail lead' core' tail' ne_nil source_eq written_eq white white' whiteTail
      whiteTail' relaid count_eq blank_iff within longest =>
    have hlines : lines ≠ [] := by
      intro hl
      simp [hnil hl, Block.collapse] at ne_nil
    have hsource : joinLines (line :: lines) = (line ++ '\n' :: lead) ++ core ++ tail := by
      simp [joinLines_cons, hlines, source_eq, List.append_assoc]
    have hlead : White (line ++ '\n' :: lead) :=
      white_append.2 ⟨hwhite, white_cons.2 ⟨isSpace_newline, white⟩⟩
    have hplace : start + (line ++ '\n' :: lead).length =
        start + line.length + 1 + lead.length := by
      simp only [List.length_append, List.length_cons]
      omega
    have hcount : (line ++ '\n' :: lead).count '\n' = lead.count '\n' + 1 := by
      simp [List.count_append, List.count_eq_zero.2 hline]
    have hwithin : inside start = true → '\n' ∉ line ++ '\n' :: lead := by
      simp [houtside]
    have hlongest : inside start = false → Feeds (inside · = false) start (line ++ '\n' :: lead) →
        ∀ v u, core = v ++ '\n' :: u → White v → ∃ q, start + (line ++ '\n' :: lead).length ≤ q ∧
          q ≤ start + (line ++ '\n' :: lead).length + v.length ∧ inside q = true := by
      intro _ hfeeds
      exact (runRelaid_of_lead hwhite hline rfl white white' count_eq within longest).longest hfeeds
    by_cases hfirst : (Block.collapse others).head? = some .blank
    · have hcollapse : Block.collapse (.blank :: others) = Block.collapse others := by
        rw [Block.collapse_blank_cons, if_pos (.inr hfirst)]
      have hpos := List.count_pos_iff.2 (blank_iff.1 hfirst)
      exact .something (hcollapse ▸ ne_nil) hsource (hcollapse ▸ written_eq) hlead white' whiteTail
        whiteTail' (by rwa [hplace]) (by rw [hcount, count_eq]; omega)
        (by simp [hcollapse, hfirst]) hwithin hlongest
    · have hcollapse : Block.collapse (.blank :: others) = .blank :: Block.collapse others := by
        rw [Block.collapse_blank_cons, if_neg (not_or.2 ⟨ne_nil, hfirst⟩)]
      have hzero := List.count_eq_zero.2 (mt blank_iff.2 hfirst)
      have hwritten : Block.written w (Block.collapse (.blank :: others)) =
          ('\n' :: lead') ++ core' ++ tail' := by
        rw [hcollapse]
        simp only [Block.written, List.flatMap_cons, Block.Line.margin, Block.Line.chars,
          List.nil_append, List.cons_append] at written_eq ⊢
        rw [written_eq]
      refine .something (by simp [hcollapse]) hsource hwritten hlead
        (white_cons.2 ⟨isSpace_newline, white'⟩) whiteTail whiteTail' (by rwa [hplace]) ?_
        (by simp [hcollapse]) hwithin hlongest
      rw [hcount, List.count_cons_self, count_eq, hzero]
      rfl

/-- A line behind the first one, measured and placed. -/
def placeLine (literals : List Span) (common unit : Nat) (line : Nat × List Char) : Block.Line :=
  (measureLine literals (some 0) (inside literals line.1) line.1 line.2).place common unit

/-- What the lines behind a line of a block write. -/
theorem behind_placed (literals : List Span) (common unit : Nat) (w : Writer) (start : Nat)
    {lines : List (List Char)} (h : ∀ line ∈ lines, '\n' ∉ line) :
    Behind (inside literals) w start (joinLines lines)
      ((withStarts start lines).map (placeLine literals common unit)) := by
  induction lines generalizing start with
  | nil => exact .nothing rfl white_nil
  | cons line lines ih =>
    have hline := h line (by simp)
    have hb := ih (start + line.length + 1) fun other hother => h other (by simp [hother])
    have hstands : Stands (inside literals) (inside literals start) start line
        (placeLine literals common unit (start, line)) := stands_measureLine ..
    have hnil : lines = [] → (withStarts (start + line.length + 1) lines).map
        (placeLine literals common unit) = [] := by
      rintro rfl
      rfl
    simp only [withStarts, List.map_cons]
    by_cases hblank : placeLine literals common unit (start, line) = .blank
    · rw [hblank] at hstands ⊢
      cases hstands with
      | blank outside white => exact .blank_cons hline white outside hnil hb
    · obtain ⟨lead, core, tail, lead', core', tail', hsource, hwritten, white, white', whiteTail,
        whiteTail', hmem, hmem', relaid, longest⟩ := laid_cons hline hstands hblank hnil hb
      rw [← Block.collapse_cons hblank] at hwritten
      have hzero := List.count_eq_zero.2 hmem
      have hzero' := List.count_eq_zero.2 hmem'
      have hfirst : ∀ others, (Block.collapse (placeLine literals common unit (start, line) ::
          others)).head? = some .blank ↔ '\n' ∈ lead := by
        intro others
        simp [Block.collapse_cons hblank, hblank, hmem]
      exact .something (by simp [Block.collapse_cons hblank]) hsource hwritten white white' whiteTail
        whiteTail' relaid (by rw [hzero, hzero']; rfl) (hfirst _) (fun _ => hmem)
        (fun houtside _ => longest houtside)

/-! ### The lines of a stretch -/

theorem prefix_drop_of_append {front back text : List Char} {position : Nat}
    (h : front ++ back <+: text.drop position) : back <+: text.drop (position + front.length) := by
  obtain ⟨rest, h⟩ := h
  rw [← List.drop_drop, ← h, List.append_assoc, List.drop_left]
  exact List.prefix_append back rest

/-- Each line stands where it begins. -/
theorem prefix_of_mem_withStarts {source : List Char} {start position : Nat} {line : List Char}
    {lines : List (List Char)} (h : (position, line) ∈ withStarts start lines)
    (hlines : joinLines lines <+: source.drop start) : line <+: source.drop position := by
  induction lines generalizing start with
  | nil => cases h
  | cons first lines ih =>
    rw [joinLines_cons] at hlines
    rcases List.mem_cons.1 h with heq | h
    · obtain ⟨rfl, rfl⟩ := Prod.mk.inj heq
      exact (List.prefix_append _ _).trans hlines
    · have hne : lines ≠ [] := by
        rintro rfl
        cases h
      rw [if_neg hne, List.append_cons] at hlines
      refine ih h ?_
      have hrest := prefix_drop_of_append hlines
      rwa [List.length_append, ← Nat.add_assoc] at hrest

theorem mem_of_mem_withStarts {start position : Nat} {line : List Char} {lines : List (List Char)}
    (h : (position, line) ∈ withStarts start lines) : line ∈ lines := by
  induction lines generalizing start with
  | nil => cases h
  | cons first lines ih =>
    rcases List.mem_cons.1 h with heq | h
    · obtain ⟨-, rfl⟩ := Prod.mk.inj heq
      exact List.mem_cons_self
    · exact List.mem_cons_of_mem _ (ih h)

/-- Nothing stands in front of a line that begins behind a line feed. -/
theorem columnsBefore_of_mem {source : List Char} {start position : Nat} {line : List Char}
    {lines : List (List Char)} (h : (position, line) ∈ withStarts (start + 1) lines)
    (hlines : '\n' :: joinLines lines <+: source.drop start) :
    start < position ∧ columnsBefore source position = some 0 := by
  induction lines generalizing start with
  | nil => cases h
  | cons first lines ih =>
    rcases List.mem_cons.1 h with heq | h
    · obtain ⟨rfl, rfl⟩ := Prod.mk.inj heq
      obtain ⟨rest, hrest⟩ := hlines
      have htake : source.take (start + 1) = source.take start ++ ['\n'] := by
        rw [List.take_add, ← hrest]
        rfl
      have hbefore : before source (start + 1) = [] := by simp [before, htake]
      exact ⟨Nat.lt_succ_self start, by simp [columnsBefore, hbefore, columns]⟩
    · have hne : lines ≠ [] := by
        rintro rfl
        cases h
      rw [joinLines_cons, if_neg hne, ← List.cons_append] at hlines
      have hrest := prefix_drop_of_append hlines
      rw [List.length_cons, ← Nat.add_assoc, Nat.add_right_comm] at hrest
      obtain ⟨hlt, hcolumns⟩ := ih h hrest
      exact ⟨by omega, hcolumns⟩

/-- The lines of a stretch. -/
def linesWithin (source : List Char) (range : Span) : List (Nat × List Char) :=
  splitLinesFrom range.start (slice source range.start range.stop)

/-- A line of a stretch stands where it begins. -/
theorem of_mem_linesWithin {source : List Char} {range : Span} {line : Nat × List Char}
    (h : line ∈ linesWithin source range) : line.2 <+: source.drop line.1 ∧ '\n' ∉ line.2 := by
  have hslice : slice source range.start range.stop <+: source.drop range.start := List.take_prefix _ _
  rw [← joinLines_splitLines (slice source range.start range.stop)] at hslice
  exact ⟨prefix_of_mem_withStarts h hslice, not_mem_of_mem_splitLines (mem_of_mem_withStarts h)⟩

/-- The first line of a stretch begins where the stretch does. -/
theorem exists_linesWithin_eq (source : List Char) (range : Span) : ∃ text lines,
    splitLines (slice source range.start range.stop) = text :: lines ∧
      linesWithin source range =
        (range.start, text) :: withStarts (range.start + text.length + 1) lines := by
  obtain ⟨text, lines, hsplit⟩ :=
    List.exists_cons_of_ne_nil (splitLines_ne_nil (slice source range.start range.stop))
  exact ⟨text, lines, hsplit, by rw [linesWithin, splitLinesFrom, hsplit, withStarts]⟩

/-- Only the first line of a stretch may be cut out of the middle of a line. -/
theorem columnsBefore_of_mem_tail {source : List Char} {range : Span} {line : Nat × List Char}
    (h : line ∈ (linesWithin source range).tail) :
    range.start < line.1 ∧ columnsBefore source line.1 = some 0 := by
  obtain ⟨text, lines, hsplit, hlines⟩ := exists_linesWithin_eq source range
  rw [hlines, List.tail_cons] at h
  have hslice : slice source range.start range.stop <+: source.drop range.start := List.take_prefix _ _
  have hne : lines ≠ [] := by
    rintro rfl
    cases h
  rw [← joinLines_splitLines (slice source range.start range.stop), hsplit, joinLines_cons,
    if_neg hne] at hslice
  obtain ⟨hlt, hcolumns⟩ := columnsBefore_of_mem h (prefix_drop_of_append hslice)
  exact ⟨by omega, hcolumns⟩

/-- A line of a stretch, given with the position at which it begins, as it is measured. -/
def measureAt (source : List Char) (range : Span) (literals : List Span) (line : Nat × List Char) :
    MeasuredLine :=
  measureLine literals (columnsBefore source line.1)
    (decide (range.start < line.1) && inside literals line.1) line.1 line.2

/-- All lines of a stretch are measured from the beginning of their line in the source. -/
theorem measure_eq_map (source : List Char) (range : Span) (literals : List Span) :
    measure source range literals =
      (linesWithin source range).map (measureAt source range literals) := by
  obtain ⟨text, lines, -, hlines⟩ := exists_linesWithin_eq source range
  have htail := @columnsBefore_of_mem_tail source range
  rw [hlines] at htail ⊢
  rw [linesWithin] at hlines
  rw [measure, hlines, List.map_cons, List.cons.injEq]
  refine ⟨by simp [measureAt], List.map_congr_left fun line hline => ?_⟩
  obtain ⟨hlt, hcolumns⟩ := htail hline
  simp [measureAt, hcolumns, hlt]

theorem mem_measure_iff {source : List Char} {range : Span} {literals : List Span}
    {measured : MeasuredLine} : measured ∈ measure source range literals ↔
      ∃ line ∈ linesWithin source range, measureAt source range literals line = measured := by
  rw [measure_eq_map, List.mem_map]

/-! ### Blocks -/

/-- A stretch of source, which begins at `start`, and what is written for it: apart from white space at
both ends, the stretch laid out anew. -/
inductive Laid (inside : Nat → Bool) (start : Nat) (source output : List Char) : Prop where
  | intro {lead core tail lead' core' tail' : List Char}
      (source_eq : source = lead ++ core ++ tail) (output_eq : output = lead' ++ core' ++ tail')
      (white : White lead) (white' : White lead') (whiteTail : White tail)
      (whiteTail' : White tail') (relaid : Relaid inside (start + lead.length) core core')

/-- Nothing is written for white space. -/
theorem Laid.ofWhite {inside : Nat → Bool} {start : Nat} {source : List Char} (h : White source) :
    Laid inside start source [] :=
  @Laid.intro _ _ _ _ source [] [] [] [] [] (by simp) rfl h white_nil white_nil white_nil .nil

/-- White space in front of a stretch makes no difference. -/
theorem Laid.white_append {inside : Nat → Bool} {start : Nat} {front source output : List Char}
    (hfront : White front) (h : Laid inside (start + front.length) source output) :
    Laid inside start (front ++ source) output := by
  obtain @⟨lead, core, tail, lead', core', tail', source_eq, output_eq, white, white', whiteTail,
    whiteTail', relaid⟩ := h
  refine .intro (by rw [source_eq, List.append_assoc, List.append_assoc, ← List.append_assoc front,
    ← List.append_assoc]) output_eq (Text.white_append.2 ⟨hfront, white⟩) white' whiteTail whiteTail' ?_
  rwa [List.length_append, ← Nat.add_assoc]

theorem Laid.blank_cons {inside : Nat → Bool} {start : Nat} {line output : List Char}
    {lines : List (List Char)} (hwhite : White line) (hnil : lines = [] → output = [])
    (h : Laid inside (start + line.length + 1) (joinLines lines) output) :
    Laid inside start (joinLines (line :: lines)) output := by
  rw [joinLines_cons]
  split
  · rename_i hlines
    rw [hnil hlines, List.append_nil]
    exact .ofWhite hwhite
  · rw [List.append_cons]
    refine .white_append (Text.white_append.2 ⟨hwhite, white_cons.2 ⟨isSpace_newline, white_nil⟩⟩) ?_
    simpa [Nat.add_assoc] using h

/-- The lines of a block from the first one on that is not blank. -/
theorem laid_dropWhile (literals : List Span) (common unit : Nat) (w : Writer) (start : Nat)
    {lines : List (List Char)} (h : ∀ line ∈ lines, '\n' ∉ line) :
    Laid (inside literals) start (joinLines lines) (Block.written w (Block.collapse
      (((withStarts start lines).map (placeLine literals common unit)).dropWhile (· == .blank)))) := by
  induction lines generalizing start with
  | nil => exact .ofWhite white_nil
  | cons line lines ih =>
    have hline := h line (by simp)
    have hothers : ∀ other ∈ lines, '\n' ∉ other := fun other hother => h other (by simp [hother])
    have hstands : Stands (inside literals) (inside literals start) start line
        (placeLine literals common unit (start, line)) := stands_measureLine ..
    simp only [withStarts, List.map_cons, List.dropWhile_cons]
    by_cases hblank : placeLine literals common unit (start, line) = .blank
    · rw [hblank] at hstands ⊢
      cases hstands with
      | blank outside white =>
        exact .blank_cons white (by rintro rfl; rfl) (ih _ hothers)
    · rw [if_neg (by simpa using hblank), Block.collapse_cons hblank]
      obtain ⟨lead, core, tail, lead', core', tail', hsource, hwritten, white, white', whiteTail,
        whiteTail', -, -, relaid, -⟩ := laid_cons hline hstands hblank (by rintro rfl; rfl)
          (behind_placed literals common unit w _ hothers)
      exact .intro hsource hwritten white white' whiteTail whiteTail' relaid

/-- The block of a stretch of source writes the stretch, laid out anew. -/
theorem laid_ofRange (source : List Char) (range : Span) (literals : List Span) (unit : Nat)
    (w : Writer) :
    Laid (inside literals) range.start (slice source range.start range.stop)
      (Block.written w (Block.ofRange source range literals unit).lines) := by
  simp only [Block.ofRange]
  generalize commonIndent (measure source range literals) = common
  generalize hmeasured : measure source range literals = measured
  unfold measure splitLinesFrom at hmeasured
  have hjoin := joinLines_splitLines (slice source range.start range.stop)
  have hmem : ∀ line ∈ splitLines (slice source range.start range.stop), '\n' ∉ line :=
    fun line hline => not_mem_of_mem_splitLines hline
  generalize slice source range.start range.stop = text at hjoin hmem hmeasured
  obtain ⟨first, lines, hsplit⟩ := List.exists_cons_of_ne_nil (splitLines_ne_nil text)
  rw [hsplit] at hjoin hmem hmeasured
  simp only [withStarts] at hmeasured
  rw [← hjoin, ← hmeasured]
  have hfirst := hmem first (by simp)
  have hlines : ∀ line ∈ lines, '\n' ∉ line := fun line hline => hmem line (by simp [hline])
  have hstands := stands_measureLine literals (columnsBefore source range.start) false range.start
    first common (max 1 unit)
  have hrest : ((withStarts (range.start + first.length + 1) lines).map fun line =>
      measureLine literals (some 0) (inside literals line.1) line.1 line.2).map
        (·.place common (max 1 unit)) =
      (withStarts (range.start + first.length + 1) lines).map
        (placeLine literals common (max 1 unit)) := by
    rw [List.map_map]
    rfl
  simp only [List.map_cons, hrest, Block.squeeze, List.dropWhile_cons]
  generalize (measureLine literals (columnsBefore source range.start) false range.start
    first).place common (max 1 unit) = line at hstands
  by_cases hblank : line = .blank
  · rw [hblank] at hstands ⊢
    cases hstands with
    | blank outside white =>
      exact .blank_cons white (by rintro rfl; rfl) (laid_dropWhile literals common _ w _ hlines)
  · rw [if_neg (by simpa using hblank), Block.collapse_cons hblank]
    obtain ⟨lead, core, tail, lead', core', tail', hsource, hwritten, white, white', whiteTail,
      whiteTail', -, -, relaid, -⟩ := laid_cons hfirst hstands hblank (by rintro rfl; rfl)
        (behind_placed literals common (max 1 unit) w _ hlines)
    exact .intro hsource hwritten white white' whiteTail whiteTail' relaid

end CodeSplice.Layout
