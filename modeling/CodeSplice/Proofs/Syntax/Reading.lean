/-
Module: CodeSplice.Proofs.Syntax.Reading
Purpose: A search for readings keeps all its stacks sound where it takes tokens, merges stacks and
  completes phrases. Completing phrases leaves the reading that it starts from as it is.
Main exports: Search.Sound, Search.Extends, Search.addHead_sound, Automaton.replace_sound
-/
import CodeSplice.Proofs.Syntax.Scan
import CodeSplice.Proofs.Syntax.Stack
import CodeSplice.Syntax.Search

namespace CodeSplice.Syntax

open Stack

/-! ### Tokens in sight -/

/-- The place some characters farther on in a text is in it, too. -/
theorem Cursor.Placed.forward {text : List Char} {cursor : Cursor} (h : cursor.Placed text)
    (length : Nat) : (cursor.forward length).Placed text := by
  simp only [Cursor.Placed, Cursor.forward] at h ⊢
  rw [h, List.drop_drop]

/-- The token of a sighting is placed. -/
theorem Cursor.Placed.take {text : List Char} {cursor : Cursor} (h : cursor.Placed text)
    {sighting : Sighting} (hs : sighting.IsRemark cursor.rest)
    (hspelled : sighting.IsSpelled cursor.rest) (hsolid : sighting.IsSolid) :
    (cursor.take sighting).1.Placed text ∧ (cursor.take sighting).2.Placed text ∧
      cursor.position ≤ (cursor.take sighting).1.extent.start ∧
      (cursor.take sighting).1.extent.stop = (cursor.take sighting).2.position := by
  have hskip := h.forward sighting.skip
  have hrest : cursor.rest.drop sighting.skip = text.drop (cursor.position + sighting.skip) := hskip
  refine ⟨⟨?_, ?_, ?_, ?_, ?_, ?_, ?_⟩, hskip.forward sighting.length, ?_, ?_⟩
  · simp [Cursor.take, Cursor.token, Extent.start, Extent.stop]
  · simp only [Cursor.take, Cursor.token, Extent.start, Extent.stop, String.toList_ofList,
      Text.slice]
    rw [hskip]
    congr 1
    omega
  · simp [Cursor.take, Cursor.token, Cursor.forward]
  · intro hremark
    simp only [Cursor.take, Cursor.token, Token.is, beq_iff_eq] at hremark
    obtain ⟨hpos, hlength⟩ := hs.comment hremark
    simp only [Cursor.take, Cursor.token, Cursor.forward, Extent.start, Extent.stop]
    rw [← hrest, ← hlength]
    omega
  · intro hline
    simp only [Cursor.take, Cursor.token, Token.is, beq_iff_eq] at hline
    simp only [Cursor.take, Cursor.token, Cursor.forward, Extent.start, Extent.stop]
    rw [← hrest, ← hs.interpreter hline]
  · intro spelling hspelling
    obtain ⟨htake, hlength⟩ := hspelled spelling hspelling
    refine ⟨by simpa [Cursor.take, Cursor.token, Cursor.forward] using htake, ?_⟩
    simp only [Cursor.take, Cursor.token, Cursor.forward, Extent.start, Extent.stop, hlength]
  · intro hline htext
    simp only [Cursor.take, Cursor.token, Token.is, beq_eq_false_iff_ne] at hline htext
    have hpos := (hsolid.resolve_left hline).resolve_left htext
    simp only [Cursor.take, Cursor.token, Cursor.forward, Extent.start, Extent.stop]
    omega
  · simp [Cursor.take, Cursor.token, Cursor.forward, Extent.start]
  · simp [Cursor.take, Cursor.token, Cursor.forward, Extent.stop]

/-! ### Searches -/

/-- A tree of a whole text: a phrase of the kind that texts are, placed in the text, and its parts are made
by theirs. -/
structure Tree.IsWhole (automaton : Automaton) (text : List Char) (tree : Tree) : Prop where
  placed : tree.Placed text
  parts : ∀ part ∈ tree.parts, part.Derived automaton
  goal : tree.isPhrase automaton.grammar.goal = true

/-- All stacks of a search are sound, and its result is a tree of the whole text. -/
structure Search.Sound (automaton : Automaton) (text : List Char) (registry : Registry)
    (search : Search) : Prop where
  fresh_eq : registry.length = search.fresh
  heads : ∀ stack, some stack ∈ search.heads → Stack.Sound automaton text registry stack
  result : ∀ tree, search.result = some tree → tree.IsWhole automaton text

namespace Search

variable {automaton : Automaton} {text : List Char} {registry : Registry} {search : Search}

theorem mem_heads_of_head? {index : Nat} {stack : Stack} (h : search.head? index = some stack) :
    some stack ∈ search.heads ∧ index < search.heads.length := by
  unfold head? at h
  cases hi : search.heads[index]? with
  | none => simp [hi] at h
  | some head =>
    obtain rfl : head = some stack := by simpa [hi] using h
    obtain ⟨hlt, heq⟩ := List.getElem?_eq_some_iff.1 hi
    exact ⟨heq ▸ List.getElem_mem hlt, hlt⟩

namespace Sound

theorem head (h : Sound automaton text registry search) {index : Nat} {stack : Stack}
    (hi : search.head? index = some stack) : Stack.Sound automaton text registry stack :=
  h.heads stack (mem_heads_of_head? hi).1

theorem setHead (h : Sound automaton text registry search) (index : Nat) {head : Option Stack}
    (hh : ∀ stack, head = some stack → Stack.Sound automaton text registry stack) :
    Sound automaton text registry (search.setHead index head) := by
  refine ⟨h.fresh_eq, fun stack hstack => ?_, h.result⟩
  rcases List.mem_or_eq_of_mem_set hstack with hstack | hstack
  · exact h.heads stack hstack
  · exact hh stack hstack.symm

theorem ofHeads (h : Sound automaton text registry search) {heads : List (Option Stack)}
    (hh : ∀ stack, some stack ∈ heads → Stack.Sound automaton text registry stack) :
    Sound automaton text registry { search with heads } :=
  ⟨h.fresh_eq, hh, h.result⟩

/-- A token that joins a reading can be put on top of it. -/
theorem push (h : Sound automaton text registry search) (index : Nat) {stack : Stack}
    (hs : Stack.Sound automaton text registry stack) {token : Token} {state : State}
    {cursor : Cursor} (hc : cursor.Placed text)
    (hj : Joins automaton text state cursor.position (.leaf token) stack) :
    Sound automaton text (registry ++ [(state, cursor)])
      (search.push index stack token state cursor) := by
  refine ⟨by simp [Search.push, h.fresh_eq], fun other hother => ?_, h.result⟩
  rcases List.mem_or_eq_of_mem_set hother with hother | hother
  · exact (h.heads other hother).mono _
  · obtain rfl := Option.some_inj.1 hother
    rw [← h.fresh_eq]
    exact hs.push hc hj

end Sound

/-! ### Merging -/

/-- How readings change when a stack is merged into one of them: their number stays, and each reading,
the one numbered `skip` apart, is the same as before or a sound one at the same place. -/
structure Merged (automaton : Automaton) (text : List Char) (registry : Registry)
    (skip index : Nat) (before after : List (Option Stack)) : Prop where
  length_eq : after.length = before.length
  head : ∀ i, after[i]?.getD none = before[i]?.getD none ∨
    index + i ≠ skip ∧ ∃ old new, before[i]?.getD none = some old ∧
      after[i]?.getD none = some new ∧ Stack.Sound automaton text registry new ∧
      new.cursor = old.cursor

theorem Merged.cons {skip index : Nat} {before after : List (Option Stack)}
    (h : Merged automaton text registry skip (index + 1) before after) (head : Option Stack) :
    Merged automaton text registry skip index (head :: before) (head :: after) := by
  refine ⟨by simp [h.length_eq], fun i => ?_⟩
  cases i with
  | zero => exact .inl rfl
  | succ i =>
    rcases h.head i with heq | ⟨hne, hnew⟩
    · exact .inl (by simpa using heq)
    · exact .inr ⟨by omega, by simpa using hnew⟩

theorem merged_of_mergeInto {stack : Stack} (hs : Stack.Sound automaton text registry stack)
    {skip index : Nat} {heads merged : List (Option Stack)}
    (hh : ∀ other, some other ∈ heads → Stack.Sound automaton text registry other)
    (h : mergeInto stack skip index heads = some merged) :
    Merged automaton text registry skip index heads merged := by
  induction heads generalizing index merged with
  | nil => simp [mergeInto] at h
  | cons head heads ih =>
    have hh' : ∀ other, some other ∈ heads → Stack.Sound automaton text registry other :=
      fun other hother => hh other (by simp [hother])
    cases head with
    | none =>
      obtain ⟨rest, hrest, rfl⟩ := Option.map_eq_some_iff.1 h
      exact (ih hh' hrest).cons none
    | some other =>
      simp only [mergeInto] at h
      split at h
      · rename_i hcond
        simp only [Bool.and_eq_true, bne_iff_ne] at hcond
        obtain rfl := Option.some_inj.1 h
        obtain ⟨hsound, -, hcursor⟩ :=
          addLinksOf_sound other stack (hh other (by simp)) hs hcond.2
        refine ⟨by simp, fun i => ?_⟩
        cases i with
        | zero => exact .inr ⟨by simpa using hcond.1, other, _, rfl, rfl, hsound, hcursor⟩
        | succ i => exact .inl (by simp)
      · obtain ⟨rest, hrest, rfl⟩ := Option.map_eq_some_iff.1 h
        exact (ih hh' hrest).cons (some other)

/-- What a step that adds readings to a search keeps: the reading `index`, the number of those there
are, and that the readings from number `count` on stand at `position` or before it. -/
structure Extends (index count position : Nat) (before after : Search) : Prop where
  length_le : before.heads.length ≤ after.heads.length
  head_eq : index < before.heads.length → after.head? index = before.head? index
  le_position : (∀ i stack, count ≤ i → before.head? i = some stack →
      stack.cursor.position ≤ position) →
    ∀ i stack, count ≤ i → after.head? i = some stack → stack.cursor.position ≤ position

namespace Extends

variable {index count position : Nat} {first second third : Search}

theorem refl : Extends index count position first first :=
  ⟨Nat.le_refl _, fun _ => rfl, fun h => h⟩

theorem trans (h : Extends index count position first second)
    (h' : Extends index count position second third) :
    Extends index count position first third :=
  ⟨Nat.le_trans h.length_le h'.length_le,
    fun hlt => (h'.head_eq (Nat.lt_of_lt_of_le hlt h.length_le)).trans (h.head_eq hlt),
    fun hp => h'.le_position (h.le_position hp)⟩

end Extends

/-- Adding a sound stack to a search keeps it sound. -/
theorem addHead_sound (h : Sound automaton text registry search) {index count position : Nat}
    {stack : Stack} (hs : Stack.Sound automaton text registry stack)
    (hp : stack.cursor.position ≤ position) :
    Sound automaton text registry (search.addHead index stack) ∧
      Extends index count position search (search.addHead index stack) := by
  unfold addHead
  cases hm : mergeInto stack index 0 search.heads with
  | some merged =>
    have hmerged := merged_of_mergeInto hs h.heads hm
    refine ⟨h.ofHeads fun other hother => ?_, ?_, ?_, ?_⟩
    · obtain ⟨i, hi⟩ : ∃ i : Nat, merged[i]? = some (some other) := List.mem_iff_getElem?.1 hother
      replace hi : merged[i]?.getD none = some other := by rw [hi]; rfl
      rcases hmerged.head i with heq | ⟨-, old, new, -, hnew, hsound, -⟩
      · exact h.head (heq.symm.trans hi)
      · obtain rfl := Option.some_inj.1 (hnew.symm.trans hi)
        exact hsound
    · exact Nat.le_of_eq hmerged.length_eq.symm
    · intro hlt
      rcases hmerged.head index with heq | ⟨hne, -⟩
      · exact heq
      · omega
    · intro hbefore i other hi hother
      rcases hmerged.head i with heq | ⟨-, old, new, hold, hnew, -, hcursor⟩
      · exact hbefore i other hi (heq.symm.trans hother)
      · obtain rfl := Option.some_inj.1 (hnew.symm.trans hother)
        rw [hcursor]
        exact hbefore i old hi hold
  | none =>
    refine ⟨h.ofHeads fun other hother => ?_, by simp, ?_, ?_⟩
    · rcases List.mem_append.1 hother with hother | hother
      · exact h.heads other hother
      · obtain rfl : other = stack := by simpa using hother
        exact hs
    · intro hlt
      simp [head?, List.getElem?_append_left hlt]
    · intro hbefore i other hi hother
      simp only [head?, Option.getD_none] at hother hbefore ⊢
      rcases Nat.lt_or_ge i search.heads.length with hlt | hge
      · rw [List.getElem?_append_left hlt] at hother
        exact hbefore i other hi hother
      · rw [List.getElem?_append_right hge] at hother
        cases hd : i - search.heads.length with
        | zero =>
          obtain rfl : stack = other := by simpa [hd] using hother
          exact hp
        | succ n => simp [hd] at hother

end Search

/-! ### Completing phrases -/

/-- The trees of parts that are placed are placed and come in order, from the first to the last of two
positions. -/
theorem partsPlaced_trees {text : List Char} {start stop : Nat} {parts : List Part}
    (h : PartsPlaced text start stop parts) :
    (∀ tree ∈ parts.map (·.1), tree.Placed text ∧ start ≤ tree.extent.start ∧
      tree.extent.stop ≤ stop) ∧ InOrder ((parts.map (·.1)).map Tree.extent) := by
  induction parts generalizing start with
  | nil => simp [InOrder]
  | cons part parts ih =>
    obtain ⟨placed, hstart, hstop, -, hrest⟩ := h
    obtain ⟨hall, horder⟩ := ih hrest
    have hle := hrest.start_le_stop
    have hpart := placed.start_le_stop
    simp only [List.map_cons, List.mem_cons, forall_eq_or_imp, InOrder, List.pairwise_cons]
    refine ⟨⟨⟨placed, hstart, by omega⟩, fun tree htree => ?_⟩, fun extent hextent => ?_, horder⟩
    · obtain ⟨hplaced, hstart', hstop'⟩ := hall tree htree
      exact ⟨hplaced, by omega, hstop'⟩
    · obtain ⟨tree, htree, rfl⟩ := List.mem_map.1 hextent
      have := hall tree htree
      omega

theorem partsPlaced_append {text : List Char} {start stop : Nat} {first second : List Part}
    (h : PartsPlaced text start stop (first ++ second)) :
    PartsPlaced text start (((first.getLast?).map (·.2.position)).getD start) first ∧
      PartsPlaced text (((first.getLast?).map (·.2.position)).getD start) stop second := by
  induction first generalizing start with
  | nil => exact ⟨Nat.le_refl _, h⟩
  | cons part first ih =>
    obtain ⟨placed, hstart, hstop, hc, hrest⟩ := h
    obtain ⟨hfirst, hsecond⟩ := ih hrest
    rw [List.getLast?_cons]
    cases hl : first.getLast? with
    | none =>
      simp only [hl, Option.map_none, Option.getD_none] at hfirst hsecond
      exact ⟨⟨placed, hstart, hstop, hc, hfirst⟩, hsecond⟩
    | some last =>
      simp only [hl, Option.map_some, Option.getD_some] at hfirst hsecond
      exact ⟨⟨placed, hstart, hstop, hc, hfirst⟩, hsecond⟩

/-- Parts fall into those up to the last that counts and those behind it, which may stand anywhere. -/
theorem splitFloating_spec (parts : List Part) :
    parts = (splitFloating parts).1 ++ (splitFloating parts).2 ∧
      (∀ part ∈ (splitFloating parts).2, part.1.floats = true) ∧
      ∀ part, (splitFloating parts).1.getLast? = some part → part.1.floats = false := by
  have hsplit : parts = (parts.reverse.dropWhile (·.1.floats)).reverse ++
      (parts.reverse.takeWhile (·.1.floats)).reverse := by
    rw [← List.reverse_append, List.takeWhile_append_dropWhile, List.reverse_reverse]
  have hlength := congrArg List.length hsplit
  have hinner : (splitFloating parts).1 = (parts.reverse.dropWhile (·.1.floats)).reverse := by
    simp only [splitFloating]
    conv_lhs => rw [hsplit]
    rw [List.take_append_of_le_length (by simp at hlength ⊢)]
    apply List.take_of_length_le
    simp at hlength ⊢
  refine ⟨?_, fun part hpart => ?_, fun part hpart => ?_⟩
  · rw [hinner]
    exact hsplit
  · simp only [splitFloating, List.mem_reverse] at hpart
    exact List.all_eq_true.1 (List.all_takeWhile) part hpart
  · rw [hinner, List.getLast?_reverse] at hpart
    have := List.head?_dropWhile_not (fun part : Part => part.1.floats) parts.reverse
    rw [hpart] at this
    simpa using this

/-- A phrase that is completed between two positions, with what stands behind it. -/
structure Completed.Sound (automaton : Automaton) (text : List Char) (reduction : Reduction)
    (start stop : Nat) (completed : Completed) : Prop where
  symbol_eq : completed.tree.symbol = .phrase reduction.phrase
  floats_eq : completed.tree.floats = false
  placed : completed.tree.Placed text
  derived : completed.tree.Derived automaton
  start_le : start ≤ completed.tree.extent.start
  le_cursor : completed.tree.extent.stop ≤ completed.cursor.position
  cursor : completed.cursor.Placed text
  floating : PartsPlaced text completed.cursor.position stop completed.floating
  floating_derived : ∀ part ∈ completed.floating, part.1.Derived automaton
  floats : ∀ part ∈ completed.floating, part.1.floats = true

theorem cursor_placed_of_partsPlaced {text : List Char} {start stop : Nat} {parts : List Part}
    (h : PartsPlaced text start stop parts) {part : Part} (hp : part ∈ parts) :
    part.2.Placed text := by
  induction parts generalizing start with
  | nil => simp at hp
  | cons first parts ih =>
    obtain ⟨-, -, -, hc, hrest⟩ := h
    rcases List.mem_cons.1 hp with rfl | hp
    · exact hc
    · exact ih hrest hp

/-- Parts that make a phrase complete it. -/
theorem completed_sound {automaton : Automaton} {text : List Char} {reduction : Reduction}
    {start : Cursor} {stop : Nat} {parts : List Part}
    (h : PartsPlaced text start.position stop parts)
    (derived : ∀ part ∈ parts, part.1.Derived automaton) {first : Part}
    (hfirst : parts.head? = some first) (hcounts : first.1.floats = false)
    (makes : automaton.Makes (spelling parts) reduction.phrase) :
    (Completed.ofParts reduction start parts).Sound automaton text reduction start.position stop := by
  obtain ⟨hsplit, hfloats, hinnerLast⟩ := splitFloating_spec parts
  obtain ⟨inner, floating, hparts⟩ : ∃ inner floating, splitFloating parts = (inner, floating) :=
    ⟨_, _, rfl⟩
  simp only [hparts] at hsplit hfloats hinnerLast
  subst hsplit
  obtain ⟨hinner, hfloating⟩ := partsPlaced_append h
  have hne : inner ≠ [] := by
    rintro rfl
    rw [List.nil_append] at hfirst
    rw [hfloats first (List.mem_of_head? hfirst)] at hcounts
    contradiction
  obtain ⟨last, hlast⟩ : ∃ last, inner.getLast? = some last :=
    ⟨_, List.getLast?_eq_some_getLast hne⟩
  simp only [hlast, Option.map_some, Option.getD_some] at hinner hfloating
  obtain ⟨htrees, horder⟩ := partsPlaced_trees hinner
  have placed : (Tree.ofParts reduction.phrase reduction.weight (inner.map (·.1))).Placed text :=
    .ofParts (fun tree htree => (htrees tree htree).1) horder (by simpa using hne)
  have hwithin : start.position ≤
        (Tree.ofParts reduction.phrase reduction.weight (inner.map (·.1))).extent.start ∧
      (Tree.ofParts reduction.phrase reduction.weight (inner.map (·.1))).extent.stop ≤
        last.2.position :=
    Tree.Placed.ofParts_within (fun tree htree => (htrees tree htree).1) horder (by simpa using hne)
      fun tree htree => (htrees tree htree).2
  have hmade : (Tree.ofParts reduction.phrase reduction.weight (inner.map (·.1))).Derived
      automaton := by
    refine .node (fun tree htree => ?_) (?_ : _ = some first.1) hcounts (?_ : _ = some last.1)
      (hinnerLast last hlast) ?_
    · obtain ⟨part, hpart, rfl⟩ := List.mem_map.1 htree
      exact derived part (List.mem_append_left floating hpart)
    · rw [List.head?_append_of_ne_nil _ hne] at hfirst
      simp [hfirst]
    · simp [hlast]
    · rw [spelling, List.map_append, symbolsOf_append] at makes
      have hnone : symbolsOf (floating.map (·.1)) = [] := symbolsOf_eq_nil (by simpa using hfloats)
      rwa [hnone, List.append_nil] at makes
  have hcompleted : Completed.ofParts reduction start (inner ++ floating) =
      { tree := .ofParts reduction.phrase reduction.weight (inner.map (·.1))
        cursor := last.2
        floating } := by
    simp only [Completed.ofParts, hparts, hlast, Option.map_some, Option.getD_some]
  rw [hcompleted]
  exact
    { symbol_eq := rfl
      floats_eq := rfl
      placed
      derived := hmade
      start_le := hwithin.1
      le_cursor := hwithin.2
      cursor := cursor_placed_of_partsPlaced hinner (List.mem_of_getLast? hlast)
      floating := hfloating
      floating_derived := fun part hpart => derived part (List.mem_append_right inner hpart)
      floats := hfloats }

/-- The comments behind a phrase can be put on the stack again, above the phrase. -/
theorem pushFloating_sound {automaton : Automaton} {text : List Char} {registry : Registry}
    {below : Stack} {state : State} {stop : Nat} {floating : List Part}
    (h : Stack.Sound automaton text registry below) (hs : state = below.state)
    (hp : PartsPlaced text below.cursor.position stop floating)
    (hd : ∀ part ∈ floating, part.1.Derived automaton)
    (hf : ∀ part ∈ floating, part.1.floats = true) :
    ∃ more top fresh, floating.foldl
        (fun (below, fresh) (tree, cursor) => (Stack.push fresh below tree state cursor, fresh + 1))
        (below, registry.length) = (top, fresh) ∧ (registry ++ more).length = fresh ∧
      Stack.Sound automaton text (registry ++ more) top ∧ top.cursor.position ≤ stop := by
  induction floating generalizing registry below with
  | nil => exact ⟨[], below, registry.length, rfl, by simp, by simpa using h, hp⟩
  | cons part floating ih =>
    obtain ⟨tree, cursor⟩ := part
    obtain ⟨placed, hstart, hstop, hc, hrest⟩ := hp
    have hjoins : Joins automaton text state cursor.position tree below :=
      ⟨placed, hd (tree, cursor) (by simp), hstart, hstop, by simp [hf (tree, cursor) (by simp), hs]⟩
    obtain ⟨more, top, fresh, hfold, hfresh, hsound, hle⟩ := ih (h.push hc hjoins) rfl hrest
      (fun part hpart => hd part (by simp [hpart])) fun part hpart => hf part (by simp [hpart])
    refine ⟨(state, cursor) :: more, top, fresh, ?_, by simpa using hfresh,
      by simpa using hsound, hle⟩
    simpa using hfold

namespace Automaton

variable {automaton : Automaton} {text : List Char} {registry : Registry} {search : Search}

theorem foldl_better_sound {reduction : Reduction} {start stop : Nat} {first : Completed}
    {others : List Completed} (hf : first.Sound automaton text reduction start stop)
    (ho : ∀ other ∈ others, other.Sound automaton text reduction start stop) :
    (others.foldl Completed.better first).Sound automaton text reduction start stop := by
  induction others generalizing first with
  | nil => exact hf
  | cons other others ih =>
    refine ih ?_ fun other hother => ho other (by simp [hother])
    unfold Completed.better
    split
    · exact ho other (by simp)
    · exact hf

/-- Putting a completed phrase in the place of its parts keeps a search sound. -/
theorem replace_sound (h : search.Sound automaton text registry) (reduction : Reduction)
    (index count : Nat) {position : Nat} {top : Stack} {landing : Landing}
    (hl : Lands automaton text registry top reduction.count landing)
    (htop : Stack.Sound automaton text registry top)
    (hr : automaton.Completes top.state reduction) (hcount : 0 < reduction.count)
    (hp : top.cursor.position ≤ position) :
    ∃ more, (automaton.replace reduction index search landing).Sound automaton text
        (registry ++ more) ∧
      Search.Extends index count position search
        (automaton.replace reduction index search landing) := by
  obtain ⟨stack, readings⟩ := landing
  have unchanged : ∃ more, search.Sound automaton text (registry ++ more) ∧
      Search.Extends index count position search search := ⟨[], by simpa using h, .refl⟩
  have hcompleted : ∀ parts ∈ readings, (Completed.ofParts reduction stack.cursor parts).Sound
      automaton text reduction stack.cursor.position top.cursor.position := by
    intro parts hparts
    obtain ⟨htaken, below, hdown, -, hcursor⟩ := hl.reading parts hparts
    obtain ⟨pending, hpending, hsame, hfinal, hphrase⟩ := hr
    have hplaced := hdown.partsPlaced htop
    rw [hcursor] at hplaced
    have hruns := htaken.runs pending hpending hsame
    obtain ⟨first, hfirst⟩ := htaken.exists_head hcount
    exact completed_sound hplaced (hdown.derived htop) hfirst
      (htaken.front first hfirst) ⟨pending.slot, hruns, hfinal, hphrase⟩
  unfold replace
  simp only
  cases hm : readings.map (Completed.ofParts reduction stack.cursor) with
  | nil => exact unchanged
  | cons first others =>
    have hall : ∀ completed ∈ first :: others, completed.Sound automaton text reduction
        stack.cursor.position top.cursor.position := by
      intro completed hmem
      rw [← hm] at hmem
      obtain ⟨parts, hparts, rfl⟩ := List.mem_map.1 hmem
      exact hcompleted parts hparts
    have hbest : (others.foldl Completed.better first).Sound automaton text reduction
        stack.cursor.position top.cursor.position :=
      foldl_better_sound (hall first (by simp)) fun other hother => hall other (by simp [hother])
    simp only
    generalize others.foldl Completed.better first = best at hbest
    split
    · exact unchanged
    · have hjoins : Joins automaton text
          (automaton.goto stack.state (.phrase reduction.phrase)) best.cursor.position
          best.tree stack :=
        ⟨hbest.placed, hbest.derived, hbest.start_le, hbest.le_cursor, by
          rw [hbest.floats_eq, hbest.symbol_eq]
          rfl⟩
      have hpush := hl.sound.push hbest.cursor hjoins
      have hstate : automaton.goto stack.state (.phrase reduction.phrase) = (Stack.push
          registry.length stack best.tree
          (automaton.goto stack.state (.phrase reduction.phrase)) best.cursor).state := rfl
      obtain ⟨more, above, fresh, hfold, hfresh, hsound, hle⟩ :=
        pushFloating_sound hpush hstate hbest.floating hbest.floating_derived hbest.floats
      rw [← h.fresh_eq]
      simp only [List.length_append, List.length_cons, List.length_nil, Nat.zero_add] at hfold
      rw [hfold]
      have hnext : Search.Sound automaton text (registry ++
          (automaton.goto stack.state (.phrase reduction.phrase), best.cursor) :: more)
          { search with fresh } :=
        ⟨by simpa using hfresh, fun other hother => (h.heads other hother).mono _, h.result⟩
      obtain ⟨hsearch, hextends⟩ := Search.addHead_sound hnext (by simpa using hsound)
        (Nat.le_trans hle hp)
      exact ⟨_, hsearch, hextends.length_le, hextends.head_eq, hextends.le_position⟩

end Automaton

end CodeSplice.Syntax
