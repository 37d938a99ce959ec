/-
Module: CodeSplice.Proofs.Syntax.Run
Purpose: The trees that reading a text with a grammar gives are placed in the text: their tokens stand
  in it where they say, one after another. And every phrase in them is made by its parts. Each step of
  the search for readings keeps all its stacks sound, so a whole run does.
Main exports: Automaton.take_sound, Automaton.run_sound, placed_of_parse?, derived_of_parse?,
  isPhrase_of_parse?
-/
import CodeSplice.Proofs.Syntax.Reading
import CodeSplice.Syntax.Parse

namespace CodeSplice.Syntax

open Stack

variable {automaton : Automaton} {text : List Char} {registry : Registry} {search : Search}

namespace Automaton

/-! ### Completing phrases -/

theorem complete_sound (h : search.Sound automaton text registry) (count : Nat)
    {index position : Nat}
    (hp : ∀ stack, search.head? index = some stack → stack.cursor.position ≤ position)
    (hfront : (automaton.slot 0).final = false) {reduction : Reduction}
    (hr : ∀ stack, search.head? index = some stack →
      automaton.Completes stack.state reduction) :
    ∃ more, (automaton.complete search index reduction).1.Sound automaton text (registry ++ more) ∧
      Search.Extends index count position search (automaton.complete search index reduction).1 ∧
      ∀ first, (automaton.complete search index reduction).2 = some first →
        search.heads.length ≤ first := by
  unfold complete
  cases hhead : search.head? index with
  | none => exact ⟨[], by simpa using h, .refl, by simp⟩
  | some stack =>
    have htop := h.head hhead
    have hle := hp stack hhead
    have hcompletes := hr stack hhead
    have hcount := hcompletes.count_pos htop.hasParts hfront
    -- The landings were found before any of them is used, so they stay sound for more levels.
    suffices hfold : ∀ landings : List Landing,
        (∀ landing ∈ landings, Lands automaton text registry stack reduction.count landing) →
        ∃ more, (landings.foldl (automaton.replace reduction index) search).Sound automaton text
            (registry ++ more) ∧
          Search.Extends index count position search
            (landings.foldl (automaton.replace reduction index) search) by
      obtain ⟨more, hsound, hextends⟩ := hfold (stack.pop search.fresh reduction.count)
        fun landing hlanding => pop_lands htop _ _ hlanding
      refine ⟨more, hsound, hextends, fun first hfirst => ?_⟩
      simp only at hfirst
      split at hfirst
      · obtain rfl := Option.some_inj.1 hfirst
        exact Nat.le_refl _
      · simp at hfirst
    intro landings hlandings
    clear hp hr hhead
    induction landings generalizing search registry with
    | nil => exact ⟨[], by simpa using h, .refl⟩
    | cons landing landings ih =>
      obtain ⟨more, hsound, hextends⟩ :=
        replace_sound h reduction index count (hlandings landing (by simp)) htop
          hcompletes hcount hle
      obtain ⟨more', hsound', hextends'⟩ := ih hsound (htop.mono more) fun other hother =>
        (hlandings other (by simp [hother])).mono more
      exact ⟨more ++ more', by simpa using hsound', hextends.trans hextends'⟩

theorem completeAll_sound (h : search.Sound automaton text registry) {index count position : Nat}
    (hindex : index < search.heads.length) (hcount : count ≤ search.heads.length)
    (hhead : ∀ stack, search.head? index = some stack → stack.cursor.position ≤ position)
    {last : Option Nat} (hlast : ∀ first, last = some first → count ≤ first)
    (hfront : (automaton.slot 0).final = false) {reductions : List Reduction}
    (hr : ∀ reduction ∈ reductions, ∀ stack, search.head? index = some stack →
      automaton.Completes stack.state reduction) :
    ∃ more, (automaton.completeAll index search last reductions).1.Sound automaton text
        (registry ++ more) ∧
      Search.Extends index count position search
        (automaton.completeAll index search last reductions).1 ∧
      ∀ first, (automaton.completeAll index search last reductions).2 = some first →
        count ≤ first := by
  induction reductions generalizing search registry last with
  | nil => exact ⟨[], by simpa [completeAll] using h, .refl, hlast⟩
  | cons reduction reductions ih =>
    obtain ⟨more, hsound, hextends, hfirst⟩ :=
      complete_sound h count hhead hfront (hr reduction (by simp))
    simp only [completeAll]
    have hhead' := hextends.head_eq hindex
    have hlast' : ∀ first, (automaton.complete search index reduction).2.or last = some first →
        count ≤ first := by
      intro first heq
      cases hcompleted : (automaton.complete search index reduction).2 with
      | none =>
        rw [hcompleted] at heq
        exact hlast first heq
      | some other =>
        rw [hcompleted] at heq
        obtain rfl : other = first := by simpa using heq
        exact Nat.le_trans hcount (hfirst other hcompleted)
    obtain ⟨more', hsound', hextends', hfirst'⟩ := ih hsound
      (Nat.lt_of_lt_of_le hindex hextends.length_le) (Nat.le_trans hcount hextends.length_le)
      (by rwa [hhead']) hlast' fun other hother stack hstack =>
        hr other (by simp [hother]) stack (hhead' ▸ hstack)
    exact ⟨more ++ more', by simpa using hsound', hextends.trans hextends', hfirst'⟩

/-! ### Taking tokens -/

theorem firstReading_derived {stack : Stack} (h : stack.Sound automaton text registry)
    {others : List Tree} (derived : ∀ tree ∈ others, tree.Derived automaton) :
    ∀ tree ∈ stack.firstReading others, tree.Derived automaton := by
  induction h generalizing others with
  | @level number state cursor weight links _ _ _ _ joins ih =>
    cases links with
    | nil => simpa [firstReading] using derived
    | cons link links =>
      rw [firstReading]
      refine ih link (by simp) fun other hother => ?_
      rcases List.mem_cons.1 hother with rfl | hother
      · exact (joins link (by simp)).derived
      · exact derived other hother

theorem firstReading_placed {stack : Stack} (h : stack.Sound automaton text registry)
    {others : List Tree} (placed : ∀ tree ∈ others, tree.Placed text)
    (inOrder : InOrder (others.map Tree.extent))
    (behind : ∀ tree ∈ others, stack.cursor.position ≤ tree.extent.start) :
    (∀ tree ∈ stack.firstReading others, tree.Placed text) ∧
      InOrder ((stack.firstReading others).map Tree.extent) := by
  induction h generalizing others with
  | @level number state cursor weight links _ _ _ _ joins ih =>
    cases links with
    | nil => exact ⟨by simpa [firstReading] using placed, by simpa [firstReading] using inOrder⟩
    | cons link links =>
      obtain ⟨tree, below⟩ := link
      have hj := joins (tree, below) (by simp)
      have hspan := hj.placed.start_le_stop
      rw [firstReading]
      refine ih (tree, below) (by simp) ?_ ?_ ?_
      · intro other hother
        rcases List.mem_cons.1 hother with rfl | hother
        · exact hj.placed
        · exact placed other hother
      · simp only [InOrder, List.map_cons, List.pairwise_cons]
        refine ⟨fun extent hextent => ?_, inOrder⟩
        obtain ⟨other, hother, rfl⟩ := List.mem_map.1 hextent
        exact Nat.le_trans hj.le_stop (behind other hother)
      · intro other hother
        rcases List.mem_cons.1 hother with rfl | hother
        · exact hj.start_le
        · have := behind other hother
          have := hj.start_le
          have := hj.le_stop
          simp only [Stack.cursor] at *
          omega

theorem finish_sound (h : search.Sound automaton text registry) (index : Nat) {stack : Stack}
    (hs : stack.Sound automaton text registry) :
    (automaton.finish search index stack).Sound automaton text registry := by
  obtain ⟨placed, inOrder⟩ : (∀ tree ∈ stack.firstReading [], tree.Placed text) ∧
      InOrder ((stack.firstReading []).map Tree.extent) :=
    firstReading_placed hs (by simp) .nil (by simp)
  have hsound : (Tree.ofParts automaton.grammar.goal 0 (stack.firstReading [])).IsWhole automaton
      text := by
    refine ⟨?_, firstReading_derived hs (by simp), by simp [Tree.ofParts, Tree.isPhrase]⟩
    cases hparts : stack.firstReading [] with
    | nil => exact .empty (Nat.le_refl _)
    | cons part parts =>
      rw [hparts] at placed inOrder
      exact .ofParts placed inOrder (by simp)
  have hhead : (search.setHead index none).Sound automaton text registry :=
    h.setHead index (by simp)
  refine ⟨hhead.fresh_eq, hhead.heads, fun tree htree => ?_⟩
  simp only [finish, Option.some_inj] at htree
  cases hresult : search.result with
  | none =>
    simp only [hresult] at htree
    exact htree ▸ hsound
  | some other =>
    simp only [hresult] at htree
    split at htree
    · exact htree ▸ hsound
    · exact htree ▸ h.result other hresult

/-- A keyword that is taken as a name stays in its place. -/
theorem asName?_placed {token name : Token} (ht : token.Placed text)
    (h : asName? token = some name) : name.Placed text ∧ name.extent = token.extent := by
  unfold asName? at h
  split at h
  · rename_i text' hspelled
    split at h
    · obtain rfl := Option.some_inj.1 h
      have hsolid := ht.solid (by simp [Token.is, hspelled]) (by simp [Token.is, hspelled])
      exact ⟨⟨ht.start_le, ht.text_eq, ht.endRow_eq, by simp [Token.is], by simp [Token.is], by simp,
        fun _ _ => hsolid⟩, rfl⟩
    · simp at h
  · simp at h

/-- Completing the phrases that a token completes behind the reading `index` keeps the search sound and
this reading as it is. -/
theorem completeAll_verdict_sound (hfront : (automaton.slot 0).final = false)
    (h : search.Sound automaton text registry) {index position : Nat} {stack : Stack}
    (hhead : search.head? index = some stack) (hle : stack.cursor.position ≤ position)
    {terminal : Terminal} {next : Search} {last : Option Nat}
    (hcompleted : automaton.completeAll index search none
      (automaton.verdict stack.state terminal).reductions = (next, last)) :
    ∃ more, next.Sound automaton text (registry ++ more) ∧
      Search.Extends index search.heads.length position search next ∧
      ∀ first, last = some first → search.heads.length ≤ first := by
  have hposition : ∀ other, search.head? index = some other → other.cursor.position ≤ position := by
    intro other hother
    obtain rfl : stack = other := Option.some_inj.1 (hhead.symm.trans hother)
    exact hle
  have hcompletes : ∀ reduction ∈ (automaton.verdict stack.state terminal).reductions,
      ∀ other, search.head? index = some other → automaton.Completes other.state reduction := by
    intro reduction hreduction other hother
    obtain rfl : stack = other := Option.some_inj.1 (hhead.symm.trans hother)
    exact completes_of_mem_verdict hreduction
  have hlast : ∀ first, none = some first → search.heads.length ≤ first := by simp
  have hsound := completeAll_sound h (Search.mem_heads_of_head? hhead).2 (Nat.le_refl _) hposition
    hlast hfront hcompletes
  rwa [hcompleted] at hsound

/-- A later reading that takes the place of the reading `index` keeps the search sound. -/
theorem moveHead_sound (h : search.Sound automaton text registry) (index last : Nat) :
    let moved := search.setHead index (search.head? last)
    Search.Sound automaton text registry { moved with heads := moved.heads.eraseIdx last } :=
  have hmoved := h.setHead index fun _ hother => h.head hother
  hmoved.ofHeads fun other hother => hmoved.heads other (List.mem_of_mem_eraseIdx hother)

theorem head?_moveHead {index last : Nat} (hlt : index < last)
    (hlength : index < search.heads.length) :
    let moved := search.setHead index (search.head? last)
    Search.head? { moved with heads := moved.heads.eraseIdx last } index = search.head? last := by
  simp [Search.head?, Search.setHead, List.getElem?_eraseIdx_of_lt hlt,
    List.getElem?_set_self hlength]

theorem take_sound (hfront : (automaton.slot 0).final = false) {fuel index : Nat} {token : Token}
    {cursor : Cursor} (h : search.Sound automaton text registry)
    (hp : ∀ stack, search.head? index = some stack →
      stack.cursor.position ≤ token.extent.start)
    (ht : token.Placed text) (hc : cursor.Placed text)
    (hs : token.extent.stop = cursor.position) :
    ∃ more, (automaton.take fuel index token cursor search).Sound automaton text
      (registry ++ more) := by
  have stops : ∀ {registry : Registry} {search : Search}, search.Sound automaton text registry →
      ∃ more, (search.setHead index none).Sound automaton text (registry ++ more) :=
    fun h => ⟨[], by simpa using h.setHead index (by simp)⟩
  induction fuel generalizing token search registry with
  | zero => exact stops h
  | succ fuel ih =>
    unfold take
    cases hhead : search.head? index with
    | none => exact stops h
    | some stack =>
      have hsound := h.head hhead
      have hle := hp stack hhead
      simp only
      split
      · rename_i hfloats
        have hinText : token.is .endOfText = false := by
          simp only [Token.floats, Token.is, Bool.or_eq_true, beq_iff_eq] at hfloats ⊢
          rcases hfloats with hkind | hkind <;> simp [hkind]
        exact ⟨_, h.push index hsound hc
          ⟨.leaf ht, .leaf hinText, hle, Nat.le_of_eq hs, by simp [Tree.floats, hfloats]⟩⟩
      · rename_i hfloats
        obtain ⟨next, last, hcompleted⟩ : ∃ next last, automaton.completeAll index search none
            (automaton.verdict stack.state token.terminal).reductions = (next, last) := ⟨_, _, rfl⟩
        obtain ⟨more, hnext, hextends, hfirst⟩ :=
          completeAll_verdict_sound hfront h hhead hle hcompleted
        have hindex := (Search.mem_heads_of_head? hhead).2
        simp only [hcompleted]
        split
        · split
          · exact ⟨more, finish_sound hnext index (hsound.mono more)⟩
          · rename_i hinText
            have hjoins : Joins automaton text
                (automaton.goto stack.state (.terminal token.terminal)) cursor.position
                (.leaf token) stack :=
              ⟨.leaf ht, .leaf (by simpa using hinText), hle, Nat.le_of_eq hs,
                by simp [Tree.floats, hfloats, Tree.symbol]⟩
            refine ⟨more ++ [(automaton.goto stack.state (.terminal token.terminal), cursor)], ?_⟩
            rw [← List.append_assoc]
            exact hnext.push index (hsound.mono more) hc hjoins
        · cases last with
          | some last =>
            have hlt : index < last := Nat.lt_of_lt_of_le hindex (hfirst last rfl)
            have hlength : index < next.heads.length := Nat.lt_of_lt_of_le hindex hextends.length_le
            -- The readings that completing phrases has added stand where the reading `index` does.
            have hbehind : ∀ other, next.head? last = some other →
                other.cursor.position ≤ token.extent.start := by
              intro other hother
              refine hextends.le_position (fun i stack hi hstack => ?_) last other (hfirst last rfl) hother
              exact absurd (Search.mem_heads_of_head? hstack).2 (Nat.not_lt.2 hi)
            obtain ⟨more', htaken⟩ := ih (moveHead_sound hnext index last)
              (by rwa [head?_moveHead hlt hlength]) ht hs
            exact ⟨more ++ more', by simpa using htaken⟩
          | none =>
            cases hname : asName? token with
            | none =>
              obtain ⟨more', hstopped⟩ := stops hnext
              exact ⟨more ++ more', by simpa using hstopped⟩
            | some name =>
              obtain ⟨hplaced, hextent⟩ := asName?_placed ht hname
              obtain ⟨more', htaken⟩ := ih hnext
                (by rwa [hextends.head_eq hindex, hextent]) hplaced (by rwa [hextent])
              exact ⟨more ++ more', by simpa using htaken⟩

/-- A reading that takes the token it expects keeps the search sound. -/
theorem advance_sound (hfront : (automaton.slot 0).final = false) (fuel index : Nat)
    (h : search.Sound automaton text registry) :
    ∃ more, (automaton.advance fuel index search).Sound automaton text (registry ++ more) := by
  unfold advance
  cases hhead : search.head? index with
  | none => exact ⟨[], by simpa using h⟩
  | some stack =>
    have hcursor := (h.head hhead).cursor
    simp only
    split
    · exact ⟨[], by simpa using h.setHead index (by simp)⟩
    · rename_i sighting hnext
      obtain ⟨ht, hc, hle, hstop⟩ := hcursor.take (Expectation.next?_remark _ hnext)
        (Expectation.next?_spelled _ hnext) (Expectation.next?_solid _ hnext)
      refine take_sound hfront h (fun other hother => ?_) ht hc hstop
      obtain rfl : stack = other := Option.some_inj.1 (hhead.symm.trans hother)
      exact hle

/-! ### Whole texts -/

theorem catchUp_sound (hfront : (automaton.slot 0).final = false) (fuel bound index reached : Nat)
    (h : search.Sound automaton text registry) :
    ∃ more, (automaton.catchUp fuel bound index reached search).1.Sound automaton text
      (registry ++ more) := by
  induction fuel generalizing search registry with
  | zero => exact ⟨[], by simpa [catchUp] using h⟩
  | succ fuel ih =>
    obtain ⟨more, hnext⟩ := advance_sound hfront bound index h
    simp only [catchUp]
    split
    · exact ⟨more, hnext⟩
    · split
      · exact ⟨more, hnext⟩
      · obtain ⟨more', hlast⟩ := ih hnext
        exact ⟨more ++ more', by simpa using hlast⟩

theorem catchUpAll_sound (hfront : (automaton.slot 0).final = false) (fuel bound index reached : Nat)
    (h : search.Sound automaton text registry) :
    ∃ more, (automaton.catchUpAll fuel bound index reached search).1.Sound automaton text
      (registry ++ more) := by
  induction fuel generalizing index reached search registry with
  | zero => exact ⟨[], by simpa [catchUpAll] using h⟩
  | succ fuel ih =>
    simp only [catchUpAll]
    split
    · obtain ⟨more, hnext⟩ := catchUp_sound hfront bound bound index reached h
      obtain ⟨more', hlast⟩ := ih (index + 1)
        (automaton.catchUp bound bound index reached search).2 hnext
      exact ⟨more ++ more', by simpa using hlast⟩
    · exact ⟨[], by simpa using h⟩

theorem rank_sound {stack : Stack} (hs : stack.Sound automaton text registry) {others : List Stack}
    (ho : ∀ other ∈ others, other.Sound automaton text registry) :
    ∀ other ∈ rank stack others, other.Sound automaton text registry := by
  induction others generalizing stack with
  | nil => simpa [rank] using hs
  | cons first others ih =>
    have hfirst := ho first (by simp)
    have hothers : ∀ other ∈ others, other.Sound automaton text registry :=
      fun other hother => ho other (by simp [hother])
    intro other hother
    simp only [rank] at hother
    split at hother
    · rename_i hagrees
      rcases List.mem_cons.1 hother with rfl | hother
      · exact (addLinksOf_sound first stack hfirst hs hagrees).1
      · exact hothers other hother
    · split at hother
      · rcases List.mem_cons.1 hother with rfl | hother
        · exact hs
        · exact ih hfirst hothers other hother
      · rcases List.mem_cons.1 hother with rfl | hother
        · exact hfirst
        · exact ih hs hothers other hother

theorem keep_sound {heads : List (Option Stack)}
    (h : ∀ stack, some stack ∈ heads → stack.Sound automaton text registry) :
    ∀ stack, some stack ∈ keep heads → stack.Sound automaton text registry := by
  intro stack hstack
  simp only [keep, List.mem_map, Option.some_inj, exists_eq_right] at hstack
  refine List.foldlRecOn
    (motive := fun ranked : List Stack => ∀ other ∈ ranked, other.Sound automaton text registry)
    (heads.filterMap id) _ (by simp) (fun ranked hranked other hother => ?_) stack
    (List.mem_of_mem_take hstack)
  exact rank_sound (h other (by simpa using hother)) hranked

/-- A run finds only trees of the whole text. -/
theorem run_sound (hfront : (automaton.slot 0).final = false) (fuel bound reached : Nat)
    (h : search.Sound automaton text registry) {tree : Tree}
    (ht : automaton.run fuel bound reached search = some tree) : tree.IsWhole automaton text := by
  induction fuel generalizing reached search registry with
  | zero => exact h.result tree ht
  | succ fuel ih =>
    simp only [run] at ht
    split at ht
    · exact h.result tree ht
    · obtain ⟨more, hnext⟩ := catchUpAll_sound hfront bound bound 0 reached h
      exact ih _ (hnext.ofHeads (keep_sound hnext.heads)) ht

end Automaton

/-- What is read from a text is a tree of the whole text. -/
theorem isWhole_of_read? {grammar : Grammar} {source : List Char} {tree : Tree}
    (h : (Automaton.ofGrammar grammar).read? source = some tree) :
    tree.IsWhole (.ofGrammar grammar) source := by
  have hbottom : Search.Sound (.ofGrammar grammar) source [(Automaton.start, { rest := source })]
      { heads := [some (.bottom source)], fresh := 1 } := by
    refine ⟨rfl, fun stack hstack => ?_, by simp⟩
    obtain rfl : stack = .bottom source := by simpa using hstack
    exact .ofBottom
  exact Automaton.run_sound (Automaton.final_slot_zero grammar) _ _ _ hbottom h

/-- The tree of a source text is placed in it. -/
theorem placed_of_parse? {source : List Char} {tree : Tree} (h : parse? source = some tree) :
    tree.Placed source :=
  (isWhole_of_read? h).placed

/-- The parts of the tree of a source text are made by theirs. -/
theorem derived_of_parse? {source : List Char} {tree : Tree} (h : parse? source = some tree) :
    ∀ part ∈ tree.parts, part.Derived typeScriptAutomaton :=
  (isWhole_of_read? h).parts

/-- The tree of a source text is a phrase of its own kind. -/
theorem isPhrase_of_parse? {source : List Char} {tree : Tree} (h : parse? source = some tree) :
    tree.isPhrase .sourceFile = true :=
  (isWhole_of_read? h).goal

end CodeSplice.Syntax
