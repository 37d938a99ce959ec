/-
Module: CodeSplice.Proofs.Syntax.Single
Purpose: Texts that have one reading. Where at most one phrase can be completed and, when none can,
  the token must be taken, the search holds one stack all the time. What this stack holds depends on
  the symbols read so far alone, so the tree of such a text can be told by following the symbols.
Main exports: Tree.IsCode, Automaton.stateBehind, Automaton.settle?, Automaton.Alone.settle,
  Automaton.Reads, Automaton.Builds, Automaton.Builds.take, Automaton.Builds.read?
-/
import CodeSplice.Proofs.Syntax.Derivation
import CodeSplice.Proofs.Syntax.Spread
import CodeSplice.Proofs.Syntax.Stack
import CodeSplice.Syntax.Search

namespace CodeSplice.Syntax

open Stack

/-! ### What has been read -/

/-- The symbols of parts. -/
def symbolsRead (parts : List Part) : List Symbol :=
  parts.map fun part => part.1.symbol

/-- The place behind the parts that have been read from a text, the last one first. -/
def placeBehind (source : List Char) : List Part → Cursor
  | [] => { rest := source }
  | (_, cursor) :: _ => cursor

@[simp] theorem placeBehind_cons (source : List Char) (part : Part) (parts : List Part) :
    placeBehind source (part :: parts) = part.2 := rfl

/-- Put a phrase in the place of its parts, which are the last ones. It ends where the last part
ends. -/
def Reduction.apply (parts : List Part) (reduction : Reduction) : List Part :=
  (Tree.ofParts reduction.phrase reduction.weight
    ((parts.take reduction.count).reverse.map (·.1)), placeBehind [] parts) ::
      parts.drop reduction.count

/-- Put a phrase in the place of its parts, which are the last trees. -/
def Reduction.join (trees : List Tree) (reduction : Reduction) : List Tree :=
  .ofParts reduction.phrase reduction.weight (trees.take reduction.count).reverse ::
    trees.drop reduction.count

theorem symbolsRead_eq (parts : List Part) :
    symbolsRead parts = (parts.map (·.1)).map Tree.symbol := by
  simp [symbolsRead]

theorem map_foldl_apply (reductions : List Reduction) (parts : List Part) :
    (reductions.foldl Reduction.apply parts).map (·.1) =
      reductions.foldl Reduction.join (parts.map (·.1)) := by
  induction reductions generalizing parts with
  | nil => rfl
  | cons reduction reductions ih =>
    rw [List.foldl_cons, List.foldl_cons, ih]
    simp [Reduction.apply, Reduction.join, List.map_take, List.map_drop]

/-- Nothing in a tree may stand anywhere. -/
def Tree.IsCode (tree : Tree) : Prop :=
  ∀ token ∈ tree.tokens, token.floats = false

theorem Tree.isCode_ofParts {phrase : Phrase} {weight : Int} {parts : List Tree} :
    (ofParts phrase weight parts).IsCode ↔ ∀ part ∈ parts, part.IsCode := by
  simp only [IsCode, ofParts, tokens_node, List.mem_flatMap]
  constructor
  · intro h part hpart token htoken
    exact h token ⟨part, hpart, htoken⟩
  · rintro h token ⟨part, hpart, htoken⟩
    exact h part hpart token htoken

theorem Tree.isCode_leaf {token : Token} (h : token.floats = false) : (leaf token).IsCode := by
  intro other hother
  rw [tokens_leaf] at hother
  split at hother
  · cases hother
  · rwa [List.mem_singleton.1 hother]

/-- A phrase is code if its parts are. -/
theorem isCode_foldl_join {trees : List Tree} (h : ∀ tree ∈ trees, tree.IsCode)
    (reductions : List Reduction) :
    ∀ tree ∈ reductions.foldl Reduction.join trees, tree.IsCode := by
  induction reductions generalizing trees with
  | nil => exact h
  | cons reduction reductions ih =>
    refine ih fun tree htree => ?_
    rcases List.mem_cons.1 htree with rfl | hbelow
    · exact Tree.isCode_ofParts.2 fun part hpart =>
        h part (List.mem_of_mem_take (List.mem_reverse.1 hpart))
    · exact h tree (List.mem_of_mem_drop hbelow)

namespace Automaton

variable (automaton : Automaton)

/-- The state behind symbols, the last one first. -/
def stateBehind : List Symbol → State
  | [] => start
  | symbol :: before => automaton.goto (stateBehind before) symbol

/-- The phrases that are completed behind symbols before a terminal is taken, if one thing can be done
at a time. -/
def settle? : Nat → Terminal → List Symbol → Option (List Reduction)
  | 0, _, _ => none
  | fuel + 1, terminal, symbols =>
    match automaton.verdict (automaton.stateBehind symbols) terminal with
    | ⟨[], true⟩ => some []
    | ⟨[reduction], false⟩ =>
      let next := .phrase reduction.phrase :: symbols.drop reduction.count
      if 0 < reduction.count ∧ reduction.count ≤ symbols.length ∧
          (automaton.stateBehind next).isEmpty = false then
        (settle? fuel terminal next).map (reduction :: ·)
      else none
    | _ => none

/-- What can come next behind symbols. -/
def expectation (symbols : List Symbol) : Expectation :=
  ⟨automaton.outline.alphabet, automaton.expected (automaton.stateBehind symbols)⟩

/-- A stack with one reading, which has read the given parts. -/
inductive Tower (source : List Char) : List Part → Stack → Prop where
  | bottom : Tower source [] (.bottom source)
  | push {parts : List Part} {below : Stack} {tree : Tree} (number : Nat) (cursor : Cursor)
      (tower : Tower source parts below) (counts : tree.floats = false) :
      Tower source ((tree, cursor) :: parts)
        (below.push number tree (automaton.goto below.state tree.symbol) cursor)

/-- A search with one reading. -/
structure Alone (source : List Char) (search : Search) (parts : List Part) : Prop where
  head : ∃ stack, automaton.Tower source parts stack ∧ search.heads = [some stack]
  room : parts.length < search.fresh
  result : search.result = none

variable {automaton} {source : List Char} {parts : List Part}

namespace Tower

variable {stack : Stack}

theorem state (h : automaton.Tower source parts stack) :
    stack.state = automaton.stateBehind (symbolsRead parts) := by
  induction h with
  | bottom => rfl
  | push number cursor tower counts ih => exact congrArg (automaton.goto · _) ih

theorem cursor (h : automaton.Tower source parts stack) :
    stack.cursor = placeBehind source parts := by
  cases h <;> rfl

theorem firstReading (h : automaton.Tower source parts stack) (others : List Tree) :
    stack.firstReading others = parts.reverse.map (·.1) ++ others := by
  induction h generalizing others with
  | bottom => rfl
  | push number cursor tower counts ih =>
    rw [Stack.push, Stack.firstReading, ih]
    simp

/-- Nothing floats on a single stack. -/
theorem counts (h : automaton.Tower source parts stack) : ∀ part ∈ parts, part.1.floats = false := by
  induction h with
  | bottom => simp
  | push number cursor tower counts ih =>
    intro part hpart
    rcases List.mem_cons.1 hpart with rfl | hpart
    · exact counts
    · exact ih part hpart

/-- There is one way down. -/
theorem descend {taken below : List Part} (h : automaton.Tower source (taken ++ below) stack)
    {fuel : Nat} (hfuel : taken.length < fuel) (others : List Part) :
    ∃ under, automaton.Tower source below under ∧
      Stack.descend fuel [⟨stack, others, taken.length⟩] [] =
        [(under, [taken.reverse ++ others])] := by
  induction taken generalizing stack fuel others with
  | nil =>
    obtain ⟨fuel, rfl⟩ := Nat.exists_eq_succ_of_ne_zero (Nat.ne_of_gt hfuel)
    exact ⟨stack, h, rfl⟩
  | cons part taken ih =>
    obtain ⟨fuel, rfl⟩ := Nat.exists_eq_succ_of_ne_zero (Nat.ne_of_gt (Nat.zero_lt_of_lt hfuel))
    generalize hparts : part :: taken ++ below = all at h
    cases h with
    | bottom => cases hparts
    | @push parts under tree number cursor tower counts =>
      obtain ⟨rfl, rfl⟩ := List.cons.inj hparts
      have hless : taken.length < fuel := Nat.lt_of_succ_lt_succ hfuel
      obtain ⟨bottom, hbottom, hdescend⟩ := ih tower hless ((tree, cursor) :: others)
      refine ⟨bottom, hbottom, ?_⟩
      rw [List.reverse_cons, List.append_assoc]
      refine Eq.trans ?_ hdescend
      simp [Stack.descend, Path.descend, Stack.push, Stack.links, Stack.cursor, counts]

/-- Parts are taken off in one way. -/
theorem pop (h : automaton.Tower source parts stack) {fuel count : Nat}
    (hcount : count ≤ parts.length) (hfuel : parts.length < fuel) :
    ∃ under, automaton.Tower source (parts.drop count) under ∧
      stack.pop fuel count = [(under, [(parts.take count).reverse])] := by
  have hlength : (parts.take count).length = count := List.length_take_of_le hcount
  rw [← List.take_append_drop count parts] at h
  have hless : (parts.take count).length < fuel := by omega
  obtain ⟨under, hunder, hdescend⟩ := h.descend hless []
  rw [hlength, List.append_nil] at hdescend
  exact ⟨under, hunder, hdescend⟩

end Tower

/-- The phrase that parts make of which none floats. -/
theorem completed_ofParts {reduction : Reduction} (start : Cursor) {part : Part} {parts : List Part}
    (hfloats : ∀ other ∈ part :: parts, other.1.floats = false) :
    Completed.ofParts reduction start (part :: parts).reverse =
      { tree := .ofParts reduction.phrase reduction.weight ((part :: parts).reverse.map (·.1))
        cursor := part.2
        floating := [] } := by
  have hnone : ((part :: parts).takeWhile fun other => other.1.floats) = [] :=
    List.takeWhile_cons_of_neg (by simp [hfloats part List.mem_cons_self])
  have hsplit : splitFloating (part :: parts).reverse = ((part :: parts).reverse, []) := by
    simp only [splitFloating, List.reverse_reverse, hnone]
    simp [List.take_of_length_le]
  rw [Completed.ofParts, hsplit]
  simp

/-- A phrase is completed in the only reading. The reading that it is completed in stays beside the
new one. -/
theorem complete_alone {search : Search} (h : automaton.Alone source search parts)
    {reduction : Reduction} (hpos : 0 < reduction.count) (hcount : reduction.count ≤ parts.length)
    (hstate : (automaton.stateBehind (.phrase reduction.phrase ::
      (symbolsRead parts).drop reduction.count)).isEmpty = false) :
    ∃ old new next, automaton.complete search 0 reduction = (next, some 1) ∧
      next.heads = [some old, some new] ∧ automaton.Tower source (reduction.apply parts) new ∧
      (reduction.apply parts).length < next.fresh ∧ next.result = none := by
  obtain ⟨⟨stack, htower, hheads⟩, hroom, hresult⟩ := h
  obtain ⟨under, hunder, hpop⟩ := htower.pop hcount hroom
  cases parts with
  | nil => exact absurd hcount (Nat.not_le.2 hpos)
  | cons part parts =>
    obtain ⟨count, hcount'⟩ := Nat.exists_eq_succ_of_ne_zero (Nat.ne_of_gt hpos)
    have htaken : (part :: parts).take reduction.count = part :: parts.take count := by
      rw [hcount', List.take_succ_cons]
    have hfloats : ∀ other ∈ part :: parts.take count, other.1.floats = false := fun other hother =>
      htower.counts other (List.mem_of_mem_take (htaken ▸ hother))
    have hgoto : (automaton.goto under.state (.phrase reduction.phrase)).isEmpty = false := by
      rw [hunder.state, symbolsRead, List.map_drop]
      exact hstate
    let tree := Tree.ofParts reduction.phrase reduction.weight
      ((part :: parts.take count).reverse.map (·.1))
    let new := under.push search.fresh tree
      (automaton.goto under.state (.phrase reduction.phrase)) part.2
    have hnew : automaton.Tower source (reduction.apply (part :: parts)) new := by
      rw [Reduction.apply, htaken]
      exact .push search.fresh part.2 hunder rfl
    refine ⟨stack, new, { search with
      fresh := search.fresh + 1
      heads := [some stack, some new] }, ?_, rfl, hnew, ?_, hresult⟩
    · have hreplace : automaton.replace reduction 0 search
          (under, [((part :: parts).take reduction.count).reverse]) =
          { search with fresh := search.fresh + 1, heads := [some stack, some new] } := by
        rw [htaken]
        simp only [replace, List.map_cons, List.map_nil, completed_ofParts _ hfloats, hheads, hgoto]
        simp [Search.maxHeads, Search.addHead, Search.mergeInto, new, tree]
      have hhead : search.head? 0 = some stack := by simp [Search.head?, hheads]
      simp only [complete, hhead, hpop, List.foldl_cons, List.foldl_nil, hreplace]
      simp [hheads]
    · have hlength : (reduction.apply (part :: parts)).length ≤ (part :: parts).length := by
        simp only [Reduction.apply, List.length_cons, List.length_drop]
        simp only [List.length_cons] at hcount
        omega
      exact Nat.lt_succ_of_le (Nat.le_trans hlength (Nat.le_of_lt hroom))

/-- The symbols after a phrase has been completed. -/
theorem symbolsRead_apply {reduction : Reduction} (hpos : 0 < reduction.count)
    (hcount : reduction.count ≤ parts.length) :
    symbolsRead (reduction.apply parts) =
      .phrase reduction.phrase :: (symbolsRead parts).drop reduction.count := by
  cases parts with
  | nil => exact absurd hcount (Nat.not_le.2 hpos)
  | cons part parts => simp [symbolsRead, Reduction.apply, Tree.ofParts, Tree.symbol, List.map_drop]

namespace Alone

variable {search : Search} {token : Token}

theorem head? (h : automaton.Alone source search parts) :
    ∃ stack, automaton.Tower source parts stack ∧ search.head? 0 = some stack := by
  obtain ⟨stack, htower, hheads⟩ := h.head
  exact ⟨stack, htower, by simp [Search.head?, hheads]⟩

/-- A phrase that is completed in front of a token takes the place of its parts, and the token is taken
after it. -/
theorem take_reduction (h : automaton.Alone source search parts) (hfloats : token.floats = false)
    {reduction : Reduction} (hpos : 0 < reduction.count) (hcount : reduction.count ≤ parts.length)
    (hstate : (automaton.stateBehind (.phrase reduction.phrase ::
      (symbolsRead parts).drop reduction.count)).isEmpty = false)
    (hverdict : automaton.verdict (automaton.stateBehind (symbolsRead parts)) token.terminal =
      ⟨[reduction], false⟩) :
    ∃ next, automaton.Alone source next (reduction.apply parts) ∧ ∀ fuel cursor,
      automaton.take (fuel + 1) 0 token cursor search = automaton.take fuel 0 token cursor next := by
  obtain ⟨stack, htower, hhead⟩ := h.head?
  obtain ⟨old, new, next, hcomplete, hheads, hnew, hroom, hresult⟩ :=
    complete_alone h hpos hcount hstate
  refine ⟨{ next with heads := [some new] }, ⟨⟨new, hnew, rfl⟩, hroom, hresult⟩, fun fuel cursor => ?_⟩
  rw [take.eq_def, hhead]
  simp [hfloats, htower.state, hverdict, completeAll, hcomplete, Search.setHead, Search.head?, hheads]

/-- When all phrases in front of a token have been completed, it is taken. -/
theorem settle {fuel : Nat} {reductions : List Reduction} (h : automaton.Alone source search parts)
    (hfloats : token.floats = false)
    (hsettle : automaton.settle? fuel token.terminal (symbolsRead parts) = some reductions)
    {bound : Nat} (hbound : fuel ≤ bound) :
    ∃ next left, automaton.Alone source next (reductions.foldl Reduction.apply parts) ∧
      automaton.verdict (automaton.stateBehind
        (symbolsRead (reductions.foldl Reduction.apply parts))) token.terminal = ⟨[], true⟩ ∧
      ∀ cursor, automaton.take bound 0 token cursor search =
        automaton.take (left + 1) 0 token cursor next := by
  induction fuel generalizing search parts reductions bound with
  | zero => cases hsettle
  | succ fuel ih =>
    obtain ⟨bound, rfl⟩ := Nat.exists_eq_succ_of_ne_zero (Nat.ne_of_gt (Nat.zero_lt_of_lt hbound))
    rw [settle?] at hsettle
    split at hsettle
    · rename_i hverdict
      obtain rfl := Option.some_inj.1 hsettle
      exact ⟨search, bound, h, hverdict, fun _ => rfl⟩
    · rename_i reduction hverdict
      simp only at hsettle
      split at hsettle
      · rename_i hreduction
        obtain ⟨hpos, hcount, hstate⟩ := hreduction
        rw [symbolsRead, List.length_map] at hcount
        obtain ⟨others, hothers, rfl⟩ := Option.map_eq_some_iff.1 hsettle
        obtain ⟨next, halone, htake⟩ := h.take_reduction hfloats hpos hcount hstate hverdict
        rw [← symbolsRead_apply hpos hcount] at hothers
        obtain ⟨last, left, hlast, hshifts, hleft⟩ :=
          ih halone hothers (Nat.le_of_succ_le_succ hbound)
        exact ⟨last, left, hlast, hshifts, fun cursor => (htake bound cursor).trans (hleft cursor)⟩
      · cases hsettle
    · cases hsettle

/-- A token that is taken stands behind what has been read. -/
theorem take_shift (h : automaton.Alone source search parts) (hfloats : token.floats = false)
    (hend : token.is .endOfText = false)
    (hverdict : automaton.verdict (automaton.stateBehind (symbolsRead parts)) token.terminal =
      ⟨[], true⟩) (fuel : Nat) (cursor : Cursor) :
    automaton.Alone source (automaton.take (fuel + 1) 0 token cursor search)
      ((.leaf token, cursor) :: parts) := by
  obtain ⟨stack, htower, hheads⟩ := h.head
  have hhead : search.head? 0 = some stack := by simp [Search.head?, hheads]
  have htake : automaton.take (fuel + 1) 0 token cursor search =
      search.push 0 stack token (automaton.goto stack.state (.terminal token.terminal)) cursor := by
    rw [take.eq_def, hhead]
    simp [hfloats, htower.state, hverdict, completeAll, hend]
  rw [htake]
  exact
    { head := ⟨_, .push search.fresh cursor htower hfloats, by
        simp [Search.push, Search.setHead, hheads, Tree.symbol]⟩
      room := Nat.succ_lt_succ h.room
      result := h.result }

/-- The end of a text that is taken makes the tree of the text. -/
theorem take_end (h : automaton.Alone source search parts) (hfloats : token.floats = false)
    (hend : token.is .endOfText = true)
    (hverdict : automaton.verdict (automaton.stateBehind (symbolsRead parts)) token.terminal =
      ⟨[], true⟩) (fuel : Nat) (cursor : Cursor) :
    (automaton.take (fuel + 1) 0 token cursor search).heads = [none] ∧
      (automaton.take (fuel + 1) 0 token cursor search).result =
        some (.ofParts automaton.grammar.goal 0 (parts.reverse.map (·.1))) := by
  obtain ⟨stack, htower, hheads⟩ := h.head
  have hhead : search.head? 0 = some stack := by simp [Search.head?, hheads]
  have htake : automaton.take (fuel + 1) 0 token cursor search =
      automaton.finish search 0 stack := by
    rw [take.eq_def, hhead]
    simp [hfloats, htower.state, hverdict, completeAll, hend]
  rw [htake]
  simp [finish, Search.setHead, hheads, h.result, htower.firstReading]

end Alone

/-- The terminals of tokens that neither stand anywhere nor end the text. -/
def IsTaken (terminal : Terminal) : Prop :=
  terminal ∉ [.kind .comment, .kind .markup, .kind .endOfText]

instance (terminal : Terminal) : Decidable (IsTaken terminal) :=
  inferInstanceAs (Decidable (¬ _))

theorem isTaken_spelled (text : List Char) : IsTaken (.spelled text) := by
  simp [IsTaken]

theorem IsTaken.floats {terminal : Terminal} (h : IsTaken terminal) (text : String) (extent : Extent) :
    (⟨terminal, text, extent⟩ : Token).floats = false := by
  simp only [IsTaken, List.mem_cons, List.not_mem_nil, not_or] at h
  simp [Token.floats, Token.is, h.1, h.2.1]

theorem IsTaken.is_endOfText {terminal : Terminal} (h : IsTaken terminal) (text : String)
    (extent : Extent) : (⟨terminal, text, extent⟩ : Token).is .endOfText = false := by
  simp only [IsTaken, List.mem_cons, List.not_mem_nil, not_or] at h
  simp [Token.is, h.2.2.1]

/-! ### The whole text -/

variable (automaton) (source)

/-- From the beginning of a text, the parts have been read and `rest` is left, one token after another
and with one thing to do at a time. A token is taken with the white space in front of it. -/
inductive Reads : List Part → List Char → Prop where
  | start : Reads [] source
  | take {parts : List Part} {gap text rest : List Char} {terminal : Terminal}
      {reductions : List Reduction} (reads : Reads parts (gap ++ text ++ rest))
      (next : (automaton.expectation (symbolsRead parts)).next? (gap ++ text ++ rest) =
        some ⟨terminal, gap.length, text.length⟩)
      (solid : text ≠ [])
      (code : IsTaken terminal)
      (settled : automaton.settle? 8 terminal (symbolsRead parts) = some reductions) :
      Reads
        ((.leaf ((placeBehind source parts).take ⟨terminal, gap.length, text.length⟩).1,
          ((placeBehind source parts).take ⟨terminal, gap.length, text.length⟩).2) ::
            reductions.foldl Reduction.apply parts)
        rest

variable {automaton source}

namespace Reads

variable {rest : List Char}

/-- What is left of the text stands behind what has been read. -/
theorem place (h : automaton.Reads source parts rest) :
    (placeBehind source parts).rest = rest ∧
      (placeBehind source parts).position + rest.length = source.length := by
  induction h with
  | start => exact ⟨rfl, Nat.zero_add _⟩
  | @take parts gap text rest terminal reductions reads next solid code settled ih =>
    obtain ⟨hrest, hlength⟩ := ih
    simp only [List.length_append] at hlength
    refine ⟨?_, ?_⟩
    · simp only [placeBehind_cons, Cursor.take, Cursor.forward, hrest, List.append_assoc,
        List.drop_left]
    · simp only [placeBehind_cons, Cursor.take, Cursor.forward]
      omega

/-- What is left of the text is its end. -/
theorem isSuffix (h : automaton.Reads source parts rest) : rest <:+ source := by
  induction h with
  | start => exact List.suffix_rfl
  | @take parts gap text rest terminal reductions reads next solid code settled ih =>
    exact (List.suffix_append (gap ++ text) rest).trans ih

/-- The search takes the token that comes next. -/
theorem advance {search : Search} (h : automaton.Alone source search parts) {sighting : Sighting}
    (hnext : (automaton.expectation (symbolsRead parts)).next? (placeBehind source parts).rest =
      some sighting) (bound : Nat) :
    automaton.advance bound 0 search =
      automaton.take bound 0 ((placeBehind source parts).take sighting).1
        ((placeBehind source parts).take sighting).2 search := by
  obtain ⟨stack, htower, hhead⟩ := h.head?
  rw [Automaton.advance, hhead]
  simp only [htower.state, htower.cursor]
  rw [expectation] at hnext
  rw [hnext]

/-- A single stack that has come farther is all that is left of a round of the search. -/
theorem run_step {search next : Search} {bound reached fuel : Nat}
    (h : automaton.Alone source search parts) {others : List Part}
    (hnext : automaton.Alone source next others)
    (hadvance : automaton.advance (bound + 1) 0 search = next)
    (hreached : reached < (placeBehind source others).position) :
    automaton.run (fuel + 1) (bound + 1) reached search =
      automaton.run fuel (bound + 1) (placeBehind source others).position next := by
  obtain ⟨stack, htower, hheads⟩ := h.head
  obtain ⟨top, htop, htops⟩ := hnext.head
  have hcatch : automaton.catchUp (bound + 1) (bound + 1) 0 reached search =
      (next, (placeBehind source others).position) := by
    rw [catchUp, hadvance]
    simp [Search.head?, htops, htop.cursor, hreached]
  have hall : automaton.catchUpAll (bound + 1) (bound + 1) 0 reached search =
      (next, (placeBehind source others).position) := by
    rw [catchUpAll, hcatch]
    cases bound <;> simp [catchUpAll, hheads, htops]
  have hkeep : keep next.heads = next.heads := by
    simp [keep, rank, htops, Search.keptHeads]
  rw [run, hall]
  simp [hheads, hkeep]

/-- When the only stack of a search has come to the end of the text, the search is over. -/
theorem run_end {search : Search} {bound fuel : Nat} (h : automaton.Alone source search parts)
    (hend : (automaton.advance (bound + 1) 0 search).heads = [none]) (reached : Nat) :
    automaton.run (fuel + 2) (bound + 1) reached search =
      (automaton.advance (bound + 1) 0 search).result := by
  obtain ⟨stack, htower, hstack⟩ := h.head
  have hcatch : automaton.catchUp (bound + 1) (bound + 1) 0 reached search =
      (automaton.advance (bound + 1) 0 search, reached) := by
    rw [catchUp]
    simp [Search.head?, hend]
  have hall : automaton.catchUpAll (bound + 1) (bound + 1) 0 reached search =
      (automaton.advance (bound + 1) 0 search, reached) := by
    rw [catchUpAll, hcatch]
    cases bound <;> simp [catchUpAll, hstack, hend]
  rw [Automaton.run, hall]
  simp [hstack, hend, keep, Automaton.run]

/-- The search comes to what has been read. -/
theorem run (h : automaton.Reads source parts rest) {bound : Nat} (hbound : 8 ≤ bound) :
    ∃ steps search, automaton.Alone source search parts ∧
      steps ≤ (placeBehind source parts).position ∧ ∀ fuel,
        automaton.run (fuel + steps) (bound + 1) 0 { heads := [some (.bottom source)], fresh := 1 } =
          automaton.run fuel (bound + 1) (placeBehind source parts).position search := by
  induction h with
  | start =>
    exact ⟨0, _, ⟨⟨_, .bottom, rfl⟩, Nat.zero_lt_one, rfl⟩, Nat.zero_le _, fun _ => rfl⟩
  | @take parts gap text rest terminal reductions reads next solid code settled ih =>
    obtain ⟨steps, search, halone, hsteps, hrun⟩ := ih
    rw [← reads.place.1] at next
    have hfloats : ((placeBehind source parts).take
        ⟨terminal, gap.length, text.length⟩).1.floats = false := code.floats ..
    have hend : ((placeBehind source parts).take
        ⟨terminal, gap.length, text.length⟩).1.is .endOfText = false := code.is_endOfText ..
    obtain ⟨last, left, hlast, hverdict, htake⟩ :=
      halone.settle hfloats settled (Nat.le_succ_of_le hbound)
    have hfinal := hlast.take_shift hfloats hend hverdict left
      ((placeBehind source parts).take ⟨terminal, gap.length, text.length⟩).2
    rw [← htake] at hfinal
    have hpos : 0 < text.length := List.length_pos_iff.2 solid
    have hfarther : (placeBehind source parts).position <
        ((placeBehind source parts).take ⟨terminal, gap.length, text.length⟩).2.position := by
      simp only [Cursor.take, Cursor.forward]
      omega
    refine ⟨steps + 1, _, hfinal, Nat.lt_of_le_of_lt hsteps hfarther, fun fuel => ?_⟩
    rw [← Nat.add_assoc, Nat.add_right_comm, hrun]
    exact run_step halone hfinal (advance halone next _) hfarther

/-- When the end of the text comes next, the parts make its tree. -/
theorem read? (h : automaton.Reads source parts rest) {skip : Nat} {reductions : List Reduction}
    (hnext : (automaton.expectation (symbolsRead parts)).next? rest =
      some ⟨.kind .endOfText, skip, 0⟩)
    (hsettled : automaton.settle? 8 (.kind .endOfText) (symbolsRead parts) = some reductions) :
    automaton.read? source = some (.ofParts automaton.grammar.goal 0
      ((reductions.foldl Reduction.apply parts).reverse.map (·.1))) := by
  have hbound : ∃ bound, 64 * (2 + source.length) = bound + 1 ∧ 8 ≤ bound :=
    ⟨64 * (2 + source.length) - 1, by omega, by omega⟩
  obtain ⟨bound, hbound, height⟩ := hbound
  obtain ⟨steps, search, halone, hsteps, hrun⟩ := h.run height
  obtain ⟨hrest, hlength⟩ := h.place
  obtain ⟨fuel, hfuel⟩ : ∃ fuel, bound + 1 = fuel + 2 + steps :=
    ⟨bound + 1 - 2 - steps, by omega⟩
  rw [← hrest] at hnext
  have hfloats : ((placeBehind source parts).take ⟨.kind .endOfText, skip, 0⟩).1.floats = false := rfl
  obtain ⟨last, left, hlast, hverdict, htake⟩ :=
    halone.settle hfloats hsettled (Nat.le_succ_of_le height)
  obtain ⟨hheads, hresult⟩ := hlast.take_end rfl rfl hverdict left
    ((placeBehind source parts).take ⟨.kind .endOfText, skip, 0⟩).2
  rw [← htake, ← advance halone hnext] at hheads hresult
  have hwhole := hrun (fuel + 2)
  rw [← hfuel, run_end halone hheads, hresult] at hwhole
  rw [Automaton.read?]
  simp only [hbound]
  exact hwhole

end Reads

/-! ### The trees -/

variable (automaton source) in
/-- From the beginning of a text, the trees have been built, the last one first, and `rest` is left. -/
def Builds (trees : List Tree) (rest : List Char) : Prop :=
  ∃ parts, automaton.Reads source parts rest ∧ parts.map (·.1) = trees

namespace Builds

variable {trees : List Tree} {rest : List Char}

theorem start : automaton.Builds source [] source :=
  ⟨[], .start, rfl⟩

/-- Nothing that may stand anywhere has been read. -/
theorem isCode (h : automaton.Builds source trees rest) : ∀ tree ∈ trees, tree.IsCode := by
  obtain ⟨parts, reads, rfl⟩ := h
  induction reads with
  | start => simp
  | @take parts gap text rest terminal reductions reads next solid code settled ih =>
    rw [List.map_cons, map_foldl_apply]
    intro tree htree
    rcases List.mem_cons.1 htree with rfl | hbelow
    · exact Tree.isCode_leaf (code.floats ..)
    · exact isCode_foldl_join ih reductions tree hbelow

theorem isSuffix (h : automaton.Builds source trees rest) : rest <:+ source := by
  obtain ⟨parts, reads, -⟩ := h
  exact reads.isSuffix

/-- A token is taken, after the phrases that it completes. -/
theorem take (gap text : List Char) {terminal : Terminal} {reductions : List Reduction}
    (h : automaton.Builds source trees (gap ++ text ++ rest))
    (next : (automaton.expectation (trees.map Tree.symbol)).next? (gap ++ text ++ rest) =
      some ⟨terminal, gap.length, text.length⟩)
    (solid : text ≠ [])
    (code : IsTaken terminal)
    (settled : automaton.settle? 8 terminal (trees.map Tree.symbol) = some reductions) :
    ∃ extent : Extent, extent.start + text.length + rest.length = source.length ∧
      extent.stop + rest.length = source.length ∧
      automaton.Builds source
        (.leaf ⟨terminal, String.ofList text, extent⟩ :: reductions.foldl Reduction.join trees)
        rest := by
  obtain ⟨parts, reads, rfl⟩ := h
  obtain ⟨hrest, hlength⟩ := reads.place
  rw [← symbolsRead_eq] at next settled
  have htext : ((placeBehind source parts).rest.drop gap.length).take text.length = text := by
    rw [hrest, List.append_assoc, List.drop_left, List.take_left]
  simp only [List.length_append] at hlength
  refine ⟨((placeBehind source parts).take ⟨terminal, gap.length, text.length⟩).1.extent, ?_, ?_, _,
    .take reads next solid code settled, ?_⟩
  · simp only [Cursor.take, Cursor.token, Cursor.forward, Extent.start]
    omega
  · simp only [Cursor.take, Cursor.token, Cursor.forward, Extent.stop]
    omega
  · rw [List.map_cons, map_foldl_apply]
    simp only [Cursor.take, Cursor.token, Cursor.forward, htext]

/-- When the end of the text comes next, the trees make its tree. -/
theorem read? (h : automaton.Builds source trees rest) {skip : Nat} {reductions : List Reduction}
    (hnext : (automaton.expectation (trees.map Tree.symbol)).next? rest =
      some ⟨.kind .endOfText, skip, 0⟩)
    (hsettled : automaton.settle? 8 (.kind .endOfText) (trees.map Tree.symbol) = some reductions) :
    automaton.read? source =
      some (.ofParts automaton.grammar.goal 0 (reductions.foldl Reduction.join trees).reverse) := by
  obtain ⟨parts, reads, rfl⟩ := h
  rw [← symbolsRead_eq] at hnext hsettled
  rw [reads.read? hnext hsettled, List.map_reverse, map_foldl_apply]

end Builds

end Automaton

end CodeSplice.Syntax
