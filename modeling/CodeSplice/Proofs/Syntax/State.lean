/-
Module: CodeSplice.Proofs.Syntax.State
Purpose: What holds of the states of an automaton. A phrase that is being read has parts, except for the
  one in front of the text. Behind a symbol, a phrase has just begun with it or goes on from a state
  where it had one part less. What a verdict completes is a phrase of the state that can end there.
Main exports: Automaton.HasParts, Automaton.mem_goto, Automaton.Completes, Automaton.completes_of_mem_verdict
-/
import CodeSplice.Syntax.Automaton.State

namespace CodeSplice.Syntax

namespace Automaton

variable {automaton : Automaton}

/-- Every phrase that is being read has parts, or is the one in front of the text. -/
def HasParts (state : State) : Prop :=
  ∀ pending ∈ state, 0 < pending.count ∨ pending.slot = 0

/-- A phrase can be completed in a state. -/
def Completes (automaton : Automaton) (state : State) (reduction : Reduction) : Prop :=
  ∃ pending ∈ state, pending.count = reduction.count ∧ (automaton.slot pending.slot).final = true ∧
    (automaton.slot pending.slot).phrase = reduction.phrase

/-! ### States -/

theorem mem_insertPending {pending other : Pending} {state : State}
    (h : other ∈ insertPending pending state) :
    (other.slot = pending.slot ∧ other.count = pending.count) ∨
      ∃ old ∈ state, other.slot = old.slot ∧ other.count = old.count := by
  induction state with
  | nil =>
    obtain rfl : other = pending := by simpa [insertPending] using h
    exact .inl ⟨rfl, rfl⟩
  | cons first state ih =>
    simp only [insertPending] at h
    split at h
    · rcases List.mem_cons.1 h with rfl | h
      · exact .inr ⟨first, by simp, rfl, rfl⟩
      · exact .inr ⟨other, by simp [h], rfl, rfl⟩
    · split at h
      · rcases List.mem_cons.1 h with rfl | h
        · exact .inl ⟨rfl, rfl⟩
        · exact .inr ⟨other, h, rfl, rfl⟩
      · rcases List.mem_cons.1 h with rfl | h
        · exact .inr ⟨other, by simp, rfl, rfl⟩
        · rcases ih h with heq | ⟨old, hold, heq⟩
          · exact .inl heq
          · exact .inr ⟨old, by simp [hold], heq⟩

/-- A phrase that goes on with a symbol had one part less before. -/
theorem mem_advanced {state : State} {code : Nat} :
    ∀ pending ∈ automaton.advanced state code, ∃ old ∈ state,
      ∃ arc ∈ (automaton.slot old.slot).next, arc.code = code ∧ pending.slot = arc.slot ∧
        pending.count = old.count + 1 := by
  unfold advanced
  refine List.foldlRecOn (motive := fun found : State => ∀ pending ∈ found, ∃ old ∈ state,
    ∃ arc ∈ (automaton.slot old.slot).next, arc.code = code ∧ pending.slot = arc.slot ∧
      pending.count = old.count + 1)
    state _ (by simp) fun found hfound old hold => ?_
  refine List.foldlRecOn (motive := fun found : State => ∀ pending ∈ found, ∃ old ∈ state,
    ∃ arc ∈ (automaton.slot old.slot).next, arc.code = code ∧ pending.slot = arc.slot ∧
      pending.count = old.count + 1)
    _ _ hfound fun found hfound arc harc => ?_
  split
  · rename_i hcode
    intro pending hpending
    rcases mem_insertPending hpending with ⟨hslot, hcount⟩ | ⟨other, hother, hslot, hcount⟩
    · exact ⟨old, hold, arc, harc, by simpa using hcode, hslot, hcount⟩
    · obtain ⟨old', hold', arc', harc', hcode', hslot', hcount'⟩ := hfound other hother
      exact ⟨old', hold', arc', harc', hcode', hslot.trans hslot', hcount.trans hcount'⟩
  · exact hfound

/-- A phrase that begins with a symbol has one part. -/
theorem mem_begun {state : State} {code : Nat} {pending : Pending}
    (h : pending ∈ automaton.begun state code) :
    pending.count = 1 ∧
      ∃ entry ∈ automaton.starters.getD code [], pending.slot ∈ entry.2 := by
  simp only [begun, List.mem_flatMap] at h
  obtain ⟨⟨phrase, slots⟩, hentry, h⟩ := h
  split at h
  · obtain ⟨slot, hslot, rfl⟩ := List.mem_map.1 h
    exact ⟨rfl, (phrase, slots), hentry, hslot⟩
  · simp at h

/-- Behind a symbol, a phrase begins with it or goes on with it. -/
theorem mem_goto {state : State} {symbol : Symbol} {pending : Pending}
    (h : pending ∈ automaton.goto state symbol) :
    (pending.count = 1 ∧
      ∃ entry ∈ automaton.starters.getD (automaton.outline.alphabet.code symbol) [],
        pending.slot ∈ entry.2) ∨
      ∃ old ∈ state, ∃ arc ∈ (automaton.slot old.slot).next,
        arc.code = automaton.outline.alphabet.code symbol ∧ pending.slot = arc.slot ∧
          pending.count = old.count + 1 := by
  rcases List.mem_append.1 h with h | h
  · exact .inl (mem_begun h)
  · exact .inr (mem_advanced pending h)

/-- Behind a symbol, every phrase that is being read has parts. -/
theorem hasParts_goto (state : State) (symbol : Symbol) :
    HasParts (automaton.goto state symbol) := by
  intro pending h
  rcases mem_goto h with ⟨hcount, -⟩ | ⟨old, -, arc, -, -, -, hcount⟩
  · exact .inl (by omega)
  · exact .inl (by omega)

theorem hasParts_start : HasParts start := by
  simp [HasParts, start]

/-- In front of a text nothing can be completed. -/
theorem final_slot_zero (grammar : Grammar) : ((ofGrammar grammar).slot 0).final = false := by
  simp only [slot, ofGrammar, Outline.slot, Outline.ofGrammar, Table.getD, Table.get?_ofList]
  rfl

/-! ### Verdicts -/

theorem mem_insertCompletion {completion other : Completion} {completions : List Completion}
    (h : other ∈ insertCompletion completion completions) :
    other = completion ∨ other ∈ completions := by
  induction completions with
  | nil => simpa [insertCompletion] using h
  | cons first completions ih =>
    simp only [insertCompletion] at h
    split at h
    · simpa using h
    · rcases List.mem_cons.1 h with rfl | h
      · exact .inr (by simp)
      · rcases ih h with rfl | h
        · exact .inl rfl
        · exact .inr (by simp [h])

theorem completes_of_mem_completions {state : State} {code : Nat} :
    ∀ completion ∈ automaton.completions state code,
      automaton.Completes state completion.reduction := by
  unfold completions
  refine List.foldlRecOn
    (motive := fun found : List Completion =>
      ∀ completion ∈ found, automaton.Completes state completion.reduction)
    state _ (by simp) fun found hfound pending hpending => ?_
  simp only
  split
  · rename_i hfinal
    simp only [Bool.and_eq_true] at hfinal
    intro completion hcompletion
    rcases mem_insertCompletion hcompletion with rfl | hcompletion
    · exact ⟨pending, hpending, rfl, hfinal.1, rfl⟩
    · exact hfound completion hcompletion
  · exact hfound

theorem mem_reductions_add {chosen : Chosen} {completion : Completion} {reduction : Reduction}
    (h : reduction ∈ (chosen.add completion).reductions) :
    reduction ∈ chosen.reductions ∨ reduction = completion.reduction := by
  simp only [Chosen.add] at h
  split at h
  · exact .inl h
  · simpa using h

theorem mem_reductions_weigh {grammar : Grammar} {chosen : Chosen} {completion : Completion}
    {reduction : Reduction} (h : reduction ∈ (chosen.weigh grammar completion).reductions) :
    reduction ∈ chosen.reductions ∨ reduction = completion.reduction := by
  unfold Chosen.weigh at h
  split at h
  · exact mem_reductions_add h
  · split at h
    · exact .inr ((mem_reductions_add h).resolve_left (by simp))
    · exact mem_reductions_add h
    · exact .inl h

theorem mem_reductions_decide {chosen : Chosen} {continuing : List Standing}
    {reduction : Reduction} (h : reduction ∈ (automaton.decide chosen continuing).reductions) :
    reduction ∈ chosen.reductions := by
  simp only [decide] at h
  repeat' split at h
  all_goals first | exact h | simp at h

/-- What a verdict completes can be completed in the state. -/
theorem completes_of_mem_verdict {state : State} {terminal : Terminal} {reduction : Reduction}
    (hr : reduction ∈ (automaton.verdict state terminal).reductions) :
    automaton.Completes state reduction := by
  have hchosen : ∀ reduction ∈ ((automaton.completions state
      (automaton.outline.alphabet.terminalCode terminal)).foldl
        (Chosen.weigh automaton.grammar) {}).reductions, automaton.Completes state reduction := by
    refine List.foldlRecOn
      (motive := fun chosen : Chosen =>
        ∀ reduction ∈ chosen.reductions, automaton.Completes state reduction)
      _ _ (by simp) fun chosen hchosen completion hcompletion reduction hreduction => ?_
    rcases mem_reductions_weigh hreduction with hreduction | rfl
    · exact hchosen reduction hreduction
    · exact completes_of_mem_completions completion hcompletion
  simp only [verdict] at hr
  split at hr
  · exact hchosen reduction hr
  · simp at hr
  · exact hchosen reduction (mem_reductions_decide hr)

/-- What can be completed has parts. -/
theorem Completes.count_pos {state : State} {reduction : Reduction}
    (h : automaton.Completes state reduction) (hparts : HasParts state)
    (hfront : (automaton.slot 0).final = false) : 0 < reduction.count := by
  obtain ⟨pending, hpending, hcount, hfinal, -⟩ := h
  rcases hparts pending hpending with hpos | hslot
  · omega
  · rw [hslot, hfront] at hfinal
    contradiction

end Automaton

end CodeSplice.Syntax
