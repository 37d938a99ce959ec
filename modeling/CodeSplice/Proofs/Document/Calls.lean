/-
Module: CodeSplice.Proofs.Document.Calls
Purpose: Which statements call a method of their own object. What a statement calls is wanted to
  depend on its code alone: on the tree without the comments and without the places of its tokens.
  It does but for one place: a comment directly behind `await` hides the call.
Main exports: Tree.bare, Calls, calls_congr, Calls.codeTokens, Hidden, callTarget?_eq_some_iff,
  not_forall_seesCalls
-/
import CodeSplice.Proofs.Document.Members
import CodeSplice.Proofs.Syntax.Front
import CodeSplice.Proofs.Syntax.Order
import CodeSplice.Proofs.Syntax.Run

namespace CodeSplice

open Layout Syntax

namespace Syntax.Tree

/-! ### Code without comments and places -/

mutual

/-- A tree without what may stand anywhere, and without places. -/
def bare : Tree → Tree
  | leaf token => leaf { token with extent := default }
  | node phrase _ _ parts => node phrase default 0 (bareParts parts)

@[inherit_doc bare]
def bareParts : List Tree → List Tree
  | [] => []
  | part :: parts => if part.floats then bareParts parts else bare part :: bareParts parts

end

@[simp] theorem floats_bare (tree : Tree) : tree.bare.floats = tree.floats := by
  cases tree <;> simp [bare, floats, Token.floats, Token.is]

@[simp] theorem isPhrase_bare (tree : Tree) (phrase : Phrase) :
    tree.bare.isPhrase phrase = tree.isPhrase phrase := by
  cases tree <;> simp [bare, isPhrase]

@[simp] theorem isSpelled_bare (tree : Tree) (text : String) :
    tree.bare.isSpelled text = tree.isSpelled text := by
  cases tree <;> simp [bare, isSpelled]

/-- The trees that are no comments. -/
def code (trees : List Tree) : List Tree :=
  trees.filter fun tree => !tree.floats

theorem code_append (first second : List Tree) : code (first ++ second) = code first ++ code second :=
  List.filter_append ..

theorem code_spread_of_floats {tree : Tree} (h : tree.floats = true) : code tree.spread = [] := by
  cases tree with
  | leaf token =>
    rw [spread_leaf]
    split
    · rfl
    · simp [code, h]
  | node => cases h

/-- The code that bare parts are spread to, if each of them is spread as it is. -/
theorem code_flatMap_spread {parts : List Tree}
    (h : ∀ part ∈ parts, code part.bare.spread = (code part.spread).map bare) :
    code ((bareParts parts).flatMap spread) = (code (parts.flatMap spread)).map bare := by
  induction parts with
  | nil => rfl
  | cons part parts ih =>
    have hparts := ih fun other hother => h other (List.mem_cons_of_mem _ hother)
    rw [bareParts, List.flatMap_cons, code_append, List.map_append, ← hparts]
    split
    · rename_i hfloats
      rw [code_spread_of_floats hfloats, List.map_nil, List.nil_append]
    · rw [List.flatMap_cons, code_append, h part List.mem_cons_self]

/-- A bare tree is spread to the same code. -/
theorem code_spread_bare (tree : Tree) : code tree.bare.spread = (code tree.spread).map bare := by
  induction tree using byParts with
  | leaf token =>
    rw [spread_leaf, bare, spread_leaf]
    change code (if token.is .lineEnd then [] else [bare (leaf token)]) = _
    split
    · rfl
    · cases hfloats : (leaf token).floats <;> simp [code, hfloats]
  | node phrase extent weight parts ih =>
    rw [spread_node, bare, spread_node]
    split
    · exact code_flatMap_spread ih
    · simp [code, floats, bare]

theorem codeChildren_bare (tree : Tree) : tree.bare.codeChildren = tree.codeChildren.map bare := by
  change code tree.bare.children = (code tree.children).map bare
  rw [children_eq, children_eq]
  cases tree with
  | leaf token => rfl
  | node => exact code_flatMap_spread fun part _ => code_spread_bare part

/-! ### Statements that call a method -/

/-- The tree is `this.name`, or the same with `?.`. -/
def IsOwn (name : String) (tree : Tree) : Prop :=
  tree.isPhrase .member = true ∧
    match tree.codeChildren with
    | [object, _, leaf property] =>
      object.isSpelled "this" = true ∧ property.is .word = true ∧ property.text = name
    | _ => False

/-- The tree is a call of `this.name`. -/
def CallsOwn (name : String) (tree : Tree) : Prop :=
  tree.isPhrase .call = true ∧ ∃ function ∈ tree.codeChildren.head?, function.IsOwn name

/-- The tree is a statement that consists of a call of `this.name`, awaited or not. -/
def Calls (name : String) (tree : Tree) : Prop :=
  tree.isPhrase .expressionStatement = true ∧ ∃ expression ∈ tree.codeChildren.head?,
    expression.CallsOwn name ∨ expression.isPhrase .awaitExpression = true ∧
      ∃ operand ∈ expression.codeChildren[1]?, operand.CallsOwn name

instance (name : String) (tree : Tree) : Decidable (tree.IsOwn name) := by
  unfold IsOwn
  split <;> infer_instance

instance (name : String) (tree : Tree) : Decidable (tree.CallsOwn name) :=
  inferInstanceAs (Decidable (_ ∧ _))

instance (name : String) (tree : Tree) : Decidable (tree.Calls name) :=
  inferInstanceAs (Decidable (_ ∧ _))

section

variable {name : String}

theorem isOwn_bare (tree : Tree) : tree.bare.IsOwn name ↔ tree.IsOwn name := by
  rw [IsOwn, IsOwn, isPhrase_bare, codeChildren_bare]
  refine and_congr_right fun _ => ?_
  rcases tree.codeChildren with _ | ⟨object, _ | ⟨mark, _ | ⟨property, _ | _⟩⟩⟩
  · rfl
  · rfl
  · rfl
  · cases property with
    | leaf property => simp [bare, Token.is]
    | node => rfl
  · simp

theorem callsOwn_bare (tree : Tree) : tree.bare.CallsOwn name ↔ tree.CallsOwn name := by
  simp [CallsOwn, codeChildren_bare, isOwn_bare]

/-- What a statement calls is told by its code. -/
theorem calls_bare (tree : Tree) : tree.bare.Calls name ↔ tree.Calls name := by
  simp [Calls, codeChildren_bare, callsOwn_bare]

/-- Statements that differ in comments, spaces and line breaks only call the same method. -/
theorem calls_congr {tree other : Tree} (h : tree.bare = other.bare) :
    tree.Calls name ↔ other.Calls name := by
  rw [← calls_bare tree, h, calls_bare]

end

/-! ### What is recognized -/

/-- A comment stands directly behind the `await` of a statement. -/
def Hidden (tree : Tree) : Prop :=
  ∃ expression ∈ tree.children.head?, expression.isPhrase .awaitExpression = true ∧
    ∃ remark ∈ expression.children[1]?, remark.floats = true

variable {name : String} {tree : Tree}

/-- The first child of a phrase other than `moreSignatures` is code. -/
theorem Derived.head?_codeChildren (h : tree.Derived typeScriptAutomaton) {phrase : Phrase}
    (hkind : tree.isPhrase phrase = true) (hphrase : phrase ≠ .moreSignatures) :
    ∃ first rest, tree.children = first :: rest ∧ tree.codeChildren = first :: code rest := by
  obtain ⟨first, rest, hchildren, hcounts⟩ := h.children_head marksPhrases_typeScript hkind hphrase
  exact ⟨first, rest, hchildren, by rw [codeChildren, hchildren]; simp [hcounts, code]⟩

theorem calledMethod?_of_not_call (h : tree.isPhrase .call = false) : calledMethod? tree = none := by
  unfold calledMethod?
  split
  · cases h
  · rfl

/-- A call of a method is recognized by its code. -/
theorem calledMethod?_eq_some_iff (h : tree.Derived typeScriptAutomaton) :
    calledMethod? tree = some name ↔ tree.CallsOwn name := by
  cases hcall : tree.isPhrase .call with
  | false => simp [calledMethod?_of_not_call hcall, CallsOwn, hcall]
  | true =>
    obtain ⟨function, rest, hchildren, hcode⟩ := h.head?_codeChildren hcall (by decide)
    have hown : tree.CallsOwn name ↔ function.IsOwn name := by
      simp [CallsOwn, hcall, hcode]
    rw [hown, IsOwn]
    cases tree with
    | leaf => cases hcall
    | node phrase extent weight parts =>
      obtain rfl : phrase = .call := by simpa [isPhrase] using hcall
      simp only [calledMethod?, hchildren]
      cases hmember : function.isPhrase .member with
      | false => simp
      | true =>
        simp only [if_true, true_and]
        rcases function.codeChildren with _ | ⟨object, _ | ⟨mark, _ | ⟨property, _ | ⟨other, others⟩⟩⟩⟩
        · simp
        · simp
        · simp
        · cases property with
          | leaf property => simp [and_assoc]
          | node => simp
        · simp

/-- Behind `await` a call is recognized unless a comment is in front of it. -/
theorem bind_calledMethod?_eq_some_iff (h : tree.Derived typeScriptAutomaton)
    (hawait : tree.isPhrase .awaitExpression = true) :
    (tree.children[1]?).bind calledMethod? = some name ↔
      (∃ operand ∈ tree.codeChildren[1]?, operand.CallsOwn name) ∧
        ¬ ∃ remark ∈ tree.children[1]?, remark.floats = true := by
  obtain ⟨keyword, rest, hchildren, hcode⟩ := h.head?_codeChildren hawait (by decide)
  rw [hchildren, hcode]
  cases rest with
  | nil => simp [code]
  | cons operand rest =>
    have hoperand : operand.Derived typeScriptAutomaton :=
      (derived_child h.parts (by rw [hchildren]; simp)).1
    cases hfloats : operand.floats with
    | true =>
      have hnone : calledMethod? operand = none := by
        cases operand with
        | leaf => rfl
        | node => cases hfloats
      simp [hnone, hfloats]
    | false => simp [code, hfloats, calledMethod?_eq_some_iff hoperand]

/-- What is recognized as a call is one, and every call is recognized unless a comment hides it. -/
theorem callTarget?_eq_some_iff (h : tree.Derived typeScriptAutomaton) :
    callTarget? tree = some name ↔ tree.Calls name ∧ ¬ tree.Hidden := by
  cases hstatement : tree.isPhrase .expressionStatement with
  | false =>
    have hnone : callTarget? tree = none := by
      unfold callTarget?
      split
      · cases hstatement
      · rfl
    simp [hnone, Calls, hstatement]
  | true =>
    obtain ⟨expression, rest, hchildren, hcode⟩ := h.head?_codeChildren hstatement (by decide)
    have hexpression : expression.Derived typeScriptAutomaton :=
      (derived_child h.parts (by rw [hchildren]; exact List.mem_cons_self)).1
    have hcalls : tree.Calls name ↔ expression.CallsOwn name ∨
        expression.isPhrase .awaitExpression = true ∧
          ∃ operand ∈ expression.codeChildren[1]?, operand.CallsOwn name := by
      simp [Calls, hstatement, hcode]
    have hhidden : tree.Hidden ↔ expression.isPhrase .awaitExpression = true ∧
        ∃ remark ∈ expression.children[1]?, remark.floats = true := by
      simp [Hidden, hchildren]
    rw [hcalls, hhidden]
    cases tree with
    | leaf => cases hstatement
    | node phrase extent weight parts =>
      obtain rfl : phrase = .expressionStatement := by simpa [isPhrase] using hstatement
      simp only [callTarget?, hchildren]
      cases hawait : expression.isPhrase .awaitExpression with
      | false => simp [calledMethod?_eq_some_iff hexpression]
      | true =>
        have hcall : ¬ expression.CallsOwn name := by
          rintro ⟨hcall, -⟩
          cases expression with
          | leaf => cases hcall
          | node kind =>
            obtain rfl : kind = .call := by simpa [isPhrase] using hcall
            cases hawait
        simp only [if_true, true_and, hcall, false_or]
        exact bind_calledMethod?_eq_some_iff hexpression hawait

/-! ### The tokens of a call -/

/-- The tokens of a tree that are no comments. -/
def codeTokens (tree : Tree) : List Token :=
  tree.tokens.filter fun token => !token.floats

theorem codeTokens_of_floats (h : tree.floats = true) : tree.codeTokens = [] := by
  cases tree with
  | leaf token =>
    have hfloats : token.floats = true := h
    rw [codeTokens, tokens_leaf]
    split <;> simp [hfloats]
  | node => cases h

theorem codeTokens_node (phrase : Phrase) (extent : Extent) (weight : Int) (parts : List Tree) :
    (node phrase extent weight parts).codeTokens =
      (node phrase extent weight parts).codeChildren.flatMap codeTokens := by
  rw [codeTokens, ← flatMap_tokens_children, List.filter_flatMap, codeChildren]
  induction (node phrase extent weight parts).children with
  | nil => rfl
  | cons child children ih =>
    rw [List.flatMap_cons, ih]
    cases hfloats : child.floats with
    | false => simp [hfloats, codeTokens]
    | true =>
      rw [List.filter_cons_of_neg (by simp [hfloats])]
      exact congrArg (· ++ _) (codeTokens_of_floats hfloats)

theorem codeTokens_eq {phrase : Phrase} (h : tree.isPhrase phrase = true) :
    tree.codeTokens = tree.codeChildren.flatMap codeTokens := by
  cases tree with
  | leaf => cases h
  | node => exact codeTokens_node ..

/-- A call on the object itself begins with `this`, an access mark and the name of the method. -/
def BeginsOwn (name : String) (tokens : List Token) : Prop :=
  ∃ own marks property rest, tokens = own :: (marks ++ property :: rest) ∧
    own.terminal = .spelled "this".toList ∧ property.is .word = true ∧ property.text = name

theorem BeginsOwn.append {tokens : List Token} (h : BeginsOwn name tokens) (more : List Token) :
    BeginsOwn name (tokens ++ more) := by
  obtain ⟨own, marks, property, rest, rfl, h⟩ := h
  exact ⟨own, marks, property, rest ++ more, by simp, h⟩

theorem CallsOwn.codeTokens (h : tree.CallsOwn name) : BeginsOwn name tree.codeTokens := by
  obtain ⟨hcall, function, hfunction, hmember, hown⟩ := h
  split at hown
  · rename_i object mark property heq
    obtain ⟨hthis, hword, hname⟩ := hown
    obtain ⟨arguments, hchildren⟩ := List.head?_eq_some_iff.1 hfunction
    cases object with
    | node => cases hthis
    | leaf own =>
      have hterminal : own.terminal = .spelled "this".toList := by simpa [isSpelled] using hthis
      have hownTokens : (leaf own).codeTokens = [own] := by
        simp [Tree.codeTokens, tokens_leaf, Token.is, Token.floats, hterminal]
      have hpropertyTokens : (leaf property).codeTokens = [property] := by
        have hkind : property.terminal = .kind .word := by simpa [Token.is] using hword
        simp [Tree.codeTokens, tokens_leaf, Token.is, Token.floats, hkind]
      refine ⟨own, mark.codeTokens, property, arguments.flatMap Tree.codeTokens, ?_, hterminal,
        hword, hname⟩
      rw [codeTokens_eq hcall, hchildren, List.flatMap_cons, codeTokens_eq hmember, heq]
      simp [hownTokens, hpropertyTokens]
  · exact hown.elim

/-- A statement that calls a method of its own object begins with the call, or with what stands in
front of the operand of `await`. So nothing counts that only looks like the call in a comment, in a
string, in a function or behind another object. -/
theorem Calls.codeTokens (h : tree.Calls name) :
    BeginsOwn name tree.codeTokens ∨ ∃ expression ∈ tree.codeChildren.head?,
      expression.isPhrase .awaitExpression = true ∧ ∃ keyword ∈ expression.codeChildren.head?,
        ∃ call, tree.codeTokens = keyword.codeTokens ++ call ∧ BeginsOwn name call := by
  obtain ⟨hstatement, expression, hexpression, hcalls⟩ := h
  obtain ⟨rest, hchildren⟩ := List.head?_eq_some_iff.1 hexpression
  have htokens : tree.codeTokens = expression.codeTokens ++ rest.flatMap Tree.codeTokens := by
    rw [codeTokens_eq hstatement, hchildren, List.flatMap_cons]
  obtain hcall | ⟨hawait, operand, hoperand, hcall⟩ := hcalls
  · left
    rw [htokens]
    exact hcall.codeTokens.append _
  · right
    cases hparts : expression.codeChildren with
    | nil => simp [hparts] at hoperand
    | cons keyword operands =>
      obtain ⟨others, rfl⟩ : ∃ others, operands = operand :: others := by
        rw [hparts, List.getElem?_cons_succ, ← List.head?_eq_getElem?] at hoperand
        exact List.head?_eq_some_iff.1 hoperand
      refine ⟨expression, hexpression, hawait, keyword, by rw [hparts]; rfl, _, ?_,
        hcall.codeTokens.append
          (others.flatMap Tree.codeTokens ++ rest.flatMap Tree.codeTokens)⟩
      rw [htokens, codeTokens_eq hawait, hparts]
      simp

/-- The outermost phrases of a kind are made by their parts. -/
theorem derived_outermost {inner : Tree} {phrase : Phrase}
    (h : ∀ part ∈ tree.parts, part.Derived typeScriptAutomaton)
    (hinner : inner ∈ tree.outermost phrase) :
    ∀ part ∈ inner.parts, part.Derived typeScriptAutomaton := by
  induction tree using byParts with
  | leaf token => simp at hinner
  | node kind extent weight parts ih =>
    rw [outermost_node] at hinner
    split at hinner
    · obtain rfl := List.mem_singleton.1 hinner
      exact h
    · obtain ⟨part, hpart, hinner⟩ := List.mem_flatMap.1 hinner
      exact ih part hpart (h part hpart).parts hinner

end Syntax.Tree

/-! ### Statements of constructors -/

/-- The call that is recorded with a statement of a constructor is that of a tree in its braces. -/
theorem Source.exists_callTarget?_of_constructor {source : Source} {head : Block × Option String}
    {body : Tree} {entry : Entry Statement}
    (h : entry ∈ (source.constructor head body).statements) :
    ∃ tree ∈ enclosed body, entry.node.call = callTarget? tree := by
  obtain ⟨tree, htree, extent, hnode⟩ := exists_convert_of_mem_entries h
  exact ⟨tree, htree, by rw [hnode]; rfl⟩

/-- The trees in the braces of the constructors that a tree holds. -/
def constructorStatements (tree : Tree) : List Tree :=
  ((tree.outermost .methodDefinition).filter fun definition =>
      (definition.child? .propertyName).bind Source.plainName? == some "constructor").flatMap
    fun definition => (definition.child? .block).toList.flatMap Source.enclosed

/-- The statements of constructors are made by their parts. -/
theorem derived_of_mem_constructorStatements {source : List Char} {root statement : Tree}
    (h : parse? source = some root) (hstatement : statement ∈ constructorStatements root) :
    statement.Derived typeScriptAutomaton := by
  obtain ⟨definition, hdefinition, hblock⟩ := List.mem_flatMap.1 hstatement
  obtain ⟨body, hbody, hinside⟩ := List.mem_flatMap.1 hblock
  have hparts := Tree.derived_outermost (derived_of_parse? h) (List.mem_filter.1 hdefinition).1
  have hchild : body ∈ definition.children := List.mem_of_find?_eq_some (Option.mem_toList.1 hbody)
  have hderived : body.Derived typeScriptAutomaton := (Tree.derived_child hparts hchild).1
  exact (Tree.derived_child hderived.parts (Source.mem_of_mem_enclosed hinside)).1

/-- In a text, the statements of constructors for which the call of a method is recorded are those that
call it and do not hide the call. -/
theorem callTarget?_of_mem_constructorStatements {source : List Char} {root statement : Tree}
    (h : parse? source = some root) (hstatement : statement ∈ constructorStatements root)
    (name : String) :
    callTarget? statement = some name ↔ statement.Calls name ∧ ¬ statement.Hidden :=
  Tree.callTarget?_eq_some_iff (derived_of_mem_constructorStatements h hstatement)

/-- In a text, a call of a method is recorded for just those statements of constructors that call it. -/
def SeesCalls (text : String) : Prop :=
  ∀ root ∈ parse? text.toList, ∀ statement ∈ constructorStatements root, ∀ name,
    callTarget? statement = some name ↔ statement.Calls name

/-- A constructor that awaits a call, with a comment between the two. -/
def awaitingSource : String :=
  "class A{constructor(){await/**/this.x()}}"

/-- A comment behind `await` hides the call. -/
theorem not_forall_seesCalls : ¬ ∀ text, SeesCalls text := by
  intro h
  have hcall : ∃ root ∈ parse? awaitingSource.toList, ∃ statement ∈ constructorStatements root,
      callTarget? statement ≠ some "x" ∧ statement.Calls "x" := by
    decide +kernel
  obtain ⟨root, hroot, statement, hstatement, hnone, hcalls⟩ := hcall
  exact hnone ((h awaitingSource root hroot statement hstatement "x").2 hcalls)

end CodeSplice
