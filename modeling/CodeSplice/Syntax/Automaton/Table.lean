/-
Module: CodeSplice.Syntax.Automaton.Table
Purpose: Lists that are made once and looked into often. A table is a binary tree: the way to an entry
  is given by the binary digits of its number, so that each look-up takes few steps.
Main exports: Table, Table.ofList, Table.get?, Table.ofFn, Table.modify, Table.collect
-/

namespace CodeSplice.Syntax

/-- A table of entries that are numbered from zero. Under the entry zero stand, in two tables of their
own, the entries of odd and of even number. -/
inductive Table (α : Type) where
  | empty
  | node (value : α) (odd even : Table α)
deriving Repr, Inhabited

namespace Table

variable {α : Type}

mutual

/-- The elements of a list at even positions. -/
def atEven : List α → List α
  | [] => []
  | a :: as => a :: atOdd as

/-- The elements of a list at odd positions. -/
def atOdd : List α → List α
  | [] => []
  | _ :: as => atEven as

end

/-- The table of a list that is not longer than `bound`. -/
def build : Nat → List α → Table α
  | _, [] => empty
  | 0, _ :: _ => empty
  | bound + 1, a :: as => node a (build bound (atEven as)) (build bound (atOdd as))

/-- The table of a list. -/
def ofList (list : List α) : Table α :=
  build list.length list

/-- The entry of the given number. -/
def get? : Table α → Nat → Option α
  | empty, _ => none
  | node value _ _, 0 => some value
  | node _ odd even, number + 1 =>
    bif (number % 2).beq 0 then odd.get? (number / 2) else even.get? (number / 2)

/-- The entry of the given number, or a default value. -/
def getD (table : Table α) (number : Nat) (fallback : α) : α :=
  (table.get? number).getD fallback

/-- The table of the values of a function. -/
def ofFn (size : Nat) (f : Nat → α) : Table α :=
  ofList ((List.range size).map f)

/-- Change the entry of the given number. -/
def modify (f : α → α) : Table α → Nat → Table α
  | empty, _ => empty
  | node value odd even, 0 => node (f value) odd even
  | node value odd even, number + 1 =>
    bif (number % 2).beq 0 then node value (odd.modify f (number / 2)) even
    else node value odd (even.modify f (number / 2))

/-- Tables of lists: put each of some values in front of the list of the given number. -/
def collect {β : Type} (size : Nat) (entries : List (Nat × β)) : Table (List β) :=
  entries.foldr (fun (number, value) table => table.modify (value :: ·) number)
    (ofList (List.replicate size []))

mutual

/-- The elements at even positions are those of even number. -/
theorem getElem?_atEven (list : List α) (number : Nat) :
    (atEven list)[number]? = list[2 * number]? := by
  cases list with
  | nil => simp [atEven]
  | cons a as =>
    cases number with
    | zero => simp [atEven]
    | succ number =>
      simp only [atEven, List.getElem?_cons_succ, getElem?_atOdd as number]
      rw [show 2 * (number + 1) = 2 * number + 1 + 1 by omega, List.getElem?_cons_succ]

/-- The elements at odd positions are those of odd number. -/
theorem getElem?_atOdd (list : List α) (number : Nat) :
    (atOdd list)[number]? = list[2 * number + 1]? := by
  cases list with
  | nil => simp [atOdd]
  | cons a as => simp only [atOdd, List.getElem?_cons_succ, getElem?_atEven as number]

end

mutual

theorem length_atEven_le (list : List α) : (atEven list).length ≤ list.length := by
  cases list with
  | nil => simp [atEven]
  | cons a as => simpa [atEven] using length_atOdd_le as

theorem length_atOdd_le (list : List α) : (atOdd list).length ≤ list.length := by
  cases list with
  | nil => simp [atOdd]
  | cons a as => exact Nat.le_succ_of_le (length_atEven_le as)

end

/-- A table built with a sufficient bound has the entries of its list. -/
theorem get?_build {bound : Nat} {list : List α} (h : list.length ≤ bound) (number : Nat) :
    (build bound list).get? number = list[number]? := by
  induction bound generalizing list number with
  | zero => cases list <;> simp_all [build, get?]
  | succ bound ih =>
    cases list with
    | nil => simp [build, get?]
    | cons a as =>
      have hs : as.length ≤ bound := by simpa using h
      cases number with
      | zero => simp [build, get?]
      | succ number =>
        simp only [build, get?, List.getElem?_cons_succ]
        cases hn : (number % 2).beq 0 with
        | true =>
          have := Nat.eq_of_beq_eq_true hn
          rw [cond_true, ih (Nat.le_trans (length_atEven_le as) hs), getElem?_atEven]
          congr 1
          omega
        | false =>
          have := Nat.ne_of_beq_eq_false hn
          rw [cond_false, ih (Nat.le_trans (length_atOdd_le as) hs), getElem?_atOdd]
          congr 1
          omega

/-- The table of a list has the entries of the list. -/
theorem get?_ofList (list : List α) (number : Nat) : (ofList list).get? number = list[number]? :=
  get?_build (Nat.le_refl _) number

end Table

end CodeSplice.Syntax
