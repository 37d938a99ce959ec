/-
Module: CodeSplice.Proofs.Document.Attachment
Purpose: What becomes of the comments in a container. Each comment between the children is attached
  once. The comments between decorators and the child that they precede are written a second time with
  the child; those inside decorators that no child follows are not written.
Main exports: Ledger, Source.tally, Source.Accounts, Source.Attaches, Source.run_attaches
-/
import CodeSplice.Proofs.Document.Carries
import CodeSplice.Proofs.Document.Pieces

namespace CodeSplice

open Layout Syntax Text

/-- Which comments are not written at all, and which are written once more. -/
structure Ledger where
  lost : List Token := []
  doubled : List Token := []
deriving Repr, Inhabited

/-- What becomes of the comments of two stretches. -/
def Ledger.add (first second : Ledger) : Ledger where
  lost := first.lost ++ second.lost
  doubled := first.doubled ++ second.doubled

/-- The comment that a token is. -/
def Syntax.Token.remarks (token : Token) : List Token :=
  if token.is .comment then [token] else []

namespace Source

variable {source : Source}

/-- What becomes of the comments in the pieces of a container. `child` tells what becomes of those of a
child. `decorated` is the first decorator of the next child; the comments inside its decorators and those
behind them have been collected. -/
def tally (source : Source) (child : Tree → Extent → Ledger) (decorated : Option Extent)
    (inside behind : List Token) : List Piece → Ledger
  | [] => { lost := inside }
  | .remark r :: pieces =>
    tally source child decorated inside
      (if decorated.isSome then behind ++ r.remarks else behind) pieces
  | .decorator extent :: pieces =>
    tally source child (decorated.or (some extent))
      (inside ++ source.between extent.start extent.stop) behind pieces
  | .separator _ :: pieces => tally source child decorated inside behind pieces
  | .child tree extent :: .separator stop :: pieces =>
    (Ledger.add { doubled := behind }
      (child tree ((decorated.map (·.cover (extent.cover stop))).getD (extent.cover stop)))).add
        (tally source child none [] [] pieces)
  | .child tree extent :: pieces =>
    (Ledger.add { doubled := behind }
      (child tree ((decorated.map (·.cover extent)).getD extent))).add
        (tally source child none [] [] pieces)

/-- The comments written for a stretch are those that begin in it, as the ledger says. -/
def Accounts (source : Source) (ledger : Ledger) (start stop : Nat) (written : List Token) : Prop :=
  ∀ r, written.count r + ledger.lost.count r =
    (source.between start stop).count r + ledger.doubled.count r

/-! ### Comments that are attached -/

theorem trim_of_isComment {cs : List Char} (h : IsComment cs) : trim cs = trimEnd cs := by
  obtain ⟨rest, hrest⟩ := h.trimEnd_ne_nil
  rw [trim_eq_trimStart, hrest, trimStart_cons_of_not_space (by decide)]

theorem newline_not_mem_of_oneRow {token : Token} {text : List Char} (h : token.Placed text)
    (hrow : token.extent.oneRow = true) : '\n' ∉ token.text.toList := by
  have hend := h.endRow_eq
  simp only [Extent.oneRow, beq_iff_eq] at hrow
  rw [← hrow] at hend
  rw [← List.count_eq_zero]
  omega

/-- A comment of one line says what it says where it is attached. -/
theorem bears_trimmed (hs : source.Sound) {r : Token} (hr : r ∈ source.remarks)
    (hline : '\n' ∉ r.text.toList) : source.Bears (Attached.trimmed r).toList [r] := by
  have hcomment := hs.isComment hr
  have hline' : '\n' ∉ trimEnd r.text.toList := by
    intro hmem
    obtain ⟨w, htext, -⟩ := exists_trimEnd r.text.toList
    rw [htext] at hline
    exact hline (List.mem_append_left w hmem)
  simp only [Attached.trimmed, String.toList_ofList, trim_of_isComment hcomment]
  apply hs.bears_remark hr
  have hkeep : Relaid (inside source.literals) r.extent.start (trimEnd r.text.toList ++ [])
      (trimEnd r.text.toList ++ []) := .keepAll hline' .nil
  simpa using hkeep

/-- The comment that a token of a tree is begins there, and no other. -/
theorem count_remarks (hs : source.Sound) {tree : Tree} (h : source.Holds tree) {token : Token}
    (htoken : token ∈ tree.tokens) (r : Token) :
    (source.between token.extent.start token.extent.stop).count r = token.remarks.count r := by
  have hmem : ∀ other, other ∈ source.between token.extent.start token.extent.stop ↔
      other ∈ token.remarks := by
    intro other
    constructor
    · intro hother
      obtain ⟨hremark, hstart, hlt⟩ := mem_between.1 hother
      have := hs.start_lt_solidStop hremark
      have := hs.solidStop_le hremark
      rcases h.token_apart htoken hremark with rfl | hbefore | hbehind
      · simp [Token.remarks, (hs.placed other hremark).2]
      · omega
      · omega
    · intro hother
      unfold Token.remarks at hother
      split at hother
      · rename_i hcomment
        obtain rfl := List.mem_singleton.1 hother
        have hremark := h.mem other (Tree.mem_comments.2 ⟨htoken, hcomment⟩)
        have := hs.start_lt_solidStop hremark
        have := hs.solidStop_le hremark
        exact mem_between.2 ⟨hremark, Nat.le_refl _, by omega⟩
      · simp at hother
  have hnodup : token.remarks.Nodup := by
    unfold Token.remarks
    split <;> simp
  exact ((List.perm_ext_iff_of_nodup (hs.nodup.filter _) hnodup).2 hmem).count_eq r

/-- A token of a tree that stands on one row brings its comment along where it is attached. -/
theorem bears_trimmed_token (hs : source.Sound) {tree : Tree} (h : source.Holds tree)
    {token : Token} (htoken : token ∈ tree.tokens) (hrow : token.extent.oneRow = true) :
    source.Bears (Attached.trimmed token).toList token.remarks := by
  unfold Token.remarks
  split
  · rename_i hcomment
    have hline := newline_not_mem_of_oneRow (h.placed.token htoken).1 hrow
    exact bears_trimmed hs (h.mem token (Tree.mem_comments.2 ⟨htoken, hcomment⟩)) hline
  · rename_i hcode
    refine .ofCode _ _ (h.free_token hs htoken (by simpa using hcode)) ?_
    rw [← (h.placed.token htoken).1.text_eq]
    simp only [Attached.trimmed, String.toList_ofList, solid_trim]

/-! ### What has been attached -/

section

variable {α : Type} {node : α → Writer → Writer} {attached : Attached α} {written : List Token}

/-- What has been attached carries the given comments. -/
def Attaches (source : Source) (node : α → Writer → Writer) (attached : Attached α)
    (written : List Token) : Prop :=
  ∃ es cs os, source.Held node attached.reversed es ∧
    source.CarriesComments attached.comments cs ∧ source.Says attached.opening os ∧
    ∀ r, written.count r = es.count r + cs.count r + os.count r

theorem attaches_nil (lastRow : Option Nat) :
    source.Attaches node ({ lastRow } : Attached α) [] :=
  ⟨[], [], [], .nil, .nil, rfl, fun _ => rfl⟩

/-- Placing a comment attaches it. -/
theorem Attaches.remark (hs : source.Sound) (h : source.Attaches node attached written)
    {tree : Tree} (holds : source.Holds tree) {token : Token} (htoken : token ∈ tree.tokens)
    (openRow : Option Nat) :
    source.Attaches node
      (attached.remark (fun extent => source.block extent.span) openRow token)
      (written ++ token.remarks) := by
  obtain ⟨es, cs, os, hes, hcs, hos, hcount⟩ := h
  have hsplits := holds.splits_token hs htoken
  have hblock : source.Carries (source.block token.extent.span).render
      (source.between token.extent.start token.extent.stop) :=
    carries_block hs hsplits.1 hsplits.2
  have hwait : source.Attaches node
      (attached.wait (fun extent => source.block extent.span) token)
      (written ++ token.remarks) := by
    refine ⟨es, _, os, hes, hcs.append (.single hblock), hos, fun r => ?_⟩
    have := hcount r
    have := count_remarks hs holds htoken r
    simp only [List.count_append]
    omega
  unfold Attached.remark
  simp only
  split
  · rename_i last others hreversed
    split
    · rename_i hplace
      simp only [Bool.and_eq_true, Option.isNone_iff_eq_none] at hplace
      obtain ⟨⟨⟨⟨hrow, -⟩, -⟩, -⟩, hnone⟩ := hplace
      rw [hreversed] at hes
      cases hes with
      | @cons _ _ rs qs hothers hlast =>
        have htext := bears_trimmed_token hs holds htoken hrow
        refine ⟨_, cs, os, .cons hothers (hlast.trail hnone htext), hcs, hos, fun r => ?_⟩
        have := hcount r
        simp only [List.count_append] at this ⊢
        omega
    · exact hwait
  · split
    · rename_i hplace
      simp only [Bool.and_eq_true, Option.isNone_iff_eq_none] at hplace
      obtain ⟨⟨⟨⟨hrow, -⟩, -⟩, hnone⟩, -⟩ := hplace
      rw [hnone] at hos
      obtain rfl : os = [] := hos
      refine ⟨es, cs, token.remarks, hes, hcs, bears_trimmed_token hs holds htoken hrow,
        fun r => ?_⟩
      have := hcount r
      simp only [List.count_append, List.count_nil] at this ⊢
      omega
    · exact hwait

/-- Noting a decorator attaches nothing. -/
theorem Attaches.decorator (h : source.Attaches node attached written) (extent : Extent) :
    source.Attaches node (attached.decorator extent) written := h

/-- Adding a child attaches what the child carries. -/
theorem Attaches.child (h : source.Attaches node attached written) {convert : Tree → Extent → α}
    {tree : Tree} {extent : Extent} {qs : List Token}
    (hchild : source.Carries
      (node (convert tree ((attached.decorated.map (·.cover extent)).getD extent))) qs) :
    source.Attaches node (attached.child convert tree extent) (written ++ qs) := by
  obtain ⟨es, cs, os, hes, hcs, hos, hcount⟩ := h
  refine ⟨_, [], os, .cons hes (carriesEntry hcs hchild), .nil, hos, fun r => ?_⟩
  have := hcount r
  simp only [List.count_append, List.count_nil] at this ⊢
  omega

@[simp] theorem decorated_remark (block : Extent → Block) (openRow : Option Nat) (token : Token) :
    (attached.remark block openRow token).decorated = attached.decorated := by
  unfold Attached.remark
  simp only
  split <;> split <;> rfl

@[simp] theorem decorated_child (convert : Tree → Extent → α) (tree : Tree) (extent : Extent) :
    (attached.child convert tree extent).decorated = none := rfl

/-! ### Runs -/

/-- A stretch that a child of a container is read from: from its decorators, if it has any, to its last
token that is no comment or to the separator behind it. -/
structure Frames (source : Source) (tree : Tree) (whole : Extent) : Prop where
  holds : source.Holds tree
  derived : tree.Derived typeScriptAutomaton
  start_le : whole.start ≤ tree.extent.start
  code_le : ∀ token ∈ tree.tokens, token.is .comment = false → token.extent.stop ≤ whole.stop
  splits_start : source.Splits whole.start
  splits_stop : source.Splits whole.stop

/-- Children are converted to nodes that carry the comments of their stretches, as the ledger says. -/
def Converts (source : Source) (node : α → Writer → Writer) (convert : Tree → Extent → α)
    (ledger : Tree → Extent → Ledger) : Prop :=
  ∀ tree whole, source.Frames tree whole → ∃ qs, source.Carries (node (convert tree whole)) qs ∧
    source.Accounts (ledger tree whole) whole.start whole.stop qs

/-- The decorators of the next child: the comments from the first of them on, up to `position`, have
been collected. -/
def Pending (source : Source) (decorated : Option Extent) (position : Nat)
    (inside behind : List Token) : Prop :=
  match decorated with
  | none => inside = [] ∧ behind = []
  | some first => first.start ≤ position ∧ source.Splits first.start ∧
    ∀ r, (source.between first.start position).count r = inside.count r + behind.count r

theorem count_between_add {start middle stop : Nat} (h : start ≤ middle) (h' : middle ≤ stop)
    (r : Token) :
    (source.between start stop).count r =
      (source.between start middle).count r + (source.between middle stop).count r := by
  simp only [count_between]
  split <;> split <;> split <;> omega

/-- A stretch holds the comments of its end, if none begins in front of it. -/
theorem count_between_of_eq_nil {start middle stop : Nat} (h : start ≤ middle) (h' : middle ≤ stop)
    (hnone : source.between start middle = []) (r : Token) :
    (source.between start stop).count r = (source.between middle stop).count r := by
  rw [count_between_add h h', hnone, List.count_nil, Nat.zero_add]

variable {decorated : Option Extent} {inside behind : List Token} {start : Nat}

/-- Decorators go on up to a place in front of which the given comments begin. -/
theorem Pending.forward (h : source.Pending decorated start inside behind) {stop : Nat}
    (hle : start ≤ stop) {inside' behind' : List Token}
    (hnone : decorated = none → inside' = inside ∧ behind' = behind)
    (hcount : decorated.isSome = true → ∀ r, inside'.count r + behind'.count r =
      inside.count r + behind.count r + (source.between start stop).count r) :
    source.Pending decorated stop inside' behind' := by
  cases decorated with
  | none =>
    obtain ⟨rfl, rfl⟩ := hnone rfl
    exact h
  | some first =>
    obtain ⟨hfirst, hsplits, hall⟩ := h
    refine ⟨Nat.le_trans hfirst hle, hsplits, fun r => ?_⟩
    rw [count_between_add hfirst hle, hall r, hcount rfl r]

/-- A comment behind decorators stands in front of the next child. -/
theorem Pending.remark (h : source.Pending decorated start inside behind) (hs : source.Sound)
    {tree : Tree} (holds : source.Holds tree) {token : Token} (mem : token ∈ tree.tokens)
    (hle : start ≤ token.extent.start) (hnone : source.between start token.extent.start = []) :
    source.Pending decorated token.extent.stop inside
      (if decorated.isSome then behind ++ token.remarks else behind) := by
  have hspan := (holds.placed.token mem).1.start_le
  refine h.forward (Nat.le_trans hle hspan) (fun hdecorated => by simp [hdecorated]) fun hsome r => ?_
  rw [if_pos hsome, List.count_append, count_between_of_eq_nil hle hspan hnone r,
    count_remarks hs holds mem r, Nat.add_assoc]

/-- The comments inside a decorator are collected. -/
theorem Pending.decorator (h : source.Pending decorated start inside behind) (hs : source.Sound)
    {tree : Tree} (holds : source.Holds tree) (hle : start ≤ tree.extent.start)
    (hnone : source.between start tree.extent.start = []) :
    source.Pending (decorated.or (some tree.extent)) tree.extent.stop
      (inside ++ source.between tree.extent.start tree.extent.stop) behind := by
  have hspan := holds.placed.start_le_stop
  cases decorated with
  | none =>
    obtain ⟨rfl, rfl⟩ := h
    exact ⟨hspan, (holds.splits hs).1, fun r => by simp⟩
  | some first =>
    refine h.forward (Nat.le_trans hle hspan) (by simp) fun _ r => ?_
    rw [List.count_append, count_between_of_eq_nil hle hspan hnone r]
    omega

theorem count_between_of_code (hs : source.Sound) {tree : Tree} (holds : source.Holds tree)
    {token : Token} (mem : token ∈ tree.tokens) (code : token.is .comment = false) (r : Token) :
    (source.between token.extent.start token.extent.stop).count r = 0 := by
  rw [count_remarks hs holds mem r, Token.remarks, if_neg (by simp [code]), List.count_nil]

/-- A separator is passed over. -/
theorem Pending.separator (h : source.Pending decorated start inside behind) (hs : source.Sound)
    {tree : Tree} (holds : source.Holds tree) {token : Token} (mem : token ∈ tree.tokens)
    (code : token.is .comment = false) (hle : start ≤ token.extent.start)
    (hnone : source.between start token.extent.start = []) :
    source.Pending decorated token.extent.stop inside behind := by
  have hspan := (holds.placed.token mem).1.start_le
  refine h.forward (Nat.le_trans hle hspan) (fun _ => ⟨rfl, rfl⟩) fun _ r => ?_
  rw [count_between_of_eq_nil hle hspan hnone r, count_between_of_code hs holds mem code r]
  rfl

/-- The stretch of a child begins with its decorators. -/
theorem Pending.frames (h : source.Pending decorated start inside behind) (hs : source.Sound)
    {tree : Tree} {extent : Extent} (hchild : source.Child tree extent)
    (hle : start ≤ extent.start) (hnone : source.between start extent.start = [])
    {stop : Extent} (hstop : extent.stop ≤ stop.stop) (hsplits : source.Splits stop.stop)
    (hstart : stop.start = extent.start) :
    source.Frames tree ((decorated.map (·.cover stop)).getD stop) ∧
      ((decorated.map (·.cover stop)).getD stop).stop = stop.stop ∧
      ∀ r, (source.between ((decorated.map (·.cover stop)).getD stop).start stop.stop).count r =
        inside.count r + behind.count r + (source.between start stop.stop).count r := by
  have hspan := hchild.le
  have hbegin := (hchild.holds.splits hs).1
  have hempty : ∀ r, (source.between start stop.stop).count r =
      (source.between extent.start stop.stop).count r :=
    count_between_of_eq_nil hle (Nat.le_trans hspan hstop) hnone
  cases decorated with
  | none =>
    obtain ⟨rfl, rfl⟩ := h
    refine ⟨⟨hchild.holds, hchild.derived, ?_, ?_, ?_, hsplits⟩, rfl, fun r => ?_⟩
    · exact Nat.le_of_eq (hstart.trans hchild.start_eq)
    · intro token htoken hcode
      exact Nat.le_trans (hchild.code_le token htoken hcode) hstop
    · simp only [Option.map_none, Option.getD_none, hstart, hchild.start_eq]
      exact hbegin
    · simp only [Option.map_none, Option.getD_none, hstart, hempty r, List.count_nil,
        Nat.zero_add]
  | some first =>
    obtain ⟨hfirst, hsplitsFirst, hall⟩ := h
    refine ⟨⟨hchild.holds, hchild.derived, ?_, ?_, hsplitsFirst, hsplits⟩, rfl, fun r => ?_⟩
    · exact Nat.le_trans hfirst (Nat.le_trans hle (Nat.le_of_eq hchild.start_eq))
    · intro token htoken hcode
      exact Nat.le_trans (hchild.code_le token htoken hcode) hstop
    · simp only [Option.map_some, Option.getD_some, Extent.start_cover]
      rw [count_between_add hfirst (Nat.le_trans hle (Nat.le_trans hspan hstop)), hall r]

/-- Adding a child, with the separator behind it, attaches what begins in its stretch. -/
theorem Attaches.child_frames (h : source.Attaches node attached written) (hs : source.Sound)
    {convert : Tree → Extent → α} {ledger : Tree → Extent → Ledger}
    (hconvert : source.Converts node convert ledger)
    (pending : source.Pending attached.decorated start inside behind) {tree : Tree}
    {extent : Extent} (hchild : source.Child tree extent) (hle : start ≤ extent.start)
    (hnone : source.between start extent.start = []) {whole : Extent}
    (hstop : extent.stop ≤ whole.stop) (hsplits : source.Splits whole.stop)
    (hstart : whole.start = extent.start) :
    ∃ qs, source.Attaches node (attached.child convert tree whole) (written ++ qs) ∧
      ∀ r, qs.count r +
          (ledger tree ((attached.decorated.map (·.cover whole)).getD whole)).lost.count r =
        inside.count r + behind.count r + (source.between start whole.stop).count r +
          (ledger tree ((attached.decorated.map (·.cover whole)).getD whole)).doubled.count r := by
  obtain ⟨hframes, heq, hcount⟩ := pending.frames hs hchild hle hnone hstop hsplits hstart
  obtain ⟨qs, hcarries, haccounts⟩ := hconvert tree _ hframes
  refine ⟨qs, h.child hcarries, fun r => ?_⟩
  rw [haccounts r, heq, hcount r]

/-- Attaching pieces attaches their comments, as the ledger says. -/
theorem run_attaches (hs : source.Sound) {convert : Tree → Extent → α}
    {ledger : Tree → Extent → Ledger} (hconvert : source.Converts node convert ledger)
    (openRow : Option Nat) {pieces : List Piece} {start stop : Nat}
    (chain : source.Chain start pieces stop) {attached : Attached α}
    {written inside behind : List Token} (h : source.Attaches node attached written)
    (pending : source.Pending attached.decorated start inside behind) :
    ∃ written', source.Attaches node
        (attached.run (fun extent => source.block extent.span) convert openRow pieces) written' ∧
      ∀ r, written'.count r +
          (source.tally ledger attached.decorated inside behind pieces).lost.count r =
        written.count r + inside.count r + (source.between start stop).count r +
          (source.tally ledger attached.decorated inside behind pieces).doubled.count r := by
  cases chain with
  | nil le none =>
    refine ⟨written, h, fun r => ?_⟩
    simp [tally, none]
  | @cons _ _ piece pieces le none contains chain =>
    have hspan := (contains.splits hs).2.2
    have hstop := chain.start_le hs
    -- What begins between the two places begins in the piece or behind it.
    have hsplit : ∀ r, (source.between start stop).count r =
        (source.between piece.extent.start piece.extent.stop).count r +
          (source.between piece.extent.stop stop).count r := by
      intro r
      rw [count_between_add (Nat.le_trans le hspan) hstop, count_between_of_eq_nil le hspan none]
    cases contains with
    | @remark tree token holds mem =>
      simp only [Piece.extent] at hsplit chain
      have hpending := pending.remark hs holds mem le none
      rw [← decorated_remark (fun extent => source.block extent.span) openRow token] at hpending
      obtain ⟨written', hattaches, hcount⟩ :=
        run_attaches hs hconvert openRow chain (h.remark hs holds mem openRow) hpending
      refine ⟨written', hattaches, fun r => ?_⟩
      have := hcount r
      rw [decorated_remark] at this
      simp only [tally, List.count_append, hsplit r, count_remarks hs holds mem r] at this ⊢
      omega
    | @decorator tree holds =>
      simp only [Piece.extent] at hsplit chain
      obtain ⟨written', hattaches, hcount⟩ := run_attaches hs hconvert openRow chain
        (h.decorator tree.extent) (pending.decorator hs holds le none)
      refine ⟨written', hattaches, fun r => ?_⟩
      have := hcount r
      simp only [tally, Attached.decorator, List.count_append, hsplit r] at this ⊢
      omega
    | @separator tree token holds mem code =>
      simp only [Piece.extent] at hsplit chain
      obtain ⟨written', hattaches, hcount⟩ := run_attaches hs hconvert openRow chain h
        (pending.separator hs holds mem code le none)
      refine ⟨written', hattaches, fun r => ?_⟩
      have := hcount r
      simp only [tally, hsplit r, count_between_of_code hs holds mem code r] at this ⊢
      omega
    | @child tree extent child =>
      simp only [Piece.extent] at hsplit hspan chain le none
      by_cases hseparator : ∃ token pieces', pieces = .separator token :: pieces'
      · obtain ⟨close, pieces', rfl⟩ := hseparator
        cases chain with
        | cons le' none' contains' chain' =>
          have hclose := contains'.splits hs
          simp only [Piece.extent] at hclose le' chain'
          have hbehind : extent.stop ≤ (extent.cover close).stop := Nat.le_trans le' hclose.2.2
          obtain ⟨qs, hchild, hqs⟩ :=
            h.child_frames hs hconvert pending child le none hbehind hclose.2.1 rfl
          obtain ⟨written', hattaches, hcount⟩ :=
            run_attaches hs hconvert openRow chain' hchild ⟨rfl, rfl⟩
          refine ⟨written', hattaches, fun r => ?_⟩
          have := hcount r
          have := hqs r
          have hle := Nat.le_trans (Nat.le_trans le hspan) hbehind
          rw [count_between_add hle (chain'.start_le hs) r]
          simp only [tally, Ledger.add, decorated_child, Extent.stop_cover, List.count_append,
            List.count_nil] at *
          omega
      · obtain ⟨qs, hchild, hqs⟩ := h.child_frames hs hconvert pending child le none
          (Nat.le_refl extent.stop) child.splits rfl
        obtain ⟨written', hattaches, hcount⟩ :=
          run_attaches hs hconvert openRow chain hchild ⟨rfl, rfl⟩
        have hother : ∀ token pieces', pieces = .separator token :: pieces' → False :=
          fun token pieces' heq => hseparator ⟨token, pieces', heq⟩
        refine ⟨written', ?_, fun r => ?_⟩
        · rwa [Attached.run]
          exact hother
        · have := hcount r
          have := hqs r
          rw [count_between_add (Nat.le_trans le hspan) hstop, tally]
          · simp only [Ledger.add, decorated_child, List.count_append, List.count_nil] at *
            omega
          · exact hother
termination_by pieces.length

end

end Source

end CodeSplice
