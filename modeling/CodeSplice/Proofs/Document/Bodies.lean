/-
Module: CodeSplice.Proofs.Document.Bodies
Purpose: What becomes of the comments of classes and their members. What stands in front of the brace of a
  body goes into the head or behind the brace, what stands in the braces is attached to the children or
  kept in a block, and what stands behind the closing brace is not written.
Main exports: Source.Body, Source.bodyLedger, Source.memberLedger, Source.converts_statement,
  Source.converts_member, Source.exists_carries_class?
-/
import CodeSplice.Proofs.Document.Head
import CodeSplice.Proofs.Syntax.Parts

namespace CodeSplice

open Layout Syntax

namespace Syntax.Tree

theorem mem_tokens_of_child {tree child : Tree} (hchild : child ∈ tree.children) {token : Token}
    (htoken : token ∈ child.tokens) : token ∈ tree.tokens := by
  cases tree with
  | leaf => simp [children_eq, parts] at hchild
  | node phrase extent weight parts =>
    rw [← flatMap_tokens_children]
    exact List.mem_flatMap.2 ⟨child, hchild, htoken⟩

theorem isPhrase_of_ne {tree : Tree} {phrase other : Phrase} (h : tree.isPhrase phrase = true)
    (hne : phrase ≠ other) : tree.isPhrase other = false := by
  cases tree with
  | leaf => rfl
  | node kind =>
    obtain rfl : kind = phrase := by simpa [isPhrase] using h
    simpa [isPhrase] using hne

theorem isKind_of_isPhrase {tree : Tree} {phrase : Phrase} (h : tree.isPhrase phrase = true)
    (kind : TokenKind) : tree.isKind kind = false := by
  cases tree with
  | leaf => simp [isPhrase] at h
  | node => rfl

theorem mem_of_child? {tree child : Tree} {phrase : Phrase} (h : tree.child? phrase = some child) :
    child ∈ tree.children ∧ child.isPhrase phrase = true :=
  ⟨List.mem_of_find?_eq_some h, List.find?_some (p := fun child : Tree => child.isPhrase phrase) h⟩

end Syntax.Tree

namespace Source

variable {source : Source}

/-- A child that is a token is one of the tokens of the tree. -/
theorem Holds.mem_tokens_of_leaf {tree : Tree} (h : source.Holds tree) {phrase : Phrase}
    (hphrase : tree.isPhrase phrase = true) (hne : phrase ≠ .template) {token : Token}
    (hchild : Tree.leaf token ∈ tree.children) : token ∈ tree.tokens := by
  have hline := (h.child (Tree.isPhrase_of_ne hphrase hne) hchild).2.2
  refine Tree.mem_tokens_of_child hchild ?_
  rw [Tree.tokens_leaf, if_neg (by simpa [Tree.isKind] using hline)]
  exact List.mem_singleton_self token

/-! ### Children in braces -/

section

variable (hs : source.Sound)
include hs

/-- Some of the children of a phrase are a chain, from a place that the earlier ones end in front of to a
place that the later ones begin behind. -/
theorem chain_children {tree : Tree} (h : source.Holds tree) {phrase : Phrase}
    (hphrase : tree.isPhrase phrase = true) (hne : phrase ≠ .template) {front middle back : List Tree}
    (hchildren : tree.children = front ++ middle ++ back) {start stop : Nat} (hle : start ≤ stop)
    (hstart : tree.extent.start ≤ start) (hstop : stop ≤ tree.extent.stop)
    (hfront : ∀ child ∈ front, child.extent.stop ≤ start)
    (hmiddle : ∀ child ∈ middle, start ≤ child.extent.start ∧ child.extent.stop ≤ stop)
    (hback : ∀ child ∈ back, stop ≤ child.extent.start) :
    source.Chain start (middle.flatMap Piece.ofTree) stop := by
  have hmem : ∀ child ∈ middle, child ∈ tree.children := by
    intro child hchild
    simp [hchildren, hchild]
  have hinOrder := h.placed.children_inOrder
  rw [hchildren, InOrder, List.map_append, List.map_append, List.pairwise_append,
    List.pairwise_append] at hinOrder
  refine chain_ofTrees hs hle
    (fun child hchild => h.child (Tree.isPhrase_of_ne hphrase hne) (hmem child hchild))
    hinOrder.1.2.1 hmiddle fun r hr hge hlt => ?_
  have hpos := hs.start_lt_solidStop hr
  have hsolid := hs.solidStop_le hr
  rcases h.apart r hr with htoken | hbefore | hbehind
  · cases tree with
    | leaf => simp [Tree.isPhrase] at hphrase
    | node kind extent weight parts =>
      rw [← Tree.flatMap_tokens_children] at htoken
      obtain ⟨child, hchild, htoken⟩ := List.mem_flatMap.1 htoken
      have hwithin := ((h.placed.child hchild).1.token htoken).2
      rw [hchildren, List.mem_append, List.mem_append] at hchild
      rcases hchild with (hchild | hchild) | hchild
      · have := hfront child hchild
        omega
      · exact ⟨child, hchild, htoken⟩
      · have := hback child hchild
        omega
  · omega
  · omega

end

/-- The brace that closes a body. -/
def closing? (body : Tree) : Option Tree :=
  body.children.reverse.find? (·.isSpelled "\x7d")

/-- A body of a source, and the brace that closes it. -/
structure Body (source : Source) (body : Tree) (close : Token) : Prop where
  holds : source.Holds body
  derived : body.Derived typeScriptAutomaton
  closing_eq : closing? body = some (.leaf close)
  children_eq : ∃ rest, body.children = enclosed body ++ .leaf close :: rest
  mem : close ∈ body.tokens
  code : close.is .comment = false

theorem exists_body {body : Tree} (h : source.Holds body)
    (derived : body.Derived typeScriptAutomaton) {phrase : Phrase}
    (hphrase : body.isPhrase phrase = true) (hbody : phrase ∈ [Phrase.block, .classBody]) :
    ∃ close, source.Body body close := by
  obtain ⟨front, close, rest, hchildren, hterminal, hrest⟩ :=
    derived.closed marksPhrases_typeScript.keepsPhrases ordersParts_typeScript hphrase hbody
  have hclose : (Tree.leaf close).isSpelled "\x7d" = true := by
    simp [Tree.isSpelled, hterminal, closingBrace]
  have hreverse : body.children.reverse = rest.reverse ++ .leaf close :: front.reverse := by
    simp [hchildren]
  have hdrop : body.children.reverse.dropWhile (fun child => !child.isSpelled "\x7d") =
      .leaf close :: front.reverse := by
    rw [hreverse, List.dropWhile_append_of_pos fun other hother => by
      simp [hrest other (List.mem_reverse.1 hother)], List.dropWhile_cons_of_neg (by simp [hclose])]
  have hmem : Tree.leaf close ∈ body.children := by simp [hchildren]
  refine ⟨close, h, derived, ?_, ⟨rest, ?_⟩, ?_, by simp [Token.is, hterminal]⟩
  · rw [closing?, hreverse, List.find?_append, List.find?_eq_none.2 fun other hother => by
      simp [hrest other (List.mem_reverse.1 hother)]]
    simp [hclose]
  · rw [enclosed, hdrop, hchildren]
    simp
  · refine Tree.mem_tokens_of_child hmem ?_
    simp [Tree.tokens_leaf, Token.is, hterminal]

namespace Body

variable {body : Tree} {close : Token}

/-- The children in the braces of a body stand between its start and its closing brace. -/
theorem within (h : source.Body body close) {child : Tree} (hchild : child ∈ enclosed body) :
    body.extent.start ≤ child.extent.start ∧ child.extent.stop ≤ close.extent.start := by
  obtain ⟨rest, hchildren⟩ := h.children_eq
  have hinOrder := h.holds.placed.children_inOrder
  rw [hchildren, InOrder, List.map_append, List.pairwise_append] at hinOrder
  have hmem : child ∈ body.children := by simp [hchildren, hchild]
  refine ⟨(h.holds.placed.child hmem).2.1, ?_⟩
  exact hinOrder.2.2 _ (List.mem_map_of_mem hchild) _ (by simp)

/-- The children in the braces that come behind some others are a chain. -/
theorem chain (h : source.Body body close) (hs : source.Sound) {phrase : Phrase}
    (hphrase : body.isPhrase phrase = true) (hne : phrase ≠ .template) {front middle : List Tree}
    (henclosed : enclosed body = front ++ middle) {start : Nat} (hle : start ≤ close.extent.start)
    (hstart : body.extent.start ≤ start) (hfront : ∀ child ∈ front, child.extent.stop ≤ start)
    (hmiddle : ∀ child ∈ middle, start ≤ child.extent.start) :
    source.Chain start (middle.flatMap Piece.ofTree) close.extent.start := by
  obtain ⟨rest, hchildren⟩ := h.children_eq
  have hinOrder := h.holds.placed.children_inOrder
  rw [hchildren, InOrder, List.map_append, List.pairwise_append, List.map_cons,
    List.pairwise_cons] at hinOrder
  have hclose := h.holds.placed.token h.mem
  have hspan := hclose.1.start_le
  have hsplit : body.children = front ++ middle ++ (.leaf close :: rest) := by
    rw [hchildren, henclosed]
  refine chain_children hs h.holds hphrase hne hsplit hle hstart
    (Nat.le_trans hspan hclose.2.2) hfront (fun child hchild => ?_) fun child hchild => ?_
  · exact ⟨hmiddle child hchild, (h.within (by simp [henclosed, hchild])).2⟩
  · rcases List.mem_cons.1 hchild with rfl | hchild
    · exact Nat.le_refl _
    · have := hinOrder.2.1.1 _ (List.mem_map_of_mem hchild)
      simp only [Tree.extent_leaf] at this
      omega

end Body

/-! ### What becomes of the comments of a body -/

/-- Where the brace that closes a body ends. -/
def bodyStop (body : Tree) : Nat :=
  ((closing? body).map (·.extent.stop)).getD body.extent.stop

theorem Body.bodyStop_eq {body : Tree} {close : Token} (h : source.Body body close) :
    bodyStop body = close.extent.stop := by
  simp [bodyStop, h.closing_eq]

/-- What becomes of the comments in the braces of a body. -/
def bodyLedger (source : Source) (child : Tree → Extent → Ledger) (body : Tree) : Ledger :=
  source.tally child none [] [] ((enclosed body).flatMap Piece.ofTree)

/-- What becomes of the comments behind a body. -/
def behindLedger (source : Source) (body : Tree) (whole : Extent) : Ledger :=
  { lost := source.between (bodyStop body) whole.stop }

theorem count_between_code (hs : source.Sound) {body : Tree} {close : Token}
    (hbody : source.Body body close) {start stop : Nat} (hstart : start ≤ body.extent.start)
    (hstop : close.extent.stop ≤ stop) (r : Token) :
    (source.between start stop).count r =
      (source.between start body.extent.start).count r +
        (source.between body.extent.start close.extent.start).count r +
          (source.between close.extent.stop stop).count r := by
  obtain ⟨hplaced, hwithin, -⟩ := hbody.holds.placed.token hbody.mem
  have hspan := hplaced.start_le
  have hclose := count_between_of_code hs hbody.holds hbody.mem hbody.code r
  rw [@count_between_add source start body.extent.start stop hstart (by omega),
    @count_between_add source body.extent.start close.extent.start stop hwithin (by omega),
    @count_between_add source close.extent.start close.extent.stop stop hspan hstop, hclose]
  omega

section

variable (hs : source.Sound) {α : Type} {node : α → Writer → Writer}
  {convert : Tree → Extent → α} {child : Tree → Extent → Ledger} {body : Tree} {close : Token}
  {phrase : Phrase}
include hs

theorem exists_attaches_attachBody (hbody : source.Body body close)
    (hphrase : body.isPhrase phrase = true) (hne : phrase ≠ .template)
    (hconvert : source.Converts node convert child) :
    ∃ written, source.Attaches node (source.attachBody convert body) written ∧
      source.Accounts (source.bodyLedger child body) body.extent.start close.extent.start
        written := by
  have hclose := (hbody.holds.placed.token hbody.mem).2.1
  have hchain : source.Chain body.extent.start ((enclosed body).flatMap Piece.ofTree)
      close.extent.start :=
    hbody.chain hs hphrase hne (List.nil_append _).symm hclose (Nat.le_refl _) (by simp)
      fun child hchild => (hbody.within hchild).1
  obtain ⟨written, hattaches, hcount⟩ := run_attaches hs hconvert (some body.extent.row) hchain
    (attaches_nil (some body.extent.row)) ⟨rfl, rfl⟩
  refine ⟨written, hattaches, fun r => ?_⟩
  simpa [bodyLedger] using hcount r

/-- A head with the children of a body in braces carries the comments of both. -/
theorem exists_carries_braced (hbody : source.Body body close)
    (hphrase : body.isPhrase phrase = true) (hne : phrase ≠ .template)
    (hconvert : source.Converts node convert child) {start : Nat} (hstart : source.Splits start)
    (hle : start ≤ body.extent.start) (apart : α → α → Bool) :
    ∃ qs, source.Carries (renderBraced (source.head start body.extent.start).1
        (joinComments (source.head start body.extent.start).2
          (source.attachBody convert body).opening)
        ((source.attachBody convert body).entries.isEmpty &&
          (source.attachBody convert body).comments.isEmpty)
        (renderEntries apart node (source.attachBody convert body).entries
          (source.attachBody convert body).comments)) qs ∧
      ∀ r, qs.count r + (source.bodyLedger child body).lost.count r =
        (source.between start body.extent.start).count r +
          (source.between body.extent.start close.extent.start).count r +
            (source.bodyLedger child body).doubled.count r := by
  obtain ⟨ps, os, hhead, hsays, hcount⟩ :=
    carries_head hs hstart (hbody.holds.splits hs).1 hle
  obtain ⟨written, ⟨es, cs, qs, hes, hcs, hopening, hwritten⟩, haccounts⟩ :=
    exists_attaches_attachBody hs hbody hphrase hne hconvert
  have hhollow : ((source.attachBody convert body).entries.isEmpty &&
      (source.attachBody convert body).comments.isEmpty) = true → es ++ cs = [] := by
    intro hempty
    simp only [Attached.entries, Bool.and_eq_true, List.isEmpty_reverse, List.isEmpty_iff] at hempty
    rw [hempty.1] at hes
    rw [hempty.2] at hcs
    rw [hes.eq_nil, hcs.eq_nil, List.nil_append]
  refine ⟨_, carries_renderBraced hhead (says_joinComments hsays hopening)
    (carries_renderEntries hes hcs apart) hhollow, fun r => ?_⟩
  have := hcount r
  have := hwritten r
  have := haccounts r
  simp only [List.count_append]
  omega

end

/-! ### Members -/

/-- The block of a stretch carries its comments. -/
theorem exists_carries_block (hs : source.Sound) {whole : Extent} (hstart : source.Splits whole.start)
    (hstop : source.Splits whole.stop) :
    ∃ qs, source.Carries (source.block whole.span).render qs ∧
      source.Accounts {} whole.start whole.stop qs :=
  ⟨_, carries_block hs hstart hstop, fun _ => rfl⟩

/-- A statement carries its comments. -/
theorem converts_statement (hs : source.Sound) :
    source.Converts (·.text.render) source.statement fun _ _ => {} :=
  fun _ _ frames => exists_carries_block hs frames.splits_start frames.splits_stop

section

variable (hs : source.Sound)
include hs

omit hs in
/-- A block begins with a brace, which is no comment. -/
theorem exists_brace {body : Tree} {close : Token} (hbody : source.Body body close)
    (hphrase : body.isPhrase .block = true) :
    ∃ brace others, body.children = .leaf brace :: others ∧ brace ∈ body.tokens ∧
      brace.is .comment = false ∧ brace.extent.start = body.extent.start ∧
      brace.extent.start < brace.extent.stop := by
  obtain ⟨brace, others, hchildren, hcode, hstart, hlt⟩ :=
    hbody.derived.block marksPhrases_typeScript hbody.holds.placed hphrase
  have hmem : brace ∈ body.tokens :=
    hbody.holds.mem_tokens_of_leaf hphrase (by decide) (by simp [hchildren])
  exact ⟨brace, others, hchildren, hmem, hcode, hstart, hlt⟩

/-- The stretch behind the opening brace of a block holds all comments in the braces. -/
theorem behind_brace {body : Tree} {close : Token} (hbody : source.Body body close)
    (hphrase : body.isPhrase .block = true) :
    source.Splits (body.extent.start + 1) ∧ ∀ r,
      (source.between (body.extent.start + 1) close.extent.start).count r =
        (source.between body.extent.start close.extent.start).count r := by
  obtain ⟨brace, others, -, hmem, hcode, hstart, hlt⟩ := exists_brace hbody hphrase
  have hfree := hbody.holds.free_token hs hmem hcode
  constructor
  · intro r hr
    have := hs.start_lt_solidStop hr
    have := hfree r hr
    omega
  · intro r
    by_cases hr : r ∈ source.remarks
    · have := hs.start_lt_solidStop hr
      have := hfree r hr
      simp only [count_between]
      split <;> split <;> omega
    · simp [count_between, List.count_eq_zero.2 hr]

/-- The comment on the row of the opening brace of a block comes first behind it. -/
theorem opening_first {body : Tree} {close : Token} (hbody : source.Body body close)
    (hphrase : body.isPhrase .block = true) {remark : Token}
    (hopening : openingComment? body = some remark) :
    remark ∈ body.tokens ∧ remark.is .comment = true ∧ remark.extent.oneRow = true ∧
      remark.extent.stop ≤ close.extent.start ∧ ∀ r,
        remark.remarks.count r + (source.between remark.extent.stop close.extent.start).count r =
          (source.between body.extent.start close.extent.start).count r := by
  obtain ⟨brace, others, hchildren, hmem, hcode, hstart, hlt⟩ := exists_brace hbody hphrase
  unfold openingComment? at hopening
  split at hopening
  · rename_i first token rest henclosed
    split at hopening
    · rename_i hguard
      obtain rfl := Option.some.inj hopening
      simp only [Bool.and_eq_true] at hguard
      obtain ⟨⟨hcomment, hrow⟩, -⟩ := hguard
      obtain ⟨behind, hsplit⟩ := hbody.children_eq
      rw [henclosed, hchildren, List.cons_append, List.cons.injEq] at hsplit
      obtain ⟨rfl, hothers⟩ := hsplit
      have hinOrder := hbody.holds.placed.children_inOrder
      rw [hchildren, InOrder, List.map_cons, List.pairwise_cons] at hinOrder
      have hbrace := (hbody.within (by simp [henclosed] : Tree.leaf brace ∈ enclosed body)).2
      have hchain := hbody.chain hs hphrase (by decide)
        (show enclosed body = [.leaf brace] ++ (.leaf token :: rest) from henclosed) hbrace
        (by simp only [Tree.extent_leaf]; omega) (by simp) fun child hchild =>
          hinOrder.1 _ (List.mem_map_of_mem (by rw [hothers]; exact List.mem_append_left _ hchild))
      rw [List.flatMap_cons, show Piece.ofTree (.leaf token) = [.remark token] by
        simp [Piece.ofTree, hcomment]] at hchain
      have htoken : token ∈ body.tokens :=
        hbody.holds.mem_tokens_of_leaf hphrase (by decide) (by simp [hchildren, hothers])
      cases hchain with
      | cons le none contains rest =>
        simp only [Piece.extent, Tree.extent_leaf] at le none rest hbrace
        have hspan := (hbody.holds.placed.token htoken).1.start_le
        have hle := rest.start_le hs
        refine ⟨htoken, hcomment, hrow, hle, fun r => ?_⟩
        have hfirst := count_between_of_code hs hbody.holds hmem hcode r
        rw [← hstart, @count_between_add source _ brace.extent.stop _ (Nat.le_of_lt hlt) hbrace,
          hfirst, count_between_of_eq_nil le (Nat.le_trans hspan hle) none,
          count_between_add hspan hle, count_remarks hs hbody.holds htoken, Nat.zero_add]
    · contradiction
  · contradiction

/-- The body of a method carries its comments, but for one behind the opening brace, which is written
there. -/
theorem exists_carries_methodBody {body : Tree} {close : Token} (hbody : source.Body body close)
    (hphrase : body.isPhrase .block = true) :
    ∃ os qs, source.Says ((openingComment? body).map Attached.trimmed) os ∧
      source.Carries (source.methodBody body (openingComment? body)).render qs ∧
      ∀ r, os.count r + qs.count r =
        (source.between body.extent.start close.extent.start).count r := by
  have hclose := (hbody.holds.splits_token hs hbody.mem).1
  have hmethod : ∀ opening, source.methodBody body opening =
      source.block ⟨(opening.map (·.extent.stop)).getD (body.extent.start + 1),
        close.extent.start⟩ := by
    intro opening
    have hclosing := hbody.closing_eq
    rw [closing?] at hclosing
    simp [methodBody, hclosing]
  rw [hmethod]
  cases hopening : openingComment? body with
  | none =>
    obtain ⟨hsplits, hcount⟩ := behind_brace hs hbody hphrase
    exact ⟨[], _, rfl, carries_block hs hsplits hclose, fun r => by simpa using hcount r⟩
  | some remark =>
    obtain ⟨hmem, hcomment, hrow, hle, hcount⟩ := opening_first hs hbody hphrase hopening
    have hsplits := (hbody.holds.splits_token hs hmem).2
    exact ⟨_, _, bears_trimmed_token hs hbody.holds hmem hrow, carries_block hs hsplits hclose,
      hcount⟩

omit hs in
/-- What stands behind a body is left out. -/
theorem accounts_behind (hs : source.Sound) {body : Tree} {close : Token}
    (hbody : source.Body body close) {whole : Extent} (hstart : whole.start ≤ body.extent.start)
    (hstop : close.extent.stop ≤ whole.stop) {ledger : Ledger} {qs : List Token}
    (hcount : ∀ r, qs.count r + ledger.lost.count r =
      (source.between whole.start body.extent.start).count r +
        (source.between body.extent.start close.extent.start).count r + ledger.doubled.count r) :
    source.Accounts (ledger.add (source.behindLedger body whole)) whole.start whole.stop qs := by
  intro r
  have := hcount r
  have := count_between_code hs hbody hstart hstop r
  simp only [Ledger.add, behindLedger, hbody.bodyStop_eq, List.count_append, List.append_nil]
  omega

omit hs in
/-- A child of a tree may be read from the stretch of the tree. -/
theorem Frames.child {tree : Tree} {whole : Extent} (frames : source.Frames tree whole)
    {phrase : Phrase} (hphrase : tree.isPhrase phrase = true) (hne : phrase ≠ .template) {child : Tree}
    (hchild : child ∈ tree.children) : source.Frames child whole := by
  obtain ⟨holds, derived, -⟩ := frames.holds.child (Tree.isPhrase_of_ne hphrase hne) hchild
  exact
    { holds
      derived
      start_le := Nat.le_trans frames.start_le (frames.holds.placed.child hchild).2.1
      code_le := fun token htoken => frames.code_le token (Tree.mem_tokens_of_child hchild htoken)
      splits_start := frames.splits_start
      splits_stop := frames.splits_stop }

omit hs in
/-- A body among the children of a tree lies in the stretch that the tree is read from. -/
theorem Frames.body {tree : Tree} {whole : Extent} (frames : source.Frames tree whole)
    {phrase : Phrase} (hphrase : tree.isPhrase phrase = true) (hne : phrase ≠ .template)
    {kind : Phrase} (hkind : kind ∈ [Phrase.block, .classBody]) {body : Tree}
    (hbody : tree.child? kind = some body) :
    body.isPhrase kind = true ∧ whole.start ≤ body.extent.start ∧
      ∃ close, source.Body body close ∧ close.extent.stop ≤ whole.stop := by
  obtain ⟨hmem, hphrase'⟩ := Tree.mem_of_child? hbody
  have hframes := frames.child hphrase hne hmem
  obtain ⟨close, hclose⟩ := exists_body hframes.holds hframes.derived hphrase' hkind
  exact ⟨hphrase', hframes.start_le, close, hclose,
    hframes.code_le close hclose.mem hclose.code⟩

/-- What becomes of the comments of a member that a definition with the given body is read as. -/
def definitionLedger (source : Source) (member : Member) (body : Tree) (whole : Extent) : Ledger :=
  match member with
  | .constructor _ =>
    (source.bodyLedger (fun _ _ => {}) body).add (source.behindLedger body whole)
  | .method _ => source.behindLedger body whole
  | .other _ => {}

/-- What a definition is read as carries its comments. -/
theorem exists_carries_definition? {tree : Tree} {whole : Extent} (frames : source.Frames tree whole)
    {phrase : Phrase} (hphrase : tree.isPhrase phrase = true) (hne : phrase ≠ .template)
    {member : Member} (hread : source.definition? tree whole.start = some member) :
    ∃ body, tree.child? .block = some body ∧ ∃ qs, source.Carries member.render qs ∧
      source.Accounts (source.definitionLedger member body whole) whole.start whole.stop qs := by
  simp only [definition?] at hread
  split at hread
  · rename_i name body hname hbody
    obtain ⟨hblock, hstart, close, hclose, hstop⟩ :=
      frames.body hphrase hne (by simp) hbody
    refine ⟨body, hbody, ?_⟩
    split at hread
    · split at hread
      · obtain rfl := Option.some.inj hread
        obtain ⟨qs, hcarries, hcount⟩ := exists_carries_braced hs hclose hblock (by decide)
          (converts_statement hs) frames.splits_start hstart fun _ _ => false
        exact ⟨qs, hcarries, accounts_behind hs hclose hstart hstop hcount⟩
      · obtain rfl := Option.some.inj hread
        obtain ⟨ps, os, hhead, hsays, hcount⟩ :=
          carries_head hs frames.splits_start (hclose.holds.splits hs).1 hstart
        obtain ⟨os', qs, hopening, hinner, hcount'⟩ := exists_carries_methodBody hs hclose hblock
        refine ⟨_, carries_renderBraced hhead (says_joinComments hsays hopening) hinner
          (eq_nil_of_isEmpty hinner), ?_⟩
        have haccounts := @accounts_behind source hs body close hclose whole hstart hstop {}
          (ps ++ (os ++ os') ++ qs) fun r => by
            have := hcount r
            have := hcount' r
            simp only [List.count_append, List.count_nil]
            omega
        simpa [definitionLedger, Ledger.add] using haccounts
    · contradiction
  · contradiction

/-- What becomes of the comments of a member. -/
def memberLedger (source : Source) (tree : Tree) (whole : Extent) : Ledger :=
  match tree.child? .block with
  | some body => source.definitionLedger (source.member tree whole) body whole
  | none => {}

/-- A member carries its comments. -/
theorem converts_member : source.Converts Member.render source.member source.memberLedger := by
  intro tree whole frames
  have hother : source.member tree whole = .other (source.block whole.span) →
      ∃ qs, source.Carries (source.member tree whole).render qs ∧
        source.Accounts (source.memberLedger tree whole) whole.start whole.stop qs := by
    intro hmember
    have hledger : source.memberLedger tree whole = {} := by
      rw [memberLedger, hmember]
      cases tree.child? .block <;> rfl
    rw [hmember, hledger]
    exact exists_carries_block hs frames.splits_start frames.splits_stop
  cases tree with
  | leaf => exact hother rfl
  | node phrase extent weight parts =>
    by_cases hphrase : phrase = .methodDefinition
    · subst hphrase
      cases hread :
          source.definition? (.node .methodDefinition extent weight parts) whole.start with
      | none => exact hother (by simp [member, hread])
      | some read =>
        have hkind : (Syntax.Tree.node .methodDefinition extent weight parts).isPhrase
            .methodDefinition = true := rfl
        obtain ⟨body, hbody, qs, hcarries, haccounts⟩ :=
          exists_carries_definition? hs frames hkind (by decide) hread
        have hmember : source.member (.node .methodDefinition extent weight parts) whole = read := by
          simp [member, hread]
        refine ⟨qs, hmember ▸ hcarries, ?_⟩
        rwa [memberLedger, hbody, hmember]
    · exact hother (by simp [member, hphrase])

/-! ### Classes -/

/-- What becomes of the comments of a class with the given body. -/
def classLedger (source : Source) (body : Tree) (whole : Extent) : Ledger :=
  (source.bodyLedger source.memberLedger body).add (source.behindLedger body whole)

/-- A class carries its comments. -/
theorem exists_carries_class? {tree : Tree} {whole : Extent} (frames : source.Frames tree whole)
    {phrase : Phrase} (hphrase : tree.isPhrase phrase = true) (hne : phrase ≠ .template)
    {declaration : ClassDeclaration} (hread : source.class? tree whole.start = some declaration) :
    ∃ body, tree.child? .classBody = some body ∧ ∃ qs, source.Carries declaration.render qs ∧
      source.Accounts (source.classLedger body whole) whole.start whole.stop qs := by
  unfold class? at hread
  split at hread
  · rename_i name body hname hbody
    obtain rfl := Option.some.inj hread
    obtain ⟨hclass, hstart, close, hclose, hstop⟩ := frames.body hphrase hne (by simp) hbody
    obtain ⟨qs, hcarries, hcount⟩ := exists_carries_braced hs hclose hclass (by decide)
      (converts_member hs) frames.splits_start hstart fun _ _ => false
    exact ⟨body, hbody, qs, hcarries, accounts_behind hs hclose hstart hstop hcount⟩
  · contradiction

end

end Source

end CodeSplice
