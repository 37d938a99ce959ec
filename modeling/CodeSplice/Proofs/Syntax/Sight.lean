/-
Module: CodeSplice.Proofs.Syntax.Sight
Purpose: Which token comes next where little can come next. In such a place a name, a keyword or a mark
  that stands behind white space is what comes next, and in a string its text or its closing quote. What
  the place has to be like for this can be computed.
Main exports: IsMargin, BeginsOther, Expectation.awaits, Expectation.next?_name, Expectation.next?_keyword,
  Expectation.next?_mark, Expectation.next?_text, Expectation.next?_quote, Expectation.next?_end
-/
import CodeSplice.Proofs.Syntax.Name

namespace CodeSplice.Syntax

open Text

/-! ### How tokens begin -/

/-- The white space that is written between tokens. -/
def IsMargin (gap : List Char) : Prop :=
  ∀ c ∈ gap, c = ' ' ∨ c = '\n'

theorem isMargin_nil : IsMargin [] := by
  simp [IsMargin]

theorem isMargin_space : IsMargin [' '] := by
  simp [IsMargin]

theorem isMargin_newline : IsMargin ['\n'] := by
  simp [IsMargin]

/-- A token may begin with the character that is neither a comment nor markup. -/
def Begins (c : Char) : Prop :=
  isGap c = false ∧ c ∉ ['/', '<', '-']

instance (c : Char) : Decidable (Begins c) :=
  inferInstanceAs (Decidable (_ ∧ _))

/-- A token may begin with the character that is no number, private name or interpreter line
either. -/
def BeginsOther (c : Char) : Prop :=
  Begins c ∧ c.isDigit = false ∧ c ∉ ['#', '.']

instance (c : Char) : Decidable (BeginsOther c) :=
  inferInstanceAs (Decidable (_ ∧ _ ∧ _))

theorem beginsOther_of_isWordPart {c : Char} (h : isWordPart c = true) (hdigit : c.isDigit = false) :
    BeginsOther c := by
  simp only [isWordPart, Bool.and_eq_true, Bool.not_eq_true'] at h
  have hother : ∀ d ∈ ['/', '<', '-', '#', '.'], c ≠ d := by
    rintro d hd rfl
    simp only [List.mem_cons, List.not_mem_nil, or_false] at hd
    rcases hd with rfl | rfl | rfl | rfl | rfl <;> exact absurd h.2 (by decide)
  exact ⟨⟨h.1.2, fun hc => hother c (List.mem_append_left ['#', '.'] hc) rfl⟩, hdigit,
    fun hc => hother c (List.mem_append_right ['/', '<', '-'] hc) rfl⟩

theorem IsName.beginsOther {text : List Char} (h : IsName text) :
    ∀ c ∈ text.head?, BeginsOther c := by
  obtain ⟨c, others, rfl, hdigit, hpart | rfl⟩ := h.front
  · rintro d ⟨⟩
    exact beginsOther_of_isWordPart hpart hdigit
  · rintro d ⟨⟩
    decide

theorem isGap_of_isPlainGap {c : Char} (h : isPlainGap c = true) : isGap c = true := by
  simp only [isPlainGap, Bool.or_eq_true, beq_iff_eq, Bool.and_eq_true, decide_eq_true_eq] at h
  rcases h with rfl | ⟨hle, hge⟩
  · decide
  · have hspace : isSpace c = true := by simp [isSpace, hle, hge]
    have hne : c ≠ '\u0085' := by
      rintro rfl
      exact absurd hge (by decide)
    simp [isGap, hspace, hne]

theorem commentLength_of_begins {c : Char} (h : Begins c) (rest : List Char) :
    commentLength (c :: rest) = 0 := by
  have hslash : c ≠ '/' := fun hc => h.2 (by simp [hc])
  unfold commentLength
  split <;> simp_all

theorem lengths_of_beginsOther {c : Char} (h : BeginsOther c) (rest : List Char) :
    numberLength (c :: rest) = 0 ∧ privateNameLength (c :: rest) = 0 ∧
      interpreterLength (c :: rest) = 0 := by
  obtain ⟨-, hdigit, hother⟩ := h
  have hmark : c ≠ '#' ∧ c ≠ '.' ∧ c ≠ '0' := by
    refine ⟨?_, ?_, ?_⟩ <;> rintro rfl
    · exact absurd hother (by decide)
    · exact absurd hother (by decide)
    · exact absurd hdigit (by decide)
  refine ⟨?_, ?_, ?_⟩
  · unfold numberLength
    split <;> simp_all
  · unfold privateNameLength
    split <;> simp_all
  · unfold interpreterLength
    split <;> simp_all

/-! ### Texts of strings -/

/-- The kind of the text between two quotes. -/
def textKind (quote : Char) : TokenKind :=
  if quote = '"' then .doubleText else .singleText

/-- The text between quotes that stands there as it is. -/
def IsPlainText (quote : Char) (text : List Char) : Prop :=
  ∀ c ∈ text, c ≠ quote ∧ c ∉ ['\\', '\r', '\n', '\x00']

theorem textLength_append {quote : Char} {text : List Char} (h : IsPlainText quote text)
    (rest : List Char) : textLength quote (text ++ quote :: rest) = text.length := by
  rw [textLength, takeWhile_append_of_head]
  · intro c hc
    have := h c hc
    simp_all
  · rintro c ⟨⟩
    simp

/-! ### Where little can come next -/

/-- The words that are keywords in some places and names in others. -/
def contextual : List (List Char) :=
  ["type".toList, "typeof".toList, "as".toList, "from".toList]

namespace Expectation

variable (expectation : Expectation)

/-- Whether no token of the given kinds can come next. -/
def lacks (kinds : List TokenKind) : Bool :=
  kinds.all fun kind => !expectation.hasKind kind

/-- Whether white space in front of a token does not count. -/
def isQuiet : Bool :=
  expectation.lacks [.doubleText, .singleText, .escape, .regexBody, .regexEnd, .regexFlags]

/-- Whether no token can come next that is looked for before all others. -/
def isPlain : Bool :=
  expectation.isQuiet && expectation.lacks [.templateText, .lineEnd, .signatureEnd, .choiceMark]

/-- The marks that can come next. -/
def marks : List (List Char) :=
  expectation.alphabet.marks.filterMap fun (text, code) =>
    if expectation.terminals.holds code then some text else none

/-- Whether a mark of one character can come next, and no longer one that begins like it. -/
def seesMark (c : Char) : Bool :=
  expectation.marks.contains [c] &&
    expectation.marks.all fun text => text.head? != some c || text == [c]

/-- Whether words can come next, and no mark that begins like one. -/
def seesWords : Bool :=
  expectation.terminals.inter expectation.alphabet.words != 0 &&
    expectation.marks.all fun text =>
      (text.head?.map fun c => !isWordPart c && c != '\\').getD true

/-- Whether no word is a keyword here apart from the contextual ones. -/
def seesNames : Bool :=
  !expectation.terminals.holds expectation.alphabet.size &&
    expectation.alphabet.index.entries.all fun (key, code) =>
      !expectation.terminals.holds code || contextual.any (spellingKey · == key) ||
        expectation.marks.any fun text =>
          spellingKey text == key && wordLength text != text.length

/-- Whether the terminal is what comes next when it is what the text says: a mark of one character, a
keyword, or a name. -/
def awaits (terminal : Terminal) : Bool :=
  expectation.isPlain &&
    match terminal with
    | .spelled [c] => expectation.seesMark c
    | .spelled text => expectation.seesWords && expectation.has (.spelled text)
    | .kind _ => expectation.seesWords && expectation.seesNames

variable {expectation}

theorem hasKind_of_lacks {kinds : List TokenKind} (h : expectation.lacks kinds = true)
    {kind : TokenKind} (hkind : kind ∈ kinds) : expectation.hasKind kind = false := by
  simpa using List.all_eq_true.1 h kind hkind

/-! ### The longest token -/

/-- What can be at the front of a text. -/
theorem mem_candidates {cs : List Char} {sighting : Sighting}
    (h : sighting ∈ expectation.candidates cs) :
    (∃ text ∈ expectation.marks, text <+: cs ∧
      sighting = { terminal := .spelled text, length := text.length }) ∨
    sighting.length = numberLength cs ∨ sighting.length = privateNameLength cs ∨
    sighting.length = interpreterLength cs ∨
    sighting = { terminal := expectation.wordTerminal (cs.take (wordLength cs))
                 length := wordLength cs } := by
  simp only [candidates, List.mem_append, List.mem_filterMap] at h
  rcases h with (((⟨⟨text, code⟩, hmem, hmark⟩ | hnumber) | hprivate) | hinterpreter) | hword
  · simp only [Option.ite_none_right_eq_some, Bool.and_eq_true, Option.some_inj] at hmark
    obtain ⟨⟨hholds, hprefix⟩, rfl⟩ := hmark
    refine .inl ⟨text, ?_, List.isPrefixOf_iff_prefix.1 hprefix, rfl⟩
    exact List.mem_filterMap.2 ⟨(text, code), hmem, by simp [hholds]⟩
  · split at hnumber
    · exact .inr (.inl (by rw [List.mem_singleton.1 hnumber]))
    · simp at hnumber
  · split at hprivate
    · exact .inr (.inr (.inl (by rw [List.mem_singleton.1 hprivate])))
    · simp at hprivate
  · split at hinterpreter
    · exact .inr (.inr (.inr (.inl (by rw [List.mem_singleton.1 hinterpreter]))))
    · simp at hinterpreter
  · split at hword
    · exact .inr (.inr (.inr (.inr (List.mem_singleton.1 hword))))
    · simp at hword

theorem foldl_longer_eq {first sighting : Sighting} {others : List Sighting}
    (hfirst : first.length = 0 ∨ first = sighting)
    (hothers : ∀ other ∈ others, other.length = 0 ∨ other = sighting)
    (hmem : first = sighting ∨ sighting ∈ others) (hpos : sighting.length ≠ 0) :
    others.foldl longer first = sighting := by
  induction others generalizing first with
  | nil => simpa using hmem
  | cons other others ih =>
    rw [List.foldl_cons]
    have hother := hothers other List.mem_cons_self
    have hrest : ∀ another ∈ others, another.length = 0 ∨ another = sighting :=
      fun another h => hothers another (List.mem_cons_of_mem _ h)
    rcases hfirst with hfirst | rfl
    · have hne : first ≠ sighting := fun h => hpos (h ▸ hfirst)
      rcases hother with hzero | rfl
      · rw [longer, if_neg (by omega)]
        refine ih (.inl hfirst) hrest (.inr ?_)
        have hsighting : sighting ∈ other :: others := hmem.resolve_left hne
        rcases List.mem_cons.1 hsighting with rfl | h
        · exact absurd hzero hpos
        · exact h
      · rw [longer, if_pos (by omega)]
        exact ih (.inr rfl) hrest (.inl rfl)
    · have hlonger : longer first other = first := by
        rcases hother with hzero | rfl
        · rw [longer, if_neg (by omega)]
        · rw [longer, if_neg (Nat.lt_irrefl _)]
      rw [hlonger]
      exact ih (.inr rfl) hrest (.inl rfl)

/-- The longest token behind white space, if all others have no length. -/
theorem longest?_eq {gap front : List Char} (sighting : Sighting) (hgap : IsMargin gap)
    (hfront : ∀ c ∈ front.head?, Begins c) (hflags : expectation.hasKind .regexFlags = false)
    (hothers : ∀ other ∈ expectation.candidates front, other.length = 0 ∨ other = sighting)
    (hmem : sighting ∈ expectation.candidates front) (hpos : sighting.length ≠ 0) :
    expectation.longest? (gap ++ front) = some { sighting with skip := gap.length } := by
  have hskip : (gap ++ front).takeWhile isGap = gap := by
    refine takeWhile_append_of_head (fun c hc => ?_) fun c hc => (hfront c hc).1
    rcases hgap c hc with rfl | rfl <;> decide
  have hcomment : commentLength front = 0 := by
    cases front with
    | nil => rfl
    | cons c rest => exact commentLength_of_begins (hfront c rfl) rest
  simp only [longest?, hskip, List.drop_left, hflags]
  rw [foldl_longer_eq (.inl hcomment) hothers (.inr hmem) hpos]
  simp [hpos]

/-! ### The token that comes next -/

theorem special?_of_isPlain {gap front : List Char} (h : expectation.isPlain = true)
    (hgap : IsMargin gap) (hfront : ∀ c ∈ front.head?, Begins c) :
    expectation.special? (gap ++ front) = none := by
  have hlacks : ∀ kind ∈ [TokenKind.templateText, .lineEnd, .signatureEnd, .choiceMark],
      expectation.hasKind kind = false := fun kind hkind =>
    hasKind_of_lacks (Bool.and_eq_true_iff.1 h).2 hkind
  have hskip : (gap ++ front).takeWhile
      (fun c => isPlainGap c || c == '\u2028' || c == '\u2029') = gap := by
    refine takeWhile_append_of_head (fun c hc => ?_) fun c hc => ?_
    · rcases hgap c hc with rfl | rfl <;> decide
    · have hbegins := (hfront c hc).1
      have hplain : isPlainGap c = false := Bool.eq_false_iff.2 fun hc =>
        Bool.false_ne_true (hbegins.symm.trans (isGap_of_isPlainGap hc))
      have hline : c ≠ '\u2028' ∧ c ≠ '\u2029' := by
        constructor <;> rintro rfl <;> exact absurd hbegins (by decide)
      simp [hplain, hline]
  have hmarkup : markup? (gap ++ front) = none := by
    simp only [markup?, hskip, List.drop_left]
    cases front with
    | nil => rfl
    | cons c rest =>
      have hc := (hfront c rfl).2
      simp only [List.mem_cons, List.not_mem_nil, or_false, not_or] at hc
      simp [List.isPrefixOf, Ne.symm hc.2.1, Ne.symm hc.2.2]
  simp [special?, hlacks, hmarkup]

theorem next?_eq_longest? {cs : List Char} (h : expectation.isQuiet = true)
    (hspecial : expectation.special? cs = none) :
    expectation.next? cs = expectation.longest? cs := by
  have hlacks : ∀ kind ∈ [TokenKind.doubleText, .singleText, .escape, .regexBody, .regexEnd],
      expectation.hasKind kind = false := fun kind hkind =>
    hasKind_of_lacks h (List.mem_append_left [TokenKind.regexFlags] hkind)
  simp [next?, hspecial, immediate?, hlacks]

theorem longest?_mark {gap rest : List Char} {c : Char} (hgap : IsMargin gap)
    (hc : BeginsOther c) (hword : isWordPart c = false) (hslash : c ≠ '\\')
    (hflags : expectation.hasKind .regexFlags = false) (hsees : expectation.seesMark c = true) :
    expectation.longest? (gap ++ c :: rest) = some ⟨.spelled [c], gap.length, 1⟩ := by
  obtain ⟨hmark, hmarks⟩ := Bool.and_eq_true_iff.1 hsees
  obtain ⟨hnumber, hprivate, hinterpreter⟩ := lengths_of_beginsOther hc rest
  have hwordLength : wordLength (c :: rest) = 0 := by
    simp [wordLength, wordPartLength, hword, hslash, hc.2.1]
  refine longest?_eq ⟨.spelled [c], 0, 1⟩ hgap ?_ hflags ?_ ?_ Nat.one_ne_zero
  · rintro d ⟨⟩
    exact hc.1
  · intro other hmem
    rcases mem_candidates hmem with ⟨text, htext, hprefix, rfl⟩ | h | h | h | rfl
    · cases text with
      | nil => exact .inl rfl
      | cons d text =>
        obtain ⟨rfl, -⟩ := List.cons_prefix_cons.1 hprefix
        have := List.all_eq_true.1 hmarks _ htext
        simp only [List.head?_cons, bne_self_eq_false, Bool.false_or, beq_iff_eq] at this
        exact .inr (by rw [this]; rfl)
    · exact .inl (h.trans hnumber)
    · exact .inl (h.trans hprivate)
    · exact .inl (h.trans hinterpreter)
    · exact .inl hwordLength
  · simp only [marks, List.contains_iff_mem, List.mem_filterMap] at hmark
    obtain ⟨⟨text, code⟩, hentry, hholds⟩ := hmark
    simp only [Option.ite_none_right_eq_some, Option.some_inj] at hholds
    obtain ⟨hholds, rfl⟩ := hholds
    simp only [candidates, List.mem_append, List.mem_filterMap]
    exact .inl (.inl (.inl (.inl ⟨([c], code), hentry, by simp [hholds]⟩)))

/-- A word is read as what it is read as in this place. -/
theorem longest?_word {gap text rest : List Char} (hgap : IsMargin gap) (hname : IsName text)
    (hrest : EndsName rest) (hflags : expectation.hasKind .regexFlags = false)
    (hsees : expectation.seesWords = true) :
    expectation.longest? (gap ++ text ++ rest) =
      some ⟨expectation.wordTerminal text, gap.length, text.length⟩ := by
  obtain ⟨hwords, hmarks⟩ := Bool.and_eq_true_iff.1 hsees
  obtain ⟨c, others, rfl, hdigit, hfront⟩ := hname.front
  have hc := hname.beginsOther c rfl
  obtain ⟨hnumber, hprivate, hinterpreter⟩ := lengths_of_beginsOther hc (others ++ rest)
  have hlength := hname.wordLength_append hrest
  have htake : ((c :: others) ++ rest).take (wordLength ((c :: others) ++ rest)) = c :: others := by
    rw [hlength, List.take_left]
  rw [List.append_assoc]
  refine longest?_eq ⟨expectation.wordTerminal (c :: others), 0, (c :: others).length⟩ hgap ?_ hflags
    ?_ ?_ (Nat.succ_ne_zero _)
  · rintro d ⟨⟩
    exact hc.1
  · intro other hmem
    rcases mem_candidates hmem with ⟨text, htext, hprefix, rfl⟩ | h | h | h | rfl
    · cases text with
      | nil => exact .inl rfl
      | cons d text =>
        obtain ⟨rfl, -⟩ := List.cons_prefix_cons.1 hprefix
        have := List.all_eq_true.1 hmarks _ htext
        rcases hfront with hpart | rfl <;> simp_all
    · exact .inl (h.trans hnumber)
    · exact .inl (h.trans hprivate)
    · exact .inl (h.trans hinterpreter)
    · exact .inr (by rw [htake, hlength])
  · simp only [candidates, List.mem_append]
    refine .inr ?_
    rw [if_pos hwords]
    rw [htake, hlength]
    exact List.mem_singleton_self _

theorem next?_eq_of_isPlain {gap front : List Char} (h : expectation.isPlain = true)
    (hgap : IsMargin gap) (hfront : ∀ c ∈ front.head?, Begins c) :
    expectation.next? (gap ++ front) = expectation.longest? (gap ++ front) :=
  next?_eq_longest? (Bool.and_eq_true_iff.1 h).1 (special?_of_isPlain h hgap hfront)

theorem hasKind_regexFlags (h : expectation.isPlain = true) :
    expectation.hasKind .regexFlags = false :=
  hasKind_of_lacks (Bool.and_eq_true_iff.1 h).1 (by decide)

/-- A mark comes next where it is awaited. -/
theorem next?_mark {gap : List Char} {c : Char} (h : expectation.awaits (.spelled [c]) = true)
    (hgap : IsMargin gap) (hc : BeginsOther c) (hword : isWordPart c = false) (hslash : c ≠ '\\')
    (rest : List Char) :
    expectation.next? (gap ++ c :: rest) = some ⟨.spelled [c], gap.length, 1⟩ := by
  obtain ⟨hplain, hsees⟩ := Bool.and_eq_true_iff.1 h
  rw [next?_eq_of_isPlain hplain hgap (by rintro d ⟨⟩; exact hc.1)]
  exact longest?_mark hgap hc hword hslash (hasKind_regexFlags hplain) hsees

theorem next?_word {gap text rest : List Char} (hplain : expectation.isPlain = true)
    (hsees : expectation.seesWords = true) (hgap : IsMargin gap) (hname : IsName text)
    (hrest : EndsName rest) :
    expectation.next? (gap ++ text ++ rest) =
      some ⟨expectation.wordTerminal text, gap.length, text.length⟩ := by
  have hfront : ∀ c ∈ (text ++ rest).head?, Begins c := by
    obtain ⟨c, others, rfl, -⟩ := hname.front
    rintro d ⟨⟩
    exact (hname.beginsOther c rfl).1
  rw [List.append_assoc, next?_eq_of_isPlain hplain hgap hfront, ← List.append_assoc]
  exact longest?_word hgap hname hrest (hasKind_regexFlags hplain) hsees

/-- A keyword comes next where it is awaited. -/
theorem next?_keyword {gap text rest : List Char} (h : expectation.awaits (.spelled text) = true)
    (hlength : text.length ≠ 1) (hgap : IsMargin gap) (hname : IsName text) (hrest : EndsName rest) :
    expectation.next? (gap ++ text ++ rest) = some ⟨.spelled text, gap.length, text.length⟩ := by
  obtain ⟨hplain, hsees⟩ := Bool.and_eq_true_iff.1 h
  have hkeyword : expectation.seesWords = true ∧ expectation.has (.spelled text) = true := by
    match text, hlength, hsees with
    | [], _, hsees => exact Bool.and_eq_true_iff.1 hsees
    | _ :: _ :: _, _, hsees => exact Bool.and_eq_true_iff.1 hsees
  rw [next?_word hplain hkeyword.1 hgap hname hrest, wordTerminal, if_pos hkeyword.2]

/-- Where names are awaited, a word is a keyword only if it is a contextual one. -/
theorem has_eq_false {text : List Char} (h : expectation.seesNames = true) (hname : IsName text)
    (hother : text ∉ contextual) : expectation.has (.spelled text) = false := by
  obtain ⟨hsize, hentries⟩ := Bool.and_eq_true_iff.1 h
  rw [has, Alphabet.terminalCode]
  cases hfind : expectation.alphabet.index.find? (spellingKey text) with
  | none => simpa using hsize
  | some code =>
    have hentry := List.all_eq_true.1 hentries _ (Index.mem_entries hfind)
    simp only [Bool.or_eq_true, Bool.not_eq_true', List.any_eq_true, Bool.and_eq_true, beq_iff_eq,
      bne_iff_ne] at hentry
    rcases hentry with (hholds | ⟨other, hmem, hkey⟩) | ⟨other, -, hkey, hlength⟩
    · exact hholds
    · exact absurd (spellingKey_injective hkey ▸ hmem) hother
    · exact absurd hname.2 (spellingKey_injective hkey ▸ hlength)

/-- A name comes next where names are awaited. -/
theorem next?_name {gap text rest : List Char} (h : expectation.awaits (.kind .word) = true)
    (hgap : IsMargin gap) (hname : IsName text) (hother : text ∉ contextual)
    (hrest : EndsName rest) :
    expectation.next? (gap ++ text ++ rest) = some ⟨.kind .word, gap.length, text.length⟩ := by
  obtain ⟨hplain, hsees⟩ := Bool.and_eq_true_iff.1 h
  obtain ⟨hwords, hnames⟩ := Bool.and_eq_true_iff.1 hsees
  rw [next?_word hplain hwords hgap hname hrest, wordTerminal, if_neg]
  simp [has_eq_false hnames hname hother]

/-! ### Strings and ends -/

variable (expectation) in
/-- Whether the text of a string in such quotes can come next, and its end. -/
def isInside (quote : Char) : Bool :=
  expectation.lacks [.templateText, .lineEnd, .signatureEnd, .choiceMark, .regexBody, .regexEnd,
    .regexFlags] &&
  expectation.lacks [if quote = '"' then .singleText else .doubleText] &&
  expectation.hasKind (textKind quote) && expectation.hasKind .escape && expectation.seesMark quote

variable (expectation) in
/-- Whether a semicolon can come next, where a line could end a statement as well. -/
def awaitsEnd : Bool :=
  expectation.isQuiet && expectation.lacks [.templateText] && expectation.seesMark ';'

/-- In a string, what comes next is looked for in the string first. -/
theorem next?_inside {quote : Char} (h : expectation.isInside quote = true)
    (hquote : quote = '"' ∨ quote = '\'') {text : List Char} (htext : IsPlainText quote text)
    (rest : List Char) :
    expectation.next? (text ++ quote :: rest) =
      if text = [] then expectation.longest? (quote :: rest)
      else some ⟨.kind (textKind quote), 0, text.length⟩ := by
  simp only [isInside, Bool.and_eq_true] at h
  obtain ⟨⟨⟨⟨hlacks, hother⟩, hkind⟩, hescape⟩, -⟩ := h
  have hnone : ∀ kind ∈ _, expectation.hasKind kind = false := fun _ => hasKind_of_lacks hlacks
  have hlength := textLength_append htext rest
  have hspecial : expectation.special? (text ++ quote :: rest) = none := by
    simp [special?, hnone, hescape]
  have hescapeLength : escapeLength (quote :: rest) = 0 := by
    rcases hquote with rfl | rfl <;> rfl
  rw [next?, hspecial, immediate?]
  by_cases hempty : text = []
  · subst hempty
    rcases hquote with rfl | rfl <;> simp_all [lacks, textKind]
  · rcases hquote with rfl | rfl <;> simp_all [lacks, textKind]

/-- The text of a string comes next behind its quote. -/
theorem next?_text {quote : Char} (h : expectation.isInside quote = true)
    (hquote : quote = '"' ∨ quote = '\'') {text : List Char} (htext : IsPlainText quote text)
    (hsolid : text ≠ []) (rest : List Char) :
    expectation.next? (text ++ quote :: rest) = some ⟨.kind (textKind quote), 0, text.length⟩ := by
  rw [next?_inside h hquote htext, if_neg hsolid]

/-- The closing quote comes next behind the text of a string. -/
theorem next?_quote {quote : Char} (h : expectation.isInside quote = true)
    (hquote : quote = '"' ∨ quote = '\'') (rest : List Char) :
    expectation.next? (quote :: rest) = some ⟨.spelled [quote], 0, 1⟩ := by
  have hnothing : IsPlainText quote [] := by simp [IsPlainText]
  have hempty := next?_inside h hquote hnothing rest
  rw [if_pos rfl, List.nil_append] at hempty
  simp only [isInside, Bool.and_eq_true] at h
  obtain ⟨⟨⟨⟨hlacks, -⟩, -⟩, -⟩, hsees⟩ := h
  have hflags : expectation.hasKind .regexFlags = false := hasKind_of_lacks hlacks (by decide)
  rw [hempty]
  rcases hquote with rfl | rfl
  · exact longest?_mark isMargin_nil (by decide) (by decide) (by decide) hflags hsees
  · exact longest?_mark isMargin_nil (by decide) (by decide) (by decide) hflags hsees

/-- The semicolon comes next directly behind a statement. -/
theorem next?_semicolon (h : expectation.awaitsEnd = true) (rest : List Char) :
    expectation.next? (';' :: rest) = some ⟨.spelled [';'], 0, 1⟩ := by
  simp only [awaitsEnd, Bool.and_eq_true] at h
  obtain ⟨⟨hquiet, hlacks⟩, hsees⟩ := h
  have htemplate : expectation.hasKind .templateText = false := hasKind_of_lacks hlacks (by decide)
  have hspecial : expectation.special? (';' :: rest) = none := by
    have hline : expectation.lineEnd? (';' :: rest) = none := by
      simp [lineEnd?, ending, isPlainGap, peek]
    have hchoice : choiceMark? (';' :: rest) = none := by
      simp [choiceMark?, isPlainGap]
    have hmarkup : markup? (';' :: rest) = none := by
      simp [markup?, isPlainGap]
    simp only [special?, htemplate, hline, hchoice, hmarkup]
    simp
  rw [next?_eq_longest? hquiet hspecial]
  exact longest?_mark isMargin_nil (by decide) (by decide) (by decide)
    (hasKind_of_lacks hquiet (by decide)) hsees

/-- The end of the text comes next behind white space. -/
theorem next?_end {gap : List Char} (h : expectation.isPlain = true) (hgap : IsMargin gap) :
    expectation.next? gap = some ⟨.kind .endOfText, gap.length, 0⟩ := by
  have hskip : gap.takeWhile isGap = gap :=
    List.takeWhile_eq_self_iff.2 fun c hc => by rcases hgap c hc with rfl | rfl <;> decide
  have hnone : ((expectation.candidates []).foldl longer ⟨.kind .comment, 0, 0⟩).length = 0 := by
    rcases foldl_longer_mem ⟨.kind .comment, 0, 0⟩ (expectation.candidates []) with hfirst | hmem
    · rw [hfirst]
    · rcases mem_candidates hmem with ⟨text, -, hprefix, heq⟩ | heq | heq | heq | heq
      · rw [heq, List.prefix_nil.1 hprefix]
        rfl
      · exact heq
      · exact heq
      · exact heq
      · rw [heq]
        rfl
  have hfront : ∀ c ∈ ([] : List Char).head?, Begins c := by simp
  have hnext := next?_eq_of_isPlain h hgap hfront
  rw [List.append_nil] at hnext
  rw [hnext, longest?]
  simp only [hskip, List.drop_length, hasKind_regexFlags h]
  simp [show commentLength [] = 0 from rfl, hnone]

end Expectation

end CodeSplice.Syntax
