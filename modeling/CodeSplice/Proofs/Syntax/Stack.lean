/-
Module: CodeSplice.Proofs.Syntax.Stack
Purpose: What holds of the stacks of readings at all times. Each tree on a stack is placed in the text
  between the place below it and the place above it, is made by its parts, and the state above it
  follows from the state below it. Levels of one number agree on their state and place. Joining stacks
  and taking parts off keep this; the parts that are taken off for a phrase make it.
Main exports: Stack.Sound, Stack.addLinksOf_sound, Stack.Down, Stack.pop_lands
-/
import CodeSplice.Proofs.Syntax.Derivation
import CodeSplice.Proofs.Syntax.Placement
import CodeSplice.Proofs.Syntax.State
import CodeSplice.Syntax.Stack

namespace CodeSplice.Syntax

/-- A place in a text that goes on with what the text has from there on. -/
def Cursor.Placed (text : List Char) (cursor : Cursor) : Prop :=
  cursor.rest = text.drop cursor.position

/-- Trees that are alike may both stand anywhere, or neither of them may. -/
theorem Tree.floats_eq_of_alike {first second : Tree} (h : first.alike second = true) :
    first.floats = second.floats := by
  unfold alike at h
  cases first <;> cases second <;> simp_all [floats, Token.floats, Token.is]

theorem Tree.span_eq_of_alike {first second : Tree} (h : first.alike second = true) :
    first.extent.span = second.extent.span := by
  unfold alike at h
  simp only [Bool.and_eq_true, beq_iff_eq] at h
  exact h.1.1

namespace Stack

/-- The states and places of the levels that have been made, by number. -/
abbrev Registry := List (State × Cursor)

variable (automaton : Automaton) (text : List Char) (registry : Registry)

/-- How a tree joins the stack below it to a level of the given state that has come to the given
position. -/
structure Joins (state : State) (position : Nat) (tree : Tree) (below : Stack) : Prop where
  placed : tree.Placed text
  derived : tree.Derived automaton
  start_le : below.cursor.position ≤ tree.extent.start
  le_stop : tree.extent.stop ≤ position
  state_eq : state =
    if tree.floats then below.state else automaton.goto below.state tree.symbol

/-- A stack on which every tree joins what is below it. -/
inductive Sound : Stack → Prop where
  | level {number : Nat} {state : State} {cursor : Cursor} {weight : Int} {links : List Link}
      (placed : cursor.Placed text)
      (registered : registry[number]? = some (state, cursor))
      (bottom : links = [] → state = Automaton.start)
      (below : ∀ link ∈ links, Sound link.2)
      (joins : ∀ link ∈ links, Joins automaton text state cursor.position link.1 link.2) :
      Sound (level number state cursor weight links)

variable {automaton text registry}

namespace Sound

variable {stack : Stack}

theorem cursor (h : Sound automaton text registry stack) : stack.cursor.Placed text := by
  cases h with
  | level placed => exact placed

theorem link (h : Sound automaton text registry stack) {link : Link} (hl : link ∈ stack.links) :
    Sound automaton text registry link.2 := by
  cases h with
  | level _ _ _ below => exact below link hl

theorem joins (h : Sound automaton text registry stack) {link : Link} (hl : link ∈ stack.links) :
    Joins automaton text stack.state stack.cursor.position link.1 link.2 := by
  cases h with
  | level _ _ _ _ joins => exact joins link hl

theorem registered (h : Sound automaton text registry stack) :
    registry[stack.number]? = some (stack.state, stack.cursor) := by
  cases h with
  | level _ registered => exact registered

/-- A stack stays sound when more levels are made. -/
theorem mono (h : Sound automaton text registry stack) (more : Registry) :
    Sound automaton text (registry ++ more) stack := by
  induction h with
  | level placed registered bottom below joins ih =>
    refine .level placed ?_ bottom ih joins
    rw [List.getElem?_append_left (List.getElem?_eq_some_iff.1 registered).1]
    exact registered

/-- The stack in front of a text is sound. -/
theorem ofBottom :
    Sound automaton text [(Automaton.start, { rest := text })] (.bottom text) :=
  .level rfl rfl (fun _ => rfl) (by simp) (by simp)

/-- In the states of a sound stack, every phrase that is being read has parts. -/
theorem hasParts (h : Sound automaton text registry stack) :
    Automaton.HasParts stack.state := by
  induction h with
  | @level number state cursor weight links placed registered bottom below joins ih =>
    cases links with
    | nil =>
      rw [show state = Automaton.start from bottom rfl] at *
      exact Automaton.hasParts_start
    | cons link links =>
      have hstate := (joins link (by simp)).state_eq
      simp only [Stack.state]
      rw [hstate]
      split
      · exact ih link (by simp)
      · exact Automaton.hasParts_goto _ _

/-- A tree that joins a sound stack can be put on it. -/
theorem push (h : Sound automaton text registry stack) {tree : Tree} {state : State}
    {cursor : Cursor} (hc : cursor.Placed text)
    (hj : Joins automaton text state cursor.position tree stack) :
    Sound automaton text (registry ++ [(state, cursor)])
      (stack.push registry.length tree state cursor) :=
  .level hc (by simp) (by simp) (by simpa using h.mono _) (by simpa using hj)

/-- A sound stack stays sound with other links that join it. -/
theorem withLinks (h : Sound automaton text registry stack) (weight : Int) {links : List Link}
    (hne : links ≠ []) (below : ∀ link ∈ links, Sound automaton text registry link.2)
    (joins : ∀ link ∈ links,
      Joins automaton text stack.state stack.cursor.position link.1 link.2) :
    Sound automaton text registry (stack.withLinks weight links) :=
  .level h.cursor h.registered (fun he => absurd he hne) below joins

end Sound

/-! ### Joining stacks -/

@[simp] theorem state_withLinks (stack : Stack) (weight : Int) (links : List Link) :
    (stack.withLinks weight links).state = stack.state := rfl

@[simp] theorem cursor_withLinks (stack : Stack) (weight : Int) (links : List Link) :
    (stack.withLinks weight links).cursor = stack.cursor := rfl

/-- An update replaces one link and leaves the others. -/
theorem mem_updateFirst {update : Link → Option Link} {links updated : List Link}
    (h : updateFirst update links = some updated) {link : Link} (hl : link ∈ updated) :
    link ∈ links ∨ ∃ old ∈ links, update old = some link := by
  induction links generalizing updated with
  | nil => simp [updateFirst] at h
  | cons first links ih =>
    simp only [updateFirst] at h
    split at h
    · rename_i new hnew
      obtain rfl : new :: links = updated := by simpa using h
      rcases List.mem_cons.1 hl with rfl | hl
      · exact .inr ⟨first, by simp, hnew⟩
      · exact .inl (by simp [hl])
    · obtain ⟨rest, hrest, rfl⟩ := Option.map_eq_some_iff.1 h
      rcases List.mem_cons.1 hl with rfl | hl
      · exact .inl (by simp)
      · rcases ih hrest hl with hl | ⟨old, hold, heq⟩
        · exact .inl (by simp [hl])
        · exact .inr ⟨old, by simp [hold], heq⟩

theorem updateFirst_ne_nil {update : Link → Option Link} {links updated : List Link}
    (h : updateFirst update links = some updated) : updated ≠ [] := by
  cases links with
  | nil => simp [updateFirst] at h
  | cons first links =>
    simp only [updateFirst] at h
    split at h
    · obtain rfl : _ :: links = updated := by simpa using h
      simp
    · obtain ⟨rest, _, rfl⟩ := Option.map_eq_some_iff.1 h
      simp

/-- A tree joins wherever one like it does. -/
theorem Joins.ofAlike {state : State} {position : Nat} {first second : Tree} {below other : Stack}
    (h : Joins automaton text state position first below)
    (hs : Joins automaton text state position second other)
    (halike : first.alike second = true) : Joins automaton text state position second below := by
  have hspan := Tree.span_eq_of_alike halike
  have hstart : first.extent.start = second.extent.start := by simp [Extent.start, hspan]
  refine ⟨hs.placed, hs.derived, hstart ▸ h.start_le, hs.le_stop, ?_⟩
  rw [← Tree.floats_eq_of_alike halike, ← Tree.symbol_eq_of_alike halike]
  exact h.state_eq

/-- What joining a stack to another leaves as it is. -/
def Keeps (before after : Stack) : Prop :=
  after.state = before.state ∧ after.cursor = before.cursor

/-- A link that joins one like it takes the weightier tree over the same level, or keeps its own tree over
levels that agree. -/
theorem join_eq_some {tree other : Tree} {below under : Stack} {link : Link}
    (h : (if !other.alike tree then none
      else if under.number == below.number then
        some (if other.weight < tree.weight then tree else other, under)
      else if under.agrees below then some (other, addLinksOf under below)
      else none) = some link) :
    other.alike tree = true ∧
      (link = (if other.weight < tree.weight then tree else other, under) ∨
        under.agrees below = true ∧ link = (other, addLinksOf under below)) := by
  split at h
  · cases h
  · rename_i halike
    refine ⟨by simpa using halike, ?_⟩
    split at h
    · exact .inl (Option.some_inj.1 h).symm
    · split at h
      · rename_i hagrees
        exact .inr ⟨hagrees, (Option.some_inj.1 h).symm⟩
      · cases h

mutual

theorem addLink_sound (stack : Stack) (link : Link) (h : Sound automaton text registry stack)
    (hl : Sound automaton text registry link.2)
    (hj : Joins automaton text stack.state stack.cursor.position link.1 link.2) :
    Sound automaton text registry (addLink stack link) ∧ Keeps stack (addLink stack link) := by
  obtain ⟨tree, below⟩ := link
  simp only [addLink]
  split
  · exact ⟨h, rfl, rfl⟩
  · split
    · rename_i links hu
      have hlinks : ∀ link ∈ links, Sound automaton text registry link.2 ∧
          Joins automaton text stack.state stack.cursor.position link.1 link.2 := by
        intro link hlink
        rcases mem_updateFirst hu hlink with hold | ⟨⟨other, under⟩, hold, heq⟩
        · exact ⟨h.link hold, h.joins hold⟩
        · have hunder := h.link hold
          have hother := h.joins hold
          obtain ⟨halike, rfl | ⟨hagrees, rfl⟩⟩ := join_eq_some heq
          · refine ⟨hunder, ?_⟩
            simp only
            split
            · exact hother.ofAlike hj halike
            · exact hother
          · obtain ⟨hsound, hstate, hcursor⟩ := addLinksOf_sound under below hunder hl hagrees
            refine ⟨hsound, hother.placed, hother.derived, ?_, hother.le_stop, ?_⟩
            · rw [hcursor]
              exact hother.start_le
            · rw [hstate]
              exact hother.state_eq
      exact ⟨h.withLinks _ (updateFirst_ne_nil hu) (fun link hlink => (hlinks link hlink).1)
        fun link hlink => (hlinks link hlink).2, rfl, rfl⟩
    · split
      · exact ⟨h, rfl, rfl⟩
      · refine ⟨h.withLinks _ (by simp) (List.forall_mem_append.2 ⟨fun link => h.link, ?_⟩)
          (List.forall_mem_append.2 ⟨fun link => h.joins, ?_⟩), rfl, rfl⟩
        · exact List.forall_mem_singleton.2 hl
        · exact List.forall_mem_singleton.2 hj

theorem addLinksOf_sound (stack other : Stack) (h : Sound automaton text registry stack)
    (ho : Sound automaton text registry other) (hagrees : stack.agrees other = true) :
    Sound automaton text registry (addLinksOf stack other) ∧ Keeps stack (addLinksOf stack other) := by
  obtain ⟨number, state, cursor, weight, links⟩ := other
  simp only [agrees, Bool.and_eq_true, beq_iff_eq] at hagrees
  simp only [addLinksOf]
  refine addLinks_sound stack links h (fun link hlink => ho.link hlink) fun link hlink => ?_
  rw [hagrees.1, hagrees.2]
  exact ho.joins hlink

theorem addLinks_sound (stack : Stack) (links : List Link) (h : Sound automaton text registry stack)
    (hl : ∀ link ∈ links, Sound automaton text registry link.2)
    (hj : ∀ link ∈ links,
      Joins automaton text stack.state stack.cursor.position link.1 link.2) :
    Sound automaton text registry (addLinks stack links) ∧ Keeps stack (addLinks stack links) := by
  cases links with
  | nil => exact ⟨h, rfl, rfl⟩
  | cons link links =>
    simp only [addLinks]
    obtain ⟨hsound, hstate, hcursor⟩ :=
      addLink_sound stack link h (hl link (by simp)) (hj link (by simp))
    obtain ⟨hsound', hstate', hcursor'⟩ := addLinks_sound (addLink stack link) links hsound
      (fun other hother => hl other (by simp [hother]))
      (fun other hother => by rw [hstate, hcursor]; exact hj other (by simp [hother]))
    exact ⟨hsound', hstate'.trans hstate, hcursor'.trans hcursor⟩

end

/-! ### Taking trees off -/

/-- The second stack is left when the given parts have been taken off the first one. -/
inductive Down (top : Stack) : List Part → Stack → Prop where
  | all : Down top [] top
  | take {parts : List Part} {level : Stack} {link : Link} (down : Down top parts level)
      (mem : link ∈ level.links) : Down top ((link.1, level.cursor) :: parts) link.2

/-- The symbols of parts. -/
def spelling (parts : List Part) : List Symbol :=
  symbolsOf (parts.map (·.1))

/-- Parts that are placed in a text one after another between two positions. -/
def PartsPlaced (text : List Char) (start stop : Nat) : List Part → Prop
  | [] => start ≤ stop
  | (tree, cursor) :: parts =>
    tree.Placed text ∧ start ≤ tree.extent.start ∧ tree.extent.stop ≤ cursor.position ∧
      cursor.Placed text ∧ PartsPlaced text cursor.position stop parts

theorem PartsPlaced.start_le_stop {start stop : Nat} {parts : List Part}
    (h : PartsPlaced text start stop parts) : start ≤ stop := by
  induction parts generalizing start with
  | nil => exact h
  | cons part parts ih =>
    obtain ⟨placed, hstart, hstop, -, h⟩ := h
    have := placed.start_le_stop
    have := ih h
    omega

namespace Down

variable {top below : Stack} {parts : List Part}

theorem sound (h : Down top parts below) (htop : Sound automaton text registry top) :
    Sound automaton text registry below := by
  induction h with
  | all => exact htop
  | take _ mem ih => exact ih.link mem

/-- What has been taken off a sound stack is placed between what is left and the top. -/
theorem partsPlaced (h : Down top parts below) (htop : Sound automaton text registry top) :
    PartsPlaced text below.cursor.position top.cursor.position parts := by
  induction h with
  | all => exact Nat.le_refl _
  | take down mem ih =>
    have hlevel := down.sound htop
    have hjoins := hlevel.joins mem
    exact ⟨hjoins.placed, hjoins.start_le, hjoins.le_stop, hlevel.cursor, ih⟩

theorem derived (h : Down top parts below) (htop : Sound automaton text registry top) :
    ∀ part ∈ parts, part.1.Derived automaton := by
  induction h with
  | all => simp
  | take down mem ih =>
    intro part hpart
    rcases List.mem_cons.1 hpart with rfl | hpart
    · exact ((down.sound htop).joins mem).derived
    · exact ih part hpart

end Down

/-- A way down from the top of a stack on which the given number of parts is to be taken. A phrase of the
state at the top that has as many parts has been traced back to where it began, or to a phrase of the
state that has been reached. -/
structure Path.From (automaton : Automaton) (top : Stack) (count : Nat) (path : Path) : Prop where
  down : Down top path.parts path.stack
  front : ∀ part, path.parts.head? = some part → part.1.floats = true → path.left ≠ 0
  begun : path.parts = [] → path.left = count
  traced : ∀ pending ∈ top.state, pending.count = count →
    (path.left = 0 ∧ automaton.Runs (spelling path.parts) pending.slot) ∨
      ∃ old ∈ path.stack.state, old.count = path.left ∧
        ∀ symbols, automaton.Runs symbols old.slot →
          automaton.Runs (symbols ++ spelling path.parts) pending.slot

/-- Parts that are taken off a stack for a phrase: the first of them counts, and they lead to where a
phrase of the state at the top stands that has as many parts. -/
structure Taken (automaton : Automaton) (top : Stack) (count : Nat) (parts : List Part) : Prop where
  front : ∀ part, parts.head? = some part → part.1.floats = false
  exists_head : 0 < count → ∃ part, parts.head? = some part
  runs : ∀ pending ∈ top.state, pending.count = count →
    automaton.Runs (spelling parts) pending.slot

/-- A stack that is left at the end of some ways down: each of them ends at a level that agrees with
it. -/
structure Lands (automaton : Automaton) (text : List Char) (registry : Registry) (top : Stack)
    (count : Nat) (landing : Landing) : Prop where
  sound : Sound automaton text registry landing.1
  reading : ∀ parts ∈ landing.2, Taken automaton top count parts ∧
    ∃ below, Down top parts below ∧ below.state = landing.1.state ∧
      below.cursor = landing.1.cursor

theorem Lands.mono {top : Stack} {count : Nat} {landing : Landing}
    (h : Lands automaton text registry top count landing) (more : Registry) :
    Lands automaton text (registry ++ more) top count landing :=
  ⟨h.sound.mono more, h.reading⟩

theorem Path.From.descend {top : Stack} {count : Nat} {path : Path}
    (h : path.From automaton top count) (htop : Sound automaton text registry top)
    (hleft : path.left ≠ 0) {next : Path} (hn : next ∈ path.descend) :
    next.From automaton top count := by
  obtain ⟨⟨tree, below⟩, hlink, rfl⟩ := List.mem_map.1 hn
  have hstate := ((h.down.sound htop).joins hlink).state_eq
  refine ⟨.take h.down hlink, fun part hpart hfloats => ?_, by simp, fun pending hpending hcount => ?_⟩
  · obtain rfl : (tree, path.stack.cursor) = part := by simpa using hpart
    simpa [hfloats] using hleft
  · obtain ⟨old, hold, hcount, htraced⟩ :=
      (h.traced pending hpending hcount).resolve_left fun hdone => hleft hdone.1
    simp only at hstate
    cases hfloats : tree.floats with
    | true =>
      rw [hstate, if_pos hfloats] at hold
      refine .inr ⟨old, hold, by simpa [hfloats] using hcount, fun symbols hruns => ?_⟩
      simpa [spelling, symbolsOf_cons, hfloats] using htraced symbols hruns
    | false =>
      rw [hstate, if_neg (by simp [hfloats])] at hold
      -- The part either begins the phrase, or it goes on with a phrase of the state below.
      rcases Automaton.mem_goto hold with ⟨hone, entry, hentry, hslot⟩ |
        ⟨older, holder, arc, harc, hcode, hslot, hmore⟩
      · refine .inl ⟨?_, ?_⟩
        · simp only [hfloats, Bool.false_eq_true, if_false]
          omega
        · simpa [spelling, symbolsOf_cons, hfloats] using htraced _ (.begins hentry hslot)
      · refine .inr ⟨older, holder, ?_, fun symbols hruns => ?_⟩
        · simp only [hfloats, Bool.false_eq_true, if_false]
          omega
        · rw [hslot] at htraced
          simpa [spelling, symbolsOf_cons, hfloats] using
            htraced _ (.goesOn hruns harc hcode)

/-- When no part is left to be taken, the parts have been taken for a phrase. -/
theorem Path.From.taken {top : Stack} {count : Nat} {path : Path}
    (h : path.From automaton top count) (htop : Sound automaton text registry top)
    (hleft : path.left = 0) : Taken automaton top count path.parts := by
  refine ⟨fun part hpart => ?_, fun hpos => ?_, fun pending hpending hcount => ?_⟩
  · cases hfloats : part.1.floats with
    | false => rfl
    | true => exact absurd hleft (h.front part hpart hfloats)
  · cases hparts : path.parts with
    | nil =>
      have := h.begun hparts
      omega
    | cons part parts => exact ⟨part, rfl⟩
  · rcases h.traced pending hpending hcount with ⟨-, hruns⟩ | ⟨old, hold, hcount, htraced⟩
    · exact hruns
    · have hslot := ((h.down.sound htop).hasParts old hold).resolve_left (by omega)
      rw [hslot] at htraced
      simpa using htraced [] .start

theorem land_lands {top : Stack} {count : Nat} {path : Path}
    (htop : Sound automaton text registry top) (hp : path.From automaton top count)
    (hleft : path.left = 0)
    {landings : List Landing} (h : ∀ landing ∈ landings, Lands automaton text registry top count landing)
    {landing : Landing} (hl : landing ∈ land path landings) :
    Lands automaton text registry top count landing := by
  have htaken := hp.taken htop hleft
  have hsound := hp.down.sound htop
  induction landings with
  | nil =>
    obtain rfl : landing = (path.stack, [path.parts]) := by simpa [land] using hl
    refine ⟨hsound, fun parts hparts => ?_⟩
    obtain rfl : parts = path.parts := by simpa using hparts
    exact ⟨htaken, path.stack, hp.down, rfl, rfl⟩
  | cons first landings ih =>
    obtain ⟨stack, readings⟩ := first
    have hfirst := h (stack, readings) (by simp)
    simp only [land] at hl
    split at hl
    · rename_i hnumber
      rcases List.mem_cons.1 hl with rfl | hl
      · refine ⟨hfirst.sound, fun parts hparts => ?_⟩
        rcases List.mem_append.1 hparts with hparts | hparts
        · exact hfirst.reading parts hparts
        · obtain rfl : parts = path.parts := by simpa using hparts
          have hregistered := hsound.registered
          rw [← beq_iff_eq.1 hnumber, hfirst.sound.registered] at hregistered
          obtain ⟨hstate, hcursor⟩ := Prod.mk.inj (Option.some_inj.1 hregistered)
          exact ⟨htaken, path.stack, hp.down, hstate.symm, hcursor.symm⟩
      · exact h landing (by simp [hl])
    · rcases List.mem_cons.1 hl with rfl | hl
      · exact hfirst
      · exact ih (fun landing hlanding => h landing (by simp [hlanding])) hl

theorem foldl_land_lands {top : Stack} {count : Nat} (htop : Sound automaton text registry top)
    {paths : List Path} (hp : ∀ path ∈ paths, path.From automaton top count ∧ path.left = 0)
    {landings : List Landing}
    (h : ∀ landing ∈ landings, Lands automaton text registry top count landing)
    {landing : Landing}
    (hl : landing ∈ paths.foldl (fun landings path => land path landings) landings) :
    Lands automaton text registry top count landing := by
  induction paths generalizing landings with
  | nil => exact h landing hl
  | cons path paths ih =>
    obtain ⟨hfrom, hleft⟩ := hp path (by simp)
    exact ih (fun path hpath => hp path (by simp [hpath]))
      (fun landing hlanding => land_lands htop hfrom hleft h hlanding) hl

/-- Following ways down lands only where the parts have been taken. -/
theorem descend_lands {top : Stack} {count : Nat} (htop : Sound automaton text registry top)
    (fuel : Nat) {paths : List Path} (hp : ∀ path ∈ paths, path.From automaton top count)
    {landings : List Landing}
    (h : ∀ landing ∈ landings, Lands automaton text registry top count landing)
    {landing : Landing} (hl : landing ∈ descend fuel paths landings) :
    Lands automaton text registry top count landing := by
  induction fuel generalizing paths landings with
  | zero => exact h landing hl
  | succ fuel ih =>
    rw [descend, List.partition_eq_filter_filter] at hl
    have hdone : ∀ path ∈ paths.filter (fun path => path.left == 0),
        path.From automaton top count ∧ path.left = 0 := by
      intro path hpath
      obtain ⟨hpath, hleft⟩ := List.mem_filter.1 hpath
      exact ⟨hp path hpath, by simpa using hleft⟩
    have hlanded := fun landing (hl : landing ∈ _) => foldl_land_lands htop hdone h hl
    simp only at hl
    split at hl
    · exact hlanded landing hl
    · refine ih ?_ hlanded hl
      intro next hnext
      have hgoing : ∀ ways ∈ (paths.filter (not ∘ fun path => path.left == 0)).map Path.descend,
          ∀ next ∈ ways, next.From automaton top count := by
        intro ways hways next hnext
        obtain ⟨path, hpath, rfl⟩ := List.mem_map.1 hways
        obtain ⟨hpath, hleft⟩ := List.mem_filter.1 hpath
        exact (hp path hpath).descend htop (by simpa using hleft) hnext
      rcases List.mem_append.1 hnext with hnext | hnext
      · obtain ⟨ways, hways, hhead⟩ := List.mem_filterMap.1 hnext
        exact hgoing ways hways next (List.mem_of_head? hhead)
      · obtain ⟨ways, hways, htail⟩ := List.mem_flatMap.1 (List.mem_of_mem_take hnext)
        exact hgoing ways hways next (List.mem_of_mem_tail htail)

/-- Taking parts off a sound stack lands only where that many parts have been taken. -/
theorem pop_lands {top : Stack} (htop : Sound automaton text registry top) (fuel count : Nat)
    {landing : Landing} (hl : landing ∈ pop fuel count top) :
    Lands automaton text registry top count landing := by
  have hstart : ∀ path ∈ [(⟨top, [], count⟩ : Path)], path.From automaton top count := by
    intro path hpath
    obtain rfl : path = ⟨top, [], count⟩ := by simpa using hpath
    refine ⟨.all, by simp, fun _ => rfl, fun pending hpending hcount => ?_⟩
    exact .inr ⟨pending, hpending, hcount, by simp [spelling, symbolsOf]⟩
  exact descend_lands htop fuel hstart (by simp) hl

end Stack

end CodeSplice.Syntax
