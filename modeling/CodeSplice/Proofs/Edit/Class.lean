/-
Module: CodeSplice.Proofs.Edit.Class
Purpose: What the edits of a class do. A class has the method and the call afterwards, and the same
  edit finds nothing left to do. The two edits can be made in either order: a constructor that is
  made for a call stands before the first method, whether the other edit inserts that method or not.
Main exports: MethodEdit.Applied, MethodEdit.applied, MethodEdit.apply_apply, CallEdit.Applied,
  CallEdit.applied, CallEdit.apply_apply, Independent, independent_class
-/
import CodeSplice.Edit.Class
import CodeSplice.Proofs.Edit.Insertion

namespace CodeSplice

/-! ### Positions in a list with one more element -/

section

variable {γ δ : Type} {p q : γ → Bool}

/-- An element without the property that is put in front of the first one with it moves that one
back. -/
theorem findIdx?_insertIdx_of_not {a : γ} (ha : q a = false) {l : List γ} {j : Nat}
    (hj : j ≤ l.findIdx q) : (l.insertIdx j a).findIdx? q = (l.findIdx? q).map (· + 1) := by
  induction l generalizing j with
  | nil =>
    obtain rfl : j = 0 := by simpa using hj
    simp [ha]
  | cons b l ih =>
    cases j with
    | zero => simp [List.findIdx?_cons, ha]
    | succ j =>
      cases hb : q b with
      | true => simp [List.findIdx_cons, hb] at hj
      | false =>
        have hj' : j ≤ l.findIdx q := by simpa [List.findIdx_cons, hb] using hj
        simp [List.findIdx?_cons, hb, ih hj']

/-- An element with the property that is put at the first one with it, or further behind, leaves the
first position as it is. -/
theorem findIdx_insertIdx_of_pos {a : γ} (ha : p a = true) {l : List γ} {i : Nat}
    (hi : l.findIdx p ≤ i) (hle : i ≤ l.length) : (l.insertIdx i a).findIdx p = l.findIdx p := by
  induction l generalizing i with
  | nil =>
    obtain rfl : i = 0 := by simpa using hle
    simp [ha]
  | cons b l ih =>
    cases hb : p b with
    | true => cases i <;> simp [List.findIdx_cons, ha, hb]
    | false =>
      obtain ⟨i, rfl⟩ : ∃ k, i = k + 1 := by
        simp only [List.findIdx_cons, hb, cond_false] at hi
        exact ⟨i - 1, by omega⟩
      have hi' : l.findIdx p ≤ i := by simpa [List.findIdx_cons, hb] using hi
      simp [List.findIdx_cons, hb, ih hi' (by simpa using hle)]

theorem findSome?_insertIdx {f : γ → Option δ} {a : γ} (ha : f a = none) (index : Nat)
    (l : List γ) :
    (l.insertIdx index a).findSome? f = l.findSome? f := by
  induction l generalizing index with
  | nil => cases index <;> simp [ha]
  | cons b l ih => cases index <;> simp [List.findSome?_cons, ha, ih]

theorem findSome?_insertIdx_of_none {f : γ → Option δ} {l : List γ} (h : l.findSome? f = none)
    (a : γ) {index : Nat} (hle : index ≤ l.length) : (l.insertIdx index a).findSome? f = f a := by
  induction l generalizing index with
  | nil =>
    obtain rfl : index = 0 := by simpa using hle
    cases hf : f a <;> simp [hf]
  | cons b l ih =>
    have hb : f b = none := List.findSome?_eq_none_iff.1 h b (by simp)
    rw [List.findSome?_cons, hb] at h
    cases index with
    | zero => cases hf : f a <;> simp [hf, hb, h]
    | succ index => simp [hb, ih h (by simpa using hle)]

theorem filterMap_insertIdx {f : γ → Option δ} {a : γ} (ha : f a = none) (index : Nat)
    (l : List γ) :
    (l.insertIdx index a).filterMap f = l.filterMap f := by
  induction l generalizing index with
  | nil => cases index <;> simp [ha]
  | cons b l ih => cases index <;> simp [List.filterMap_cons, ha, ih]

end

/-! ### Members by their nodes -/

/-- Whether a member is a method of a name. -/
def Member.isMethod (name : String) (member : Member) : Bool :=
  member.method?.any (·.name == name)

theorem Member.isSome_of_isMethod {name : String} {member : Member}
    (h : member.isMethod name = true) : member.method?.isSome = true := by
  unfold isMethod at h
  cases hmethod : member.method? <;> simp_all

namespace ClassDeclaration

/-- The members without what stands around them. -/
def nodes (declaration : ClassDeclaration) : List Member :=
  declaration.members.map (·.node)

theorem methods_eq (declaration : ClassDeclaration) :
    declaration.methods = declaration.nodes.filterMap (·.method?) := by
  simp [methods, nodes, List.filterMap_map, Function.comp_def]

theorem constructor?_eq (declaration : ClassDeclaration) :
    declaration.constructor? = declaration.nodes.findSome? (·.constructor?) := by
  simp [constructor?, nodes, List.findSome?_map, Function.comp_def]

@[simp] theorem length_nodes (declaration : ClassDeclaration) :
    declaration.nodes.length = declaration.members.length := by
  simp [nodes]

/-- Where the first method is; behind the members if there is none. -/
theorem firstMethodIndex?_getD (declaration : ClassDeclaration) :
    declaration.firstMethodIndex?.getD declaration.members.length =
      declaration.nodes.findIdx (·.method?.isSome) := by
  rw [List.findIdx_eq_getD_findIdx?, length_nodes]
  simp [firstMethodIndex?, nodes, List.findIdx?_map, Function.comp_def]

theorem resolve_method_eq (declaration : ClassDeclaration) (name : String) :
    declaration.resolve ⟨.method, name⟩ = declaration.nodes.findIdx? (Member.isMethod name) := by
  simp [resolve, CodeSplice.resolve, Member.answers, nodes, List.findIdx?_map, Function.comp_def,
    Member.isMethod]

theorem isSome_method?_iff {declaration : ClassDeclaration} {name : String} :
    (declaration.method? name).isSome = true ↔
      ∃ method : Method, .method method ∈ declaration.nodes ∧ method.name = name := by
  rw [method?, methods_eq, List.find?_isSome]
  simp only [List.mem_filterMap, beq_iff_eq]
  constructor
  · rintro ⟨method, ⟨member, hmember, hmethod⟩, hname⟩
    cases member with
    | method other => exact ⟨method, Option.some.inj hmethod ▸ hmember, hname⟩
    | constructor _ => cases hmethod
    | other _ => cases hmethod
  · rintro ⟨method, hmember, hname⟩
    exact ⟨method, ⟨_, hmember, rfl⟩, hname⟩

/-! #### Another constructor in the place of the first one -/

theorem constructor?_eq_bind (declaration : ClassDeclaration) :
    declaration.constructor? =
      (firstNode (·.constructor?.isSome) declaration.members).bind (·.constructor?) := by
  obtain ⟨_, _, _, members, _⟩ := declaration
  simp only [constructor?]
  induction members with
  | nil => rfl
  | cons entry members ih =>
    rw [List.findSome?_cons, firstNode_cons]
    cases h : entry.node.constructor? <;> simp [h, ih]

/-- The first constructor is a member. -/
theorem firstNode_of_constructor? {declaration : ClassDeclaration} {constructor : Constructor}
    (h : declaration.constructor? = some constructor) :
    firstNode (·.constructor?.isSome) declaration.members = some (.constructor constructor) := by
  rw [constructor?_eq_bind] at h
  obtain ⟨member, hmember, hconstructor⟩ := Option.bind_eq_some_iff.1 h
  cases member with
  | constructor _ => rwa [Option.some.inj hconstructor] at hmember
  | method _ => cases hconstructor
  | other _ => cases hconstructor

theorem constructor?_setConstructor {declaration : ClassDeclaration} {old : Constructor}
    (h : declaration.constructor? = some old) (constructor : Constructor) :
    (declaration.setConstructor constructor).constructor? = some constructor := by
  rw [constructor?_eq_bind]
  simp only [setConstructor]
  rw [firstNode_updateFirst (p := fun member : Member => member.constructor?.isSome) rfl,
    firstNode_of_constructor? h]
  rfl

/-- The methods of a class do not change with its constructor. -/
theorem map_method?_setConstructor (declaration : ClassDeclaration) (constructor : Constructor) :
    (declaration.setConstructor constructor).members.map (·.node.method?) =
      declaration.members.map (·.node.method?) := by
  refine map_updateFirst (p := fun member : Member => member.constructor?.isSome)
    (g := Member.method?) (fun member hmember => ?_) declaration.members
  cases member with
  | constructor _ => rfl
  | method _ => cases hmember
  | other _ => cases hmember

theorem methods_eq_of_map_method? {declaration other : ClassDeclaration}
    (h : declaration.members.map (·.node.method?) = other.members.map (·.node.method?)) :
    declaration.methods = other.methods := by
  have heq (d : ClassDeclaration) :
      d.methods = (d.members.map (·.node.method?)).filterMap id := by
    simp [methods, List.filterMap_map, Function.comp_def]
  rw [heq, heq, h]

end ClassDeclaration

/-! ### A method is inserted -/

namespace MethodEdit

variable (edit : MethodEdit) (declaration : ClassDeclaration)

/-- The entry that is inserted. -/
def entry : Entry Member where
  blankBefore := true
  node := .method edit.draft.toMethod

theorem apply_of_isSome (h : (declaration.method? edit.draft.name).isSome = true) :
    edit.apply declaration = (.alreadyPresent, declaration) := by
  simp [apply, h]

theorem apply_of_isNone (h : (declaration.method? edit.draft.name).isSome = false) :
    edit.apply declaration =
      (.inserted (edit.place declaration).2,
        { declaration with
          members := insertEntry declaration.members (edit.place declaration).1 edit.entry }) := by
  simp [apply, h, entry]

/-- A method goes in front of its anchor; if there is none, behind the members. -/
theorem fst_place :
    (edit.place declaration).1 =
      match edit.before with
      | none => declaration.members.length
      | some name => declaration.nodes.findIdx (Member.isMethod name) := by
  simp only [place, declaration.resolve_method_eq]
  cases edit.before with
  | none => rfl
  | some name =>
    simp only [List.findIdx_eq_getD_findIdx?, ClassDeclaration.length_nodes, Option.bind_some]
    cases declaration.nodes.findIdx? (Member.isMethod name) <;> rfl

theorem place_le : (edit.place declaration).1 ≤ declaration.members.length := by
  rw [fst_place]
  cases edit.before with
  | none => exact Nat.le_refl _
  | some name => simpa using @List.findIdx_le_length _ _ declaration.nodes

/-- A method goes in front of a method or to the end. -/
theorem firstMethod_le_place :
    declaration.nodes.findIdx (·.method?.isSome) ≤ (edit.place declaration).1 := by
  rw [fst_place]
  cases edit.before with
  | none => simpa using @List.findIdx_le_length _ _ declaration.nodes
  | some name => exact List.findIdx_le_findIdx fun member _ => Member.isSome_of_isMethod

/-- What inserting a method can come to: the class has it already, or it joins the members. -/
inductive Applied (edit : MethodEdit) (declaration : ClassDeclaration) : ClassDeclaration → Prop
  | idle : Applied edit declaration declaration
  | joined {members : List (Entry Member)}
      (missing : (declaration.method? edit.draft.name).isSome = false)
      (gains : Gains (.method edit.draft.toMethod) declaration.members members) :
      Applied edit declaration { declaration with members }

theorem applied : edit.Applied declaration (edit.apply declaration).2 := by
  cases h : (declaration.method? edit.draft.name).isSome with
  | true =>
    rw [edit.apply_of_isSome declaration h]
    exact .idle
  | false =>
    rw [edit.apply_of_isNone declaration h]
    exact .joined h (gains_insertEntry (edit.place_le declaration) true)

/-- A class has the method afterwards. -/
theorem isSome_method?_apply :
    ((edit.apply declaration).2.method? edit.draft.name).isSome = true := by
  by_cases h : (declaration.method? edit.draft.name).isSome = true
  · rwa [edit.apply_of_isSome declaration h]
  · rw [Bool.not_eq_true] at h
    rw [edit.apply_of_isNone declaration h, ClassDeclaration.isSome_method?_iff]
    refine ⟨edit.draft.toMethod, ?_, rfl⟩
    rw [ClassDeclaration.nodes, map_node_insertEntry]
    exact (List.mem_insertIdx (by simpa using edit.place_le declaration)).2 (.inl rfl)

/-- A method is inserted once. -/
theorem apply_apply :
    edit.apply (edit.apply declaration).2 = (.alreadyPresent, (edit.apply declaration).2) :=
  edit.apply_of_isSome _ (edit.isSome_method?_apply declaration)

theorem name_apply : (edit.apply declaration).2.name = declaration.name := by
  unfold apply
  split <;> rfl

/-- The constructor stays as it is. -/
theorem constructor?_apply :
    (edit.apply declaration).2.constructor? = declaration.constructor? := by
  by_cases h : (declaration.method? edit.draft.name).isSome = true
  · rw [edit.apply_of_isSome declaration h]
  · rw [Bool.not_eq_true] at h
    rw [edit.apply_of_isNone declaration h, ClassDeclaration.constructor?_eq,
      ClassDeclaration.constructor?_eq, ClassDeclaration.nodes, map_node_insertEntry]
    exact findSome?_insertIdx rfl _ _

/-- Where a method goes depends only on the methods that are there. -/
theorem place_congr {declaration other : ClassDeclaration}
    (h : declaration.members.map (·.node.method?) = other.members.map (·.node.method?)) :
    edit.place declaration = edit.place other := by
  have hresolve (d : ClassDeclaration) (name : String) :
      d.resolve ⟨.method, name⟩ =
        (d.members.map (·.node.method?)).findIdx? (·.any (·.name == name)) := by
    rw [d.resolve_method_eq]
    simp [ClassDeclaration.nodes, List.findIdx?_map, Function.comp_def, Member.isMethod]
  have hlength : declaration.members.length = other.members.length := by
    simpa using congrArg List.length h
  simp only [place, hresolve, h, hlength]

/-- Whether the constructor changes before a method is inserted, or afterwards, is the same. -/
theorem apply_setConstructor (constructor : Constructor) :
    edit.apply (declaration.setConstructor constructor) =
      ((edit.apply declaration).1, (edit.apply declaration).2.setConstructor constructor) := by
  have hview := declaration.map_method?_setConstructor constructor
  have hmethod : (declaration.setConstructor constructor).method? edit.draft.name =
      declaration.method? edit.draft.name := by
    unfold ClassDeclaration.method?
    rw [ClassDeclaration.methods_eq_of_map_method? hview]
  by_cases h : (declaration.method? edit.draft.name).isSome = true
  · rw [edit.apply_of_isSome declaration h, edit.apply_of_isSome _ (hmethod ▸ h)]
  · rw [Bool.not_eq_true] at h
    rw [edit.apply_of_isNone declaration h, edit.apply_of_isNone _ (hmethod ▸ h),
      edit.place_congr hview]
    simp only [ClassDeclaration.setConstructor]
    rw [updateFirst_insertEntry (p := fun member : Member => member.constructor?.isSome) rfl]

end MethodEdit

/-! ### A call is inserted -/

/-- One more statement joins those of a constructor. -/
def GainsStatement (statement : Statement) (before after : Member) : Prop :=
  ∃ (constructor : Constructor) (statements : List (Entry Statement)),
    before = .constructor constructor ∧ after = .constructor { constructor with statements } ∧
      Gains statement constructor.statements statements

namespace CallEdit

variable (edit : CallEdit) (declaration : ClassDeclaration)

/-- The call joins the statements of a constructor. -/
theorem gains_addTo (constructor : Constructor) :
    ∃ statements, (edit.addTo constructor).2 = { constructor with statements } ∧
      Gains edit.draft.toStatement constructor.statements statements := by
  simp only [addTo]
  split
  · exact ⟨_, rfl, gains_takeOver _ _⟩
  · split
    · rename_i name index hfind
      obtain ⟨anchor, -, hresolve⟩ := Option.bind_eq_some_iff.1 hfind
      obtain ⟨found, hfound, heq⟩ := Option.map_eq_some_iff.1 hresolve
      obtain ⟨-, rfl⟩ := Prod.mk.inj heq
      obtain ⟨hlt, -⟩ := List.findIdx?_eq_some_iff_getElem.1 hfound
      exact ⟨_, rfl, gains_insertIdx hlt false⟩
    · refine ⟨_, rfl, ?_⟩
      simpa using @Gains.between _ edit.draft.toStatement constructor.statements [] false

/-- A constructor makes the call afterwards. -/
theorem calls_addTo (constructor : Constructor) :
    (edit.addTo constructor).2.calls edit.draft.method = true := by
  obtain ⟨statements, hadd, hgains⟩ := edit.gains_addTo constructor
  obtain ⟨entry, hentry, hnode⟩ := hgains.exists_mem
  rw [hadd]
  refine List.any_eq_true.2 ⟨entry, hentry, ?_⟩
  rw [hnode]
  simp [Statement.calls, CallDraft.toStatement]

theorem apply_of_constructor?_eq_none (h : declaration.constructor? = none) :
    edit.apply declaration = (.inserted .newConstructor, edit.addConstructor declaration) := by
  simp [apply, h]

theorem apply_of_calls {constructor : Constructor} (h : declaration.constructor? = some constructor)
    (hcalls : constructor.calls edit.draft.method = true) :
    edit.apply declaration = (.alreadyPresent, declaration) := by
  simp [apply, h, hcalls]

theorem apply_of_not_calls {constructor : Constructor}
    (h : declaration.constructor? = some constructor)
    (hcalls : constructor.calls edit.draft.method = false) :
    edit.apply declaration =
      ((edit.addTo constructor).1, declaration.setConstructor (edit.addTo constructor).2) := by
  simp [apply, h, hcalls]

/-- The entry of a constructor that is made for the call. -/
def entry : Entry Member where
  blankBefore := true
  node := .constructor edit.draft.toConstructor

theorem addConstructor_eq :
    edit.addConstructor declaration =
      { declaration with
        members := insertEntry declaration.members (declaration.nodes.findIdx (·.method?.isSome))
          edit.entry } := by
  rw [← declaration.firstMethodIndex?_getD]
  rfl

/-- What inserting a call can come to: the constructor makes it already, a constructor that makes it
joins the members, or the call joins the statements of the first constructor. -/
inductive Applied (edit : CallEdit) (declaration : ClassDeclaration) : ClassDeclaration → Prop
  | idle : Applied edit declaration declaration
  | created {members : List (Entry Member)} (missing : declaration.constructor? = none)
      (gains : Gains (.constructor edit.draft.toConstructor) declaration.members members) :
      Applied edit declaration { declaration with members }
  | joined {members : List (Entry Member)}
      (changes : ChangesFirst (·.constructor?.isSome) (GainsStatement edit.draft.toStatement)
        declaration.members members) :
      Applied edit declaration { declaration with members }

theorem applied : edit.Applied declaration (edit.apply declaration).2 := by
  cases h : declaration.constructor? with
  | none =>
    rw [edit.apply_of_constructor?_eq_none declaration h, edit.addConstructor_eq]
    refine .created h (gains_insertEntry ?_ true)
    simpa using @List.findIdx_le_length _ (·.method?.isSome) declaration.nodes
  | some constructor =>
    cases hcalls : constructor.calls edit.draft.method with
    | true =>
      rw [edit.apply_of_calls declaration h hcalls]
      exact .idle
    | false =>
      obtain ⟨statements, hadd, hgains⟩ := edit.gains_addTo constructor
      have hfirst := declaration.firstNode_of_constructor? h
      rw [edit.apply_of_not_calls declaration h hcalls, hadd]
      exact .joined (changesFirst_updateFirst fun old hold =>
        ⟨constructor, statements, Option.some.inj (hold.symm.trans hfirst), rfl, hgains⟩)

theorem nodes_addConstructor :
    (edit.addConstructor declaration).nodes =
      declaration.nodes.insertIdx (declaration.nodes.findIdx (·.method?.isSome))
        edit.entry.node := by
  rw [addConstructor_eq]
  exact map_node_insertEntry _ _ _

theorem methods_addConstructor :
    (edit.addConstructor declaration).methods = declaration.methods := by
  rw [ClassDeclaration.methods_eq, ClassDeclaration.methods_eq, nodes_addConstructor]
  exact filterMap_insertIdx rfl _ _

/-- The constructor that is made for the call is the first one of the class. -/
theorem constructor?_addConstructor (h : declaration.constructor? = none) :
    (edit.addConstructor declaration).constructor? = some edit.draft.toConstructor := by
  rw [ClassDeclaration.constructor?_eq] at h ⊢
  rw [nodes_addConstructor]
  exact findSome?_insertIdx_of_none h _ List.findIdx_le_length

/-- The first constructor makes the call afterwards. -/
theorem calls_apply :
    ∃ constructor, (edit.apply declaration).2.constructor? = some constructor ∧
      constructor.calls edit.draft.method = true := by
  cases h : declaration.constructor? with
  | none =>
    rw [edit.apply_of_constructor?_eq_none declaration h]
    refine ⟨_, edit.constructor?_addConstructor declaration h, ?_⟩
    simp [Constructor.calls, CallDraft.toConstructor, Statement.calls, CallDraft.toStatement]
  | some constructor =>
    cases hcalls : constructor.calls edit.draft.method with
    | true =>
      rw [edit.apply_of_calls declaration h hcalls]
      exact ⟨constructor, h, hcalls⟩
    | false =>
      rw [edit.apply_of_not_calls declaration h hcalls]
      exact ⟨_, ClassDeclaration.constructor?_setConstructor h _, edit.calls_addTo constructor⟩

/-- A call is inserted once. -/
theorem apply_apply :
    edit.apply (edit.apply declaration).2 = (.alreadyPresent, (edit.apply declaration).2) := by
  obtain ⟨constructor, h, hcalls⟩ := edit.calls_apply declaration
  exact edit.apply_of_calls _ h hcalls

theorem name_apply : (edit.apply declaration).2.name = declaration.name := by
  unfold apply
  split
  · rfl
  · split <;> rfl

/-- The methods stay as they are. -/
theorem methods_apply : (edit.apply declaration).2.methods = declaration.methods := by
  unfold apply
  split
  · exact edit.methods_addConstructor declaration
  · split
    · rfl
    · exact ClassDeclaration.methods_eq_of_map_method?
        (declaration.map_method?_setConstructor _)

end CallEdit

/-! ### Both -/

/-- Two changes of a value that can be made in either order: each has the outcome that it has
without the other, and the value that comes out is the same. -/
structure Independent {σ : Type} (f g : σ → Outcome × σ) : Prop where
  fst : ∀ s, (f (g s).2).1 = (f s).1
  snd : ∀ s, (g (f s).2).1 = (g s).1
  comm : ∀ s, (f (g s).2).2 = (g (f s).2).2

theorem Independent.symm {σ : Type} {f g : σ → Outcome × σ} (h : Independent f g) :
    Independent g f :=
  ⟨h.snd, h.fst, fun s => (h.comm s).symm⟩

section

variable (edit : MethodEdit) (call : CallEdit) {declaration : ClassDeclaration}

/-- A method finds its anchor one place further behind if a constructor is made first. -/
theorem place_addConstructor :
    edit.place (call.addConstructor declaration) =
      ((edit.place declaration).1 + 1, (edit.place declaration).2) := by
  have hlength : (call.addConstructor declaration).members.length =
      declaration.members.length + 1 := by
    rw [← ClassDeclaration.length_nodes, call.nodes_addConstructor,
      List.length_insertIdx_of_le_length List.findIdx_le_length, ClassDeclaration.length_nodes]
  have hresolve (name : String) : (call.addConstructor declaration).resolve ⟨.method, name⟩ =
      (declaration.resolve ⟨.method, name⟩).map (· + 1) := by
    rw [ClassDeclaration.resolve_method_eq, ClassDeclaration.resolve_method_eq,
      CallEdit.nodes_addConstructor]
    exact findIdx?_insertIdx_of_not rfl
      (List.findIdx_le_findIdx fun member _ => Member.isSome_of_isMethod)
  unfold MethodEdit.place
  cases edit.before with
  | none => simp [hlength]
  | some name =>
    rw [Option.bind_some, Option.bind_some, hresolve]
    cases declaration.resolve ⟨.method, name⟩ <;> simp [hlength]

/-- A method and a constructor can be inserted in either order. -/
theorem apply_addConstructor :
    edit.apply (call.addConstructor declaration) =
      ((edit.apply declaration).1, call.addConstructor (edit.apply declaration).2) := by
  have hmethod : (call.addConstructor declaration).method? edit.draft.name =
      declaration.method? edit.draft.name := by
    unfold ClassDeclaration.method?
    rw [call.methods_addConstructor]
  by_cases h : (declaration.method? edit.draft.name).isSome = true
  · rw [edit.apply_of_isSome declaration h, edit.apply_of_isSome _ (hmethod ▸ h)]
  · rw [Bool.not_eq_true] at h
    have hle := edit.place_le declaration
    have hfirst := edit.firstMethod_le_place declaration
    -- The inserted method is not the first one, or it stands where the first one stood.
    have hposition : ({ declaration with
        members := insertEntry declaration.members (edit.place declaration).1
          edit.entry } : ClassDeclaration).nodes.findIdx (·.method?.isSome) =
          declaration.nodes.findIdx (·.method?.isSome) := by
      rw [ClassDeclaration.nodes, map_node_insertEntry]
      exact findIdx_insertIdx_of_pos rfl hfirst (by simpa using hle)
    rw [edit.apply_of_isNone declaration h, edit.apply_of_isNone _ (hmethod ▸ h),
      place_addConstructor, call.addConstructor_eq, call.addConstructor_eq, hposition]
    have hcomm := insertEntry_comm call.entry
      (show edit.entry.setLeadingBlank true = edit.entry from rfl) hfirst hle
    simp only [hcomm]

/-- The edits of a class can be made in either order. -/
theorem independent_class : Independent edit.apply call.apply := by
  -- What the call comes to depends on the constructor, which the other edit leaves as it is.
  have hboth (declaration : ClassDeclaration) :
      (edit.apply (call.apply declaration).2).1 = (edit.apply declaration).1 ∧
        call.apply (edit.apply declaration).2 =
          ((call.apply declaration).1, (edit.apply (call.apply declaration).2).2) := by
    have hconstructor := edit.constructor?_apply declaration
    cases h : declaration.constructor? with
    | none =>
      rw [h] at hconstructor
      rw [call.apply_of_constructor?_eq_none _ h, call.apply_of_constructor?_eq_none _ hconstructor,
        apply_addConstructor]
      exact ⟨rfl, rfl⟩
    | some constructor =>
      rw [h] at hconstructor
      cases hcalls : constructor.calls call.draft.method with
      | true =>
        rw [call.apply_of_calls _ h hcalls, call.apply_of_calls _ hconstructor hcalls]
        exact ⟨rfl, rfl⟩
      | false =>
        rw [call.apply_of_not_calls _ h hcalls, call.apply_of_not_calls _ hconstructor hcalls,
          edit.apply_setConstructor]
        exact ⟨rfl, rfl⟩
  exact ⟨fun declaration => (hboth declaration).1,
    fun declaration => by rw [(hboth declaration).2],
    fun declaration => by rw [(hboth declaration).2]⟩

end

end CodeSplice
