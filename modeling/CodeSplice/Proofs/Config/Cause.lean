/-
Module: CodeSplice.Proofs.Config.Cause
Purpose: Where a complaint about a setting points. Its message names the setting, and the table that is
  read from the text knows where the setting stands. The complaint is not placed there, but where the
  name in quotes, or the last part of the key, occurs first in the text. So it points at its cause only
  if nothing in front of it, a title or a comment, reads the same.
Main exports: entryAt?, Config.Subject, Config.PointsAtCause, Config.exists_subject,
  Config.pointsAtCause_iff, Config.not_forall_pointsAtCause
-/
import CodeSplice.Config.Reading
import Mathlib.Control.Monad.Basic

namespace CodeSplice

open Toml

/-- The entry at the end of a path of keys, in a table and the tables in it. -/
def entryAt? : List String → List (Key × Located) → Option (Key × Located)
  | [], _ => none
  | [name], entries => entries.find? (·.1.name == name)
  | name :: path, entries =>
    (entries.find? (·.1.name == name)).bind fun entry =>
      match entry.2.2 with
      | .table _ inner => entryAt? path inner
      | _ => none

namespace Config

/-! ### What complaints are about -/

/-- The two parts of an entry. -/
inductive Part where
  | key
  | value
deriving DecidableEq, Repr

/-- A setting, given by its path of keys, and the part of its entry that is to blame. -/
structure Subject where
  path : List String
  part : Part
deriving DecidableEq, Repr

namespace Subject

/-- How a complaint about a subject begins. A name is blamed for its value, and any other setting is
pointed out by its key. -/
def opening (subject : Subject) : String :=
  match subject.part with
  | .key => ".".intercalate subject.path ++ " must "
  | .value => "invalid " ++ ".".intercalate subject.path ++ " '"

/-- Where a subject stands in the text that a table is read from. -/
def place? (subject : Subject) (table : Table) : Option ByteSpan :=
  (entryAt? subject.path table.entries).map fun entry =>
    match subject.part with
    | .key => entry.1.span
    | .value => entry.2.1

end Subject

/-- The subjects that there can be complaints about. -/
def subjects : List Subject :=
  [ ⟨["target", "class"], .value⟩,
    ⟨["api_docs", "method"], .value⟩,
    ⟨["api_docs", "server_url_var"], .value⟩,
    ⟨["api_docs", "anchors", "method_before"], .value⟩,
    ⟨["api_docs", "anchors", "call_before"], .value⟩,
    ⟨["api_docs", "anchors", "call_after"], .value⟩,
    ⟨["target", "file"], .key⟩,
    ⟨["style", "indent"], .key⟩,
    ⟨["style", "print_width"], .key⟩ ]

/-- The subject that a message names. -/
def subject? (message : String) : Option Subject :=
  subjects.find? fun subject => subject.opening.toList.isPrefixOf message.toList

/-- A message names one subject only. -/
theorem subject?_opening_append {subject : Subject} (h : subject ∈ subjects) (rest : String) :
    subject? (subject.opening ++ rest) = some subject := by
  have hapart : ∀ a ∈ subjects, ∀ b ∈ subjects, a.opening.toList <+: b.opening.toList → a = b := by
    decide
  have hprefix : subject.opening.toList <+: (subject.opening ++ rest).toList := by
    rw [String.toList_append]
    exact List.prefix_append _ _
  cases hfound : subject? (subject.opening ++ rest) with
  | none =>
    have := List.find?_eq_none.1 hfound subject h
    exact absurd (List.isPrefixOf_iff_prefix.2 hprefix) this
  | some other =>
    have hother : other.opening.toList <+: (subject.opening ++ rest).toList := by
      have := List.find?_some (p := fun s : Subject => s.opening.toList.isPrefixOf _) hfound
      exact List.isPrefixOf_iff_prefix.1 this
    have hmem := List.mem_of_find?_eq_some hfound
    rcases List.prefix_or_prefix_of_prefix hother hprefix with hle | hle
    · rw [hapart _ hmem _ h hle]
    · rw [hapart _ h _ hmem hle]

/-- A complaint about a subject, and what is looked for in the text: the name in quotes, or the last
part of the key. -/
inductive Blames (complaint : Complaint) : Subject → Prop where
  | value {path : List String} (name : String)
      (message_eq : complaint.message = (Subject.mk path .value).opening ++ (name ++ "'"))
      (cause_eq : complaint.cause = "\"" ++ name ++ "\"") : Blames complaint ⟨path, .value⟩
  | key {path : List String} (rest : String)
      (message_eq : complaint.message = (Subject.mk path .key).opening ++ rest)
      (cause_eq : path.getLast? = some complaint.cause) : Blames complaint ⟨path, .key⟩

/-- The settings that are names are subjects for their values. -/
theorem exists_path_of_mem_names {config : Config} {entry : String × String}
    (h : entry ∈ config.names) :
    ∃ path, ⟨path, .value⟩ ∈ subjects ∧ entry.1 = ".".intercalate path := by
  have hkey : entry.1 ∈ ["target.class", "api_docs.method", "api_docs.server_url_var",
      "api_docs.anchors.method_before", "api_docs.anchors.call_before",
      "api_docs.anchors.call_after"] := by
    rcases List.mem_append.1 h with h | h
    · simp only [List.mem_cons, List.not_mem_nil, or_false] at h
      rcases h with rfl | rfl | rfl <;> simp
    · have hmem := (List.mem_filter.1 h).1
      simp only [List.mem_cons, List.not_mem_nil, or_false] at hmem
      rcases hmem with rfl | rfl | rfl <;> simp
  have hpaths : ∀ key ∈ ["target.class", "api_docs.method", "api_docs.server_url_var",
      "api_docs.anchors.method_before", "api_docs.anchors.call_before",
      "api_docs.anchors.call_after"],
      ∃ subject ∈ subjects, subject.part = .value ∧ key = ".".intercalate subject.path := by
    decide
  obtain ⟨⟨path, _⟩, hsubject, rfl, hpath⟩ := hpaths _ hkey
  exact ⟨path, hsubject, hpath⟩

theorem blames_of_nameComplaint? {path : List String} {name : String} {complaint : Complaint}
    (h : nameComplaint? (".".intercalate path, name) = some complaint) :
    Blames complaint ⟨path, .value⟩ := by
  obtain ⟨fault, -, rfl⟩ := Option.map_eq_some_iff.1 h
  exact .value name (by simp only [Subject.opening, String.append_assoc]) rfl

/-- Each complaint is about one of the subjects, which its message names. -/
theorem exists_subject {config : Config} {complaint : Complaint}
    (h : config.complaint? = some complaint) :
    ∃ subject ∈ subjects, subject? complaint.message = some subject ∧ Blames complaint subject := by
  have hblames : ∃ subject ∈ subjects, Blames complaint subject := by
    rw [complaint?, Option.or_eq_some_iff] at h
    rcases h with hname | ⟨-, hother⟩
    · obtain ⟨entry, hentry, hcomplaint⟩ := List.exists_of_findSome?_eq_some hname
      obtain ⟨path, hsubject, hkey⟩ := exists_path_of_mem_names hentry
      have hentry : entry = (".".intercalate path, entry.2) := by rw [← hkey]
      rw [hentry] at hcomplaint
      exact ⟨_, hsubject, blames_of_nameComplaint? hcomplaint⟩
    · split at hother
      · obtain rfl := Option.some.inj hother
        exact ⟨⟨["target", "file"], .key⟩, by decide, .key "not be empty" (by decide) rfl⟩
      split at hother
      · obtain rfl := Option.some.inj hother
        exact ⟨⟨["style", "indent"], .key⟩, by decide,
          .key "be between 1 and 8" (by decide) rfl⟩
      split at hother
      · obtain rfl := Option.some.inj hother
        exact ⟨⟨["style", "print_width"], .key⟩, by decide,
          .key "be at least 40" (by decide) rfl⟩
      · cases hother
  obtain ⟨subject, hmem, hblames⟩ := hblames
  refine ⟨subject, hmem, ?_, hblames⟩
  cases hblames with
  | value name message_eq _ => rw [message_eq, subject?_opening_append hmem]
  | key rest message_eq _ => rw [message_eq, subject?_opening_append hmem]

/-! ### Where complaints point -/

/-- A complaint about the settings that are read from a text points at its cause: at the value that is no
name, or at the key of the setting that is out of bounds. -/
def PointsAtCause (text : String) : Prop :=
  ∀ table config message advice span, Table.ofText? text = some table → ofTable table = .ok config →
    config.check text = .error (.invalid message advice span) →
      ∃ place, (subject? message).bind (·.place? table) = some place ∧ span = some place

/-- A complaint points at its cause exactly if what is looked for stands there, as it is written, and
nowhere in front of it. -/
theorem pointsAtCause_iff {text : String} {table : Table} {config : Config} {complaint : Complaint}
    (htable : Table.ofText? text = some table) (hconfig : ofTable table = .ok config)
    (hcomplaint : config.complaint? = some complaint) :
    PointsAtCause text ↔ ∃ front back, text.toList = front ++ complaint.cause.toList ++ back ∧
      (subject? complaint.message).bind (·.place? table) =
        some ⟨Text.byteLength front, complaint.cause.utf8ByteSize⟩ ∧
      ∀ front' back', text.toList = front' ++ complaint.cause.toList ++ back' →
        front.length ≤ front'.length := by
  have hcheck : config.check text = .error (complaint.toFault text) := by
    rw [check, hcomplaint]
  constructor
  · intro h
    obtain ⟨place, hplace, hspan⟩ := h table config _ _ _ htable hconfig hcheck
    obtain ⟨start, hstart, rfl⟩ := Option.map_eq_some_iff.1 hspan
    obtain ⟨front, back, htext, rfl, hfirst⟩ := Text.byteIndex?_eq_some_iff.1 hstart
    exact ⟨front, back, htext, hplace, hfirst⟩
  · rintro ⟨front, back, htext, hplace, hfirst⟩
    intro table' config' message advice span htable' hconfig' hcheck'
    obtain rfl : table' = table := Option.some.inj (htable'.symm.trans htable)
    obtain rfl : config' = config := Except.ok.inj (hconfig'.symm.trans hconfig)
    obtain ⟨rfl, -, rfl⟩ := ConfigFault.invalid.inj (Except.error.inj (hcheck'.symm.trans hcheck))
    refine ⟨_, hplace, ?_⟩
    rw [Text.byteIndex?_eq_some_iff.2 ⟨front, back, htext, rfl, hfirst⟩]
    rfl

/-- A title that reads like the name of the class below it, which is no name. -/
def titledToml : String :=
  "[api_docs]\ntitle = \"my-app\"\n\n[target]\nclass = \"my-app\"\n"

/-- The complaint about the name of the class points at the title. -/
theorem not_forall_pointsAtCause : ¬ ∀ text, PointsAtCause text := by
  intro h
  have hread : (Table.ofText? titledToml).map ofTable =
      some (.ok { target := { className := "my-app" }, apiDocs := { title := "my-app" } }) := by
    decide +kernel
  obtain ⟨table, htable, hconfig⟩ := Option.map_eq_some_iff.1 hread
  have hdue : (Table.ofText? titledToml).bind (fun table =>
      (subject? "invalid target.class 'my-app'").bind (·.place? table)) = some ⟨46, 8⟩ := by
    decide +kernel
  obtain ⟨place, hplace, hspan⟩ := h titledToml table _ "invalid target.class 'my-app'"
    (some NameFault.malformed.advice) (some ⟨19, 8⟩) htable hconfig (by decide +kernel)
  rw [htable, Option.bind_some, hplace, ← hspan] at hdue
  exact absurd hdue (by decide)

end Config

end CodeSplice
