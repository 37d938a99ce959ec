/-
Module: CodeSplice.Patch.Source
Purpose: Adding a feature to a source text.
Main exports: Feature.addTo
-/
import CodeSplice.Document.Reading
import CodeSplice.Patch.Run

namespace CodeSplice

/-- Add a feature to a source text of the given name. -/
def Feature.addTo (feature : Feature) (config : Config) (name text : String) : Except Fault Run :=
  match Document.ofSource name text with
  | .error fault => .error fault
  | .ok document => patch document (feature.plan config) config.target.className

end CodeSplice
