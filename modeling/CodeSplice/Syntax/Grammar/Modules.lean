/-
Module: CodeSplice.Syntax.Grammar.Modules
Purpose: The productions of a source file, and of what it imports and exports.
Main exports: modules
-/
import CodeSplice.Syntax.Grammar.Words

namespace CodeSplice.Syntax.TypeScript

open Body Phrase Production

/-- The productions of export statements. -/
def exports : List Production :=
  [plain exportStatement
      (all
        ["export",
          any
            [all ["*", fromClause], all [namespaceExport, fromClause], all [exportClause, fromClause],
              exportClause],
          semicolon]),
    plain exportStatement
      (all
        [opt decorators, "export",
          any
            [declaration,
              all ["default", any [declaration, all [expression, semicolon]]]]]),
    plain exportStatement (all ["export", "type", exportClause, opt fromClause, semicolon]),
    plain exportStatement (all ["export", "import", importAlias]),
    plain exportStatement (all ["export", "=", expression, semicolon]),
    plain exportStatement (all ["export", "as", "namespace", word, semicolon]),
    plain namespaceExport (all ["*", "as", exportedName]),
    plain exportClause
      (all ["\x7b", opt (all [exportSpecifier, opt moreExportSpecifiers]), opt ",", "\x7d"]),
    plain exportSpecifier
      (all [opt (any ["type", "typeof"]), exportedName, opt (all ["as", exportedName])])]
    ++ choices exportedName [word, string]
    ++ repeated moreExportSpecifiers (all [",", exportSpecifier])

/-- The productions of import statements. -/
def imports : List Production :=
  [plain importWord "import",
    plain importStatement
      (all
        ["import", opt (any ["type", "typeof"]),
          any [all [importClause, fromClause], requireClause, string],
          opt importAttributes, semicolon]),
    plain importClause
      (any
        [namespaceImport, namedImports,
          all [importedName, opt (all [",", any [namespaceImport, namedImports]])]]),
    plain fromClause (all ["from", string]),
    plain namespaceImport (all ["*", "as", word]),
    plain namedImports
      (all ["\x7b", opt (all [importSpecifier, opt moreImportSpecifiers]), opt ",", "\x7d"]),
    plain importSpecifier
      (all
        [opt (any ["type", "typeof"]),
          any [importedName, all [any [exportedName, "type"], "as", importedName]]]),
    plain importAttributes (all [any ["with", "assert"], object]),
    plain requireClause (all [word, "=", "require", "(", string, ")"]),
    plain importAlias (all ["import", word, "=", any [word, nestedName], semicolon])]
    ++ choices importedName [word, "type"]
    ++ repeated moreImportSpecifiers (all [",", importSpecifier])

/-- The productions of source files and modules. -/
def modules : List Production :=
  [plain sourceFile
      (all [opt TokenKind.interpreter, opt statements, TokenKind.endOfText])]
    ++ exports ++ imports

end CodeSplice.Syntax.TypeScript
