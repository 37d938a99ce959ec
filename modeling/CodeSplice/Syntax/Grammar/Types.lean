/-
Module: CodeSplice.Syntax.Grammar.Types
Purpose: The productions of types, and of the declarations that give names to types.
Main exports: typeProductions
-/
import CodeSplice.Syntax.Grammar.Words

namespace CodeSplice.Syntax.TypeScript

open Body Phrase Production

/-- The productions of declarations that hold no values. -/
def typeDeclarations : List Production :=
  [plain ambientDeclaration
      (all
        ["declare",
          any
            [declaration, all ["global", block],
              all ["module", ".", word, ":", typing, semicolon]]]),
    plain moduleDeclaration (all ["module", moduleContents]),
    plain namespaceDeclaration (all ["namespace", moduleContents]),
    right moduleContents default (all [any [string, word, nestedName], opt block]),
    ranked nestedName Level.member (all [any [word, nestedName], ".", word]),
    ranked nestedTypeName Level.member (all [any [word, nestedName], ".", word]),
    plain interfaceDeclaration
      (all ["interface", word, opt typeParameters, opt extendsTypeClause, objectType]),
    plain extendsTypeClause
      (all ["extends", any [word, nestedTypeName, genericType], opt moreExtendedTypes]),
    plain enumDeclaration (all [opt "const", "enum", word, enumBody]),
    plain enumBody
      (all
        ["\x7b", opt (all [any [propertyName, enumAssignment], opt moreEnumMembers, opt ","]),
          "\x7d"]),
    plain enumAssignment (all [propertyName, initializer]),
    plain typeAlias (all ["type", word, opt typeParameters, "=", typing, semicolon])]
    ++ repeated moreExtendedTypes (all [",", any [word, nestedTypeName, genericType]])
    ++ repeated moreEnumMembers (all [",", any [propertyName, enumAssignment]])

/-- The productions of ascriptions of types. -/
def ascriptions : List Production :=
  [plain omittingAscription (all ["-?:", typing]),
    plain addingAscription (all ["+?:", typing]),
    plain optingAscription (all ["?:", typing]),
    plain typeAscription (all [":", any [typing, importedTypeMember, importedTypeCall]]),
    plain importedTypeMember
      (all [any [importWord, importedTypeMember, importedTypeCall], ".", propertyWord]),
    plain importedTypeCall (all [any [importWord, importedTypeMember], arguments]),
    plain asserts (all ["asserts", any [typePredicate, word, "this"]]),
    plain assertsAscription (all [":", asserts]),
    plain typePredicate (all [any [word, "this", predefinedType], "is", typing]),
    plain typePredicateAscription (all [":", typePredicate])]

/-- The productions that say what a type is. -/
def typeKinds : List Production :=
  choices typing [primaryType, functionType, readonlyType, constructorType, inferType]
    ++ [ranked typing (.number (-1)) importedTypeMember,
      ranked typing (.number (-1)) importedTypeCall]
    ++ choices primaryType
      [parenthesizedType, predefinedType, word, nestedTypeName, genericType, objectType, arrayType,
        tupleType, maybeType, typeQuery, indexTypeQuery, "this", existentialType, literalType,
        lookupType, conditionalType, templateType, intersectionType, unionType, "const"]
    ++ choices predefinedType
      ["any", "number", "boolean", "string", "symbol", all ["unique", "symbol"], "void", "unknown",
        "never", "object"]
    ++ choices literalType
      [signedNumber, TokenKind.number, string, "true", "false", "null", "undefined"]
    ++ [left signedNumber (.number 1) (all [any ["-", "+"], TokenKind.number])]

/-- The productions of types that are made from other types. -/
def compoundTypes : List Production :=
  [left constructorType default
      (all [opt "abstract", "new", opt typeParameters, formalParameters, "=>", typing]),
    left functionType default
      (all
        [opt typeParameters, formalParameters, "=>", any [typing, asserts, typePredicate]]),
    right inferType default (all ["infer", word, opt (all ["extends", typing])]),
    left conditionalType default (all [typing, "extends", typing, "?", typing, ":", typing]),
    ranked genericType Level.call (all [any [word, nestedTypeName], typeArguments]),
    plain indexTypeQuery (all ["keyof", primaryType]),
    plain lookupType (all [primaryType, "[", typing, "]"]),
    plain arrayType (all [primaryType, "[", "]"]),
    plain existentialType "*",
    right maybeType default (all ["?", primaryType]),
    plain parenthesizedType (all ["(", typing, ")"]),
    plain readonlyType (all ["readonly", typing]),
    left unionType default (all [opt typing, "|", typing]),
    left intersectionType default (all [opt typing, "&", typing]),
    plain templateTypePart (all ["$\x7b", any [primaryType, inferType], "\x7d"]),
    plain templateType (all ["\x60", opt templateTypeParts, "\x60"])]
    ++ repeated templateTypeParts (any [TokenKind.templateText, templateTypePart])

/-- The productions of tuple types. -/
def tuples : List Production :=
  [plain tupleType (all ["[", opt (all [tupleMember, opt moreTupleMembers]), opt ",", "]"]),
    plain tupleParameter (all [any [word, restPattern], typeAscription]),
    plain optionalTupleParameter (all [word, "?", typeAscription]),
    plain optionalType (all [typing, "?"]),
    plain restType (all ["...", typing])]
    ++ choices tupleMember
      [tupleParameter, optionalTupleParameter, optionalType, restType, typing]
    ++ repeated moreTupleMembers (all [",", tupleMember])

/-- The productions of the types of values. -/
def queries : List Production :=
  [right typeQuery default
      (all
        ["typeof",
          any [queriedSubscript, queriedMember, queriedCall, queriedInstantiation, word, "this"]]),
    plain queriedMember
      (all
        [any [word, "this", queriedSubscript, queriedMember, queriedCall], any [".", "?."],
          propertyWord]),
    plain queriedSubscript
      (all
        [any [word, "this", queriedSubscript, queriedMember, queriedCall], opt "?.", "[",
          any [predefinedType, string, TokenKind.number], "]"]),
    plain queriedCall
      (all [any [importWord, word, queriedMember, queriedSubscript], arguments]),
    plain queriedInstantiation
      (all [any [importWord, word, queriedMember, queriedSubscript], typeArguments])]

/-- The productions of type parameters and type arguments. -/
def typeLists : List Production :=
  [plain typeArguments (all ["<", typing, opt moreTypes, opt ",", ">"]),
    plain typeParameters (all ["<", typeParameter, opt moreTypeParameters, opt ",", ">"]),
    plain typeParameter (all [opt "const", word, opt typeBound, opt defaultType]),
    plain defaultType (all ["=", typing]),
    plain typeBound (all [any ["extends", ":"], typing])]
    ++ repeated moreTypes (all [",", typing])
    ++ repeated moreTypeParameters (all [",", typeParameter])

/-- A member of an object type. -/
def typeMember : Body :=
  any
    [exportStatement, propertySignature, callSignature, constructSignature, indexSignature,
      methodSignature]

/-- The productions of object types. -/
def objectTypes : List Production :=
  [plain objectType
      (all
        [any ["\x7b", "\x7b|"],
          opt
            (all
              [opt (any [",", ";"]), typeMember, opt moreSignatures,
                opt (any [",", semicolon])]),
          any ["\x7d", "|\x7d"]]),
    plain callSignature signature,
    plain propertySignature
      (all
        [opt accessibility, opt "static", opt overrideModifier, opt "readonly", propertyName, opt "?",
          opt typeAscription]),
    plain constructSignature
      (all [opt "abstract", "new", opt typeParameters, formalParameters, opt typeAscription]),
    plain indexSignature
      (all
        [opt (all [opt (any ["-", "+"]), "readonly"]), "[",
          any [all [name, ":", typing], mappedClause], "]",
          any [typeAscription, omittingAscription, addingAscription, optingAscription]]),
    plain mappedClause (all [word, "in", typing, opt (all ["as", typing])])]
    ++ repeated moreSignatures (all [any [",", semicolon], typeMember])

/-- The productions of types. -/
def typeProductions : List Production :=
  typeDeclarations ++ ascriptions ++ typeKinds ++ compoundTypes ++ tuples ++ queries ++ typeLists
    ++ objectTypes

end CodeSplice.Syntax.TypeScript
