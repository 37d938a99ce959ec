/-
Module: CodeSplice.Syntax.Phrase
Purpose: The phrases of TypeScript, that is, the parts of a source file that have rules of their own.
  Their order decides between two readings of a text when nothing else does: the phrase that comes
  first here is preferred.
Main exports: Phrase
-/

namespace CodeSplice.Syntax

/-- The phrases of TypeScript. -/
inductive Phrase where
  | sourceFile
  /- Modules. -/
  | exportStatement
  | namespaceExport
  | exportClause
  | exportSpecifier
  | exportedName
  | declaration
  | importWord
  | importStatement
  | importClause
  | fromClause
  | namespaceImport
  | namedImports
  | importSpecifier
  | importAttributes
  /- Statements. -/
  | statement
  | expressionStatement
  | variableStatement
  | lexicalDeclaration
  | variableDeclarator
  | block
  | elseClause
  | ifStatement
  | switchStatement
  | forStatement
  | forInStatement
  | forHeader
  | whileStatement
  | doStatement
  | tryStatement
  | withStatement
  | breakStatement
  | continueStatement
  | debuggerStatement
  | returnStatement
  | throwStatement
  | emptyStatement
  | labeledStatement
  | switchBody
  | switchCase
  | switchDefault
  | catchClause
  | finallyClause
  /- Expressions. -/
  | parenthesized
  | expression
  | primary
  | yieldExpression
  | object
  | objectPattern
  | assignmentPattern
  | objectAssignmentPattern
  | array
  | arrayPattern
  | nestedName
  | classExpression
  | classDeclaration
  | classHeritage
  | functionExpression
  | functionDeclaration
  | generatorFunction
  | generatorDeclaration
  | arrowFunction
  | optionalChain
  | call
  | newExpression
  | awaitExpression
  | member
  | subscript
  | assignment
  | augmentedTarget
  | augmentedAssignment
  | initializer
  | destructuring
  | spread
  | ternary
  | binary
  | unary
  | update
  | sequence
  | string
  | template
  | substitution
  | regex
  | metaProperty
  | arguments
  /- Classes and functions. -/
  | decorator
  | decoratorMember
  | decoratorCall
  | classBody
  | formalParameters
  | staticBlock
  | pattern
  | restPattern
  | methodDefinition
  | pair
  | pairPattern
  | propertyName
  | computedName
  | fieldDefinition
  | importedName
  | nonNull
  | methodSignature
  | abstractMethodSignature
  | formalParameter
  | functionSignature
  | decoratorParenthesized
  /- Expressions with types, and declarations of types. -/
  | typeAssertion
  | asExpression
  | satisfiesExpression
  | instantiation
  | requireClause
  | extendsClause
  | extendsOperand
  | implementsClause
  | ambientDeclaration
  | abstractClassDeclaration
  | moduleDeclaration
  | namespaceDeclaration
  | moduleContents
  | importAlias
  | nestedTypeName
  | interfaceDeclaration
  | extendsTypeClause
  | enumDeclaration
  | enumBody
  | enumAssignment
  | typeAlias
  | accessibility
  | overrideModifier
  | requiredParameter
  | optionalParameter
  | parameterName
  | omittingAscription
  | addingAscription
  | optingAscription
  | typeAscription
  | importedTypeMember
  | importedTypeCall
  | asserts
  | assertsAscription
  /- Types. -/
  | typing
  | tupleParameter
  | optionalTupleParameter
  | optionalType
  | restType
  | tupleMember
  | constructorType
  | primaryType
  | templateTypePart
  | templateType
  | inferType
  | conditionalType
  | genericType
  | typePredicate
  | typePredicateAscription
  | queriedMember
  | queriedSubscript
  | queriedCall
  | queriedInstantiation
  | typeQuery
  | indexTypeQuery
  | lookupType
  | mappedClause
  | literalType
  | signedNumber
  | existentialType
  | maybeType
  | parenthesizedType
  | predefinedType
  | typeArguments
  | objectType
  | callSignature
  | propertySignature
  | signature
  | typeParameters
  | typeParameter
  | defaultType
  | typeBound
  | constructSignature
  | indexSignature
  | arrayType
  | tupleType
  | readonlyType
  | unionType
  | intersectionType
  | functionType
  /- Sequences of like parts. -/
  | statements
  | decorators
  | moreExportSpecifiers
  | moreImportSpecifiers
  | moreDeclarators
  | switchClauses
  | moreProperties
  | morePropertyPatterns
  | moreElements
  | moreElementPatterns
  | moreExpressions
  | doubleQuotedParts
  | singleQuotedParts
  | templateParts
  | classElements
  | moreParameters
  | moreExtendsOperands
  | moreTypes
  | moreExtendedTypes
  | moreEnumMembers
  | templateTypeParts
  | moreSignatures
  | moreTypeParameters
  | moreTupleMembers
deriving DecidableEq, Repr, Inhabited

end CodeSplice.Syntax
