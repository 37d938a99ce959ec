/-
Module: CodeSplice.Syntax.Grammar.TypeScript
Purpose: The grammar of TypeScript, put together from its parts, with the orders of precedence.
Main exports: typeScript
-/
import CodeSplice.Syntax.Grammar.Classes
import CodeSplice.Syntax.Grammar.Expressions
import CodeSplice.Syntax.Grammar.Modules
import CodeSplice.Syntax.Grammar.Statements
import CodeSplice.Syntax.Grammar.Types

namespace CodeSplice.Syntax.TypeScript

open Phrase

/-- The orders of precedence among expressions, statements and declarations. -/
def valueOrders : List (List Rank) :=
  [[Level.member, Level.templateCall, Level.call, update, Level.unaryVoid, Level.power, Level.times,
      Level.plus, Level.shift, Level.relation, Level.equality, Level.bitAnd, Level.bitXor,
      Level.bitOr, Level.logicalAnd, Level.logicalOr, Level.ternary, sequence, arrowFunction],
    [Level.assign, primary],
    [Level.member, Level.templateCall, Level.construct, Level.call, expression],
    [Level.declare, Level.literal],
    [primary, block, Level.object],
    [metaProperty, importWord],
    [importStatement, importWord],
    [exportStatement, primary],
    [lexicalDeclaration, primary]]

/-- The orders of precedence between types and operators. -/
def typeOperatorOrders : List (List Rank) :=
  [[Level.call, Level.instantiation, Level.unary, Level.binary, awaitExpression, arrowFunction],
    [Level.extending, Level.instantiation],
    [intersectionType, unionType, conditionalType, functionType, Level.binary, typePredicate,
      readonlyType],
    [Level.unaryVoid, expression],
    [Level.unary, Level.assign],
    [Level.declare, expression]]

/-- The orders of precedence between types, patterns and expressions that begin alike. -/
def typeOrders : List (List Rank) :=
  [[mappedClause, primary],
    [accessibility, primary],
    [extendsClause, primary],
    [predefinedType, unary],
    [typing, maybeType],
    [tupleType, arrayType, pattern, typing],
    [readonlyType, pattern],
    [readonlyType, primary],
    [nestedTypeName, genericType, primaryType, lookupType, indexTypeQuery, typing],
    [asExpression, satisfiesExpression, primaryType],
    [overrideModifier, primary],
    [decoratorCall, decorator],
    [literalType, pattern],
    [predefinedType, pattern],
    [newExpression, primary],
    [metaProperty, primary],
    [constructSignature, propertyName]]

/-- The orders of precedence between the types of values and the expressions that they look like. -/
def queryOrders : List (List Rank) :=
  [[typeQuery, subscript, expression],
    [typeQuery, queriedSubscript],
    [queriedMember, member],
    [member, importedTypeMember],
    [queriedMember, primary],
    [queriedSubscript, subscript],
    [queriedSubscript, primary],
    [queriedCall, primary],
    [queriedInstantiation, primary],
    [typeQuery, primary],
    [call, queriedCall],
    [call, importedTypeCall]]

end CodeSplice.Syntax.TypeScript

namespace CodeSplice.Syntax

/-- The grammar of TypeScript. -/
def typeScript : Grammar where
  productions :=
    TypeScript.modules ++ TypeScript.statementProductions ++ TypeScript.expressionProductions
      ++ TypeScript.classProductions ++ TypeScript.typeProductions
  goal := .sourceFile
  orders :=
    TypeScript.valueOrders ++ TypeScript.typeOperatorOrders ++ TypeScript.typeOrders
      ++ TypeScript.queryOrders

end CodeSplice.Syntax
