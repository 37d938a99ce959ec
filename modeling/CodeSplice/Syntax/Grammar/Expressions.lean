/-
Module: CodeSplice.Syntax.Grammar.Expressions
Purpose: The productions of expressions and of the patterns that take values apart.
Main exports: expressionProductions
-/
import CodeSplice.Syntax.Grammar.Words

namespace CodeSplice.Syntax.TypeScript

open Body Phrase Production

/-- The productions that say what an expression is. -/
def expressionKinds : List Production :=
  choices expression
      [asExpression, satisfiesExpression, instantiation, namespaceDeclaration, typeAssertion, primary,
        assignment, augmentedAssignment, awaitExpression, unary, binary, ternary, update,
        newExpression, yieldExpression]
    ++ choices primary
      [subscript, member, parenthesized, valueName, contextualWord, "this", "super",
        TokenKind.number, string, template, regex, "true", "false", "null", object, array,
        functionExpression, arrowFunction, generatorFunction, classExpression, metaProperty, call,
        nonNull]
    ++ [plain parenthesized
      (all ["(", any [all [expression, opt typeAscription], sequence], ")"]),
    plain sequence (all [expression, moreExpressions])]
    ++ repeated moreExpressions (all [",", expression])

/-- The productions of literals. -/
def literals : List Production :=
  [plain string (any [all ["\"", opt doubleQuotedParts, "\""], all ["'", opt singleQuotedParts, "'"]]),
    plain template (all ["\x60", opt templateParts, "\x60"]),
    plain substitution (all ["$\x7b", expressions, "\x7d"]),
    plain regex
      (all ["/", TokenKind.regexBody, TokenKind.regexEnd, opt TokenKind.regexFlags])]
    ++ repeated doubleQuotedParts (any [TokenKind.doubleText, TokenKind.escape])
    ++ repeated singleQuotedParts (any [TokenKind.singleText, TokenKind.escape])
    ++ repeated templateParts (any [TokenKind.templateText, TokenKind.escape, substitution])

/-- The productions of objects, arrays and the patterns that look like them. -/
def collections : List Production :=
  let property := opt (any [pair, spread, methodDefinition, name])
  let propertyPattern := opt (any [pairPattern, restPattern, objectAssignmentPattern, name])
  let element := opt (any [expression, spread])
  let elementPattern := opt (any [pattern, assignmentPattern])
  [ranked object Level.object
      (all ["\x7b", opt (all [property, opt moreProperties]), "\x7d"]),
    ranked objectPattern Level.object
      (all ["\x7b", opt (all [propertyPattern, opt morePropertyPatterns]), "\x7d"]),
    plain array (all ["[", opt (all [element, opt moreElements]), "]"]),
    plain arrayPattern (all ["[", opt (all [elementPattern, opt moreElementPatterns]), "]"]),
    plain arguments (all ["(", opt (all [element, opt moreElements]), ")"]),
    plain spread (all ["...", expression]),
    plain pair (all [propertyName, ":", expression]),
    plain pairPattern (all [propertyName, ":", any [pattern, assignmentPattern]]),
    plain assignmentPattern (all [pattern, "=", expression]),
    plain objectAssignmentPattern (all [any [name, destructuring], "=", expression]),
    unlikely pattern (any [assignable, restPattern]),
    right restPattern default (all ["...", assignable])]
    ++ choices destructuring [objectPattern, arrayPattern]
    ++ choices propertyName
      [name, TokenKind.privateName, string, TokenKind.number, computedName]
    ++ [plain computedName (all ["[", expression, "]"])]
    ++ repeated moreProperties (all [",", property])
    ++ repeated morePropertyPatterns (all [",", propertyPattern])
    ++ repeated moreElements (all [",", element])
    ++ repeated moreElementPatterns (all [",", elementPattern])

/-- The productions of calls, of property access and of the creation of objects. -/
def accesses : List Production :=
  [ranked call Level.call (all [any [expression, importWord], opt typeArguments, arguments]),
    ranked call Level.templateCall (all [any [primary, newExpression], template]),
    ranked call Level.member (all [primary, "?.", opt typeArguments, arguments]),
    right newExpression Level.construct
      (all ["new", primary, opt typeArguments, opt arguments]),
    ranked member Level.member
      (all [any [expression, primary, importWord], any [".", optionalChain], propertyWord]),
    right subscript Level.member
      (all [any [expression, primary], opt optionalChain, "[", expressions, "]"]),
    plain optionalChain "?.",
    plain metaProperty (any [all ["new", ".", "target"], all ["import", ".", "meta"]]),
    left nonNull Level.unary (all [expression, "!"])]

/-- The productions of assignments. -/
def assignments : List Production :=
  [right assignment Level.assign
      (all [opt "using", any [parenthesized, assignable], "=", expression]),
    right augmentedAssignment Level.assign
      (all
        [augmentedTarget,
          any
            ["+=", "-=", "*=", "/=", "%=", "^=", "&=", "|=", ">>=", ">>>=", "<<=", "**=", "&&=",
              "||=", "??="],
          expression])]
    ++ choices augmentedTarget [member, subscript, contextualWord, word, parenthesized, nonNull]

/-- An operator between two expressions that groups to the left. -/
def operator (level : Level) (text : String) : Production :=
  left binary level (all [expression, text, expression])

/-- The productions of operators. -/
def operators : List Production :=
  [operator .logicalAnd "&&", operator .logicalOr "||", operator .shift ">>", operator .shift ">>>",
    operator .shift "<<", operator .bitAnd "&", operator .bitXor "^", operator .bitOr "|",
    operator .plus "+", operator .plus "-", operator .times "*", operator .times "/",
    operator .times "%", right binary Level.power (all [expression, "**", expression]),
    operator .relation "<", operator .relation "<=", operator .equality "==",
    operator .equality "===", operator .equality "!=", operator .equality "!==",
    operator .relation ">=", operator .relation ">", operator .ternary "??",
    operator .relation "instanceof",
    left binary Level.relation
      (all [any [expression, TokenKind.privateName], "in", expression]),
    right ternary Level.ternary
      (all [expression, TokenKind.choiceMark, expression, ":", expression]),
    left unary Level.unaryVoid
      (all [any ["!", "~", "-", "+", "typeof", "void", "delete"], expression]),
    left update default (all [expression, any ["++", "--"]]),
    left update default (all [any ["++", "--"], expression]),
    ranked awaitExpression Level.unaryVoid (all ["await", expression]),
    right yieldExpression default
      (all ["yield", any [all ["*", expression], opt expression]])]

/-- The productions of expressions that speak of types. -/
def typedExpressions : List Production :=
  [left typeAssertion Level.unary (all [typeArguments, expression]),
    left asExpression Level.binary (all [expression, "as", any ["const", typing]]),
    left satisfiesExpression Level.binary (all [expression, "satisfies", typing]),
    ranked instantiation Level.instantiation (all [expression, typeArguments])]

/-- The productions of expressions. -/
def expressionProductions : List Production :=
  expressionKinds ++ literals ++ collections ++ accesses ++ assignments ++ operators
    ++ typedExpressions

end CodeSplice.Syntax.TypeScript
