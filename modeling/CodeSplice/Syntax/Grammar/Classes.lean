/-
Module: CodeSplice.Syntax.Grammar.Classes
Purpose: The productions of classes and their members, of functions and their parameters, and of
  decorators.
Main exports: classProductions
-/
import CodeSplice.Syntax.Grammar.Words

namespace CodeSplice.Syntax.TypeScript

open Body Phrase Production

/-- The mark of an accessor or of a generator method. -/
def accessorMark : Body :=
  any ["get", "set", "*"]

/-- The productions of classes. -/
def classes : List Production :=
  [ranked classExpression Level.literal
      (all [opt decorators, "class", opt word, opt typeParameters, opt classHeritage, classBody]),
    left classDeclaration Level.declare
      (all
        [opt decorators, "class", word, opt typeParameters, opt classHeritage, classBody,
          opt lineEnd]),
    ranked abstractClassDeclaration Level.declare
      (all
        [opt decorators, "abstract", "class", word, opt typeParameters, opt classHeritage,
          classBody]),
    plain classHeritage (any [all [extendsClause, opt implementsClause], implementsClause]),
    plain extendsClause (all ["extends", extendsOperand, opt moreExtendsOperands]),
    ranked extendsOperand Level.extending (all [expression, opt typeArguments]),
    plain implementsClause (all ["implements", typing, opt moreTypes]),
    plain classBody (all ["\x7b", opt classElements, "\x7d"])]
    ++ repeated moreExtendsOperands (all [",", extendsOperand])
    ++ repeated classElements
      (any
        [all [opt decorators, methodDefinition, opt semicolon],
          all [methodSignature, any [TokenKind.signatureEnd, ","]],
          staticBlock,
          all
            [any [abstractMethodSignature, indexSignature, methodSignature, fieldDefinition],
              any [semicolon, ","]],
          ";"])

/-- What stands in front of the parameters of a method. -/
def methodHead : Body :=
  all
    [opt accessibility, opt "static", opt overrideModifier, opt "readonly", opt "async",
      opt accessorMark, propertyName, opt "?"]

/-- The productions of the members of a class. -/
def members : List Production :=
  [plain staticBlock (all ["static", block]),
    left methodDefinition default (all [methodHead, signature, block]),
    plain methodSignature (all [methodHead, signature]),
    plain abstractMethodSignature
      (all
        [opt accessibility, "abstract", opt overrideModifier, opt accessorMark, propertyName, opt "?",
          signature]),
    plain fieldDefinition
      (all
        [opt decorators,
          opt (any [all ["declare", opt accessibility], all [accessibility, opt "declare"]]),
          any
            [all [opt "static", opt overrideModifier, opt "readonly"],
              all [opt "abstract", opt "readonly"], all [opt "readonly", opt "abstract"],
              opt "accessor"],
          propertyName, opt (any ["?", "!"]), opt typeAscription, opt initializer]),
    plain overrideModifier "override"]
    ++ choices accessibility ["public", "private", "protected"]

/-- The productions of functions. -/
def functions : List Production :=
  [ranked functionExpression Level.literal
      (all [opt "async", "function", opt word, signature, block]),
    right functionDeclaration Level.declare
      (all [opt "async", "function", word, signature, block, opt lineEnd]),
    ranked generatorFunction Level.literal
      (all [opt "async", "function", "*", opt word, signature, block]),
    right generatorDeclaration Level.declare
      (all [opt "async", "function", "*", word, signature, block, opt lineEnd]),
    plain functionSignature
      (all [opt "async", "function", word, signature, any [semicolon, TokenKind.signatureEnd]]),
    plain arrowFunction
      (all [opt "async", any [name, signature], "=>", any [expression, block]]),
    plain signature
      (all
        [opt typeParameters, formalParameters,
          opt (any [typeAscription, assertsAscription, typePredicateAscription])]),
    plain formalParameters
      (all ["(", opt (all [formalParameter, opt moreParameters, opt ","]), ")"]),
    plain requiredParameter (all [parameterName, opt typeAscription, opt initializer]),
    plain optionalParameter (all [parameterName, "?", opt typeAscription, opt initializer]),
    plain parameterName
      (all
        [opt decorators, opt accessibility, opt overrideModifier, opt "readonly",
          any [pattern, "this"]])]
    ++ choices formalParameter [requiredParameter, optionalParameter]
    ++ repeated moreParameters (all [",", formalParameter])

/-- The productions of decorators. -/
def decoration : List Production :=
  [plain decorator (all ["@", any [word, decoratorMember, decoratorCall, decoratorParenthesized]]),
    ranked decoratorMember Level.member (all [any [word, decoratorMember], ".", word]),
    ranked decoratorCall Level.call
      (all [any [word, decoratorMember], opt typeArguments, arguments]),
    plain decoratorParenthesized
      (all ["(", any [word, decoratorMember, decoratorCall], ")"])]
    ++ repeated decorators decorator

/-- The productions of classes, functions and decorators. -/
def classProductions : List Production :=
  classes ++ members ++ functions ++ decoration

end CodeSplice.Syntax.TypeScript
