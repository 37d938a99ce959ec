/-
Module: CodeSplice.Syntax.Grammar.Statements
Purpose: The productions of statements and of the declarations that bind names to values.
Main exports: statementProductions
-/
import CodeSplice.Syntax.Grammar.Words

namespace CodeSplice.Syntax.TypeScript

open Body Phrase Production

/-- The productions that say what a statement and a declaration are. -/
def statementKinds : List Production :=
  choices declaration
      [functionDeclaration, generatorDeclaration, classDeclaration, lexicalDeclaration,
        variableStatement, functionSignature, abstractClassDeclaration, moduleDeclaration]
    ++ [ranked declaration Level.declare namespaceDeclaration]
    ++ choices declaration
      [typeAlias, enumDeclaration, interfaceDeclaration, importAlias, ambientDeclaration]
    ++ choices statement
      [exportStatement, importStatement, debuggerStatement, expressionStatement, declaration, block,
        ifStatement, switchStatement, forStatement, forInStatement, whileStatement, doStatement,
        tryStatement, withStatement, breakStatement, continueStatement, returnStatement,
        throwStatement, emptyStatement, labeledStatement]
    ++ repeated statements statement

/-- The productions of declarations of variables. -/
def declarations : List Production :=
  [plain variableStatement
      (all ["var", variableDeclarator, opt moreDeclarators, semicolon]),
    plain lexicalDeclaration
      (all [any ["let", "const"], variableDeclarator, opt moreDeclarators, semicolon]),
    plain variableDeclarator
      (all [any [word, destructuring], opt typeAscription, opt initializer]),
    ranked variableDeclarator Level.declare (all [word, "!", typeAscription]),
    plain initializer (all ["=", expression])]
    ++ repeated moreDeclarators (all [",", variableDeclarator])

/-- The productions of statements that branch. -/
def branches : List Production :=
  [plain elseClause (all ["else", statement]),
    right ifStatement default (all ["if", parenthesized, statement, opt elseClause]),
    plain switchStatement (all ["switch", parenthesized, switchBody]),
    plain switchBody (all ["\x7b", opt switchClauses, "\x7d"]),
    plain switchCase (all ["case", expressions, ":", opt statements]),
    plain switchDefault (all ["default", ":", opt statements]),
    plain tryStatement (all ["try", block, opt catchClause, opt finallyClause]),
    plain catchClause
      (all
        ["catch", opt (all ["(", any [word, destructuring], opt typeAscription, ")"]), block]),
    plain finallyClause (all ["finally", block])]
    ++ repeated switchClauses (any [switchCase, switchDefault])

/-- The productions of loops. -/
def loops : List Production :=
  [plain forStatement
      (all
        ["for", "(",
          any
            [any [lexicalDeclaration, variableStatement], all [expressions, ";"], emptyStatement],
          any [all [expressions, ";"], emptyStatement],
          opt expressions, ")", statement]),
    plain forInStatement (all ["for", opt "await", forHeader, statement]),
    plain forHeader
      (all
        ["(",
          any
            [any [assignable, parenthesized],
              all ["var", any [word, destructuring], opt initializer],
              all [any ["let", "const"], any [word, destructuring], opt lineEnd]],
          any ["in", "of"], expressions, ")"]),
    plain whileStatement (all ["while", parenthesized, statement]),
    right doStatement default (all ["do", statement, "while", parenthesized, opt semicolon])]

/-- The productions of the other statements. -/
def simpleStatements : List Production :=
  [plain expressionStatement (all [expressions, semicolon]),
    right block default (all ["\x7b", opt statements, "\x7d", opt lineEnd]),
    plain withStatement (all ["with", parenthesized, statement]),
    plain breakStatement (all ["break", opt word, semicolon]),
    plain continueStatement (all ["continue", opt word, semicolon]),
    plain debuggerStatement (all ["debugger", semicolon]),
    plain returnStatement (all ["return", opt expressions, semicolon]),
    plain throwStatement (all ["throw", expressions, semicolon]),
    plain emptyStatement ";",
    unlikely labeledStatement (all [name, ":", statement])]

/-- The productions of statements. -/
def statementProductions : List Production :=
  statementKinds ++ declarations ++ branches ++ loops ++ simpleStatements

end CodeSplice.Syntax.TypeScript
