import FourGL.Language.Declaring

/-!
# Procedural statements

Statements may carry a label and end with a semicolon. The command of a `RUN` statement is read
below the level of comparisons, so that `IN FORM MODE` after it is not taken for a membership test.
-/

namespace FourGL.Language

open Rule

/-- Statement sequences, assignments and calls. -/
def simpleStatementRules : List RuleDeclaration := [
  rule "codeBlock" (ref "statementOrDbDeclaration").plus,
  transient "statementOrDbDeclaration" (alt [ref "statement", ref "databaseDeclaration"]),
  rule "statement" (seq [(ref "label").opt, ref "unlabelledStatement"]),
  rule "label" (seq [ref "Identifier", symbol ":"]),
  transient "unlabelledStatement" (alt [ref "simpleStatement", ref "structuredStatement"]),
  transient "simpleStatement" (alt [
    ref "assignmentStatement", ref "procedureStatement", ref "sqlStatement",
    ref "otherFGLStatement", ref "menuInsideStatement", ref "displayInsideStatement",
    ref "inputOrConstructInsideStatement"]),
  rule "assignmentStatement" (seq [
    keyword "let", ref "variable", symbol "=", ref "expressionList"]),
  rule "procedureStatement" (seq [
    keyword "call", ref "memberAccess", (seq [keyword "returning", ref "variableList"]).opt]),
  rule "variable" (seq [
    ref "componentVariable", (seq [ref "thru", ref "componentVariable"]).opt]),
  rule "thru" (alt [keyword "through", keyword "thru"]),
  rule "componentVariable" (seq [
    ref "constantIdentifier", (ref "indexingVariable").opt,
    (seq [symbol ".", alt [symbol "*", ref "componentVariable"]]).opt]),
  rule "indexingVariable" (seq [symbol "[", ref "expressionList", symbol "]"]),
  rule "variableList" ((ref "variable").plusSep (symbol ","))]

/-- Conditions, loops and jumps. -/
def structuredStatementRules : List RuleDeclaration := [
  transient "structuredStatement" (alt [ref "conditionalStatement", ref "repetitiveStatement"]),
  transient "conditionalStatement" (alt [ref "ifStatement", ref "caseStatement"]),
  rule "ifStatement" (seq [
    keyword "if", ref "expression", keyword "then", (ref "codeBlock").opt,
    (ref "elseClause").opt, keywords "end if"]),
  rule "elseClause" (seq [keyword "else", (ref "codeBlock").opt]),
  rule "caseStatement" (seq [
    keyword "case", (ref "expression").opt, (ref "whenClause").star, (ref "otherwiseClause").opt,
    keywords "end case"]),
  rule "whenClause" (seq [keyword "when", ref "expression", (ref "codeBlock").opt]),
  rule "otherwiseClause" (seq [keyword "otherwise", (ref "codeBlock").opt]),
  transient "repetitiveStatement" (alt [
    ref "whileStatement", ref "forEachStatement", ref "forStatement"]),
  rule "whileStatement" (seq [
    keyword "while", ref "expression", (ref "codeBlock").opt, keywords "end while"]),
  rule "forStatement" (seq [
    keyword "for", ref "controlVariable", symbol "=", ref "expression", keyword "to",
    ref "expression", (seq [keyword "step", ref "expression"]).opt, (ref "codeBlock").opt,
    keywords "end for"]),
  rule "controlVariable" (ref "constantIdentifier"),
  rule "forEachStatement" (seq [
    keyword "foreach", ref "cursorName", (seq [keyword "using", ref "variableList"]).opt,
    (seq [keyword "into", ref "variableList"]).opt, (keywords "with reoptimization").opt,
    (ref "codeBlock").opt, keywords "end foreach"]),
  transient "otherFGLStatement" (alt [
    ref "otherProgramFlowStatement", ref "otherStorageStatement", ref "reportStatement",
    ref "screenStatement"]),
  transient "otherProgramFlowStatement" (alt [
    ref "runStatement", ref "gotoStatement", ref "sleepStatement", ref "exitStatement",
    ref "continueStatement", ref "returnStatement"]),
  rule "runStatement" (seq [
    keyword "run", ref "concatExpression",
    (alt [keywords "in form mode", keywords "in line mode"]).opt,
    (alt [keywords "without waiting", seq [keyword "returning", ref "variable"]]).opt]),
  rule "gotoStatement" (seq [keyword "goto", (symbol ":").opt, ref "Identifier"]),
  rule "sleepStatement" (seq [keyword "sleep", ref "expression"]),
  rule "exitStatement" (alt [
    seq [keyword "exit", ref "exitTypes"], seq [keywords "exit program", (ref "expression").opt]]),
  rule "continueStatement" (seq [keyword "continue", ref "exitTypes"]),
  rule "exitTypes" (alt [
    keyword "foreach", keyword "for", keyword "case", keyword "report", keyword "while"]),
  rule "returnStatement" (seq [keyword "return", (ref "expressionList").opt]),
  rule "otherStorageStatement" (alt [
    seq [keywords "allocate array", ref "Identifier", ref "arrayIndexer"],
    seq [
      keyword "locate", ref "variableList", keyword "in",
      alt [keyword "memory", seq [keyword "file", (ref "expression").opt]]],
    seq [keywords "deallocate array", ref "Identifier"],
    seq [keywords "resize array", ref "Identifier", ref "arrayIndexer"],
    seq [keyword "free", ref "variableList"],
    seq [
      keyword "initialize", ref "variableList",
      alt [keywords "to null", seq [keyword "like", ref "expressionList"]]],
    seq [keyword "validate", ref "variableList", keyword "like", ref "expressionList"]])]

end FourGL.Language
