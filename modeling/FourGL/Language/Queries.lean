import FourGL.Language.Declaring

/-!
# Queries

Selections, and statements that insert, update, delete, load and unload rows.
-/

namespace FourGL.Language

open Rule

/-- Selections. -/
def selectionRules : List RuleDeclaration := [
  transient "dataManipulationStatement" (alt [
    ref "sqlInsertStatement", ref "sqlDeleteStatement", ref "sqlSelectStatement",
    ref "sqlUpdateStatement", ref "sqlLoadStatement", ref "sqlUnloadStatement"]),
  rule "sqlSelectStatement" (seq [
    ref "headSelectStatement", (seq [keyword "into", ref "variableList"]).opt,
    ref "fromSelectStatement", (ref "whereStatement").opt, (ref "groupByStatement").opt,
    (ref "havingStatement").opt, (ref "unionSelectStatement").opt, (ref "orderbyStatement").opt,
    (seq [keywords "into temp", ref "Identifier"]).opt, (keywords "with no log").opt]),
  rule "simpleSelectStatement" (seq [
    ref "headSelectStatement", ref "fromSelectStatement", (ref "whereStatement").opt,
    (ref "groupByStatement").opt, (ref "havingStatement").opt, (ref "unionSelectStatement").opt]),
  rule "headSelectStatement" (seq [
    keyword "select", (alt [keyword "all", keyword "distinct", keyword "unique"]).opt,
    ref "selectList"]),
  rule "selectList" ((ref "selectItem").plusSep (symbol ",")),
  rule "selectItem" (alt [symbol "*", seq [ref "sqlExpression", (ref "sqlAlias").opt]]),
  rule "sqlAlias" (alt [seq [keyword "as", ref "Identifier"], ref "Identifier"]),
  rule "fromSelectStatement" (seq [
    keyword "from", (ref "fromTableExpression").plusSep (symbol ",")]),
  rule "fromTableExpression" (alt [
    seq [(keyword "outer").opt, ref "tableIdentifier", (ref "sqlAlias").opt],
    seq [symbol "(", ref "simpleSelectStatement", symbol ")", (ref "sqlAlias").opt]]),
  rule "whereStatement" (seq [keyword "where", ref "condition"]),
  rule "groupByStatement" (seq [keywords "group by", ref "sqlExpressionList"]),
  rule "havingStatement" (seq [keyword "having", ref "condition"]),
  rule "unionSelectStatement" (seq [
    keyword "union", (keyword "all").opt, ref "simpleSelectStatement"]),
  rule "orderbyStatement" (seq [
    keywords "order by", (ref "orderbyColumn").plusSep (symbol ",")]),
  rule "orderbyColumn" (seq [ref "sqlExpression", (alt [keyword "asc", keyword "desc"]).opt])]

/-- Statements that change rows. -/
def modificationRules : List RuleDeclaration := [
  rule "tableIdentifier" (alt [
    seq [
      ref "constantIdentifier", symbol "@", ref "constantIdentifier", symbol ":",
      ref "constantIdentifier"],
    seq [ref "constantIdentifier", symbol ":", ref "constantIdentifier"],
    ref "constantIdentifier"]),
  rule "columnsTableId" (seq [
    ref "tableIdentifier", (ref "indexingVariable").opt,
    (seq [symbol ".", alt [symbol "*", ref "columnsTableId"]]).opt]),
  rule "columnsList" ((ref "columnsTableId").plusSep (symbol ",")),
  rule "sqlInsertStatement" (seq [
    keywords "insert into", ref "tableIdentifier",
    (seq [symbol "(", ref "columnsList", symbol ")"]).opt,
    alt [
      seq [keyword "values", symbol "(", ref "sqlExpressionList", symbol ")"],
      ref "simpleSelectStatement"]]),
  rule "sqlUpdateStatement" (seq [
    keyword "update", ref "tableIdentifier", keyword "set",
    alt [
      (ref "columnAssignment").plusSep (symbol ","),
      seq [
        alt [seq [symbol "(", ref "columnsList", symbol ")"], symbol "*"], symbol "=",
        symbol "(", ref "sqlExpressionList", symbol ")"]],
    (ref "positionedWhere").opt]),
  rule "columnAssignment" (seq [ref "columnsTableId", symbol "=", ref "sqlExpression"]),
  rule "sqlDeleteStatement" (seq [
    keywords "delete from", ref "tableIdentifier", (ref "positionedWhere").opt]),
  rule "positionedWhere" (seq [
    keyword "where", alt [seq [keywords "current of", ref "cursorName"], ref "condition"]]),
  rule "sqlLoadStatement" (seq [
    keywords "load from", ref "fileSpecification",
    (seq [keyword "delimiter", ref "fileSpecification"]).opt,
    alt [
      ref "sqlInsertStatement",
      seq [
        keywords "insert into", ref "tableIdentifier",
        (seq [symbol "(", ref "columnsList", symbol ")"]).opt]]]),
  rule "sqlUnloadStatement" (seq [
    keywords "unload to", ref "fileSpecification",
    (seq [keyword "delimiter", ref "fileSpecification"]).opt, ref "sqlSelectStatement"]),
  transient "fileSpecification" (alt [ref "variable", ref "StringLiteral"])]

end FourGL.Language
