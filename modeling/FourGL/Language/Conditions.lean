import FourGL.Language.Declaring

/-!
# Search conditions

Search conditions have an expression grammar of their own, in which program variables look like
columns.
-/

namespace FourGL.Language

open Rule

/-- Conditions and the expressions in them. -/
def conditionRules : List RuleDeclaration := [
  rule "condition" ((ref "logicalTerm").plusSep (keyword "or")),
  rule "logicalTerm" ((ref "logicalFactor").plusSep (keyword "and")),
  rule "logicalFactor" (alt [
    seq [ref "sqlExpression", (keyword "not").opt, keyword "in", ref "expressionSet"],
    seq [
      ref "sqlExpression", (keyword "not").opt, alt [keyword "like", keyword "matches"],
      ref "sqlExpression", (seq [keyword "escape", ref "StringLiteral"]).opt],
    seq [
      ref "sqlExpression", (keyword "not").opt, keyword "between", ref "sqlExpression",
      keyword "and", ref "sqlExpression"],
    seq [ref "sqlExpression", keyword "is", (keyword "not").opt, keyword "null"],
    ref "quantifiedFactor", seq [keyword "not", ref "logicalFactor"],
    seq [symbol "(", ref "condition", symbol ")"],
    seq [ref "sqlExpression", ref "relationalOperator", ref "sqlExpression"], ref "sqlExpression"]),
  rule "quantifiedFactor" (alt [
    seq [
      ref "sqlExpression", ref "relationalOperator",
      alt [keyword "all", keyword "any", keyword "some"], ref "subquery"],
    seq [keyword "exists", ref "subquery"]]),
  transient "expressionSet" (alt [
    seq [symbol "(", ref "sqlExpressionList", symbol ")"], ref "subquery"]),
  rule "subquery" (seq [symbol "(", ref "simpleSelectStatement", symbol ")"]),
  rule "sqlExpression" ((ref "sqlTerm").plusSep (alt [symbol "+", symbol "-"])),
  rule "sqlTerm" ((ref "sqlFactor").plusSep (alt [symbol "*", symbol "/"])),
  rule "sqlFactor" ((ref "sqlFactor2").plusSep (symbol "||")),
  rule "sqlFactor2" (alt [
    seq [ref "sqlVariable", (seq [keyword "units", ref "unitType"]).opt],
    seq [ref "sqlLiteral", (seq [keyword "units", ref "unitType"]).opt],
    seq [
      ref "groupFunction", symbol "(", (alt [symbol "*", keyword "all", keyword "distinct"]).opt,
      (ref "sqlExpressionList").opt, symbol ")"],
    seq [ref "sqlFunction", symbol "(", ref "sqlExpressionList", symbol ")"],
    seq [alt [symbol "+", symbol "-"], ref "sqlFactor2"],
    seq [symbol "(", ref "sqlExpression", symbol ")"], ref "subquery"]),
  rule "sqlExpressionList" ((ref "sqlExpression").plusSep (symbol ",")),
  rule "sqlLiteral" (alt [
    ref "Number", ref "StringLiteral", keyword "null", keyword "true", keyword "false",
    seq [keyword "current", (ref "datetimeQualifier").opt]]),
  rule "sqlVariable" (ref "columnsTableId"),
  transient "groupFunction" (alt [
    keyword "avg", keyword "count", keyword "max", keyword "min", keyword "sum"]),
  transient "sqlFunction" (alt [
    keyword "mod", keyword "length", keyword "year", keyword "month", keyword "day",
    keyword "date", keyword "decode", keyword "nvl", ref "constantIdentifier"])]

end FourGL.Language
