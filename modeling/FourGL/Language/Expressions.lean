import FourGL.Language.Declaring

/-!
# Expressions

The shape of the rules gives precedence, the loosest first: disjunction, conjunction, negation,
comparison, concatenation, addition, multiplication, signs, and last the operators that follow
their operand. Every level but `expression` itself is transient, so a plain operand stands without
a chain of nodes around it.

Some reserved words still name variables or functions inside expressions.
-/

namespace FourGL.Language

open Rule

/-- The levels of precedence. -/
def operatorRules : List RuleDeclaration := [
  rule "expression" (ref "orExpression"),
  rule "expressionList" ((ref "expression").plusSep (symbol ",")),
  transient "orExpression" (alt [
    seq [ref "orExpression", keyword "or", ref "andExpression"], ref "andExpression"]),
  transient "andExpression" (alt [
    seq [ref "andExpression", keyword "and", ref "notExpression"], ref "notExpression"]),
  transient "notExpression" (alt [
    seq [keyword "not", ref "notExpression"], ref "comparisonExpression"]),
  transient "comparisonExpression" (alt [
    seq [ref "concatExpression", ref "relationalOperator", ref "concatExpression"],
    seq [ref "concatExpression", keyword "is", (keyword "not").opt, keyword "null"],
    seq [
      ref "concatExpression", (keyword "not").opt, alt [keyword "like", keyword "matches"],
      ref "concatExpression", (seq [keyword "escape", ref "concatExpression"]).opt],
    seq [
      ref "concatExpression", (keyword "not").opt, keyword "between", ref "concatExpression",
      keyword "and", ref "concatExpression"],
    seq [
      ref "concatExpression", (keyword "not").opt, keyword "in", symbol "(",
      ref "expressionList", symbol ")"],
    ref "concatExpression"]),
  transient "relationalOperator" (alt [
    symbol "=", symbol "==", symbol "!=", symbol "<>", symbol "<", symbol "<=", symbol ">",
    symbol ">="]),
  transient "concatExpression" (alt [
    seq [ref "concatExpression", symbol "||", ref "additiveExpression"], ref "additiveExpression"]),
  transient "additiveExpression" (alt [
    seq [ref "additiveExpression", alt [symbol "+", symbol "-"], ref "multiplicativeExpression"],
    ref "multiplicativeExpression"]),
  transient "multiplicativeExpression" (alt [
    seq [
      ref "multiplicativeExpression", alt [symbol "*", symbol "/", keyword "mod"],
      ref "unaryExpression"],
    ref "unaryExpression"]),
  transient "unaryExpression" (alt [
    seq [alt [symbol "+", symbol "-"], ref "unaryExpression"], ref "postfixExpression"]),
  transient "postfixExpression" (alt [
    seq [ref "postfixExpression", keyword "clipped"],
    seq [ref "postfixExpression", keyword "using", ref "primaryExpression"],
    seq [ref "postfixExpression", keyword "units", ref "unitType"], ref "primaryExpression"]),
  transient "primaryExpression" (alt [
    ref "literal", ref "memberAccess", ref "aggregateExpression", ref "parenthesizedExpression",
    ref "currentExpression"])]

/-- Operands, and the names that may stand for one. -/
def operandRules : List RuleDeclaration := [
  rule "literal" (alt [
    ref "Number", ref "StringLiteral", keyword "true", keyword "false", keyword "null"]),
  rule "parenthesizedExpression" (seq [symbol "(", ref "expression", symbol ")"]),
  rule "currentExpression" (seq [keyword "current", (ref "datetimeQualifier").opt]),
  rule "aggregateExpression" (seq [
    (keyword "group").opt, ref "aggregateFunction", symbol "(",
    alt [symbol "*", ref "expression"], symbol ")"]),
  transient "aggregateFunction" (alt [
    keyword "count", keyword "sum", keyword "avg", keyword "min", keyword "max",
    keyword "percent"]),
  rule "memberAccess" (seq [ref "functionIdentifier", (ref "memberAccessSegment").star]),
  rule "memberAccessSegment" (alt [
    seq [symbol ".", alt [ref "functionIdentifier", symbol "*"]], ref "arrayIndexer",
    ref "argumentList"]),
  rule "argumentList" (seq [symbol "(", (ref "expressionList").opt, symbol ")"]),
  rule "arrayIndexer" (seq [symbol "[", ref "expressionList", symbol "]"]),
  rule "constantIdentifier" (alt [
    ref "Identifier", keyword "status", keyword "int_flag", keyword "quit_flag", keyword "today",
    keyword "user", keyword "lineno", keyword "pageno", keyword "notfound", keyword "sqlca"]),
  transient "functionIdentifier" (alt [
    ref "constantIdentifier", keyword "day", keyword "year", keyword "month", keyword "date",
    keyword "extend", keyword "infield", keyword "length", keyword "mdy", keyword "weekday",
    keyword "ascii"])]

end FourGL.Language
