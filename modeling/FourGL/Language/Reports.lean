import FourGL.Language.Declaring

/-!
# Reports

The output, order and format sections of a report, and the statements inside and outside of it.
-/

namespace FourGL.Language

open Rule

/-- Sections and statements of reports. -/
def reportRules : List RuleDeclaration := [
  rule "outputReport" (seq [
    keyword "output", (seq [keywords "report to", ref "reportDestination"]).opt,
    (ref "reportDimensionSpecifier").star]),
  transient "reportDestination" (alt [
    ref "StringLiteral", seq [keyword "pipe", ref "StringLiteral"], keyword "printer"]),
  rule "reportDimensionSpecifier" (alt [
    seq [
      alt [keyword "left", keyword "right", keyword "top", keyword "bottom"], keyword "margin",
      ref "numericConstant"],
    seq [keywords "page length", ref "numericConstant"],
    seq [keywords "top of page", ref "StringLiteral"]]),
  rule "reportOrderBy" (seq [
    keyword "order", (keyword "external").opt, keyword "by", ref "variableList"]),
  rule "formatReport" (seq [
    keyword "format", alt [keywords "every row", (ref "reportCodeBlock").plus]]),
  rule "reportCodeBlock" (seq [ref "reportSection", ref "codeBlock"]),
  rule "reportSection" (alt [
    keywords "first page header", keywords "page header", keywords "page trailer",
    keywords "on every row", keywords "on last row",
    seq [alt [keyword "before", keyword "after"], keywords "group of", ref "variable"]]),
  transient "reportStatement" (alt [
    ref "startReportStatement", ref "terminateReportStatement", ref "finishReportStatement",
    ref "pauseStatement", ref "needStatement", ref "printStatement", ref "skipStatement",
    ref "outputToReportStatement"]),
  rule "startReportStatement" (seq [
    keywords "start report", ref "constantIdentifier",
    (seq [
      keyword "to",
      alt [ref "expression", seq [keyword "pipe", ref "expression"], keyword "printer"]]).opt,
    (seq [keyword "with", (ref "reportDimensionSpecifier").plusSep (symbol ",")]).opt]),
  rule "terminateReportStatement" (seq [keywords "terminate report", ref "constantIdentifier"]),
  rule "finishReportStatement" (seq [keywords "finish report", ref "constantIdentifier"]),
  rule "pauseStatement" (seq [keyword "pause", (ref "StringLiteral").opt]),
  rule "needStatement" (seq [keyword "need", ref "expression", keyword "lines"]),
  rule "printStatement" (seq [
    keyword "print",
    (alt [
      seq [keyword "file", ref "StringLiteral"],
      seq [ref "printExpressionList", (symbol ";").opt], symbol ";"]).opt]),
  rule "printExpressionList" ((ref "printExpressionItem").plusSep (symbol ",")),
  rule "printExpressionItem" (alt [
    seq [keyword "column", ref "expression"],
    seq [ref "aggregateExpression", keyword "where", ref "expression"],
    seq [alt [keyword "byte", keyword "text"], ref "variable"],
    seq [
      ref "expression", (alt [keyword "space", keyword "spaces"]).opt,
      (seq [keyword "wordwrap", (seq [keywords "right margin", ref "numericConstant"]).opt]).opt]]),
  rule "skipStatement" (seq [
    keyword "skip",
    alt [
      seq [ref "expression", alt [keyword "line", keyword "lines"]], keywords "to top of page"]]),
  rule "outputToReportStatement" (seq [
    keywords "output to report", ref "constantIdentifier", symbol "(",
    (ref "expressionList").opt, symbol ")"])]

end FourGL.Language
