import FourGL.Language.Declaring

/-!
# Modules

A module names its database, its included files, its global variables and its types, and holds a
main block, functions and reports, in this order.
-/

namespace FourGL.Language

open Rule

/-- The layout of a module, its main block, functions and reports. -/
def programRules : List RuleDeclaration := [
  rule "compilation_unit" (seq [
    (ref "databaseDeclaration").opt, ref "includeDefinitions", (ref "globalDeclaration").opt,
    ref "typeDefinitions", ref "typeDeclarations", (ref "mainBlock").opt,
    ref "functionOrReportDefinitions"]),
  rule "databaseDeclaration" (seq [
    keyword "database", ref "constantIdentifier",
    (seq [symbol "@", ref "constantIdentifier"]).opt, (keyword "exclusive").opt, (symbol ";").opt]),
  rule "includeDefinitions" (ref "includeDefinition").star,
  rule "includeDefinition" (seq [symbol "&", keyword "include", ref "StringLiteral"]),
  rule "globalDeclaration" (alt [
    seq [keyword "globals", ref "StringLiteral"],
    seq [keyword "globals", ref "typeDeclarations", keywords "end globals"]]),
  rule "mainBlock" (seq [
    keyword "main", ref "typeDeclarations", ref "mainStatements", keywords "end main"]),
  rule "mainStatements" (ref "mainStatement").star,
  transient "mainStatement" (alt [ref "deferStatement", ref "statementOrDbDeclaration"]),
  rule "deferStatement" (seq [keyword "defer", alt [keyword "interrupt", keyword "quit"]]),
  rule "functionOrReportDefinitions" (ref "reportOrFunctionDefinition").star,
  transient "reportOrFunctionDefinition" (alt [
    ref "reportDefinition", ref "functionDefinition"]),
  rule "functionDefinition" (seq [
    keyword "function", ref "functionIdentifier", ref "parameterList", ref "typeDeclarations",
    (ref "codeBlock").opt, keywords "end function"]),
  rule "parameterList" (alt [seq [symbol "(", (ref "parameterGroup").opt, symbol ")"], empty]),
  rule "parameterGroup" ((ref "Identifier").plusSep (symbol ",")),
  rule "reportDefinition" (seq [
    keyword "report", ref "Identifier", ref "parameterList", ref "typeDeclarations",
    (ref "outputReport").opt, (ref "reportOrderBy").opt, (ref "formatReport").opt,
    keywords "end report"])]

end FourGL.Language
