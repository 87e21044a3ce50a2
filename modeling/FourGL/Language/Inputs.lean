import FourGL.Language.Declaring

/-!
# Inputs

Statements that read values and search criteria through a form.
-/

namespace FourGL.Language

open Rule

/-- Statements that read something. -/
def inputRules : List RuleDeclaration := [
  rule "inputStatement" (seq [
    keyword "input",
    alt [
      seq [keywords "by name", ref "expressionList", (keywords "without defaults").opt],
      seq [
        ref "expressionList", (keywords "without defaults").opt, keyword "from", ref "fieldList"]],
    (ref "attributeList").opt, (seq [keyword "help", ref "numericConstant"]).opt,
    (seq [(ref "inputGroupStatement").plus, keywords "end input"]).opt]),
  rule "inputArrayStatement" (seq [
    keywords "input array", ref "expression", (keywords "without defaults").opt, keyword "from",
    ref "expressionList", (seq [keyword "help", ref "numericConstant"]).opt,
    (ref "attributeList").opt, (seq [(ref "inputGroupStatement").plus, keywords "end input"]).opt]),
  rule "inputGroupStatement" (seq [ref "inputEvents", (ref "codeBlock").opt]),
  rule "inputEvents" (alt [
    seq [
      alt [keyword "before", keyword "after"],
      alt [keyword "input", keyword "row", keyword "insert", keyword "delete"]],
    seq [alt [keyword "before", keyword "after"], keyword "field", ref "fieldList"],
    seq [keywords "on key", symbol "(", ref "keyList", symbol ")"],
    seq [keywords "on change", ref "fieldList"], seq [keywords "on idle", ref "expression"],
    seq [
      keywords "on action",
      alt [
        keyword "cancel", keyword "accept", keyword "close", keyword "help", ref "Identifier"]]]),
  rule "inputOrConstructInsideStatement" (alt [
    seq [keywords "next field", alt [ref "fieldName", keyword "next", keyword "previous"]],
    seq [alt [keyword "continue", keyword "exit"], alt [keyword "input", keyword "construct"]]]),
  rule "constructStatement" (seq [
    keyword "construct",
    alt [
      seq [keywords "by name", ref "variable", keyword "on", ref "columnsList"],
      seq [ref "variable", keyword "on", ref "columnsList", keyword "from", ref "fieldList"]],
    (ref "attributeList").opt, (seq [keyword "help", ref "numericConstant"]).opt,
    (seq [(ref "constructGroupStatement").plus, keywords "end construct"]).opt]),
  rule "constructGroupStatement" (seq [ref "constructEvents", (ref "codeBlock").opt]),
  rule "constructEvents" (alt [
    seq [
      alt [keyword "before", keyword "after"],
      alt [keyword "construct", seq [keyword "field", ref "fieldList"]]],
    seq [keywords "on key", symbol "(", ref "keyList", symbol ")"]])]

end FourGL.Language
