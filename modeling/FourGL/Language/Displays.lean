import FourGL.Language.Declaring

/-!
# Displays

Statements that show values, messages and arrays, and the names of form fields and keys.
-/

namespace FourGL.Language

open Rule

/-- Statements that show something. -/
def displayRules : List RuleDeclaration := [
  rule "displayStatement" (seq [
    keyword "display",
    alt [
      seq [keywords "by name", ref "expressionList"],
      seq [
        ref "expressionList",
        (alt [
          seq [keyword "to", ref "fieldList"],
          seq [keyword "at", ref "expression", symbol ",", ref "expression"]]).opt]],
    (ref "attributeList").opt]),
  rule "displayArrayStatement" (seq [
    keywords "display array", ref "expression", keyword "to", ref "expression",
    (ref "attributeList").opt, (seq [(ref "displayEvents").plus, keywords "end display"]).opt]),
  rule "displayEvents" (seq [
    keywords "on key", symbol "(", ref "keyList", symbol ")", (ref "codeBlock").opt]),
  rule "displayFormStatement" (seq [
    keywords "display form", ref "Identifier", (ref "attributeList").opt]),
  rule "displayInsideStatement" (seq [
    alt [keyword "continue", keyword "exit"], keyword "display"]),
  rule "errorStatement" (seq [keyword "error", ref "expressionList", (ref "attributeList").opt]),
  rule "messageStatement" (seq [
    keyword "message", ref "expressionList", (ref "attributeList").opt]),
  rule "promptStatement" (seq [
    keyword "prompt", ref "expressionList", (ref "attributeList").opt, keyword "for",
    (keyword "char").opt, ref "variable", (seq [keyword "help", ref "numericConstant"]).opt,
    (ref "attributeList").opt, (seq [(ref "keyListCodeBlock").plus, keywords "end prompt"]).opt]),
  rule "keyListCodeBlock" (seq [
    keywords "on key", symbol "(", ref "keyList", symbol ")", (ref "codeBlock").opt]),
  rule "keyList" ((ref "keyName").plusSep (symbol ",")),
  rule "keyName" (alt [
    ref "expression", keyword "accept", keyword "interrupt", keyword "help", keyword "delete",
    keyword "insert", keyword "escape", keyword "return", keyword "up", keyword "down",
    keyword "left", keyword "right"]),
  rule "fieldList" ((ref "fieldName").plusSep (symbol ",")),
  rule "fieldName" (seq [ref "fieldPath", (ref "thruNotation").opt]),
  rule "fieldPath" (seq [
    ref "Identifier", (seq [symbol "[", ref "expression", symbol "]"]).opt,
    (seq [symbol ".", alt [symbol "*", ref "Identifier"]]).opt]),
  rule "thruNotation" (seq [
    ref "thru", (seq [keyword "same", symbol "."]).opt, ref "Identifier"])]

end FourGL.Language
