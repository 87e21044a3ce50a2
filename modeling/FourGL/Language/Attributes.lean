import FourGL.Language.Declaring

/-!
# Attributes and options

How fields and windows look, and the options of a program.
-/

namespace FourGL.Language

open Rule

/-- Attributes of fields and windows. -/
def attributeRules : List RuleDeclaration := [
  rule "attributeList" (seq [
    alt [keyword "attribute", keyword "attributes"], symbol "(",
    (ref "specialAttribute").plusSep (symbol ","), symbol ")"]),
  transient "specialAttribute" (alt [ref "displayAttribute", ref "controlAttribute"]),
  rule "displayAttribute" (alt [
    ref "color", keyword "bold", keyword "dim", keyword "normal", keyword "invisible",
    keyword "reverse", keyword "blink", keyword "underline"]),
  transient "color" (alt [
    keyword "black", keyword "blue", keyword "cyan", keyword "green", keyword "magenta",
    keyword "red", keyword "white", keyword "yellow"]),
  rule "controlAttribute" (alt [
    seq [keyword "name", symbol "=", ref "StringLiteral"],
    seq [keyword "help", symbol "=", ref "numericConstant"],
    seq [keywords "without defaults", (seq [symbol "=", ref "numericConstant"]).opt],
    keywords "field order form",
    seq [
      alt [keyword "unbuffered", keyword "cancel", keyword "accept"],
      (seq [symbol "=", ref "numericConstant"]).opt]]),
  rule "windowAttributeList" (seq [
    alt [keyword "attribute", keyword "attributes"], symbol "(",
    (ref "windowAttribute").plusSep (symbol ","), symbol ")"]),
  rule "windowAttribute" (alt [
    ref "color", keyword "bold", keyword "dim", keyword "normal", keyword "invisible",
    keyword "reverse", keyword "border",
    seq [
      alt [keyword "prompt", keyword "form", keyword "menu", keyword "message"], keyword "line",
      ref "linePosition"],
    seq [keywords "comment line", alt [ref "linePosition", keyword "off"]]]),
  rule "linePosition" (alt [
    seq [keyword "first", (seq [symbol "+", ref "expression"]).opt],
    seq [keyword "last", (seq [symbol "-", ref "expression"]).opt], ref "expression"])]

/-- The options statement. -/
def optionRules : List RuleDeclaration := [
  rule "optionsStatement" (seq [
    alt [keyword "option", keyword "options"], (ref "optionStatement").plusSep (symbol ",")]),
  rule "optionStatement" (alt [
    seq [
      alt [
        keyword "message", keyword "prompt", keyword "menu", keyword "comment", keyword "error",
        keyword "form"],
      keyword "line", ref "expression"],
    seq [
      alt [
        keyword "insert", keyword "delete", keyword "next", keyword "previous", keyword "accept",
        keyword "help"],
      keyword "key", ref "expression"],
    seq [keyword "input", alt [keyword "wrap", keywords "no wrap"]],
    seq [keywords "help file", ref "expression"],
    seq [alt [keyword "input", keyword "display"], ref "attributeList"],
    seq [keywords "sql interrupt", alt [keyword "on", keyword "off"]],
    seq [keywords "field order", alt [keyword "constrained", keyword "unconstrained"]]])]

end FourGL.Language
