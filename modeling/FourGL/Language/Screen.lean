import FourGL.Language.Attributes
import FourGL.Language.Displays
import FourGL.Language.Inputs
import FourGL.Language.Menus

/-!
# Screens

Statements about forms and windows.
-/

namespace FourGL.Language

open Rule

/-- Statements that open, close, clear and scroll. -/
def windowRules : List RuleDeclaration := [
  transient "screenStatement" (alt [
    ref "clearStatement", ref "closeWindowStatement", ref "closeFormStatement",
    ref "constructStatement", ref "currentWindowStatement", ref "displayStatement",
    ref "displayArrayStatement", ref "displayFormStatement", ref "errorStatement",
    ref "messageStatement", ref "promptStatement", ref "inputStatement",
    ref "inputArrayStatement", ref "menuStatement", ref "openFormStatement",
    ref "openWindowStatement", ref "optionsStatement", ref "scrollStatement"]),
  rule "clearStatement" (seq [
    keyword "clear",
    alt [
      keyword "form", seq [keyword "window", ref "Identifier"], keywords "window screen",
      keyword "screen", ref "fieldList"]]),
  rule "closeWindowStatement" (seq [keywords "close window", ref "Identifier"]),
  rule "closeFormStatement" (seq [keywords "close form", ref "Identifier"]),
  rule "currentWindowStatement" (seq [
    keywords "current window is", alt [keyword "screen", ref "Identifier"]]),
  rule "openFormStatement" (seq [
    keywords "open form", ref "Identifier", keyword "from", ref "expression"]),
  rule "openWindowStatement" (seq [
    keywords "open window", ref "Identifier", keyword "at", ref "expression", symbol ",",
    ref "expression",
    alt [
      seq [keywords "with form", ref "expression"],
      seq [
        keyword "with", ref "expression", keyword "rows", symbol ",", ref "expression",
        keyword "columns"]],
    (ref "windowAttributeList").opt]),
  rule "scrollStatement" (seq [
    keyword "scroll", ref "fieldList", alt [keyword "up", keyword "down"],
    (seq [keyword "by", ref "numericConstant"]).opt])]

/-- All rules about the screen. -/
def screenRules : List RuleDeclaration :=
  windowRules ++ displayRules ++ inputRules ++ menuRules ++ attributeRules ++ optionRules

end FourGL.Language
