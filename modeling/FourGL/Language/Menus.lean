import FourGL.Language.Declaring

/-!
# Menus

Menus, their commands and what happens on them.
-/

namespace FourGL.Language

open Rule

/-- The menu statement. -/
def menuRules : List RuleDeclaration := [
  rule "menuStatement" (seq [
    keyword "menu", ref "expression", (ref "menuGroupStatement").star, keywords "end menu"]),
  rule "menuGroupStatement" (seq [ref "menuEvents", (ref "codeBlock").opt]),
  rule "menuEvents" (alt [
    keywords "before menu",
    seq [
      keyword "command", (seq [keyword "key", symbol "(", ref "keyList", symbol ")"]).opt,
      ref "expression", (ref "StringLiteral").opt,
      (seq [keyword "help", ref "numericConstant"]).opt],
    seq [keywords "on idle", ref "expression"],
    seq [
      keywords "on action",
      alt [
        keyword "close", keyword "help", keyword "output", keyword "print", keyword "update",
        ref "Identifier"]]]),
  rule "menuInsideStatement" (alt [
    seq [
      alt [keyword "next", keyword "show", keyword "hide"], keyword "option",
      alt [keyword "all", ref "expressionList"]],
    seq [alt [keyword "continue", keyword "exit"], keyword "menu"]])]

end FourGL.Language
