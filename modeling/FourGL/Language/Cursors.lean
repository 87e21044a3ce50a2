import FourGL.Language.Declaring

/-!
# Cursors

Statements that declare, open, read and close cursors.
-/

namespace FourGL.Language

open Rule

/-- Statements about cursors. -/
def cursorRules : List RuleDeclaration := [
  rule "cursorManipulationStatement" (alt [
    seq [keyword "close", ref "cursorName"],
    seq [
      keyword "declare", ref "cursorName",
      alt [
        seq [
          keyword "cursor", (keywords "with hold").opt, keyword "for",
          alt [
            seq [
              ref "sqlSelectStatement",
              (seq [keywords "for update", (seq [keyword "of", ref "columnsList"]).opt]).opt],
            ref "sqlInsertStatement", ref "statementId"]],
        seq [
          keywords "scroll cursor", (keywords "with hold").opt, keyword "for",
          alt [ref "sqlSelectStatement", ref "statementId"]]]],
    seq [
      keyword "fetch", (ref "fetchDirection").opt, ref "cursorName",
      (seq [keyword "into", ref "variableList"]).opt],
    seq [keyword "flush", ref "cursorName"],
    seq [keyword "open", ref "cursorName", (seq [keyword "using", ref "expressionList"]).opt],
    seq [keyword "put", ref "cursorName", (seq [keyword "from", ref "expressionList"]).opt]]),
  rule "fetchDirection" (alt [
    keyword "next", keyword "previous", keyword "prior", keyword "first", keyword "last",
    keyword "current", seq [keyword "relative", ref "expression"],
    seq [keyword "absolute", ref "expression"]]),
  rule "cursorName" (ref "Identifier"),
  rule "statementId" (ref "constantIdentifier")]

end FourGL.Language
