import FourGL.Language.Conditions
import FourGL.Language.Cursors
import FourGL.Language.Queries
import FourGL.Language.Tables

/-!
# Embedded SQL

Statements of the database language, each with an optional semicolon.
-/

namespace FourGL.Language

open Rule

/-- The families of statements. -/
def sqlStatementRules : List RuleDeclaration := [
  rule "sqlStatement" (seq [ref "sqlStatements", (symbol ";").opt]),
  transient "sqlStatements" (alt [
    ref "cursorManipulationStatement", ref "dataDefinitionStatement",
    ref "dataManipulationStatement", ref "dynamicManagementStatement",
    ref "queryOptimizationStatement", ref "dataIntegrityStatement", ref "clientServerStatement"])]

/-- Prepared statements, optimization, transactions and error handling. -/
def sqlControlRules : List RuleDeclaration := [
  rule "dynamicManagementStatement" (alt [
    seq [keyword "prepare", ref "cursorName", keyword "from", ref "expression"],
    seq [keywords "execute immediate", ref "expression"],
    seq [keyword "execute", ref "cursorName", (seq [keyword "using", ref "variableList"]).opt],
    seq [
      keywords "lock table", ref "tableIdentifier", keyword "in",
      alt [keyword "share", keyword "exclusive"], keyword "mode"],
    seq [keywords "unlock table", ref "tableIdentifier"]]),
  rule "queryOptimizationStatement" (alt [
    seq [keywords "update statistics", (seq [keywords "for table", ref "tableIdentifier"]).opt],
    seq [
      keywords "set lock mode to",
      alt [seq [keyword "wait", (ref "Number").opt], keywords "not wait"]],
    seq [keywords "set explain", alt [keyword "on", keyword "off"]],
    seq [
      keywords "set isolation to",
      alt [
        keywords "cursor stability",
        seq [alt [keyword "dirty", keyword "committed", keyword "repeatable"], keyword "read"]]],
    seq [keyword "set", (keyword "buffered").opt, keyword "log"]]),
  rule "dataIntegrityStatement" (alt [
    ref "wheneverStatement",
    seq [alt [keyword "begin", keyword "commit", keyword "rollback"], keyword "work"]]),
  rule "wheneverStatement" (seq [keyword "whenever", ref "wheneverType", ref "wheneverFlow"]),
  rule "wheneverType" (alt [
    keywords "not found", seq [(keyword "any").opt, alt [keyword "sqlerror", keyword "error"]],
    keyword "sqlwarning", keyword "warning"]),
  rule "wheneverFlow" (alt [
    keyword "continue", keyword "stop", seq [keyword "call", ref "Identifier"],
    seq [alt [keywords "go to", keyword "goto"], (symbol ":").opt, ref "Identifier"]]),
  rule "clientServerStatement" (keywords "close database")]

/-- All rules of the database language. -/
def sqlRules : List RuleDeclaration :=
  sqlStatementRules ++ cursorRules ++ tableRules ++ selectionRules ++ modificationRules
  ++ conditionRules ++ sqlControlRules

end FourGL.Language
