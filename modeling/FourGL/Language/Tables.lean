import FourGL.Language.Declaring

/-!
# Tables

Statements that create, change and drop tables, indexes and views.
-/

namespace FourGL.Language

open Rule

/-- Statements that define data. -/
def tableRules : List RuleDeclaration := [
  rule "dataDefinitionStatement" (alt [
    seq [keywords "drop table", ref "constantIdentifier"],
    seq [
      keyword "create", (keyword "temp").opt, keyword "table", ref "constantIdentifier",
      symbol "(", (ref "columnItem").plusSep (symbol ","), symbol ")",
      (keywords "with no log").opt, (seq [keyword "in", ref "constantIdentifier"]).opt,
      (seq [keywords "extent size", ref "numericConstant"]).opt,
      (seq [keywords "next size", ref "numericConstant"]).opt,
      (seq [
        keywords "lock mode", symbol "(", alt [keyword "page", keyword "row"], symbol ")"]).opt],
    seq [
      keyword "create", (keyword "unique").opt, (keyword "cluster").opt, keyword "index",
      ref "constantIdentifier", keyword "on", ref "constantIdentifier", symbol "(",
      (ref "indexColumn").plusSep (symbol ","), symbol ")"],
    seq [keywords "drop index", ref "constantIdentifier"]]),
  rule "columnItem" (alt [
    seq [
      ref "constantIdentifier", ref "columnType",
      (seq [keyword "in", alt [keyword "table", ref "constantIdentifier"]]).opt,
      (keywords "not null").opt],
    seq [
      keyword "unique", symbol "(", (ref "constantIdentifierList").opt, symbol ")",
      (seq [keyword "constraint", ref "constantIdentifier"]).opt]]),
  transient "columnType" (alt [
    ref "type", seq [keyword "serial", (seq [symbol "(", ref "numericConstant", symbol ")"]).opt]]),
  rule "indexColumn" (seq [ref "constantIdentifier", (alt [keyword "asc", keyword "desc"]).opt])]

end FourGL.Language
