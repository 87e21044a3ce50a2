import FourGL.Language.Declaring

/-!
# Declarations and data types

Variables are declared in `DEFINE` statements, several names with one type. A type is that of a
column, a simple type, a record or an array.

A qualifier of a date or an interval names its first and its last unit, and the last must not be
coarser than the first; so the rule for the end of a qualifier that starts with some unit takes
that unit or a finer one.
-/

namespace FourGL.Language

open Rule

/-- Variable declarations and simple types. -/
def declarationRules : List RuleDeclaration := [
  rule "typeDefinitions" (ref "typeDefinition").star,
  rule "typeDefinition" (seq [keyword "type", ref "Identifier", ref "type"]),
  rule "typeDeclarations" (ref "typeDeclaration").star,
  rule "typeDeclaration" (seq [keyword "define", ref "variableDeclarationList"]),
  rule "variableDeclarationList" ((ref "variableDeclaration").plusSep (symbol ",")),
  rule "variableDeclaration" (seq [ref "constantIdentifierList", ref "type"]),
  rule "constantIdentifierList" ((ref "constantIdentifier").plusSep (symbol ",")),
  transient "type" (alt [
    ref "typeIdentifier", ref "indirectType", ref "largeType", ref "structuredType"]),
  rule "indirectType" (seq [
    keyword "like", ref "tableIdentifier", symbol ".", ref "Identifier"]),
  transient "typeIdentifier" (alt [
    ref "charType", ref "numberType", ref "timeType", ref "classChain"]),
  rule "largeType" (alt [keyword "text", keyword "byte"]),
  rule "classChain" ((ref "Identifier").plusSep (symbol ".")),
  rule "sign" (alt [symbol "+", symbol "-"]),
  rule "numericConstant" (alt [ref "Number", seq [ref "sign", ref "Number"]]),
  rule "numberType" (alt [
    keyword "bigint", keyword "integer", keyword "int", keyword "smallint", keyword "real",
    keyword "smallfloat",
    seq [
      alt [keyword "decimal", keyword "dec", keyword "numeric", keyword "money"],
      (ref "precision").opt],
    seq [
      alt [keyword "float", keywords "double precision", keyword "double"],
      (seq [symbol "(", ref "numericConstant", symbol ")"]).opt]]),
  rule "precision" (seq [
    symbol "(", ref "numericConstant", (seq [symbol ",", ref "numericConstant"]).opt, symbol ")"]),
  rule "charType" (alt [
    seq [alt [keyword "varchar", keyword "nvarchar"], ref "precision"],
    seq [
      alt [keyword "char", keyword "nchar", keyword "character"],
      (seq [symbol "(", ref "numericConstant", symbol ")"]).opt],
    keyword "string"]),
  rule "timeType" (alt [
    keyword "date", seq [keyword "datetime", ref "datetimeQualifier"],
    seq [keyword "interval", ref "intervalQualifier"]])]

/-- Qualifiers of dates and intervals, and structured types. -/
def qualifierRules : List RuleDeclaration := [
  rule "datetimeQualifier" (alt [
    seq [keyword "year", keyword "to", ref "yearQualifier"],
    seq [keyword "month", keyword "to", ref "monthQualifier"],
    seq [keyword "day", keyword "to", ref "dayQualifier"],
    seq [keyword "hour", keyword "to", ref "hourQualifier"],
    seq [keyword "minute", keyword "to", ref "minuteQualifier"],
    seq [keyword "second", keyword "to", ref "secondQualifier"],
    seq [keyword "fraction", keyword "to", ref "fractionQualifier"]]),
  rule "intervalQualifier" (alt [
    seq [keyword "year", (ref "unitPrecision").opt, keyword "to", ref "yearQualifier"],
    seq [keyword "month", (ref "unitPrecision").opt, keyword "to", ref "monthQualifier"],
    seq [keyword "day", (ref "unitPrecision").opt, keyword "to", ref "dayQualifier"],
    seq [keyword "hour", (ref "unitPrecision").opt, keyword "to", ref "hourQualifier"],
    seq [keyword "minute", (ref "unitPrecision").opt, keyword "to", ref "minuteQualifier"],
    seq [keyword "second", (ref "unitPrecision").opt, keyword "to", ref "secondQualifier"],
    seq [keyword "fraction", keyword "to", ref "fractionQualifier"]]),
  rule "unitPrecision" (seq [symbol "(", ref "numericConstant", symbol ")"]),
  transient "unitType" (ref "yearQualifier"),
  transient "yearQualifier" (alt [keyword "year", ref "monthQualifier"]),
  transient "monthQualifier" (alt [keyword "month", ref "dayQualifier"]),
  transient "dayQualifier" (alt [keyword "day", ref "hourQualifier"]),
  transient "hourQualifier" (alt [keyword "hour", ref "minuteQualifier"]),
  transient "minuteQualifier" (alt [keyword "minute", ref "secondQualifier"]),
  transient "secondQualifier" (alt [keyword "second", ref "fractionQualifier"]),
  rule "fractionQualifier" (seq [keyword "fraction", (ref "unitPrecision").opt]),
  transient "structuredType" (alt [ref "recordType", ref "arrayType", ref "dynArrayType"]),
  rule "recordType" (seq [
    keyword "record",
    alt [
      seq [ref "variableDeclarationList", keywords "end record"],
      seq [keyword "like", ref "tableIdentifier", symbol ".", symbol "*"]]]),
  rule "arrayType" (seq [
    keyword "array", ref "arrayIndexer", keyword "of",
    alt [ref "recordType", ref "typeIdentifier", ref "largeType"]]),
  rule "dynArrayType" (seq [
    keywords "dynamic array",
    (seq [keyword "with", ref "numericConstant", keyword "dimensions"]).opt, keyword "of",
    alt [ref "recordType", ref "typeIdentifier"]])]

end FourGL.Language
