import FourGL.Grammar.Basic

/-!
# From rules to productions

Every rule becomes a nonterminal with a production for each of its alternatives. Options,
repetitions and groups inside a rule become helper nonterminals, named by their rendering, so that
parts which look alike share one helper. Sequences within sequences are written out in place.

The tree actions keep the tree in the shape of the declared rule:

- an absent option leaves an empty place;
- a repetition is one list node, and its punctuation is left out;
- a group of one symbol passes its tree through, a longer one makes a node.
-/

namespace FourGL

/-! ## State -/

/-- What has been produced so far. -/
structure Lowering where
  vocabulary : Vocabulary
  /-- The rule that is being lowered. -/
  rule : String
  nonterminals : Array Nonterminal
  /-- Nonterminals by name; a rule keeps its name when a helper looks like it. -/
  names : Std.TreeMap String NonterminalId
  /-- Helpers by rendering. -/
  helpers : Std.TreeMap String NonterminalId
  productions : Array Production
  nodeKinds : Array String
  /-- The places of the node kinds. -/
  kindPlaces : Std.TreeMap String Nat

/-- A step that extends what has been produced, or finds a defect. -/
abbrev Lower := StateT Lowering (Except GrammarError)

namespace Lower

/-- The state before any rule is entered. -/
def initial (v : Vocabulary) : Lowering where
  vocabulary := v
  rule := "$accept"
  nonterminals := #[⟨"$accept", false, true⟩]
  names := ∅
  helpers := ∅
  productions := #[]
  nodeKinds := #[]
  kindPlaces := ∅

/-! ## Entries -/

/-- Enters a nonterminal. -/
def addNonterminal (n : Nonterminal) : Lower NonterminalId := do
  let s ← get
  let id := s.nonterminals.size
  if id ≤ maxIndex then
    set { s with nonterminals := s.nonterminals.push n }
    return id
  else throw (.tooLarge "non-terminals" maxIndex)

/-- Enters a node kind unless it is there, and answers its place. -/
def placeKind (kind : String) : Lower Nat := do
  let s ← get
  match s.kindPlaces[kind]? with
  | some place => return place
  | none =>
    let place := s.nodeKinds.size
    set { s with nodeKinds := s.nodeKinds.push kind, kindPlaces := s.kindPlaces.insert kind place }
    return place

/-- Enters a node kind unless it is there; the table of kinds may be full. -/
def nodeKind (kind : String) : Lower String := do
  let place ← placeKind kind
  if place ≤ maxIndex then return kind else throw (.tooLarge "node kinds" maxIndex)

/-- Adds a production. -/
def produce (left : NonterminalId) (right : List Symbol) (action : TreeAction) : Lower Unit :=
  modify fun s => { s with productions := s.productions.push ⟨left, right, action⟩ }

/-- Enters a declared rule as a nonterminal and a node kind. -/
def declare (d : RuleDeclaration) : Lower Unit := do
  let id ← addNonterminal ⟨d.name, d.transient, false⟩
  modify fun s => { s with names := s.names.insert d.name id }
  let _ ← placeKind d.name

/-! ## Names -/

/-- The defect of mentioning something that is not declared. -/
def undefinedSymbol {α : Type} (name : String) : Lower α := do
  throw (.undefinedSymbol (← get).rule name)

/-- The symbol of the given name: a nonterminal, or else a class of tokens. -/
def namedSymbol? (s : Lowering) (name : String) : Option Symbol :=
  match s.names[name]? with
  | some n => some (.nonterminal n)
  | none => (s.vocabulary.namedClass? name).map .terminal

/-- Checks that every name mentioned in the rule is declared. -/
def checkReferences (d : RuleDeclaration) : Lower Unit := do
  modify fun s => { s with rule := d.name }
  let s ← get
  match d.rule.references.find? fun name => (namedSymbol? s name).isNone with
  | some name => undefinedSymbol name
  | none => return ()

/-- The symbol found, or the defect that the name is not declared. -/
def found (name : String) (symbol : Option Symbol) : Lower Symbol :=
  match symbol with
  | some s => return s
  | none => undefinedSymbol name

/-- The helper for the part of a rule that renders as `key`, made by `fill` if it is new. -/
def helper (key : String) (fill : NonterminalId → Lower Unit) : Lower Symbol := do
  match (← get).helpers[key]? with
  | some id => return .nonterminal id
  | none =>
    let id ← addNonterminal ⟨key, false, true⟩
    modify fun s => { s with
      helpers := s.helpers.insert key id
      names := s.names.insertIfNew key id }
    fill id
    return .nonterminal id

/-! ## Actions -/

/-- What becomes of the trees of a group: nothing of none, the tree itself of one, a node of more.
-/
def groupAction (right : List Symbol) (kind : String) : Lower TreeAction :=
  match right with
  | [] => return .absent
  | [_] => return .unwrap
  | _ => .node <$> nodeKind kind

/-- What becomes of the trees of a part that must not vanish: the tree itself of one, a node of none
or of more. -/
def wrapAction (right : List Symbol) (kind : String) : Lower TreeAction :=
  match right with
  | [_] => return .unwrap
  | _ => .node <$> nodeKind kind

/-- What becomes of the trees of a rule's alternative. -/
def ruleAction (d : RuleDeclaration) (right : List Symbol) : Lower TreeAction :=
  if d.transient then groupAction right d.name else .node <$> nodeKind d.name

/-! ## Parts of rules -/

/-- A helper whose only production is a sequence. -/
def sequenceHelper (rule : Rule) (sequence : Lower (List Symbol)) : Lower Symbol :=
  helper rule.render fun id => do
    let right ← sequence
    produce id right (← wrapAction right rule.render)

/-- A helper for a sequence or nothing. -/
def optionHelper (rule item : Rule) (sequence : Lower (List Symbol)) : Lower Symbol :=
  helper rule.render fun id => do
    let right ← sequence
    produce id right (← wrapAction right item.render)
    produce id [] .absent

/-- A helper for a repetition, whose productions `fill` makes. -/
def listHelper (rule : Rule) (fill : NonterminalId → String → Lower Unit) : Lower Symbol :=
  helper rule.render fun id => do fill id (← nodeKind rule.render)

/-- The productions of any number of items. -/
def starItems (item : Lower Symbol) (left : NonterminalId) (kind : String) : Lower Unit := do
  let i ← item
  produce left [] (.emptyList kind)
  produce left [.nonterminal left, i] (.appendList false)

/-- The productions of at least one item. -/
def plusItems (item : Lower Symbol) (left : NonterminalId) (kind : String) : Lower Unit := do
  let i ← item
  produce left [i] (.startList kind)
  produce left [.nonterminal left, i] (.appendList false)

/-- Whether lists leave out the separator. -/
def dropsSeparator (v : Vocabulary) : Rule → Bool
  | .symbol text => v.isPunctuation text
  | _ => false

/-- The productions of at least one separated item. -/
def plusSepItems (item separator : Lower Symbol) (separatorRule : Rule) (left : NonterminalId)
    (kind : String) : Lower Unit := do
  let i ← item
  produce left [i] (.startList kind)
  let s ← separator
  produce left [.nonterminal left, s, i]
    (.appendList (dropsSeparator (← get).vocabulary separatorRule))

/-- The productions of any number of separated items: none, or the helper for at least one. -/
def starSepItems (item separator : Lower Symbol) (itemRule separatorRule : Rule)
    (left : NonterminalId) (kind : String) : Lower Unit := do
  let _ ← item
  produce left [] (.emptyList kind)
  let inner ← listHelper (.plusSep itemRule separatorRule)
    (plusSepItems item separator separatorRule)
  produce left [inner] .unwrap

/-! ## Rules -/

/-- The two uses of a rule: written out in a right-hand side, and as a single symbol. -/
structure Uses where
  inline : Lower (List Symbol)
  symbol : Lower Symbol

/-- The uses of a rule that is one symbol either way. -/
def Uses.ofSymbol (symbol : Lower Symbol) : Uses := ⟨do return [← symbol], symbol⟩

/-- The uses of a sequence. -/
def Uses.ofSequence (rule : Rule) (sequence : Lower (List Symbol)) : Uses :=
  ⟨sequence, sequenceHelper rule sequence⟩

mutual

/-- How a rule is used. -/
def uses : Rule → Uses
  | .empty => .ofSequence .empty (return [])
  | .seq items => .ofSequence (.seq items) (inlineAll items)
  | .keyword text => .ofSymbol do found text (((← get).vocabulary.keyword? text).map .terminal)
  | .symbol text => .ofSymbol do found text (((← get).vocabulary.symbol? text).map .terminal)
  | .ref name => .ofSymbol do found name (namedSymbol? (← get) name)
  | .alt items => .ofSymbol (helper (Rule.alt items).render fun id => alternatives id items)
  | .opt item => .ofSymbol (optionHelper (.opt item) item (uses item).inline)
  | .star item => .ofSymbol (listHelper (.star item) (starItems (uses item).symbol))
  | .plus item => .ofSymbol (listHelper (.plus item) (plusItems (uses item).symbol))
  | .starSep item separator => .ofSymbol (listHelper (.starSep item separator)
      (starSepItems (uses item).symbol (uses separator).symbol item separator))
  | .plusSep item separator => .ofSymbol (listHelper (.plusSep item separator)
      (plusSepItems (uses item).symbol (uses separator).symbol separator))

/-- The symbols of several rules, one after the other. -/
def inlineAll : List Rule → Lower (List Symbol)
  | [] => return []
  | r :: rs => do return (← (uses r).inline) ++ (← inlineAll rs)

/-- A production for each alternative of a group. -/
def alternatives (left : NonterminalId) : List Rule → Lower Unit
  | [] => return ()
  | r :: rs => do
    let right ← (uses r).inline
    produce left right (← groupAction right r.render)
    alternatives left rs

end

/-- The productions of a declared rule's alternatives. -/
def ruleAlternatives (d : RuleDeclaration) (left : NonterminalId) (items : List Rule) :
    Lower Unit :=
  items.forM fun r => do
    let right ← (uses r).inline
    produce left right (← ruleAction d right)

/-- The productions of a declared rule. -/
def ruleProductions (d : RuleDeclaration) : Lower Unit := do
  modify fun s => { s with rule := d.name }
  let left := (← get).names.getD d.name 0
  match d.rule with
  | .star item => starItems (uses item).symbol left (← nodeKind d.name)
  | .plus item => plusItems (uses item).symbol left (← nodeKind d.name)
  | .starSep item separator =>
    starSepItems (uses item).symbol (uses separator).symbol item separator left (← nodeKind d.name)
  | .plusSep item separator =>
    plusSepItems (uses item).symbol (uses separator).symbol separator left (← nodeKind d.name)
  | .alt items => ruleAlternatives d left items
  | r => ruleAlternatives d left [r]

/-- The productions of all rules, that of the start symbol first, and the root's nonterminal. More than
2 ^ 32 - 1 productions would be too many as well. That has no branch here, as no rules are taken to have so
many. -/
def all (rules : List RuleDeclaration) (root : String) : Lower NonterminalId := do
  rules.forM declare
  match (← get).names[root]? with
  | none => undefinedSymbol root
  | some id =>
    rules.forM checkReferences
    produce Grammar.start [.nonterminal id] .accept
    rules.forM ruleProductions
    return id

end Lower

end FourGL
