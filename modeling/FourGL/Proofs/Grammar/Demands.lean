import FourGL.Proofs.Grammar.Parts
import Mathlib.Data.List.Forall2

/-!
# What a part demands of its nonterminal

For every part of a rule there is a list of productions that its nonterminal should have: right-hand
sides with their tree actions, in order. `Demands` says which, given a table in which the symbols of
smaller parts are found. It depends on the part alone, and not on other parts that share the helper.

**Theorem (`Demands.of_alike`).** Parts that are alike demand the same.
-/

namespace FourGL

theorem exists_left_of_forall₂ {α β : Type} {R : α → β → Prop} {as : List α} {bs : List β}
    (h : List.Forall₂ R as bs) {b : β} (hb : b ∈ bs) : ∃ a ∈ as, R a b := by
  induction h with
  | nil => cases hb
  | cons hab _ ih =>
    rcases List.mem_cons.mp hb with rfl | hb
    · exact ⟨_, List.mem_cons_self, hab⟩
    · obtain ⟨a, ha, hab⟩ := ih hb
      exact ⟨a, List.mem_cons_of_mem _ ha, hab⟩

theorem exists_right_of_forall₂ {α β : Type} {R : α → β → Prop} {as : List α} {bs : List β}
    (h : List.Forall₂ R as bs) {a : α} (ha : a ∈ as) : ∃ b ∈ bs, R a b :=
  exists_left_of_forall₂ h.flip ha

/-- A right-hand side with its tree action. -/
abbrev Entry := List Symbol × TreeAction

/-- What symbols are found in: terminals, the rules that have been declared, and the nonterminals
entered so far. -/
structure SymbolTable where
  vocabulary : Vocabulary
  rules : List RuleDeclaration
  nonterminals : Array Nonterminal

namespace SymbolTable

/-- A rule of that name has been declared. -/
def Declares (T : SymbolTable) (name : String) : Prop := ∃ d ∈ T.rules, d.name = name

/-- The nonterminal stands for the declared rule. -/
def IsRule (T : SymbolTable) (d : RuleDeclaration) (n : NonterminalId) : Prop :=
  d ∈ T.rules ∧ T.nonterminals[n]? = some ⟨d.name, d.transient, false⟩

/-- The nonterminal is the helper for parts of that look. -/
def IsHelper (T : SymbolTable) (look : String) (n : NonterminalId) : Prop :=
  n ≠ Grammar.start ∧ T.nonterminals[n]? = some ⟨look, false, true⟩

/-- The symbol stands for the part. A name that is not that of a rule may stand for a helper that
looks like it. -/
inductive Stands (T : SymbolTable) : Rule → Symbol → Prop
  | keyword {text : String} {t : TerminalId} : T.vocabulary.keyword? text = some t →
      Stands T (.keyword text) (.terminal t)
  | symbol {text : String} {t : TerminalId} : T.vocabulary.symbol? text = some t →
      Stands T (.symbol text) (.terminal t)
  | rule {d : RuleDeclaration} {n : NonterminalId} : T.IsRule d n →
      Stands T (.ref d.name) (.nonterminal n)
  | tokenClass {name : String} {t : TerminalId} : ¬ T.Declares name →
      T.vocabulary.namedClass? name = some t → Stands T (.ref name) (.terminal t)
  | shadow {name : String} {n : NonterminalId} : ¬ T.Declares name → T.IsHelper name n →
      Stands T (.ref name) (.nonterminal n)
  | helper {r : Rule} {n : NonterminalId} : r.isAtom = false → T.IsHelper r.render n →
      Stands T r (.nonterminal n)

/-- The symbols are what the rule comes to when it is written out. -/
inductive Written (T : SymbolTable) : Rule → List Symbol → Prop
  | empty : Written T .empty []
  | nil : Written T (.seq []) []
  | cons {r : Rule} {rs : List Rule} {xs ys : List Symbol} : Written T r xs →
      Written T (.seq rs) ys → Written T (.seq (r :: rs)) (xs ++ ys)
  | part {r : Rule} {x : Symbol} : r.isSpliced = false → T.Stands r x → Written T r [x]

/-- What becomes of the trees of a group. -/
def groupOf (right : List Symbol) (kind : String) : TreeAction :=
  match right with
  | [] => .absent
  | [_] => .unwrap
  | _ => .node kind

/-- What becomes of the trees of a part that must not vanish. -/
def wrapOf (right : List Symbol) (kind : String) : TreeAction :=
  match right with
  | [_] => .unwrap
  | _ => .node kind

/-- What becomes of the trees of an alternative of the rule. -/
def ruleOf (d : RuleDeclaration) (right : List Symbol) : TreeAction :=
  if d.transient then groupOf right d.name else .node d.name

/-- The alternatives of a rule that is not a repetition. -/
def alternativesOf : Rule → List Rule
  | .alt items => items
  | r => [r]

/-- What a repetition demands of its nonterminal, with nodes of the given kind. -/
inductive Repeats (T : SymbolTable) (n : NonterminalId) (kind : String) : Rule → List Entry → Prop
  | star {item : Rule} {x : Symbol} : T.Stands item x → Repeats T n kind (.star item)
      [([], .emptyList kind), ([.nonterminal n, x], .appendList false)]
  | plus {item : Rule} {x : Symbol} : T.Stands item x → Repeats T n kind (.plus item)
      [([x], .startList kind), ([.nonterminal n, x], .appendList false)]
  | plusSep {item separator : Rule} {x y : Symbol} : T.Stands item x → T.Stands separator y →
      Repeats T n kind (.plusSep item separator)
        [([x], .startList kind),
          ([.nonterminal n, y, x], .appendList (Lower.dropsSeparator T.vocabulary separator))]
  | starSep {item separator : Rule} {x : Symbol} : T.Stands (.plusSep item separator) x →
      Repeats T n kind (.starSep item separator) [([], .emptyList kind), ([x], .unwrap)]

/-- What a part demands of its helper. -/
inductive Demands (T : SymbolTable) (n : NonterminalId) : Rule → List Entry → Prop
  | sequence {r : Rule} {xs : List Symbol} : r.isSpliced = true → T.Written r xs →
      Demands T n r [(xs, wrapOf xs r.render)]
  | alt {items : List Rule} {es : List Entry} :
      List.Forall₂ (fun r e => T.Written r e.1 ∧ e.2 = groupOf e.1 r.render) items es →
      Demands T n (.alt items) es
  | opt {item : Rule} {xs : List Symbol} : T.Written item xs →
      Demands T n (.opt item) [(xs, wrapOf xs item.render), ([], .absent)]
  | list {r : Rule} {es : List Entry} : T.Repeats n r.render r es → Demands T n r es

/-- What a declared rule demands of its nonterminal. -/
inductive RuleDemands (T : SymbolTable) (d : RuleDeclaration) (n : NonterminalId) :
    List Entry → Prop
  | alternatives {es : List Entry} : d.rule.isList = false →
      List.Forall₂ (fun r e => T.Written r e.1 ∧ e.2 = ruleOf d e.1) (alternativesOf d.rule) es →
      RuleDemands T d n es
  | list {es : List Entry} : T.Repeats n d.name d.rule es → RuleDemands T d n es

variable {T T' : SymbolTable} {d : RuleDeclaration} {n : NonterminalId} {x : Symbol}
  {xs : List Symbol} {es : List Entry} {p q : Rule} {kind look : String}

/-! ## Later tables -/

/-- A later table, with more nonterminals. -/
structure Extends (T T' : SymbolTable) : Prop where
  vocabulary : T'.vocabulary = T.vocabulary
  rules : T'.rules = T.rules
  nonterminals : T.nonterminals.toList <+: T'.nonterminals.toList

theorem Extends.getElem? (h : T.Extends T') {nonterminal : Nonterminal}
    (hn : T.nonterminals[n]? = some nonterminal) : T'.nonterminals[n]? = some nonterminal := by
  obtain ⟨more, hmore⟩ := h.nonterminals
  rw [← Array.getElem?_toList] at hn ⊢
  rw [← hmore, List.getElem?_append_left (List.getElem?_eq_some_iff.mp hn).1, hn]

theorem Extends.declares_iff (h : T.Extends T') {name : String} :
    T'.Declares name ↔ T.Declares name := by
  rw [Declares, Declares, h.rules]

theorem IsRule.mono (hr : T.IsRule d n) (h : T.Extends T') : T'.IsRule d n :=
  ⟨h.rules ▸ hr.1, h.getElem? hr.2⟩

theorem IsHelper.mono (hh : T.IsHelper look n) (h : T.Extends T') : T'.IsHelper look n :=
  ⟨hh.1, h.getElem? hh.2⟩

theorem Stands.mono (hs : T.Stands p x) (h : T.Extends T') : T'.Stands p x := by
  cases hs with
  | keyword ht => exact .keyword (h.vocabulary ▸ ht)
  | symbol ht => exact .symbol (h.vocabulary ▸ ht)
  | rule hr => exact .rule (hr.mono h)
  | tokenClass hd ht => exact .tokenClass (mt h.declares_iff.mp hd) (h.vocabulary ▸ ht)
  | shadow hd hh => exact .shadow (mt h.declares_iff.mp hd) (hh.mono h)
  | helper ha hh => exact .helper ha (hh.mono h)

theorem Written.mono (hw : T.Written p xs) (h : T.Extends T') : T'.Written p xs := by
  induction hw with
  | empty => exact .empty
  | nil => exact .nil
  | cons _ _ ih ih' => exact .cons ih ih'
  | part hp hs => exact .part hp (hs.mono h)

theorem Repeats.mono (hr : T.Repeats n kind p es) (h : T.Extends T') : T'.Repeats n kind p es := by
  cases hr with
  | star hs => exact .star (hs.mono h)
  | plus hs => exact .plus (hs.mono h)
  | plusSep hs hs' =>
    rw [← h.vocabulary]
    exact .plusSep (hs.mono h) (hs'.mono h)
  | starSep hs => exact .starSep (hs.mono h)

theorem Demands.mono (hd : T.Demands n p es) (h : T.Extends T') : T'.Demands n p es := by
  cases hd with
  | sequence hp hw => exact .sequence hp (hw.mono h)
  | alt hall => exact .alt (hall.imp fun _ _ he => ⟨he.1.mono h, he.2⟩)
  | opt hw => exact .opt (hw.mono h)
  | list hr => exact .list (hr.mono h)

theorem RuleDemands.mono (hd : T.RuleDemands d n es) (h : T.Extends T') : T'.RuleDemands d n es := by
  cases hd with
  | alternatives hl hall => exact .alternatives hl (hall.imp fun _ _ he => ⟨he.1.mono h, he.2⟩)
  | list hr => exact .list (hr.mono h)

/-! ## Parts that are alike -/

theorem Stands.of_alike (hs : T.Stands p x) (h : p.Alike T.vocabulary q) : T.Stands q x := by
  cases hs with
  | @keyword text t ht =>
    cases h with
    | keyword hkey _ =>
      refine .keyword ?_
      rw [← ht, Vocabulary.keyword?, Vocabulary.keyword?, hkey]
  | symbol ht =>
    cases h
    exact .symbol ht
  | rule hr =>
    cases h
    exact .rule hr
  | tokenClass hd ht =>
    cases h
    exact .tokenClass hd ht
  | shadow hd hh =>
    cases h
    exact .shadow hd hh
  | helper ha hh => exact .helper (h.isAtom_eq ▸ ha) (h.render_eq ▸ hh)

theorem Written.of_alike (hw : T.Written p xs) (h : p.Alike T.vocabulary q) : T.Written q xs := by
  induction hw generalizing q with
  | empty =>
    cases h
    exact .empty
  | nil =>
    cases h with
    | seq h =>
      cases h
      exact .nil
  | cons _ _ ih ih' =>
    cases h with
    | seq h =>
      cases h with
      | cons h hs => exact .cons (ih h) (ih' (.seq hs))
  | part hp hs => exact .part (h.isSpliced_eq ▸ hp) (hs.of_alike h)

theorem dropsSeparator_of_alike {v v' : Vocabulary} (h : p.Alike v q) :
    Lower.dropsSeparator v' p = Lower.dropsSeparator v' q := by
  cases h <;> rfl

theorem Repeats.of_alike (hr : T.Repeats n kind p es) (h : p.Alike T.vocabulary q) :
    T.Repeats n kind q es := by
  cases hr with
  | star hs =>
    cases h with
    | star h => exact .star (hs.of_alike h)
  | plus hs =>
    cases h with
    | plus h => exact .plus (hs.of_alike h)
  | plusSep hs hs' =>
    cases h with
    | plusSep h h' =>
      rw [dropsSeparator_of_alike h']
      exact .plusSep (hs.of_alike h) (hs'.of_alike h')
  | starSep hs =>
    cases h with
    | starSep h h' => exact .starSep (hs.of_alike (.plusSep h h'))

theorem forall₂_of_alike {items items' : List Rule}
    (hall : List.Forall₂ (fun r e => T.Written r e.1 ∧ e.2 = groupOf e.1 r.render) items es)
    (h : Rule.AlikeEach T.vocabulary items items') :
    List.Forall₂ (fun r e => T.Written r e.1 ∧ e.2 = groupOf e.1 r.render) items' es := by
  induction hall generalizing items' with
  | nil =>
    cases h
    exact .nil
  | cons he _ ih =>
    cases h with
    | cons h hs => exact .cons ⟨he.1.of_alike h, h.render_eq ▸ he.2⟩ (ih hs)

/-- **Parts that are alike demand the same.** -/
theorem Demands.of_alike (hd : T.Demands n p es) (h : p.Alike T.vocabulary q) :
    T.Demands n q es := by
  cases hd with
  | sequence hp hw =>
    rw [h.render_eq]
    exact .sequence (h.isSpliced_eq ▸ hp) (hw.of_alike h)
  | alt hall =>
    cases h with
    | alt h => exact .alt (forall₂_of_alike hall h)
  | opt hw =>
    cases h with
    | opt h =>
      rw [h.render_eq]
      exact .opt (hw.of_alike h)
  | list hr =>
    refine .list ?_
    rw [← h.render_eq]
    exact hr.of_alike h

/-- A part of a rule and its symbol. A wrapper is written as the symbol of what it wraps. -/
theorem Written.of_wraps (hw : T.Written p xs) (h : p.Wraps q) : ∃ x, xs = [x] ∧ T.Stands q x := by
  induction h generalizing xs with
  | item hspliced _ =>
    cases hw with
    | cons hw hrest =>
      cases hrest with
      | nil =>
        cases hw with
        | part _ hs => exact ⟨_, rfl, hs⟩
        | _ => cases hspliced
      | part hp _ => cases hp
    | part hp _ => cases hp
  | seq _ ih =>
    cases hw with
    | cons hw hrest =>
      cases hrest with
      | nil =>
        obtain ⟨x, rfl, hs⟩ := ih hw
        exact ⟨x, rfl, hs⟩
      | part hp _ => cases hp
    | part hp _ => cases hp

/-- The helper of a wrapper has one production, for what is wrapped. -/
theorem Demands.of_wraps (hd : T.Demands n p es) (h : p.Wraps q) :
    ∃ x action, es = [([x], action)] ∧ T.Stands q x := by
  cases hd with
  | sequence _ hw =>
    obtain ⟨x, rfl, hs⟩ := hw.of_wraps h
    exact ⟨x, _, rfl, hs⟩
  | list hr =>
    cases hr <;> cases h
  | alt | opt => cases h

end SymbolTable

end FourGL
