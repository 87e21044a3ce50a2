import FourGL.Proofs.Grammar.Validation

/-!
# How long right-hand sides are

Sequences within sequences are written out in place. So a rule comes to as many symbols as there are
items in it that are no sequences: its *width*.

**Theorem (`Lowered.length_right`).** A right-hand side has three symbols at most, or as many as some
part of a rule is wide.

**Theorem (`Lowered.exists_as_wide`).** Every alternative of a declared rule that is no repetition has a
right-hand side of its width.

**Theorem (`exists_build_long`).** There is a grammar for every width. The tables that may be full hold
terminals, nonterminals and node kinds, and a sequence of one symbol needs no more of these the longer
it is.
-/

namespace FourGL

/-! ## Widths -/

namespace Rule

variable {r : Rule}

mutual

/-- How many symbols the rule comes to where it is written out. -/
def width : Rule → Nat
  | .empty => 0
  | .seq items => widthOfAll items
  | _ => 1

/-- How many symbols the rules come to, one after the other. -/
def widthOfAll : List Rule → Nat
  | [] => 0
  | r :: rs => r.width + widthOfAll rs

end

theorem width_eq_one (h : r.isSpliced = false) : r.width = 1 := by
  cases r with
  | empty | seq => cases h
  | keyword | symbol | ref | alt | opt | star | plus | starSep | plusSep => rw [width] <;> nofun

theorem widthOfAll_replicate (n : Nat) (h : r.isSpliced = false) :
    widthOfAll (List.replicate n r) = n := by
  induction n with
  | zero => rfl
  | succ n ih => rw [List.replicate_succ, widthOfAll, width_eq_one h, ih, Nat.add_comm]

theorem mentionsOfAll_replicate (n : Nat) (m : Mention) (h : r.mentions = [m]) :
    mentionsOfAll (List.replicate n r) = List.replicate n m := by
  induction n with
  | zero => rfl
  | succ n ih => rw [List.replicate_succ, mentionsOfAll, h, ih, List.replicate_succ, List.singleton_append]

end Rule

namespace SymbolTable

variable {T : SymbolTable} {r : Rule} {n : NonterminalId} {xs : List Symbol} {es : List Entry}
  {kind : String} {entry : Entry}

theorem Written.length_eq (h : T.Written r xs) : xs.length = r.width := by
  induction h with
  | empty | nil => rfl
  | cons _ _ ih ih' =>
    rw [List.length_append, ih, ih', Rule.width, Rule.width, Rule.widthOfAll]
  | part hspliced _ => exact (Rule.width_eq_one hspliced).symm

theorem Repeats.isList_eq (h : T.Repeats n kind r es) : r.isList = true := by cases h <;> rfl

theorem Repeats.length_le (h : T.Repeats n kind r es) (hentry : entry ∈ es) : entry.1.length ≤ 3 := by
  cases h <;> rcases List.mem_pair.mp hentry with rfl | rfl <;> simp

end SymbolTable

namespace Grammar

variable {g : Grammar} {d : RuleDeclaration} {r : Rule} {p : ProductionId}

open SymbolTable (alternativesOf)

/-! ## Right-hand sides -/

theorem alternativesOf_subset_subrules : alternativesOf r ⊆ r.subrules := by
  cases r with
  | alt items => exact List.subset_cons_of_subset _ (Rule.subset_withinEach items)
  | empty | keyword | symbol | ref | seq | opt | star | plus | starSep | plusSep =>
    exact List.cons_subset.mpr ⟨List.mem_cons_self, List.nil_subset _⟩

/-- **Lengths.** A right-hand side has three symbols at most, or as many as some part of a rule is wide. -/
theorem Lowered.length_right (h : g.Lowered) (hp : p < g.productions.size) :
    (g.production p).right.length ≤ 3 ∨
      ∃ r, IsSubrule g.rules.toList r ∧ (g.production p).right.length = r.width := by
  have hentry := production_mem_entriesOf hp
  by_cases hstart : (g.production p).left = start
  · rw [hstart, h.first, List.mem_singleton] at hentry
    rw [(Prod.mk.inj hentry).1]
    exact Or.inl (by simp)
  · rcases h.cover _ hstart (h.left p hp) with ⟨d, hd⟩ | ⟨look, hh⟩
    · cases h.rule d _ hd with
      | alternatives _ hall =>
        obtain ⟨r, hr, hwritten, -⟩ := exists_left_of_forall₂ hall hentry
        exact Or.inr ⟨r, ⟨d, hd.1, alternativesOf_subset_subrules hr⟩, hwritten.length_eq⟩
      | list hlist => exact Or.inl (hlist.length_le hentry)
    · obtain ⟨r, ⟨d, hd, hr⟩, -, -, hdemands⟩ := h.helper look _ hh
      have hsubrule : r ∈ d.rule.subrules := Rule.parts_subset_subrules hr
      have hwithin := Rule.within_subset_subrules hsubrule
      generalize g.entriesOf (g.production p).left = es at hentry hdemands
      cases hdemands with
      | sequence _ hwritten =>
        rw [List.mem_singleton] at hentry
        rw [(Prod.mk.inj hentry).1]
        exact Or.inr ⟨r, ⟨d, hd, hsubrule⟩, hwritten.length_eq⟩
      | alt hall =>
        obtain ⟨q, hq, hwritten, -⟩ := exists_left_of_forall₂ hall hentry
        exact Or.inr ⟨q, ⟨d, hd, hwithin (Rule.subset_withinEach _ hq)⟩, hwritten.length_eq⟩
      | opt hwritten =>
        rcases List.mem_pair.mp hentry with heq | heq
        · rw [(Prod.mk.inj heq).1]
          exact Or.inr ⟨_, ⟨d, hd, hwithin List.mem_cons_self⟩, hwritten.length_eq⟩
        · rw [(Prod.mk.inj heq).1]
          exact Or.inl (Nat.zero_le 3)
      | list hlist => exact Or.inl (hlist.length_le hentry)

/-- Every alternative of a declared rule is written out in a right-hand side. -/
theorem Lowered.exists_written {n : NonterminalId} (h : g.Lowered) (hn : g.table.IsRule d n)
    (hlist : d.rule.isList = false) (hr : r ∈ alternativesOf d.rule) :
    ∃ p < g.productions.size, (g.production p).left = n ∧ g.table.Written r (g.production p).right := by
  cases h.rule d n hn with
  | alternatives _ hall =>
    obtain ⟨entry, hentry, hwritten, -⟩ := exists_right_of_forall₂ hall hr
    obtain ⟨p, hp, heq⟩ := mem_entriesOf.mp hentry
    exact ⟨p, hp, by rw [heq], by rwa [heq]⟩
  | list hrepeats => exact absurd (hlist.symm.trans hrepeats.isList_eq) Bool.false_ne_true

/-- **Every alternative has a right-hand side of its width.** -/
theorem Lowered.exists_as_wide (h : g.Lowered) (hd : d ∈ g.rules.toList) (hlist : d.rule.isList = false)
    (hr : r ∈ alternativesOf d.rule) :
    ∃ p < g.productions.size, (g.production p).right.length = r.width := by
  obtain ⟨n, hn⟩ := h.exists_rule d hd
  obtain ⟨p, hp, -, hwritten⟩ := h.exists_written hn hlist hr
  exact ⟨p, hp, hwritten.length_eq⟩

/-- Where no part of a rule is wider than a limit, no right-hand side is longer. -/
theorem Lowered.length_right_le (h : g.Lowered) {limit : Nat} (hlimit : 3 ≤ limit)
    (hwidth : ∀ r, IsSubrule g.rules.toList r → r.width ≤ limit) (hp : p < g.productions.size) :
    (g.production p).right.length ≤ limit := by
  rcases h.length_right hp with hle | ⟨r, hr, heq⟩
  · exact hle.trans hlimit
  · rw [heq]
    exact hwidth r hr

end Grammar

/-! ## A grammar for every width -/

namespace Lower

variable {v : Vocabulary} {rules : List RuleDeclaration}

/-- Literals need no room, however many they are. -/
theorem runs_inlineAll_of_literals {rs : List Rule} (hliteral : ∀ r ∈ rs, r.weight = 0)
    (h : ∀ m ∈ Rule.mentionsOfAll rs, m.Known v rules) : Runs v rules 0 (inlineAll rs) := by
  induction rs with
  | nil => exact .pure _
  | cons r rs ih =>
    obtain ⟨hr, hrs⟩ := List.forall_mem_cons.mp hliteral
    have huses := uses_run r fun m hm => h m (List.mem_append_left _ hm)
    rw [hr] at huses
    have hrest := ih hrs fun m hm => h m (List.mem_append_right _ hm)
    exact huses.inline.bind fun _ => hrest.bind fun _ => .pure _

/-- A rule that is a sequence of literals needs room for its node kind alone. -/
theorem runs_ruleProductions_of_literals {d : RuleDeclaration} {items : List Rule}
    (hrule : d.rule = .seq items) (hliteral : ∀ r ∈ items, r.weight = 0)
    (h : ∀ m ∈ d.rule.mentions, m.Known v rules) : Runs v rules 1 (ruleProductions d) := by
  rw [hrule] at h
  have hinline : Runs v rules 0 (inlineAll items) := runs_inlineAll_of_literals hliteral h
  refine Runs.mono (k := 0 + 1) ?_ (Nat.le_refl _)
  refine Runs.bind (.modify (fun s hs => ⟨hs.vocabulary, hs.names, hs.places⟩) fun _ => rfl)
    fun _ => .get_bind fun s hs => ?_
  simp only [hrule]
  refine RunsFrom.mono (k := 0 + (1 + 0) + 0) ?_ (Nat.le_refl _)
  exact ((hinline.bind fun _ => (runs_ruleAction d _).bind fun _ => runs_produce _ _ _).bind
    fun _ => .pure _) s hs

end Lower

namespace Declarations

open Grammar

/-- A symbol is entered once, however often it is mentioned. -/
theorem internMentions_replicate {d : Declarations} {text : String} {t : TerminalId}
    (h : d.vocabulary.symbol? text = some t) (n : Nat) :
    (List.replicate n (.symbol text)).foldl internMention d = d := by
  induction n with
  | zero => rfl
  | succ n ih =>
    have hsame : d.internMention (.symbol text) = d := by
      simp only [internMention, symbol, intern, Vocabulary.internSymbol, h]
    rw [List.replicate_succ, List.foldl_cons, hsame, ih]

end Declarations

/-- A rule of as many plus signs as one likes. -/
def longRule (n : Nat) : RuleDeclaration := ⟨"s", .seq (List.replicate n (.symbol "+")), false⟩

/-- The grammar of that rule. -/
def longSteps (n : Nat) : List DeclarationStep := [.rule "s" (longRule n).rule, .root "s"]

theorem mentions_longRule (n : Nat) :
    (longRule n).rule.mentions = List.replicate n (.symbol "+") :=
  Rule.mentionsOfAll_replicate n (.symbol "+") rfl

namespace Declarations

open Grammar

theorem ofSteps_long (n : Nat) : ofSteps "long" (longSteps n) =
    { name := "long", rules := #[longRule n], root := some "s" } := by
  simp [ofSteps, longSteps, take, rule, declare, rooted, empty, longRule]

theorem rules_long (n : Nat) : (ofSteps "long" (longSteps n)).rules.toList = [longRule n] := by
  rw [ofSteps_long]

theorem exists_entered_long (n : Nat) : ∃ d', [longRule n].foldlM internRule
    (ofSteps "long" (longSteps n)) = .ok d' ∧ d'.defect = none := by
  have hname : Vocabulary.initial.names["s"]? = none := by decide +kernel
  have hentered : ∃ v, Vocabulary.initial.internSymbol "+" = (v, .ok 2) ∧ v.symbol? "+" = some 2 :=
    ⟨_, Prod.ext rfl (by decide +kernel), by decide +kernel⟩
  have hok : [longRule n].foldlM internRule (ofSteps "long" (longSteps n)) = .ok
      ((List.replicate n (.symbol "+")).foldl internMention (ofSteps "long" (longSteps n))) := by
    rw [ofSteps_long, List.foldlM_cons, internRule, show (longRule n).name = "s" from rfl, hname,
      mentions_longRule]
    rfl
  refine ⟨_, hok, ?_⟩
  rw [ofSteps_long]
  cases n with
  | zero => rfl
  | succ n =>
    obtain ⟨v, hv, hsymbol⟩ := hentered
    rw [List.replicate_succ, List.foldl_cons, internMention, symbol, intern, hv]
    rw [internMentions_replicate hsymbol]

theorem exists_complete_long (n : Nat) :
    ∃ d', (ofSteps "long" (longSteps n)).Complete d' (longRule n) := by
  obtain ⟨d', hentered, hdefect⟩ := exists_entered_long n
  refine ⟨d', ?_, ?_, ?_, hdefect, ?_⟩
  · rw [rules_long]
    exact List.mem_cons_self
  · rw [ofSteps_long]
    rfl
  · rwa [rules_long]
  · rw [rules_long]
    intro e he name hname
    rw [List.mem_singleton.mp he, Rule.references, mentions_longRule] at hname
    obtain ⟨m, hm, heq⟩ := List.mem_filterMap.mp hname
    rw [List.eq_of_mem_replicate hm] at heq
    cases heq

theorem exists_assemble_long (n : Nat) : ∃ g, (ofSteps "long" (longSteps n)).assemble = .ok g ∧
    g.rules.toList = [longRule n] := by
  obtain ⟨d', hcomplete⟩ := exists_complete_long n
  have hknown := hcomplete.known
  rw [rules_long] at hknown
  have hcost : ∀ e ∈ [longRule n],
      Lower.Runs d'.vocabulary [longRule n] 1 (Lower.ruleProductions e) := by
    intro e he
    have hrule : e.rule = .seq (List.replicate n (.symbol "+")) := by
      rw [List.mem_singleton.mp he]
      rfl
    refine Lower.runs_ruleProductions_of_literals hrule (fun r hr => ?_) (hknown e he)
    rw [List.eq_of_mem_replicate hr]
    rfl
  have hruns := Lower.all_runs_of (List.pairwise_singleton _ _) ⟨_, List.mem_cons_self, rfl⟩ hknown hcost
  rcases hcomplete.assemble_of_all with ⟨g, hg⟩ | ⟨e, he, hall⟩
  · obtain ⟨_, _, _, -, -, -, hsame, -⟩ := assemble_ok hg
    exact ⟨g, hg, by rw [hsame, rules_long]⟩
  · rw [rules_long] at hall
    rcases hruns with ⟨a, s, hok, -⟩ | ⟨_, _, _, hlt⟩
    · rw [hok] at hall
      cases hall
    · exact absurd (show maxIndex < 4 from hlt) (by decide)

end Declarations

namespace Grammar

variable {g : Grammar} {n : Nat} {m : NonterminalId}

theorem exists_yields_of_written {text : String} {xs : List Symbol}
    (h : g.table.Written (.seq (List.replicate n (.symbol text))) xs) : ∃ w k, g.Yields xs w k := by
  induction n generalizing xs with
  | zero =>
    cases h with
    | nil => exact ⟨[], 0, .nil⟩
    | part hspliced => cases hspliced
  | succ n ih =>
    rw [List.replicate_succ] at h
    cases h with
    | cons hfirst hrest =>
      obtain ⟨w, k, hw⟩ := ih hrest
      cases hfirst with
      | part _ hs =>
        cases hs with
        | symbol => exact ⟨_, _, .terminal hw⟩
        | helper hatom => cases hatom
    | part hspliced => cases hspliced

/-- The only nonterminal but the start symbol is that of the rule, as no part of it takes a helper. -/
theorem Lowered.isRule_long (h : g.Lowered) (hrules : g.rules.toList = [longRule n]) (hm : m ≠ start)
    (hlt : m < g.nonterminals.size) : g.table.IsRule (longRule n) m := by
  rcases h.cover m hm hlt with ⟨d, hd⟩ | ⟨look, hh⟩
  · have hsame : d = longRule n := List.mem_singleton.mp (hrules ▸ hd.1)
    exact hsame ▸ hd
  · obtain ⟨r, ⟨d, hd, hr⟩, hatom, -⟩ := h.helper look m hh
    rw [hrules, List.mem_singleton] at hd
    subst hd
    obtain ⟨q, hq, hr⟩ := Rule.mem_innerEach.mp hr
    rw [List.eq_of_mem_replicate hq] at hr
    rw [List.mem_singleton.mp hr] at hatom
    cases hatom

theorem Lowered.eq_root_long (h : g.Lowered) (hrules : g.rules.toList = [longRule n])
    (hroot : g.table.IsRule (longRule n) g.root) (hm : m ≠ start) (hlt : m < g.nonterminals.size) :
    m = g.root :=
  h.rule_unique (h.isRule_long hrules hm hlt) hroot

end Grammar

open Grammar Declarations

/-- **A right-hand side may be as long as one likes.** -/
theorem exists_build_long (n : Nat) : ∃ g, (ofSteps "long" (longSteps n)).build = .ok g ∧
    g.rules.toList = [longRule n] := by
  obtain ⟨g, hg, hrules⟩ := exists_assemble_long n
  obtain ⟨h, e, -, hroot⟩ := lowered_of_assemble (distinctNames_ofSteps "long" (longSteps n)) hg
  obtain rfl : e = longRule n := List.mem_singleton.mp (hrules ▸ hroot.1)
  refine ⟨g, build_eq_ok hg ((h.check_iff hroot).mpr ⟨fun m hm hlt => ?_, fun m hlt => ?_⟩), hrules⟩
  · obtain ⟨p, hp, hleft, hwritten⟩ := h.exists_written hroot rfl List.mem_cons_self
    obtain ⟨w, k, hw⟩ := exists_yields_of_written hwritten
    rw [h.eq_root_long hrules hroot hm hlt, ← hleft]
    exact ⟨w, mem_languageOf.mpr ⟨_, .of_production hp hw⟩⟩
  · by_cases hm : m = start
    · rw [hm]
      exact Relation.ReflTransGen.refl
    · rw [h.eq_root_long hrules hroot hm hlt]
      refine spreads_accessible start Relation.ReflTransGen.refl _ ?_
      rw [h.first]
      exact List.mem_cons_self

end FourGL
