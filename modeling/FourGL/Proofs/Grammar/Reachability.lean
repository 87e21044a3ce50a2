import FourGL.Proofs.Grammar.Sharing

/-!
# Reaching nonterminals and referring to rules

A nonterminal leads to those on its right-hand sides. A rule refers to those that it mentions. Where parts
that look the same are alike, both come to the same.

**Theorem (`reachable_iff`).** The start symbol leads to all nonterminals exactly if the root refers to
all declared rules, each directly or through others.

What a part demands spells out the parts inside: there is nothing else on the right-hand sides, and each
part inside is there itself, or belongs to one that is (`Spells`). So what spreads along productions gets to
all parts inside, by induction on how much there is inside.
-/

namespace FourGL

/-! ## What right-hand sides spell out -/

namespace SymbolTable

variable {T : SymbolTable} {d : RuleDeclaration} {n : NonterminalId} {r p q : Rule} {x : Symbol}
  {ps qs rs : List Rule} {xs ys : List Symbol} {es : List Entry} {kind : String}

/-- Every symbol is the nonterminal itself or stands for one of the parts. For every part there is a
symbol that stands for it, or for a part that it belongs to. -/
structure Spells (T : SymbolTable) (n : NonterminalId) (ps : List Rule) (xs : List Symbol) : Prop where
  stands : ∀ x ∈ xs, x = .nonterminal n ∨ ∃ p ∈ ps, T.Stands p x
  covers : ∀ q ∈ ps, ∃ p ∈ ps, q ∈ p :: p.inner ∧ ∃ x ∈ xs, T.Stands p x

theorem Spells.nil : T.Spells n [] [] := ⟨by simp, by simp⟩

theorem Spells.part (hs : T.Stands p x) : T.Spells n (p :: p.inner) [x] := by
  refine ⟨fun y hy => Or.inr ⟨p, List.mem_cons_self, ?_⟩,
    fun q hq => ⟨p, List.mem_cons_self, hq, x, List.mem_cons_self, hs⟩⟩
  rw [List.mem_singleton.mp hy]
  exact hs

theorem Spells.append (h : T.Spells n ps xs) (h' : T.Spells n qs ys) :
    T.Spells n (ps ++ qs) (xs ++ ys) := by
  refine ⟨fun x hx => ?_, fun q hq => ?_⟩
  · rcases List.mem_append.mp hx with hx | hx
    · exact (h.stands x hx).imp_right fun ⟨p, hp, hs⟩ => ⟨p, List.mem_append_left _ hp, hs⟩
    · exact (h'.stands x hx).imp_right fun ⟨p, hp, hs⟩ => ⟨p, List.mem_append_right _ hp, hs⟩
  · rcases List.mem_append.mp hq with hq | hq
    · obtain ⟨p, hp, hqp, x, hx, hs⟩ := h.covers q hq
      exact ⟨p, List.mem_append_left _ hp, hqp, x, List.mem_append_left _ hx, hs⟩
    · obtain ⟨p, hp, hqp, x, hx, hs⟩ := h'.covers q hq
      exact ⟨p, List.mem_append_right _ hp, hqp, x, List.mem_append_right _ hx, hs⟩

/-- Symbols may be repeated, and the nonterminal itself added. -/
theorem Spells.repeated (h : T.Spells n ps xs) (hsub : xs ⊆ ys) (hmore : ys ⊆ .nonterminal n :: xs) :
    T.Spells n ps ys := by
  refine ⟨fun x hx => ?_, fun q hq => ?_⟩
  · rcases List.mem_cons.mp (hmore hx) with rfl | hx
    · exact Or.inl rfl
    · exact h.stands x hx
  · obtain ⟨p, hp, hqp, x, hx, hs⟩ := h.covers q hq
    exact ⟨p, hp, hqp, x, hsub hx, hs⟩

theorem Written.spells (hw : T.Written r xs) (n : NonterminalId) :
    T.Spells n (r.spliced r.inner) xs := by
  induction hw with
  | empty | nil => exact .nil
  | cons _ _ ih ih' => exact ih.append ih'
  | part hp hs =>
    rw [Rule.spliced, hp, if_neg Bool.false_ne_true]
    exact .part hs

theorem spells_innerEach (hall : List.Forall₂ (fun r (e : Entry) => T.Written r e.1) rs es)
    (n : NonterminalId) : T.Spells n (Rule.innerEach rs) (es.flatMap Prod.fst) := by
  induction hall with
  | nil => exact .nil
  | cons he _ ih => exact (he.spells n).append ih

theorem Repeats.spells (hr : T.Repeats n kind r es) : T.Spells n r.inner (es.flatMap Prod.fst) := by
  cases hr with
  | star hx | plus hx => exact (Spells.part hx).repeated (by simp) (by simp)
  | plusSep hx hy => exact ((Spells.part hx).append (.part hy)).repeated (by simp) (by simp)
  | starSep hx => exact .part hx

theorem Demands.spells (hd : T.Demands n r es) : T.Spells n r.inner (es.flatMap Prod.fst) := by
  cases hd with
  | sequence hspliced hw =>
    have hspells := hw.spells n
    rw [Rule.spliced, hspliced, if_pos rfl] at hspells
    simpa using hspells
  | alt hall => exact spells_innerEach (hall.imp fun _ _ he => he.1) n
  | opt hw => simpa [Rule.inner] using hw.spells n
  | list hr => exact hr.spells

theorem RuleDemands.spells (hd : T.RuleDemands d n es) :
    T.Spells n d.rule.parts (es.flatMap Prod.fst) := by
  cases hd with
  | alternatives hl hall =>
    rw [← innerEach_alternativesOf hl]
    exact spells_innerEach (hall.imp fun _ _ he => he.1) n
  | list hr =>
    have hparts : d.rule.parts = d.rule.inner := by
      generalize d.rule = r at hr
      cases hr <;> rfl
    rw [hparts]
    exact hr.spells

end SymbolTable

/-! ## Leading to nonterminals -/

namespace Grammar

variable {g : Grammar} {d e : RuleDeclaration} {m n : NonterminalId} {p q r : Rule} {x : Symbol}
  {root name : String} {Q : Symbol → Prop}

/-- The second nonterminal is on a right-hand side of the first. -/
def Leads (g : Grammar) (m n : NonterminalId) : Prop :=
  .nonterminal n ∈ (g.entriesOf m).flatMap Prod.fst

/-- The start symbol leads to the symbol. -/
def Accessible (g : Grammar) : Symbol → Prop
  | .terminal _ => True
  | .nonterminal n => Relation.ReflTransGen g.Leads start n

/-- What holds of a nonterminal holds of all symbols on its right-hand sides. -/
def Spreads (g : Grammar) (Q : Symbol → Prop) : Prop :=
  ∀ n, Q (.nonterminal n) → ∀ x ∈ (g.entriesOf n).flatMap Prod.fst, Q x

theorem spreads_accessible : g.Spreads g.Accessible := by
  intro n hn x hx
  cases x with
  | terminal t => trivial
  | nonterminal m => exact Relation.ReflTransGen.tail hn hx

/-- A helper has what each part demands that it stands for. -/
theorem Lowered.demands (h : g.Lowered) (halike : LooksAlike g.vocabulary g.rules.toList)
    (hp : TakesHelper g.rules.toList p) (hh : g.table.IsHelper p.render n) :
    g.table.Demands n p (g.entriesOf n) :=
  h.sharesByLook.demands hp (hp.stands_iff.mpr hh) fun q hq hlook => halike q p hq hp hlook

/-- Something is inside a part only if the part takes a helper. -/
theorem isAtom_of_mem_inner (hq : q ∈ p.inner) : p.isAtom = false := by
  cases p with
  | keyword | symbol | ref => cases hq
  | _ => rfl

/-- What spreads gets from a part to all that is inside. -/
theorem Lowered.exists_of_mem_inner (h : g.Lowered)
    (halike : LooksAlike g.vocabulary g.rules.toList) (hQ : g.Spreads Q) (hp : IsPart g.rules.toList p)
    (hs : g.table.Stands p x) (hx : Q x) (hq : q ∈ p.inner) : ∃ y, g.table.Stands q y ∧ Q y := by
  induction hlength : p.inner.length using Nat.strong_induction_on generalizing p x with
  | _ length ih =>
    have hatom := isAtom_of_mem_inner hq
    cases hs with
    | keyword | symbol | rule | tokenClass | shadow => cases hatom
    | @helper _ n _ hh =>
      have hspells := (h.demands halike ⟨hp, Or.inl hatom⟩ hh).spells
      obtain ⟨r, hr, hqr, y, hy, hsy⟩ := hspells.covers q hq
      have hQy := hQ n hx y hy
      rcases List.mem_cons.mp hqr with rfl | hqr
      · exact ⟨y, hsy, hQy⟩
      · have hless : r.inner.length < length := by
          rw [← hlength]
          exact p.length_inner_lt r hr
        exact ih _ hless (hp.of_mem_inner hr) hsy hQy hqr rfl

/-- What spreads gets from a declared rule to all of its parts. -/
theorem Lowered.exists_of_mem_parts (h : g.Lowered)
    (halike : LooksAlike g.vocabulary g.rules.toList) (hQ : g.Spreads Q) (hd : g.table.IsRule d n)
    (hn : Q (.nonterminal n)) (hq : q ∈ d.rule.parts) : ∃ y, g.table.Stands q y ∧ Q y := by
  obtain ⟨r, hr, hqr, y, hy, hsy⟩ := (h.rule d n hd).spells.covers q hq
  have hQy := hQ n hn y hy
  rcases List.mem_cons.mp hqr with rfl | hqr
  · exact ⟨y, hsy, hQy⟩
  · exact h.exists_of_mem_inner halike hQ (isPart_of_mem d hd.1 r hr) hsy hQy hqr

/-! ## Referring to rules -/

/-- The first name is that of a declared rule, which mentions the second. -/
def Refers (rules : List RuleDeclaration) (name name' : String) : Prop :=
  ∃ d ∈ rules, d.name = name ∧ name' ∈ d.rule.references

/-- The root refers to the rule, directly or through others. -/
def ReferredFrom (rules : List RuleDeclaration) (root : String) (d : RuleDeclaration) : Prop :=
  Relation.ReflTransGen (Refers rules) root d.name

/-- All rules that the root refers to are reached. -/
theorem Lowered.accessible_of_referred (h : g.Lowered)
    (halike : LooksAlike g.vocabulary g.rules.toList) (hroot : g.table.IsRule e g.root)
    (hd : g.table.IsRule d n) (hreferred : ReferredFrom g.rules.toList e.name d) :
    g.Accessible (.nonterminal n) := by
  rw [ReferredFrom] at hreferred
  generalize hname : d.name = name at hreferred
  induction hreferred generalizing d n with
  | refl =>
    obtain rfl := h.eq_of_name_eq hd.1 hroot.1 hname
    obtain rfl := h.rule_unique hd hroot
    refine Relation.ReflTransGen.single ?_
    rw [Leads, h.first]
    exact List.mem_cons_self
  | tail _ hrefers ih =>
    obtain ⟨d', hd', hname', hmention⟩ := hrefers
    obtain ⟨n', hn'⟩ := h.exists_rule d' hd'
    have hpart : .ref d.name ∈ d'.rule.parts := by
      rw [Rule.ref_mem_parts, hname]
      exact hmention
    obtain ⟨y, hy, hyaccessible⟩ :=
      h.exists_of_mem_parts halike spreads_accessible hn' (ih hn' hname') hpart
    -- The name is that of a rule, so nothing else can stand for it.
    generalize hmentioned : Rule.ref d.name = r at hy
    cases hy with
    | @rule d'' m hr =>
      have hsame : d'' = d := h.eq_of_name_eq hr.1 hd.1 (Rule.ref.inj hmentioned).symm
      rw [hsame] at hr
      rwa [h.rule_unique hd hr]
    | tokenClass hno | shadow hno => exact absurd ⟨d, hd.1, Rule.ref.inj hmentioned⟩ hno
    | keyword | symbol => cases hmentioned
    | helper hatom =>
      rw [← hmentioned] at hatom
      cases hatom

/-- The nonterminal stands for a rule that the root refers to, or for a part of such a rule. -/
def Serves (g : Grammar) (root : String) (n : NonterminalId) : Prop :=
  ∃ d ∈ g.rules.toList, ReferredFrom g.rules.toList root d ∧ (g.table.IsRule d n ∨
    ∃ p ∈ d.rule.parts, TakesHelper g.rules.toList p ∧ g.table.IsHelper p.render n)

/-- What stands for a part of a rule that the root refers to serves it. -/
theorem serves_of_stands (hd : d ∈ g.rules.toList) (hreferred : ReferredFrom g.rules.toList root d)
    (hp : p ∈ d.rule.parts) (hs : g.table.Stands p (.nonterminal n)) : g.Serves root n := by
  have hpart : IsPart g.rules.toList p := isPart_of_mem d hd p hp
  cases hs with
  | @rule d' _ hr =>
    refine ⟨d', hr.1, hreferred.tail ⟨d, hd, rfl, ?_⟩, Or.inl hr⟩
    exact Rule.ref_mem_parts.mp hp
  | shadow hno hh => exact ⟨d, hd, hreferred, Or.inr ⟨_, hp, ⟨hpart, Or.inr ⟨_, rfl, hno⟩⟩, hh⟩⟩
  | helper hatom hh => exact ⟨d, hd, hreferred, Or.inr ⟨p, hp, ⟨hpart, Or.inl hatom⟩, hh⟩⟩

theorem Lowered.serves_of_leads (h : g.Lowered) (halike : LooksAlike g.vocabulary g.rules.toList)
    (hm : g.Serves root m) (hleads : g.Leads m n) : g.Serves root n := by
  obtain ⟨d, hd, hreferred, hr | ⟨p, hp, htakes, hh⟩⟩ := hm
  · rcases (h.rule d m hr).spells.stands _ hleads with heq | ⟨q, hq, hs⟩
    · rw [Symbol.nonterminal.inj heq]
      exact ⟨d, hd, hreferred, Or.inl hr⟩
    · exact serves_of_stands hd hreferred hq hs
  · rcases (h.demands halike htakes hh).spells.stands _ hleads with heq | ⟨q, hq, hs⟩
    · rw [Symbol.nonterminal.inj heq]
      exact ⟨d, hd, hreferred, Or.inr ⟨p, hp, htakes, hh⟩⟩
    · exact serves_of_stands hd hreferred (Rule.inner_subset_parts_of_mem hp hq) hs

theorem Lowered.serves_of_accessible (h : g.Lowered) (halike : LooksAlike g.vocabulary g.rules.toList)
    (hroot : g.table.IsRule e g.root) (hn : Relation.ReflTransGen g.Leads start n) :
    n = start ∨ g.Serves e.name n := by
  induction hn with
  | refl => exact Or.inl rfl
  | tail _ hleads ih =>
    refine Or.inr ?_
    rcases ih with rfl | hserves
    · rw [Leads, h.first] at hleads
      have heq := Symbol.nonterminal.inj (List.mem_singleton.mp hleads)
      rw [heq]
      exact ⟨e, hroot.1, .refl, Or.inl hroot⟩
    · exact h.serves_of_leads halike hserves hleads

/-- **Reaching and referring.** All nonterminals are reached exactly if the root refers to all rules. -/
theorem Lowered.reachable_iff (h : g.Lowered) (halike : LooksAlike g.vocabulary g.rules.toList)
    (hroot : g.table.IsRule e g.root) :
    (∀ n < g.nonterminals.size, g.Accessible (.nonterminal n)) ↔
      ∀ d ∈ g.rules.toList, ReferredFrom g.rules.toList e.name d := by
  constructor
  · intro hall d hd
    obtain ⟨n, hn⟩ := h.exists_rule d hd
    have hlt : n < g.nonterminals.size := (Array.getElem?_eq_some_iff.mp hn.2).1
    rcases h.serves_of_accessible halike hroot (hall n hlt) with rfl | ⟨d', hd', hreferred, hr | hpart⟩
    · exact absurd hn h.not_isRule_start
    · rwa [h.rule_eq hn hr]
    · obtain ⟨p, -, -, hh⟩ := hpart
      exact absurd hn (Lower.ne_of_isHelper_of_isRule hh)
  · intro hall n hlt
    by_cases hn : n = start
    · rw [hn]
      exact Relation.ReflTransGen.refl
    · rcases h.cover n hn hlt with ⟨d, hd⟩ | ⟨look, hh⟩
      · exact h.accessible_of_referred halike hroot hd (hall d hd.1)
      · obtain ⟨r, ⟨d, hd, hr⟩, hatom, rfl, -⟩ := h.helper look n hh
        obtain ⟨m, hm⟩ := h.exists_rule d hd
        have hmaccessible := h.accessible_of_referred halike hroot hm (hall d hd)
        obtain ⟨y, hy, hyaccessible⟩ := h.exists_of_mem_parts halike spreads_accessible hm hmaccessible hr
        cases hy with
        | keyword | symbol | rule | tokenClass | shadow => cases hatom
        | helper _ hh' => rwa [h.unique _ n _ hh hh']

end Grammar

end FourGL
