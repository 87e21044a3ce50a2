import FourGL.Proofs.Grammar.Demands
import FourGL.Proofs.Grammar.Lowering

/-!
# The tables of nonterminals grow

While rules are lowered, helpers are entered in the midst of filling others. A nonterminal is found by
the name of its rule, or by the look of the parts that it is the helper for (`Tabled`).

Each step leaves alone the nonterminals that were there before, but for the one it fills, and has
filled those that it enters (`Grows`).
-/

namespace FourGL

/-- The right-hand sides and actions of a nonterminal, in the order of the productions. -/
def entriesIn (productions : List Production) (n : NonterminalId) : List Entry :=
  (productions.filter (·.left = n)).map fun p => (p.right, p.action)

theorem entriesIn_append (ps qs : List Production) (n : NonterminalId) :
    entriesIn (ps ++ qs) n = entriesIn ps n ++ entriesIn qs n := by
  simp [entriesIn]

namespace Lowering

/-- The tables of a state, with the rules that are declared. -/
def table (s : Lowering) (rules : List RuleDeclaration) : SymbolTable :=
  ⟨s.vocabulary, rules, s.nonterminals⟩

/-- The right-hand sides and actions that a nonterminal has in a state. -/
def entriesOf (s : Lowering) (n : NonterminalId) : List Entry := entriesIn s.productions.toList n

variable {rules : List RuleDeclaration} {Part : Rule → Prop} {s s' s'' : Lowering}
  {left n : NonterminalId} {es es' : List Entry} {look : String}

/-- Nonterminals are found by the names of rules and the looks of helpers. -/
structure Tabled (rules : List RuleDeclaration) (s : Lowering) : Prop where
  start : s.nonterminals[Grammar.start]? = some ⟨"$accept", false, true⟩
  lefts : ∀ p ∈ s.productions, p.left < s.nonterminals.size
  exists_rule : ∀ d ∈ rules, ∃ n, (s.table rules).IsRule d n
  declared : ∀ d n, (s.table rules).IsRule d n → s.names[d.name]? = some n
  names : ∀ (name : String) (n : NonterminalId), s.names[name]? = some n →
    (s.table rules).Declares name ∨ (s.table rules).IsHelper name n
  helpers : ∀ (look : String) (n : NonterminalId),
    s.helpers[look]? = some n ↔ (s.table rules).IsHelper look n
  cover : ∀ n, n ≠ Grammar.start → n < s.nonterminals.size →
    (∃ d, (s.table rules).IsRule d n) ∨ ∃ look, (s.table rules).IsHelper look n

/-- A later state, in which the nonterminal on the left has further productions, and the new
nonterminals are helpers with what some part demands. -/
structure Grows (rules : List RuleDeclaration) (Part : Rule → Prop) (left : NonterminalId)
    (es : List Entry) (s s' : Lowering) : Prop where
  table : (s.table rules).Extends (s'.table rules)
  old : ∀ n < s.nonterminals.size, s'.entriesOf n = s.entriesOf n ++ if n = left then es else []
  fresh : ∀ n, s.nonterminals.size ≤ n → n < s'.nonterminals.size → ∃ r, Part r ∧
    r.isAtom = false ∧ (s'.table rules).IsHelper r.render n ∧
      (s'.table rules).Demands n r (s'.entriesOf n)

theorem Tabled.pos (h : s.Tabled rules) : 0 < s.nonterminals.size :=
  (Array.getElem?_eq_some_iff.mp h.start).1

theorem Tabled.entriesOf_eq_nil (h : s.Tabled rules) (hn : s.nonterminals.size ≤ n) :
    s.entriesOf n = [] := by
  refine List.map_eq_nil_iff.mpr (List.filter_eq_nil_iff.mpr fun p hp => ?_)
  have := h.lefts p (Array.mem_toList_iff.mp hp)
  simpa using (this.trans_le hn).ne

theorem Grows.size_le (h : Grows rules Part left es s s') :
    s.nonterminals.size ≤ s'.nonterminals.size := by
  have := h.table.nonterminals.length_le
  simpa [Lowering.table] using this

theorem Grows.refl (rules : List RuleDeclaration) (Part : Rule → Prop) (left : NonterminalId)
    (s : Lowering) : Grows rules Part left [] s s :=
  ⟨⟨rfl, rfl, List.prefix_rfl⟩, by simp, fun n hle hlt => absurd hlt (Nat.not_lt.mpr hle)⟩

theorem Grows.trans (h : Grows rules Part left es s s') (h' : Grows rules Part left es' s' s'')
    (hl : left < s.nonterminals.size) : Grows rules Part left (es ++ es') s s'' := by
  have htable : (s.table rules).Extends (s''.table rules) :=
    ⟨h'.table.vocabulary.trans h.table.vocabulary, rfl,
      h.table.nonterminals.trans h'.table.nonterminals⟩
  refine ⟨htable, fun n hn => ?_, fun n hle hlt => ?_⟩
  · rw [h'.old n (hn.trans_le h.size_le), h.old n hn]
    split <;> simp
  · by_cases hn : n < s'.nonterminals.size
    · obtain ⟨r, hr, hatom, hhelper, hdemands⟩ := h.fresh n hle hn
      refine ⟨r, hr, hatom, hhelper.mono h'.table, ?_⟩
      rw [h'.old n hn, if_neg (hl.trans_le hle).ne', List.append_nil]
      exact hdemands.mono h'.table
    · exact h'.fresh n (Nat.le_of_not_lt hn) hlt

/-- Where nothing is filled that was there before, one step may follow the other. -/
theorem Grows.trans_nil (hs : s.Tabled rules) (h : ∀ left, Grows rules Part left [] s s')
    (h' : ∀ left, Grows rules Part left [] s' s'') (left : NonterminalId) :
    Grows rules Part left [] s s'' := by
  have hboth := (h Grammar.start).trans (h' Grammar.start) hs.pos
  exact ⟨hboth.table, by simpa using hboth.old, hboth.fresh⟩

/-- A state that differs in nothing that matters. -/
theorem Tabled.congr (h : s.Tabled rules) (hv : s'.vocabulary = s.vocabulary)
    (hn : s'.nonterminals = s.nonterminals) (hnames : s'.names = s.names)
    (hhelpers : s'.helpers = s.helpers)
    (hlefts : ∀ p ∈ s'.productions, p.left < s.nonterminals.size) : s'.Tabled rules := by
  have htable : s'.table rules = s.table rules := by rw [table, table, hv, hn]
  constructor
  · rw [hn]
    exact h.start
  · rw [hn]
    exact hlefts
  · rw [htable]
    exact h.exists_rule
  · rw [htable, hnames]
    exact h.declared
  · rw [htable, hnames]
    exact h.names
  · rw [htable, hhelpers]
    exact h.helpers
  · rw [htable, hn]
    exact h.cover

/-- The state with a new helper. -/
def enter (s : Lowering) (look : String) : Lowering :=
  { s with
    nonterminals := s.nonterminals.push ⟨look, false, true⟩
    helpers := s.helpers.insert look s.nonterminals.size
    names := s.names.insertIfNew look s.nonterminals.size }

theorem extends_enter (s : Lowering) (look : String) :
    (s.table rules).Extends ((s.enter look).table rules) :=
  ⟨rfl, rfl, by simp [table, enter]⟩

theorem getElem?_enter (s : Lowering) (look : String) (n : NonterminalId) :
    (s.enter look).nonterminals[n]? =
      if n = s.nonterminals.size then some ⟨look, false, true⟩ else s.nonterminals[n]? :=
  Array.getElem?_push

theorem Tabled.isHelper_enter (h : s.Tabled rules) (look : String) :
    ((s.enter look).table rules).IsHelper look s.nonterminals.size :=
  ⟨Nat.pos_iff_ne_zero.mp h.pos, by
    show (s.enter look).nonterminals[s.nonterminals.size]? = _
    rw [getElem?_enter, if_pos rfl]⟩

/-- What is in the tables with a new helper was there before, but for the helper. -/
theorem getElem?_of_enter {nonterminal : Nonterminal}
    (h : (s.enter look).nonterminals[n]? = some nonterminal) :
    n = s.nonterminals.size ∧ nonterminal = ⟨look, false, true⟩ ∨
      s.nonterminals[n]? = some nonterminal := by
  rw [getElem?_enter] at h
  split at h
  · next hn => exact Or.inl ⟨hn, (Option.some.inj h).symm⟩
  · exact Or.inr h

theorem Tabled.enter (h : s.Tabled rules) (hnew : s.helpers[look]? = none) :
    (s.enter look).Tabled rules := by
  have hext : (s.table rules).Extends ((s.enter look).table rules) := extends_enter s look
  constructor
  · exact hext.getElem? h.start
  · intro p hp
    simpa [Lowering.enter] using Nat.lt_succ_of_lt (h.lefts p hp)
  · intro d hd
    obtain ⟨n, hn⟩ := h.exists_rule d hd
    exact ⟨n, hn.mono hext⟩
  · rintro d n ⟨hd, hn⟩
    rcases getElem?_of_enter hn with ⟨-, heq⟩ | hold
    · simp at heq
    · have hname := h.declared d n ⟨hd, hold⟩
      show (s.names.insertIfNew look s.nonterminals.size)[d.name]? = some n
      rw [Std.TreeMap.getElem?_insertIfNew, if_neg, hname]
      rintro ⟨heq, hmem⟩
      rw [Std.LawfulEqCmp.eq_of_compare heq] at hmem
      exact hmem (Std.TreeMap.mem_iff_isSome_getElem?.mpr (by rw [hname]; rfl))
  · intro name n hn
    have hn' : (s.names.insertIfNew look s.nonterminals.size)[name]? = some n := hn
    rw [Std.TreeMap.getElem?_insertIfNew] at hn'
    split at hn'
    · next hcase =>
      cases hn'
      rw [← Std.LawfulEqCmp.eq_of_compare hcase.1]
      exact Or.inr (h.isHelper_enter look)
    · exact (h.names name n hn').imp hext.declares_iff.mpr fun hh => hh.mono hext
  · intro look' n
    show (s.helpers.insert look s.nonterminals.size)[look']? = some n ↔ _
    rw [Std.TreeMap.getElem?_insert]
    split
    · next hcase =>
      obtain rfl := Std.LawfulEqCmp.eq_of_compare hcase
      constructor
      · intro hn
        cases hn
        exact h.isHelper_enter look
      · rintro ⟨hne, hn⟩
        rcases getElem?_of_enter hn with ⟨rfl, -⟩ | hold
        · rfl
        · rw [(h.helpers look n).mpr ⟨hne, hold⟩] at hnew
          cases hnew
    · next hcase =>
      rw [h.helpers]
      constructor
      · exact fun hh => hh.mono hext
      · rintro ⟨hne, hn⟩
        rcases getElem?_of_enter hn with ⟨-, heq⟩ | hold
        · cases heq
          exact absurd Std.ReflCmp.compare_self hcase
        · exact ⟨hne, hold⟩
  · intro n hne hlt
    by_cases hn : n < s.nonterminals.size
    · exact (h.cover n hne hn).imp (fun ⟨d, hd⟩ => ⟨d, hd.mono hext⟩)
        fun ⟨look', hh⟩ => ⟨look', hh.mono hext⟩
    · have hsize : (s.enter look).nonterminals.size = s.nonterminals.size + 1 := by
        simp [Lowering.enter]
      rw [hsize] at hlt
      obtain rfl := Nat.eq_of_le_of_lt_succ (Nat.le_of_not_lt hn) hlt
      exact Or.inr ⟨look, h.isHelper_enter look⟩

/-- A helper that has been entered and then filled. -/
theorem Grows.of_enter {r : Rule} (hs : s.Tabled rules) (hr : Part r) (hatom : r.isAtom = false)
    (h : Grows rules Part s.nonterminals.size es (s.enter r.render) s')
    (hdemands : (s'.table rules).Demands s.nonterminals.size r es) (left : NonterminalId) :
    Grows rules Part left [] s s' := by
  have hext : (s.table rules).Extends ((s.enter r.render).table rules) := extends_enter s r.render
  have hsize : (s.enter r.render).nonterminals.size = s.nonterminals.size + 1 := by
    simp [Lowering.enter]
  have hentries : ∀ n, (s.enter r.render).entriesOf n = s.entriesOf n := fun _ => rfl
  refine ⟨⟨h.table.vocabulary, rfl, hext.nonterminals.trans h.table.nonterminals⟩,
    fun n hn => ?_, fun n hle hlt => ?_⟩
  · rw [h.old n (by omega), if_neg hn.ne, hentries]
    split <;> rfl
  · by_cases hn : n = s.nonterminals.size
    · subst hn
      refine ⟨r, hr, hatom, (hs.isHelper_enter r.render).mono h.table, ?_⟩
      rw [h.old _ (by omega), if_pos rfl, hentries, hs.entriesOf_eq_nil le_rfl, List.nil_append]
      exact hdemands
    · exact h.fresh n (by omega) hlt

end Lowering

end FourGL
