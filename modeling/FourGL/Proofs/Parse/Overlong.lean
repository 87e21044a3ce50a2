import FourGL.Proofs.Automaton.Audit
import FourGL.Proofs.Automaton.Policy
import FourGL.Proofs.Automaton.Positions
import FourGL.Proofs.Parse.Exactness
import FourGL.Proofs.Token.Keywords
import FourGL.Proofs.Token.Offsets

/-!
# Right-hand sides that positions do not reach the end of

Behind the last position that items can have, reading on starts over at the beginning of a right-hand
side. A production that is longer is begun and read round and round, and is never completed.

**Theorem (`IsOverlong.exists_meetsError`).** In the grammar of a rule of too many plus signs, every text
of plus signs is read to its end, and there is the first error. The tables have no conflict.

**Theorem (`exists_sentence_refused`).** So there is a sentence that is met with an error.

**Theorem (`exists_error_behind_no_prefix`).** And there is a text with the first error behind terminals
that are the beginning of no sentence.
-/

namespace FourGL

/-! ## Texts of plus signs -/

/-- A number of plus signs. -/
def plusText (k : Nat) : String := String.ofList (List.replicate k '+')

theorem Lexeme.head_plus (cs : List Char) :
    Lexeme.head ('+' :: cs) = ⟨some (.operator .plus), ['+']⟩ := by
  have hplus : Headed ('+' :: cs) ⟨.operator .plus, 1⟩ := .operator .plus ⟨cs, rfl⟩
  obtain ⟨m, hm⟩ := hplus.exists_longestMatch
  have hmatch : m = ⟨.operator .plus, 1⟩ := by
    rcases (headed_longestMatch hm).of_separator (by decide) with
      ⟨hblank, -⟩ | ⟨q, rest, h, -⟩ | ⟨op, h, rfl⟩
    · exact absurd hblank (by decide)
    · cases q <;> cases h
    · cases op <;> first | rfl | exact absurd h (by decide)
  rw [Lexeme.head_of_longestMatch hm, hmatch]
  rfl

theorem Lexeme.split_plus (k : Nat) : Lexeme.split (List.replicate k '+') =
    List.replicate k ⟨some (.operator .plus), ['+']⟩ := by
  induction k with
  | zero => rfl
  | succ k ih =>
    rw [List.replicate_succ, List.replicate_succ, ← ih]
    have hhead : Lexeme.head (['+'] ++ List.replicate k '+') = ⟨some (.operator .plus), ['+']⟩ :=
      Lexeme.head_plus _
    exact Lexeme.split_of_head hhead (List.cons_ne_nil _ _)

namespace Vocabulary

variable {v : Vocabulary} {t : TerminalId} {place : Place} {k : Nat}

/-- The tokens of plus signs, where these are a symbol of the grammar. -/
theorem tokensFrom_plus (place : Place) (k : Nat) (h : v.symbol? "+" = some t) :
    ∀ token ∈ v.tokensFrom .whole place (List.replicate k ⟨some (.operator .plus), ['+']⟩),
      token.terminal = t ∧ token.category = (v.terminal t).category ∧ token.isUnexpected = false := by
  induction k generalizing place with
  | zero => simp [tokensFrom]
  | succ k ih =>
    have htoken : v.operatorToken place ['+'] = .plain v t place ['+'] := by
      rw [operatorToken, show String.ofList ['+'] = "+" from rfl, h]
    rw [List.replicate_succ, tokensFrom, tokenOf, htoken, Option.toList_some, List.singleton_append]
    exact List.forall_mem_cons.mpr ⟨⟨rfl, rfl, rfl⟩, ih _⟩

theorem length_tokensFrom_plus : (v.tokensFrom .whole place
    (List.replicate k ⟨some (.operator .plus), ['+']⟩)).length = k := by
  induction k generalizing place with
  | zero => rfl
  | succ k ih =>
    rw [List.replicate_succ, tokensFrom, tokenOf, Option.toList_some, List.singleton_append,
      List.length_cons, ih]

end Vocabulary

theorem Token.joinUnexpected_eq_self {ts : List Token} (h : ∀ t ∈ ts, t.isUnexpected = false) :
    Token.joinUnexpected ts = ts := by
  induction ts with
  | nil => rfl
  | cons t ts ih =>
    obtain ⟨ht, hts⟩ := List.forall_mem_cons.mp h
    rw [Token.joinUnexpected_cons ht, ih hts]

/-- A parser reads the terminals of the grammatical tokens. -/
theorem Input.terminals_ofTokens (tokens : List Token) (stop : Nat) :
    (Input.ofTokens tokens stop).terminals = (tokens.filter Token.isGrammatical).map (·.terminal) := by
  have hstream : (Input.ofTokens tokens stop).terminals =
      (Input.ofTokens tokens stop).stream.toList.map
        fun i => ((tokens[i]?).map (·.terminal)).getD Vocabulary.endOfInput := by
    refine List.ext_getElem (by simp [Input.terminals, Input.size]) fun j hj hj' => ?_
    rw [List.length_map, Array.length_toList] at hj'
    simp only [Input.terminals, List.getElem_map, List.getElem_range, Input.terminal, Input.token?,
      Array.getElem?_eq_getElem hj', Option.bind_some, Array.getElem_toList]
    rw [show (Input.ofTokens tokens stop).tokens = tokens.toArray from rfl, List.getElem?_toArray]
    cases tokens[(Input.ofTokens tokens stop).stream[j]]? <;> rfl
  rw [hstream]
  have hfilter : tokens.filter Token.isGrammatical =
      (tokens.zipIdx.filter fun e => e.1.isGrammatical).map Prod.fst := by
    conv_lhs => rw [← List.zipIdx_map_fst 0 tokens]
    rw [List.filter_map]
    rfl
  rw [hfilter, Input.ofTokens, List.toList_toArray, List.map_map, List.map_map]
  refine List.map_congr_left fun e he => ?_
  have hget := List.mem_zipIdx_iff_getElem?.mp (List.mem_filter.mp he).1
  show (tokens[e.2]?.map (·.terminal)).getD _ = _
  rw [hget]
  rfl

/-- A text of plus signs is read as their terminal, as often. -/
theorem Grammar.terminals_plus {g : Grammar} {t : TerminalId} (hfiled : g.vocabulary.Filed)
    (h : g.vocabulary.symbol? "+" = some t) (k : Nat) :
    (g.inputOf (plusText k)).terminals = List.replicate k t := by
  have hplus := Vocabulary.tokensFrom_plus (v := g.vocabulary) {} k h
  have hscan : g.vocabulary.scan (plusText k) =
      g.vocabulary.tokensFrom .whole {} (List.replicate k ⟨some (.operator .plus), ['+']⟩) := by
    rw [Vocabulary.scan, Vocabulary.scanFrom, plusText, String.toList_ofList, Lexeme.split_plus]
    exact Token.joinUnexpected_eq_self fun token htoken => (hplus token htoken).2.2
  have hcontent : (g.vocabulary.terminal t).category = .content := by
    have hkind := hfiled.symbols "+" t h
    rw [Vocabulary.kindOf?, Option.map_eq_some_iff] at hkind
    obtain ⟨terminal, hget, hsymbol⟩ := hkind
    rw [Vocabulary.terminal, Array.getD_eq_getD_getElem?, hget, Option.getD_some, Terminal.category,
      hsymbol]
  rw [Grammar.inputOf, hscan, Input.terminals_ofTokens, List.filter_eq_self.mpr]
  · refine List.eq_replicate_iff.mpr ⟨?_, ?_⟩
    · rw [List.length_map, Vocabulary.length_tokensFrom_plus]
    · intro u hu
      obtain ⟨token, htoken, rfl⟩ := List.mem_map.mp hu
      exact (hplus token htoken).1
  · intro token htoken
    rw [Token.isGrammatical, (hplus token htoken).2.1, hcontent]
    rfl

/-! ## A rule of too many signs -/

namespace Grammar

variable {g : Grammar} {n k : Nat} {t : TerminalId} {s s' : StateId} {i : Item} {p : ProductionId}
  {w : List TerminalId} {xs : List Symbol} {text : String} {input : Input}

/-- The root has one right-hand side, of one terminal over and over, and positions do not reach its end. -/
structure IsOverlong (g : Grammar) (n : Nat) (t : TerminalId) : Prop where
  exceeds : maxIndex < n
  right : ∀ p < g.productions.size, p ≠ startProduction →
    (g.production p).right = List.replicate n (.terminal t)
  root : ∃ p < g.productions.size, (g.production p).left = g.root

theorem yields_replicate : g.Yields (List.replicate n (.terminal t)) w k →
    w = List.replicate n t := by
  induction n generalizing w k with
  | zero => exact fun h => h.eq_nil.1
  | succ n ih =>
    intro h
    rw [List.replicate_succ] at h
    cases h with
    | terminal hrest => rw [ih hrest, List.replicate_succ]

theorem exists_yields_replicate (n : Nat) (t : TerminalId) :
    ∃ k, g.Yields (List.replicate n (.terminal t)) (List.replicate n t) k := by
  induction n with
  | zero => exact ⟨0, .nil⟩
  | succ n ih =>
    obtain ⟨k, hk⟩ := ih
    rw [List.replicate_succ, List.replicate_succ]
    exact ⟨k + 1, .terminal hk⟩

/-- The one sentence. -/
theorem IsOverlong.sentence_iff (h : g.IsOverlong n t) (wf : g.WellFormed) :
    g.Sentence w ↔ w = List.replicate n t := by
  rw [sentence_iff_yields]
  constructor
  · rintro ⟨k, hy⟩
    cases hy with
    | nonterminal hp hleft hu hrest =>
      rw [h.right _ hp (wf.ne_startProduction hleft)] at hu
      rw [hrest.eq_nil.1, List.append_nil, yields_replicate hu]
  · rintro rfl
    obtain ⟨p, hp, hleft⟩ := h.root
    obtain ⟨k, hk⟩ := exists_yields_replicate (g := g) n t
    rw [← h.right p hp (wf.ne_startProduction hleft)] at hk
    have hy := Yields.of_production hp hk
    rw [hleft] at hy
    exact ⟨_, hy⟩

/-- Behind a symbol other than the root, no item of the first production is left. -/
theorem WellFormed.production_ne_start (wf : g.WellFormed) (hgoto : g.goto? s (.terminal t) = some s')
    (hi : i ∈ g.itemsOf s') : i.production ≠ startProduction := by
  intro hstart
  rcases mem_itemsOf_iff.mp hi with hkernel | ⟨p, -, -, rfl⟩
  · obtain ⟨j, -, hx, rfl⟩ := (wf.mem_kernelOf_goto hgoto).mp hkernel
    have hright : (g.production j.production).right = [.nonterminal g.root] := by
      rw [← wf.right_start, ← hstart]
      rfl
    rw [nextSymbol?_eq_getElem?, hright] at hx
    cases List.mem_singleton.mp (List.mem_of_getElem? hx)
  · obtain rfl : p = startProduction := hstart
    exact wf.goto?_ne_start hgoto (wf.eq_start_of_mem hi)

/-- There is always more to come. -/
theorem IsOverlong.next (h : g.IsOverlong n t) (wf : g.WellFormed) (hi : i ∈ g.itemsOf s)
    (hne : i.production ≠ startProduction) : g.nextSymbol? i = some (.terminal t) := by
  rw [nextSymbol?_eq_getElem?, h.right _ (wf.proper_itemsOf hi).1 hne, List.getElem?_replicate_of_lt]
  exact (wf.dot_le hi).trans_lt h.exceeds

theorem IsOverlong.rest_ne_nil (h : g.IsOverlong n t) (wf : g.WellFormed) (hi : i ∈ g.itemsOf s)
    (hne : i.production ≠ startProduction) : g.rest i ≠ [] := fun hrest => by
  have hnext := h.next wf hi hne
  rw [nextSymbol?, hrest] at hnext
  cases hnext

/-- Nothing is ever reduced, so there are no conflicts. -/
theorem IsOverlong.ofGrammarStrict_eq (h : g.IsOverlong n t) (wf : g.WellFormed) :
    Automaton.ofGrammarStrict g = .ok (.ofGrammar g) := by
  have hnone : (Automaton.ofGrammar g).conflicts = [] := by
    refine List.eq_nil_iff_forall_not_mem.mpr fun k hk => ?_
    obtain ⟨hcandidate, -⟩ := wf.loses_of_mem hk
    generalize k.loss.dropped = p at hcandidate
    cases hcandidate with
    | reduce hlook hrest hne => exact h.rest_ne_nil wf (wf.foresees_iff.mp hlook).mem hne hrest
  simp only [Automaton.ofGrammarStrict]
  rw [hnone]

/-- Behind a sign, nothing is done at the end of input. -/
theorem IsOverlong.action?_end (h : g.IsOverlong n t) (wf : g.WellFormed)
    (hgoto : g.goto? s (.terminal t) = some s') :
    (Automaton.ofGrammar g).action? s' Vocabulary.endOfInput = none := by
  refine Option.eq_none_iff_forall_ne_some.mpr fun a hact => ?_
  cases wf.asks_of_action? hact with
  | shift hi hx hs => exact (wf.ne_endOfInput_of_shift (.shift hi hx hs)).1 rfl
  | reduce hlook hrest hne => exact h.rest_ne_nil wf hlook.mem hne hrest
  | accept hlook _ hstart => exact wf.production_ne_start hgoto hlook.mem hstart

/-- Signs are read one by one, however many there are. -/
theorem IsOverlong.exists_reaches (h : g.IsOverlong n t) (wf : g.WellFormed) (limits : Limits)
    (hread : ∀ j < k, input.terminal j = t) :
    ∃ m top frames, Machine.Reaches (.ofGrammar g) limits input .initial m ∧ m.errors = 0 ∧
      m.position = k ∧ m.stack = top :: frames ∧
      (∃ i ∈ g.itemsOf top.state, i.production ≠ startProduction) ∧
      (0 < k → ∃ s, g.goto? s (.terminal t) = some top.state) := by
  induction k with
  | zero =>
    obtain ⟨p, hp, hleft⟩ := h.root
    refine ⟨.initial, _, [], .refl, rfl, rfl, rfl, ⟨.initial p, ?_, wf.ne_startProduction hleft⟩,
      fun hlt => absurd hlt (Nat.lt_irrefl 0)⟩
    exact wf.initial_mem_itemsOf wf.first_mem_itemsOf wf.next_first hp hleft
  | succ k ih =>
    obtain ⟨m, top, frames, hreaches, herrors, hposition, hstack, ⟨i, hi, hne⟩, -⟩ :=
      ih fun j hj => hread j (Nat.lt_succ_of_lt hj)
    obtain ⟨s', hgoto⟩ := wf.exists_goto hi (h.next wf hi hne)
    have hact := wf.action?_shift hi (h.next wf hi hne) hgoto
    have hstep : m.step (.ofGrammar g) limits input 0 = some (.next (m.shift input s')) := by
      have hact' : (Language.ofGrammar g).automaton.action? top.state (input.terminal m.position) =
          some (.shift s') := by
        rw [hposition, hread k (Nat.lt_succ_self k)]
        exact hact
      simp only [Machine.step, hstack, hact']
    have hadvance : i.advance ∈ g.itemsOf s' :=
      kernelOf_subset_itemsOf ((wf.mem_kernelOf_goto hgoto).mpr ⟨i, hi, h.next wf hi hne, rfl⟩)
    refine ⟨m.shift input s', _, m.stack, hreaches.tail ⟨0, hstep⟩, herrors, ?_, rfl,
      ⟨i.advance, hadvance, hne⟩, fun _ => ⟨_, hgoto⟩⟩
    show m.position + 1 = k + 1
    rw [hposition]

/-- **Signs without end.** All of a text of signs is read, and its end is the first error. -/
theorem IsOverlong.exists_meetsError (h : g.IsOverlong n t) (wf : g.WellFormed) (limits : Limits)
    (hend : input.IsEnded) (hinput : input.terminals = List.replicate k t) (hk : 0 < k) :
    ∃ first, Machine.Reaches (.ofGrammar g) limits input .initial first ∧ first.errors = 0 ∧
      first.position = k ∧ first.MeetsError (.ofGrammar g) input := by
  have hsize : input.size = k := by
    rw [← Input.length_terminals, hinput, List.length_replicate]
  have hread : ∀ j < k, input.terminal j = t := by
    intro j hj
    have hget : input.ended[j]? = some t := by
      rw [Input.ended, hinput, List.getElem?_append_left (by rwa [List.length_replicate]),
        List.getElem?_replicate_of_lt hj]
    exact Option.some.inj ((Input.getElem?_ended hend (hsize.symm ▸ hj.le)).symm.trans hget)
  obtain ⟨m, top, frames, hreaches, herrors, hposition, hstack, -, hgoto⟩ :=
    h.exists_reaches wf limits hread
  obtain ⟨s, hs⟩ := hgoto hk
  refine ⟨m, hreaches, herrors, hposition, top, frames, hstack, ?_⟩
  rw [(hend _).mpr (by rw [hsize, hposition])]
  exact h.action?_end wf hs

/-! ## The grammar of such a rule -/

theorem eq_replicate_of_written (ht : g.vocabulary.symbol? text = some t)
    (h : g.table.Written (.seq (List.replicate n (.symbol text))) xs) :
    xs = List.replicate n (.terminal t) := by
  induction n generalizing xs with
  | zero =>
    cases h with
    | nil => rfl
    | part hspliced => cases hspliced
  | succ n ih =>
    rw [List.replicate_succ] at h
    cases h with
    | cons hfirst hrest =>
      cases hfirst with
      | part _ hs =>
        cases hs with
        | symbol hu =>
          obtain rfl := Option.some.inj (hu.symm.trans ht)
          rw [ih hrest, List.replicate_succ, List.singleton_append]
        | helper hatom => cases hatom
    | part hspliced => cases hspliced

theorem exists_symbol_of_written
    (h : g.table.Written (.seq (List.replicate (n + 1) (.symbol text))) xs) :
    ∃ t, g.vocabulary.symbol? text = some t := by
  rw [List.replicate_succ] at h
  cases h with
  | cons hfirst _ =>
    cases hfirst with
    | part _ hs =>
      cases hs with
      | symbol ht => exact ⟨_, ht⟩
      | helper hatom => cases hatom
  | part hspliced => cases hspliced

/-- The rule of plus signs, where there are too many of them. -/
theorem exists_isOverlong (hg : g.IsBuilt) (hrules : g.rules.toList = [longRule n])
    (hn : maxIndex < n) : ∃ t, g.vocabulary.symbol? "+" = some t ∧ g.IsOverlong n t := by
  have wf := wellFormed_of_isBuilt hg
  have h := lowered_of_isBuilt hg
  have hroot := h.isRule_long hrules wf.usable_root.1 wf.usable_root.2
  obtain ⟨p, hp, hleft, hwritten⟩ := h.exists_written hroot rfl List.mem_cons_self
  obtain ⟨t, ht⟩ : ∃ t, g.vocabulary.symbol? "+" = some t := by
    obtain ⟨k, rfl⟩ := Nat.exists_eq_add_one_of_ne_zero (Nat.ne_zero_of_lt hn)
    exact exists_symbol_of_written hwritten
  refine ⟨t, ht, hn, fun q hq hne => ?_, p, hp, hleft⟩
  -- Every other production is of the one rule.
  have hstart : (g.production q).left ≠ start := fun hstart => hne (h.eq_startProduction wf hq hstart)
  have hentry := production_mem_entriesOf hq
  rw [h.eq_root_long hrules hroot hstart (h.left q hq)] at hentry
  cases h.rule _ _ hroot with
  | alternatives _ hall =>
    obtain ⟨r, hr, hwritten, -⟩ := exists_left_of_forall₂ hall hentry
    rw [List.mem_singleton.mp hr] at hwritten
    exact eq_replicate_of_written ht hwritten
  | list hlist => cases hlist.isList_eq

end Grammar

open Grammar Declarations

/-- The grammar of a rule of too many plus signs, and what becomes of texts of plus signs. -/
theorem exists_overlong {n : Nat} (hn : maxIndex < n) : ∃ g,
    (ofSteps "long" (longSteps n)).build = .ok g ∧
    Automaton.ofGrammarStrict g = .ok (.ofGrammar g) ∧
    ∃ t, (∀ w, g.Sentence w ↔ w = List.replicate n t) ∧
      ∀ k > 0, (g.inputOf (plusText k)).terminals = List.replicate k t ∧ ∀ limits, ∃ first,
        Machine.Reaches (.ofGrammar g) limits (g.inputOf (plusText k)) .initial first ∧
          first.errors = 0 ∧ first.position = k ∧
          first.MeetsError (.ofGrammar g) (g.inputOf (plusText k)) := by
  obtain ⟨g, hbuild, hrules⟩ := exists_build_long n
  have hg : g.IsBuilt := ⟨"long", longSteps n, hbuild⟩
  have wf := wellFormed_of_isBuilt hg
  obtain ⟨t, ht, h⟩ := exists_isOverlong hg hrules hn
  refine ⟨g, hbuild, h.ofGrammarStrict_eq wf, t, fun w => h.sentence_iff wf, fun k hk => ?_⟩
  have hterminals := terminals_plus (filed_of_build hbuild) ht k
  exact ⟨hterminals, fun limits =>
    h.exists_meetsError wf limits (isEnded_inputOf wf.vocabulary _) hterminals hk⟩

/-- **A sentence that is refused.** Without conflicts, the one sentence of the grammar of a rule of 65536
plus signs is met with an error. -/
theorem exists_sentence_refused : ∃ g automaton, (ofSteps "long" (longSteps 65536)).build = .ok g ∧
    Automaton.ofGrammarStrict g = .ok automaton ∧
    g.Sentence (g.inputOf (plusText 65536)).terminals ∧ ∀ limits, ∃ first,
      Machine.Reaches ⟨g, automaton⟩ limits (g.inputOf (plusText 65536)) .initial first ∧
        first.errors = 0 ∧ first.MeetsError ⟨g, automaton⟩ (g.inputOf (plusText 65536)) := by
  obtain ⟨g, hbuild, hstrict, t, hsentence, hread⟩ := exists_overlong (n := 65536) (by decide)
  obtain ⟨hterminals, hmeets⟩ := hread 65536 (by decide)
  refine ⟨g, _, hbuild, hstrict, (hsentence _).mpr hterminals, fun limits => ?_⟩
  obtain ⟨first, hreaches, herrors, -, hmeets⟩ := hmeets limits
  exact ⟨first, hreaches, herrors, hmeets⟩

/-- **An error that comes too late.** In that grammar, one more plus sign is read, and the first error is
behind terminals that are the beginning of no sentence. -/
theorem exists_error_behind_no_prefix : ∃ g, (ofSteps "long" (longSteps 65536)).build = .ok g ∧
    ∀ limits, ∃ first,
      Machine.Reaches (.ofGrammar g) limits (g.inputOf (plusText 65537)) .initial first ∧
        first.errors = 0 ∧ first.MeetsError (.ofGrammar g) (g.inputOf (plusText 65537)) ∧
        ¬ ∃ w, g.Sentence w ∧
          (g.inputOf (plusText 65537)).terminals.take first.position <+: w := by
  obtain ⟨g, hbuild, -, t, hsentence, hread⟩ := exists_overlong (n := 65536) (by decide)
  obtain ⟨hterminals, hmeets⟩ := hread 65537 (by decide)
  refine ⟨g, hbuild, fun limits => ?_⟩
  obtain ⟨first, hreaches, herrors, hposition, hmeets⟩ := hmeets limits
  refine ⟨first, hreaches, herrors, hmeets, ?_⟩
  rintro ⟨w, hw, hprefix⟩
  have hlength := hprefix.length_le
  rw [hterminals, hposition, (hsentence w).mp hw, List.length_take, List.length_replicate,
    List.length_replicate] at hlength
  exact absurd hlength (by decide)

end FourGL
