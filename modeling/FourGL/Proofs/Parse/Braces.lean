import FourGL.Proofs.Parse.Soundness

/-!
# Matching braces

From an opening brace the search goes forward and counts the opening braces that it passes; from a
closing one it goes back and counts the closing ones. Both searches look for the same thing: a stretch in
which every beginning has as many opening braces as closing ones or more, and the whole as many of both.
Read backward, such a stretch is one with the roles exchanged.

**Theorem (`braces_match`).** If no terminal is declared as a brace twice, the brace matching an opening one
is the closing one behind a balanced stretch, if there is one, and the other way round. So matching is
symmetric.
-/

namespace FourGL

variable {opening closing t : TerminalId} {depth i j k : Nat}
  {ts before inner rest after : List TerminalId}

/-! ## Balanced stretches -/

/-- Every beginning has as many opening terminals as closing ones or more, and the whole as many of both. -/
structure Balanced (opening closing : TerminalId) (ts : List TerminalId) : Prop where
  beginnings : ∀ n, (ts.take n).count closing ≤ (ts.take n).count opening
  total : ts.count opening = ts.count closing

/-- Balanced behind as many opening terminals as the depth says. -/
@[mk_iff]
structure Descends (opening closing : TerminalId) (depth : Nat) (ts : List TerminalId) : Prop where
  beginnings : ∀ n, (ts.take n).count closing ≤ depth + (ts.take n).count opening
  total : depth + ts.count opening = ts.count closing

theorem descends_zero_iff : Descends opening closing 0 ts ↔ Balanced opening closing ts := by
  simp only [descends_iff, Nat.zero_add]
  exact ⟨fun ⟨hbeginnings, htotal⟩ => ⟨hbeginnings, htotal⟩, fun h => ⟨h.beginnings, h.total⟩⟩

/-- What a beginning of a balanced stretch has too many of, the end behind it has too few of. -/
theorem Balanced.reverse (h : Balanced opening closing ts) : Balanced closing opening ts.reverse := by
  refine ⟨fun n => ?_, by simpa using h.total.symm⟩
  have hfront := h.beginnings (ts.length - n)
  have htotal := h.total
  rw [← List.take_append_drop (ts.length - n) ts, List.count_append, List.count_append] at htotal
  rw [List.take_reverse, List.count_reverse, List.count_reverse]
  omega

namespace Descends

theorem nil_iff : Descends opening closing depth [] ↔ depth = 0 := by
  simp [descends_iff]

/-- The first terminal is in every beginning but the empty one. -/
theorem cons_iff : Descends opening closing depth (t :: ts) ↔
    (∀ n, (t :: ts.take n).count closing ≤ depth + (t :: ts.take n).count opening) ∧
      depth + (t :: ts).count opening = (t :: ts).count closing := by
  rw [descends_iff, ← Nat.and_forall_add_one]
  simp

theorem opening_iff (hne : opening ≠ closing) :
    Descends opening closing depth (opening :: ts) ↔ Descends opening closing (depth + 1) ts := by
  have hdeeper : ∀ us : List TerminalId,
      depth + (opening :: us).count opening = depth + 1 + us.count opening := fun us => by
    rw [List.count_cons_self, Nat.add_assoc, Nat.add_comm 1]
  rw [cons_iff, descends_iff]
  simp only [hdeeper, List.count_cons_of_ne hne]

theorem closing_iff (hne : opening ≠ closing) :
    Descends opening closing (depth + 1) (closing :: ts) ↔ Descends opening closing depth ts := by
  rw [cons_iff, descends_iff]
  simp only [List.count_cons_self, List.count_cons_of_ne hne.symm, Nat.add_right_comm depth 1,
    Nat.add_le_add_iff_right, Nat.add_right_cancel_iff]

theorem not_closing (hne : opening ≠ closing) : ¬ Descends opening closing 0 (closing :: ts) := by
  rw [cons_iff]
  rintro ⟨hbeginnings, -⟩
  have hfirst := hbeginnings 0
  simp [hne.symm] at hfirst

theorem other_iff (hopening : t ≠ opening) (hclosing : t ≠ closing) :
    Descends opening closing depth (t :: ts) ↔ Descends opening closing depth ts := by
  rw [cons_iff, descends_iff]
  simp only [List.count_cons_of_ne hopening, List.count_cons_of_ne hclosing]

end Descends

/-! ## One search -/

/-- Where a terminal stands in a list, with what is before it. -/
theorem exists_place_cons {P : List TerminalId → Prop} :
    (∃ inner rest, t :: ts = inner ++ closing :: rest ∧ inner.length = k ∧ P inner) ↔
      (t = closing ∧ k = 0 ∧ P []) ∨ ∃ n, k = n + 1 ∧
        ∃ inner rest, ts = inner ++ closing :: rest ∧ inner.length = n ∧ P (t :: inner) := by
  constructor
  · rintro ⟨_ | ⟨u, inner⟩, rest, heq, rfl, hinner⟩
    · exact Or.inl ⟨(List.cons.inj heq).1, rfl, hinner⟩
    · obtain ⟨rfl, hrest⟩ := List.cons.inj heq
      exact Or.inr ⟨_, rfl, inner, rest, hrest, rfl, hinner⟩
  · rintro (⟨rfl, rfl, hinner⟩ | ⟨n, rfl, inner, rest, rfl, rfl, hinner⟩)
    · exact ⟨[], ts, rfl, rfl, hinner⟩
    · exact ⟨t :: inner, rest, rfl, rfl, hinner⟩

/-- **The search** ends at the closing terminal behind a stretch that descends from its depth. -/
theorem Parse.closingPlace?_eq_some_iff (hne : opening ≠ closing) :
    closingPlace? opening closing depth ts = some k ↔ ∃ inner rest, ts = inner ++ closing :: rest ∧
      inner.length = k ∧ Descends opening closing depth inner := by
  induction ts generalizing depth k with
  | nil => simp [closingPlace?]
  | cons t ts ih =>
    have hmap : ∀ d, (closingPlace? opening closing d ts).map (· + 1) = some k ↔ ∃ n, k = n + 1 ∧
        ∃ inner rest, ts = inner ++ closing :: rest ∧ inner.length = n ∧
          Descends opening closing d inner := fun d => by
      simp only [Option.map_eq_some_iff, ih, @eq_comm _ k, and_comm]
    rw [exists_place_cons, closingPlace?.eq_def]
    simp only
    split_ifs with hopening hclosing
    · subst hopening
      rw [hmap]
      simp only [hne, false_and, false_or, Descends.opening_iff hne]
    · subst hclosing
      cases depth with
      | zero => simp [Descends.nil_iff, Descends.not_closing hne, eq_comm]
      | succ d =>
        rw [hmap]
        simp [Descends.nil_iff, Descends.closing_iff hne]
    · rw [hmap]
      simp only [hclosing, false_and, false_or, Descends.other_iff hopening hclosing]

/-! ## Both searches -/

/-- The opening and the closing terminal stand at the places, with a balanced stretch between them. -/
def Encloses (opening closing : TerminalId) (ts : List TerminalId) (i j : Nat) : Prop :=
  ∃ before inner after, ts = before ++ opening :: (inner ++ closing :: after) ∧
    before.length = i ∧ i + 1 + inner.length = j ∧ Balanced opening closing inner

theorem Encloses.getElem?_left (h : Encloses opening closing ts i j) : ts[i]? = some opening := by
  obtain ⟨before, inner, after, rfl, rfl, -, -⟩ := h
  simp

theorem Encloses.getElem?_right (h : Encloses opening closing ts i j) : ts[j]? = some closing := by
  obtain ⟨before, inner, after, rfl, rfl, rfl, -⟩ := h
  rw [List.getElem?_append_right (by omega), Nat.add_assoc, Nat.add_sub_cancel_left, Nat.add_comm]
  simp

namespace Parse

theorem forward_iff (hne : opening ≠ closing) (hi : ts[i]? = some opening) :
    (closingPlace? opening closing 0 (ts.drop (i + 1))).map (i + 1 + ·) = some j ↔
      Encloses opening closing ts i j := by
  simp only [Option.map_eq_some_iff, closingPlace?_eq_some_iff hne, descends_zero_iff]
  obtain ⟨hlt, rfl⟩ := List.getElem?_eq_some_iff.mp hi
  constructor
  · rintro ⟨_, ⟨inner, after, hdrop, rfl, hinner⟩, rfl⟩
    refine ⟨ts.take i, inner, after, ?_, List.length_take_of_le hlt.le, rfl, hinner⟩
    rw [← hdrop, ← List.drop_eq_getElem_cons hlt, List.take_append_drop]
  · rintro ⟨before, inner, after, hts, rfl, rfl, hinner⟩
    refine ⟨_, ⟨inner, after, ?_, rfl, hinner⟩, rfl⟩
    conv_lhs => rw [hts]
    simp [List.drop_append]

theorem backward_iff (hne : opening ≠ closing) (hj : ts[j]? = some closing) :
    (closingPlace? closing opening 0 (ts.take j).reverse).map (j - 1 - ·) = some i ↔
      Encloses opening closing ts i j := by
  simp only [Option.map_eq_some_iff, closingPlace?_eq_some_iff hne.symm, descends_zero_iff]
  obtain ⟨hlt, rfl⟩ := List.getElem?_eq_some_iff.mp hj
  constructor
  · rintro ⟨_, ⟨inner, before, htake, rfl, hinner⟩, rfl⟩
    have htake : ts.take j = before.reverse ++ opening :: inner.reverse := by
      rw [← List.reverse_reverse (ts.take j), htake]
      simp
    have hlength := congrArg List.length htake
    simp only [List.length_take_of_le hlt.le, List.length_append, List.length_cons,
      List.length_reverse] at hlength
    refine ⟨before.reverse, inner.reverse, ts.drop (j + 1), ?_, ?_, ?_, hinner.reverse⟩
    · rw [← List.drop_eq_getElem_cons hlt]
      conv_lhs => rw [← List.take_append_drop j ts, htake]
      simp
    · rw [List.length_reverse]
      omega
    · rw [List.length_reverse]
      omega
  · rintro ⟨before, inner, after, hts, rfl, rfl, hinner⟩
    refine ⟨_, ⟨inner.reverse, before.reverse, ?_, rfl, hinner.reverse⟩, ?_⟩
    · conv_lhs => rw [hts]
      simp [List.take_append, Nat.add_assoc, Nat.add_comm 1]
    · rw [List.length_reverse]
      omega

/-! ## Pairs of braces -/

variable {p : Parse} {pair pair' : TerminalId × TerminalId}

/-- The terminals of all tokens. -/
def terminals (p : Parse) : List TerminalId := p.tokens.toList.map (·.terminal)

/-- All terminals declared as braces, pair by pair. -/
def braces (p : Parse) : List TerminalId :=
  p.vocabulary.bracePairs.toList.flatMap fun pair => [pair.1, pair.2]

/-- The braces of a pair are at the indices, with a balanced stretch between them. -/
def PairAt (p : Parse) (pair : TerminalId × TerminalId) (i j : Nat) : Prop :=
  Encloses pair.1 pair.2 p.terminals i j

/-- What matching braces are. -/
structure BracesMatch (p : Parse) : Prop where
  /-- The brace matching an opening one closes a balanced stretch, and there is none only if none does. -/
  opening : ∀ pair ∈ p.vocabulary.bracePairs, ∀ i j, p.terminals[i]? = some pair.1 →
    (p.matchingBrace? i = some j ↔ p.PairAt pair i j)
  /-- The brace matching a closing one opens a balanced stretch, and there is none only if none does. -/
  closing : ∀ pair ∈ p.vocabulary.bracePairs, ∀ i j, p.terminals[j]? = some pair.2 →
    (p.matchingBrace? j = some i ↔ p.PairAt pair i j)
  /-- Two matching braces are those of a pair, the opening one first. -/
  paired : ∀ i j, p.matchingBrace? i = some j →
    ∃ pair ∈ p.vocabulary.bracePairs, p.PairAt pair i j ∨ p.PairAt pair j i
  symmetric : ∀ i j, p.matchingBrace? i = some j → p.matchingBrace? j = some i

theorem getElem?_terminals (p : Parse) (i : Nat) :
    p.terminals[i]? = (p.tokens[i]?).map (·.terminal) := by
  rw [terminals, List.getElem?_map, Array.getElem?_toList]

section Distinct

variable (hdistinct : p.braces.Nodup)

include hdistinct

theorem braces_ne (hpair : pair ∈ p.vocabulary.bracePairs) : pair.1 ≠ pair.2 := by
  obtain ⟨hinner, -⟩ := List.nodup_flatMap.mp hdistinct
  simpa using hinner pair (Array.mem_toList_iff.mpr hpair)

/-- Two pairs that share a brace are the same. -/
theorem pair_eq (hpair : pair ∈ p.vocabulary.bracePairs) (hpair' : pair' ∈ p.vocabulary.bracePairs)
    {t : TerminalId} (ht : t ∈ [pair.1, pair.2]) (ht' : t ∈ [pair'.1, pair'.2]) : pair = pair' := by
  obtain ⟨-, hdisjoint⟩ := List.nodup_flatMap.mp hdistinct
  have hsymm : Std.Symm (Function.onFun List.Disjoint fun pair : TerminalId × TerminalId =>
      [pair.1, pair.2]) := ⟨fun _ _ h _ hx hy => h hy hx⟩
  by_contra hne
  exact hdisjoint.forall (Array.mem_toList_iff.mpr hpair) (Array.mem_toList_iff.mpr hpair') hne ht ht'

/-- A search for a brace of a pair finds this pair, if any. -/
theorem find?_eq_some {own : TerminalId × TerminalId → Bool} (hpair : pair ∈ p.vocabulary.bracePairs)
    (hown : own pair = true) (hshares : ∀ pair', own pair' = true →
      ∃ t ∈ [pair'.1, pair'.2], t ∈ [pair.1, pair.2]) :
    p.vocabulary.bracePairs.find? own = some pair := by
  cases hfind : p.vocabulary.bracePairs.find? own with
  | none => exact absurd hown (Array.find?_eq_none.mp hfind pair hpair)
  | some pair' =>
    obtain ⟨t, ht', ht⟩ := hshares pair' (Array.find?_some hfind)
    rw [pair_eq hdistinct (Array.mem_of_find?_eq_some hfind) hpair ht' ht]

theorem find?_opening (hpair : pair ∈ p.vocabulary.bracePairs) :
    p.vocabulary.bracePairs.find? (·.1 == pair.1) = some pair :=
  find?_eq_some hdistinct hpair (beq_self_eq_true _) fun pair' h =>
    ⟨pair'.1, by simp, by simp [beq_iff_eq.mp h]⟩

theorem find?_closing (hpair : pair ∈ p.vocabulary.bracePairs) :
    p.vocabulary.bracePairs.find? (·.2 == pair.2) = some pair :=
  find?_eq_some hdistinct hpair (beq_self_eq_true _) fun pair' h =>
    ⟨pair'.2, by simp, by simp [beq_iff_eq.mp h]⟩

/-- A closing brace opens no pair. -/
theorem find?_opening_eq_none (hpair : pair ∈ p.vocabulary.bracePairs) :
    p.vocabulary.bracePairs.find? (·.1 == pair.2) = none := by
  refine Array.find?_eq_none.mpr fun pair' hpair' h => ?_
  have hsame := beq_iff_eq.mp h
  obtain rfl := pair_eq hdistinct hpair' hpair (t := pair.2) (by simp [hsame]) (by simp)
  exact braces_ne hdistinct hpair' hsame

theorem matchingBrace?_opening_iff (hpair : pair ∈ p.vocabulary.bracePairs)
    (hi : p.terminals[i]? = some pair.1) : p.matchingBrace? i = some j ↔ p.PairAt pair i j := by
  obtain ⟨token, htoken, hterminal⟩ := Option.map_eq_some_iff.mp (p.getElem?_terminals i ▸ hi)
  rw [PairAt, ← forward_iff (braces_ne hdistinct hpair) hi, matchingBrace?, htoken]
  simp only [Option.bind_eq_bind, Option.bind_some, hterminal, find?_opening hdistinct hpair]
  rfl

theorem matchingBrace?_closing_iff (hpair : pair ∈ p.vocabulary.bracePairs)
    (hj : p.terminals[j]? = some pair.2) : p.matchingBrace? j = some i ↔ p.PairAt pair i j := by
  obtain ⟨token, htoken, hterminal⟩ := Option.map_eq_some_iff.mp (p.getElem?_terminals j ▸ hj)
  rw [PairAt, ← backward_iff (braces_ne hdistinct hpair) hj, matchingBrace?, htoken]
  simp only [Option.bind_eq_bind, Option.bind_some, hterminal, find?_opening_eq_none hdistinct hpair,
    find?_closing hdistinct hpair]
  rfl

end Distinct

/-- A brace that has a matching one is a brace of a pair. -/
theorem exists_pair_of_matchingBrace? (h : p.matchingBrace? i = some j) :
    ∃ pair ∈ p.vocabulary.bracePairs,
      p.terminals[i]? = some pair.1 ∨ p.terminals[i]? = some pair.2 := by
  obtain ⟨token, htoken, h⟩ := Option.bind_eq_some_iff.mp h
  rw [getElem?_terminals, htoken]
  simp only at h
  split at h
  · next opening closing hfind =>
    have hown := Array.find?_some hfind
    exact ⟨_, Array.mem_of_find?_eq_some hfind, Or.inl (congrArg some (beq_iff_eq.mp hown).symm)⟩
  · obtain ⟨pair, hfind, -⟩ := Option.bind_eq_some_iff.mp h
    have hown := Array.find?_some hfind
    exact ⟨_, Array.mem_of_find?_eq_some hfind, Or.inr (congrArg some (beq_iff_eq.mp hown).symm)⟩

end Parse

/-- **Matching braces.** If no terminal is declared as a brace twice, two tokens match if and only if they
are the braces of a pair, with a balanced stretch between them, from whichever of them the search starts. -/
theorem braces_match (p : Parse) (hdistinct : p.braces.Nodup) : p.BracesMatch := by
  have hpaired : ∀ i j, p.matchingBrace? i = some j →
      ∃ pair ∈ p.vocabulary.bracePairs, p.PairAt pair i j ∨ p.PairAt pair j i := by
    intro i j h
    obtain ⟨pair, hpair, hi | hi⟩ := Parse.exists_pair_of_matchingBrace? h
    · exact ⟨pair, hpair, Or.inl ((Parse.matchingBrace?_opening_iff hdistinct hpair hi).mp h)⟩
    · exact ⟨pair, hpair, Or.inr ((Parse.matchingBrace?_closing_iff hdistinct hpair hi).mp h)⟩
  refine ⟨fun pair hpair i j => Parse.matchingBrace?_opening_iff hdistinct hpair,
    fun pair hpair i j => Parse.matchingBrace?_closing_iff hdistinct hpair, hpaired, fun i j h => ?_⟩
  obtain ⟨pair, hpair, hforward | hback⟩ := hpaired i j h
  · exact (Parse.matchingBrace?_closing_iff hdistinct hpair hforward.getElem?_right).mpr hforward
  · exact (Parse.matchingBrace?_opening_iff hdistinct hpair hback.getElem?_left).mpr hback

/-- A grammar with two pairs of braces. -/
def bracketSteps : List DeclarationStep :=
  [.bracePair "(" ")", .bracePair "[" "]", .rule "s" (.symbol "("), .root "s"]

/-- The bracket that stays open does not count between parentheses. -/
theorem braces_match_brackets : ∃ g : Grammar, g.IsBuilt ∧ ∃ p,
    (Language.ofGrammar g).parse {} "(([))" = p ∧ p.terminals = [2, 2, 4, 3, 3] ∧ p.braces.Nodup ∧
      p.BracesMatch ∧ p.PairAt (2, 3) 0 4 ∧ p.matchingBrace? 0 = some 4 ∧
      p.matchingBrace? 4 = some 0 := by
  have hseen : (Declarations.ofSteps "brackets" bracketSteps).seen? (fun g =>
      some ((g.vocabulary.scan "(([))").map (·.terminal), g.vocabulary.bracePairs)) =
        some ([2, 2, 4, 3, 3], #[(2, 3), (4, 5)]) := by decide +kernel
  obtain ⟨g, hbuild, hseen⟩ := Declarations.exists_seen hseen
  obtain ⟨hscan, hpairs⟩ := Prod.mk.inj (Option.some.inj hseen)
  have hterminals : ((Language.ofGrammar g).parse {} "(([))").terminals = [2, 2, 4, 3, 3] := by
    rw [Parse.terminals, Language.tokens_parse]
    exact hscan
  have hvocabulary := Language.vocabulary_parse (.ofGrammar g) {} "(([))"
  have hdistinct : ((Language.ofGrammar g).parse {} "(([))").braces.Nodup := by
    rw [Parse.braces, hvocabulary, show (Language.ofGrammar g).grammar = g from rfl, hpairs]
    decide
  have hmatch := braces_match _ hdistinct
  have hinner : Balanced 2 3 [2, 4, 3] := descends_zero_iff.mp <|
    (Descends.opening_iff (by decide)).mpr <| (Descends.other_iff (by decide) (by decide)).mpr <|
      (Descends.closing_iff (by decide)).mpr <| Descends.nil_iff.mpr rfl
  have hpair : ((Language.ofGrammar g).parse {} "(([))").PairAt (2, 3) 0 4 :=
    ⟨[], [2, 4, 3], [], hterminals, rfl, rfl, hinner⟩
  have hmem : (2, 3) ∈ ((Language.ofGrammar g).parse {} "(([))").vocabulary.bracePairs := by
    rw [hvocabulary, show (Language.ofGrammar g).grammar = g from rfl, hpairs]
    simp
  have hzero := (hmatch.opening _ hmem 0 4 hpair.getElem?_left).mpr hpair
  exact ⟨g, ⟨_, _, hbuild⟩, _, rfl, hterminals, hdistinct, hmatch, hpair, hzero,
    hmatch.symmetric 0 4 hzero⟩

end FourGL
