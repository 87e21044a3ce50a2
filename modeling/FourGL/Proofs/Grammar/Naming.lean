import FourGL.Proofs.Grammar.Keywords
import FourGL.Proofs.Grammar.Lowered

/-!
# Names of terminals

Every terminal is entered under a name of its own, and a literal under its key or text. No change of a
vocabulary (`Vocabulary.Change`) breaks that.

**Theorem (`Declarations.indexed_of_build`).** In every grammar that is built, the table of names leads to a
terminal exactly if the terminal has that name, so no two terminals share one. The tables of keywords and of
symbols never lead two texts to one terminal.
-/

namespace FourGL

namespace Vocabulary

variable {v v' v'' : Vocabulary} {t : TerminalId} {text key name : String} {terminal : Terminal}
  {keys signs : String → Prop}

/-! ## Tables and terminals -/

/-- The name of a terminal of the vocabulary. -/
def nameAt? (v : Vocabulary) (t : TerminalId) : Option String := v.terminals[t]?.map (·.name)

/-- Names and terminals belong together one to one, and no two literals have one terminal. -/
structure Indexed (v : Vocabulary) : Prop where
  names : ∀ (name : String) (t : TerminalId), v.names[name]? = some t ↔ v.nameAt? t = some name
  keywords : ∀ (key : String) (t : TerminalId), v.keywords[key]? = some t → t < v.terminals.size
  keyword_unique : ∀ (key key' : String) (t : TerminalId), v.keywords[key]? = some t →
    v.keywords[key']? = some t → key = key'
  symbols : ∀ (text : String) (t : TerminalId), v.symbols[text]? = some t → v.nameAt? t = some text

theorem lt_of_nameAt? (h : v.nameAt? t = some name) : t < v.terminals.size := by
  obtain ⟨terminal, hterminal, -⟩ := Option.map_eq_some_iff.mp h
  exact (Array.getElem?_eq_some_iff.mp hterminal).1

/-- No two terminals have one name. -/
theorem Indexed.nodup (h : v.Indexed) : (v.terminals.toList.map (·.name)).Nodup := by
  rw [List.nodup_iff_getElem?_ne_getElem?]
  intro i j hij hj heq
  have hname : ∀ k, (v.terminals.toList.map (·.name))[k]? = v.nameAt? k := fun k => by
    rw [List.getElem?_map, Array.getElem?_toList, nameAt?]
  obtain ⟨name, hi⟩ := Option.ne_none_iff_exists'.mp
    (mt List.getElem?_eq_none_iff.mp (Nat.not_le_of_lt (hij.trans hj)))
  have hentry := (h.names name i).mpr ((hname i).symm.trans hi)
  have hentry' := (h.names name j).mpr ((hname j).symm.trans (heq.symm.trans hi))
  rw [hentry] at hentry'
  exact Nat.ne_of_lt hij (Option.some.inj hentry')

theorem getElem?_insert_eq (table : Std.TreeMap String TerminalId) (new key : String) (t : TerminalId) :
    (table.insert new t)[key]? = if new = key then some t else table[key]? := by
  simp only [Std.TreeMap.getElem?_insert, Std.LawfulEqCmp.compare_eq_iff_eq]

theorem nameAt?_push (v : Vocabulary) (terminal : Terminal) (t : TerminalId) :
    (v.push terminal).nameAt? t =
      if t = v.terminals.size then some terminal.name else v.nameAt? t := by
  rw [nameAt?, push, Array.getElem?_push]
  split
  · rfl
  · rfl

theorem names_push (v : Vocabulary) (terminal : Terminal) (name : String) :
    (v.push terminal).names[name]? =
      if terminal.name = name then some v.terminals.size else v.names[name]? :=
  getElem?_insert_eq _ _ _ _

theorem nameAt?_size (v : Vocabulary) : v.nameAt? v.terminals.size = none := by
  rw [nameAt?, Array.getElem?_eq_none (Nat.le_refl _), Option.map_none]

/-! ## Entering under a new name -/

theorem Indexed.names_push (h : v.Indexed) (hnew : v.names[terminal.name]? = none) (name : String)
    (t : TerminalId) :
    (v.push terminal).names[name]? = some t ↔ (v.push terminal).nameAt? t = some name := by
  rw [Vocabulary.names_push, nameAt?_push]
  split
  · next heq =>
    subst heq
    constructor
    · intro ht
      cases ht
      rw [if_pos rfl]
    · intro ht
      split at ht
      · next hsize => rw [hsize]
      · rw [(h.names _ t).mpr ht] at hnew
        cases hnew
  · next hne =>
    rw [h.names]
    split
    · next hsize =>
      rw [hsize, nameAt?_size]
      simp [hne]
    · rfl

theorem Indexed.push (h : v.Indexed) (hnew : v.names[terminal.name]? = none) :
    (v.push terminal).Indexed where
  names := h.names_push hnew
  keywords key t ht := by
    rw [Vocabulary.push, Array.size_push]
    exact Nat.lt_succ_of_lt (h.keywords key t ht)
  keyword_unique := h.keyword_unique
  symbols text t ht := by
    have hname := h.symbols text t ht
    rw [nameAt?_push, if_neg (Nat.ne_of_lt (lt_of_nameAt? hname)), hname]

/-- A table with an entry for the next terminal. -/
theorem eq_of_insert_size {table : Std.TreeMap String TerminalId}
    (hlt : ∀ (key : String) (t : TerminalId), table[key]? = some t → t < v.terminals.size)
    {new key : String} (ht : (table.insert new v.terminals.size)[key]? = some t) :
    new = key ∧ t = v.terminals.size ∨ t < v.terminals.size ∧ table[key]? = some t := by
  rw [getElem?_insert_eq] at ht
  split at ht
  · next heq => exact Or.inl ⟨heq, (Option.some.inj ht).symm⟩
  · exact Or.inr ⟨hlt key t ht, ht⟩

theorem Indexed.pushKeyword (h : v.Indexed) (hnew : v.names[Text.uppercase text]? = none) :
    (v.pushKeyword text).Indexed := by
  have hpush : (v.push { name := Text.uppercase text, kind := .keyword, text := some text }).Indexed :=
    h.push hnew
  refine ⟨hpush.names, fun key t ht => ?_, fun key key' t ht ht' => ?_, hpush.symbols⟩
  · show t < (v.terminals.push _).size
    rw [Array.size_push]
    rcases eq_of_insert_size h.keywords ht with ⟨-, rfl⟩ | ⟨hlt, -⟩
    · exact Nat.lt_succ_self _
    · exact Nat.lt_succ_of_lt hlt
  · rcases eq_of_insert_size h.keywords ht with ⟨rfl, rfl⟩ | ⟨hlt, hold⟩
    · rcases eq_of_insert_size h.keywords ht' with ⟨heq, -⟩ | ⟨hlt, -⟩
      · exact heq
      · exact absurd hlt (Nat.lt_irrefl _)
    · rcases eq_of_insert_size h.keywords ht' with ⟨-, rfl⟩ | ⟨-, hold'⟩
      · exact absurd hlt (Nat.lt_irrefl _)
      · exact h.keyword_unique key key' t hold hold'

theorem Indexed.pushSymbol (h : v.Indexed) (hnew : v.names[text]? = none) :
    (v.pushSymbol text).Indexed := by
  have hpush : (v.push { name := text, kind := .symbol, text := some text }).Indexed := h.push hnew
  refine ⟨hpush.names, hpush.keywords, hpush.keyword_unique, fun key t ht => ?_⟩
  have ht' : (v.symbols.insert text v.terminals.size)[key]? = some t := ht
  rw [getElem?_insert_eq] at ht'
  split at ht'
  · next heq =>
    cases ht'
    show (v.push _).nameAt? _ = _
    rw [nameAt?_push, if_pos rfl, heq]
  · exact hpush.symbols key t ht'

/-- The first vocabulary is made from the empty one by entering two terminals. -/
theorem indexed_initial : initial.Indexed := by
  set ending : Terminal := ⟨"$eof", .endOfInput, none, .text, none⟩
  set failing : Terminal := ⟨"$error", .error, none, .text, none⟩ with hfailing
  have hempty : ({} : Vocabulary).Indexed := ⟨by simp [nameAt?], by simp, by simp, by simp⟩
  have hending : (({} : Vocabulary).push ending).Indexed := hempty.push (by simp)
  have hnew : (({} : Vocabulary).push ending).names[failing.name]? = none := by
    rw [Vocabulary.names_push, if_neg (by rw [hfailing]; decide)]
    simp
  exact hending.push hnew

/-! ## Changes -/

theorem Change.indexed (h : Change keys signs v v') (hv : v.Indexed) : v'.Indexed := by
  cases h with
  | mark hnames hkeywords hsymbols hsame =>
    have hname : ∀ t, v'.nameAt? t = v.nameAt? t := fun t => by
      rw [nameAt?, ← Array.getElem?_map, hsame, Array.getElem?_map, nameAt?]
    have hsize : v'.terminals.size = v.terminals.size := by
      simpa using congrArg Array.size hsame
    refine ⟨fun name t => ?_, fun key t ht => ?_, fun key key' t ht ht' => ?_, fun text t ht => ?_⟩
    · rw [hnames, hname]
      exact hv.names name t
    · rw [hkeywords] at ht
      rw [hsize]
      exact hv.keywords key t ht
    · rw [hkeywords] at ht ht'
      exact hv.keyword_unique key key' t ht ht'
    · rw [hsymbols] at ht
      rw [hname]
      exact hv.symbols text t ht
  | tokenClass terminal hnew => exact hv.push hnew
  | keyword text _ _ hnew => exact hv.pushKeyword hnew
  | symbol text _ _ hnew => exact hv.pushSymbol hnew

/-- **Names and terminals belong together**, whatever the changes are. -/
theorem Becomes.indexed (h : Becomes keys signs v v') (hv : v.Indexed) : v'.Indexed := by
  induction h with
  | refl => exact hv
  | tail _ hchange ih => exact hchange.indexed ih

/-- All literals of the vocabulary are among those allowed. -/
structure OnlyFrom (keys signs : String → Prop) (v : Vocabulary) : Prop where
  keywords : ∀ (key : String) (t : TerminalId), v.keywords[key]? = some t → keys key
  symbols : ∀ (text : String) (t : TerminalId), v.symbols[text]? = some t → signs text

theorem onlyFrom_initial : OnlyFrom keys signs initial :=
  ⟨fun _ _ h => by simp [initial] at h, fun _ _ h => by simp [initial] at h⟩

theorem onlyFrom_insert {table : Std.TreeMap String TerminalId} {P : String → Prop} {new : String}
    {t' : TerminalId} (hnew : P new)
    (h : ∀ (key : String) (t : TerminalId), table[key]? = some t → P key) (key : String)
    (t : TerminalId) (ht : (table.insert new t')[key]? = some t) : P key := by
  rw [getElem?_insert_eq] at ht
  split at ht
  · next heq => exact heq ▸ hnew
  · exact h key t ht

theorem Change.onlyFrom (h : Change keys signs v v') (hv : OnlyFrom keys signs v) :
    OnlyFrom keys signs v' := by
  cases h with
  | mark _ hkeywords hsymbols =>
    exact ⟨fun key t ht => hv.keywords key t (by rwa [hkeywords] at ht),
      fun text t ht => hv.symbols text t (by rwa [hsymbols] at ht)⟩
  | tokenClass terminal => exact ⟨hv.keywords, hv.symbols⟩
  | keyword text hkey => exact ⟨onlyFrom_insert hkey hv.keywords, hv.symbols⟩
  | symbol text hsign => exact ⟨hv.keywords, onlyFrom_insert hsign hv.symbols⟩

theorem Becomes.onlyFrom (h : Becomes keys signs v v') (hv : OnlyFrom keys signs v) :
    OnlyFrom keys signs v' := by
  induction h with
  | refl => exact hv
  | tail _ hchange ih => exact hchange.onlyFrom ih

end Vocabulary

/-! ## Declarations -/

namespace Declarations

open Vocabulary (Becomes)

variable {d d' : Declarations} {keys signs : String → Prop} {name text : String}

theorem Enters.allows (h : d.Enters d') {m : Rule.Mention} (hm : d.Allows keys signs m) :
    d'.Allows keys signs m := by
  cases m with
  | keyword text =>
    rw [Allows, Vocabulary.keywordKey, h.caseSensitive]
    exact hm
  | symbol text => exact hm
  | ref name => trivial

theorem becomes_internMentions {ms : List Rule.Mention} (h : ∀ m ∈ ms, d.Allows keys signs m) :
    Becomes keys signs d.vocabulary (ms.foldl internMention d).vocabulary := by
  induction ms generalizing d with
  | nil => exact .refl
  | cons m ms ih =>
    obtain ⟨hm, hms⟩ := List.forall_mem_cons.mp h
    exact (becomes_internMention hm).trans
      (ih fun m' hm' => (d.enters_internMention m).allows (hms m' hm'))

theorem becomes_internRules {rules : List RuleDeclaration} (h : rules.foldlM internRule d = .ok d')
    (hall : ∀ r ∈ rules, ∀ m ∈ r.rule.mentions, d.Allows keys signs m) :
    Becomes keys signs d.vocabulary d'.vocabulary := by
  induction rules generalizing d with
  | nil =>
    cases h
    exact .refl
  | cons r rules ih =>
    obtain ⟨d₁, hr, h⟩ := except_bind_ok.mp h
    obtain ⟨hmentions, hall⟩ := List.forall_mem_cons.mp hall
    have henters := enters_internRule hr
    simp only [internRule] at hr
    split at hr
    · cases hr
    · cases hr
      exact (becomes_internMentions hmentions).trans
        (ih h fun r' hr' m hm => henters.allows (hall r' hr' m hm))

/-! ## Built grammars -/

/-- What a built grammar has been made from: literals that are all entered without a defect, and rules
that are lowered. -/
theorem exists_entered_of_build {g : Grammar} (h : d.build = .ok g) :
    ∃ d', d.rules.toList.foldlM internRule d = .ok d' ∧ d'.defect = none ∧
      g.vocabulary = d'.vocabulary ∧ g.rules = d.rules ∧
      ∃ root s, Lower.all d.rules.toList root (Lower.initial d'.vocabulary) = .ok (g.root, s) := by
  obtain ⟨g', hg', h⟩ := except_bind_ok.mp h
  obtain ⟨_, -, h⟩ := except_bind_ok.mp h
  cases h
  simp only [assemble] at hg'
  split at hg'
  · next root hroot =>
    obtain ⟨_, -, h⟩ := except_bind_ok.mp hg'
    obtain ⟨d', hrules, h⟩ := except_bind_ok.mp h
    obtain ⟨_, hcheck, h⟩ := except_bind_ok.mp h
    obtain ⟨⟨id, s⟩, hall, h⟩ := except_bind_ok.mp h
    cases h
    rw [← Array.foldlM_toList] at hrules
    have hclean : d'.defect = none := by
      rw [checkDefect] at hcheck
      split at hcheck
      · cases hcheck
      · assumption
    have hsame := rules_internRules hrules
    rw [hsame] at hall
    exact ⟨d', hrules, hclean, rfl, hsame, root, s, hall⟩
  · cases hg'

theorem indexed_internRules {steps : List DeclarationStep} {rules : List RuleDeclaration}
    (h : rules.foldlM internRule (ofSteps name steps) = .ok d') : d'.vocabulary.Indexed := by
  have hsteps : Becomes (fun _ => True) (fun _ => True) .initial (ofSteps name steps).vocabulary :=
    becomes_steps (empty name) steps
  exact (hsteps.trans (becomes_internRules h fun _ _ m _ => allows_all _ m)).indexed
    Vocabulary.indexed_initial

/-- **Names and terminals belong together** in every grammar that is built. -/
theorem indexed_of_build {g : Grammar} {steps : List DeclarationStep}
    (hbuild : (ofSteps name steps).build = .ok g) : g.vocabulary.Indexed := by
  obtain ⟨d', hentered, -, heq, -⟩ := exists_entered_of_build hbuild
  rw [heq]
  exact indexed_internRules hentered

end Declarations

end FourGL
