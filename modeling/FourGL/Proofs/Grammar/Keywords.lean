import FourGL.Proofs.Grammar.Changes
import FourGL.Proofs.Grammar.WellFormed

/-!
# Keywords that stay

A keyword is accepted when it is declared, or when the literals of the rules are entered. The grammar is
built some time later, after other declarations.

**Theorem (`Declarations.Accepts.keyword?_eq`).** In the grammar built, an accepted keyword is found under
its text, as the terminal that it was accepted as. Whether case matters must not have been changed since.

Steps add to a vocabulary and mark some of its terminals. So what they leave alone are the tables and the
kinds of terminals (`Vocabulary.Keeps`), and with them that each table holds terminals of its kind
(`Vocabulary.Filed`). Each change of a vocabulary does so (`Vocabulary.Change.keeps`).
-/

namespace FourGL

namespace Vocabulary

variable {v v' v'' : Vocabulary} {t : TerminalId} {text name : String} {terminal : Terminal}
  {kind : TerminalKind}

/-! ## Vocabularies in order -/

/-- The kind of a terminal of the vocabulary. -/
def kindOf? (v : Vocabulary) (t : TerminalId) : Option TerminalKind := v.terminals[t]?.map (·.kind)

/-- The second terminal is that of errors, and each table holds terminals of its kind. -/
structure Filed (v : Vocabulary) : Prop where
  error : v.kindOf? errorToken = some .error
  keywords : ∀ (key : String) (t : TerminalId), v.keywords[key]? = some t →
    v.kindOf? t = some .keyword
  symbols : ∀ (text : String) (t : TerminalId), v.symbols[text]? = some t →
    v.kindOf? t = some .symbol

/-- A later vocabulary, in order if the first is, with all keywords as they were. -/
structure Keeps (v v' : Vocabulary) : Prop where
  keywords : ∀ (key : String) (t : TerminalId), v.keywords[key]? = some t →
    v'.keywords[key]? = some t
  filed : v.Filed → v'.Filed

theorem Keeps.refl (v : Vocabulary) : v.Keeps v := ⟨fun _ _ h => h, id⟩

theorem Keeps.trans (h : v.Keeps v') (h' : v'.Keeps v'') : v.Keeps v'' :=
  ⟨fun key t ht => h'.keywords key t (h.keywords key t ht), h'.filed ∘ h.filed⟩

theorem Keeps.keyword? (h : v.Keeps v') (hcase : v'.caseSensitive = v.caseSensitive)
    (ht : v.keyword? text = some t) : v'.keyword? text = some t := by
  rw [Vocabulary.keyword?, keywordKey] at ht ⊢
  rw [hcase]
  exact h.keywords _ t ht

theorem filed_initial : initial.Filed where
  error := rfl
  keywords _ _ h := by simp [initial] at h
  symbols _ _ h := by simp [initial] at h

theorem Extends.kindOf? (h : v.Extends v') (ht : v.kindOf? t = some kind) :
    v'.kindOf? t = some kind := by
  obtain ⟨terminal, hterminal, hkind⟩ := Option.map_eq_some_iff.mp ht
  rw [Vocabulary.kindOf?, h.terminals t terminal hterminal, Option.map_some, hkind]

/-- Changes to terminals that leave their kinds. -/
theorem keeps_of_kinds (h : v'.terminals.map (·.kind) = v.terminals.map (·.kind))
    (hkeywords : v'.keywords = v.keywords) (hsymbols : v'.symbols = v.symbols) : v.Keeps v' := by
  have hkind : ∀ t, v'.kindOf? t = v.kindOf? t := fun t => by
    rw [kindOf?, ← Array.getElem?_map, h, Array.getElem?_map, kindOf?]
  refine ⟨fun key t ht => by rwa [hkeywords], fun hfiled => ⟨?_, fun key t ht => ?_, fun text t ht => ?_⟩⟩
  · rw [hkind]
    exact hfiled.error
  · rw [hkind]
    exact hfiled.keywords key t (by rwa [hkeywords] at ht)
  · rw [hkind]
    exact hfiled.symbols text t (by rwa [hsymbols] at ht)

/-! ## Entering terminals -/

theorem kindOf?_push (v : Vocabulary) (terminal : Terminal) :
    (v.push terminal).kindOf? v.terminals.size = some terminal.kind := by
  rw [kindOf?, push, Array.getElem?_push_size]
  rfl

/-! ## What entering keeps -/

/-- An attempt that keeps what was entered, and each table in order. -/
structure Files (v : Vocabulary) (r : Attempt) : Prop where
  growth : v.Extends r.1
  filed : v.Filed → r.1.Filed

theorem Files.keeps {r : Attempt} (h : v.Files r) : v.Keeps r.1 := ⟨h.growth.keywords, h.filed⟩

theorem files_same (v : Vocabulary) (result : Except GrammarError TerminalId) :
    v.Files (v, result) := ⟨.refl v, id⟩

theorem Filed.push (h : v.Filed) (hnew : v.names[terminal.name]? = none) :
    (v.push terminal).Filed :=
  ⟨(extends_push hnew).kindOf? h.error,
    fun key t ht => (extends_push hnew).kindOf? (h.keywords key t ht),
    fun text t ht => (extends_push hnew).kindOf? (h.symbols text t ht)⟩

theorem files_add (v : Vocabulary) (terminal : Terminal) : v.Files (v.add terminal) := by
  rcases v.add_cases terminal with ⟨hnew, heq⟩ | ⟨e, heq⟩
  · rw [heq]
    exact ⟨extends_push hnew, fun h => h.push hnew⟩
  · rw [heq]
    exact v.files_same _

theorem files_declareClass (v : Vocabulary) (kind : TerminalKind) (name : String) :
    v.Files (v.declareClass kind name) := by
  simp only [declareClass]
  split
  · split
    · exact v.files_same _
    · exact v.files_same _
  · exact v.files_add _

/-- What is found in a table with one entry more. -/
theorem getElem?_of_insert {table : Std.TreeMap String TerminalId} {new key : String}
    {t t' : TerminalId} (h : (table.insert new t')[key]? = some t) :
    table[key]? = some t ∨ t = t' := by
  rw [Std.TreeMap.getElem?_insert] at h
  split at h
  · exact Or.inr (Option.some.inj h).symm
  · exact Or.inl h

theorem Filed.pushKeyword (h : v.Filed) (hnew : v.names[Text.uppercase text]? = none) :
    (v.pushKeyword text).Filed := by
  have hpush : (v.push
      { name := Text.uppercase text, kind := .keyword, text := some text }).Filed := h.push hnew
  refine ⟨hpush.error, fun key t ht => ?_, hpush.symbols⟩
  rcases getElem?_of_insert ht with hold | rfl
  · exact hpush.keywords key t hold
  · exact v.kindOf?_push _

theorem Filed.pushSymbol (h : v.Filed) (hnew : v.names[text]? = none) : (v.pushSymbol text).Filed := by
  have hpush : (v.push { name := text, kind := .symbol, text := some text }).Filed := h.push hnew
  refine ⟨hpush.error, hpush.keywords, fun key t ht => ?_⟩
  rcases getElem?_of_insert ht with hold | rfl
  · exact hpush.symbols key t hold
  · exact v.kindOf?_push _

theorem files_internKeyword (v : Vocabulary) (text : String) : v.Files (v.internKeyword text) := by
  rcases v.internKeyword_cases text with ⟨t, -, heq⟩ | ⟨hnone, hnew, heq⟩ | ⟨e, heq⟩
  · rw [heq]
    exact v.files_same _
  · rw [heq]
    have hpush : v.Extends (v.push
        { name := Text.uppercase text, kind := .keyword, text := some text }) := extends_push hnew
    exact ⟨⟨rfl, hpush.terminals, hpush.names, fun key t ht => getElem?_insert_of_new hnone ht,
      hpush.symbols⟩, fun h => h.pushKeyword hnew⟩
  · rw [heq]
    exact v.files_same _

theorem files_internSymbol (v : Vocabulary) (text : String) : v.Files (v.internSymbol text) := by
  rcases v.internSymbol_cases text with ⟨t, heq⟩ | ⟨hnone, hnew, heq⟩ | ⟨e, heq⟩
  · rw [heq]
    exact v.files_same _
  · rw [heq]
    have hpush : v.Extends (v.push { name := text, kind := .symbol, text := some text }) :=
      extends_push hnew
    exact ⟨⟨rfl, hpush.terminals, hpush.names, hpush.keywords,
      fun key t ht => getElem?_insert_of_new hnone ht⟩, fun h => h.pushSymbol hnew⟩
  · rw [heq]
    exact v.files_same _

/-- A change keeps all keywords, and each table in order. -/
theorem Change.keeps {keys signs : String → Prop} (h : Change keys signs v v') : v.Keeps v' := by
  refine ⟨h.retains.keywords, fun hfiled => ?_⟩
  cases h with
  | mark _ hkeywords hsymbols _ hkinds => exact (keeps_of_kinds hkinds hkeywords hsymbols).filed hfiled
  | tokenClass terminal hnew => exact hfiled.push hnew
  | keyword text _ _ hnew => exact hfiled.pushKeyword hnew
  | symbol text _ _ hnew => exact hfiled.pushSymbol hnew

theorem Becomes.keeps {keys signs : String → Prop} (h : Becomes keys signs v v') : v.Keeps v' := by
  induction h with
  | refl => exact .refl _
  | tail _ hchange ih => exact ih.trans hchange.keeps

/-- A keyword is found under its text once it is accepted. -/
theorem keyword?_of_internKeyword (h : (v.internKeyword text).2 = .ok t) :
    (v.internKeyword text).1.keyword? text = some t := by
  rcases v.internKeyword_cases text with ⟨t', ht', heq⟩ | ⟨-, -, heq⟩ | ⟨e, heq⟩
  · rw [heq] at h ⊢
    cases h
    exact ht'
  · rw [heq] at h ⊢
    cases h
    show (v.keywords.insert (v.keywordKey text) v.terminals.size)[v.keywordKey text]? = _
    rw [Std.TreeMap.getElem?_insert_self]
  · rw [heq] at h
    cases h

end Vocabulary

/-! ## Declarations -/

namespace Declarations

variable {d d' : Declarations} {name text : String} {t : TerminalId} {steps : List DeclarationStep}

/-- Later declarations, with a vocabulary that keeps what there is. -/
def Keeps (d d' : Declarations) : Prop := d.vocabulary.Keeps d'.vocabulary

theorem keeps_intern {attempt : Vocabulary → Vocabulary.Attempt}
    (h : d.vocabulary.Files (attempt d.vocabulary)) : d.Keeps (d.intern attempt).1 := by
  rw [Keeps, vocabulary_intern]
  exact h.keeps

theorem keeps_steps (d : Declarations) (steps : List DeclarationStep) :
    d.Keeps (steps.foldl take d) := (d.becomes_steps steps).keeps

/-- **Declared vocabularies are in order.** -/
theorem filed_ofSteps (name : String) (steps : List DeclarationStep) :
    (ofSteps name steps).vocabulary.Filed :=
  ((empty name).keeps_steps steps).filed Vocabulary.filed_initial

/-! ## Entering the literals of the rules -/

/-- Later declarations with the same rules for case. -/
structure Enters (d d' : Declarations) : Prop where
  keeps : d.Keeps d'
  caseSensitive : d'.vocabulary.caseSensitive = d.vocabulary.caseSensitive

theorem Enters.refl (d : Declarations) : d.Enters d := ⟨.refl _, rfl⟩

theorem Enters.trans {d'' : Declarations} (h : d.Enters d') (h' : d'.Enters d'') : d.Enters d'' :=
  ⟨h.keeps.trans h'.keeps, h'.caseSensitive.trans h.caseSensitive⟩

theorem enters_intern {attempt : Vocabulary → Vocabulary.Attempt}
    (h : d.vocabulary.Files (attempt d.vocabulary)) : d.Enters (d.intern attempt).1 := by
  refine ⟨keeps_intern h, ?_⟩
  rw [vocabulary_intern]
  exact h.growth.caseSensitive

theorem enters_internMention (d : Declarations) (m : Rule.Mention) :
    d.Enters (d.internMention m) := by
  cases m with
  | keyword text => exact enters_intern (d.vocabulary.files_internKeyword text)
  | symbol text => exact enters_intern (d.vocabulary.files_internSymbol text)
  | ref name => exact .refl d

theorem enters_internMentions (d : Declarations) (ms : List Rule.Mention) :
    d.Enters (ms.foldl internMention d) := by
  induction ms generalizing d with
  | nil => exact .refl d
  | cons m ms ih => exact (d.enters_internMention m).trans (ih _)

theorem enters_internRule {r : RuleDeclaration} (h : d.internRule r = .ok d') : d.Enters d' := by
  simp only [internRule] at h
  split at h
  · cases h
  · cases h
    exact d.enters_internMentions _

theorem enters_internRules {rules : List RuleDeclaration} (h : rules.foldlM internRule d = .ok d') :
    d.Enters d' := by
  induction rules generalizing d with
  | nil =>
    cases h
    exact .refl _
  | cons r rules ih =>
    obtain ⟨d₁, hr, h⟩ := except_bind_ok.mp h
    exact (enters_internRule hr).trans (ih h)

/-! ## Accepted keywords -/

/-- In the course of the declaration, the keyword is accepted as the terminal: at a step that declares it,
or where the grammar is built and a rule mentions it. -/
inductive Accepts (name : String) (steps : List DeclarationStep) (text : String) (t : TerminalId) :
    Prop
  | declared (before after : List DeclarationStep) : steps = before ++ .keyword text :: after →
    ((ofSteps name before).vocabulary.internKeyword text).2 = .ok t → Accepts name steps text t
  | mentioned (before after : List RuleDeclaration) (r : RuleDeclaration) (ms ms' : List Rule.Mention)
      (d : Declarations) : (ofSteps name steps).rules.toList = before ++ r :: after →
    before.foldlM internRule (ofSteps name steps) = .ok d →
    r.rule.mentions = ms ++ .keyword text :: ms' →
    ((ms.foldl internMention d).vocabulary.internKeyword text).2 = .ok t → Accepts name steps text t

/-- Where keywords are declared, case matters as much as in the end. -/
def CaseSettled (name : String) (steps : List DeclarationStep) : Prop :=
  ∀ (before after : List DeclarationStep) (text : String), steps = before ++ .keyword text :: after →
    (ofSteps name before).vocabulary.caseSensitive = (ofSteps name steps).vocabulary.caseSensitive

theorem Enters.keyword? (h : d.Enters d') (ht : d.vocabulary.keyword? text = some t) :
    d'.vocabulary.keyword? text = some t := Vocabulary.Keeps.keyword? h.keeps h.caseSensitive ht

/-- A keyword is found under its text once it is accepted. -/
theorem keyword?_of_accepted (h : (d.vocabulary.internKeyword text).2 = .ok t) :
    (d.keyword text).vocabulary.keyword? text = some t := by
  rw [keyword, vocabulary_intern]
  exact Vocabulary.keyword?_of_internKeyword h

theorem exists_internRules_of_build {g : Grammar} (h : d.build = .ok g) :
    ∃ d', d.rules.toList.foldlM internRule d = .ok d' ∧ g.vocabulary = d'.vocabulary := by
  obtain ⟨g', hg', h⟩ := except_bind_ok.mp h
  obtain ⟨u, hfinal, h⟩ := except_bind_ok.mp h
  cases h
  simp only [assemble] at hg'
  split at hg'
  · obtain ⟨_, -, h⟩ := except_bind_ok.mp hg'
    obtain ⟨d₁, hrules, h⟩ := except_bind_ok.mp h
    obtain ⟨_, -, h⟩ := except_bind_ok.mp h
    obtain ⟨⟨id, s⟩, hall, h⟩ := except_bind_ok.mp h
    cases h
    rw [← Array.foldlM_toList] at hrules
    exact ⟨d₁, hrules, rfl⟩
  · cases hg'

/-- **Built vocabularies are in order.** -/
theorem filed_of_build {g : Grammar} (h : (ofSteps name steps).build = .ok g) :
    g.vocabulary.Filed := by
  obtain ⟨d', hrules, heq⟩ := exists_internRules_of_build h
  rw [heq]
  exact (enters_internRules hrules).keeps.filed (filed_ofSteps name steps)

/-- A keyword accepted at a step is found when the steps are over. -/
theorem keyword?_of_declared {before after : List DeclarationStep}
    (hsteps : steps = before ++ .keyword text :: after) (hcase : CaseSettled name steps)
    (h : ((ofSteps name before).vocabulary.internKeyword text).2 = .ok t) :
    (ofSteps name steps).vocabulary.keyword? text = some t := by
  have hfound := keyword?_of_accepted h
  have hsettled := hcase before after text hsteps
  have hsame : ((ofSteps name before).keyword text).vocabulary.caseSensitive =
      (ofSteps name before).vocabulary.caseSensitive :=
    (enters_internMention _ (.keyword text)).caseSensitive
  have hafter : ofSteps name steps = after.foldl take ((ofSteps name before).keyword text) := by
    rw [ofSteps, hsteps, List.foldl_append]
    rfl
  have hkeeps := keeps_steps ((ofSteps name before).keyword text) after
  rw [← hafter] at hkeeps
  exact Vocabulary.Keeps.keyword? hkeeps (by rw [hsame, hsettled]) hfound

/-- A keyword accepted for a rule is found when the literals of all rules are entered. -/
theorem keyword?_of_mentioned {e : Declarations} {before after : List RuleDeclaration}
    {r : RuleDeclaration} {ms ms' : List Rule.Mention}
    (hall : (before ++ r :: after).foldlM internRule d = .ok d')
    (hbefore : before.foldlM internRule d = .ok e)
    (hmentions : r.rule.mentions = ms ++ .keyword text :: ms')
    (h : ((ms.foldl internMention e).vocabulary.internKeyword text).2 = .ok t) :
    d'.vocabulary.keyword? text = some t := by
  rw [List.foldlM_append] at hall
  obtain ⟨e', hbefore', hall⟩ := except_bind_ok.mp hall
  cases hbefore.symm.trans hbefore'
  rw [List.foldlM_cons] at hall
  obtain ⟨e₁, hr, hafter⟩ := except_bind_ok.mp hall
  simp only [internRule] at hr
  split at hr
  · cases hr
  · cases hr
    rw [hmentions, List.foldl_append, List.foldl_cons] at hafter
    have hlater := (enters_internMentions _ ms').trans (enters_internRules hafter)
    exact hlater.keyword? (keyword?_of_accepted h)

/-- **Accepted keywords stay.** In the grammar built, an accepted keyword is found under its text. -/
theorem Accepts.keyword?_eq {g : Grammar} (h : Accepts name steps text t)
    (hcase : CaseSettled name steps) (hbuild : (ofSteps name steps).build = .ok g) :
    g.vocabulary.keyword? text = some t := by
  obtain ⟨d', hrules, heq⟩ := exists_internRules_of_build hbuild
  rw [heq]
  cases h with
  | declared before after hsteps hok =>
    exact (enters_internRules hrules).keyword? (keyword?_of_declared hsteps hcase hok)
  | mentioned before after r ms ms' d hsplit hbefore hmentions hok =>
    rw [hsplit] at hrules
    exact keyword?_of_mentioned hrules hbefore hmentions hok

end Declarations

end FourGL
