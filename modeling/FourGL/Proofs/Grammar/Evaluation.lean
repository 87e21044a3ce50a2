import FourGL.Proofs.Grammar.Looks
import FourGL.Proofs.Grammar.Validation

/-!
# Building by evaluation

A large grammar cannot be built step by step in a proof. But all that can go wrong is decided by its
rules: whether their names differ, whether what they mention is known, whether parts with the same look
are the same, whether all is productive and the root refers to all. `rulesPass` decides it with numbers
in place of texts and marks.

**Theorem (`exists_build_of_passes`).** Declarations with room for what the rules need build these if
they pass. What was declared before stays, and parts that look the same are alike.
-/

namespace FourGL

/-! ## What parts mention -/

namespace Rule

theorem mentions_subset_cons {p r : Rule} {rs : List Rule} (h : p.mentions ⊆ r.mentions)
    (hrs : ∀ q ∈ rs, q.mentions ⊆ p.mentions) : ∀ q ∈ p :: rs, q.mentions ⊆ r.mentions :=
  List.forall_mem_cons.mpr ⟨h, fun q hq => List.Subset.trans (hrs q hq) h⟩

mutual

theorem mentions_subset_within : ∀ r : Rule, ∀ p ∈ r.within, p.mentions ⊆ r.mentions
  | .empty | .keyword _ | .symbol _ | .ref _ => List.forall_mem_nil _
  | .seq items | .alt items => mentions_subset_withinEach items
  | .opt item | .star item | .plus item =>
    mentions_subset_cons (List.Subset.refl _) (mentions_subset_within item)
  | .plusSep item separator => List.forall_mem_append.mpr
    ⟨mentions_subset_cons (List.subset_append_left _ _) (mentions_subset_within item),
      mentions_subset_cons (List.subset_append_right _ _) (mentions_subset_within separator)⟩
  | .starSep item separator => List.forall_mem_cons.mpr ⟨List.Subset.refl _,
    List.forall_mem_append.mpr
      ⟨mentions_subset_cons (List.subset_append_left _ _) (mentions_subset_within item),
        mentions_subset_cons (List.subset_append_right _ _) (mentions_subset_within separator)⟩⟩

theorem mentions_subset_withinEach :
    ∀ rs : List Rule, ∀ p ∈ withinEach rs, p.mentions ⊆ mentionsOfAll rs
  | [] => List.forall_mem_nil _
  | r :: rs => by
    refine List.forall_mem_append.mpr ⟨List.forall_mem_cons.mpr
      ⟨List.subset_append_left _ _, fun p hp => ?_⟩, fun p hp => ?_⟩
    · exact List.Subset.trans (mentions_subset_within r p hp) (List.subset_append_left _ _)
    · exact List.Subset.trans (mentions_subset_withinEach rs p hp) (List.subset_append_right _ _)

end

theorem mentions_subset_of_mem_subrules {p r : Rule} (h : p ∈ r.subrules) :
    p.mentions ⊆ r.mentions := by
  rcases List.mem_cons.mp h with rfl | h
  · exact List.Subset.refl _
  · exact mentions_subset_within r p h

end Rule

/-! ## Words of rules -/

namespace Rule

mutual

/-- Whether the rule has some word, as far as that of the known names tells. -/
def wordIn (known : String → Bool) : Rule → Bool
  | .empty | .keyword _ | .symbol _ | .opt _ | .star _ | .starSep _ _ => true
  | .ref name => known name
  | .seq items => wordInAll known items
  | .alt items => wordInSome known items
  | .plus item => item.wordIn known
  | .plusSep item _ => item.wordIn known

/-- Whether all rules have some word. -/
def wordInAll (known : String → Bool) : List Rule → Bool
  | [] => true
  | r :: rs => r.wordIn known && wordInAll known rs

/-- Whether some of the rules has some word. -/
def wordInSome (known : String → Bool) : List Rule → Bool
  | [] => false
  | r :: rs => r.wordIn known || wordInSome known rs

end

section

variable {v : Vocabulary} {rules : List RuleDeclaration} {ρ : Languages} {known : String → Bool}

mutual

/-- A rule has a word if the names do that are said to. -/
theorem exists_word (hknown : ∀ name, known name = true → (Mention.ref name).Known v rules →
    ∃ w, w ∈ nameLanguage v rules ρ name) : ∀ r : Rule, (∀ m ∈ r.mentions, m.Known v rules) →
      r.wordIn known = true → ∃ w, w ∈ r.language v rules ρ
  | .empty, _, _ => ⟨[], Language.nil_mem_one⟩
  | .keyword text, h, _ => by
    obtain ⟨t, ht⟩ := h (.keyword text) List.mem_cons_self
    exact ⟨[t], by rw [language, ht]; rfl⟩
  | .symbol text, h, _ => by
    obtain ⟨t, ht⟩ := h (.symbol text) List.mem_cons_self
    exact ⟨[t], by rw [language, ht]; rfl⟩
  | .ref name, h, hword => by
    rw [language]
    exact hknown name (by simpa only [wordIn] using hword) (h (.ref name) List.mem_cons_self)
  | .seq items, h, hword => by
    rw [language]
    exact exists_word_all hknown items h (by simpa only [wordIn] using hword)
  | .alt items, h, hword => by
    rw [language]
    exact exists_word_some hknown items h (by simpa only [wordIn] using hword)
  | .opt _, _, _ => ⟨[], by rw [language]; exact Or.inl Language.nil_mem_one⟩
  | .star _, _, _ => ⟨[], by rw [language]; exact Language.nil_mem_kstar _⟩
  | .starSep _ _, _, _ => ⟨[], by rw [language]; exact Or.inl Language.nil_mem_one⟩
  | .plus item, h, hword => by
    obtain ⟨w, hw⟩ := exists_word hknown item h (by simpa only [wordIn] using hword)
    exact ⟨w ++ [], by rw [language]; exact Language.append_mem_mul hw (Language.nil_mem_kstar _)⟩
  | .plusSep item _, h, hword => by
    obtain ⟨w, hw⟩ := exists_word hknown item (fun m hm => h m (List.mem_append_left _ hm))
      (by simpa only [wordIn] using hword)
    exact ⟨w ++ [], by rw [language]; exact Language.append_mem_mul hw (Language.nil_mem_kstar _)⟩

theorem exists_word_all (hknown : ∀ name, known name = true → (Mention.ref name).Known v rules →
    ∃ w, w ∈ nameLanguage v rules ρ name) :
      ∀ rs : List Rule, (∀ m ∈ mentionsOfAll rs, m.Known v rules) →
        wordInAll known rs = true → ∃ w, w ∈ sequenceLanguage v rules ρ rs
  | [], _, _ => ⟨[], Language.nil_mem_one⟩
  | r :: rs, h, hword => by
    simp only [wordInAll, Bool.and_eq_true] at hword
    obtain ⟨hr, hrs⟩ := List.forall_mem_append.mp h
    obtain ⟨u, hu⟩ := exists_word hknown r hr hword.1
    obtain ⟨w, hw⟩ := exists_word_all hknown rs hrs hword.2
    exact ⟨u ++ w, Language.append_mem_mul hu hw⟩

theorem exists_word_some (hknown : ∀ name, known name = true → (Mention.ref name).Known v rules →
    ∃ w, w ∈ nameLanguage v rules ρ name) :
      ∀ rs : List Rule, (∀ m ∈ mentionsOfAll rs, m.Known v rules) →
        wordInSome known rs = true → ∃ w, w ∈ choiceLanguage v rules ρ rs
  | [], _, hword => by simp [wordInSome] at hword
  | r :: rs, h, hword => by
    simp only [wordInSome, Bool.or_eq_true] at hword
    obtain ⟨hr, hrs⟩ := List.forall_mem_append.mp h
    rcases hword with hword | hword
    · obtain ⟨w, hw⟩ := exists_word hknown r hr hword
      exact ⟨w, Or.inl hw⟩
    · obtain ⟨w, hw⟩ := exists_word_some hknown rs hrs hword
      exact ⟨w, Or.inr hw⟩

end

end

end Rule

/-! ## Marking rules -/

section

variable {rules order : List RuleDeclaration} {marks n : Nat} {name name' root : String}
  {d : RuleDeclaration} {P : String → Prop} {v : Vocabulary}

/-- The place of the rule with the name, or the place after the last. -/
def placeOf (rules : List RuleDeclaration) (name : String) : Nat :=
  rules.findIdx fun d => Rule.sameText d.name name

/-- Whether no rule has the name. -/
def isFree (rules : List RuleDeclaration) (name : String) : Bool :=
  Nat.beq (placeOf rules name) rules.length

/-- Whether the bit for the rule with the name is set. -/
def isMarked (rules : List RuleDeclaration) (marks : Nat) (name : String) : Bool :=
  marks.testBit (placeOf rules name)

/-- Sets the bit for the rule with the name. -/
def mark (rules : List RuleDeclaration) (marks : Nat) (name : String) : Nat :=
  marks ||| 2 ^ placeOf rules name

/-- Takes the step for all rules. The cases make the kernel evaluate the marks before it goes on. -/
def markEach (step : Nat → RuleDeclaration → Nat) : List RuleDeclaration → Nat → Nat
  | [], marks => marks
  | d :: ds, marks =>
    match step marks d with
    | 0 => markEach step ds 0
    | m + 1 => markEach step ds (m + 1)

/-- Takes the step for all rules, a number of times. -/
def sweep (order : List RuleDeclaration) (step : Nat → RuleDeclaration → Nat) : Nat → Nat → Nat
  | 0, marks => marks
  | n + 1, marks => sweep order step n (markEach step order marks)

theorem markEach_eq (step : Nat → RuleDeclaration → Nat) (ds : List RuleDeclaration)
    (marks : Nat) : markEach step ds marks = ds.foldl step marks := by
  induction ds generalizing marks with
  | nil => rfl
  | cons d ds ih =>
    rw [List.foldl_cons, markEach]
    split
    · next heq => rw [heq, ih]
    · next heq => rw [heq, ih]

theorem placeOf_lt (h : ∃ d ∈ rules, d.name = name) : placeOf rules name < rules.length := by
  obtain ⟨d, hd, rfl⟩ := h
  exact List.findIdx_lt_length_of_exists ⟨d, hd, Rule.sameText_self d.name⟩

theorem isFree_iff : isFree rules name = true ↔ ¬ ∃ d ∈ rules, d.name = name := by
  rw [isFree, Nat.beq_eq]
  refine ⟨fun heq h => Nat.ne_of_lt (placeOf_lt h) heq, fun h => ?_⟩
  refine Nat.le_antisymm List.findIdx_le_length (Nat.le_of_not_lt fun hlt => h ?_)
  exact ⟨_, List.getElem_mem hlt, Rule.eq_of_sameText (List.findIdx_getElem (w := hlt))⟩

theorem name_eq_of_placeOf_eq (h : ∃ d ∈ rules, d.name = name)
    (heq : placeOf rules name = placeOf rules name') : name = name' := by
  have hlt := placeOf_lt h
  have hlt' : placeOf rules name' < rules.length := heq ▸ hlt
  have hname : rules[placeOf rules name].name = name :=
    Rule.eq_of_sameText (List.findIdx_getElem (w := hlt))
  have hname' : rules[placeOf rules name'].name = name' :=
    Rule.eq_of_sameText (List.findIdx_getElem (w := hlt'))
  rw [← hname, ← hname']
  simp only [heq]

/-- All marked rules have the property. -/
def OnlyMarks (rules : List RuleDeclaration) (P : String → Prop) (marks : Nat) : Prop :=
  ∀ name, (∃ d ∈ rules, d.name = name) → isMarked rules marks name = true → P name

theorem OnlyMarks.zero : OnlyMarks rules P 0 := fun name _ h => by
  rw [isMarked, Nat.zero_testBit] at h
  cases h

theorem OnlyMarks.mark (h : OnlyMarks rules P marks) (hP : P name) :
    OnlyMarks rules P (mark rules marks name) := by
  intro name' hname' hmarked
  rw [isMarked, FourGL.mark, Nat.testBit_or, Nat.testBit_two_pow, Bool.or_eq_true,
    decide_eq_true_eq] at hmarked
  rcases hmarked with hmarked | heq
  · exact h name' hname' hmarked
  · rwa [name_eq_of_placeOf_eq hname' heq.symm]

/-- What every step preserves holds after all of them. -/
theorem OnlyMarks.sweep {step : Nat → RuleDeclaration → Nat}
    (hstep : ∀ marks, ∀ d ∈ order, OnlyMarks rules P marks → OnlyMarks rules P (step marks d)) :
    ∀ n marks, OnlyMarks rules P marks → OnlyMarks rules P (sweep order step n marks)
  | 0, _, h => h
  | n + 1, marks, h => by
    refine OnlyMarks.sweep hstep n _ ?_
    rw [markEach_eq]
    exact List.foldlRecOn order step h fun marks h d hd => hstep marks d hd h

/-- Marks the rule if it has a word. -/
def markProductive (rules : List RuleDeclaration) (marks : Nat) (d : RuleDeclaration) : Nat :=
  bif d.rule.wordIn fun name => isFree rules name || isMarked rules marks name then
    mark rules marks d.name
  else marks

/-- Marks what a marked rule refers to. -/
def markReferred (rules : List RuleDeclaration) (marks : Nat) (d : RuleDeclaration) : Nat :=
  bif isMarked rules marks d.name then d.rule.references.foldl (mark rules) marks else marks

/-- A known name has a word, if the rule with the name does. -/
theorem exists_word_of_known {ρ : Languages} (hknown : (Rule.Mention.ref name).Known v rules)
    (h : (∃ d ∈ rules, d.name = name) → ∃ w, w ∈ ρ name) :
    ∃ w, w ∈ nameLanguage v rules ρ name := by
  rw [nameLanguage]
  split
  · next hdeclared => exact h hdeclared
  · next hdeclared =>
    obtain ⟨t, ht⟩ := hknown.resolve_left hdeclared
    exact ⟨[t], by rw [ht]; rfl⟩

theorem OnlyMarks.markProductive
    (hknown : ∀ d ∈ rules, ∀ m ∈ d.rule.mentions, m.Known v rules) (hd : d ∈ rules)
    (h : OnlyMarks rules (fun name => ∃ w, w ∈ ruleLanguages v rules name) marks) :
    OnlyMarks rules (fun name => ∃ w, w ∈ ruleLanguages v rules name)
      (markProductive rules marks d) := by
  rw [FourGL.markProductive]
  cases hword : d.rule.wordIn fun name => isFree rules name || isMarked rules marks name with
  | false => exact h
  | true =>
    refine h.mark ?_
    have hmarked : ∀ name, (isFree rules name || isMarked rules marks name) = true →
        (Rule.Mention.ref name).Known v rules →
          ∃ w, w ∈ nameLanguage v rules (ruleLanguages v rules) name := by
      intro name hname hknown
      rw [Bool.or_eq_true] at hname
      refine exists_word_of_known hknown fun hdeclared => h name hdeclared ?_
      exact hname.resolve_left fun hfree => isFree_iff.mp hfree hdeclared
    obtain ⟨w, hw⟩ := Rule.exists_word hmarked d.rule (hknown d hd) hword
    exact ⟨w, mem_ruleLanguages.mpr ⟨d, hd, rfl, hw⟩⟩

theorem OnlyMarks.markReferred (hd : d ∈ rules)
    (h : OnlyMarks rules (Relation.ReflTransGen (Grammar.Refers rules) root) marks) :
    OnlyMarks rules (Relation.ReflTransGen (Grammar.Refers rules) root)
      (markReferred rules marks d) := by
  rw [FourGL.markReferred]
  cases hmarked : isMarked rules marks d.name with
  | false => exact h
  | true =>
    have hroot := h d.name ⟨d, hd, rfl⟩ hmarked
    refine List.foldlRecOn _ _ h fun marks h name hname => OnlyMarks.mark h ?_
    exact hroot.tail ⟨d, hd, rfl, hname⟩

end

/-! ## Rules that pass -/

/-- Whether all rules are marked. -/
def allMarked (rules : List RuleDeclaration) (marks : Nat) : Bool :=
  rules.all fun d => isMarked rules marks d.name

/-- Whether the names start with small letters and differ from each other. -/
def namesApart : List RuleDeclaration → Bool
  | [] => true
  | d :: ds => Text.startsSmall d.name && (ds.all fun e => !Rule.sameText d.name e.name) &&
      namesApart ds

/-- Whether a literal is plain, and a name that of a rule or of one of the classes. -/
def mentionPasses (classes : List String) (rules : List RuleDeclaration) : Rule.Mention → Bool
  | .keyword text => Text.isSmallWord text
  | .symbol text => Operator.all.any fun op => Rule.sameText op.text text
  | .ref name => !isFree rules name || classes.any (Rule.sameText name)

/-- Whether a part may take a helper. -/
def mayTakeHelper (rules : List RuleDeclaration) : Rule → Bool
  | .keyword _ | .symbol _ => false
  | .ref name => isFree rules name
  | _ => true

/-- The parts of rules that may take helpers. -/
def helperParts (rules : List RuleDeclaration) : List Rule :=
  (rules.flatMap (·.rule.parts)).filter (mayTakeHelper rules)

/-- Whether the rules can be built, with classes of tokens, a number of terminals and a root. -/
def rulesPass (classes : List String) (room : Nat) (root : String) (rules : List RuleDeclaration)
    (n : Nat) : Bool :=
  namesApart rules && !isFree rules root &&
  (rules.all fun d => d.rule.mentions.all (mentionPasses classes rules)) &&
  Rule.allApart (helperParts rules) &&
  (rules.all fun d => d.rule.subrules.all (Rule.wordIn fun _ => true)) &&
  allMarked rules (sweep rules.reverse (markProductive rules) n 0) &&
  allMarked rules (sweep rules (markReferred rules) n (mark rules 0 root)) &&
  Nat.ble (rules.map (·.rule.mentions.length)).sum room &&
  Nat.blt (rules.map RuleDeclaration.weight).sum maxIndex

section

variable {rules : List RuleDeclaration} {classes : List String} {root : String} {room n : Nat}
  {d : RuleDeclaration} {m : Rule.Mention} {p : Rule} {v : Vocabulary}

theorem startsSmall_of_namesApart (h : namesApart rules = true) (hd : d ∈ rules) :
    Text.StartsSmall d.name := by
  induction rules with
  | nil => cases hd
  | cons e rules ih =>
    simp only [namesApart, Bool.and_eq_true] at h
    rcases List.mem_cons.mp hd with rfl | hd
    · exact Text.startsSmall_of_bytes h.1.1
    · exact ih h.2 hd

theorem distinctNames_of_namesApart (h : namesApart rules = true) :
    Declarations.DistinctNames rules := by
  induction rules with
  | nil => exact .nil
  | cons d rules ih =>
    simp only [namesApart, Bool.and_eq_true, List.all_eq_true] at h
    refine List.pairwise_cons.mpr ⟨fun e he heq => ?_, ih h.2⟩
    have hne := h.1.2 e he
    rw [heq, Rule.sameText_self] at hne
    cases hne

theorem Rule.Mention.plain_of_passes (h : mentionPasses classes rules m = true) : m.Plain := by
  cases m with
  | keyword text => exact Text.isSmallWord_of_bytes h
  | symbol text =>
    obtain ⟨op, -, heq⟩ := List.any_eq_true.mp h
    exact ⟨op, Rule.eq_of_sameText heq⟩
  | ref name => trivial

theorem known_of_passes {name : String} (h : mentionPasses classes rules (.ref name) = true) :
    (∃ d ∈ rules, d.name = name) ∨ name ∈ classes := by
  rcases (Bool.or_eq_true _ _ ▸ h : _ ∨ _) with hfree | hclass
  · refine Or.inl (not_not.mp fun hno => ?_)
    rw [isFree_iff.mpr hno] at hfree
    cases hfree
  · obtain ⟨c, hc, heq⟩ := List.any_eq_true.mp hclass
    exact Or.inr (Rule.eq_of_sameText heq ▸ hc)

theorem mem_helperParts (h : Grammar.TakesHelper rules p) : p ∈ helperParts rules := by
  obtain ⟨⟨d, hd, hp⟩, hhelper⟩ := h
  refine List.mem_filter.mpr ⟨List.mem_flatMap.mpr ⟨d, hd, hp⟩, ?_⟩
  rcases hhelper with hatom | ⟨name, rfl, hfree⟩
  · cases p <;> first | rfl | cases hatom
  · exact isFree_iff.mpr hfree

end

namespace Declarations

open Grammar

variable {base d d' : Declarations} {rules : List RuleDeclaration} {classes : List String}
  {root : String} {room n : Nat} {e : RuleDeclaration} {g : Grammar}

theorem Ready.mono {m : Nat} (h : d.Ready m) (hle : n ≤ m) : d.Ready n :=
  ⟨h.plain, h.defect, Nat.le_trans (Nat.add_le_add_left hle _) h.room⟩

/-- Rules with different names are declared without a defect. -/
theorem declared_of_distinctNames (base : Declarations) (rules : List RuleDeclaration)
    (h : DistinctNames (base.rules.toList ++ rules)) :
    (rules.foldl declare base).rules.toList = base.rules.toList ++ rules ∧
      (rules.foldl declare base).vocabulary = base.vocabulary ∧
      (rules.foldl declare base).defect = base.defect := by
  induction rules generalizing base with
  | nil => exact ⟨(List.append_nil _).symm, rfl, rfl⟩
  | cons e rules ih =>
    have hnew : base.rules.any (·.name == e.name) = false := by
      rw [← Array.any_toList, List.any_eq_false]
      intro e' he' heq
      exact (List.pairwise_append.mp h).2.2 e' he' e List.mem_cons_self (eq_of_beq heq)
    have hdeclare : base.declare e = { base with rules := base.rules.push e } := by
      rw [declare, if_neg (by rw [hnew]; exact Bool.false_ne_true)]
    rw [List.foldl_cons, hdeclare]
    have hpush : (base.rules.push e).toList = base.rules.toList ++ [e] := Array.toList_push
    have := ih { base with rules := base.rules.push e } (by
      simp only [hpush, List.append_assoc, List.singleton_append]
      exact h)
    simp only [hpush, List.append_assoc, List.singleton_append] at this
    exact this

/-- Rules that are apart look the same only where they are alike. -/
theorem looksAlike_of_allApart (hplain : ∀ e ∈ rules, ∀ m ∈ e.rule.mentions, m.Plain)
    (h : Rule.allApart (helperParts rules) = true) (v : Vocabulary) : LooksAlike v rules := by
  intro p q hp hq hlook
  have hpart : ∀ p ∈ helperParts rules, ∀ m ∈ p.mentions, m.Plain := by
    intro p hp m hm
    obtain ⟨e, he, hpe⟩ := List.mem_flatMap.mp (List.mem_of_mem_filter hp)
    exact hplain e he m
      (Rule.mentions_subset_of_mem_subrules (Rule.parts_subset_subrules hpe) hm)
  rw [Rule.eq_of_allApart hpart h (mem_helperParts hp) (mem_helperParts hq) hlook]
  exact Rule.Alike.refl v q

/-- What is known of rules that pass. -/
structure Passing (classes : List String) (room : Nat) (root : String)
    (rules : List RuleDeclaration) : Prop where
  names : DistinctNames rules
  small : ∀ e ∈ rules, Text.StartsSmall e.name
  rooted : ∃ e ∈ rules, e.name = root
  plain : ∀ e ∈ rules, ∀ m ∈ e.rule.mentions, m.Plain
  known : ∀ e ∈ rules, ∀ name, .ref name ∈ e.rule.mentions →
    (∃ d ∈ rules, d.name = name) ∨ name ∈ classes
  alike : ∀ v, LooksAlike v rules
  choices : ∀ p, IsSubrule rules p → p.wordIn (fun _ => true) = true
  productive : ∀ v, (∀ e ∈ rules, ∀ m ∈ e.rule.mentions, m.Known v rules) →
    ∀ e ∈ rules, ∃ w, w ∈ ruleLanguages v rules e.name
  referred : ∀ e ∈ rules, ReferredFrom rules root e
  room : (rules.map (·.rule.mentions.length)).sum ≤ room
  weight : (rules.map RuleDeclaration.weight).sum < maxIndex

theorem passing_of_rulesPass (h : rulesPass classes room root rules n = true) :
    Passing classes room root rules := by
  simp only [rulesPass, Bool.and_eq_true, List.all_eq_true] at h
  obtain ⟨⟨⟨⟨⟨⟨⟨⟨hnames, hroot⟩, hmentions⟩, hlooks⟩, hchoices⟩, hproductive⟩, hreferred⟩, hroom⟩,
    hweight⟩ := h
  have hplain : ∀ e ∈ rules, ∀ m ∈ e.rule.mentions, m.Plain := fun e he m hm =>
    Rule.Mention.plain_of_passes (hmentions e he m hm)
  refine ⟨distinctNames_of_namesApart hnames, fun e he => startsSmall_of_namesApart hnames he, ?_,
    hplain, fun e he name hname => known_of_passes (hmentions e he _ hname),
    looksAlike_of_allApart hplain hlooks, fun p ⟨e, he, hp⟩ => hchoices e he p hp,
    fun v hknown e he => ?_, fun e he => ?_, Nat.le_of_ble_eq_true hroom,
    Nat.le_of_ble_eq_true hweight⟩
  · refine not_not.mp fun hno => ?_
    rw [isFree_iff.mpr hno] at hroot
    cases hroot
  · exact OnlyMarks.sweep (fun marks e he h => h.markProductive hknown (List.mem_reverse.mp he)) n 0
      .zero e.name ⟨e, he, rfl⟩ (List.all_eq_true.mp hproductive e he)
  · exact OnlyMarks.sweep (fun marks e he h => h.markReferred he) n _ (OnlyMarks.zero.mark .refl)
      e.name ⟨e, he, rfl⟩ (List.all_eq_true.mp hreferred e he)

/-- All literals of rules that pass are entered, and then nothing is missing. -/
theorem Passing.exists_complete (h : Passing classes room root rules) (hrules : d.rules.toList = rules)
    (hroot : d.root = some root) (hready : d.Ready room)
    (hclasses : ∀ name ∈ classes, ∃ t, d.vocabulary.namedClass? name = some t) :
    ∃ d' e, d.Complete d' e ∧ d.vocabulary.Extends d'.vocabulary := by
  obtain ⟨d', hentered, hready', hextends⟩ := exists_entered_of_plain (n := 0)
    (hready.mono (by rw [Nat.zero_add]; exact h.room)) h.small h.plain
  obtain ⟨e, he, rfl⟩ := h.rooted
  refine ⟨d', e, ⟨hrules.symm ▸ he, hroot, hrules.symm ▸ hentered, hready'.defect, ?_⟩, hextends⟩
  intro e' he' name hreference
  rw [hrules] at he' ⊢
  obtain ⟨m, hm, hmname⟩ := List.mem_filterMap.mp hreference
  cases m with
  | keyword | symbol => cases hmname
  | ref name' =>
    cases hmname
    refine (h.known e' he' name hm).imp_right fun hclass => ?_
    obtain ⟨t, ht⟩ := hclasses name hclass
    exact ⟨t, hextends.namedClass? ht⟩

/-- Neither check finds anything in rules that pass. -/
theorem Passing.check (h : Passing classes room root rules) (hg : g.Lowered)
    (hrules : g.rules.toList = rules) (hroot : g.table.IsRule e g.root) (hname : e.name = root)
    (hknown : ∀ e ∈ rules, ∀ m ∈ e.rule.mentions, m.Known g.vocabulary rules) :
    checkNonterminals g.nonterminals g.productions.toList = .ok () := by
  subst hrules hname
  have halike := h.alike g.vocabulary
  rw [hg.check_iff hroot, hg.productive_iff halike, hg.reachable_iff halike hroot]
  refine ⟨fun p hp => ?_, h.referred⟩
  have hword := h.choices p hp
  obtain ⟨e, he, hp⟩ := hp
  refine Rule.exists_word (fun name _ hname => ?_) p (fun m hm => ?_) hword
  · refine exists_word_of_known hname ?_
    rintro ⟨d, hd, rfl⟩
    exact h.productive g.vocabulary hknown d hd
  · exact hknown e he m (Rule.mentions_subset_of_mem_subrules hp hm)

/-- Rules that pass are built. -/
theorem Passing.exists_build (h : Passing classes room root rules) (hrules : d.rules.toList = rules)
    (hroot : d.root = some root) (hready : d.Ready room)
    (hclasses : ∀ name ∈ classes, ∃ t, d.vocabulary.namedClass? name = some t) :
    ∃ g, d.build = .ok g ∧ g.rules.toList = rules ∧ d.vocabulary.Extends g.vocabulary ∧
      ∃ e, e.name = root ∧ g.table.IsRule e g.root := by
  obtain ⟨d', e, hcomplete, hextends⟩ := h.exists_complete hrules hroot hready hclasses
  have hnames : DistinctNames d.rules.toList := hrules.symm ▸ h.names
  -- no table can be full, since the rules weigh too little
  obtain ⟨g, hg, hvocabulary, hgrules⟩ :=
    (hcomplete.assemble_or_full hnames).resolve_right fun ⟨_, hfull⟩ =>
      absurd h.weight (by rw [← hrules]; omega)
  obtain ⟨hlowered, e', heroot, hisroot⟩ := lowered_of_assemble hnames hg
  have hgrules : g.rules.toList = rules := by rw [hgrules, hrules]
  have hname : e'.name = root := Option.some.inj (heroot.symm.trans hroot)
  refine ⟨g, ?_, hgrules, hvocabulary ▸ hextends, e', hname, hisroot⟩
  have hknown := hcomplete.known
  rw [hrules, ← hvocabulary] at hknown
  rw [build_of_assemble hg, h.check hlowered hgrules hisroot hname hknown]
  rfl

/-- **Building by evaluation.** Declarations with room for what the rules need build these if they
pass, with their root. What was declared before stays, and parts that look the same are alike. -/
theorem exists_build_of_passes (hready : base.Ready room) (hempty : base.rules = #[])
    (hclasses : ∀ name ∈ classes, ∃ t, base.vocabulary.namedClass? name = some t)
    (hpass : rulesPass classes room root rules n = true) :
    ∃ g, ((rules.foldl declare base).rooted root).build = .ok g ∧ g.rules.toList = rules ∧
      base.vocabulary.Extends g.vocabulary ∧ LooksAlike g.vocabulary rules ∧
      ∃ e, e.name = root ∧ g.table.IsRule e g.root := by
  have h := passing_of_rulesPass hpass
  obtain ⟨hrules, hvocabulary, hdefect⟩ := declared_of_distinctNames base rules
    (by rw [hempty]; exact h.names)
  have hrules : ((rules.foldl declare base).rooted root).rules.toList = rules := by
    rw [rooted, hrules, hempty]
    rfl
  have hready' : ((rules.foldl declare base).rooted root).Ready room :=
    ⟨hvocabulary.symm ▸ hready.plain, hdefect.trans hready.defect, hvocabulary.symm ▸ hready.room⟩
  obtain ⟨g, hg, hgrules, hextends, hroot⟩ :=
    h.exists_build hrules rfl hready' (hvocabulary.symm ▸ hclasses)
  exact ⟨g, hg, hgrules, hvocabulary ▸ hextends, h.alike _, hroot⟩

end Declarations

end FourGL
