import FourGL.Proofs.Parse.Nodes

/-!
# What can stand below a node

A tree that fits a part holds nodes of the rules that the part mentions, of those that these mention,
and so on. So a rule that only a few rules mention has its nodes below theirs and nowhere else.

**Theorem (`Fits.kind_not_mem`).** If a part avoids some names, and all rules of other names avoid them
as well, no tree that fits the part has a node with one of these names.
-/

namespace FourGL

/-! ## Names that a part avoids -/

namespace Rule

variable {q r : Rule} {names : List String}

/-- None of the names is mentioned. -/
def Avoids (r : Rule) (names : List String) : Prop := ∀ name ∈ names, .ref name ∉ r.mentions

instance : Decidable (r.Avoids names) := inferInstanceAs (Decidable (∀ name ∈ names, _))

theorem Avoids.of_subset (h : r.Avoids names) (hsub : q.mentions ⊆ r.mentions) : q.Avoids names :=
  fun name hname hq => h name hname (hsub hq)

theorem Avoids.not_mem {name : String} (h : Rule.Avoids (.ref name) names) : name ∉ names :=
  fun hname => h name hname (List.mem_singleton_self _)

theorem mentions_subset_mentionsOfAll {rs : List Rule} (h : r ∈ rs) :
    r.mentions ⊆ mentionsOfAll rs := by
  induction rs with
  | nil => cases h
  | cons q rs ih =>
    rw [mentionsOfAll]
    rcases List.mem_cons.mp h with rfl | h
    · exact List.subset_append_left _ _
    · exact List.subset_append_of_subset_right _ (ih h)

mutual

theorem mentions_subset_of_mem_slots : ∀ r : Rule, ∀ q ∈ r.slots, q.mentions ⊆ r.mentions
  | .empty, _, h => by cases h
  | .seq items, q, h => mentions_subset_of_mem_slotsOfAll items q h
  | .keyword _, _, h | .symbol _, _, h | .ref _, _, h | .alt _, _, h | .opt _, _, h | .star _, _, h
  | .plus _, _, h | .starSep _ _, _, h | .plusSep _ _, _, h => by
    rw [List.mem_singleton.mp h]
    exact List.Subset.refl _

theorem mentions_subset_of_mem_slotsOfAll :
    ∀ rs : List Rule, ∀ q ∈ slotsOfAll rs, q.mentions ⊆ mentionsOfAll rs
  | [], _, h => by cases h
  | r :: rs, q, h => by
    rcases List.mem_append.mp h with h | h
    · exact List.subset_append_of_subset_left _ (mentions_subset_of_mem_slots r q h)
    · exact List.subset_append_of_subset_right _ (mentions_subset_of_mem_slotsOfAll rs q h)

end

theorem mentions_subset_of_mem_alternativesOf (h : r ∈ SymbolTable.alternativesOf q) :
    r.mentions ⊆ q.mentions := by
  cases q with
  | alt items => exact mentions_subset_mentionsOfAll h
  | _ =>
    rw [List.mem_singleton.mp h]
    exact List.Subset.refl _

end Rule

namespace Grammar

variable {g : Grammar} {rules : List RuleDeclaration} {tokens : Array Token} {p r : Rule}
  {t : Tree} {names : List String} {d : RuleDeclaration} {join : List Tree → Tree → Prop}
  {kind : String} {ts : List Tree}

/-- All rules of other names avoid these. -/
def AvoidedElsewhere (rules : List RuleDeclaration) (names : List String) : Prop :=
  ∀ d ∈ rules, d.name ∉ names → d.rule.Avoids names

/-- What a part offers avoids the names if the part does. -/
theorem Offers.avoids (h : Offers rules p r join) (helsewhere : AvoidedElsewhere rules names)
    (hp : p.Avoids names) : r.Avoids names := by
  cases h with
  | rule hd _ hr | transient hd _ hr =>
    exact (helsewhere _ hd hp.not_mem).of_subset (Rule.mentions_subset_of_mem_alternativesOf hr)
  | sequence | present => exact hp
  | choice hr => exact hp.of_subset (Rule.mentions_subset_mentionsOfAll hr)
  | absent => exact fun _ _ h => by cases h

theorem Lists.avoids (h : Lists rules p r kind) (helsewhere : AvoidedElsewhere rules names)
    (hp : p.Avoids names) : r.Avoids names := by
  cases h with
  | part => exact hp
  | rule hd => exact helsewhere _ hd hp.not_mem

theorem Names.kind_not_mem (h : Names rules p kind) (hp : p.Avoids names)
    (hplain : ∀ name ∈ names, Rule.IsPlainName name) : kind ∉ names := by
  rcases h with ⟨d, -, rfl, rfl⟩ | hnot
  · exact hp.not_mem
  · exact fun hmem => hnot (hplain kind hmem)

/-- The children of a tree that fits a part fit parts that avoid the same names. -/
theorem Fits.of_mem_children_avoids (helsewhere : AvoidedElsewhere g.rules.toList names)
    (h : g.Fits tokens p t) (hp : p.Avoids names) :
    ∀ c ∈ t.children, ∃ q, q.Avoids names ∧ g.Fits tokens q c := by
  induction h with
  | token => exact List.forall_mem_nil _
  | @slots p r join ts t hoffers hlength hall hjoin ih =>
    have hslot : ∀ q c, (q, c) ∈ r.slots.zip ts → q.Avoids names := fun q c hqc =>
      (hoffers.avoids helsewhere hp).of_subset
        (Rule.mentions_subset_of_mem_slots r q (List.of_mem_zip hqc).1)
    rcases hoffers.join_cases hlength hjoin with rfl | rfl | ⟨kind, ⟨span, rfl⟩, -⟩
    · exact List.forall_mem_nil _
    · obtain ⟨q, hq⟩ := exists_mem_zip hlength (List.mem_singleton_self t)
      exact ih q t hq (hslot q t hq)
    · intro c hc
      obtain ⟨q, hq⟩ := exists_mem_zip hlength hc
      exact ⟨q, hslot q c hq, hall q c hq⟩
  | @star p item kind span ts hlists hall =>
    exact fun c hc => ⟨item, hlists.avoids helsewhere hp, hall c hc⟩
  | @plus p item kind span ts hlists _ hall =>
    exact fun c hc => ⟨item, hlists.avoids helsewhere hp, hall c hc⟩
  | plusSep hlists hfirst hseparators hitems =>
    have hboth := hlists.avoids helsewhere hp
    have hitem := hboth.of_subset (List.subset_append_left _ _)
    have hseparator := hboth.of_subset (List.subset_append_right _ _)
    refine List.forall_mem_cons.mpr ⟨⟨_, hitem, hfirst⟩, fun c hc => ?_⟩
    obtain ⟨pair, hpair, hc⟩ := List.mem_flatMap.mp hc
    rcases List.mem_pair.mp ((TreeAction.additions_sublist _ _).mem hc) with rfl | rfl
    · exact ⟨_, hseparator, hseparators pair hpair⟩
    · exact ⟨_, hitem, hitems pair hpair⟩
  | noItems => exact List.forall_mem_nil _
  | items hlists _ ih => exact ih (hlists.avoids helsewhere hp)

/-- Nor is the tree itself a node with one of the names. -/
theorem Fits.own_kind_not_mem (helsewhere : AvoidedElsewhere g.rules.toList names)
    (hplain : ∀ name ∈ names, Rule.IsPlainName name) (h : g.Fits tokens p t) (hp : p.Avoids names)
    (hnode : t.isNode = true) : t.kind ∉ names := by
  induction h with
  | token => cases hnode
  | @slots p r join ts t hoffers hlength hall hjoin ih =>
    rcases hoffers.join_cases hlength hjoin with rfl | rfl | ⟨kind, ⟨span, rfl⟩, hnames⟩
    · cases hnode
    · obtain ⟨q, hq⟩ := exists_mem_zip hlength (List.mem_singleton_self t)
      refine ih q t hq ((hoffers.avoids helsewhere hp).of_subset ?_) hnode
      exact Rule.mentions_subset_of_mem_slots r q (List.of_mem_zip hq).1
    · exact hnames.kind_not_mem hp hplain
  | star hlists | plus hlists | plusSep hlists | noItems hlists =>
    exact hlists.names.kind_not_mem hp hplain
  | items hlists _ ih => exact ih (hlists.avoids helsewhere hp) hnode

/-- What fits parts that avoid the names has no node with one of the names. -/
theorem kind_not_mem_of_forall (helsewhere : AvoidedElsewhere g.rules.toList names)
    (hplain : ∀ name ∈ names, Rule.IsPlainName name)
    (h : ∀ t ∈ ts, ∃ q, q.Avoids names ∧ g.Fits tokens q t) :
    ∀ u ∈ Tree.allOf ts, u.isNode = true → u.kind ∉ names := by
  intro u hu hnode
  obtain ⟨q, hq, hfits⟩ := Tree.forall_mem_allOf
    (P := fun u => ∃ q, q.Avoids names ∧ g.Fits tokens q u)
    (fun u ⟨q, hq, hfits⟩ => hfits.of_mem_children_avoids helsewhere hq) h u hu
  exact hfits.own_kind_not_mem helsewhere hplain hq hnode

/-- **Names that are avoided.** No node in a tree that fits the part has one of the names. -/
theorem Fits.kind_not_mem (helsewhere : AvoidedElsewhere g.rules.toList names)
    (hplain : ∀ name ∈ names, Rule.IsPlainName name) (h : g.Fits tokens p t) (hp : p.Avoids names) :
    ∀ u ∈ Tree.allOf [t], u.isNode = true → u.kind ∉ names :=
  kind_not_mem_of_forall helsewhere hplain (List.forall_mem_singleton.mpr ⟨p, hp, h⟩)

/-- A node of a rule may have one of the names, but if the rule avoids them, no node below has. -/
theorem Fits.kind_not_mem_below (hl : g.Lowered)
    (helsewhere : AvoidedElsewhere g.rules.toList names)
    (hplain : ∀ name ∈ names, Rule.IsPlainName name) (hd : d ∈ g.rules.toList)
    (htransient : d.transient = false) (hlist : d.rule.isList = false) (havoids : d.rule.Avoids names)
    (h : g.Fits tokens (.ref d.name) t) :
    ∀ u ∈ Tree.allOf t.children, u.isNode = true → u.kind ∉ names := by
  have hchildren : ∀ c ∈ t.children, ∃ q, q.Avoids names ∧ g.Fits tokens q c := fun c hc => by
    obtain ⟨r, hr, ts, hts, ⟨-, span, rfl⟩ | ⟨htransient', -⟩⟩ := h.rule hl hd hlist
    · obtain ⟨q, hqc⟩ := exists_mem_zip hts.length_eq hc
      have hslot := Rule.mentions_subset_of_mem_slots r q (List.of_mem_zip hqc).1
      have hmentions := List.Subset.trans hslot (Rule.mentions_subset_of_mem_alternativesOf hr)
      exact ⟨q, havoids.of_subset hmentions, (List.forall₂_iff_zip.mp hts).2 hqc⟩
    · rw [htransient] at htransient'
      cases htransient'
  exact kind_not_mem_of_forall helsewhere hplain hchildren

end Grammar

end FourGL
