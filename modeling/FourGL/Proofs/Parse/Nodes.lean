import FourGL.Proofs.Parse.Shape

/-!
# Nodes of declared rules

The look of a helper is no plain name: that of a sequence has a blank or a parenthesis, that of a
repetition a sign. So a node whose kind is a plain name belongs to the declared rule with that name, and
its slots are those of one of the rule's alternatives.

**Theorem (`Fits.of_mem_allOf`).** Every node in a tree that fits, whose kind is a plain name, is one of
the declared rule with that name.
-/

namespace FourGL

/-! ## Looks of helpers -/

namespace Rule

/-- Whether the part is a keyword or a symbol. -/
def isLiteral : Rule → Bool
  | .keyword _ | .symbol _ => true
  | _ => false

/-- A name as rules have it, with none of the signs in the look of a sequence or repetition. -/
def IsPlainName (s : String) : Prop :=
  s.toList ≠ [] ∧ ∀ c ∈ [' ', '(', '*', '+', 'ε'], c ∉ s.toList

variable {r : Rule} {c : Char} {s : String}

instance : Decidable (IsPlainName s) :=
  decidable_of_iff (s.toList ≠ [] ∧ [' ', '(', '*', '+', 'ε'].all (!s.toList.contains ·)) <| by
    simp [IsPlainName]

theorem not_isPlainName (hc : c ∈ [' ', '(', '*', '+', 'ε']) (h : c ∈ s.toList) :
    ¬ IsPlainName s := fun hplain => hplain.2 c hc h

theorem paren_mem_renderSeparated (s t : String) : '(' ∈ (renderSeparated s t).toList := by
  simp [renderSeparated]

/-- A repetition does not look like a name. -/
theorem not_isPlainName_of_isList (h : r.isList = true) : ¬ IsPlainName r.render := by
  cases r with
  | star item => exact not_isPlainName (c := '*') (by decide) (by simp [render])
  | plus item => exact not_isPlainName (c := '+') (by decide) (by simp [render])
  | starSep item separator => exact not_isPlainName (c := '(') (by decide) (by simp [render])
  | plusSep item separator =>
    refine not_isPlainName (c := '(') (by decide) ?_
    rw [render]
    exact paren_mem_renderSeparated _ _
  | _ => cases h

/-- Neither does a part that has several slots or none. -/
theorem not_isPlainName_of_slots : ∀ r : Rule, r.slots.length ≠ 1 → ¬ IsPlainName r.render
  | .empty, _ => not_isPlainName (c := 'ε') (by decide) (by simp [render])
  | .seq [], _ => fun h => h.1 (by simp [render, renderOperands])
  | .seq [r], h => by
    rw [slots, slotsOfAll, slotsOfAll, List.append_nil] at h
    rw [render, renderOperands, renderOperands, String.intercalate_singleton, operand]
    split
    · exact not_isPlainName (c := '(') (by decide) (by simp)
    · exact not_isPlainName_of_slots r h
  | .seq (r :: q :: rs), _ => by
    rw [render, renderOperands, renderOperands, String.intercalate_cons_cons]
    exact not_isPlainName (c := ' ') (by decide) (by simp)
  | .keyword _, h | .symbol _, h | .ref _, h | .alt _, h | .opt _, h | .star _, h | .plus _, h
  | .starSep _ _, h | .plusSep _ _, h => absurd rfl h

end Rule

/-! ## Nodes in a tree -/

namespace Tree

variable {kind : String} {ts : List Tree} {t : Tree} {P : Tree → Prop}

theorem IsGroupOf.cases (h : IsGroupOf kind ts t) :
    t = .absent ∨ ts = [t] ∨ ts.length ≠ 1 ∧ IsNodeOf kind ts t := by
  match ts, h with
  | [], h => exact Or.inl h
  | [u], h => exact Or.inr (Or.inl (congrArg (fun u => [u]) (Eq.symm h)))
  | _ :: _ :: _, h => exact Or.inr (Or.inr ⟨by simp, h⟩)

theorem IsWrapOf.cases (h : IsWrapOf kind ts t) :
    ts = [t] ∨ ts.length ≠ 1 ∧ IsNodeOf kind ts t := by
  match ts, h with
  | [], h => exact Or.inr ⟨by simp, h⟩
  | [u], h => exact Or.inl (congrArg (fun u => [u]) (Eq.symm h))
  | _ :: _ :: _, h => exact Or.inr ⟨by simp, h⟩

/-- What passes from trees to their children holds of all trees that a walk meets. -/
theorem forall_mem_visit (hchildren : ∀ t, P t → ∀ c ∈ t.children, P c) {ends : Tree → Bool}
    {seen : Array Tree} (hts : ∀ t ∈ ts, P t) (hseen : ∀ t ∈ seen.toList, P t) :
    ∀ t ∈ (visit ends ts seen).toList, P t := by
  fun_induction visit with
  | case1 => exact hseen
  | case2 seen t rest ih =>
    obtain ⟨ht, hrest⟩ := List.forall_mem_cons.mp hts
    refine ih ?_ ?_
    · split
      · exact hrest
      · exact List.forall_mem_append.mpr ⟨hchildren t ht, hrest⟩
    · rw [Array.toList_push]
      exact List.forall_mem_append.mpr ⟨hseen, List.forall_mem_singleton.mpr ht⟩

theorem forall_mem_allOf (hchildren : ∀ t, P t → ∀ c ∈ t.children, P c) (hts : ∀ t ∈ ts, P t) :
    ∀ t ∈ allOf ts, P t :=
  forall_mem_visit hchildren hts (List.forall_mem_nil _)

end Tree

namespace Grammar

variable {g : Grammar} {rules : List RuleDeclaration} {tokens : Array Token} {p q r item : Rule}
  {t u root : Tree} {ts : List Tree} {d : RuleDeclaration} {i : Nat} {kind name text : String}
  {join : List Tree → Tree → Prop}

theorem exists_mem_zip {l : List Rule} (hlength : l.length = ts.length) (hu : u ∈ ts) :
    ∃ q, (q, u) ∈ l.zip ts := by
  obtain ⟨i, hi, rfl⟩ := List.getElem_of_mem hu
  refine ⟨l[i], ?_⟩
  rw [← List.getElem_zip (i := i) (h := by simp [hlength, hi])]
  exact List.getElem_mem _

/-- Nodes of the kind are those of a declared rule with that name, or the kind is no plain name. -/
def Names (rules : List RuleDeclaration) (p : Rule) (kind : String) : Prop :=
  (∃ d ∈ rules, p = .ref d.name ∧ kind = d.name) ∨ ¬ Rule.IsPlainName kind

theorem Lists.names (h : Lists rules p r kind) : Names rules p kind := by
  cases h with
  | part hlist => exact Or.inr (Rule.not_isPlainName_of_isList hlist)
  | @rule d hd _ => exact Or.inl ⟨d, hd, rfl, rfl⟩

/-- What trees become: nothing, the only one of them, or a node. -/
theorem Offers.join_cases (h : Offers rules p r join) (hlength : r.slots.length = ts.length)
    (hjoin : join ts t) :
    t = .absent ∨ ts = [t] ∨ ∃ kind, Tree.IsNodeOf kind ts t ∧ Names rules p kind := by
  have hlooks : ∀ {q : Rule}, q.slots = r.slots → ts.length ≠ 1 → Names rules p q.render :=
    fun {q} heq hne => Or.inr (Rule.not_isPlainName_of_slots q (by rwa [heq, hlength]))
  cases h with
  | @rule d _ hd => exact Or.inr (Or.inr ⟨_, hjoin, Or.inl ⟨d, hd, rfl, rfl⟩⟩)
  | @transient d _ hd =>
    refine hjoin.cases.imp_right fun h => h.imp_right fun ⟨_, hnode⟩ => ⟨_, hnode, ?_⟩
    exact Or.inl ⟨d, hd, rfl, rfl⟩
  | choice => exact hjoin.cases.imp_right fun h => h.imp_right fun ⟨hne, hnode⟩ =>
      ⟨_, hnode, hlooks rfl hne⟩
  | sequence | present => exact Or.inr (hjoin.cases.imp_right fun ⟨hne, hnode⟩ =>
      ⟨_, hnode, hlooks rfl hne⟩)
  | absent =>
    obtain rfl := List.eq_nil_of_length_eq_zero hlength.symm
    exact Or.inl hjoin

/-- The children of a tree that fits a part fit parts. -/
theorem Fits.of_mem_children (h : g.Fits tokens p t) : ∀ c ∈ t.children, ∃ q, g.Fits tokens q c := by
  induction h with
  | token => exact List.forall_mem_nil _
  | @slots p r join ts t hoffers hlength hall hjoin ih =>
    rcases hoffers.join_cases hlength hjoin with rfl | rfl | ⟨kind, ⟨span, rfl⟩, -⟩
    · exact List.forall_mem_nil _
    · obtain ⟨q, hq⟩ := exists_mem_zip hlength (List.mem_singleton_self t)
      exact ih q t hq
    · intro c hc
      obtain ⟨q, hq⟩ := exists_mem_zip hlength hc
      exact ⟨q, hall q c hq⟩
  | star _ hall | plus _ _ hall => exact fun c hc => ⟨_, hall c hc⟩
  | plusSep _ hfirst hseparators hitems =>
    refine List.forall_mem_cons.mpr ⟨⟨_, hfirst⟩, fun c hc => ?_⟩
    obtain ⟨pair, hpair, hc⟩ := List.mem_flatMap.mp hc
    rcases List.mem_pair.mp ((TreeAction.additions_sublist _ _).mem hc) with rfl | rfl
    · exact ⟨_, hseparators pair hpair⟩
    · exact ⟨_, hitems pair hpair⟩
  | noItems => exact List.forall_mem_nil _
  | items _ _ ih => exact ih

/-- A node whose kind is a plain name is one of the declared rule with that name. -/
theorem Fits.of_isPlainName (h : g.Fits tokens p t) (hnode : t.isNode = true)
    (hplain : Rule.IsPlainName t.kind) :
    g.Fits tokens (.ref t.kind) t ∧ ∃ d ∈ g.rules.toList, d.name = t.kind := by
  have hdeclared : ∀ {p t}, g.Fits tokens p t → Names g.rules.toList p t.kind →
      Rule.IsPlainName t.kind →
        g.Fits tokens (.ref t.kind) t ∧ ∃ d ∈ g.rules.toList, d.name = t.kind := by
    rintro p t h (⟨d, hd, rfl, hkind⟩ | hnot) hplain
    · exact ⟨hkind ▸ h, d, hd, hkind.symm⟩
    · exact absurd hplain hnot
  induction h with
  | token => cases hnode
  | @slots p r join ts t hoffers hlength hall hjoin ih =>
    rcases hoffers.join_cases hlength hjoin with rfl | rfl | ⟨kind, ⟨span, rfl⟩, hnames⟩
    · cases hnode
    · obtain ⟨q, hq⟩ := exists_mem_zip hlength (List.mem_singleton_self t)
      exact ih q t hq hnode hplain
    · exact hdeclared (.slots hoffers hlength hall hjoin) hnames hplain
  | star hlists hall => exact hdeclared (.star hlists hall) hlists.names hplain
  | plus hlists hne hall => exact hdeclared (.plus hlists hne hall) hlists.names hplain
  | plusSep hlists hfirst hseparators hitems =>
    exact hdeclared (.plusSep hlists hfirst hseparators hitems) hlists.names hplain
  | noItems hlists => exact hdeclared (.noItems hlists) hlists.names hplain
  | items _ _ ih => exact ih hnode hplain

/-- **Nodes in a tree.** Every node in a tree that fits, whose kind is a plain name, is one of the
declared rule with that name. -/
theorem Fits.of_mem_allOf (h : g.Fits tokens p root) (ht : t ∈ Tree.allOf [root])
    (hnode : t.isNode = true) (hplain : Rule.IsPlainName t.kind) :
    g.Fits tokens (.ref t.kind) t ∧ ∃ d ∈ g.rules.toList, d.name = t.kind := by
  obtain ⟨q, hq⟩ := Tree.forall_mem_allOf (P := fun t => ∃ q, g.Fits tokens q t)
    (fun t ⟨q, hq⟩ => hq.of_mem_children) (List.forall_mem_singleton.mpr ⟨p, h⟩) t ht
  exact hq.of_isPlainName hnode hplain

/-! ## What fits a name, a literal or an option -/

/-- A part that is neither a repetition nor a terminal is fitted through what it offers. -/
theorem Fits.exists_offers (h : g.Fits tokens p t)
    (hlists : ∀ r kind, ¬ Lists g.rules.toList p r kind)
    (hterminal : ∀ x, ¬ g.table.Stands p (.terminal x)) : ∃ r join ts,
      Offers g.rules.toList p r join ∧ List.Forall₂ (g.Fits tokens) r.slots ts ∧ join ts t := by
  cases h with
  | token hs => exact absurd hs (hterminal _)
  | slots hoffers hlength hall hjoin =>
    have hslots := List.forall₂_iff_zip.mpr ⟨hlength, fun {q u} hmem => hall q u hmem⟩
    exact ⟨_, _, _, hoffers, hslots, hjoin⟩
  | star h | plus h | plusSep h | noItems h | items h => exact absurd h (hlists _ _)

theorem not_lists_of_declared (hl : g.Lowered) (hd : d ∈ g.rules.toList)
    (hlist : d.rule.isList = false) (r : Rule) (kind : String) :
    ¬ Lists g.rules.toList (.ref d.name) r kind := by
  intro h
  generalize hp : Rule.ref d.name = p at h
  cases h with
  | part h =>
    rw [← hp] at h
    cases h
  | rule he h =>
    rw [← hl.eq_of_name_eq hd he (Rule.ref.inj hp), hlist] at h
    cases h

/-- What fits a rule that is no repetition: a node, or what a group becomes. -/
theorem Fits.rule (hl : g.Lowered) (hd : d ∈ g.rules.toList) (hlist : d.rule.isList = false)
    (h : g.Fits tokens (.ref d.name) t) :
    ∃ r ∈ SymbolTable.alternativesOf d.rule, ∃ ts, List.Forall₂ (g.Fits tokens) r.slots ts ∧
      (d.transient = false ∧ Tree.IsNodeOf d.name ts t ∨
        d.transient = true ∧ Tree.IsGroupOf d.name ts t) := by
  obtain ⟨r, join, ts, hoffers, hslots, hjoin⟩ :=
    h.exists_offers (not_lists_of_declared hl hd hlist) (not_stands_of_declared hd)
  generalize hp : Rule.ref d.name = p at hoffers
  cases hoffers with
  | rule he _ hr htransient =>
    obtain rfl := hl.eq_of_name_eq hd he (Rule.ref.inj hp)
    exact ⟨r, hr, ts, hslots, Or.inl ⟨htransient, hjoin⟩⟩
  | transient he _ hr htransient =>
    obtain rfl := hl.eq_of_name_eq hd he (Rule.ref.inj hp)
    exact ⟨r, hr, ts, hslots, Or.inr ⟨htransient, hjoin⟩⟩
  | sequence hspliced =>
    rw [← hp] at hspliced
    cases hspliced
  | choice | present | absent => cases hp

/-- What fits a rule that is a repetition. -/
theorem Fits.listRule (hl : g.Lowered) (hd : d ∈ g.rules.toList) (hlist : d.rule.isList = true)
    (h : g.Fits tokens (.ref d.name) t) : g.FitsItems tokens d.rule d.name t :=
  ((Lists.rule hd hlist).fits_iff hl).mp h

/-- What fits an option. -/
theorem Fits.opt (h : g.Fits tokens (.opt item) t) : t = .absent ∨
    ∃ ts, List.Forall₂ (g.Fits tokens) item.slots ts ∧ Tree.IsWrapOf item.render ts t := by
  obtain ⟨r, join, ts, hoffers, hslots, hjoin⟩ := h.exists_offers
    (fun r kind h => by cases h with | part h => cases h)
    (fun x h => by cases h)
  cases hoffers with
  | sequence h => cases h
  | present => exact Or.inr ⟨ts, hslots, hjoin⟩
  | absent =>
    cases hslots
    exact Or.inl hjoin

/-- What fits an optional part of one slot: nothing, or what fits the part. -/
theorem Fits.opt_single (h : g.Fits tokens (.opt item) t) (hitem : item.slots = [item]) :
    t = .absent ∨ g.Fits tokens item t := by
  refine h.opt.imp_right ?_
  rintro ⟨ts, hslots, hwrap⟩
  rw [hitem] at hslots
  cases hslots with
  | cons hfits hnil =>
    cases hnil
    exact hwrap ▸ hfits

/-- What fits a class of tokens. -/
theorem Fits.tokenClass (hno : ¬ ∃ d ∈ g.rules.toList, d.name = name)
    (h : g.Fits tokens (.ref name) t) : ∃ i token, t = .token i ∧ tokens[i]? = some token ∧
      g.vocabulary.namedClass? name = some token.terminal := by
  have hlists : ∀ {r kind}, ¬ Lists g.rules.toList (.ref name) r kind := by
    intro r kind h
    cases h with
    | part h => cases h
    | rule hd => exact hno ⟨_, hd, rfl⟩
  cases h with
  | token hs htoken hterminal =>
    cases hs with
    | tokenClass _ hclass => exact ⟨_, _, rfl, htoken, hterminal ▸ hclass⟩
  | slots hoffers =>
    cases hoffers with
    | rule hd | transient hd => exact absurd ⟨_, hd, rfl⟩ hno
    | sequence h => cases h
  | star h | plus h | plusSep h | noItems h | items h => exact absurd h hlists

/-- What fits a keyword or a symbol. -/
theorem Fits.literal (hp : p.isLiteral = true) (h : g.Fits tokens p t) : ∃ i, t = .token i := by
  have hlists : ∀ {r kind}, ¬ Lists g.rules.toList p r kind := by
    intro r kind h
    cases h with
    | part hlist =>
      cases p with
      | keyword | symbol => cases hlist
      | _ => cases hp
    | rule => cases hp
  cases h with
  | token => exact ⟨_, rfl⟩
  | slots hoffers =>
    cases hoffers with
    | sequence hspliced =>
      cases p with
      | keyword | symbol => cases hspliced
      | _ => cases hp
    | rule | transient | choice | present | absent => cases hp
  | star h | plus h | plusSep h | noItems h | items h => exact absurd h hlists

/-- What stands in a slot is related to what the slot is for. -/
theorem exists_getElem?_of_forall₂ {α β : Type} {R : α → β → Prop} {as : List α} {bs : List β} {a : α}
    (h : List.Forall₂ R as bs) (hi : as[i]? = some a) : ∃ b, bs[i]? = some b ∧ R a b := by
  obtain ⟨hlt, rfl⟩ := List.getElem?_eq_some_iff.mp hi
  have hlt' : i < bs.length := h.length_eq ▸ hlt
  exact ⟨bs[i], List.getElem?_eq_getElem hlt', h.get hlt hlt'⟩

end Grammar

end FourGL
