import FourGL.Proofs.Grammar.Vocabulary
import Mathlib.Order.Nat
import Mathlib.Tactic.Set

/-!
# What lowering keeps

Rules become productions step by step, and helpers are entered on the way. At every moment each
symbol of a right-hand side is a usable terminal or a nonterminal entered before, and never the start
symbol, which only the first production has on its left.

**Theorem (`all_sound`).** Lowering all rules leaves a sound state in which the first production
derives the root from the start symbol.
-/

namespace FourGL

/-! ## Sound states -/

/-- The symbol can stand in a right-hand side. -/
def Symbol.Usable (v : Vocabulary) (nonterminals : Nat) : Symbol → Prop
  | .terminal t => v.Usable t
  | .nonterminal n => n ≠ Grammar.start ∧ n < nonterminals

namespace Lowering

variable {s s' s'' : Lowering}

/-- The symbol can stand in a right-hand side. -/
def Usable (s : Lowering) (x : Symbol) : Prop := x.Usable s.vocabulary s.nonterminals.size

/-- Everything entered so far is in its table. -/
structure Sound (s : Lowering) : Prop where
  vocabulary : s.vocabulary.Sound
  nonterminals : 0 < s.nonterminals.size
  names : ∀ (name : String) (n : NonterminalId), s.names[name]? = some n →
    s.Usable (.nonterminal n)
  helpers : ∀ (name : String) (n : NonterminalId), s.helpers[name]? = some n →
    s.Usable (.nonterminal n)
  productions : ∀ p ∈ s.productions, p.left < s.nonterminals.size ∧ ∀ x ∈ p.right, s.Usable x

/-- A later state, in which all that was entered before is still there. -/
structure Extends (s s' : Lowering) : Prop where
  vocabulary : s'.vocabulary = s.vocabulary
  nonterminals : s.nonterminals.size ≤ s'.nonterminals.size
  names : ∀ name : String, name ∈ s.names → name ∈ s'.names
  productions : s.productions.toList <+: s'.productions.toList

theorem Extends.refl (s : Lowering) : s.Extends s :=
  ⟨rfl, le_rfl, fun _ h => h, List.prefix_rfl⟩

theorem Extends.trans (h : s.Extends s') (h' : s'.Extends s'') : s.Extends s'' :=
  ⟨h'.vocabulary.trans h.vocabulary, h.nonterminals.trans h'.nonterminals,
    fun name hn => h'.names name (h.names name hn), h.productions.trans h'.productions⟩

theorem Extends.usable (h : s.Extends s') {x : Symbol} (hx : s.Usable x) : s'.Usable x := by
  cases x with
  | terminal t =>
    show s'.vocabulary.Usable t
    rw [h.vocabulary]
    exact hx
  | nonterminal n => exact ⟨hx.1, hx.2.trans_le h.nonterminals⟩

theorem Sound.push (h : s.Sound) (production : Production)
    (hl : production.left < s.nonterminals.size) (hr : ∀ x ∈ production.right, s.Usable x) :
    Sound { s with productions := s.productions.push production } := by
  refine ⟨h.vocabulary, h.nonterminals, h.names, h.helpers, fun p hp => ?_⟩
  rcases Array.mem_push.mp hp with hp | rfl
  · exact h.productions p hp
  · exact ⟨hl, hr⟩

/-- A new nonterminal leaves room for what was there. -/
theorem Sound.pushNonterminal (h : s.Sound) (n : Nonterminal) :
    Sound { s with nonterminals := s.nonterminals.push n } := by
  have he : s.Extends { s with nonterminals := s.nonterminals.push n } :=
    ⟨rfl, by simp, fun _ hn => hn, List.prefix_rfl⟩
  refine ⟨h.vocabulary, h.nonterminals.trans_le he.nonterminals,
    fun name m hm => he.usable (h.names name m hm),
    fun name m hm => he.usable (h.helpers name m hm), fun p hp => ?_⟩
  obtain ⟨hl, hr⟩ := h.productions p hp
  exact ⟨hl.trans_le he.nonterminals, fun x hx => he.usable (hr x hx)⟩

end Lowering

/-! ## Steps -/

namespace Lower

open Lowering (Sound Extends)

variable {α β : Type} {s s' : Lowering}

/-- The step leads from sound states to sound later ones, with an outcome as described. -/
def Keeps (m : Lower α) (post : Lowering → α → Prop) : Prop :=
  ∀ s a s', s.Sound → m s = .ok (a, s') → s'.Sound ∧ s.Extends s' ∧ post s' a

/-- The step leads from sound states to sound later ones. -/
def KeepsSound (m : Lower α) : Prop := m.Keeps fun _ _ => True

/-- Filling a helper's nonterminal leads from sound states to sound later ones. -/
def FillsSound (fill : NonterminalId → Lower Unit) : Prop :=
  ∀ left s s', s.Sound → s.Usable (.nonterminal left) → fill left s = .ok ((), s') →
    s'.Sound ∧ s.Extends s'

theorem bind_ok {m : Lower α} {f : α → Lower β} {b : β} :
    (m >>= f) s = .ok (b, s') ↔ ∃ a s₁, m s = .ok (a, s₁) ∧ f a s₁ = .ok (b, s') := by
  show (m s >>= fun p => f p.1 p.2) = _ ↔ _
  cases m s with
  | error e =>
    constructor
    · intro h
      cases h
    · rintro ⟨_, _, hp, _⟩
      cases hp
  | ok p =>
    constructor
    · intro h
      exact ⟨p.1, p.2, rfl, h⟩
    · rintro ⟨_, _, hp, h⟩
      cases hp
      exact h

theorem pure_ok {a b : α} : (pure a : Lower α) s = .ok (b, s') ↔ a = b ∧ s = s' := by
  show Except.ok (a, s) = .ok (b, s') ↔ _
  rw [Except.ok.injEq, Prod.mk.injEq]

theorem get_ok {a : Lowering} : (get : Lower Lowering) s = .ok (a, s') ↔ s = a ∧ s = s' := by
  show Except.ok (s, s) = .ok (a, s') ↔ _
  rw [Except.ok.injEq, Prod.mk.injEq]

theorem set_ok {t : Lowering} {u : PUnit} : (set t : Lower PUnit) s = .ok (u, s') ↔ t = s' := by
  show Except.ok (PUnit.unit, t) = .ok (u, s') ↔ _
  rw [Except.ok.injEq, Prod.mk.injEq, eq_self_iff_true, true_and]

theorem modify_ok {f : Lowering → Lowering} {u : PUnit} :
    (modify f : Lower PUnit) s = .ok (u, s') ↔ f s = s' := by
  show Except.ok (PUnit.unit, f s) = .ok (u, s') ↔ _
  rw [Except.ok.injEq, Prod.mk.injEq, eq_self_iff_true, true_and]

theorem throw_ok {e : GrammarError} {a : α} : (throw e : Lower α) s ≠ .ok (a, s') := by
  show Except.error e ≠ Except.ok (a, s')
  exact nofun

theorem undefinedSymbol_ok {name : String} {a : α} :
    (undefinedSymbol name : Lower α) s ≠ .ok (a, s') := by
  intro h
  obtain ⟨_, _, -, h⟩ := bind_ok.mp h
  exact throw_ok h

theorem Keeps.bind {m : Lower α} {f : α → Lower β} {mid : Lowering → α → Prop}
    {post : Lowering → β → Prop} (hm : m.Keeps mid)
    (hf : ∀ a s b s', s.Sound → mid s a → f a s = .ok (b, s') →
      s'.Sound ∧ s.Extends s' ∧ post s' b) : (m >>= f).Keeps post := by
  intro s b s' hs h
  obtain ⟨a, s₁, hma, hfa⟩ := bind_ok.mp h
  obtain ⟨hs₁, he₁, hmid⟩ := hm s a s₁ hs hma
  obtain ⟨hs', he', hpost⟩ := hf a s₁ b s' hs₁ hmid hfa
  exact ⟨hs', he₁.trans he', hpost⟩

theorem KeepsSound.forM {xs : List α} {f : α → Lower PUnit} (hf : ∀ x ∈ xs, (f x).KeepsSound) :
    (xs.forM f).KeepsSound := by
  induction xs with
  | nil =>
    intro s a s' hs h
    obtain ⟨-, rfl⟩ := pure_ok.mp h
    exact ⟨hs, .refl s, trivial⟩
  | cons x xs ih =>
    refine (hf x List.mem_cons_self).bind fun _ s b s' hs _ h => ?_
    exact ih (fun y hy => hf y (List.mem_cons_of_mem x hy)) s b s' hs h

/-! ## Entries -/

theorem addNonterminal_ok {n : Nonterminal} {id : NonterminalId}
    (h : addNonterminal n s = .ok (id, s')) :
    id = s.nonterminals.size ∧ s' = { s with nonterminals := s.nonterminals.push n } := by
  obtain ⟨t, _, ht, h⟩ := bind_ok.mp h
  obtain ⟨rfl, rfl⟩ := get_ok.mp ht
  split at h
  · obtain ⟨_, _, hset, h⟩ := bind_ok.mp h
    obtain rfl := set_ok.mp hset
    obtain ⟨rfl, rfl⟩ := pure_ok.mp h
    exact ⟨rfl, rfl⟩
  · exact absurd h throw_ok

theorem placeKind_ok {kind : String} {place : Nat} (h : placeKind kind s = .ok (place, s')) :
    ∃ kinds places, s' = { s with nodeKinds := kinds, kindPlaces := places } := by
  obtain ⟨t, _, ht, h⟩ := bind_ok.mp h
  obtain ⟨rfl, rfl⟩ := get_ok.mp ht
  cases hk : s.kindPlaces[kind]? with
  | some place =>
    rw [hk] at h
    obtain ⟨-, rfl⟩ := pure_ok.mp h
    exact ⟨_, _, rfl⟩
  | none =>
    rw [hk] at h
    obtain ⟨_, _, hset, h⟩ := bind_ok.mp h
    obtain rfl := set_ok.mp hset
    obtain ⟨-, rfl⟩ := pure_ok.mp h
    exact ⟨_, _, rfl⟩

/-- Node kinds play no part in soundness. -/
theorem sound_kinds (hs : s.Sound) (kinds : Array String) (places : Std.TreeMap String Nat) :
    Sound { s with nodeKinds := kinds, kindPlaces := places } ∧
      s.Extends { s with nodeKinds := kinds, kindPlaces := places } :=
  ⟨⟨hs.vocabulary, hs.nonterminals, hs.names, hs.helpers, hs.productions⟩,
    ⟨rfl, le_rfl, fun _ h => h, List.prefix_rfl⟩⟩

theorem keeps_nodeKind (kind : String) : (nodeKind kind).KeepsSound := by
  intro s a s' hs h
  obtain ⟨place, s₁, hplace, h⟩ := bind_ok.mp h
  obtain ⟨kinds, places, rfl⟩ := placeKind_ok hplace
  split at h
  · obtain ⟨-, rfl⟩ := pure_ok.mp h
    obtain ⟨hs', he⟩ := sound_kinds hs kinds places
    exact ⟨hs', he, trivial⟩
  · exact absurd h throw_ok

theorem produce_sound {left : NonterminalId} {right : List Symbol} {action : TreeAction}
    {u : Unit} (hs : s.Sound) (hl : left < s.nonterminals.size) (hr : ∀ x ∈ right, s.Usable x)
    (h : produce left right action s = .ok (u, s')) : s'.Sound ∧ s.Extends s' := by
  obtain rfl := modify_ok.mp h
  exact ⟨hs.push ⟨left, right, action⟩ hl hr, rfl, le_rfl, fun _ hn => hn, by simp⟩

/-! ## Helpers -/

theorem keeps_helper {key : String} {fill : NonterminalId → Lower Unit} (hfill : FillsSound fill) :
    (helper key fill).Keeps Lowering.Usable := by
  intro s a s' hs h
  obtain ⟨t, _, ht, h⟩ := bind_ok.mp h
  obtain ⟨rfl, rfl⟩ := get_ok.mp ht
  cases hid : s.helpers[key]? with
  | some id =>
    rw [hid] at h
    obtain ⟨rfl, rfl⟩ := pure_ok.mp h
    exact ⟨hs, .refl _, hs.helpers key id hid⟩
  | none =>
    rw [hid] at h
    obtain ⟨id, s₁, hadd, h⟩ := bind_ok.mp h
    obtain ⟨rfl, rfl⟩ := addNonterminal_ok hadd
    obtain ⟨_, s₂, hmod, h⟩ := bind_ok.mp h
    obtain rfl := modify_ok.mp hmod
    obtain ⟨_, s₃, hrun, h⟩ := bind_ok.mp h
    obtain ⟨rfl, rfl⟩ := pure_ok.mp h
    set n : Nonterminal := ⟨key, false, true⟩
    have hpush := hs.pushNonterminal n
    have hnew : Lowering.Usable { s with nonterminals := s.nonterminals.push n }
        (.nonterminal s.nonterminals.size) :=
      ⟨Nat.pos_iff_ne_zero.mp hs.nonterminals, by simp⟩
    have hentered : Sound { s with
        nonterminals := s.nonterminals.push n
        helpers := s.helpers.insert key s.nonterminals.size
        names := s.names.insertIfNew key s.nonterminals.size } := by
      refine ⟨hs.vocabulary, hpush.nonterminals, fun name m hm => ?_, fun name m hm => ?_,
        hpush.productions⟩
      · rw [Std.TreeMap.getElem?_insertIfNew] at hm
        split at hm
        · cases hm
          exact hnew
        · exact hpush.names name m hm
      · rw [Std.TreeMap.getElem?_insert] at hm
        split at hm
        · cases hm
          exact hnew
        · exact hpush.helpers name m hm
    obtain ⟨hs₃, he₃⟩ := hfill _ _ _ hentered hnew hrun
    refine ⟨hs₃, Extends.trans ?_ he₃, he₃.usable hnew⟩
    exact ⟨rfl, by simp, fun _ hn => Std.TreeMap.mem_insertIfNew.mpr (Or.inr hn),
      List.prefix_rfl⟩

theorem keeps_wrapAction (right : List Symbol) (kind : String) :
    (wrapAction right kind).KeepsSound := by
  intro s a s' hs h
  simp only [wrapAction] at h
  split at h
  · obtain ⟨-, rfl⟩ := pure_ok.mp h
    exact ⟨hs, .refl s, trivial⟩
  · rw [map_eq_pure_bind] at h
    obtain ⟨_, s₁, hkind, h⟩ := bind_ok.mp h
    obtain ⟨-, rfl⟩ := pure_ok.mp h
    exact keeps_nodeKind kind s _ s₁ hs hkind

theorem keeps_groupAction (right : List Symbol) (kind : String) :
    (groupAction right kind).KeepsSound := by
  intro s a s' hs h
  simp only [groupAction] at h
  split at h
  · obtain ⟨-, rfl⟩ := pure_ok.mp h
    exact ⟨hs, .refl s, trivial⟩
  · obtain ⟨-, rfl⟩ := pure_ok.mp h
    exact ⟨hs, .refl s, trivial⟩
  · rw [map_eq_pure_bind] at h
    obtain ⟨_, s₁, hkind, h⟩ := bind_ok.mp h
    obtain ⟨-, rfl⟩ := pure_ok.mp h
    exact keeps_nodeKind kind s _ s₁ hs hkind

theorem keeps_ruleAction (d : RuleDeclaration) (right : List Symbol) :
    (ruleAction d right).KeepsSound := by
  intro s a s' hs h
  simp only [ruleAction] at h
  split at h
  · exact keeps_groupAction right d.name s a s' hs h
  · rw [map_eq_pure_bind] at h
    obtain ⟨_, s₁, hkind, h⟩ := bind_ok.mp h
    obtain ⟨-, rfl⟩ := pure_ok.mp h
    exact keeps_nodeKind d.name s _ s₁ hs hkind

/-! ## Parts of rules -/

/-- The symbols of a part of a rule can stand in a right-hand side. -/
def KeepsSymbols (m : Lower (List Symbol)) : Prop := m.Keeps fun s xs => ∀ x ∈ xs, s.Usable x

/-- The symbol of a part of a rule can stand in a right-hand side. -/
def KeepsSymbol (m : Lower Symbol) : Prop := m.Keeps Lowering.Usable

/-- A right-hand side that is followed by its action and then becomes a production. -/
theorem produceWith_sound {left : NonterminalId} {sequence : Lower (List Symbol)}
    {action : List Symbol → Lower TreeAction} (hseq : KeepsSymbols sequence)
    (haction : ∀ right, (action right).KeepsSound) {u : Unit} (hs : s.Sound)
    (hl : s.Usable (.nonterminal left))
    (h : (do let right ← sequence; produce left right (← action right)) s = .ok (u, s')) :
    s'.Sound ∧ s.Extends s' := by
  obtain ⟨right, s₁, hright, h⟩ := bind_ok.mp h
  obtain ⟨a, s₂, ha, h⟩ := bind_ok.mp h
  obtain ⟨hs₁, he₁, hx⟩ := hseq s right s₁ hs hright
  obtain ⟨hs₂, he₂, -⟩ := haction right s₁ a s₂ hs₁ ha
  have he := he₁.trans he₂
  obtain ⟨hs', he'⟩ := produce_sound hs₂ (he.usable hl).2
    (fun x hx' => he₂.usable (hx x hx')) h
  exact ⟨hs', he.trans he'⟩

theorem keeps_sequenceHelper {rule : Rule} {sequence : Lower (List Symbol)}
    (hseq : KeepsSymbols sequence) : KeepsSymbol (sequenceHelper rule sequence) :=
  keeps_helper fun _ _ _ hs hl h =>
    produceWith_sound hseq (fun right => keeps_wrapAction right rule.render) hs hl h

theorem keeps_optionHelper {rule item : Rule} {sequence : Lower (List Symbol)}
    (hseq : KeepsSymbols sequence) : KeepsSymbol (optionHelper rule item sequence) := by
  refine keeps_helper fun left s s' hs hl h => ?_
  obtain ⟨right, s₁, hright, h⟩ := bind_ok.mp h
  obtain ⟨a, s₂, ha, h⟩ := bind_ok.mp h
  obtain ⟨_, s₃, hprod, h⟩ := bind_ok.mp h
  obtain ⟨hs₁, he₁, hx⟩ := hseq s right s₁ hs hright
  obtain ⟨hs₂, he₂, -⟩ := keeps_wrapAction right item.render s₁ a s₂ hs₁ ha
  have hl₂ := (he₁.trans he₂).usable hl
  obtain ⟨hs₃, he₃⟩ := produce_sound hs₂ hl₂.2 (fun x hx' => he₂.usable (hx x hx')) hprod
  obtain ⟨hs', he'⟩ := produce_sound hs₃ (he₃.usable hl₂).2 (by simp) h
  exact ⟨hs', ((he₁.trans he₂).trans he₃).trans he'⟩

theorem keeps_listHelper {rule : Rule} {fill : NonterminalId → String → Lower Unit}
    (hfill : ∀ kind, FillsSound (fill · kind)) : KeepsSymbol (listHelper rule fill) := by
  refine keeps_helper fun left s s' hs hl h => ?_
  obtain ⟨kind, s₁, hkind, h⟩ := bind_ok.mp h
  obtain ⟨hs₁, he₁, -⟩ := keeps_nodeKind rule.render s kind s₁ hs hkind
  obtain ⟨hs', he'⟩ := hfill kind left s₁ s' hs₁ (he₁.usable hl) h
  exact ⟨hs', he₁.trans he'⟩

theorem starItems_sound {item : Lower Symbol} (hitem : KeepsSymbol item) (kind : String) :
    FillsSound (starItems item · kind) := by
  intro left s s' hs hl h
  obtain ⟨i, s₁, hi, h⟩ := bind_ok.mp h
  obtain ⟨_, s₂, hempty, h⟩ := bind_ok.mp h
  obtain ⟨hs₁, he₁, hx⟩ := hitem s i s₁ hs hi
  have hl₁ := he₁.usable hl
  obtain ⟨hs₂, he₂⟩ := produce_sound hs₁ hl₁.2 (by simp) hempty
  have hl₂ := he₂.usable hl₁
  obtain ⟨hs', he'⟩ := produce_sound hs₂ hl₂.2 (by simp [hl₂, he₂.usable hx]) h
  exact ⟨hs', (he₁.trans he₂).trans he'⟩

theorem plusItems_sound {item : Lower Symbol} (hitem : KeepsSymbol item) (kind : String) :
    FillsSound (plusItems item · kind) := by
  intro left s s' hs hl h
  obtain ⟨i, s₁, hi, h⟩ := bind_ok.mp h
  obtain ⟨_, s₂, hone, h⟩ := bind_ok.mp h
  obtain ⟨hs₁, he₁, hx⟩ := hitem s i s₁ hs hi
  have hl₁ := he₁.usable hl
  obtain ⟨hs₂, he₂⟩ := produce_sound hs₁ hl₁.2 (by simp [hx]) hone
  have hl₂ := he₂.usable hl₁
  obtain ⟨hs', he'⟩ := produce_sound hs₂ hl₂.2 (by simp [hl₂, he₂.usable hx]) h
  exact ⟨hs', (he₁.trans he₂).trans he'⟩

theorem plusSepItems_sound {item separator : Lower Symbol} (hitem : KeepsSymbol item)
    (hsep : KeepsSymbol separator) (separatorRule : Rule) (kind : String) :
    FillsSound (plusSepItems item separator separatorRule · kind) := by
  intro left s s' hs hl h
  obtain ⟨i, s₁, hi, h⟩ := bind_ok.mp h
  obtain ⟨_, s₂, hone, h⟩ := bind_ok.mp h
  obtain ⟨x, s₃, hx, h⟩ := bind_ok.mp h
  obtain ⟨_, s₄, hget, h⟩ := bind_ok.mp h
  obtain ⟨rfl, rfl⟩ := get_ok.mp hget
  obtain ⟨hs₁, he₁, hi₁⟩ := hitem s i s₁ hs hi
  have hl₁ := he₁.usable hl
  obtain ⟨hs₂, he₂⟩ := produce_sound hs₁ hl₁.2 (by simp [hi₁]) hone
  obtain ⟨hs₃, he₃, hx₃⟩ := hsep s₂ x s₃ hs₂ hx
  have hl₃ := he₃.usable (he₂.usable hl₁)
  have hi₃ := he₃.usable (he₂.usable hi₁)
  obtain ⟨hs', he'⟩ := produce_sound hs₃ hl₃.2 (by simp [hl₃, hx₃, hi₃]) h
  exact ⟨hs', ((he₁.trans he₂).trans he₃).trans he'⟩

theorem starSepItems_sound {item separator : Lower Symbol} (hitem : KeepsSymbol item)
    (hsep : KeepsSymbol separator) (itemRule separatorRule : Rule) (kind : String) :
    FillsSound (starSepItems item separator itemRule separatorRule · kind) := by
  intro left s s' hs hl h
  obtain ⟨_, s₁, hi, h⟩ := bind_ok.mp h
  obtain ⟨_, s₂, hempty, h⟩ := bind_ok.mp h
  obtain ⟨inner, s₃, hlist, h⟩ := bind_ok.mp h
  obtain ⟨hs₁, he₁, -⟩ := hitem s _ s₁ hs hi
  have hl₁ := he₁.usable hl
  obtain ⟨hs₂, he₂⟩ := produce_sound hs₁ hl₁.2 (by simp) hempty
  obtain ⟨hs₃, he₃, hx₃⟩ :=
    keeps_listHelper (plusSepItems_sound hitem hsep separatorRule) s₂ inner s₃ hs₂ hlist
  have hl₃ := he₃.usable (he₂.usable hl₁)
  obtain ⟨hs', he'⟩ := produce_sound hs₃ hl₃.2 (by simp [hx₃]) h
  exact ⟨hs', ((he₁.trans he₂).trans he₃).trans he'⟩

/-! ## Rules -/

theorem keeps_found {name : String} {symbol : Lowering → Option Symbol}
    (hsymbol : ∀ s x, s.Sound → symbol s = some x → s.Usable x) :
    KeepsSymbol (do found name (symbol (← get))) := by
  intro s x s' hs h
  obtain ⟨t, _, ht, h⟩ := bind_ok.mp h
  obtain ⟨rfl, rfl⟩ := get_ok.mp ht
  cases hx : symbol s with
  | some y =>
    rw [hx] at h
    obtain ⟨rfl, rfl⟩ := pure_ok.mp h
    exact ⟨hs, .refl s, hsymbol s y hs hx⟩
  | none =>
    rw [hx] at h
    exact absurd h undefinedSymbol_ok

theorem usable_namedSymbol (hs : s.Sound) {name : String} {x : Symbol}
    (h : namedSymbol? s name = some x) : s.Usable x := by
  simp only [namedSymbol?] at h
  split at h
  · next n hn =>
    cases h
    exact hs.names name n hn
  · obtain ⟨t, ht, rfl⟩ := Option.map_eq_some_iff.mp h
    exact hs.vocabulary.usable_namedClass ht

/-- Both uses of a rule give symbols that can stand in a right-hand side. -/
structure Uses.Sound (u : Uses) : Prop where
  inline : KeepsSymbols u.inline
  symbol : KeepsSymbol u.symbol

theorem Uses.sound_ofSymbol {symbol : Lower Symbol} (h : KeepsSymbol symbol) :
    (Uses.ofSymbol symbol).Sound := by
  refine ⟨fun s xs s' hs hrun => ?_, h⟩
  obtain ⟨x, s₁, hx, hrun⟩ := bind_ok.mp hrun
  obtain ⟨rfl, rfl⟩ := pure_ok.mp hrun
  obtain ⟨hs', he, hus⟩ := h s x s₁ hs hx
  exact ⟨hs', he, by simpa using hus⟩

theorem Uses.sound_ofSequence (rule : Rule) {sequence : Lower (List Symbol)}
    (h : KeepsSymbols sequence) : (Uses.ofSequence rule sequence).Sound :=
  ⟨h, keeps_sequenceHelper h⟩

theorem keepsSymbols_nil : KeepsSymbols (pure []) := by
  intro s xs s' hs h
  obtain ⟨rfl, rfl⟩ := pure_ok.mp h
  exact ⟨hs, .refl s, by simp⟩

mutual

theorem uses_sound : ∀ r : Rule, (uses r).Sound
  | .empty => Uses.sound_ofSequence .empty keepsSymbols_nil
  | .seq items => Uses.sound_ofSequence (.seq items) (inlineAll_sound items)
  | .keyword text => Uses.sound_ofSymbol <| keeps_found fun s x hs h => by
      obtain ⟨t, ht, rfl⟩ := Option.map_eq_some_iff.mp h
      exact hs.vocabulary.keywords _ t ht
  | .symbol text => Uses.sound_ofSymbol <| keeps_found fun s x hs h => by
      obtain ⟨t, ht, rfl⟩ := Option.map_eq_some_iff.mp h
      exact hs.vocabulary.symbols _ t ht
  | .ref name => Uses.sound_ofSymbol <| keeps_found fun s x hs h => usable_namedSymbol hs h
  | .alt items => Uses.sound_ofSymbol (keeps_helper (alternatives_sound items))
  | .opt item => Uses.sound_ofSymbol (keeps_optionHelper (uses_sound item).inline)
  | .star item =>
    Uses.sound_ofSymbol (keeps_listHelper (starItems_sound (uses_sound item).symbol))
  | .plus item =>
    Uses.sound_ofSymbol (keeps_listHelper (plusItems_sound (uses_sound item).symbol))
  | .starSep item separator => Uses.sound_ofSymbol (keeps_listHelper
      (starSepItems_sound (uses_sound item).symbol (uses_sound separator).symbol item separator))
  | .plusSep item separator => Uses.sound_ofSymbol (keeps_listHelper
      (plusSepItems_sound (uses_sound item).symbol (uses_sound separator).symbol separator))

theorem inlineAll_sound : ∀ rs : List Rule, KeepsSymbols (inlineAll rs)
  | [] => keepsSymbols_nil
  | r :: rs => by
    intro s zs s' hs h
    obtain ⟨xs, s₁, hxs, h⟩ := bind_ok.mp h
    obtain ⟨ys, s₂, hys, h⟩ := bind_ok.mp h
    obtain ⟨rfl, rfl⟩ := pure_ok.mp h
    obtain ⟨hs₁, he₁, hx⟩ := (uses_sound r).inline s xs s₁ hs hxs
    obtain ⟨hs₂, he₂, hy⟩ := inlineAll_sound rs s₁ ys s₂ hs₁ hys
    refine ⟨hs₂, he₁.trans he₂, fun z hz => ?_⟩
    rcases List.mem_append.mp hz with hz | hz
    · exact he₂.usable (hx z hz)
    · exact hy z hz

theorem alternatives_sound : ∀ rs : List Rule, FillsSound (alternatives · rs)
  | [] => by
    intro left s s' hs _ h
    obtain ⟨-, rfl⟩ := pure_ok.mp h
    exact ⟨hs, .refl s⟩
  | r :: rs => by
    intro left s s' hs hl h
    obtain ⟨right, s₁, hright, h⟩ := bind_ok.mp h
    obtain ⟨a, s₂, ha, h⟩ := bind_ok.mp h
    obtain ⟨_, s₃, hprod, h⟩ := bind_ok.mp h
    obtain ⟨hs₁, he₁, hx⟩ := (uses_sound r).inline s right s₁ hs hright
    obtain ⟨hs₂, he₂, -⟩ := keeps_groupAction right r.render s₁ a s₂ hs₁ ha
    have hl₂ := (he₁.trans he₂).usable hl
    obtain ⟨hs₃, he₃⟩ := produce_sound hs₂ hl₂.2 (fun x hx' => he₂.usable (hx x hx')) hprod
    obtain ⟨hs', he'⟩ := alternatives_sound rs left s₃ s' hs₃ (he₃.usable hl₂) h
    exact ⟨hs', ((he₁.trans he₂).trans he₃).trans he'⟩

end

theorem ruleAlternatives_sound (d : RuleDeclaration) (items : List Rule) :
    FillsSound (ruleAlternatives d · items) := by
  induction items with
  | nil =>
    intro left s s' hs _ h
    obtain ⟨-, rfl⟩ := pure_ok.mp h
    exact ⟨hs, .refl s⟩
  | cons r rs ih =>
    intro left s s' hs hl h
    obtain ⟨_, s₁, hfirst, h⟩ := bind_ok.mp h
    obtain ⟨hs₁, he₁⟩ :=
      produceWith_sound (uses_sound r).inline (keeps_ruleAction d) hs hl hfirst
    obtain ⟨hs', he'⟩ := ih left s₁ s' hs₁ (he₁.usable hl) h
    exact ⟨hs', he₁.trans he'⟩

/-- A repetition that is a whole rule is filled like a helper of its own. -/
theorem namedList_sound {fill : NonterminalId → String → Lower Unit}
    (hfill : ∀ kind, FillsSound (fill · kind)) (name : String) :
    FillsSound (fun left => do fill left (← nodeKind name)) := by
  intro left s s' hs hl h
  obtain ⟨kind, s₁, hkind, h⟩ := bind_ok.mp h
  obtain ⟨hs₁, he₁, -⟩ := keeps_nodeKind name s kind s₁ hs hkind
  obtain ⟨hs', he'⟩ := hfill kind left s₁ s' hs₁ (he₁.usable hl) h
  exact ⟨hs', he₁.trans he'⟩

theorem ruleProductions_sound {d : RuleDeclaration} {u : Unit} (hs : s.Sound)
    (hname : d.name ∈ s.names) (h : ruleProductions d s = .ok (u, s')) :
    s'.Sound ∧ s.Extends s' := by
  obtain ⟨_, s₁, hmod, h⟩ := bind_ok.mp h
  obtain rfl := modify_ok.mp hmod
  obtain ⟨t, _, ht, h⟩ := bind_ok.mp h
  obtain ⟨rfl, rfl⟩ := get_ok.mp ht
  have hs₁ : Sound { s with rule := d.name } :=
    ⟨hs.vocabulary, hs.nonterminals, hs.names, hs.helpers, hs.productions⟩
  have he₁ : s.Extends { s with rule := d.name } := ⟨rfl, le_rfl, fun _ hn => hn, List.prefix_rfl⟩
  have hl : Lowering.Usable { s with rule := d.name } (.nonterminal (s.names.getD d.name 0)) := by
    refine hs.names d.name _ ?_
    rw [Std.TreeMap.getElem?_eq_some_getD hname]
  have hfill : ∀ fill : NonterminalId → Lower Unit, FillsSound fill →
      fill (s.names.getD d.name 0) { s with rule := d.name } = .ok (u, s') →
      s'.Sound ∧ s.Extends s' := fun fill hfill hrun => by
    obtain ⟨hs', he'⟩ := hfill _ _ _ hs₁ hl hrun
    exact ⟨hs', he₁.trans he'⟩
  cases hr : d.rule with
  | star item =>
    rw [hr] at h
    exact hfill _ (namedList_sound (starItems_sound (uses_sound item).symbol) d.name) h
  | plus item =>
    rw [hr] at h
    exact hfill _ (namedList_sound (plusItems_sound (uses_sound item).symbol) d.name) h
  | starSep item separator =>
    rw [hr] at h
    exact hfill _ (namedList_sound (starSepItems_sound (uses_sound item).symbol
      (uses_sound separator).symbol item separator) d.name) h
  | plusSep item separator =>
    rw [hr] at h
    exact hfill _ (namedList_sound (plusSepItems_sound (uses_sound item).symbol
      (uses_sound separator).symbol separator) d.name) h
  | alt items =>
    rw [hr] at h
    exact hfill _ (ruleAlternatives_sound d items) h
  | empty | keyword | symbol | ref | seq | opt =>
    rw [hr] at h
    exact hfill _ (ruleAlternatives_sound d _) h

/-! ## Whole grammars -/

theorem declare_sound {d : RuleDeclaration} {u : Unit} (hs : s.Sound)
    (h : declare d s = .ok (u, s')) :
    s'.Sound ∧ s.Extends s' ∧ s'.productions = s.productions ∧ d.name ∈ s'.names := by
  obtain ⟨id, s₁, hadd, h⟩ := bind_ok.mp h
  obtain ⟨rfl, rfl⟩ := addNonterminal_ok hadd
  obtain ⟨_, s₂, hmod, h⟩ := bind_ok.mp h
  obtain rfl := modify_ok.mp hmod
  obtain ⟨place, s₃, hplace, h⟩ := bind_ok.mp h
  obtain ⟨kinds, places, rfl⟩ := placeKind_ok hplace
  obtain ⟨-, rfl⟩ := pure_ok.mp h
  have hpush := hs.pushNonterminal ⟨d.name, d.transient, false⟩
  refine ⟨⟨hpush.vocabulary, hpush.nonterminals, fun name n hn => ?_, hpush.helpers,
    hpush.productions⟩, ⟨rfl, by simp, fun name hn => ?_, List.prefix_rfl⟩, rfl, ?_⟩
  · simp only at hn
    rw [Std.TreeMap.getElem?_insert] at hn
    split at hn
    · cases hn
      exact ⟨Nat.pos_iff_ne_zero.mp hs.nonterminals, by simp⟩
    · exact hpush.names name n hn
  · exact Std.TreeMap.mem_insert.mpr (Or.inr hn)
  · exact Std.TreeMap.mem_insert_self

theorem declareAll_sound {rules : List RuleDeclaration} {u : PUnit} (hs : s.Sound)
    (h : rules.forM declare s = .ok (u, s')) :
    s'.Sound ∧ s.Extends s' ∧ s'.productions = s.productions ∧ ∀ d ∈ rules, d.name ∈ s'.names := by
  induction rules generalizing s with
  | nil =>
    obtain ⟨-, rfl⟩ := pure_ok.mp h
    exact ⟨hs, .refl s, rfl, by simp⟩
  | cons d rules ih =>
    obtain ⟨_, s₁, hd, h⟩ := bind_ok.mp h
    obtain ⟨hs₁, he₁, hp₁, hn₁⟩ := declare_sound hs hd
    obtain ⟨hs', he', hp', hn'⟩ := ih hs₁ h
    refine ⟨hs', he₁.trans he', hp'.trans hp₁, fun e he => ?_⟩
    rcases List.mem_cons.mp he with rfl | he
    · exact he'.names _ hn₁
    · exact hn' e he

theorem checkReferences_ok {d : RuleDeclaration} {u : Unit}
    (h : checkReferences d s = .ok (u, s')) : s' = { s with rule := d.name } := by
  obtain ⟨_, s₁, hmod, h⟩ := bind_ok.mp h
  obtain rfl := modify_ok.mp hmod
  obtain ⟨t, _, ht, h⟩ := bind_ok.mp h
  obtain ⟨rfl, rfl⟩ := get_ok.mp ht
  cases hfind : d.rule.references.find? fun name =>
      (namedSymbol? { s with rule := d.name } name).isNone with
  | some name =>
    rw [hfind] at h
    exact absurd h undefinedSymbol_ok
  | none =>
    rw [hfind] at h
    exact (pure_ok.mp h).2.symm

theorem checkAllReferences_ok {rules : List RuleDeclaration} {u : PUnit}
    (h : rules.forM checkReferences s = .ok (u, s')) : ∃ name, s' = { s with rule := name } := by
  induction rules generalizing s with
  | nil =>
    obtain ⟨-, rfl⟩ := pure_ok.mp h
    exact ⟨s.rule, rfl⟩
  | cons d rules ih =>
    obtain ⟨_, s₁, hd, h⟩ := bind_ok.mp h
    obtain rfl := checkReferences_ok hd
    obtain ⟨name, rfl⟩ := ih h
    exact ⟨name, rfl⟩

theorem allProductions_sound {rules : List RuleDeclaration} {u : PUnit} (hs : s.Sound)
    (hnames : ∀ d ∈ rules, d.name ∈ s.names)
    (h : rules.forM ruleProductions s = .ok (u, s')) : s'.Sound ∧ s.Extends s' := by
  induction rules generalizing s with
  | nil =>
    obtain ⟨-, rfl⟩ := pure_ok.mp h
    exact ⟨hs, .refl s⟩
  | cons d rules ih =>
    obtain ⟨_, s₁, hd, h⟩ := bind_ok.mp h
    obtain ⟨hs₁, he₁⟩ := ruleProductions_sound hs (hnames d List.mem_cons_self) hd
    obtain ⟨hs', he'⟩ := ih hs₁
      (fun e he => he₁.names _ (hnames e (List.mem_cons_of_mem d he))) h
    exact ⟨hs', he₁.trans he'⟩

theorem sound_initial {v : Vocabulary} (h : v.Sound) : (initial v).Sound where
  vocabulary := h
  nonterminals := by simp [initial]
  names _ _ hn := by simp [initial] at hn
  helpers _ _ hn := by simp [initial] at hn
  productions _ hp := by simp [initial] at hp

/-- The production that derives the root from the start symbol. -/
def rootProduction (root : NonterminalId) : Production :=
  ⟨Grammar.start, [.nonterminal root], .accept⟩

/-- **Lowering is sound.** All symbols of all productions are usable, and the first production
derives the root from the start symbol. -/
theorem all_sound {v : Vocabulary} (hv : v.Sound) {rules : List RuleDeclaration} {root : String}
    {id : NonterminalId} (h : all rules root (initial v) = .ok (id, s')) :
    s'.Sound ∧ s'.vocabulary = v ∧ s'.productions[0]? = some (rootProduction id) := by
  obtain ⟨_, s₁, hdeclare, h⟩ := bind_ok.mp h
  obtain ⟨hs₁, he₁, hp₁, hn₁⟩ := declareAll_sound (sound_initial hv) hdeclare
  obtain ⟨t, _, ht, h⟩ := bind_ok.mp h
  obtain ⟨rfl, rfl⟩ := get_ok.mp ht
  cases hroot : s₁.names[root]? with
  | none =>
    rw [hroot] at h
    exact absurd h undefinedSymbol_ok
  | some id' =>
    rw [hroot] at h
    obtain ⟨_, s₂, hcheck, h⟩ := bind_ok.mp h
    obtain ⟨name, rfl⟩ := checkAllReferences_ok hcheck
    obtain ⟨_, s₃, hprod, h⟩ := bind_ok.mp h
    obtain rfl := modify_ok.mp hprod
    obtain ⟨_, s₄, hall, h⟩ := bind_ok.mp h
    obtain ⟨rfl, rfl⟩ := pure_ok.mp h
    have hs₂ : Sound { s₁ with rule := name } :=
      ⟨hs₁.vocabulary, hs₁.nonterminals, hs₁.names, hs₁.helpers, hs₁.productions⟩
    have hid : Lowering.Usable { s₁ with rule := name } (.nonterminal id') :=
      hs₁.names root id' hroot
    have hs₃ := hs₂.push ⟨Grammar.start, [.nonterminal id'], .accept⟩ hs₁.nonterminals
      (by simpa using hid)
    obtain ⟨hs', he'⟩ := allProductions_sound hs₃ hn₁ hall
    refine ⟨hs', he'.vocabulary.trans he₁.vocabulary, ?_⟩
    obtain ⟨more, hmore⟩ := he'.productions
    rw [← Array.getElem?_toList, ← hmore]
    simp [hp₁, initial, rootProduction]

end Lower

end FourGL
