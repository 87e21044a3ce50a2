import FourGL.Editor.Document
import FourGL.Proofs.Parse.Halting

/-!
# Documents under edit

A document keeps two parses. A text that is understood replaces both of them, together with the
facts; one that is not replaces the current parse only. So the parse with the last tree and the facts
are always of one text, however many texts without a tree came after it, and however often the text
came back that is current already.

**Theorem (`follows_ofTexts`).** After any sequence of texts, the current parse is that of the last
one, the last good parse is that of the most recent text that has a tree, and the facts are those of
that parse.

**Theorem (`follows_and_completes`).** A request for completions, too, looks its scope up in the very
parse that the facts are of.
-/

namespace FourGL

/-! ## The parse of a text -/

namespace Language

variable {l : Language} {limits : Limits} {source : String} {n : Nat} {p : Parse}

theorem source_of_parseWithin (h : l.parseWithin n limits source = some p) : p.source = source := by
  obtain ⟨run, -, rfl⟩ := Option.map_eq_some_iff.mp h
  rfl

/-- A parse tells of what text it is. -/
@[simp] theorem source_parse (l : Language) (limits : Limits) (source : String) :
    (l.parse limits source).source = source := by
  rw [parse]
  cases h : l.parseWithin ampleSteps limits source with
  | none => rfl
  | some p => exact source_of_parseWithin h

/-- A parse that is made in few steps is the parse of the text. -/
theorem parse_eq_of_parseWithin (h : l.parseWithin n limits source = some p) (hn : n ≤ ampleSteps) :
    l.parse limits source = p := by
  obtain ⟨⟨m, ending⟩, hrun, rfl⟩ := Option.map_eq_some_iff.mp h
  rw [parse, parseWithin, Machine.run_mono hrun hn]
  rfl

/-- What is seen of a parse that is made in few steps is seen of the parse of the text. -/
theorem eq_of_parseWithin {α : Type} {f : Parse → α} {a : α}
    (h : (l.parseWithin n limits source).map f = some a) (hn : n ≤ ampleSteps) :
    f (l.parse limits source) = a := by
  obtain ⟨p, hp, rfl⟩ := Option.map_eq_some_iff.mp h
  rw [parse_eq_of_parseWithin hp hn]

end Language

namespace Document

variable {l : Language} {limits : Limits} {texts : List String} {text : String} {d : Document}
  {p : Parse}

/-! ## What a document keeps -/

/-- A new document after some texts were entered, one after the other. -/
def ofTexts (l : Language) (limits : Limits) (texts : List String) : Document :=
  texts.foldl (edit l) { limits }

/-- The parse of the most recent of the texts that has a tree. -/
def lastGoodOf (l : Language) (limits : Limits) (texts : List String) : Option Parse :=
  (texts.map (l.parse limits)).reverse.find? (·.root.isSome)

/-- What a document keeps after some texts. -/
structure Follows (l : Language) (limits : Limits) (texts : List String) (d : Document) : Prop where
  limits_eq : d.limits = limits
  current_eq : d.current = texts.getLast?.map (l.parse limits)
  lastGood_eq : d.lastGood = lastGoodOf l limits texts
  facts_eq : d.facts = (d.lastGood.map Facts.ofParse).getD {}

theorem lastGoodOf_append (l : Language) (limits : Limits) (texts : List String) (text : String) :
    lastGoodOf l limits (texts ++ [text]) =
      if (l.parse limits text).root.isSome then some (l.parse limits text)
      else lastGoodOf l limits texts := by
  rw [lastGoodOf, List.map_append, List.map_singleton, List.reverse_append, List.reverse_singleton,
    List.singleton_append, List.find?_cons]
  cases (l.parse limits text).root.isSome <;> rfl

theorem follows_new (l : Language) (limits : Limits) : ({ limits } : Document).Follows l limits [] :=
  ⟨rfl, rfl, rfl, rfl⟩

/-- A current parse with a tree is the last good one. -/
theorem Follows.lastGood_of_current (h : d.Follows l limits texts) (hp : d.current = some p)
    (hroot : p.root.isSome = true) : d.lastGood = some p := by
  rw [h.current_eq] at hp
  obtain ⟨text, hlast, rfl⟩ := Option.map_eq_some_iff.mp hp
  obtain ⟨before, rfl⟩ := List.getLast?_eq_some_iff.mp hlast
  rw [h.lastGood_eq, lastGoodOf_append, if_pos hroot]

/-- A last good parse has a tree. -/
theorem Follows.isSome_root (h : d.Follows l limits texts) (hp : d.lastGood = some p) :
    p.root.isSome = true := by
  rw [h.lastGood_eq, lastGoodOf] at hp
  exact List.find?_some (p := fun p : Parse => p.root.isSome) hp

/-! ## Edits -/

theorem isCurrent_iff : d.isCurrent text = true ↔ ∃ p, d.current = some p ∧ p.source = text := by
  simp [isCurrent, Option.any_eq_true]

/-- Where a text comes again that is current already, there is nothing to change. -/
theorem Follows.again (h : d.Follows l limits texts) (hsame : d.isCurrent text = true) :
    d.Follows l limits (texts ++ [text]) := by
  obtain ⟨p, hp, hsource⟩ := isCurrent_iff.mp hsame
  obtain ⟨last, -, rfl⟩ := Option.map_eq_some_iff.mp (h.current_eq ▸ hp)
  obtain rfl : last = text := (Language.source_parse l limits last).symm.trans hsource
  refine ⟨h.limits_eq, by rw [hp, List.getLast?_concat]; rfl, ?_, h.facts_eq⟩
  rw [lastGoodOf_append]
  split
  · next hroot => exact h.lastGood_of_current hp hroot
  · exact h.lastGood_eq

/-- The parse of a new text becomes the current one, and with a tree it brings its facts. -/
theorem Follows.record (h : d.Follows l limits texts) (text : String) :
    (d.record (l.parse limits text)).Follows l limits (texts ++ [text]) := by
  have hcurrent : some (l.parse limits text) =
      (texts ++ [text]).getLast?.map (l.parse limits) := by
    rw [List.getLast?_concat]
    rfl
  rw [Document.record]
  split
  · next hroot => exact ⟨h.limits_eq, hcurrent, by rw [lastGoodOf_append, if_pos hroot], rfl⟩
  · next hroot =>
    refine ⟨h.limits_eq, hcurrent, ?_, h.facts_eq⟩
    rw [lastGoodOf_append, if_neg hroot]
    exact h.lastGood_eq

theorem Follows.edit (h : d.Follows l limits texts) (text : String) :
    (d.edit l text).Follows l limits (texts ++ [text]) := by
  rw [Document.edit]
  split
  · next hsame => exact h.again hsame
  · rw [h.limits_eq]
    exact h.record text

/-- A document follows the texts that were entered. -/
theorem follows_ofTexts (l : Language) (limits : Limits) (texts : List String) :
    (ofTexts l limits texts).Follows l limits texts := by
  induction texts using List.reverseRecOn with
  | nil => exact follows_new l limits
  | append_singleton texts text ih =>
    rw [ofTexts, List.foldl_append]
    exact ih.edit text

/-! ## Requests -/

/-- Scopes are looked up in the last good parse, whether or not the current one has a tree. -/
theorem Follows.scopeSource?_eq (h : d.Follows l limits texts) (hp : d.current = some p) :
    p.scopeSource? d.lastGood = d.lastGood := by
  rw [Parse.scopeSource?]
  split
  · next hroot => exact (h.lastGood_of_current hp hroot).symm
  · cases hgood : d.lastGood with
    | none => rfl
    | some q => rw [Option.filter_some, if_pos (h.isSome_root hgood)]

/-- A request finds the names that the facts have for the scope in the parse that they are of. -/
theorem Follows.completions_eq (h : d.Follows l limits texts) (hp : d.current = some p)
    {offset i : Nat} (hi : p.contextToken? offset = some i) :
    d.completions offset =
      d.facts.visible (d.lastGood.bind (·.scopeNameAt? (p.token i).span.start))
        (!p.beginsFunction i) := by
  simp only [completions, hp, Facts.completions, hi, h.scopeSource?_eq hp]

end Document

open Document in
/-- **Documents under edit.** After any texts, the current parse is that of the last one, the last
good parse is that of the most recent text that has a tree, and the facts are those of that parse, or
none. A current parse with a tree is the last good one. A request looks its scope up in the parse that
the facts are of. -/
theorem follows_and_completes (l : Language) (limits : Limits) (texts : List String) :
    (ofTexts l limits texts).Follows l limits texts ∧
    (∀ p, (ofTexts l limits texts).current = some p → p.root.isSome = true →
      (ofTexts l limits texts).lastGood = some p) ∧
    ∀ p offset i, (ofTexts l limits texts).current = some p → p.contextToken? offset = some i →
      (ofTexts l limits texts).completions offset =
        (ofTexts l limits texts).facts.visible
          ((ofTexts l limits texts).lastGood.bind (·.scopeNameAt? (p.token i).span.start))
          (!p.beginsFunction i) := by
  have h := follows_ofTexts l limits texts
  exact ⟨h, fun p => h.lastGood_of_current, fun p offset i hp hi => h.completions_eq hp hi⟩

/-- Without recovery, two signs have no tree. After them the last good parse is that of the text
before, and a request behind the first sign looks there. -/
theorem follows_and_completes_signs : ∃ g : Grammar, g.IsBuilt ∧ ∃ limits : Limits, ∃ good bad,
    (Document.ofTexts (.ofGrammar g) limits ["+", "+ +"]).current = some bad ∧
      bad.source = "+ +" ∧ bad.root.isSome = false ∧
      (Document.ofTexts (.ofGrammar g) limits ["+", "+ +"]).lastGood = some good ∧
      good.source = "+" ∧ good.root.isSome = true ∧ bad.contextToken? 2 = some 0 ∧
      (Document.ofTexts (.ofGrammar g) limits ["+", "+ +"]).completions 2 =
        (Facts.ofParse good).visible (good.scopeNameAt? (bad.token 0).span.start)
          (!bad.beginsFunction 0) := by
  obtain ⟨g, hbuild⟩ := exists_build_plus
  have hgood : (Declarations.ofSteps "signs" plusSteps).seen? (fun g =>
      ((Language.ofGrammar g).parseWithin 10 { recoveries := 0 } "+").map
        (·.root.isSome)) = some true := by cbv
  have hbad : (Declarations.ofSteps "signs" plusSteps).seen? (fun g =>
      ((Language.ofGrammar g).parseWithin 10 { recoveries := 0 } "+ +").map fun p =>
        (p.root.isSome, p.contextToken? 2)) = some (false, some 0) := by cbv
  rw [Declarations.seen?_of_build hbuild] at hgood hbad
  have hgood := Language.eq_of_parseWithin hgood (by decide)
  have hbad := Language.eq_of_parseWithin hbad (by decide)
  obtain ⟨hbad, hcontext⟩ := Prod.mk.inj hbad
  obtain ⟨hfollows, -, hcompletes⟩ :=
    follows_and_completes (.ofGrammar g) { recoveries := 0 } ["+", "+ +"]
  have hcurrent := hfollows.current_eq
  have hlast := hfollows.lastGood_eq
  have hfacts := hfollows.facts_eq
  simp only [Document.lastGoodOf, List.map_cons, List.map_nil, List.reverse_cons, List.reverse_nil,
    List.nil_append, List.cons_append, List.find?_cons, hbad, hgood] at hlast
  have hnames := hcompletes _ 2 0 hcurrent hcontext
  rw [hfacts, hlast] at hnames
  exact ⟨g, ⟨"signs", plusSteps, hbuild⟩, _, _, _, hcurrent, Language.source_parse _ _ _, hbad,
    hlast, Language.source_parse _ _ _, hgood, hcontext, hnames⟩

end FourGL
