import Mathlib.Data.List.Basic
import Wireframe.Proofs.Faults
import Wireframe.Proofs.Root

/-!
# Recovery

Reading recovers from every fault.  A form of sound tokens is read within a class of faults if the
class has the faults of nesting in it, and so is a document, which is left out only if the source
has no root form or nests its lists too deeply.
-/

namespace Wireframe

variable {Φ : Fault → Prop}

namespace Token

theorem infix_of_infix_append {front row ends : List Token} {last : Token} (inner : last ∉ ends)
    (inside : row ++ [last] <:+: front ++ ends) : row ++ [last] <:+: front := by
  obtain ⟨before, behind, same⟩ := inside
  rcases List.append_eq_append_iff.mp same with ⟨rest, split, -⟩ | ⟨rest, split, inEnds⟩
  · exact ⟨before, rest, split.symm⟩
  · rcases List.eq_nil_or_concat rest with rfl | ⟨init, t, rfl⟩
    · exact ⟨before, [], by simpa using split⟩
    · -- The last token of the row would be one of those behind the front.
      have isLast : last = t := by simpa using congrArg List.getLast? split
      exact absurd (by simp [inEnds, isLast]) inner

/-- A count is none of the tokens put behind others if no number is among these. -/
theorem FiniteRepeats.append_ends {front ends : List Token} (counts : FiniteRepeats front)
    (others : ∀ t ∈ ends, t.kind ≠ .number) : FiniteRepeats (front ++ ends) := by
  intro opener name atoms key number inside opens isRepeat apart keyword isCount isNumber
  rw [← List.cons_append, ← List.cons_append, List.append_cons] at inside
  have within := infix_of_infix_append (fun member => others number member isNumber) inside
  exact counts opener name atoms key number (by simpa using within) opens isRepeat apart keyword
    isCount isNumber

end Token

namespace Form

/-- The atoms at the head of a list stand behind its parenthesis, with the next token behind them.
-/
theorem head_prefix_tokens (opener : Token) (items : List Form) (closer : Token) :
    opener :: ((list opener items closer).parts.head ++
      [(list opener items closer).parts.afterHead]) <+: (list opener items closer).tokens := by
  obtain ⟨behind, split, next, none, -⟩ := Parts.items_eq_parts opener items closer
  have follows : ∃ back, tokensAll ((list opener items closer).parts.nested.map Nested.form ++
      behind) ++ [closer] = (list opener items closer).parts.afterHead :: back := by
    unfold Parts.afterHead
    cases forms : (list opener items closer).parts.nested with
    | nil =>
        rw [none forms] at next ⊢
        exact ⟨[], by simp [next, tokensAll]⟩
    | cons n rest =>
        obtain ⟨back, same⟩ := n.form.tokens_eq_cons
        exact ⟨_, by
          simp only [List.map_cons, List.cons_append, tokensAll, same, List.append_assoc]
          rfl⟩
  obtain ⟨back, same⟩ := follows
  refine ⟨back, ?_⟩
  conv => rhs; rw [tokens, split, tokensAll_append, tokensAll_atoms]
  simp only [List.append_assoc, List.cons_append, List.nil_append, same]

theorem head_infix_tokens (opener : Token) (items : List Form) (closer : Token) :
    (list opener items closer).parts.head ++ [(list opener items closer).parts.afterHead] <:+:
      (list opener items closer).tokens :=
  List.IsInfix.trans ⟨[opener], [], by simp⟩ (head_prefix_tokens opener items closer).isInfix

/-- Whether a form is one of a source and its tokens are sound. -/
structure Sound (Φ : Fault → Prop) (form : Form) : Prop where
  shaped : form.Shaped
  tokens : ∀ t ∈ form.tokens, t.Sound Φ
  counts : Token.FiniteRepeats form.tokens

variable {opener closer : Token} {items : List Form}

theorem Sound.first {form : Form} (sound : form.Sound Φ) : form.first.Sound Φ := by
  obtain ⟨back, same⟩ := form.tokens_eq_cons
  exact sound.tokens _ (by simp [same])

theorem Sound.last (sound : (list opener items closer).Sound Φ) : closer.Sound Φ :=
  sound.tokens _ (by simp [Form.tokens])

theorem Sound.item (sound : (list opener items closer).Sound Φ) {form : Form}
    (member : form ∈ items) : form.Sound Φ := by
  have inside : form.tokens <:+: (list opener items closer).tokens :=
    (tokens_infix_tokensAll member).trans (tokensAll_infix_tokens opener items closer)
  exact ⟨shapedAll_iff.mp sound.shaped.2.2 form member,
    fun t inForm => sound.tokens t (inside.mem inForm), sound.counts.of_isInfix inside⟩

theorem Sound.counts_head (sound : (list opener items closer).Sound Φ) {name : Token}
    (first : name ∈ (list opener items closer).parts.head.head?)
    (isRepeat : name.isSymbol Schema.repeatForm = true) :
    Token.FiniteCounts ((list opener items closer).parts.head ++
      [(list opener items closer).parts.afterHead]) := by
  intro key number adjacent keyword isCount isNumber
  have notEnd : number ∉ [(list opener items closer).parts.afterHead] := by
    intro member
    obtain rfl := List.mem_singleton.mp member
    rcases Parts.afterHead_kind sound.shaped with opens | ends
    · simp [opens] at isNumber
    · rcases sound.shaped.2.1 with closes | isEof
      · simp [ends, closes] at isNumber
      · simp [ends, isEof] at isNumber
  have inHead : [key, number] <:+: (list opener items closer).parts.head :=
    Token.infix_of_infix_append notEnd (show [key] ++ [number] <:+: _ from adjacent)
  have whole := head_prefix_tokens opener items closer
  have atoms : ∀ t ∈ (list opener items closer).parts.head, ¬t.IsParen := fun t member =>
    not_or.mpr (Parts.head_kind sound.shaped member)
  generalize (list opener items closer).parts.head = head at first inHead whole atoms
  cases head with
  | nil => simp at first
  | cons t rest =>
      obtain rfl : t = name := by simpa using first
      rcases List.infix_cons_iff.mp inHead with ⟨more, same⟩ | ⟨between, more, rfl⟩
      · -- The name is a symbol, so that it is no key.
        obtain ⟨rfl, -⟩ := List.cons.inj same
        simp [Token.kind_of_isSymbol isRepeat] at keyword
      · have front : opener :: t :: (between ++ [key, number]) <+:
            (list opener items closer).tokens :=
          .trans ⟨more ++ [(list opener items closer).parts.afterHead], by simp⟩ whole
        exact sound.counts opener t between key number front.isInfix sound.shaped.1 isRepeat
          (fun u member => atoms u (by simp [member])) keyword isCount isNumber

theorem Sound.parts (sound : (list opener items closer).Sound Φ) :
    (list opener items closer).parts.Sound Φ := by
  obtain ⟨behind, split, next, -⟩ := Parts.items_eq_parts opener items closer
  have inside := head_infix_tokens opener items closer
  refine ⟨sound.first, fun t member => ?_, fun n member => ?_, ?_, ?_,
    fun name => sound.counts_head⟩
  · exact sound.tokens t (inside.mem (List.mem_append_left _ member))
  · exact (sound.item (Parts.nested_shaped sound.shaped member).1).first
  · rw [next]
    cases behind with
    | nil => exact sound.last
    | cons form behind =>
        refine (sound.item ?_).first
        rw [split]
        simp
  · rcases Parts.afterHead_kind sound.shaped with opens | ends
    · simp [opens]
    · rw [ends]
      rcases sound.shaped.2.1 with closes | ends
      · simp [closes]
      · simp [ends]

/-- Whether a class has the faults of nesting in the forms of a kind, which have only forms of the
kind in them. -/
structure Granted (Φ : Fault → Prop) (G : Form → Prop) : Prop where
  parts : ∀ opener items closer, G (list opener items closer) →
    (list opener items closer).parts.Grants Φ
  items : ∀ opener items closer, G (list opener items closer) → ∀ form ∈ items, G form

variable {G : Form → Prop}

mutual

theorem within_child (granted : Granted Φ G) :
    ∀ form : Form, form.Sound Φ → G form → form.child.Within Φ
  | .atom t, sound, _ => .fail (sound.first.admits _ rfl)
  | .list opener items closer, sound, holds => by
      refine Parts.within_toChild sound.parts (fun n member => ?_)
        (granted.parts opener items closer holds)
      obtain ⟨-, -, -, -, children⟩ := Parts.items_eq_parts opener items closer
      rw [children n member]
      have inside := (Parts.nested_shaped sound.shaped member).1
      exact within_children granted items n.form inside (sound.item inside)
        (granted.items opener items closer holds n.form inside)

theorem within_children (granted : Granted Φ G) :
    ∀ (items : List Form) (form : Form), form ∈ items → form.Sound Φ → G form →
      form.child.Within Φ
  | item :: rest, form, member, sound, holds => by
      rcases List.mem_cons.mp member with same | later
      · rw [same] at sound holds ⊢
        exact within_child granted item sound holds
      · exact within_children granted rest form later sound holds

end

variable (granted : Granted Φ G)

theorem within_nested (granted : Granted Φ G) (sound : (list opener items closer).Sound Φ)
    {n : Nested} (member : n ∈ (list opener items closer).parts.nested) (holds : G n.form) :
    n.child.Within Φ := by
  obtain ⟨-, -, -, -, children⟩ := Parts.items_eq_parts opener items closer
  rw [children n member]
  exact within_child granted n.form (sound.item (Parts.nested_shaped sound.shaped member).1) holds

theorem within_names {closer : Token} (ends : closer.Sound Φ) {items : List Form}
    (sound : ∀ form ∈ items, form.first.Sound Φ) :
    (Parts.names closer (readItems items)).Within Φ := by
  induction items with
  | nil => exact (Attempt.Meets.expect ends).bind fun _ _ => .pure trivial
  | cons form rest ih =>
      refine (Attempt.Meets.expect ?_).bind fun _ _ => ?_
      · rw [Parts.first_ofForm]
        exact sound form List.mem_cons_self
      · refine (ih fun other later => sound other (List.mem_cons_of_mem form later)).bind
          fun _ _ => .pure trivial

theorem within_params {form : Form} (sound : form.Sound Φ) : (Parts.params form).Within Φ := by
  cases form with
  | atom t => exact .fail (sound.first.admits _ rfl)
  | list opener items closer =>
      exact within_names sound.last fun form member => (sound.item member).first

/-- Whether the forms nested in a top-level form are of a kind, as far as they are read as nodes. -/
structure Holds (G : Form → Prop) (p : Parts) : Prop where
  component : ∀ t ∈ p.head.head?, t.kind = .symbol → t.value = Schema.defineForm →
    ∀ n ∈ p.nested.tail, G n.form
  layout : ∀ t ∈ p.head.head?, t.kind = .symbol → t.value = "layout" → ∀ n ∈ p.nested, G n.form
  roots : ∀ t ∈ p.head.head?, t.kind = .symbol → t.value = Schema.screenForm →
    ∀ n ∈ p.nested, Parts.overlayKind? n.form = none → G n.form
  overlays : ∀ t ∈ p.head.head?, t.kind = .symbol → t.value = Schema.screenForm →
    ∀ n ∈ p.nested, ∀ kind ∈ Parts.overlayKind? n.form, ∀ m ∈ n.form.parts.nested, G m.form

theorem within_toOverlay (granted : Granted Φ G) {form : Form} (sound : form.Sound Φ)
    {kind : OverlayKind} (found : Parts.overlayKind? form = some kind)
    (inner : ∀ n ∈ form.parts.nested, G n.form) : (form.parts.toOverlay kind).Within Φ := by
  obtain ⟨opener, name, rest, closer, rfl, -⟩ := Parts.overlayKind?_eq_some found
  exact Parts.within_toOverlay sound.parts
    (fun n member => within_nested granted sound member (inner n member)) kind

theorem within_entry? (granted : Granted Φ G) {form : Form} (sound : form.Sound Φ)
    (holds : Holds G form.parts) : form.entry?.Within Φ := by
  cases form with
  | atom t => exact .fail (sound.first.admits _ rfl)
  | list opener items closer =>
      have item {n : Nested} (member : n ∈ (list opener items closer).parts.nested) :
          n.form.Sound Φ := sound.item (Parts.nested_shaped sound.shaped member).1
      refine Parts.within_toEntry? sound.parts ⟨?_, ?_, ?_, ?_, ?_⟩
      · exact fun _ _ _ _ n first => within_params (item (List.mem_of_mem_head? first))
      · exact fun t head symbol named n later => within_nested granted sound
          (List.mem_of_mem_tail later) (holds.component t head symbol named n later)
      · exact fun t head symbol named n member =>
          within_nested granted sound member (holds.layout t head symbol named n member)
      · exact fun t head symbol named n member kind found =>
          within_toOverlay granted (item member) found
            (holds.overlays t head symbol named n member kind found)
      · exact fun t head symbol named n member plain =>
          within_nested granted sound member (holds.roots t head symbol named n member plain)

/-- A class that does not tell the faults at a place apart has all faults of sound forms. -/
theorem granted_of_position (places : Position → Prop) :
    Granted (fun f => places f.position) (Sound fun f => places f.position) := by
  refine ⟨fun opener items closer sound => ⟨fun t _ _ _ => ?_, fun t first _ _ => ?_,
    fun t _ _ _ n member => ?_⟩, fun opener items closer sound form member => sound.item member⟩
  · exact sound.first.admits .includePath rfl
  · exact (sound.parts.head t (List.mem_of_mem_head? first)).admits .includePath rfl
  · exact (sound.parts.nested n member).admits .includePath rfl

theorem nested_sound {form : Form} (sound : form.Sound Φ) :
    ∀ n ∈ form.parts.nested, n.form.Sound Φ := by
  cases form with
  | atom t => simp [parts]
  | list opener items closer =>
      exact fun n member => sound.item (Parts.nested_shaped sound.shaped member).1

theorem holds_sound {form : Form} (sound : form.Sound Φ) : Holds (Sound Φ) form.parts :=
  ⟨fun _ _ _ _ n later => nested_sound sound n (List.mem_of_mem_tail later),
    fun _ _ _ _ => nested_sound sound, fun _ _ _ _ n member _ => nested_sound sound n member,
    fun _ _ _ _ n member _ _ => nested_sound (nested_sound sound n member)⟩

end Form

namespace Document

open Form

variable {G : Form → Prop}

theorem yields_entries (granted : Granted Φ G) {forms : List Form}
    (sound : ∀ form ∈ forms, form.Sound Φ) (holds : ∀ form ∈ forms, Holds G form.parts) :
    (entries forms).Yields Φ := by
  induction forms with
  | nil => exact .pure []
  | cons form rest ih =>
      have here := within_entry? granted (sound form List.mem_cons_self)
        (holds form List.mem_cons_self)
      refine here.yields_recover.bind fun _ => ?_
      exact (ih (fun other later => sound other (List.mem_cons_of_mem form later))
        fun other later => holds other (List.mem_cons_of_mem form later)).bind fun _ => .pure _

theorem yields_checkEnd {closer : Token} {behind : List Token}
    (closes : closer.isEnd = true → Φ ⟨.unclosed Schema.rootForm, closer.start⟩)
    (follows : ∀ t ∈ behind, t.Sound Φ) : (checkEnd closer behind).Yields Φ := by
  unfold checkEnd
  split
  · rename_i ends
    exact .note (closes ends)
  · cases behind with
    | nil => exact .pure ()
    | cons t rest => exact .note ((follows t List.mem_cons_self).admits _ rfl)

/-- The document of a root form is put together, whatever faults the forms in it have. -/
theorem yields_ofEntries (granted : Granted Φ G) {opener name closer : Token} {items : List Form}
    {behind : List Token} (sound : (Form.list opener (.atom name :: items) closer).Sound Φ)
    (follows : ∀ t ∈ behind, t.Sound Φ) (holds : ∀ form ∈ items, Holds G form.parts)
    (closes : closer.isEnd = true → Φ ⟨.unclosed Schema.rootForm, closer.start⟩) :
    (do
      let found ← entries items
      checkEnd closer behind
      return ofEntries found (← Attempt.place opener closer) : Attempt Document).Yields Φ := by
  refine (yields_entries granted (fun form member => ?_) holds).bind fun _ => ?_
  · exact sound.item (List.mem_cons_of_mem _ member)
  · have proper : opener.start.isProper = true := sound.first.proper
    refine (yields_checkEnd closes follows).bind fun _ => ?_
    rw [Attempt.place_of_isProper proper]
    exact .pure _

theorem sound_of_tokens {front behind : List Token} {eof : Token} {form : Form} {unclosed : Nat}
    (ends : eof.kind = .eof) (shaped : form.Shaped)
    (sound : ∀ t ∈ front ++ [eof], t.Sound Φ)
    (counts : Token.FiniteRepeats front)
    (tokens : form.tokens ++ behind = front ++ List.replicate unclosed eof) :
    form.Sound Φ ∧ ∀ t ∈ behind, t.Sound Φ := by
  have all : ∀ t ∈ form.tokens ++ behind, t.Sound Φ := by
    intro t member
    rw [tokens] at member
    rcases List.mem_append.mp member with early | last
    · exact sound t (List.mem_append_left _ early)
    · rw [List.eq_of_mem_replicate last]
      exact sound _ (by simp)
  refine ⟨⟨shaped, fun t member => all t (List.mem_append_left _ member), ?_⟩,
    fun t member => all t (List.mem_append_right _ member)⟩
  have inside : form.tokens <:+: front ++ List.replicate unclosed eof := by
    rw [← tokens]
    exact (List.prefix_append _ _).isInfix
  refine (counts.append_ends fun t member => ?_).of_isInfix inside
  simp [List.eq_of_mem_replicate member, ends]

end Document

/-- The tokens of a source are sound if a class has the faults of words at them. -/
theorem Token.sound_of_ofSource {source : String} {tokens : List Token}
    (found : ofSource source = .ok tokens)
    (admits : ∀ t ∈ tokens, ∀ cause : FaultCause, cause.isNesting = false → Φ ⟨cause, t.start⟩) :
    ∀ t ∈ tokens, t.Sound Φ := by
  intro t member
  refine ⟨isProper_of_ofChars (p := .first) rfl found t member, fun number => ?_, admits t member⟩
  have spelled := isSpelled_of_ofChars found member (by simp [number])
  exact Numeral.toDouble?_of_isNumeral (spelled.numeral number)

namespace Document

/-- What reading makes of a source, whatever is wrong with it. -/
structure Recovers (limit : Int) (source : String) : Prop where
  /-- Nothing refuses the source. -/
  settles : ∀ r, (ofSource limit source).outcome ≠ .refused r
  /-- The source is read without a fault exactly if none is found. -/
  succeeds : (ofSource limit source).succeeds = true ↔ (ofSource limit source).faults = []
  /-- There is no document exactly if the source is not made of tokens, nests lists too deeply or
  does not begin with a root form. -/
  missing : (ofSource limit source).value? = none ↔
    (∃ fault, Token.ofSource source = .error fault) ∨ ∃ tokens, Token.ofSource source = .ok tokens ∧
      (Token.Exceeds limit tokens ∨ Token.startsRoot tokens = false)
  /-- Without a document there is one fault. -/
  fatal : (ofSource limit source).value? = none → (ofSource limit source).faults.length = 1
  /-- Every fault of tokens is at one of them. -/
  located : ∀ tokens, Token.ofSource source = .ok tokens →
    ∀ f ∈ (ofSource limit source).faults, ∃ t ∈ tokens, f.position = t.start

/-- Sound tokens with a root form have a document, unless a repetition has an infinite count. -/
theorem yields_ofTokens {limit : Int} {front : List Token} {p : Position} (places : Position → Prop)
    (inner : ∀ t ∈ front, t.kind ≠ .eof)
    (sound : ∀ t ∈ front ++ [Token.eof p], t.Sound fun f => places f.position)
    (counts : Token.FiniteRepeats front) (shallow : ¬Token.Exceeds limit (front ++ [Token.eof p]))
    (starts : Token.startsRoot (front ++ [Token.eof p]) = true) :
    (ofTokens limit (front ++ [Token.eof p])).Yields fun f => places f.position := by
  obtain ⟨opener, name, items, closer, behind, unclosed, -, same, -, shaped, inside, -⟩ :=
    ofTokens_of_startsRoot inner shallow starts
  obtain ⟨rootSound, follows⟩ := sound_of_tokens rfl shaped sound counts inside
  rw [same]
  refine yields_ofEntries (Form.granted_of_position places) rootSound follows
    (fun form member => ?_) fun _ => ?_
  · exact Form.holds_sound (rootSound.item (List.mem_cons_of_mem _ member))
  · exact rootSound.last.admits .includePath rfl

private theorem yields_of_startsRoot {limit : Int} {source : String} {tokens : List Token}
    (found : Token.ofSource source = .ok tokens) (counts : Token.FiniteCounts tokens)
    (shallow : ¬Token.Exceeds limit tokens) (starts : Token.startsRoot tokens = true) :
    (ofTokens limit tokens).Yields fun f => ∃ t ∈ tokens, f.position = t.start := by
  have sound : ∀ t ∈ tokens, t.Sound fun f => ∃ t ∈ tokens, f.position = t.start :=
    Token.sound_of_ofSource found fun t member _ _ => ⟨t, member, rfl⟩
  obtain ⟨front, rfl, inner⟩ := Token.ofChars_eq_append_eof found
  exact yields_ofTokens (fun q => ∃ t : Token, t ∈ _ ∧ q = t.start) inner sound
    (counts.repeats.of_isInfix (List.prefix_append front _).isInfix) shallow starts

/-- A source without an infinite count is not refused. -/
theorem not_refused_of_finiteCounts {source : String}
    (counts : ∀ tokens, Token.ofSource source = .ok tokens → Token.FiniteCounts tokens)
    (limit : Int) (r : Rejection) : (ofSource limit source).outcome ≠ .refused r := by
  rw [ofSource]
  cases found : Token.ofSource source with
  | error fault => simp
  | ok tokens =>
      by_cases none : Token.Exceeds limit tokens ∨ Token.startsRoot tokens = false
      · obtain ⟨front, rfl, inner⟩ := Token.ofChars_eq_append_eof found
        obtain ⟨cause, t, -, fails⟩ := ofTokens_fails inner none
        simp [fails, Attempt.fail]
      · rw [not_or, Bool.not_eq_false] at none
        obtain ⟨-, d, value⟩ := yields_of_startsRoot found (counts tokens found) none.1 none.2
        simp [value]

private theorem recovers_of_fault {limit : Int} {source : String} {f : Fault}
    (read : ofSource limit source = ⟨[], .fault f⟩)
    (missing : (∃ fault, Token.ofSource source = .error fault) ∨ ∃ tokens,
      Token.ofSource source = .ok tokens ∧
        (Token.Exceeds limit tokens ∨ Token.startsRoot tokens = false))
    (located : ∀ tokens, Token.ofSource source = .ok tokens → ∃ t ∈ tokens, f.position = t.start) :
    Recovers limit source where
  settles r := by simp [read]
  succeeds := by simp [read, Attempt.succeeds, Attempt.value?, Attempt.faults]
  missing := iff_of_true (by simp [read, Attempt.value?]) missing
  fatal _ := by simp [read, Attempt.faults]
  located tokens found := by simpa [read, Attempt.faults] using located tokens found

/-- Reading recovers from every fault of a source without an infinite count. -/
theorem ofSource_recovers (limit : Int) (source : String)
    (counts : ∀ tokens, Token.ofSource source = .ok tokens → Token.FiniteCounts tokens) :
    Recovers limit source := by
  cases found : Token.ofSource source with
  | error fault =>
      refine recovers_of_fault (f := ⟨.lexical fault.cause, fault.position⟩) ?_
        (Or.inl ⟨fault, found⟩)
        fun tokens same => by simp [found] at same
      rw [ofSource, found]
  | ok tokens =>
      have whole : ofSource limit source = ofTokens limit tokens := by rw [ofSource, found]
      by_cases none : Token.Exceeds limit tokens ∨ Token.startsRoot tokens = false
      · obtain ⟨front, same, inner⟩ := Token.ofChars_eq_append_eof found
        obtain ⟨cause, t, member, fails⟩ := ofTokens_fails inner (same ▸ none)
        rw [← same] at member fails
        refine recovers_of_fault (whole.trans fails) (Or.inr ⟨tokens, found, none⟩)
          fun tokens' same' => ?_
        obtain rfl := Except.ok.inj (found.symm.trans same')
        exact ⟨t, member, rfl⟩
      · rw [not_or, Bool.not_eq_false] at none
        obtain ⟨noted, d, value⟩ := yields_of_startsRoot found (counts tokens found) none.1 none.2
        rw [← whole] at noted value
        refine ⟨fun r => by simp [value], ?_, ?_, ?_, fun tokens' same => ?_⟩
        · simp [Attempt.succeeds, Attempt.value?, Attempt.faults, value]
        · simp [Attempt.value?, value, found, none]
        · simp [Attempt.value?, value]
        · obtain rfl := Except.ok.inj (found.symm.trans same)
          simpa [Attempt.faults, value] using noted

theorem ofSource_recovers_repeat : Recovers 10 "(wire (layout a (repeat :count 2.5 (box)))" := by
  have tokens : Token.ofSource "(wire (layout a (repeat :count 2.5 (box)))" =
      .ok [⟨.openParen, "(", ⟨1, 1⟩, ⟨1, 2⟩⟩, ⟨.symbol, "wire", ⟨1, 2⟩, ⟨1, 6⟩⟩,
        ⟨.openParen, "(", ⟨1, 7⟩, ⟨1, 8⟩⟩, ⟨.symbol, "layout", ⟨1, 8⟩, ⟨1, 14⟩⟩,
        ⟨.symbol, "a", ⟨1, 15⟩, ⟨1, 16⟩⟩, ⟨.openParen, "(", ⟨1, 17⟩, ⟨1, 18⟩⟩,
        ⟨.symbol, "repeat", ⟨1, 18⟩, ⟨1, 24⟩⟩, ⟨.keyword, "count", ⟨1, 25⟩, ⟨1, 31⟩⟩,
        ⟨.number, "2.5", ⟨1, 32⟩, ⟨1, 35⟩⟩, ⟨.openParen, "(", ⟨1, 36⟩, ⟨1, 37⟩⟩,
        ⟨.symbol, "box", ⟨1, 37⟩, ⟨1, 40⟩⟩, ⟨.closeParen, ")", ⟨1, 40⟩, ⟨1, 41⟩⟩,
        ⟨.closeParen, ")", ⟨1, 41⟩, ⟨1, 42⟩⟩, ⟨.closeParen, ")", ⟨1, 42⟩, ⟨1, 43⟩⟩,
        Token.eof ⟨1, 43⟩] := by
    cbv
  refine ofSource_recovers 10 _ fun found same => ?_
  obtain rfl := Except.ok.inj (tokens.symm.trans same)
  decide +kernel

end Document
end Wireframe
