import Wireframe.Proofs.Numerals
import Wireframe.Reading.Document

/-!
# Faults

What can be said of an attempt, whatever comes of it: it is not refused, and each of its faults
belongs to a class.  A class that admits the faults of words at the tokens of a form holds all
faults of the form but those of nesting, which depend on where the forms in it stand.
-/

namespace Wireframe

/-- Whether a cause is about where forms stand and end, and not about the words in them. -/
def FaultCause.isNesting : FaultCause → Bool
  | misplacedOverlay _ | misplacedForm _ | childrenOfLeaf _ | unclosed _ => true
  | _ => false

variable {α β : Type} {Φ : Fault → Prop} {Q : α → Prop} {R : β → Prop}

/-- Whether an outcome is a value or a fault of given classes. -/
def Outcome.Meets (Φ : Fault → Prop) (Q : α → Prop) : Outcome α → Prop
  | value a => Q a
  | fault f => Φ f
  | refused _ => False

namespace Attempt

/-- Whether an attempt is not refused, has faults of a class only, and reads values of a class
only. -/
structure Meets (Φ : Fault → Prop) (Q : α → Prop) (x : Attempt α) : Prop where
  noted : ∀ f ∈ x.noted, Φ f
  outcome : x.outcome.Meets Φ Q

/-- Whether an attempt is not refused and has faults of a class only. -/
def Within (Φ : Fault → Prop) (x : Attempt α) : Prop :=
  x.Meets Φ fun _ => True

theorem Meets.pure {a : α} (holds : Q a) : (Pure.pure a : Attempt α).Meets Φ Q :=
  ⟨by simp, holds⟩

theorem Meets.fail {cause : FaultCause} {t : Token} (admitted : Φ ⟨cause, t.start⟩) :
    (Attempt.fail cause t : Attempt α).Meets Φ Q :=
  ⟨by simp [Attempt.fail], admitted⟩

theorem Meets.note {cause : FaultCause} {t : Token} (admitted : Φ ⟨cause, t.start⟩) :
    (Attempt.note cause t).Within Φ :=
  ⟨by simpa [Attempt.note] using admitted, trivial⟩

theorem Meets.mono {Q' : α → Prop} {x : Attempt α} (meets : x.Meets Φ Q)
    (weaker : ∀ a, Q a → Q' a) : x.Meets Φ Q' := by
  obtain ⟨noted, outcome⟩ := x
  refine ⟨meets.noted, ?_⟩
  cases outcome with
  | value a => exact weaker a meets.outcome
  | fault f => exact meets.outcome
  | refused r => exact meets.outcome

theorem Meets.within {x : Attempt α} (meets : x.Meets Φ Q) : x.Within Φ :=
  meets.mono fun _ _ => trivial

theorem Meets.bind {x : Attempt α} {f : α → Attempt β} (before : x.Meets Φ Q)
    (later : ∀ a, Q a → (f a).Meets Φ R) : (x >>= f).Meets Φ R := by
  obtain ⟨noted, outcome⟩ := x
  cases outcome with
  | value a =>
      obtain ⟨notedLater, outcomeLater⟩ := later a before.outcome
      refine ⟨fun fault member => ?_, outcomeLater⟩
      rcases List.mem_append.mp member with early | late
      · exact before.noted fault early
      · exact notedLater fault late
  | fault f => exact ⟨before.noted, before.outcome⟩
  | refused r => exact before.outcome.elim

theorem Meets.recover {x : Attempt α} (meets : x.Meets Φ Q) :
    x.recover.Meets Φ fun a => ∀ b ∈ a, Q b := by
  obtain ⟨noted, outcome⟩ := x
  cases outcome with
  | value a =>
      refine ⟨meets.noted, fun b same => ?_⟩
      obtain rfl : a = b := by simpa using same
      exact meets.outcome
  | fault f =>
      refine ⟨fun fault member => ?_, fun b same => by simp at same⟩
      rcases List.mem_append.mp member with early | last
      · exact meets.noted fault early
      · rw [List.mem_singleton.mp last]
        exact meets.outcome
  | refused r => exact meets.outcome.elim

/-- Whether an attempt reads a value and has faults of a class only. -/
structure Yields (Φ : Fault → Prop) (x : Attempt α) : Prop where
  noted : ∀ f ∈ x.noted, Φ f
  value : ∃ a, x.outcome = .value a

theorem Yields.pure (a : α) : (Pure.pure a : Attempt α).Yields Φ :=
  ⟨by simp, a, rfl⟩

theorem Yields.note {cause : FaultCause} {t : Token} (admitted : Φ ⟨cause, t.start⟩) :
    (Attempt.note cause t).Yields Φ :=
  ⟨by simpa [Attempt.note] using admitted, (), rfl⟩

theorem Yields.bind {x : Attempt α} {f : α → Attempt β} (before : x.Yields Φ)
    (later : ∀ a, (f a).Yields Φ) : (x >>= f).Yields Φ := by
  obtain ⟨noted, outcome⟩ := x
  obtain ⟨early, a, rfl⟩ := before
  obtain ⟨late, value⟩ := later a
  refine ⟨fun fault member => ?_, value⟩
  rcases List.mem_append.mp member with inEarly | inLate
  · exact early fault inEarly
  · exact late fault inLate

/-- An attempt that is recovered from reads a value, unless it is refused. -/
theorem Within.yields_recover {x : Attempt α} (within : x.Within Φ) : x.recover.Yields Φ := by
  refine ⟨within.recover.noted, ?_⟩
  obtain ⟨noted, outcome⟩ := x
  cases outcome with
  | value a => exact ⟨some a, rfl⟩
  | fault f => exact ⟨none, rfl⟩
  | refused r => exact within.outcome.elim

end Attempt

/-- Whether a token can be read, and a class of faults admits those of words at it. -/
structure Token.Sound (Φ : Fault → Prop) (t : Token) : Prop where
  /-- The token stands at a place that a source has. -/
  proper : t.start.isProper = true
  /-- A number denotes a double. -/
  readable : t.kind = .number → ∃ d, Numeral.toDouble? t.value = some d ∧ d.IsRounded
  /-- The class has the faults of words at the token. -/
  admits : ∀ cause : FaultCause, cause.isNesting = false → Φ ⟨cause, t.start⟩

/-- Whether no number behind a `count` keyword is infinite. -/
def Token.FiniteCounts (tokens : List Token) : Prop :=
  ∀ key number, [key, number] <:+: tokens → key.kind = .keyword → key.value = "count" →
    number.kind = .number → ∀ negative, Numeral.toDouble? number.value ≠ some (.infinite negative)

theorem Token.FiniteCounts.of_isInfix {tokens inner : List Token} (counts : FiniteCounts tokens)
    (inside : inner <:+: tokens) : FiniteCounts inner :=
  fun key number adjacent => counts key number (adjacent.trans inside)

theorem Token.finiteCounts_iff {tokens : List Token} :
    FiniteCounts tokens ↔ ∀ pair ∈ tokens.zip tokens.tail, pair.1.kind = .keyword →
      pair.1.value = "count" → pair.2.kind = .number →
        ∀ negative, Numeral.toDouble? pair.2.value ≠ some (.infinite negative) := by
  have zip (key number : Token) :
      [key, number] <:+: tokens ↔ (key, number) ∈ tokens.zip tokens.tail := by
    induction tokens with
    | nil => simp
    | cons t rest ih =>
        rw [List.infix_cons_iff, ih]
        cases rest with
        | nil => simp
        | cons u rest => simp
  constructor
  · exact fun counts pair member => counts pair.1 pair.2 ((zip _ _).mpr member)
  · exact fun counts key number adjacent => counts (key, number) ((zip _ _).mp adjacent)

instance (tokens : List Token) : Decidable (Token.FiniteCounts tokens) :=
  decidable_of_iff _ Token.finiteCounts_iff.symm

namespace Token

/-- Whether a token opens or closes a list. -/
def IsParen (t : Token) : Prop :=
  t.kind = .openParen ∨ t.kind = .closeParen

/-- Whether no repetition has an infinite number behind a `count` keyword: of the lists that begin
among tokens, only those with the name of a repetition matter, and of these only the atoms at the
head. -/
def FiniteRepeats (tokens : List Token) : Prop :=
  ∀ opener name atoms key number, opener :: name :: (atoms ++ [key, number]) <:+: tokens →
    opener.kind = .openParen → name.isSymbol Schema.repeatForm = true →
      (∀ t ∈ atoms, ¬t.IsParen) → key.kind = .keyword → key.value = "count" →
        number.kind = .number →
          ∀ negative, Numeral.toDouble? number.value ≠ some (.infinite negative)

variable {tokens inner : List Token}

theorem kind_of_isSymbol {t : Token} {name : String} (symbol : t.isSymbol name = true) :
    t.kind = .symbol := by
  simp only [isSymbol, Bool.and_eq_true, beq_iff_eq] at symbol
  exact symbol.1

theorem FiniteCounts.repeats (counts : FiniteCounts tokens) : FiniteRepeats tokens := by
  intro opener name atoms key number inside _ _ _
  exact counts key number (List.IsInfix.trans ⟨opener :: name :: atoms, [], by simp⟩ inside)

theorem FiniteRepeats.of_isInfix (counts : FiniteRepeats tokens) (inside : inner <:+: tokens) :
    FiniteRepeats inner :=
  fun opener name atoms key number within =>
    counts opener name atoms key number (within.trans inside)

end Token

namespace Attempt

variable {t : Token}

theorem Meets.expect {wanted : TokenKind} (sound : t.Sound Φ) :
    (expect wanted t).Meets Φ fun u => t = u ∧ t.kind = wanted := by
  unfold Attempt.expect
  split
  · rename_i same
    exact .pure ⟨rfl, same⟩
  · exact .fail (sound.admits _ rfl)

theorem Meets.place {closer : Token} (sound : t.Sound Φ) : (place t closer).Within Φ := by
  rw [place_of_isProper sound.proper]
  exact .pure trivial

end Attempt

/-! ## Values -/

section Values

variable {t key next : Token}

theorem Literal.within_ofToken (sound : t.Sound Φ) : (Literal.ofToken t).Within Φ := by
  unfold Literal.ofToken
  split
  · rename_i number
    obtain ⟨d, denotes, -⟩ := sound.readable number
    rw [Number.ofText, denotes]
    exact .pure trivial
  · exact .pure trivial
  · exact .pure trivial

theorem PropValue.within_ofToken (type : Option PropType) (sound : t.Sound Φ) :
    (PropValue.ofToken type t).Within Φ := by
  unfold PropValue.ofToken
  split
  · exact .pure trivial
  · exact .pure trivial
  · split
    · exact .pure trivial
    · exact (Literal.within_ofToken sound).bind fun _ _ => .pure trivial

theorem PropValue.within_targetOfToken (sound : t.Sound Φ) :
    (PropValue.targetOfToken t).Within Φ := by
  unfold PropValue.targetOfToken
  split
  · exact .pure trivial
  · exact .pure trivial
  · exact .pure trivial
  · exact .pure trivial
  · exact .pure trivial
  · exact .fail (sound.admits _ rfl)

theorem PropValue.within_read (definition : Option PropDef) (sound : next.Sound Φ) :
    (PropValue.read definition next).Within Φ := by
  unfold PropValue.read
  split
  · exact (within_targetOfToken sound).bind fun _ _ => .pure trivial
  · split
    · exact (within_ofToken _ sound).bind fun _ _ => .pure trivial
    · exact .pure trivial

theorem within_readProperty (known : Table PropDef) (props : Table PropValue)
    (sound : next.Sound Φ) : (readProperty known props key next).Within Φ :=
  (PropValue.within_read _ sound).bind fun _ _ => .pure trivial

theorem within_readFact (facts : Table Scalar) (sound : next.Sound Φ) :
    (readFact facts key next).Within Φ := by
  unfold readFact
  split
  · split
    · exact .pure trivial
    · exact (Literal.within_ofToken sound).bind fun _ _ => .pure trivial
  · exact .pure trivial

/-- The keywords that come next are read within a class if each of them is. -/
theorem meets_readClauses {σ : Type} {after : Token}
    {step : σ → Token → Token → Attempt (Option (σ × Bool))} {left : List Token}
    (each : ∀ s key next, [key, next] <:+: left ++ [after] → key.kind = .keyword →
      (step s key next).Within Φ) (s : σ) :
    (readClauses after step s left).Meets Φ fun result => result.2 <:+ left := by
  fun_induction readClauses after step s left with
  | case1 s => exact .pure List.suffix_rfl
  | case2 s key keyword =>
      refine (each s key after (by simp) keyword).bind fun result _ => ?_
      cases result with
      | none => exact .pure List.suffix_rfl
      | some result => exact .pure (List.suffix_cons key [])
  | case3 s key other => exact .pure List.suffix_rfl
  | case4 s key next rest keyword used unused =>
      have inside : [key, next] <:+: key :: next :: rest ++ [after] :=
        ⟨[], rest ++ [after], by simp⟩
      refine (each s key next inside keyword).bind fun result _ => ?_
      match result with
      | none => exact .pure List.suffix_rfl
      | some (state, true) =>
          refine (used state fun s key' next' adjacent => ?_).mono fun result behind => ?_
          · exact each s key' next' (adjacent.trans ⟨[key, next], [], by simp⟩)
          · exact behind.trans ⟨[key, next], rfl⟩
      | some (state, false) =>
          refine (unused state fun s key' next' adjacent => ?_).mono fun result behind => ?_
          · exact each s key' next' (adjacent.trans ⟨[key], [], by simp⟩)
          · exact behind.trans ⟨[key], rfl⟩
  | case5 s key next rest other => exact .pure List.suffix_rfl

end Values

namespace Parts

/-- Whether the tokens between the parts of a list are sound. -/
structure Sound (Φ : Fault → Prop) (p : Parts) : Prop where
  opener : p.opener.Sound Φ
  head : ∀ t ∈ p.head, t.Sound Φ
  nested : ∀ n ∈ p.nested, n.opener.Sound Φ
  next : p.next.Sound Φ
  /-- What comes behind the head is no symbol, which would be part of it. -/
  ends : p.afterHead.kind ≠ .symbol
  /-- No count is infinite where the list has the name of a repetition. -/
  counts : ∀ name ∈ p.head.head?, name.isSymbol Schema.repeatForm = true →
    Token.FiniteCounts (p.head ++ [p.afterHead])

variable {p : Parts} {left : List Token}

namespace Sound

variable (sound : p.Sound Φ)
include sound

theorem afterHead : p.afterHead.Sound Φ := by
  unfold Parts.afterHead
  cases forms : p.nested with
  | nil => exact sound.next
  | cons n rest => exact sound.nested n (by simp [forms])

theorem current (atoms : left <:+ p.head) : (p.current left).Sound Φ := by
  cases left with
  | nil => exact sound.afterHead
  | cons t left => exact sound.head t (atoms.mem List.mem_cons_self)

theorem closing (atoms : left <:+ p.head) : (p.closing left).Sound Φ := by
  cases left with
  | nil => exact sound.next
  | cons t left => exact sound.head t (atoms.mem List.mem_cons_self)

theorem meets_symbol (atoms : left <:+ p.head) :
    (p.symbol left).Meets Φ fun result =>
      ∃ t, left = t :: result.2 ∧ t.kind = .symbol ∧ t.value = result.1 := by
  refine (Attempt.Meets.expect (sound.current atoms)).bind fun t ⟨same, symbol⟩ => .pure ?_
  subst same
  cases left with
  | nil => exact absurd symbol sound.ends
  | cons t left => exact ⟨t, rfl, symbol, rfl⟩

/-- The clauses of a list are read within a class if each of them is. -/
theorem meets_clauses {σ : Type} {step : σ → Token → Token → Attempt (Option (σ × Bool))}
    (atoms : left <:+ p.head)
    (each : ∀ s key next, key.Sound Φ → next.Sound Φ →
      [key, next] <:+: p.head ++ [p.afterHead] → key.kind = .keyword →
        (step s key next).Within Φ) (s : σ) :
    (readClauses p.afterHead step s left).Meets Φ fun result => result.2 <:+ p.head := by
  have all : ∀ t ∈ left ++ [p.afterHead], t.Sound Φ := by
    intro t member
    rcases List.mem_append.mp member with inLeft | last
    · exact sound.head t (atoms.mem inLeft)
    · rw [List.mem_singleton.mp last]
      exact sound.afterHead
  have within : left ++ [p.afterHead] <:+: p.head ++ [p.afterHead] := by
    obtain ⟨front, split⟩ := atoms
    exact ⟨front, [], by simp [← split]⟩
  refine (meets_readClauses (fun s key next adjacent keyword => ?_) s).mono
    fun result behind => behind.trans atoms
  refine each s key next (all key ?_) (all next ?_) (adjacent.trans within) keyword
  · exact adjacent.mem (by simp)
  · exact adjacent.mem (by simp)

end Sound

/-! ## Nodes -/

theorem within_readNested {nested : List Nested} (children : ∀ n ∈ nested, n.child.Within Φ) :
    (readNested nested).Within Φ := by
  induction nested with
  | nil => exact .pure trivial
  | cons n rest ih =>
      refine (children n List.mem_cons_self).recover.bind fun _ _ => ?_
      refine (ih fun m later => children m (List.mem_cons_of_mem n later)).bind fun _ _ => ?_
      exact .pure trivial

theorem upcoming_sublist (p : Parts) (left : List Token) {n : Nested}
    (member : n ∈ p.upcoming left) :
    n ∈ p.nested := by
  cases left with
  | nil => exact member
  | cons t left => simp [upcoming] at member

theorem content_suffix (schema : ElementSchema) (left : List Token) :
    (content schema left).2 <:+ left := by
  cases left with
  | nil => exact List.suffix_rfl
  | cons t rest =>
      rw [content]
      split
      · exact List.suffix_cons t rest
      · split
        · exact List.suffix_cons t rest
        · exact List.suffix_rfl

theorem meets_element (closing : (p.closing left).Sound Φ)
    (children : ∀ n ∈ p.nested, n.child.Within Φ) :
    (p.element left).Meets Φ fun result => ∀ n ∈ result.2, n ∈ p.nested := by
  unfold element
  split
  · rename_i n rest forms
    have inside : ∀ m ∈ n :: rest, m ∈ p.nested := by
      intro m member
      exact p.upcoming_sublist left (forms ▸ member)
    refine (children n (inside n List.mem_cons_self)).bind fun _ _ => .pure ?_
    exact fun m later => inside m (List.mem_cons_of_mem n later)
  · exact .fail (closing.admits _ rfl)

theorem within_closeBody (next : p.next.Sound Φ) (form : String) {nested : List Nested}
    (openers : ∀ n ∈ nested, n.opener.Sound Φ) : (p.closeBody form nested).Within Φ := by
  cases nested with
  | nil => exact (Attempt.Meets.expect next).within
  | cons n rest => exact .fail ((openers n List.mem_cons_self).admits _ rfl)

/-- A count that is a finite number is read, though it may not be whole. -/
theorem within_repeatOption (s : RepeatOptions) {key next : Token} (isNext : next.Sound Φ)
    (counts : Token.FiniteCounts [key, next]) (keyword : key.kind = .keyword) :
    (repeatOption s key next).Within Φ := by
  unfold repeatOption
  split
  · rename_i isCount
    split
    · rename_i number
      obtain ⟨d, denotes, rounded⟩ := isNext.readable number
      have finite : d.isFinite = true := by
        cases d with
        | finite => rfl
        | infinite negative =>
            exact absurd denotes (counts key next List.infix_rfl keyword isCount number negative)
        | nan => exact rounded.elim
      obtain ⟨⟨n, times⟩, whole⟩ := Number.toInt_normalize rounded finite
      rw [Number.ofText, denotes]
      simp only [Attempt.ofValue, pure_bind, times, whole]
      split
      · exact (Attempt.Meets.note (isNext.admits _ rfl)).bind fun _ _ => .pure trivial
      · exact .pure trivial
    · exact .pure trivial
    · exact (Attempt.Meets.note (isNext.admits _ rfl)).bind fun _ _ => .pure trivial
  · split
    · split
      · exact .pure trivial
      · exact (Attempt.Meets.note (isNext.admits _ rfl)).bind fun _ _ => .pure trivial
    · exact .pure trivial

section Nodes

variable (sound : p.Sound Φ) (children : ∀ n ∈ p.nested, n.child.Within Φ)
include sound children

omit sound in
theorem within_children (schema : ElementSchema) {nested : List Nested}
    (inside : ∀ n ∈ nested, n ∈ p.nested)
    (leaf : schema.takesChildren = false →
      ∀ n ∈ p.nested, Φ ⟨.childrenOfLeaf schema.name, n.opener.start⟩) :
    (Parts.children schema nested).Within Φ := by
  have nodes : (readNested nested).Within Φ :=
    within_readNested fun n member => children n (inside n member)
  unfold Parts.children
  split
  · exact .pure trivial
  · rename_i n rest
    split
    · exact nodes
    · rename_i takesNone
      have admitted := leaf (by simpa using takesNone) n (inside n List.mem_cons_self)
      exact (Attempt.Meets.note admitted).bind fun _ _ => nodes.bind fun _ _ => .pure trivial

theorem within_toElement (name : String) (atoms : left <:+ p.head)
    (leaf : (Schema.element name).takesChildren = false →
      ∀ n ∈ p.nested, Φ ⟨.childrenOfLeaf name, n.opener.start⟩) :
    (p.toElement name left).Within Φ := by
  have behind : (content (Schema.element name) left).2 <:+ p.head :=
    (content_suffix _ left).trans atoms
  refine (sound.meets_clauses behind (fun props key next _ isNext _ _ =>
    within_readProperty _ props isNext) Table.empty).bind fun ⟨props, left'⟩ atoms' => ?_
  rw [← Schema.element_name name] at leaf
  refine (within_children children _ (fun n => p.upcoming_sublist left') ?_).bind fun _ _ => ?_
  · rwa [Schema.element_name] at leaf ⊢
  refine (Attempt.Meets.expect (sound.closing atoms')).bind fun _ _ => ?_
  exact (Attempt.Meets.place sound.opener).bind fun _ _ => .pure trivial

theorem within_toRepetition (atoms : left <:+ p.head)
    (counts : Token.FiniteCounts (p.head ++ [p.afterHead])) : (p.toRepetition left).Within Φ := by
  refine (sound.meets_clauses atoms (fun s key next _ isNext adjacent keyword =>
    within_repeatOption s isNext (counts.of_isInfix adjacent) keyword) _).bind
      fun ⟨options, left'⟩ atoms' => ?_
  refine (meets_element (sound.closing atoms') children).bind fun ⟨body, nested⟩ inside => ?_
  refine (within_closeBody sound.next _ fun n member =>
    sound.nested n (inside n member)).bind fun _ _ => ?_
  exact (Attempt.Meets.place sound.opener).bind fun _ _ => .pure trivial

/-- Whether a class has the faults of a list for where it stands and what stands in it. -/
structure Grants (Φ : Fault → Prop) (p : Parts) : Prop where
  overlay : ∀ t ∈ p.head.head?, t.kind = .symbol → t.value ∈ Schema.overlayForms →
    Φ ⟨.misplacedOverlay t.value, p.opener.start⟩
  topLevel : ∀ t ∈ p.head.head?, t.kind = .symbol → t.value ∈ Schema.topLevelForms →
    Φ ⟨.misplacedForm t.value, t.start⟩
  leaf : ∀ t ∈ p.head.head?, t.kind = .symbol →
    (Schema.element t.value).takesChildren = false →
      ∀ n ∈ p.nested, Φ ⟨.childrenOfLeaf t.value, n.opener.start⟩

theorem within_toChild (grants : p.Grants Φ) : p.toChild.Within Φ := by
  refine (sound.meets_symbol List.suffix_rfl).bind fun ⟨name, left⟩ ⟨t, head, symbol, named⟩ => ?_
  simp only at head named ⊢
  subst named
  have first : t ∈ p.head.head? := by simp [head]
  have atoms : left <:+ p.head := head ▸ List.suffix_cons t left
  split
  · rename_i isRepeat
    have counts := sound.counts t first (by simp [Token.isSymbol, symbol, isRepeat])
    exact (within_toRepetition sound children atoms counts).bind fun _ _ => .pure trivial
  · split
    · rename_i overlay
      exact .fail (grants.overlay t first symbol (by simpa using overlay))
    · split
      · rename_i top
        have here : p.current p.head = t := by simp [current, head]
        rw [here]
        exact .fail (grants.topLevel t first symbol (by simpa using top))
      · exact (within_toElement sound children _ atoms (grants.leaf t first symbol)).bind fun _ _ =>
          .pure trivial

omit children in
theorem within_toInclude (atoms : left <:+ p.head) : (p.toInclude left).Within Φ := by
  have behind : left.tail <:+ p.head := (List.tail_suffix left).trans atoms
  unfold toInclude
  simp only
  split
  · exact .fail ((sound.current atoms).admits _ rfl)
  · refine (Attempt.Meets.expect (sound.current behind)).bind fun _ _ => ?_
    exact (Attempt.Meets.place sound.opener).bind fun _ _ => .pure trivial

omit children in
theorem within_toFacts (atoms : left <:+ p.head) : (p.toFacts left).Within Φ := by
  refine (sound.meets_clauses atoms (fun facts key next _ isNext _ _ =>
    within_readFact facts isNext) Table.empty).bind fun ⟨facts, left'⟩ atoms' => ?_
  exact (Attempt.Meets.expect (sound.current atoms')).bind fun _ _ => .pure trivial

theorem within_toLayout (atoms : left <:+ p.head) : (p.toLayout left).Within Φ := by
  refine (sound.meets_symbol atoms).bind fun ⟨name, left'⟩ ⟨t, split, _⟩ => ?_
  have atoms' : left' <:+ p.head := (split ▸ List.suffix_cons t left').trans atoms
  refine (meets_element (sound.closing atoms') children).bind fun ⟨body, nested⟩ inside => ?_
  refine (within_closeBody sound.next _ fun n member =>
    sound.nested n (inside n member)).bind fun _ _ => ?_
  exact (Attempt.Meets.place sound.opener).bind fun _ _ => .pure trivial

omit sound children in
theorem within_overlayOption (s : OverlayOptions) {key next : Token} (isKey : key.Sound Φ)
    (isNext : next.Sound Φ) : (overlayOption s key next).Within Φ := by
  unfold overlayOption
  split
  · split
    · exact .pure trivial
    · exact (Attempt.Meets.note (isKey.admits _ rfl)).bind fun _ _ => .pure trivial
  · exact (PropValue.within_read _ isNext).bind fun _ _ => .pure trivial

theorem within_toOverlay (kind : OverlayKind) : (p.toOverlay kind).Within Φ := by
  refine (sound.meets_clauses (List.tail_suffix p.head) (fun s key next isKey isNext _ _ =>
    within_overlayOption s isKey isNext) _).bind fun ⟨options, left⟩ atoms => ?_
  refine (within_readNested fun n member =>
    children n (p.upcoming_sublist left member)).bind fun _ _ => ?_
  refine (Attempt.Meets.expect (sound.closing atoms)).bind fun _ _ => ?_
  have located : ∀ id children closer, (do
      let location ← Attempt.place p.opener closer
      return (⟨kind, id, options.props, children, some location⟩ : Overlay)).Within Φ :=
    fun _ _ _ => (Attempt.Meets.place sound.opener).bind fun _ _ => .pure trivial
  split
  · exact (Attempt.Meets.note (sound.opener.admits _ rfl)).bind fun _ _ => located _ _ _
  · exact located _ _ _

end Nodes

section Entries

variable (sound : p.Sound Φ)
include sound

/-- The parameters of a component are read from the first form nested in it, the body from the
second. -/
theorem within_toComponent (atoms : left <:+ p.head)
    (params : ∀ n ∈ p.nested.head?, (Parts.params n.form).Within Φ)
    (children : ∀ n ∈ p.nested.tail, n.child.Within Φ) : (p.toComponent left).Within Φ := by
  refine (sound.meets_symbol atoms).bind fun ⟨name, left'⟩ ⟨t, split, _⟩ => ?_
  have atoms' : left' <:+ p.head := (split ▸ List.suffix_cons t left').trans atoms
  simp only
  split
  · exact .fail ((sound.closing atoms').admits _ rfl)
  · rename_i n rest upcoming
    have nested : p.nested = n :: rest := by
      cases left' with
      | nil => exact upcoming
      | cons u left' => simp [Parts.upcoming] at upcoming
    rw [nested] at params children
    refine (params n rfl).bind fun _ _ => ?_
    refine (meets_element (p := { p with nested := rest }) sound.next children).bind
      fun body inside => ?_
    refine (within_closeBody sound.next _ fun m member => sound.nested m ?_).bind fun _ _ => ?_
    · rw [nested]
      exact List.mem_cons_of_mem n (inside m member)
    · exact (Attempt.Meets.place sound.opener).bind fun _ _ => .pure trivial

omit sound in
theorem within_screenOption (s : ScreenOptions) {key next : Token} (isKey : key.Sound Φ)
    (isNext : next.Sound Φ) : (screenOption s key next).Within Φ := by
  unfold screenOption
  split
  · exact .pure trivial
  · split
    · exact (Attempt.Meets.expect isNext).bind fun _ _ => .pure trivial
    · exact (Attempt.Meets.note (isKey.admits _ rfl)).bind fun _ _ => .pure trivial

omit sound in
theorem title_suffix (left : List Token) : (title left).2 <:+ left := by
  cases left with
  | nil => exact List.suffix_rfl
  | cons t rest =>
      rw [title]
      split
      · exact List.suffix_cons t rest
      · exact List.suffix_rfl

omit sound in
theorem within_screenForms (screen : String) {nested : List Nested}
    (openers : ∀ n ∈ nested, n.opener.Sound Φ)
    (overlays : ∀ n ∈ nested, ∀ kind ∈ overlayKind? n.form,
      (n.form.parts.toOverlay kind).Within Φ)
    (children : ∀ n ∈ nested, overlayKind? n.form = none → n.child.Within Φ)
    (root : Option Element) : (screenForms screen root nested).Within Φ := by
  induction nested generalizing root with
  | nil => exact .pure trivial
  | cons n rest ih =>
      have later := ih (fun m member => openers m (List.mem_cons_of_mem n member))
        (fun m member => overlays m (List.mem_cons_of_mem n member))
        (fun m member => children m (List.mem_cons_of_mem n member))
      rw [screenForms.eq_def]
      simp only
      cases kind? : overlayKind? n.form with
      | some kind =>
          refine (overlays n List.mem_cons_self kind kind?).recover.bind fun _ _ => ?_
          exact (later root).bind fun _ _ => .pure trivial
      | none =>
          cases root with
          | none =>
              refine (children n List.mem_cons_self kind?).recover.bind fun _ _ => ?_
              exact later _
          | some root =>
              refine (Attempt.Meets.note ?_).bind fun _ _ => later _
              exact (openers n List.mem_cons_self).admits _ rfl

theorem within_toScreen (atoms : left <:+ p.head)
    (overlays : ∀ n ∈ p.nested, ∀ kind ∈ overlayKind? n.form,
      (n.form.parts.toOverlay kind).Within Φ)
    (children : ∀ n ∈ p.nested, overlayKind? n.form = none → n.child.Within Φ) :
    (p.toScreen left).Within Φ := by
  refine (sound.meets_symbol atoms).bind fun ⟨id, left'⟩ ⟨t, split, _⟩ => ?_
  have behind : (title left').2 <:+ p.head :=
    (title_suffix left').trans ((split ▸ List.suffix_cons t left').trans atoms)
  refine (sound.meets_clauses behind (fun s key next isKey isNext _ _ =>
    within_screenOption s isKey isNext) _).bind fun ⟨options, left''⟩ atoms' => ?_
  have inside : ∀ n ∈ p.upcoming left'', n ∈ p.nested :=
    fun n member => p.upcoming_sublist left'' member
  refine (within_screenForms id (fun n member => sound.nested n (inside n member))
    (fun n member => overlays n (inside n member))
    (fun n member => children n (inside n member)) none).bind fun ⟨root, _⟩ _ => ?_
  refine (Attempt.Meets.expect (sound.closing atoms')).bind fun _ _ => ?_
  cases root with
  | none => exact .fail (sound.opener.admits _ rfl)
  | some root => exact (Attempt.Meets.place sound.opener).bind fun _ _ => .pure trivial

/-- Whether the forms nested in a top-level form are read within a class in the way that its name
has them read. -/
structure Inner (Φ : Fault → Prop) (p : Parts) : Prop where
  params : ∀ t ∈ p.head.head?, t.kind = .symbol → t.value = Schema.defineForm →
    ∀ n ∈ p.nested.head?, (Parts.params n.form).Within Φ
  component : ∀ t ∈ p.head.head?, t.kind = .symbol → t.value = Schema.defineForm →
    ∀ n ∈ p.nested.tail, n.child.Within Φ
  layout : ∀ t ∈ p.head.head?, t.kind = .symbol → t.value = "layout" →
    ∀ n ∈ p.nested, n.child.Within Φ
  overlays : ∀ t ∈ p.head.head?, t.kind = .symbol → t.value = Schema.screenForm →
    ∀ n ∈ p.nested, ∀ kind ∈ overlayKind? n.form, (n.form.parts.toOverlay kind).Within Φ
  roots : ∀ t ∈ p.head.head?, t.kind = .symbol → t.value = Schema.screenForm →
    ∀ n ∈ p.nested, overlayKind? n.form = none → n.child.Within Φ

theorem within_toEntry? (inner : p.Inner Φ) : p.toEntry?.Within Φ := by
  refine (sound.meets_symbol List.suffix_rfl).bind fun ⟨name, left⟩ ⟨t, head, symbol, named⟩ => ?_
  simp only at head named ⊢
  have first : t ∈ p.head.head? := by simp [head]
  have atoms : left <:+ p.head := head ▸ List.suffix_cons t left
  split
  · exact (within_toInclude sound atoms).bind fun _ _ => .pure trivial
  · exact (within_toFacts sound atoms).bind fun _ _ => .pure trivial
  · exact (within_toComponent sound atoms (inner.params t first symbol named)
      (inner.component t first symbol named)).bind fun _ _ => .pure trivial
  · exact (within_toLayout sound (inner.layout t first symbol named) atoms).bind
      fun _ _ => .pure trivial
  · exact (within_toScreen sound atoms (inner.overlays t first symbol named)
      (inner.roots t first symbol named)).bind fun _ _ => .pure trivial
  · exact (Attempt.Meets.note (sound.opener.admits _ rfl)).bind fun _ _ => .pure trivial

end Entries

end Parts
end Wireframe
