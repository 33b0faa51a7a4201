import Wireframe.Document.Basic
import Wireframe.Token.Source

/-!
# Attempts to read

Reading goes on after a fault: some faults are only noted, others end the form they stand in, which
is then left out.  An attempt keeps the faults noted on the way, whatever comes of it.  A document
can also be refused outright, by a number that no document may hold or a place that no source has.
-/

namespace Wireframe

/-- What is wrong with a source. -/
inductive FaultCause where
  /-- A token of another kind was needed. -/
  | expectedKind (wanted found : TokenKind) (value : String)
  /-- Another symbol was needed. -/
  | expectedWord (wanted found : String)
  /-- A form with one body has a second one. -/
  | secondBody (form : String)
  /-- An include has no path. -/
  | includePath
  /-- A screen has a second root. -/
  | secondRoot (screen : String)
  /-- A screen has no root. -/
  | missingRoot (screen : String)
  /-- An overlay is not directly inside a screen. -/
  | misplacedOverlay (name : String)
  /-- A top-level form is inside another form. -/
  | misplacedForm (name : String)
  /-- A navigation property has no target. -/
  | missingTarget
  /-- The name of a top-level form is not known. -/
  | unknownForm (name : String)
  /-- A form is not closed. -/
  | unclosed (form : String)
  /-- Something follows the document. -/
  | trailing (form : String)
  /-- The name of a screen option is not known. -/
  | unknownOption (name : String)
  /-- The id of an overlay is not a text. -/
  | overlayId
  /-- An overlay has no id. -/
  | missingId (kind : OverlayKind)
  /-- An element that takes no children has some. -/
  | childrenOfLeaf (name : String)
  /-- A count has a fractional part. -/
  | fractionalCount
  /-- A count is neither a number nor a parameter. -/
  | badCount
  /-- The variable of a repetition is not a text. -/
  | badCounter
  /-- The source is not made of tokens. -/
  | lexical (cause : LexCause)
  /-- Lists are nested too deeply. -/
  | tooDeep
  deriving DecidableEq, Repr

namespace FaultCause

/-- The message for a cause. -/
def message : FaultCause → String
  | expectedKind wanted found value =>
    s!"Expected {wanted.name}, got {found.name}" ++ if value = "" then "" else s!" '{value}'"
  | expectedWord wanted found => s!"Expected '{wanted}', got '{found}'"
  | secondBody form => s!"'{form}' accepts a single body element"
  | includePath => "Include expects a string path"
  | secondRoot screen => s!"Screen '{screen}' must have a single root element"
  | missingRoot screen => s!"Screen '{screen}' must have a root element"
  | misplacedOverlay name => s!"Overlay '{name}' must be a direct child of a screen"
  | misplacedForm name => s!"'{name}' is only allowed at the top level"
  | missingTarget => "Expected navigation target (screen, overlay, action, or URL)"
  | unknownForm name => s!"Unknown form type: {name}"
  | unclosed form => s!"Missing closing parenthesis for '{form}'"
  | trailing form => s!"Unexpected content after '{form}' form"
  | unknownOption name => s!"Unknown screen option ':{name}'"
  | overlayId => "Overlay :id must be a string"
  | missingId kind => s!"{kind.name} must have an :id property"
  | childrenOfLeaf name => s!"Element '{name}' does not support children"
  | fractionalCount => ":count must be a whole number"
  | badCount => ":count must be a number or parameter reference"
  | badCounter => ":as must be a string"
  | lexical cause => cause.message
  | tooDeep => "Maximum nesting depth exceeded"

/-- Whether a cause ends the form that it is found in. -/
def isUnwinding : FaultCause → Bool
  | expectedKind .. | expectedWord .. | secondBody _ | includePath | secondRoot _ | missingRoot _
  | misplacedOverlay _ | misplacedForm _ | missingTarget => true
  | _ => false

end FaultCause

/-- A place where something is wrong with a source. -/
structure Fault where
  /-- What is wrong. -/
  cause : FaultCause
  /-- Where it is wrong. -/
  position : Position
  deriving DecidableEq, Repr

/-- The message and place of a fault. -/
def Fault.diagnostic (f : Fault) : Diagnostic :=
  ⟨f.cause.message, f.position⟩

/-- Why a document is refused outright. -/
inductive Rejection where
  /-- A value cannot be converted. -/
  | value (fault : ValueFault)
  /-- A node would stand at no place of a source. -/
  | place
  deriving DecidableEq, Repr

/-- What comes of an attempt. -/
inductive Outcome (α : Type) where
  /-- Something was read. -/
  | value (a : α)
  /-- A fault ended the attempt. -/
  | fault (f : Fault)
  /-- The document is refused. -/
  | refused (r : Rejection)

/-- What comes of an attempt, with the faults noted on the way. -/
structure Attempt (α : Type) where
  /-- The faults noted on the way, in order. -/
  noted : List Fault
  /-- What comes of it. -/
  outcome : Outcome α

namespace Attempt

variable {α β : Type}

/-- Go on with what was read. -/
def andThen (x : Attempt α) (f : α → Attempt β) : Attempt β :=
  match x.outcome with
  | .value a =>
    let y := f a
    ⟨x.noted ++ y.noted, y.outcome⟩
  | .fault fault => ⟨x.noted, .fault fault⟩
  | .refused r => ⟨x.noted, .refused r⟩

instance : Monad Attempt where
  pure a := ⟨[], .value a⟩
  bind := andThen

/-- Note a fault and go on. -/
def note (cause : FaultCause) (t : Token) : Attempt Unit :=
  ⟨[⟨cause, t.start⟩], .value ()⟩

/-- End the form with a fault. -/
def fail (cause : FaultCause) (t : Token) : Attempt α :=
  ⟨[], .fault ⟨cause, t.start⟩⟩

/-- Refuse the document. -/
def refuse (r : Rejection) : Attempt α :=
  ⟨[], .refused r⟩

/-- Refuse the document if a value cannot be converted. -/
def ofValue : Except ValueFault α → Attempt α
  | .ok a => pure a
  | .error fault => refuse (.value fault)

/-- Note the fault that ended an attempt and go on without what it was to read. -/
def recover (x : Attempt α) : Attempt (Option α) :=
  match x.outcome with
  | .value a => ⟨x.noted, .value (some a)⟩
  | .fault fault => ⟨x.noted ++ [fault], .value none⟩
  | .refused r => ⟨x.noted, .refused r⟩

/-- What was read. -/
def value? (x : Attempt α) : Option α :=
  match x.outcome with
  | .value a => some a
  | _ => none

/-- All faults of an attempt in order. -/
def faults (x : Attempt α) : List Fault :=
  match x.outcome with
  | .fault fault => x.noted ++ [fault]
  | _ => x.noted

/-- Whether something was read without any fault. -/
def succeeds (x : Attempt α) : Bool :=
  x.value?.isSome && x.noted.isEmpty

/-- End the form because a token of another kind was needed. -/
def unexpected (wanted : TokenKind) (t : Token) : Attempt α :=
  fail (.expectedKind wanted t.kind t.value) t

/-- Need a token of a kind. -/
def expect (wanted : TokenKind) (t : Token) : Attempt Token :=
  if t.kind = wanted then pure t else unexpected wanted t

/-- The place from the start of one token to the end of another. -/
def place (opener closer : Token) : Attempt Location :=
  if opener.start.isProper then
    pure ⟨opener.start, some closer.stop.line, some closer.stop.column⟩
  else refuse .place

@[simp]
theorem noted_pure (a : α) : (pure a : Attempt α).noted = [] := rfl

@[simp]
theorem outcome_pure (a : α) : (pure a : Attempt α).outcome = .value a := rfl

instance : LawfulMonad Attempt := LawfulMonad.mk' _
  (fun x => by
    obtain ⟨noted, outcome⟩ := x
    cases outcome <;> simp [Functor.map, andThen])
  (fun a f => by simp [bind, andThen, pure])
  (fun x f g => by
    obtain ⟨noted, outcome⟩ := x
    cases outcome with
    | value a =>
      simp only [bind, andThen]
      cases (f a).outcome <;> simp
    | fault fault => rfl
    | refused r => rfl)

@[simp]
theorem note_bind (cause : FaultCause) (t : Token) (f : Unit → Attempt α) :
    note cause t >>= f = ⟨⟨cause, t.start⟩ :: (f ()).noted, (f ()).outcome⟩ := rfl

@[simp]
theorem fail_bind (cause : FaultCause) (t : Token) (f : α → Attempt β) :
    fail cause t >>= f = fail cause t := rfl

@[simp]
theorem refuse_bind (r : Rejection) (f : α → Attempt β) : refuse r >>= f = refuse r := rfl

/-- A compound attempt reads a value only if its parts do. -/
theorem outcome_bind_eq_value {x : Attempt α} {f : α → Attempt β} {b : β} :
    (x >>= f).outcome = .value b ↔ ∃ a, x.outcome = .value a ∧ (f a).outcome = .value b := by
  obtain ⟨noted, outcome⟩ := x
  cases outcome <;> simp [bind, andThen]

/-- An attempt succeeds exactly if it does nothing but read a value. -/
theorem succeeds_iff {x : Attempt α} : x.succeeds ↔ ∃ a, x = pure a := by
  obtain ⟨noted, outcome⟩ := x
  cases outcome <;> simp [succeeds, value?, pure, and_comm]

/-- A compound attempt succeeds exactly if its parts do. -/
theorem succeeds_bind {x : Attempt α} {f : α → Attempt β} :
    (x >>= f).succeeds ↔ ∃ a, x = pure a ∧ (f a).succeeds := by
  obtain ⟨noted, outcome⟩ := x
  cases outcome with
  | value a =>
    cases later : (f a).outcome with
    | value b => cases noted <;> simp [bind, andThen, pure, succeeds, value?, later]
    | fault fault => cases noted <;> simp [bind, andThen, pure, succeeds, value?, later]
    | refused r => cases noted <;> simp [bind, andThen, pure, succeeds, value?, later]
  | fault fault => simp [bind, andThen, pure, succeeds, value?]
  | refused r => simp [bind, andThen, pure, succeeds, value?]

@[simp]
theorem pure_inj {a b : α} : (pure a : Attempt α) = pure b ↔ a = b := by
  simp [pure]

/-- A compound attempt does nothing but read a value exactly if its parts do. -/
theorem bind_eq_pure_iff {x : Attempt α} {f : α → Attempt β} {b : β} :
    x >>= f = pure b ↔ ∃ a, x = pure a ∧ f a = pure b := by
  obtain ⟨noted, outcome⟩ := x
  cases outcome with
  | value a =>
    cases noted with
    | nil => cases later : f a; simp [bind, andThen, pure, later]
    | cons fault rest => simp [bind, andThen, pure]
  | fault fault => simp [bind, andThen, pure]
  | refused r => simp [bind, andThen, pure]

@[simp]
theorem fail_ne_pure (cause : FaultCause) (t : Token) (a : α) : fail cause t ≠ pure a := by
  simp [fail, pure]

@[simp]
theorem note_bind_ne_pure (cause : FaultCause) (t : Token) (f : Unit → Attempt β) (b : β) :
    note cause t >>= f ≠ pure b := by
  simp [pure]

@[simp]
theorem succeeds_pure (a : α) : (pure a : Attempt α).succeeds = true := rfl

@[simp]
theorem succeeds_fail (cause : FaultCause) (t : Token) :
    (fail cause t : Attempt α).succeeds = false := rfl

@[simp]
theorem recover_pure (a : α) : (pure a : Attempt α).recover = pure (some a) := rfl

@[simp]
theorem recover_fail (cause : FaultCause) (t : Token) :
    (fail cause t : Attempt α).recover = ⟨[⟨cause, t.start⟩], .value none⟩ := rfl

/-- An attempt that is recovered from has succeeded only if it did so by itself. -/
theorem recover_eq_pure_iff {x : Attempt α} {a : Option α} :
    x.recover = pure a ↔ ∃ b, a = some b ∧ x = pure b := by
  obtain ⟨noted, outcome⟩ := x
  cases outcome with
  | value b => cases noted <;> simp [recover, pure, eq_comm]
  | fault fault => simp [recover, pure]
  | refused r => simp [recover, pure]

theorem expect_eq_pure_iff {wanted : TokenKind} {t u : Token} :
    expect wanted t = pure u ↔ t.kind = wanted ∧ t = u := by
  unfold expect
  split
  · rename_i same
    simp [pure, same]
  · rename_i differs
    simp [unexpected, fail, pure, differs]

theorem place_of_isProper {opener closer : Token} (proper : opener.start.isProper = true) :
    place opener closer =
      pure ⟨opener.start, some closer.stop.line, some closer.stop.column⟩ := by
  simp [place, proper]

end Attempt
end Wireframe
