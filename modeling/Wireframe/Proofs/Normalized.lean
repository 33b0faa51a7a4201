import Wireframe.Proofs.Nodewise
import Wireframe.Proofs.Numerals

/-!
# Normalized numbers

A document holds numbers as values of properties and facts.  They come from numerals, from texts and
symbols that begin with a number, from truth values and from schemas; a double among them is
infinite or has a fractional part, and all other numbers are whole.  How often a repetition repeats
is always a whole number or a parameter.
-/

namespace Wireframe

/-- Whether a number is a double only if it is no whole number. -/
def Number.IsCanonical : Number → Prop
  | integer _ => True
  | double .nan => False
  | double (.infinite _) => True
  | double (.finite _ units) => units % Double.one ≠ 0

instance (n : Number) : Decidable n.IsCanonical :=
  match n with
  | .integer _ => .isTrue trivial
  | .double .nan => .isFalse id
  | .double (.infinite _) => .isTrue trivial
  | .double (.finite _ units) => inferInstanceAs (Decidable (units % Double.one ≠ 0))

/-- The number that a scalar is. -/
def Scalar.number? : Scalar → Option Number
  | .number n => some n
  | _ => none

/-- Whether a scalar is canonical if it is a number. -/
def Scalar.IsCanonical (s : Scalar) : Prop :=
  ∀ n ∈ s.number?, n.IsCanonical

instance (s : Scalar) : Decidable s.IsCanonical :=
  inferInstanceAs (Decidable (∀ n ∈ s.number?, n.IsCanonical))

/-- The scalar that a value is. -/
def PropValue.scalar? : PropValue → Option Scalar
  | .scalar s => some s
  | _ => none

/-- Whether a value is canonical if it is a number. -/
def PropValue.IsCanonical (value : PropValue) : Prop :=
  ∀ s ∈ value.scalar?, s.IsCanonical

/-- The values of the properties that a node has itself. -/
def Landmark.values : Landmark → List PropValue
  | element e => e.props.values
  | overlay o => o.props.values
  | _ => []

/-- The numbers anywhere in a document, those of counts left out. -/
def Document.numbers (d : Document) : List Number :=
  (d.metadata.values ++ (d.landmarks.flatMap Landmark.values).filterMap PropValue.scalar?).filterMap
    Scalar.number?

/-- Whether tokens say how often to repeat: as many times as the whole part of a number, or of a
parameter.  Without a count it is once. -/
def Count.IsSaid (tokens : List Token) : Count → Prop
  | .times n => n = 1 ∨ ∃ t ∈ tokens, t.kind = .number ∧
      ∃ d, Numeral.toDouble? t.value = some d ∧ d.truncate? = some n
  | .param name => ∃ t ∈ tokens, t.kind = .param ∧ t.value = name

/-- What holds of the numbers of a document that is read from tokens. -/
structure Document.Normalized (tokens : List Token) (d : Document) : Prop where
  /-- No number that could be whole is a double, and none is missing. -/
  numbers : ∀ n ∈ d.numbers, n.IsCanonical
  /-- Every count is said by the tokens. -/
  counts : ∀ r, .repetition r ∈ d.landmarks → r.count.IsSaid tokens

theorem Double.truncate?_of_toInt? {d : Double} {n : Int} (whole : d.toInt? = some n) :
    d.truncate? = some n := by
  cases d with
  | nan => cases whole
  | infinite negative => cases whole
  | finite negative units =>
      rw [toInt?, Option.ite_none_right_eq_some] at whole
      rw [truncate?]
      exact whole.2

namespace Number

theorem isCanonical_normalize {d : Double} (isNumber : d ≠ .nan) :
    (Number.double d).normalize.IsCanonical := by
  cases whole : d.toInt? with
  | some n =>
      rw [normalize, whole]
      trivial
  | none =>
      rw [normalize, whole]
      cases d with
      | nan => exact absurd rfl isNumber
      | infinite negative => trivial
      | finite negative units =>
          intro divides
          rw [Double.toInt?, if_pos divides] at whole
          cases whole

/-- The whole part of a normalized number is that of the double it was. -/
theorem truncate_normalize {d : Double} {n : Int}
    (whole : (Number.double d).normalize.truncate = .ok (some n)) : d.truncate? = some n := by
  cases isWhole : d.toInt? with
  | none =>
      rw [normalize, isWhole] at whole
      exact Except.ok.inj whole
  | some m =>
      simp only [normalize, isWhole, truncate] at whole
      cases near : (Number.integer m).toDouble with
      | error fault =>
          rw [near] at whole
          cases whole
      | ok e =>
          rw [near] at whole
          obtain rfl : m = n := Option.some.inj (Except.ok.inj whole)
          exact Double.truncate?_of_toInt? isWhole

end Number

theorem Literal.truncate_of_toInt {n : Number} {times : Int}
    (found : (number n).toInt = .ok times) : n.truncate = .ok (some times) := by
  rw [toInt, toInt?] at found
  cases whole : n.truncate with
  | error fault => cases whole ▸ found
  | ok part =>
      rw [whole] at found
      cases part with
      | none => cases found
      | some m => rw [Except.ok.inj found]

theorem Double.IsRounded.ne_nan {d : Double} (rounded : d.IsRounded) : d ≠ .nan := by
  rintro rfl
  exact rounded

theorem Numeral.leadingDouble?_ne_nan {text : String} {d : Double}
    (found : leadingDouble? text = some d) : d ≠ .nan := by
  simp only [leadingDouble?] at found
  split at found
  · obtain rfl := Option.some.inj found
    exact (Double.isRounded_ofDecimal _ _ _).ne_nan
  · simp only [readInfinity?, Option.ite_none_right_eq_some, Option.some.injEq] at found
    obtain ⟨-, rfl⟩ := found
    simp

namespace Scalar

theorem isCanonical_flag (value : Bool) : (flag value).IsCanonical := by
  simp [IsCanonical, number?]

theorem isCanonical_text (value : String) : (text value).IsCanonical := by
  simp [IsCanonical, number?]

theorem isCanonical_number {n : Number} (canonical : n.IsCanonical) : (number n).IsCanonical := by
  simpa [IsCanonical, number?] using canonical

theorem isCanonical_leading {text : String} {d : Double}
    (found : Numeral.leadingDouble? text = some d) :
    (number (Number.double d).normalize).IsCanonical :=
  isCanonical_number (Number.isCanonical_normalize (Numeral.leadingDouble?_ne_nan found))

end Scalar

namespace Literal

/-- Whether a literal is canonical if it is a number. -/
def IsCanonical : Literal → Prop
  | number n => n.IsCanonical
  | _ => True

theorem IsCanonical.natural {l : Literal} (canonical : l.IsCanonical) : l.natural.IsCanonical := by
  cases l with
  | symbol text =>
      rw [Literal.natural]
      split
      · exact Scalar.isCanonical_flag _
      · exact Scalar.isCanonical_text _
  | quoted text => exact Scalar.isCanonical_text text
  | number n => exact Scalar.isCanonical_number canonical

/-- Whatever type a literal is brought to, it is canonical as a number. -/
theorem IsCanonical.coerce {l : Literal} (canonical : l.IsCanonical) (type : PropType) :
    (l.coerce type).IsCanonical := by
  cases type with
  | boolean =>
      rw [Literal.coerce]
      split
      · exact Scalar.isCanonical_flag _
      · exact canonical.natural
  | number =>
      cases l with
      | number n => exact Scalar.isCanonical_number canonical
      | symbol text =>
          simp only [Literal.coerce]
          split
          · exact Scalar.isCanonical_number trivial
          · split
            · rename_i found
              exact Scalar.isCanonical_leading found
            · exact canonical.natural
      | quoted text =>
          simp only [Literal.coerce]
          split
          · rename_i found
            exact Scalar.isCanonical_leading found
          · exact canonical.natural
  | string => exact Scalar.isCanonical_text _
  | symbol => exact Scalar.isCanonical_text _
  | any => exact canonical.natural
  | navigation => exact canonical.natural

end Literal

/-- Whether a token is one of several and spelled as its kind demands, unless it is the end of the
source. -/
def Token.IsWord (tokens : List Token) (t : Token) : Prop :=
  t.kind ≠ .eof → t ∈ tokens ∧ t.word.IsSpelled

namespace Token.IsWord

variable {tokens : List Token} {t : Token} (isWord : t.IsWord tokens)
include isWord

/-- The text of a number token is that of a double. -/
theorem exists_double (number : t.kind = .number) :
    ∃ d, Numeral.toDouble? t.value = some d ∧ d ≠ .nan := by
  obtain ⟨-, spelled⟩ := isWord (by simp [number])
  obtain ⟨d, found, rounded⟩ := Numeral.toDouble?_of_isNumeral (spelled.numeral number)
  exact ⟨d, found, rounded.ne_nan⟩

theorem ensures_literal : (Literal.ofToken t).Ensures Literal.IsCanonical := by
  unfold Literal.ofToken
  split
  · rename_i number
    obtain ⟨d, found, isNumber⟩ := isWord.exists_double number
    have ofText : Number.ofText t.value = .ok (Number.double d).normalize := by
      rw [Number.ofText, found]
    rw [ofText]
    exact .pure (Number.isCanonical_normalize isNumber)
  · exact .pure trivial
  · exact .pure trivial

theorem ensures_ofToken (type : Option PropType) :
    (PropValue.ofToken type t).Ensures PropValue.IsCanonical := by
  unfold PropValue.ofToken
  split
  · exact .pure (by simp [PropValue.IsCanonical, PropValue.scalar?])
  · exact .pure (by simp [PropValue.IsCanonical, PropValue.scalar?])
  · split
    · exact .pure (by simp [PropValue.IsCanonical, PropValue.scalar?])
    · refine isWord.ensures_literal.bind fun l canonical => .pure fun s same => ?_
      obtain rfl := Option.some.inj same
      cases type with
      | none => exact canonical.natural
      | some type => exact canonical.coerce type

end Token.IsWord

/-- Whether what properties stand for without a value is canonical. -/
def Table.DefaultsCanonical (known : Table PropDef) : Prop :=
  ∀ definition ∈ known.values, ∀ value ∈ definition.default, value.IsCanonical

instance (known : Table PropDef) : Decidable known.DefaultsCanonical :=
  inferInstanceAs (Decidable
    (∀ definition ∈ known.values, ∀ value ∈ definition.default, value.IsCanonical))

namespace Schema

theorem defaultsCanonical_registry : ∀ schema ∈ registry, schema.props.DefaultsCanonical := by
  decide +kernel

theorem defaultsCanonical_element (name : String) : (element name).props.DefaultsCanonical := by
  rw [element]
  cases found : registry.find? (·.name == name) with
  | none => exact fun _ member => absurd member List.not_mem_nil
  | some schema => exact defaultsCanonical_registry schema (List.mem_of_find?_eq_some found)

theorem defaultsCanonical_overlayProps : overlayProps.DefaultsCanonical := by
  decide +kernel

end Schema

namespace Table

variable {α : Type} {t : Table α} {P : α → Prop}

theorem mem_values_of_find? {key : String} {value : α} (found : t.find? key = some value) :
    value ∈ t.values :=
  List.mem_map_of_mem ((t.find?_eq_some_iff key value).mp found)

/-- What holds of all values of a table and of a new one holds of all values with the new one. -/
theorem forall_values_insert (all : ∀ value ∈ t.values, P value) (key : String) {value : α}
    (new : P value) : ∀ v ∈ (t.insert key value).values, P v := by
  intro v member
  obtain ⟨⟨k, same⟩, inTable, rfl⟩ := List.mem_map.mp member
  have found := (find?_eq_some_iff _ _ _).mpr inTable
  rw [find?_insert] at found
  split at found
  · obtain rfl := Option.some.inj found
    exact new
  · exact all _ (mem_values_of_find? found)

end Table

namespace PropValue

theorem isCanonical_scalar {s : Scalar} (canonical : s.IsCanonical) : (scalar s).IsCanonical := by
  simpa [IsCanonical, scalar?] using canonical

theorem isCanonical_of_scalar? {value : PropValue} (noScalar : value.scalar? = none) :
    value.IsCanonical := by
  simp [IsCanonical, noScalar]

theorem canonical_targetOfToken (t : Token) : (targetOfToken t).Ensures PropValue.IsCanonical := by
  unfold targetOfToken
  split
  · exact .pure (isCanonical_of_scalar? rfl)
  · exact .pure (isCanonical_of_scalar? rfl)
  · refine .pure ?_
    unfold targetOfKeyword
    split
    · exact isCanonical_of_scalar? rfl
    · exact isCanonical_scalar (Scalar.isCanonical_text _)
  · refine .pure (isCanonical_of_scalar? ?_)
    unfold targetOfText
    split
    · rfl
    · split <;> rfl
  · exact .pure (isCanonical_of_scalar? rfl)
  · exact .fail

/-- The bare form of a property is canonical. -/
theorem isCanonical_bare {definition : Option PropDef}
    (defaults : ∀ d ∈ definition, ∀ value ∈ d.default, value.IsCanonical) :
    (((definition.bind PropDef.default).map scalar).getD yes).IsCanonical := by
  cases bare : definition.bind PropDef.default with
  | none => exact isCanonical_scalar (Scalar.isCanonical_flag true)
  | some value =>
      obtain ⟨d, isDefinition, isDefault⟩ := Option.bind_eq_some_iff.mp bare
      exact isCanonical_scalar (defaults d isDefinition value isDefault)

theorem canonical_read {tokens : List Token} {definition : Option PropDef} {next : Token}
    (defaults : ∀ d ∈ definition, ∀ value ∈ d.default, value.IsCanonical)
    (isWord : next.IsWord tokens) :
    (read definition next).Ensures fun found => found.1.IsCanonical := by
  unfold read
  split
  · exact (canonical_targetOfToken next).bind fun value canonical => .pure canonical
  · split
    · exact (isWord.ensures_ofToken _).bind fun value canonical => .pure canonical
    · exact .pure (isCanonical_bare defaults)

end PropValue

theorem Attempt.ensures_ofValue {α : Type} {x : Except ValueFault α} :
    (Attempt.ofValue x).Ensures fun a => x = .ok a := by
  cases x with
  | ok a => exact .pure rfl
  | error fault =>
      intro a read
      cases read

section Nodes

variable {tokens : List Token}

theorem Table.DefaultsCanonical.find? {known : Table PropDef} (defaults : known.DefaultsCanonical)
    (key : String) : ∀ d ∈ known.find? key, ∀ value ∈ d.default, value.IsCanonical :=
  fun d found => defaults d (mem_values_of_find? found)

theorem canonical_readProperty {known : Table PropDef} (defaults : known.DefaultsCanonical)
    {props : Table PropValue} {key next : Token} (isWord : next.IsWord tokens)
    (all : ∀ value ∈ props.values, value.IsCanonical) :
    (readProperty known props key next).Ensures fun found =>
      ∀ r ∈ found, ∀ value ∈ r.1.values, value.IsCanonical := by
  refine (PropValue.canonical_read (defaults.find? key.value) isWord).bind
    fun ⟨value, used⟩ canonical => .pure ?_
  rintro r same
  obtain rfl := Option.some.inj same
  exact Table.forall_values_insert all key.value canonical

theorem canonical_readFact {facts : Table Scalar} {key next : Token} (isWord : next.IsWord tokens)
    (all : ∀ value ∈ facts.values, value.IsCanonical) :
    (readFact facts key next).Ensures fun found =>
      ∀ r ∈ found, ∀ value ∈ r.1.values, value.IsCanonical := by
  have put {value : Scalar} (canonical : value.IsCanonical) (used : Bool) :
      ∀ r ∈ some (facts.insert key.value value, used), ∀ v ∈ r.1.values, v.IsCanonical := by
    intro r same
    obtain rfl := Option.some.inj same
    exact Table.forall_values_insert all key.value canonical
  unfold readFact
  split
  · split
    · exact .pure (put (Scalar.isCanonical_text _) true)
    · exact isWord.ensures_literal.bind fun l canonical => .pure (put canonical.natural true)
  · exact .pure (put (Scalar.isCanonical_flag true) false)

/-- What the tokens say about a count is kept by every option of a repetition. -/
theorem said_repeatOption {s : Parts.RepeatOptions} {key next : Token} (isWord : next.IsWord tokens)
    (said : s.count.IsSaid tokens) :
    (Parts.repeatOption s key next).Ensures fun found =>
      ∀ r ∈ found, r.1.count.IsSaid tokens := by
  unfold Parts.repeatOption
  split
  · split
    · rename_i number
      obtain ⟨d, found, isNumber⟩ := isWord.exists_double number
      refine Attempt.ensures_ofValue.bind fun n ofText => ?_
      rw [Number.ofText, found] at ofText
      obtain rfl := Except.ok.inj ofText
      refine Attempt.ensures_ofValue.bind fun times isTimes => .after fun _ => ?_
      have whole := Number.truncate_normalize (Literal.truncate_of_toInt isTimes)
      have said : ∀ r ∈ some (⟨Count.times times, s.counter⟩, true),
          (r : Parts.RepeatOptions × Bool).1.count.IsSaid tokens := by
        rintro r same
        obtain rfl := Option.some.inj same
        exact Or.inr ⟨next, (isWord (by simp [number])).1, number, d, found, whole⟩
      simp only
      split
      · exact .after fun _ => .pure said
      · exact .pure said
    · rename_i param
      refine .pure ?_
      rintro r same
      obtain rfl := Option.some.inj same
      exact ⟨next, (isWord (by simp [param])).1, param, rfl⟩
    · exact .after fun _ => .pure (by simpa using said)
  · split
    · split
      · exact .pure (by simpa using said)
      · exact .after fun _ => .pure (by simpa using said)
    · exact .pure (by simp)

theorem canonical_overlayOption {s : Parts.OverlayOptions} {key next : Token}
    (isWord : next.IsWord tokens) (all : ∀ value ∈ s.props.values, value.IsCanonical) :
    (Parts.overlayOption s key next).Ensures fun found =>
      ∀ r ∈ found, ∀ value ∈ r.1.props.values, value.IsCanonical := by
  unfold Parts.overlayOption
  split
  · split
    · exact .pure (by simpa using all)
    · exact .after fun _ => .pure (by simpa using all)
  · refine (PropValue.canonical_read (Schema.defaultsCanonical_overlayProps.find? key.value)
      isWord).bind fun ⟨value, used⟩ canonical => .pure ?_
    rintro r same
    obtain rfl := Option.some.inj same
    exact Table.forall_values_insert all key.value canonical

namespace Parts

variable {p : Parts} (made : p.MadeOf (Token.IsWord tokens)) {left : List Token}
  (inHead : ∀ t ∈ left, t.IsWord tokens)
include made

theorem canonical_toOverlay (kind : OverlayKind) :
    (p.toOverlay kind).Ensures fun o => ∀ value ∈ o.props.values, value.IsCanonical := by
  have inHead : ∀ t ∈ p.head.tail, t.IsWord tokens := fun t member =>
    made.head t (List.mem_of_mem_tail member)
  refine (ensures_readClauses (I := fun s => ∀ value ∈ s.props.values, value.IsCanonical)
    (fun _ _ _ _ isWord all => canonical_overlayOption isWord all) inHead made.afterHead
    (List.forall_mem_nil _)).bind fun ⟨options, left⟩ ⟨all, _⟩ =>
      .after fun children => .after fun closer => ?_
  simp only
  split
  · exact .after fun _ => .after fun location => .pure all
  · exact .after fun location => .pure all

include inHead

theorem canonical_toElement (name : String) :
    (p.toElement name left).Ensures fun e => ∀ value ∈ e.props.values, value.IsCanonical := by
  have behind : ∀ t ∈ (content (Schema.element name) left).2, t.IsWord tokens := fun t member =>
    inHead t ((content_suffix _ left).mem member)
  refine (ensures_readClauses (I := fun props => ∀ value ∈ props.values, value.IsCanonical)
    (fun _ _ _ _ isWord all => canonical_readProperty (Schema.defaultsCanonical_element name)
      isWord all) behind made.afterHead (List.forall_mem_nil _)).bind fun ⟨props, left'⟩ ⟨all, _⟩ =>
        .after fun children => .after fun closer => .after fun location => .pure all

theorem said_toRepetition :
    (p.toRepetition left).Ensures fun r => r.count.IsSaid tokens := by
  refine (ensures_readClauses (I := fun s => s.count.IsSaid tokens)
    (fun _ _ _ _ isWord said => said_repeatOption isWord said) inHead made.afterHead
    (Or.inl rfl)).bind fun ⟨options, left'⟩ ⟨said, _⟩ => ?_
  exact .after fun ⟨body, rest⟩ => .after fun closer => .after fun location => .pure said

theorem canonical_toFacts :
    (p.toFacts left).Ensures fun facts => ∀ value ∈ facts.values, value.IsCanonical := by
  refine (ensures_readClauses (I := fun facts => ∀ value ∈ facts.values, value.IsCanonical)
    (fun _ _ _ _ isWord all => canonical_readFact isWord all) inHead made.afterHead
    (List.forall_mem_nil _)).bind fun ⟨facts, left'⟩ ⟨all, _⟩ => ?_
  exact .after fun closer => .pure all

end Parts

/-- What holds of the numbers of a node: those among the values of its properties are canonical, and
the tokens say how often it is repeated. -/
structure Landmark.Normalized (tokens : List Token) (l : Landmark) : Prop where
  values : ∀ value ∈ l.values, value.IsCanonical
  count : ∀ r, l = .repetition r → r.count.IsSaid tokens

/-- A node without numbers. -/
theorem Landmark.normalized_of_values {l : Landmark} (empty : l.values = [])
    (other : ∀ r, l ≠ .repetition r) : l.Normalized tokens where
  values := by simp [empty]
  count := fun r same => absurd same (other r)

theorem nodewise_normalized (tokens : List Token) :
    Nodewise (Token.IsWord tokens) (Landmark.Normalized tokens) Scalar.IsCanonical where
  element := fun made inHead _ _ _ =>
    (Parts.canonical_toElement made inHead _).mono fun e all => ⟨all, by simp⟩
  repetition := fun made inHead => (Parts.said_toRepetition made inHead).mono fun r said =>
    ⟨List.forall_mem_nil _, fun _ same => Landmark.repetition.inj same ▸ said⟩
  wrapper := fun r => Landmark.normalized_of_values rfl (by simp)
  overlay := fun kind made => (Parts.canonical_toOverlay made kind).mono fun o all =>
    ⟨all, by simp⟩
  inclusion := fun _ _ _ _ => Landmark.normalized_of_values rfl (by simp)
  component := fun _ _ _ _ => Landmark.normalized_of_values rfl (by simp)
  layout := fun _ _ _ _ => Landmark.normalized_of_values rfl (by simp)
  screen := fun _ _ _ _ => Landmark.normalized_of_values rfl (by simp)
  facts := fun made inHead => Parts.canonical_toFacts made inHead

end Nodes

namespace Document

theorem normalized_of_all {tokens : List Token} {d : Document}
    (all : d.All (Landmark.Normalized tokens) Scalar.IsCanonical) : Normalized tokens d where
  numbers := by
    intro n member
    obtain ⟨s, isScalar, isNumber⟩ := List.mem_filterMap.mp member
    rcases List.mem_append.mp isScalar with inFacts | inNodes
    · exact all.facts s inFacts n isNumber
    · obtain ⟨value, isValue, same⟩ := List.mem_filterMap.mp inNodes
      obtain ⟨l, isNode, here⟩ := List.mem_flatMap.mp isValue
      exact (all.nodes l isNode).values value here s same n isNumber
  counts := fun r member => (all.nodes _ member).count r rfl

/-- The numbers of the document of a source are normalized, whatever is wrong with the source. -/
theorem ofSource_normalized {limit : Int} {source : String} {d : Document}
    (read : (ofSource limit source).outcome = .value d) :
    ∃ tokens, Token.ofSource source = .ok tokens ∧ Normalized tokens d := by
  unfold ofSource at read
  split at read
  · rename_i tokens found
    have words : ∀ t ∈ tokens, t.IsWord tokens := fun t member inner =>
      ⟨member, Token.isSpelled_of_ofChars found member inner⟩
    have last : (Token.ending tokens).IsWord tokens := fun inner =>
      absurd (kind_ending tokens) inner
    exact ⟨tokens, found, normalized_of_all
      ((nodewise_normalized tokens).ensures_ofTokens limit words last d read)⟩
  · cases read

/-- A fact with a fraction, a text and a symbol, and a count that is cut off. -/
theorem ofSource_normalized_count : ∃ d,
    Attempt.outcome (ofSource 9
      "(wire (meta :v 1.5) (screen s (repeat :count 2.5 (box :gap \"2.0\" :cols Infinity))))") =
        .value d ∧
      d.numbers = [.double (.finite false (Double.one + Double.one / 2)), .integer 2,
        .double (.infinite false)] ∧
      ∃ tokens,
        Token.ofSource
          "(wire (meta :v 1.5) (screen s (repeat :count 2.5 (box :gap \"2.0\" :cols Infinity))))" =
            .ok tokens ∧
          Normalized tokens d := by
  have found : Token.ofSource
      "(wire (meta :v 1.5) (screen s (repeat :count 2.5 (box :gap \"2.0\" :cols Infinity))))" =
      .ok
      [⟨.openParen, "(", ⟨1, 1⟩, ⟨1, 2⟩⟩, ⟨.symbol, "wire", ⟨1, 2⟩, ⟨1, 6⟩⟩,
        ⟨.openParen, "(", ⟨1, 7⟩, ⟨1, 8⟩⟩, ⟨.symbol, "meta", ⟨1, 8⟩, ⟨1, 12⟩⟩,
        ⟨.keyword, "v", ⟨1, 13⟩, ⟨1, 15⟩⟩, ⟨.number, "1.5", ⟨1, 16⟩, ⟨1, 19⟩⟩,
        ⟨.closeParen, ")", ⟨1, 19⟩, ⟨1, 20⟩⟩, ⟨.openParen, "(", ⟨1, 21⟩, ⟨1, 22⟩⟩,
        ⟨.symbol, "screen", ⟨1, 22⟩, ⟨1, 28⟩⟩, ⟨.symbol, "s", ⟨1, 29⟩, ⟨1, 30⟩⟩,
        ⟨.openParen, "(", ⟨1, 31⟩, ⟨1, 32⟩⟩, ⟨.symbol, "repeat", ⟨1, 32⟩, ⟨1, 38⟩⟩,
        ⟨.keyword, "count", ⟨1, 39⟩, ⟨1, 45⟩⟩, ⟨.number, "2.5", ⟨1, 46⟩, ⟨1, 49⟩⟩,
        ⟨.openParen, "(", ⟨1, 50⟩, ⟨1, 51⟩⟩, ⟨.symbol, "box", ⟨1, 51⟩, ⟨1, 54⟩⟩,
        ⟨.keyword, "gap", ⟨1, 55⟩, ⟨1, 59⟩⟩, ⟨.string, "2.0", ⟨1, 60⟩, ⟨1, 65⟩⟩,
        ⟨.keyword, "cols", ⟨1, 66⟩, ⟨1, 71⟩⟩, ⟨.symbol, "Infinity", ⟨1, 72⟩, ⟨1, 80⟩⟩,
        ⟨.closeParen, ")", ⟨1, 80⟩, ⟨1, 81⟩⟩, ⟨.closeParen, ")", ⟨1, 81⟩, ⟨1, 82⟩⟩,
        ⟨.closeParen, ")", ⟨1, 82⟩, ⟨1, 83⟩⟩, ⟨.closeParen, ")", ⟨1, 83⟩, ⟨1, 84⟩⟩,
        Token.eof ⟨1, 84⟩] := by
    cbv
  have described : (Attempt.value? (ofSource 9
      "(wire (meta :v 1.5) (screen s (repeat :count 2.5 (box :gap \"2.0\" :cols Infinity))))")).map
        numbers = some [.double (.finite false (Double.one + Double.one / 2)), .integer 2,
          .double (.infinite false)] := by
    rw [ofSource, found]
    decide +kernel
  obtain ⟨d, value, numbers⟩ := Option.map_eq_some_iff.mp described
  have read := Attempt.value?_eq_some.mp value
  exact ⟨d, read, numbers, ofSource_normalized read⟩

end Document
end Wireframe
