import Wireframe.Proofs.Leading
import Wireframe.Proofs.Nodewise
import Wireframe.Proofs.Splicing

/-!
# Numbers as values of properties

A numeral that is given to a number property means the same with quotes around it as without them:
the text is no address, the numeral that it begins with is all of it, and both are normalized in the
same way.
-/

namespace Wireframe

theorem isUrl_of_isNumeral {text : String} (numeral : Word.IsNumeral text.toList) :
    isUrl text = false := by
  obtain ⟨c, rest, chars, starts⟩ := numeral.head
  have small : Text.lower c = c := by
    refine if_neg fun capital => ?_
    simp only [Lexeme.startsNumeral, Lexeme.isDigit, Bool.or_eq_true, Bool.and_eq_true,
      decide_eq_true_eq, beq_iff_eq, Char.le_def, UInt32.le_iff_toNat_le] at starts capital
    have nine : ('9' : Char).val.toNat < ('A' : Char).val.toNat := by decide
    rcases starts with ⟨-, high⟩ | rfl
    · omega
    · exact absurd capital.1 (by decide)
  have apart : ∀ protocol ∈ Schema.urlProtocols, ∃ d more, protocol.toList = d :: more ∧
      Lexeme.startsNumeral d = false := by
    simp [Schema.urlProtocols, Lexeme.startsNumeral, Lexeme.isDigit]
  rw [isUrl, chars, List.map_cons, small]
  refine List.any_eq_false.mpr fun protocol member => ?_
  obtain ⟨d, more, split, other⟩ := apart protocol member
  have differs : (d == c) = false := by
    refine beq_eq_false_iff_ne.mpr ?_
    rintro rfl
    exact absurd starts (by simp [other])
  simp [split, List.isPrefixOf, differs]

/-- A numeral is the same number with quotes as without them. -/
theorem Literal.coerce_quoted {text : String} (numeral : Word.IsNumeral text.toList) :
    ∃ n, Number.ofText text = .ok n ∧ (quoted text).coerce .number = .number n ∧
      (number n).coerce .number = .number n := by
  obtain ⟨n, spells⟩ := Numeral.exists_spells_of_isNumeral numeral
  have whole := Numeral.toDouble?_of_spells spells
  have leading := Numeral.leadingDouble?_of_spells spells
  rw [String.ofList_toList] at whole leading
  refine ⟨(Number.double n.toDouble).normalize, ?_, ?_, rfl⟩
  · rw [Number.ofText, whole]
  · simp only [coerce, leading]

/-- The text token with the same characters at the same place. -/
def Token.asText (t : Token) : Token :=
  { t with kind := .string }

/-- Whether clauses end with the keyword of a number property that has no value yet, each keyword
before it being followed by its value, by its target or, without a value, by the next clause. -/
inductive Table.Awaits (known : Table PropDef) : List Token → Prop
  | number {key : Token} {default : Option Scalar} (keyword : key.kind = .keyword)
      (typed : known.find? key.value = some ⟨.number, default⟩) : Awaits known [key]
  | value {key value : Token} {rest : List Token} (keyword : key.kind = .keyword)
      (isValue : value.kind.isValue = true) (later : Awaits known rest) :
      Awaits known (key :: value :: rest)
  | target {key target : Token} {rest : List Token} {default : Option Scalar}
      (keyword : key.kind = .keyword)
      (typed : known.find? key.value = some ⟨.navigation, default⟩)
      (isTarget : target.kind = .keyword) (later : Awaits known rest) :
      Awaits known (key :: target :: rest)
  | bare {key : Token} {rest : List Token} (keyword : key.kind = .keyword)
      (plain : ∀ default, known.find? key.value ≠ some ⟨.navigation, default⟩)
      (later : Awaits known rest) : Awaits known (key :: rest)

namespace Table.Awaits

variable {known : Table PropDef} {clauses : List Token}

theorem head (awaits : known.Awaits clauses) :
    ∃ key rest, clauses = key :: rest ∧ key.kind = .keyword := by
  cases awaits with
  | number keyword => exact ⟨_, _, rfl, keyword⟩
  | value keyword => exact ⟨_, _, rfl, keyword⟩
  | target keyword => exact ⟨_, _, rfl, keyword⟩
  | bare keyword => exact ⟨_, _, rfl, keyword⟩

theorem kinds (awaits : known.Awaits clauses) :
    ∀ t ∈ clauses, t.kind = .keyword ∨ t.kind.isValue = true := by
  induction awaits with
  | number keyword => exact List.forall_mem_singleton.mpr (Or.inl keyword)
  | value keyword isValue later ih =>
      exact List.forall_mem_cons.mpr
        ⟨Or.inl keyword, List.forall_mem_cons.mpr ⟨Or.inr isValue, ih⟩⟩
  | target keyword typed isTarget later ih =>
      exact List.forall_mem_cons.mpr
        ⟨Or.inl keyword, List.forall_mem_cons.mpr ⟨Or.inl isTarget, ih⟩⟩
  | bare keyword plain later ih => exact List.forall_mem_cons.mpr ⟨Or.inl keyword, ih⟩

theorem known_ne_empty (awaits : known.Awaits clauses) : known ≠ Table.empty := by
  rintro rfl
  induction awaits with
  | number keyword typed => cases typed
  | value keyword isValue later ih => exact ih
  | target keyword typed isTarget later ih => exact ih
  | bare keyword plain later ih => exact ih

end Table.Awaits

/-- Two attempts that begin alike are the same if they go on alike with what is read. -/
theorem Attempt.bind_congr_of_value {α β : Type} {x : Attempt α} {f g : α → Attempt β}
    (same : ∀ a, x.outcome = .value a → f a = g a) : x >>= f = x >>= g := by
  obtain ⟨noted, outcome⟩ := x
  cases outcome with
  | value a => simp only [bind, Attempt.andThen, same a rfl]
  | fault f => rfl
  | refused r => rfl

/-- Whether a step reads properties by their definitions: the token behind a keyword is used if it
is a value or if the property is for navigation, and a number may stand between quotes. -/
structure ReadsProps {σ : Type} (known : Table PropDef)
    (step : σ → Token → Token → Attempt (Option (σ × Bool))) : Prop where
  used : ∀ s key next, (next.kind.isValue = true ∨
      ∃ default, known.find? key.value = some ⟨.navigation, default⟩) →
    (step s key next).Ensures fun found => ∃ later, found = some (later, true)
  bare : ∀ s key next, next.kind.isValue = false →
    (∀ default, known.find? key.value ≠ some ⟨.navigation, default⟩) →
    (step s key next).Ensures fun found => ∃ later, found = some (later, false)
  text : ∀ s key t default, known.find? key.value = some ⟨.number, default⟩ →
    t.kind = .number → Word.IsNumeral t.value.toList → step s key t = step s key t.asText

/-- The value of a number property is read alike with quotes and without them. -/
theorem ReadsProps.readClauses_asText {σ : Type} {known : Table PropDef}
    {step : σ → Token → Token → Attempt (Option (σ × Bool))} (reads : ReadsProps known step)
    {t : Token} (number : t.kind = .number) (numeral : Word.IsNumeral t.value.toList)
    {clauses : List Token} (awaits : known.Awaits clauses) (after : Token) (s : σ)
    (rest : List Token) :
    readClauses after step s (clauses ++ t :: rest) =
      readClauses after step s (clauses ++ t.asText :: rest) := by
  induction awaits generalizing s with
  | @number key default keyword typed =>
      simp only [List.singleton_append, readClauses, if_pos keyword]
      rw [reads.text s key t default typed number numeral]
      refine Attempt.bind_congr_of_value fun found value => ?_
      obtain ⟨later, rfl⟩ := reads.used s key t.asText (Or.inl rfl) found value
      rfl
  | @value key value clauses keyword isValue later ih =>
      simp only [List.cons_append, readClauses, if_pos keyword]
      refine Attempt.bind_congr_of_value fun found read => ?_
      obtain ⟨later, rfl⟩ := reads.used s key value (Or.inl isValue) found read
      exact ih later
  | @target key target clauses default keyword typed isTarget later ih =>
      simp only [List.cons_append, readClauses, if_pos keyword]
      refine Attempt.bind_congr_of_value fun found read => ?_
      obtain ⟨later, rfl⟩ := reads.used s key target (Or.inr ⟨default, typed⟩) found read
      exact ih later
  | @bare key clauses keyword plain later ih =>
      obtain ⟨next, others, rfl, isKeyword⟩ := later.head
      simp only [List.cons_append, readClauses, if_pos keyword]
      refine Attempt.bind_congr_of_value fun found read => ?_
      obtain ⟨later, rfl⟩ := reads.bare s key next (by simp [isKeyword, TokenKind.isValue]) plain
        found read
      exact ih later

namespace PropValue

theorem ensures_used {definition : Option PropDef} {next : Token}
    (uses : next.kind.isValue = true ∨ ∃ default, definition = some ⟨.navigation, default⟩) :
    (read definition next).Ensures fun found => found.2 = true := by
  unfold read
  split
  · exact .after fun value => .pure rfl
  · rename_i other
    have isValue := uses.resolve_right fun ⟨default, same⟩ => other default same
    rw [if_pos isValue]
    exact .after fun value => .pure rfl

theorem ensures_bare {definition : Option PropDef} {next : Token}
    (other : next.kind.isValue = false)
    (plain : ∀ default, definition ≠ some ⟨.navigation, default⟩) :
    (read definition next).Ensures fun found => found.2 = false := by
  unfold read
  split
  · rename_i default
    exact absurd rfl (plain default)
  · rw [if_neg (by simp [other])]
    exact .pure rfl

theorem read_asText {t : Token} (number : t.kind = .number)
    (numeral : Word.IsNumeral t.value.toList) (default : Option Scalar) :
    read (some ⟨.number, default⟩) t = read (some ⟨.number, default⟩) t.asText := by
  obtain ⟨n, ofText, quoted, bare⟩ := Literal.coerce_quoted numeral
  have plain : ofToken (some .number) t = pure (.scalar (.number n)) := by
    simp [ofToken, Literal.ofToken, number, ofText, Attempt.ofValue, bare]
  have text : ofToken (some .number) t.asText = pure (.scalar (.number n)) := by
    simp [ofToken, Literal.ofToken, Token.asText, isUrl_of_isNumeral numeral, quoted]
  have isValue : t.kind.isValue = true := by rw [number]; rfl
  have isValue' : t.asText.kind.isValue = true := rfl
  simp only [read, Option.map_some, plain, text, isValue, isValue']

end PropValue

theorem readsProps_readProperty (known : Table PropDef) :
    ReadsProps known (readProperty known) where
  used := fun props key next uses =>
    (PropValue.ensures_used uses).bind fun found isUsed => .pure ⟨_, by rw [isUsed]⟩
  bare := fun props key next other plain =>
    (PropValue.ensures_bare other plain).bind fun found isBare => .pure ⟨_, by rw [isBare]⟩
  text := fun props key t default typed number numeral => by
    rw [readProperty, readProperty, typed, PropValue.read_asText number numeral default]

theorem overlayProps_id : Schema.overlayProps.find? "id" = some ⟨.string, none⟩ := by
  decide +kernel

theorem readsProps_overlayOption : ReadsProps Schema.overlayProps Parts.overlayOption where
  used := fun s key next uses => by
    unfold Parts.overlayOption
    split
    · rename_i isId
      have isValue := uses.resolve_right fun ⟨default, same⟩ => by
        rw [isId, overlayProps_id] at same
        cases same
      split
      · exact .pure ⟨_, rfl⟩
      · exact .after fun _ => .pure ⟨_, by rw [isValue]⟩
    · exact (PropValue.ensures_used uses).bind fun found isUsed => .pure ⟨_, by rw [isUsed]⟩
  bare := fun s key next other plain => by
    unfold Parts.overlayOption
    split
    · split
      · rename_i texts
        rcases texts with text | symbol
        · simp [text, TokenKind.isValue] at other
        · simp [symbol, TokenKind.isValue] at other
      · exact .after fun _ => .pure ⟨_, by rw [other]⟩
    · exact (PropValue.ensures_bare other plain).bind fun found isBare => .pure ⟨_, by rw [isBare]⟩
  text := fun s key t default typed number numeral => by
    have notId : key.value ≠ "id" := by
      intro isId
      rw [isId, overlayProps_id] at typed
      cases typed
    simp only [Parts.overlayOption, if_neg notId, typed,
      PropValue.read_asText number numeral default]

end Wireframe
