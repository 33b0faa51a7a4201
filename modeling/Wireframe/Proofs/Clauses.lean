import Wireframe.Proofs.Faults
import Wireframe.Proofs.Grammar

/-!
# Clauses

The keywords at the head of a list are read one clause at a time, and each clause is a keyword with
or without the token behind it.  They are read to their end exactly if they belong to the closure of
the language of single clauses.
-/

namespace Wireframe

open scoped Computability

/-- Whether a token can be read. -/
abbrev Token.Readable (t : Token) : Prop :=
  t.Sound fun _ => True

/-- Whether a step reads a clause, and the states before and behind it.  A keyword that stands alone
is read the same before whatever is no value. -/
inductive Clause {σ : Type} (step : σ → Token → Token → Attempt (Option (σ × Bool))) :
    σ → List Token → σ → Prop where
  /-- A keyword that uses the token behind it. -/
  | pair {s s' : σ} {key next : Token} (keyword : key.kind = .keyword)
      (used : step s key next = pure (some (s', true))) : Clause step s [key, next] s'
  /-- A keyword that stands alone. -/
  | bare {s s' : σ} {key : Token} (keyword : key.kind = .keyword)
      (unused : ∀ next, next.kind.isValue = false → step s key next = pure (some (s', false))) :
      Clause step s [key] s'

/-- Whether a step reads some clauses, and the states before and behind them. -/
inductive Clauses {σ : Type} (step : σ → Token → Token → Attempt (Option (σ × Bool))) :
    σ → List Token → σ → Prop where
  /-- No clause changes nothing. -/
  | nil (s : σ) : Clauses step s [] s
  /-- One clause and others. -/
  | cons {s s' s'' : σ} {part rest : List Token} (first : Clause step s part s')
      (others : Clauses step s' rest s'') : Clauses step s (part ++ rest) s''

/-- Whether what a step makes of a keyword that stands alone does not depend on what comes next, and
a token that is no atom is never used. -/
structure Steady {σ : Type} (step : σ → Token → Token → Attempt (Option (σ × Bool))) : Prop where
  unused : ∀ s key next s', step s key next = pure (some (s', false)) →
    ∀ next', next'.kind.isValue = false → step s key next' = pure (some (s', false))
  ends : ∀ s key next s', next.kind = .openParen ∨ next.kind = .closeParen →
    step s key next ≠ pure (some (s', true))

variable {σ : Type} {step : σ → Token → Token → Attempt (Option (σ × Bool))}

theorem Clause.keyword_of_cons {s s' : σ} {key : Token} {rest : List Token}
    (clause : Clause step s (key :: rest) s') : key.kind = .keyword := by
  cases clause with
  | pair keyword => exact keyword
  | bare keyword => exact keyword

theorem Clauses.keyword_of_cons {s s' : σ} {key : Token} {rest : List Token}
    (clauses : Clauses step s (key :: rest) s') : key.kind = .keyword := by
  generalize whole : key :: rest = left at clauses
  cases clauses with
  | nil => simp at whole
  | cons first others =>
      cases first with
      | pair keyword =>
          obtain ⟨rfl, -⟩ := List.cons.inj whole
          exact keyword
      | bare keyword =>
          obtain ⟨rfl, -⟩ := List.cons.inj whole
          exact keyword

/-- A step reads a clause exactly if it makes a keyword use the token behind it or stand alone. -/
theorem exists_clause_iff {s : σ} {part : List Token} {P : Token → Token → Prop} {Q : Token → Prop}
    (pair : ∀ key next, key.kind = .keyword → next.Readable →
      ((∃ s', step s key next = pure (some (s', true))) ↔ P key next))
    (bare : ∀ key, key.kind = .keyword → ((∃ s', ∀ next, next.kind.isValue = false →
      step s key next = pure (some (s', false))) ↔ Q key))
    (readable : ∀ t ∈ part, t.Readable) :
    (∃ s', Clause step s part s') ↔
      (∃ key next, part = [key, next] ∧ key.kind = .keyword ∧ P key next) ∨
        ∃ key, part = [key] ∧ key.kind = .keyword ∧ Q key := by
  constructor
  · rintro ⟨s', clause⟩
    cases clause with
    | @pair _ key next keyword used =>
        exact Or.inl ⟨key, next, rfl, keyword,
          (pair key next keyword (readable next (by simp))).mp ⟨s', used⟩⟩
    | @bare _ key keyword unused =>
        exact Or.inr ⟨key, rfl, keyword, (bare key keyword).mp ⟨s', unused⟩⟩
  · rintro (⟨key, next, rfl, keyword, holds⟩ | ⟨key, rfl, keyword, holds⟩)
    · obtain ⟨s', used⟩ := (pair key next keyword (readable next (by simp))).mpr holds
      exact ⟨s', .pair keyword used⟩
    · obtain ⟨s', unused⟩ := (bare key keyword).mpr holds
      exact ⟨s', .bare keyword unused⟩

/-- The clauses of a step that makes no keyword stand alone are pairs. -/
theorem exists_pair_iff {s : σ} {part : List Token} {P : Token → Token → Prop}
    (pair : ∀ key next, key.kind = .keyword → next.Readable →
      ((∃ s', step s key next = pure (some (s', true))) ↔ P key next))
    (used : ∀ s' key next, step s key next ≠ pure (some (s', false)))
    (readable : ∀ t ∈ part, t.Readable) :
    (∃ s', Clause step s part s') ↔
      ∃ key next, part = [key, next] ∧ key.kind = .keyword ∧ P key next := by
  rw [exists_clause_iff (Q := fun _ => False) pair (fun key _ => iff_of_false ?_ id) readable]
  · simp
  · rintro ⟨s', unused⟩
    exact used s' key (Token.eof Position.first) (unused _ rfl)

private theorem clauses_of_readClauses (steady : Steady step) {after : Token}
    (ends : after.kind = .openParen ∨ after.kind = .closeParen) {s s' : σ} {left : List Token}
    (read : readClauses after step s left = pure (s', [])) : Clauses step s left s' := by
  fun_induction readClauses after step s left with
  | case1 s =>
      obtain rfl : s = s' := by simpa using read
      exact .nil s
  | case2 s key keyword =>
      obtain ⟨none | ⟨state, used⟩, found, chosen⟩ := Attempt.bind_eq_pure_iff.mp read
      · simp at chosen
      · cases used with
        | true => exact absurd found (steady.ends s key after state ends)
        | false =>
            obtain rfl : state = s' := by simpa using chosen
            have first : Clause step s [key] state :=
              .bare keyword (steady.unused s key after state found)
            exact (Clauses.cons first (.nil state) :)
  | case3 s key other => simp at read
  | case4 s key next rest keyword used unused =>
      obtain ⟨none | ⟨state, isUsed⟩, found, chosen⟩ := Attempt.bind_eq_pure_iff.mp read
      · simp at chosen
      · cases isUsed with
        | true =>
            have first : Clause step s [key, next] state := .pair keyword found
            exact (Clauses.cons first (used state chosen) :)
        | false =>
            have first : Clause step s [key] state :=
              .bare keyword (steady.unused s key next state found)
            exact (Clauses.cons first (unused state chosen) :)
  | case5 s key next rest other => simp at read

private theorem readClauses_of_clauses {after : Token}
    (ends : after.kind = .openParen ∨ after.kind = .closeParen) {s s' : σ} {left : List Token}
    (clauses : Clauses step s left s') : readClauses after step s left = pure (s', []) := by
  induction clauses with
  | nil s => rfl
  | @cons s s' s'' part rest first others ih =>
      cases first with
      | @pair _ key next keyword used =>
          rw [List.cons_append, List.singleton_append, readClauses, if_pos keyword, used]
          exact ih
      | @bare _ key keyword unused =>
          cases rest with
          | nil =>
              have atom : after.kind.isValue = false := by
                rcases ends with opens | closes
                · rw [opens]
                  rfl
                · rw [closes]
                  rfl
              obtain rfl : s' = s'' := by simpa [readClauses] using ih
              rw [List.append_nil, readClauses, if_pos keyword, unused after atom]
              rfl
          | cons next rest =>
              have isNext : next.kind.isValue = false := by
                rw [others.keyword_of_cons]
                rfl
              rw [List.singleton_append, readClauses, if_pos keyword, unused next isNext]
              exact ih

/-- Clauses are read to their end exactly if each of them is read. -/
theorem readClauses_eq_pure_iff (steady : Steady step) {after : Token}
    (ends : after.kind = .openParen ∨ after.kind = .closeParen) {s s' : σ} {left : List Token} :
    readClauses after step s left = pure (s', []) ↔ Clauses step s left s' :=
  ⟨clauses_of_readClauses steady ends, readClauses_of_clauses ends⟩

/-! ## Languages of clauses -/

namespace Grammar

theorem append_mem_kstar {l : Language Token} {part rest : List Token} (first : part ∈ l)
    (others : rest ∈ l∗) : part ++ rest ∈ l∗ := by
  obtain ⟨parts, rfl, all⟩ := others
  exact ⟨part :: parts, rfl, List.forall_mem_cons.mpr ⟨first, all⟩⟩

theorem one_add_one (p q : Token → Prop) : one p + one q = one fun t => p t ∨ q t := by
  ext part
  rw [Language.mem_add]
  constructor
  · rintro (⟨t, rfl, holds⟩ | ⟨t, rfl, holds⟩)
    · exact ⟨t, rfl, Or.inl holds⟩
    · exact ⟨t, rfl, Or.inr holds⟩
  · rintro ⟨t, rfl, holds | holds⟩
    · exact Or.inl ⟨t, rfl, holds⟩
    · exact Or.inr ⟨t, rfl, holds⟩

theorem mem_one_pair {p q : Token → Prop} {part : List Token} :
    part ∈ one p * one q ↔ ∃ key next, part = [key, next] ∧ p key ∧ q next := by
  rw [Language.mem_mul]
  constructor
  · rintro ⟨_, ⟨key, rfl, first⟩, _, ⟨next, rfl, second⟩, rfl⟩
    exact ⟨key, next, rfl, first, second⟩
  · rintro ⟨key, next, rfl, first, second⟩
    exact ⟨_, ⟨key, rfl, first⟩, _, ⟨next, rfl, second⟩, rfl⟩

theorem mem_one_optional {p q : Token → Prop} {part : List Token} :
    part ∈ one p * optional (one q) ↔
      (∃ key next, part = [key, next] ∧ p key ∧ q next) ∨ ∃ key, part = [key] ∧ p key := by
  rw [optional, mul_add, mul_one, Language.mem_add, mem_one_pair]
  rfl

theorem mem_keyword_one {p : String → Prop} {q : Token → Prop} {part : List Token} :
    part ∈ keyword p * one q ↔
      ∃ key next, part = [key, next] ∧ key.kind = .keyword ∧ p key.value ∧ q next := by
  simp only [keyword, mem_one_pair, and_assoc]

theorem mem_keyword_optional {p : String → Prop} {q : Token → Prop} {part : List Token} :
    part ∈ keyword p * optional (one q) ↔
      (∃ key next, part = [key, next] ∧ key.kind = .keyword ∧ p key.value ∧ q next) ∨
        ∃ key, part = [key] ∧ key.kind = .keyword ∧ p key.value := by
  simp only [keyword, mem_one_optional, and_assoc]

theorem mem_property {schema : ElementSchema} {part : List Token} :
    part ∈ property schema ↔
      (∃ key next, part = [key, next] ∧ key.kind = .keyword ∧
        (IsNavigation schema key.value ∧
            next.kind ∈ [.hash, .param, .keyword, .string, .symbol] ∨
          ¬IsNavigation schema key.value ∧ next.kind.isValue = true)) ∨
        ∃ key, part = [key] ∧ key.kind = .keyword ∧ ¬IsNavigation schema key.value := by
  simp only [property, Language.mem_add, target, value, mem_keyword_one, mem_keyword_optional]
  constructor
  · rintro (⟨key, next, same, isKey, navigation, kinds⟩ |
      ⟨key, next, same, isKey, other, isValue⟩ | bare)
    · exact Or.inl ⟨key, next, same, isKey, Or.inl ⟨navigation, kinds⟩⟩
    · exact Or.inl ⟨key, next, same, isKey, Or.inr ⟨other, isValue⟩⟩
    · exact Or.inr bare
  · rintro (⟨key, next, same, isKey, ⟨navigation, kinds⟩ | ⟨other, isValue⟩⟩ | bare)
    · exact Or.inl ⟨key, next, same, isKey, navigation, kinds⟩
    · exact Or.inr (Or.inl ⟨key, next, same, isKey, other, isValue⟩)
    · exact Or.inr (Or.inr bare)

theorem mem_repeatOption {part : List Token} : part ∈ repeatOption ↔
    ∃ key next, part = [key, next] ∧ key.kind = .keyword ∧
      (key.value = "count" ∧ ((next.kind = .number ∧
            ∃ d, Numeral.toDouble? next.value = some d ∧ d.isInteger = true) ∨ next.kind = .param) ∨
        key.value = "as" ∧ next.kind ∈ [.string, .symbol]) := by
  simp only [repeatOption, whole, kind, text, one_add_one, Language.mem_add, mem_keyword_one]
  constructor
  · rintro (⟨key, next, same, isKey, count⟩ | ⟨key, next, same, isKey, counter⟩)
    · exact ⟨key, next, same, isKey, Or.inl count⟩
    · exact ⟨key, next, same, isKey, Or.inr counter⟩
  · rintro ⟨key, next, same, isKey, count | counter⟩
    · exact Or.inl ⟨key, next, same, isKey, count⟩
    · exact Or.inr ⟨key, next, same, isKey, counter⟩

theorem mem_screenOption {part : List Token} : part ∈ screenOption ↔
    (∃ key next, part = [key, next] ∧ key.kind = .keyword ∧
      (key.value = "layout" ∧ next.kind = .symbol)) ∨
      ∃ key, part = [key] ∧ key.kind = .keyword ∧ key.value ∈ Schema.viewports := by
  simp only [screenOption, kind, Language.mem_add, mem_keyword_one]
  exact or_comm

end Grammar

/-- The closure of a language of clauses is read if the language is, with a state that is related to
the one before if each clause leads to a related one. -/
theorem exists_clauses {clause : Language Token} {R : σ → σ → Prop} (refl : ∀ s, R s s)
    (trans : ∀ {s s' s''}, R s s' → R s' s'' → R s s'') {left : List Token}
    (each : ∀ s, ∀ part ∈ clause, part <:+: left → ∃ s', Clause step s part s' ∧ R s s') (s : σ)
    (closure : left ∈ clause∗) : ∃ s', Clauses step s left s' ∧ R s s' := by
  obtain ⟨parts, rfl, all⟩ := closure
  induction parts generalizing s with
  | nil => exact ⟨s, .nil s, refl s⟩
  | cons part parts ih =>
      obtain ⟨here, later⟩ := List.forall_mem_cons.mp all
      obtain ⟨s', first, related⟩ := each s part here ⟨[], parts.flatten, by simp⟩
      obtain ⟨s'', others, further⟩ := ih s' later fun s other isClause inside =>
        each s other isClause (inside.trans ⟨part, [], by simp⟩)
      exact ⟨s'', .cons first others, trans related further⟩

/-- Clauses are read exactly if they belong to the closure of the language of those that are. -/
theorem clauses_iff {clause : Language Token}
    (each : ∀ s part, (∀ t ∈ part, t.Readable) → ((∃ s', Clause step s part s') ↔ part ∈ clause))
    (s : σ) {left : List Token} (readable : ∀ t ∈ left, t.Readable) :
    (∃ s', Clauses step s left s') ↔ left ∈ clause∗ := by
  constructor
  · rintro ⟨s', clauses⟩
    induction clauses with
    | nil s => exact Language.nil_mem_kstar clause
    | @cons s s' s'' part rest first others ih =>
        have here := (each s part fun t member => readable t (List.mem_append_left _ member)).mp
          ⟨s', first⟩
        exact Grammar.append_mem_kstar here
          (ih fun t member => readable t (List.mem_append_right _ member))
  · intro closure
    obtain ⟨s', clauses, -⟩ := exists_clauses (R := fun _ _ => True) (fun _ => trivial)
      (fun _ _ => trivial) (fun s part isClause inside => by
        obtain ⟨s', first⟩ :=
          (each s part fun t member => readable t (inside.mem member)).mpr isClause
        exact ⟨s', first, trivial⟩) s closure
    exact ⟨s', clauses⟩

theorem Clauses.append {s s' s'' : σ} {front back : List Token} (before : Clauses step s front s')
    (behind : Clauses step s' back s'') : Clauses step s (front ++ back) s'' := by
  induction before with
  | nil s => exact behind
  | cons first others ih =>
      rw [List.append_assoc]
      exact .cons first (ih behind)

/-! ## Properties -/

section Properties

variable {key next : Token}

theorem Literal.ofToken_of_readable {t : Token} (readable : t.Readable) :
    ∃ l, Literal.ofToken t = pure l := by
  unfold Literal.ofToken
  split
  · rename_i number
    obtain ⟨d, denotes, -⟩ := readable.readable number
    rw [Number.ofText, denotes]
    exact ⟨_, rfl⟩
  · exact ⟨_, rfl⟩
  · exact ⟨_, rfl⟩

theorem PropValue.ofToken_of_readable (type : Option PropType) {t : Token}
    (readable : t.Readable) : ∃ v, PropValue.ofToken type t = pure v := by
  unfold PropValue.ofToken
  split
  · exact ⟨_, rfl⟩
  · exact ⟨_, rfl⟩
  · split
    · exact ⟨_, rfl⟩
    · obtain ⟨l, literal⟩ := Literal.ofToken_of_readable readable
      rw [literal]
      exact ⟨_, rfl⟩

/-- Whether a definition is that of a property for navigation. -/
def PropDef.IsTarget (definition : Option PropDef) : Prop :=
  definition.map PropDef.type = some .navigation

theorem PropValue.read_of_isTarget {definition : Option PropDef}
    (navigation : PropDef.IsTarget definition) (next : Token) :
    PropValue.read definition next = (do return (← targetOfToken next, true)) := by
  obtain ⟨⟨type, default⟩, rfl, rfl⟩ := Option.map_eq_some_iff.mp navigation
  rfl

theorem PropValue.read_of_not_isTarget {definition : Option PropDef}
    (other : ¬PropDef.IsTarget definition) (next : Token) :
    PropValue.read definition next =
      if next.kind.isValue then do return (← ofToken (definition.map PropDef.type) next, true)
      else pure (((definition.bind PropDef.default).map PropValue.scalar).getD yes, false) := by
  unfold PropValue.read
  split
  · exact absurd rfl other
  · rfl

theorem PropValue.targetOfToken_iff {t : Token} : (∃ v, targetOfToken t = pure v) ↔
    t.kind ∈ [.hash, .param, .keyword, .string, .symbol] := by
  constructor
  · rintro ⟨v, found⟩
    unfold targetOfToken at found
    split at found <;> simp_all
  · intro kinds
    simp only [List.mem_cons, List.not_mem_nil, or_false] at kinds
    rcases kinds with kind | kind | kind | kind | kind
    all_goals
      unfold targetOfToken
      simp only [kind]
      exact ⟨_, rfl⟩

theorem PropValue.read_used_iff {definition : Option PropDef} (readable : next.Readable) :
    (∃ v, PropValue.read definition next = pure (v, true)) ↔
      PropDef.IsTarget definition ∧
          next.kind ∈ [.hash, .param, .keyword, .string, .symbol] ∨
        ¬PropDef.IsTarget definition ∧ next.kind.isValue = true := by
  by_cases navigation : PropDef.IsTarget definition
  · simp only [read_of_isTarget navigation, navigation, true_and, not_true, false_and, or_false]
    rw [← targetOfToken_iff]
    constructor
    · rintro ⟨v, read⟩
      obtain ⟨w, found, -⟩ := Attempt.bind_eq_pure_iff.mp read
      exact ⟨w, found⟩
    · rintro ⟨v, found⟩
      exact ⟨v, by rw [found]; rfl⟩
  · simp only [read_of_not_isTarget navigation, navigation, false_and, not_false_eq_true, true_and,
      false_or]
    by_cases isValue : next.kind.isValue = true
    · obtain ⟨v, found⟩ := ofToken_of_readable (definition.map PropDef.type) readable
      simp only [isValue, if_true, iff_true]
      exact ⟨v, by rw [found]; rfl⟩
    · simp [isValue]

theorem PropValue.read_unused {definition : Option PropDef} {v : PropValue}
    (read : PropValue.read definition next = pure (v, false)) :
    ¬PropDef.IsTarget definition ∧
      ∀ next', next'.kind.isValue = false → PropValue.read definition next' = pure (v, false) := by
  by_cases navigation : PropDef.IsTarget definition
  · rw [read_of_isTarget navigation] at read
    obtain ⟨w, -, chosen⟩ := Attempt.bind_eq_pure_iff.mp read
    simp at chosen
  · refine ⟨navigation, fun next' isValue' => ?_⟩
    rw [read_of_not_isTarget navigation] at read ⊢
    by_cases isValue : next.kind.isValue = true
    · rw [if_pos isValue] at read
      obtain ⟨w, -, chosen⟩ := Attempt.bind_eq_pure_iff.mp read
      simp at chosen
    · rw [if_neg isValue] at read
      rw [if_neg (by simp [isValue']), read]

theorem PropValue.read_bare {definition : Option PropDef}
    (other : ¬PropDef.IsTarget definition) :
    ∃ v, ∀ next, next.kind.isValue = false → PropValue.read definition next = pure (v, false) :=
  ⟨_, fun next isValue => by rw [read_of_not_isTarget other, if_neg (by simp [isValue])]⟩

theorem PropValue.read_ends {definition : Option PropDef} {v : PropValue}
    (ends : next.kind = .openParen ∨ next.kind = .closeParen) :
    PropValue.read definition next ≠ pure (v, true) := by
  intro read
  by_cases navigation : PropDef.IsTarget definition
  · rw [read_of_isTarget navigation] at read
    obtain ⟨w, found, -⟩ := Attempt.bind_eq_pure_iff.mp read
    unfold targetOfToken at found
    rcases ends with opens | closes
    · simp [opens] at found
    · simp [closes] at found
  · have isValue : next.kind.isValue = false := by
      rcases ends with opens | closes
      · rw [opens]
        rfl
      · rw [closes]
        rfl
    rw [read_of_not_isTarget navigation, if_neg (by simp [isValue])] at read
    simp at read

theorem steady_readProperty (known : Table PropDef) : Steady (readProperty known) := by
  constructor
  · intro props key next props' read next' isValue
    obtain ⟨⟨v, used⟩, found, chosen⟩ := Attempt.bind_eq_pure_iff.mp read
    obtain ⟨rfl, rfl⟩ : props.insert key.value v = props' ∧ used = false := by simpa using chosen
    rw [readProperty, (PropValue.read_unused found).2 next' isValue]
    rfl
  · intro props key next props' ends read
    obtain ⟨⟨v, used⟩, found, chosen⟩ := Attempt.bind_eq_pure_iff.mp read
    obtain ⟨-, rfl⟩ : props.insert key.value v = props' ∧ used = true := by simpa using chosen
    exact PropValue.read_ends ends found

theorem clause_readProperty_iff (schema : ElementSchema) (props : Table PropValue)
    {part : List Token} (readable : ∀ t ∈ part, t.Readable) :
    (∃ props', Clause (readProperty schema.props) props part props') ↔
      part ∈ Grammar.property schema := by
  rw [Grammar.mem_property]
  refine exists_clause_iff (fun key next _ isNext => ?_) (fun key _ => ?_) readable
  · refine Iff.trans ⟨?_, ?_⟩ (PropValue.read_used_iff isNext)
    · rintro ⟨props', read⟩
      obtain ⟨⟨v, used⟩, found, chosen⟩ := Attempt.bind_eq_pure_iff.mp read
      obtain ⟨-, rfl⟩ : props.insert key.value v = props' ∧ used = true := by simpa using chosen
      exact ⟨v, found⟩
    · rintro ⟨v, found⟩
      exact ⟨_, by rw [readProperty, found]; rfl⟩
  · constructor
    · rintro ⟨props', read⟩
      obtain ⟨⟨v, used⟩, found, chosen⟩ :=
        Attempt.bind_eq_pure_iff.mp (read (Token.eof Position.first) rfl)
      obtain ⟨-, rfl⟩ : props.insert key.value v = props' ∧ used = false := by simpa using chosen
      exact (PropValue.read_unused found).1
    · intro other
      obtain ⟨v, read⟩ := PropValue.read_bare other
      exact ⟨_, fun next isValue => by rw [readProperty, read next isValue]; rfl⟩

theorem steady_readFact : Steady readFact := by
  constructor
  · intro facts key next facts' read next' isValue
    unfold readFact at read ⊢
    rw [if_neg (by simp [isValue])]
    split at read
    · split at read
      · simp at read
      · obtain ⟨l, -, chosen⟩ := Attempt.bind_eq_pure_iff.mp read
        simp at chosen
    · exact read
  · intro facts key next facts' ends read
    have isValue : next.kind.isValue = false := by
      rcases ends with opens | closes
      · rw [opens]
        rfl
      · rw [closes]
        rfl
    unfold readFact at read
    rw [if_neg (by simp [isValue])] at read
    simp at read

theorem clause_readFact_iff (facts : Table Scalar) {part : List Token}
    (readable : ∀ t ∈ part, t.Readable) :
    (∃ facts', Clause readFact facts part facts') ↔
      part ∈ Grammar.keyword (fun _ => True) * Grammar.optional Grammar.value := by
  rw [Grammar.value, Grammar.mem_keyword_optional]
  refine exists_clause_iff (fun key next _ isNext => ?_) (fun key _ => ?_) readable
  · simp only [true_and]
    constructor
    · rintro ⟨facts', read⟩
      by_contra other
      unfold readFact at read
      rw [if_neg other] at read
      simp at read
    · intro isValue
      unfold readFact
      rw [if_pos isValue]
      split
      · exact ⟨_, rfl⟩
      · obtain ⟨l, literal⟩ := Literal.ofToken_of_readable isNext
        exact ⟨_, by rw [literal]; rfl⟩
  · refine iff_of_true ⟨facts.insert key.value (.flag true), fun next isValue => ?_⟩ trivial
    rw [readFact, if_neg (by simp [isValue])]

end Properties

namespace Parts

private theorem repeatOption_ne_unused (s s' : RepeatOptions) (key next : Token) :
    repeatOption s key next ≠ pure (some (s', false)) := by
  intro read
  unfold repeatOption at read
  split at read
  · split at read
    · obtain ⟨number, -, read⟩ := Attempt.bind_eq_pure_iff.mp read
      obtain ⟨times, -, read⟩ := Attempt.bind_eq_pure_iff.mp read
      obtain ⟨whole, -, read⟩ := Attempt.bind_eq_pure_iff.mp read
      split at read
      · exact Attempt.note_bind_ne_pure _ _ _ _ read
      · simp at read
    · simp at read
    · exact Attempt.note_bind_ne_pure _ _ _ _ read
  · split at read
    · split at read
      · simp at read
      · exact Attempt.note_bind_ne_pure _ _ _ _ read
    · simp at read

theorem steady_repeatOption : Steady repeatOption := by
  refine ⟨fun s key next s' read => absurd read (repeatOption_ne_unused _ _ _ _), ?_⟩
  intro s key next s' ends read
  unfold repeatOption at read
  split at read
  · split at read
    · rename_i kind
      simp [kind] at ends
    · rename_i kind
      simp [kind] at ends
    · exact Attempt.note_bind_ne_pure _ _ _ _ read
  · split at read
    · rw [if_neg (by rintro (kind | kind) <;> simp [kind] at ends)] at read
      exact Attempt.note_bind_ne_pure _ _ _ _ read
    · simp at read

private theorem repeatOption_number_iff (s : RepeatOptions) {key next : Token}
    (count : key.value = "count") (number : next.kind = .number) (readable : next.Readable) :
    (∃ s', repeatOption s key next = pure (some (s', true))) ↔
      ∃ d, Numeral.toDouble? next.value = some d ∧ d.isInteger = true := by
  obtain ⟨d, denotes, rounded⟩ := readable.readable number
  simp only [repeatOption, if_pos count, number, Number.ofText, denotes, Option.some.injEq,
    exists_eq_left']
  by_cases finite : d.isFinite = true
  · obtain ⟨⟨n, times⟩, whole⟩ := Number.toInt_normalize rounded finite
    cases integral : d.isInteger with
    | true => simp [Attempt.ofValue, times, whole, integral]
    | false =>
        refine iff_of_false ?_ (by simp)
        rintro ⟨s', read⟩
        simp only [Attempt.ofValue, times, whole, integral, pure_bind, Bool.not_false,
          if_true] at read
        exact Attempt.note_bind_ne_pure _ _ _ _ read
  · cases d with
    | finite => simp [Double.isFinite] at finite
    | nan => exact rounded.elim
    | infinite negative =>
        -- What is not finite has no whole part, so that the document is refused.
        refine iff_of_false ?_ (by simp [Double.isInteger, Double.toInt?])
        rintro ⟨s', read⟩
        obtain ⟨n, found, read⟩ := Attempt.bind_eq_pure_iff.mp read
        obtain rfl : Number.double (.infinite negative) = n := by
          simpa only [Attempt.ofValue, Attempt.pure_inj, Number.normalize,
            Double.toInt?] using found
        obtain ⟨i, times, -⟩ := Attempt.bind_eq_pure_iff.mp read
        simp [Literal.toInt, Literal.toInt?, Number.truncate, Double.truncate?, Attempt.ofValue,
          Attempt.refuse, pure, bind, Except.bind] at times

theorem clause_repeatOption_iff (s : RepeatOptions) {part : List Token}
    (readable : ∀ t ∈ part, t.Readable) :
    (∃ s', Clause repeatOption s part s') ↔ part ∈ Grammar.repeatOption := by
  rw [Grammar.mem_repeatOption]
  refine exists_pair_iff (fun key next _ isNext => ?_) (repeatOption_ne_unused s) readable
  constructor
  · rintro ⟨s', read⟩
    by_cases count : key.value = "count"
    · refine Or.inl ⟨count, ?_⟩
      by_cases number : next.kind = .number
      · exact Or.inl ⟨number, (repeatOption_number_iff s count number isNext).mp ⟨s', read⟩⟩
      · rw [repeatOption, if_pos count] at read
        split at read
        · rename_i number'
          exact absurd number' number
        · rename_i param
          exact Or.inr param
        · exact absurd read (Attempt.note_bind_ne_pure _ _ _ _)
    · rw [repeatOption, if_neg count] at read
      split at read
      · rename_i counter
        refine Or.inr ⟨counter, ?_⟩
        split at read
        · rename_i kinds
          simpa using kinds
        · exact absurd read (Attempt.note_bind_ne_pure _ _ _ _)
      · simp at read
  · rintro (⟨count, ⟨number, integral⟩ | param⟩ | ⟨counter, kinds⟩)
    · exact (repeatOption_number_iff s count number isNext).mpr integral
    · exact ⟨_, by simp only [repeatOption, if_pos count, param]; rfl⟩
    · have kinds : next.kind = .string ∨ next.kind = .symbol := by simpa using kinds
      have other : key.value ≠ "count" := by simp [counter]
      exact ⟨_, by rw [repeatOption, if_neg other, if_pos counter, if_pos kinds]⟩

private theorem screenOption_unused_iff {s : ScreenOptions} {key next : Token} :
    (∃ s', screenOption s key next = pure (some (s', false))) ↔ key.value ∈ Schema.viewports := by
  unfold screenOption
  split
  · rename_i viewport
    exact iff_of_true ⟨_, rfl⟩ (by simpa using viewport)
  · rename_i other
    refine iff_of_false ?_ (by simpa using other)
    rintro ⟨s', read⟩
    split at read
    · obtain ⟨name, -, read⟩ := Attempt.bind_eq_pure_iff.mp read
      simp at read
    · exact Attempt.note_bind_ne_pure _ _ _ _ read

private theorem screenOption_used_iff {s : ScreenOptions} {key next : Token} :
    (∃ s', screenOption s key next = pure (some (s', true))) ↔
      key.value = "layout" ∧ next.kind = .symbol := by
  constructor
  · rintro ⟨s', read⟩
    unfold screenOption at read
    split at read
    · simp at read
    · split at read
      · rename_i layout
        obtain ⟨name, found, -⟩ := Attempt.bind_eq_pure_iff.mp read
        exact ⟨layout, (Attempt.expect_eq_pure_iff.mp found).1⟩
      · exact absurd read (Attempt.note_bind_ne_pure _ _ _ _)
  · rintro ⟨layout, symbol⟩
    have other : ¬Schema.viewports.contains key.value = true := by
      rw [layout]
      decide
    rw [screenOption, if_neg other, if_pos layout, Attempt.expect, if_pos symbol]
    exact ⟨_, rfl⟩

theorem steady_screenOption : Steady screenOption := by
  constructor
  · intro s key next s' read next' isValue
    have viewport := screenOption_unused_iff.mp ⟨s', read⟩
    rw [screenOption, if_pos (by simpa using viewport)] at read ⊢
    exact read
  · intro s key next s' ends read
    obtain ⟨-, symbol⟩ := screenOption_used_iff.mp ⟨s', read⟩
    simp [symbol] at ends

theorem clause_screenOption_iff (s : ScreenOptions) {part : List Token}
    (readable : ∀ t ∈ part, t.Readable) :
    (∃ s', Clause screenOption s part s') ↔ part ∈ Grammar.screenOption := by
  rw [Grammar.mem_screenOption]
  refine exists_clause_iff (fun key next _ _ => screenOption_used_iff) (fun key _ => ?_) readable
  constructor
  · rintro ⟨s', unused⟩
    exact screenOption_unused_iff.mp ⟨s', unused (Token.eof Position.first) rfl⟩
  · intro viewport
    exact ⟨_, fun next _ => by rw [screenOption, if_pos (by simpa using viewport)]⟩

private theorem not_isTarget_overlayProps (key : String) :
    ¬PropDef.IsTarget (Schema.overlayProps.find? key) := by
  intro target
  obtain ⟨definition, found, navigation⟩ := Option.map_eq_some_iff.mp target
  obtain ⟨front, back, split, -⟩ := List.lookup_eq_some_iff.mp found
  have other : ∀ entry ∈ Schema.overlayProps.entries, entry.2.type ≠ .navigation := by decide
  exact other (key, definition) (by simp [split]) navigation

theorem steady_overlayOption : Steady overlayOption := by
  constructor
  · intro s key next s' read next' isValue
    unfold overlayOption at read ⊢
    split at read
    · split at read
      · simp at read
      · exact absurd read (Attempt.note_bind_ne_pure _ _ _ _)
    · rename_i other
      rw [if_neg other]
      obtain ⟨⟨v, used⟩, found, chosen⟩ := Attempt.bind_eq_pure_iff.mp read
      obtain ⟨rfl, rfl⟩ : _ = s' ∧ used = false := by simpa using chosen
      rw [(PropValue.read_unused found).2 next' isValue]
      rfl
  · intro s key next s' ends read
    unfold overlayOption at read
    split at read
    · rw [if_neg (by rintro (kind | kind) <;> simp [kind] at ends)] at read
      exact Attempt.note_bind_ne_pure _ _ _ _ read
    · obtain ⟨⟨v, used⟩, found, chosen⟩ := Attempt.bind_eq_pure_iff.mp read
      obtain ⟨-, rfl⟩ : _ = s' ∧ used = true := by simpa using chosen
      exact PropValue.read_ends ends found

theorem clause_overlayId (s : OverlayOptions) {key next : Token} (keyword : key.kind = .keyword)
    (isId : key.value = "id") (kinds : next.kind = .string ∨ next.kind = .symbol) :
    Clause overlayOption s [key, next] ⟨next.value, s.props⟩ :=
  .pair keyword (by rw [overlayOption, if_pos isId, if_pos kinds])

/-- What an option other than the id makes of the options before it. -/
private theorem overlayOption_eq_of_ne_id {s : OverlayOptions} {key : Token} (next : Token)
    (other : key.value ≠ "id") : overlayOption s key next = (do
      let (value, used) ← PropValue.read (Schema.overlayProps.find? key.value) next
      return some (⟨s.id, s.props.insert key.value value⟩, used)) := by
  rw [overlayOption, if_neg other]

theorem clause_overlayProperty (s : OverlayOptions) {part : List Token}
    (readable : ∀ t ∈ part, t.Readable) (property : part ∈ Grammar.overlayProperty) :
    ∃ s', Clause overlayOption s part s' ∧ s.id = s'.id := by
  rcases Grammar.mem_keyword_optional.mp property with
    ⟨key, next, rfl, keyword, other, isValue⟩ | ⟨key, rfl, keyword, other⟩
  · obtain ⟨v, read⟩ := (PropValue.read_used_iff (readable next (by simp))).mpr
      (Or.inr ⟨not_isTarget_overlayProps key.value, isValue⟩)
    exact ⟨⟨s.id, s.props.insert key.value v⟩,
      .pair keyword (by rw [overlayOption_eq_of_ne_id next other, read]; rfl), rfl⟩
  · obtain ⟨v, read⟩ := PropValue.read_bare (not_isTarget_overlayProps key.value)
    exact ⟨⟨s.id, s.props.insert key.value v⟩, .bare keyword fun next isValue => by
      rw [overlayOption_eq_of_ne_id next other, read next isValue]; rfl, rfl⟩

/-- A clause of an overlay gives its id, or is a property that keeps it. -/
theorem overlay_clause_cases {s s' : OverlayOptions} {part : List Token}
    (clause : Clause overlayOption s part s') (readable : ∀ t ∈ part, t.Readable) :
    (∃ key next, part = [key, next] ∧ key.kind = .keyword ∧ key.value = "id" ∧
      (next.kind = .string ∨ next.kind = .symbol) ∧ s'.id = next.value) ∨
        part ∈ Grammar.overlayProperty ∧ s'.id = s.id := by
  cases clause with
  | @pair _ key next keyword used =>
      by_cases isId : key.value = "id"
      · rw [overlayOption, if_pos isId] at used
        split at used
        · rename_i kinds
          obtain rfl : (⟨next.value, s.props⟩ : OverlayOptions) = s' := by simpa using used
          exact Or.inl ⟨key, next, rfl, keyword, isId, kinds, rfl⟩
        · exact absurd used (Attempt.note_bind_ne_pure _ _ _ _)
      · rw [overlayOption_eq_of_ne_id next isId] at used
        obtain ⟨⟨v, used⟩, read, chosen⟩ := Attempt.bind_eq_pure_iff.mp used
        obtain ⟨rfl, rfl⟩ : _ = s' ∧ used = true := by simpa using chosen
        rcases (PropValue.read_used_iff (readable next (by simp))).mp ⟨v, read⟩ with
          ⟨target, -⟩ | ⟨-, isValue⟩
        · exact absurd target (not_isTarget_overlayProps key.value)
        · exact Or.inr ⟨Grammar.mem_keyword_optional.mpr
            (Or.inl ⟨key, next, rfl, keyword, isId, isValue⟩), rfl⟩
  | @bare _ key keyword unused =>
      have here := unused (Token.eof Position.first) rfl
      by_cases isId : key.value = "id"
      · rw [overlayOption, if_pos isId, if_neg (by simp [Token.eof])] at here
        exact absurd here (Attempt.note_bind_ne_pure _ _ _ _)
      · rw [overlayOption_eq_of_ne_id _ isId] at here
        obtain ⟨⟨v, used⟩, -, chosen⟩ := Attempt.bind_eq_pure_iff.mp here
        obtain ⟨rfl, -⟩ : _ = s' ∧ used = false := by simpa using chosen
        exact Or.inr ⟨Grammar.mem_keyword_optional.mpr (Or.inr ⟨key, rfl, keyword, isId⟩), rfl⟩

/-- Clauses of an overlay leave it its id, or give it one last. -/
private theorem overlay_clauses_cases {s s' : OverlayOptions} {left : List Token}
    (clauses : Clauses overlayOption s left s') (readable : ∀ t ∈ left, t.Readable)
    (proper : s'.id ≠ "") :
    left ∈ Grammar.overlayProperty∗ ∧ s'.id = s.id ∨ left ∈ Grammar.overlayOptions := by
  induction clauses with
  | nil s => exact Or.inl ⟨Language.nil_mem_kstar _, rfl⟩
  | @cons s s' s'' part rest first others ih =>
      have here : ∀ t ∈ part, t.Readable :=
        fun t member => readable t (List.mem_append_left _ member)
      rcases ih (fun t member => readable t (List.mem_append_right _ member)) proper with
        ⟨properties, kept⟩ | given
      · rcases overlay_clause_cases first here with
          ⟨key, next, rfl, keyword, isId, kinds, same⟩ | ⟨property, same⟩
        · refine Or.inr ⟨[key, next], ⟨[], Language.nil_mem_kstar _, [key, next], ?_, rfl⟩, rest,
            properties, rfl⟩
          exact Grammar.mem_keyword_one.mpr ⟨key, next, rfl, keyword, isId, by simpa using kinds,
            fun empty => proper (by rw [kept, same, empty])⟩
        · exact Or.inl ⟨Grammar.append_mem_kstar property properties, kept.trans same⟩
      · obtain ⟨_, ⟨front, earlier, id, isId, rfl⟩, back, properties, rfl⟩ := given
        refine Or.inr ⟨part ++ front ++ id, ⟨part ++ front, ?_, id, isId, rfl⟩, back, properties,
          by simp⟩
        refine Grammar.append_mem_kstar ?_ earlier
        rcases overlay_clause_cases first here with
          ⟨key, next, rfl, keyword, isKey, kinds, -⟩ | ⟨property, -⟩
        · exact Or.inl (Grammar.mem_keyword_one.mpr ⟨key, next, rfl, keyword, isKey,
            by simpa using kinds⟩)
        · exact Or.inr property

/-- An overlay has an id exactly if the last that it is given is not empty. -/
theorem overlay_clauses_iff (props : Table PropValue) {left : List Token}
    (readable : ∀ t ∈ left, t.Readable) :
    (∃ s, Clauses overlayOption ⟨"", props⟩ left s ∧ s.id ≠ "") ↔
      left ∈ Grammar.overlayOptions := by
  constructor
  · rintro ⟨s, clauses, proper⟩
    exact (overlay_clauses_cases clauses readable proper).resolve_left
      fun kept => proper kept.2
  · rintro ⟨_, ⟨front, others, id, isId, rfl⟩, back, properties, rfl⟩
    obtain ⟨key, next, rfl, keyword, isKey, kinds, proper⟩ := Grammar.mem_keyword_one.mp isId
    have kinds : next.kind = .string ∨ next.kind = .symbol := by simpa using kinds
    have inside {part whole : List Token} (here : part <:+: whole)
        (all : ∀ t ∈ whole, t.Readable) : ∀ t ∈ part, t.Readable :=
      fun t member => all t (here.mem member)
    simp only [List.append_assoc, List.forall_mem_append] at readable
    obtain ⟨s, before, -⟩ := exists_clauses (R := fun _ _ => True) (fun _ => trivial)
      (fun _ _ => trivial) (fun s part clause here => by
        rcases clause with isId | property
        · obtain ⟨key, next, rfl, keyword, isKey, kinds⟩ := Grammar.mem_keyword_one.mp isId
          exact ⟨_, clause_overlayId s keyword isKey (by simpa using kinds), trivial⟩
        · obtain ⟨s', clause, -⟩ := clause_overlayProperty s (inside here readable.1) property
          exact ⟨s', clause, trivial⟩) (⟨"", props⟩ : OverlayOptions) others
    obtain ⟨s', behind, same⟩ := exists_clauses (R := fun s s' : OverlayOptions => s.id = s'.id)
      (fun _ => rfl) Eq.trans (fun s part property here =>
        clause_overlayProperty s (inside here readable.2.2) property)
          ⟨next.value, s.props⟩ properties
    refine ⟨s', ?_, fun empty => proper (same.trans empty)⟩
    have clauses := before.append (.cons (clause_overlayId s keyword isKey kinds) behind)
    rwa [← List.append_assoc] at clauses

end Parts
end Wireframe
