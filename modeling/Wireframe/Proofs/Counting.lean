import Wireframe.Proofs.Acceptance

/-!
# Counts in derivations

No repetition in a document that derives from the grammar has an infinite count, wherever in it the
repetition stands.  This follows from the parts of the document, as no head of a list reaches across
a parenthesis.
-/

namespace Wireframe

namespace Token

variable {tokens left right atoms : List Token} {opener : Token}

theorem finiteRepeats_of_flat (flat : ∀ t ∈ tokens, t.kind ≠ .openParen) :
    FiniteRepeats tokens := by
  intro opener name atoms key number inside opens
  exact absurd opens (flat opener (inside.mem List.mem_cons_self))

/-- The head of a list ends at the next parenthesis. -/
theorem FiniteRepeats.append (first : FiniteRepeats left) (second : FiniteRepeats right)
    (starts : ∀ t ∈ right.head?, t.IsParen) : FiniteRepeats (left ++ right) := by
  intro opener name atoms key number inside opens isRepeat apart keyword isCount isNumber
  have inFirst := first opener name atoms key number
  have inSecond := second opener name atoms key number
  have noParen : ∀ t ∈ name :: (atoms ++ [key, number]), ¬t.IsParen := by
    intro t member
    have cases : t = name ∨ t ∈ atoms ∨ t = key ∨ t = number := by simpa using member
    rcases cases with rfl | inAtoms | rfl | rfl
    · simp [IsParen, kind_of_isSymbol isRepeat]
    · exact apart t inAtoms
    · simp [IsParen, keyword]
    · simp [IsParen, isNumber]
  generalize name :: (atoms ++ [key, number]) = tail at inside inFirst inSecond noParen
  suffices within : opener :: tail <:+: left ∨ opener :: tail <:+: right by
    rcases within with within | within
    · exact inFirst within opens isRepeat apart keyword isCount isNumber
    · exact inSecond within opens isRepeat apart keyword isCount isNumber
  obtain ⟨before, behind, same⟩ := inside
  rw [List.append_assoc] at same
  rcases List.append_eq_append_iff.mp same with ⟨rest, rfl, split⟩ | ⟨rest, rfl, split⟩
  · rcases List.append_eq_append_iff.mp split with ⟨more, rfl, -⟩ | ⟨more, whole, rfl⟩
    · exact Or.inl ⟨before, more, by simp⟩
    · cases rest with
      | nil => exact Or.inr ⟨[], behind, by simp_all⟩
      | cons u rest =>
          obtain ⟨rfl, rfl⟩ := List.cons.inj ((List.cons_append ..).symm.trans whole.symm)
          cases more with
          | nil => exact Or.inl ⟨before, [], by simp⟩
          | cons t more => exact absurd (starts t rfl) (noParen t (by simp))
  · exact Or.inr ⟨rest, behind, by rw [List.append_assoc, split]⟩

/-- Where only atoms follow a parenthesis, it is their counts that matter, and those only behind the
name of a repetition. -/
theorem FiniteRepeats.cons (flat : ∀ t ∈ atoms, t.kind ≠ .openParen)
    (counts : ∀ name ∈ atoms.head?, name.isSymbol Schema.repeatForm = true → FiniteCounts atoms) :
    FiniteRepeats (opener :: atoms) := by
  intro opener' name between key number inside opens isRepeat _
  rcases List.infix_cons_iff.mp inside with ⟨behind, same⟩ | within
  · obtain ⟨rfl, rfl⟩ := List.cons.inj same
    exact counts name rfl isRepeat key number ⟨name :: between, behind, by simp⟩
  · exact absurd opens (flat opener' (within.mem List.mem_cons_self))

end Token

namespace Grammar

open Form
open scoped Computability

variable {l m : Language Token}

/-- Whether the words of a language are made of lists without an infinite count. -/
def Counted (l : Language Token) : Prop :=
  ∀ ts ∈ l, Token.FiniteRepeats ts ∧ ∀ t ∈ ts.head?, t.IsParen

theorem counted_empty : Counted 1 := by
  rintro ts rfl
  exact ⟨Token.finiteRepeats_of_flat (by simp), by simp⟩

theorem Counted.mul (left : Counted l) (right : Counted m) : Counted (l * m) := by
  rintro _ ⟨front, isFront, back, isBack, rfl⟩
  obtain ⟨counts, starts⟩ := left front isFront
  obtain ⟨counts', starts'⟩ := right back isBack
  refine ⟨counts.append counts' starts', ?_⟩
  cases front with
  | nil => exact starts'
  | cons t front => exact starts

theorem Counted.add (left : Counted l) (right : Counted m) : Counted (l + m) := by
  rintro ts (isLeft | isRight)
  · exact left ts isLeft
  · exact right ts isRight

theorem Counted.kstar (counted : Counted l) : Counted l∗ := by
  rintro _ ⟨parts, rfl, all⟩
  induction parts with
  | nil => exact counted_empty [] rfl
  | cons part parts ih =>
      obtain ⟨here, later⟩ := List.forall_mem_cons.mp all
      exact (counted.mul (m := {parts.flatten}) fun _ same => same ▸ ih later) _
        ⟨part, here, _, rfl, rfl⟩

/-- Atoms and lists between parentheses are a list without an infinite count if the lists are and
the atoms are not those of a repetition with one. -/
theorem counted_paren (flat : Flat l) (inner : Counted m)
    (counts : ∀ atoms ∈ l, ∀ name ∈ atoms.head?, name.isSymbol Schema.repeatForm = true →
      Token.FiniteCounts atoms) : Counted (paren (l * m)) := by
  intro ts member
  obtain ⟨opener, atoms, back, closer, rfl, opens, isAtoms, isBack, closes⟩ :=
    mem_paren_mul_iff.mp member
  have atoms' : ∀ t ∈ atoms, t.kind ≠ .openParen := fun t member =>
    (closed_atom_iff.mp (flat atoms isAtoms t member)).1.1
  have head : Token.FiniteRepeats (opener :: atoms) := .cons atoms' (counts atoms isAtoms)
  have last : Token.FiniteRepeats [closer] :=
    Token.finiteRepeats_of_flat (by simp [closes])
  obtain ⟨lists, starts⟩ := inner back isBack
  refine ⟨?_, by simp [Token.IsParen, opens]⟩
  rw [List.append_assoc, ← List.cons_append]
  refine head.append (lists.append last (by simp [Token.IsParen, closes])) ?_
  cases back with
  | nil => simp [Token.IsParen, closes]
  | cons t back => exact starts

/-- Only the name of a repetition makes counts of the numbers at the head of a list. -/
theorem counted_named {p : Token → Prop} (flat : Flat (one p)) (flat' : Flat l) (inner : Counted m)
    (other : ∀ t, p t → t.value ≠ Schema.repeatForm) : Counted (paren (one p * l * m)) := by
  refine counted_paren (flat.mul flat') inner fun atoms member name first isRepeat => ?_
  obtain ⟨t, rest, rfl, holds, -⟩ := mem_one_mul.mp member
  obtain rfl : t = name := by simpa using first
  simp only [Token.isSymbol, Bool.and_eq_true, beq_iff_eq] at isRepeat
  exact absurd isRepeat.2 (other t holds)

theorem finiteCounts_of_options {options : List Token} (isOptions : options ∈ repeatOption∗) :
    Token.FiniteCounts options := by
  obtain ⟨parts, rfl, all⟩ := isOptions
  induction parts with
  | nil =>
      intro key number adjacent
      exact absurd adjacent.length_le (by simp)
  | cons part parts ih =>
      obtain ⟨here, later⟩ := List.forall_mem_cons.mp all
      obtain ⟨key', next, rfl, -, option⟩ := mem_repeatOption.mp here
      intro key number adjacent keyword isCount isNumber negative
      have cases : [key, number] <+: [key', next] ++ parts.flatten ∨
          [key, number] <+: next :: parts.flatten ∨ [key, number] <:+: parts.flatten := by
        simpa [List.infix_cons_iff] using adjacent
      rcases cases with first | second | within
      · obtain ⟨rfl, rfl⟩ : key = key' ∧ number = next := by simpa using first
        rcases option with ⟨-, ⟨-, d, denotes, isInteger⟩ | isParam⟩ | ⟨isAs, -⟩
        · rw [denotes]
          rintro ⟨rfl⟩
          simp [Double.isInteger, Double.toInt?] at isInteger
        · simp [isNumber] at isParam
        · simp [isCount] at isAs
      · -- No value of an option is a keyword.
        obtain rfl : key = next := (List.cons_prefix_cons.mp second).1
        rcases option with ⟨-, ⟨isNumber, -⟩ | isParam⟩ | ⟨-, kinds⟩
        · simp [keyword] at isNumber
        · simp [keyword] at isParam
        · simp [keyword] at kinds
      · exact ih later key number within keyword isCount isNumber negative

theorem counted_node : Counted node := by
  intro ts isNode
  induction isNode with
  | @repetition opener name closer options body opens symbol named isOptions isBody closes ih =>
      have bodies : Counted {body} := fun _ same => same ▸ ih
      have flat := (flat_word Schema.repeatForm).mul flat_repeatOption.kstar
      refine counted_paren flat bodies (fun atoms member name first isRepeat => ?_) _ ?_
      · obtain ⟨t, options, rfl, ⟨symbol, -⟩, isOptions⟩ := mem_one_mul.mp member
        intro key number adjacent keyword
        rcases List.infix_cons_iff.mp adjacent with front | within
        · obtain rfl : key = t := (List.cons_prefix_cons.mp front).1
          simp [symbol] at keyword
        · exact finiteCounts_of_options isOptions key number within keyword
      · exact mem_paren_mul_iff.mpr ⟨opener, name :: options, _, closer, rfl, opens,
          mem_one_mul.mpr ⟨name, options, rfl, ⟨symbol, named⟩, isOptions⟩, rfl, closes⟩
  | @element opener name closer atoms children opens symbol named isAtoms accepts isChildren closes
      ih =>
      have nodes : Counted {children.flatten} := by
        rintro _ rfl
        have closure : Counted {ts | ts ∈ children}∗ := Counted.kstar ih
        exact closure _ (Language.join_mem_kstar fun part member => member)
      refine counted_named (flat_word name.value) (flat_atoms (Schema.element name.value)) nodes
        (fun t same => same.2 ▸ named.1) _ ?_
      exact mem_paren_mul_iff.mpr ⟨opener, name :: atoms, _, closer, rfl, opens,
        mem_one_mul.mpr ⟨name, atoms, rfl, ⟨symbol, rfl⟩, isAtoms⟩, rfl, closes⟩

theorem counted_overlay : Counted overlay := by
  refine counted_named (flat_one fun t ⟨symbol, _⟩ => closed_atom_iff.mpr (by simp [symbol]))
    flat_overlayOptions counted_node.kstar fun t ⟨_, isOverlay⟩ => ?_
  rintro isRepeat
  rw [isRepeat] at isOverlay
  exact absurd isOverlay (by decide)

theorem counted_params : Counted (paren (kind .symbol)∗) := by
  rw [← mul_one (kind TokenKind.symbol)∗]
  refine counted_paren (flat_kind (by decide)).kstar counted_empty fun atoms member _ _ _ => ?_
  intro key number adjacent keyword
  obtain ⟨parts, rfl, all⟩ := member
  obtain ⟨part, isPart, here⟩ := List.mem_flatten.mp (adjacent.mem List.mem_cons_self)
  obtain ⟨t, rfl, symbol⟩ := all part isPart
  obtain rfl := List.mem_singleton.mp here
  exact absurd (keyword.symm.trans symbol) (by decide)

/-- A list that begins with a word other than the name of a repetition. -/
theorem counted_word {name : String} (flat : Flat l) (inner : Counted m)
    (other : name ≠ Schema.repeatForm) : Counted (paren (word name * l * m)) :=
  counted_named (flat_word name) flat inner fun _ same => same.2 ▸ other

theorem counted_topLevel : Counted topLevel := by
  have flatName : Flat (kind .symbol) := flat_kind (by decide)
  have inclusions : Counted inclusion := by
    rw [inclusion, ← mul_one (word _ * _)]
    exact counted_word (flat_kind (by decide)) counted_empty (by decide)
  have statements : Counted facts := by
    rw [facts, ← mul_one (word _ * _)]
    exact counted_word ((flat_keyword _).mul flat_value.optional).kstar counted_empty (by decide)
  have components : Counted component := by
    rw [component, mul_assoc]
    exact counted_word flatName (counted_params.mul counted_node) (by decide)
  have layouts : Counted layout := counted_word flatName counted_node (by decide)
  have screens : Counted screen := by
    rw [screen, mul_assoc (word _ * _), mul_assoc (word _)]
    exact counted_word (flatName.mul ((flat_kind (by decide)).optional.mul flat_screenOption.kstar))
      ((counted_overlay.kstar.mul counted_node).mul counted_overlay.kstar) (by decide)
  exact (((inclusions.add statements).add components).add layouts).add screens

theorem finiteRepeats_of_mem_root {tokens : List Token}
    (member : tokens ∈ paren (word "wire" * topLevel∗)) : Token.FiniteRepeats tokens := by
  rw [← mul_one (word "wire")] at member
  exact (counted_word flat_empty counted_topLevel.kstar (by decide) tokens member).1

end Grammar
end Wireframe
