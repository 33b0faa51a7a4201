import Wireframe.Proofs.Clauses
import Wireframe.Proofs.Closed

/-!
# Phrases

Closed forms are told apart by their tokens.  Where the words of a language are made of closed
lists, the forms of such a word are those that the language is put together from.
-/

namespace Wireframe

open scoped Computability

namespace Form

/-- Closed forms are told apart by their tokens. -/
theorem tokensAll_inj {forms forms' : List Form} (closed : ∀ form ∈ forms, form.Closed)
    (closed' : ∀ form ∈ forms', form.Closed) (same : tokensAll forms = tokensAll forms') :
    forms = forms' := by
  have read {forms : List Form} (closed : ∀ form ∈ forms, form.Closed) :=
    read_tokensAll (Token.eof Position.first) [] forms ⟨Token.eof Position.first, []⟩ [] closed
  have both := (read closed).symm.trans
    ((congrArg _ (congrArg (· ++ []) same)).trans (read closed'))
  simpa [OpenList.read, OpenList.closeAll, OpenList.close] using both

/-- Whether a form is a closed list. -/
def ClosedList (form : Form) : Prop :=
  form.Closed ∧ form.first.kind = .openParen

variable {opener closer : Token} {items forms : List Form}

theorem ClosedList.eq_list {form : Form} (closed : form.ClosedList) :
    ∃ opener items closer, form = list opener items closer := by
  cases form with
  | atom t => exact absurd closed.2 (closed_atom_iff.mp closed.1).1.1
  | list opener items closer => exact ⟨opener, items, closer, rfl⟩

private theorem splitNested_map (nested : List Nested) :
    Parts.splitNested (nested.map Item.nested) = (nested, []) := by
  induction nested with
  | nil => rfl
  | cons n rest ih => rw [List.map_cons, Parts.splitNested, ih]

private theorem splitAtoms_append (atoms : List Token) (nested : List Nested) :
    Parts.splitAtoms (atoms.map Item.atom ++ nested.map Item.nested) =
      (atoms, nested.map Item.nested) := by
  induction atoms with
  | nil =>
      cases nested with
      | nil => rfl
      | cons n rest => rfl
  | cons t atoms ih => rw [List.map_cons, List.cons_append, Parts.splitAtoms, ih]

/-- The parts of a list whose atoms all stand before its nested forms. -/
theorem parts_of_split {atoms : List Token} (split : items = atoms.map atom ++ forms)
    (lists : ∀ form ∈ forms, form.ClosedList) : (list opener items closer).parts =
      ⟨opener, atoms, forms.map fun form => ⟨form, form.child⟩, closer⟩ := by
  have readAtoms : (atoms.map atom).map (fun form => Item.ofForm form form.child) =
      atoms.map Item.atom := by
    rw [List.map_map]
    rfl
  have readLists : forms.map (fun form => Item.ofForm form form.child) =
      (forms.map fun form => (⟨form, form.child⟩ : Nested)).map Item.nested := by
    rw [List.map_map]
    refine List.map_congr_left fun form member => ?_
    obtain ⟨opener', items', closer', rfl⟩ := (lists form member).eq_list
    rfl
  rw [parts, Parts.ofItems, readItems_eq_map, split, List.map_append, readAtoms, readLists,
    splitAtoms_append]
  simp only [splitNested_map]
  rfl

end Form

namespace Document

open Form

/-- The tokens of a closed list are read as the list, whatever token is the end behind them. -/
theorem rootForm_of_closedList {form : Form} {tokens : List Token} (closed : form.ClosedList)
    (same : Token.beforeEnd tokens = form.tokens) : rootForm tokens = (form, []) := by
  obtain ⟨opener, items, closer, rfl⟩ := closed.eq_list
  obtain ⟨opens, closes, inner⟩ := closed_list_iff.mp closed.1
  have split : Token.beforeEnd tokens = opener :: (tokensAll items ++ [closer]) := same
  rw [rootForm, split]
  simp only [if_pos opens]
  rw [read_tokensAll _ _ items _ _ inner, OpenList.read_closeParen_nil _ _ closes]
  simp [OpenList.close]

end Document

namespace Grammar

open Form

/-- Whether the words of a language are made of atoms. -/
def Flat (l : Language Token) : Prop :=
  ∀ ts ∈ l, ∀ t ∈ ts, (atom t).Closed

theorem flat_one {p : Token → Prop} (atoms : ∀ t, p t → (atom t).Closed) : Flat (one p) := by
  rintro _ ⟨t, rfl, holds⟩ u member
  obtain rfl := List.mem_singleton.mp member
  exact atoms u holds

theorem Flat.mul {l m : Language Token} (left : Flat l) (right : Flat m) : Flat (l * m) := by
  rintro _ ⟨front, isFront, back, isBack, rfl⟩ t member
  rcases List.mem_append.mp member with early | late
  · exact left front isFront t early
  · exact right back isBack t late

theorem Flat.add {l m : Language Token} (left : Flat l) (right : Flat m) : Flat (l + m) := by
  rintro ts (isLeft | isRight)
  · exact left ts isLeft
  · exact right ts isRight

theorem flat_empty : Flat 1 := by
  rintro ts rfl t member
  exact absurd member List.not_mem_nil

theorem Flat.optional {l : Language Token} (flat : Flat l) : Flat (optional l) :=
  flat.add flat_empty

theorem Flat.kstar {l : Language Token} (flat : Flat l) : Flat l∗ := by
  rintro _ ⟨parts, rfl, all⟩ t member
  obtain ⟨part, isPart, here⟩ := List.mem_flatten.mp member
  exact flat part (all part isPart) t here

theorem Flat.mono {l m : Language Token} (flat : Flat m) (inside : ∀ ts ∈ l, ts ∈ m) : Flat l :=
  fun ts member => flat ts (inside ts member)

/-- Whether the words of a language are made of closed lists. -/
def Phrases (l : Language Token) : Prop :=
  ∀ ts ∈ l, ∃ forms, (∀ form ∈ forms, form.ClosedList) ∧ tokensAll forms = ts

/-- Whether each word of a language is a closed list. -/
def Phrase (l : Language Token) : Prop :=
  ∀ ts ∈ l, ∃ form : Form, form.ClosedList ∧ form.tokens = ts

variable {l m : Language Token} {forms : List Form}

theorem Phrase.closed (phrase : Phrase l) :
    ∀ ts ∈ l, ∃ form : Form, form.Closed ∧ form.tokens = ts :=
  fun ts member =>
    let ⟨form, closed, same⟩ := phrase ts member
    ⟨form, closed.1, same⟩

theorem Phrase.phrases (phrase : Phrase l) : Phrases l := by
  intro ts member
  obtain ⟨form, closed, same⟩ := phrase ts member
  exact ⟨[form], by simpa using closed, by simpa [tokensAll] using same⟩

theorem Phrase.add (left : Phrase l) (right : Phrase m) : Phrase (l + m) := by
  rintro ts (isLeft | isRight)
  · exact left ts isLeft
  · exact right ts isRight

theorem phrases_empty : Phrases 1 := by
  rintro ts rfl
  exact ⟨[], by simp, rfl⟩

theorem Phrases.mul (left : Phrases l) (right : Phrases m) : Phrases (l * m) := by
  rintro _ ⟨front, isFront, back, isBack, rfl⟩
  obtain ⟨forms, closed, rfl⟩ := left front isFront
  obtain ⟨forms', closed', rfl⟩ := right back isBack
  exact ⟨forms ++ forms', List.forall_mem_append.mpr ⟨closed, closed'⟩, tokensAll_append _ _⟩

theorem Phrases.kstar (phrases : Phrases l) : Phrases l∗ := by
  rintro _ ⟨parts, rfl, all⟩
  induction parts with
  | nil => exact ⟨[], by simp, rfl⟩
  | cons part parts ih =>
      obtain ⟨here, later⟩ := List.forall_mem_cons.mp all
      obtain ⟨forms, closed, rfl⟩ := phrases part here
      obtain ⟨others, closed', same⟩ := ih later
      exact ⟨forms ++ others, List.forall_mem_append.mpr ⟨closed, closed'⟩,
        by rw [tokensAll_append, same, List.flatten_cons]⟩

theorem phrase_paren (flat : Flat l) (phrases : Phrases m) : Phrase (paren (l * m)) := by
  rintro _ ⟨_, ⟨_, ⟨opener, rfl, opens⟩, _, ⟨atoms, isAtoms, back, isBack, rfl⟩, rfl⟩, _,
    ⟨closer, rfl, closes⟩, rfl⟩
  obtain ⟨forms, closed, rfl⟩ := phrases back isBack
  refine ⟨.list opener (atoms.map atom ++ forms) closer, ⟨?_, opens⟩, ?_⟩
  · refine closed_list_iff.mpr ⟨opens, closes, List.forall_mem_append.mpr ⟨?_, ?_⟩⟩
    · exact List.forall_mem_map.mpr (flat atoms isAtoms)
    · exact fun form member => (closed form member).1
  · simp [tokens, tokensAll_append, tokensAll_atoms]

section

variable (closed : ∀ form ∈ forms, form.Closed)

include closed

/-- The forms of a word of two languages are those of a word of each. -/
theorem tokensAll_mem_mul_iff (left : Phrases l) (right : Phrases m) :
    tokensAll forms ∈ l * m ↔
      ∃ front back, forms = front ++ back ∧ tokensAll front ∈ l ∧ tokensAll back ∈ m := by
  constructor
  · rintro ⟨first, isFirst, second, isSecond, same⟩
    obtain ⟨front, closedFront, rfl⟩ := left first isFirst
    obtain ⟨back, closedBack, rfl⟩ := right second isSecond
    refine ⟨front, back, tokensAll_inj closed ?_ ?_, isFirst, isSecond⟩
    · exact List.forall_mem_append.mpr
        ⟨fun form member => (closedFront form member).1,
          fun form member => (closedBack form member).1⟩
    · rw [tokensAll_append]
      exact same.symm
  · rintro ⟨front, back, rfl, isFirst, isSecond⟩
    exact ⟨_, isFirst, _, isSecond, (tokensAll_append front back).symm⟩

theorem tokensAll_mem_phrase_iff (phrase : Phrase l) :
    tokensAll forms ∈ l ↔ ∃ form, forms = [form] ∧ form.tokens ∈ l := by
  constructor
  · intro member
    obtain ⟨form, ⟨isClosed, -⟩, same⟩ := phrase _ member
    refine ⟨form, tokensAll_inj closed (by simpa using isClosed) ?_, by rwa [same]⟩
    rw [← same, tokensAll, tokensAll, List.append_nil]
  · rintro ⟨form, rfl, member⟩
    simpa [tokensAll] using member

theorem tokensAll_mem_empty_iff : tokensAll forms ∈ (1 : Language Token) ↔ forms = [] := by
  rw [Language.mem_one]
  constructor
  · exact fun none => tokensAll_inj closed (by simp) none
  · rintro rfl
    rfl

/-- The forms of a word of a closure are words of the language. -/
theorem tokensAll_mem_kstar_iff
    (single : ∀ ts ∈ l, ∃ form : Form, form.Closed ∧ form.tokens = ts) :
    tokensAll forms ∈ l∗ ↔ ∀ form ∈ forms, form.tokens ∈ l := by
  constructor
  · rintro ⟨parts, same, all⟩
    have words : ∃ others : List Form, others.map tokens = parts ∧
        ∀ form ∈ others, form.Closed := by
      clear same
      induction parts with
      | nil => exact ⟨[], rfl, by simp⟩
      | cons part parts ih =>
          obtain ⟨here, later⟩ := List.forall_mem_cons.mp all
          obtain ⟨form, isClosed, rfl⟩ := single part here
          obtain ⟨others, rfl, closed'⟩ := ih later
          exact ⟨form :: others, rfl, List.forall_mem_cons.mpr ⟨isClosed, closed'⟩⟩
    obtain ⟨others, rfl, closed'⟩ := words
    obtain rfl : forms = others := tokensAll_inj closed closed'
      (by rw [same, tokensAll_eq_flatMap, List.flatMap_def])
    exact fun form member => all _ (List.mem_map_of_mem member)
  · intro all
    rw [tokensAll_eq_flatMap, List.flatMap_def]
    exact Language.join_mem_kstar (List.forall_mem_map.mpr all)

end

variable {opener closer : Token} {items : List Form}

theorem tokens_mem_paren_iff (closed : (Form.list opener items closer).Closed) :
    (Form.list opener items closer).tokens ∈ paren l ↔ tokensAll items ∈ l := by
  obtain ⟨opens, closes, -⟩ := closed_list_iff.mp closed
  constructor
  · rintro ⟨_, ⟨_, ⟨opener', rfl, -⟩, inner, member, rfl⟩, _, ⟨closer', rfl, -⟩, same⟩
    obtain ⟨-, same⟩ : opener' = opener ∧ inner ++ [closer'] = tokensAll items ++ [closer] := by
      simpa [tokens] using same
    rwa [← (List.append_inj' same rfl).1]
  · intro member
    exact ⟨opener :: tokensAll items, ⟨[opener], ⟨opener, rfl, opens⟩, _, member, rfl⟩, [closer],
      ⟨closer, rfl, closes⟩, rfl⟩

/-- A closed list is made of atoms and lists of two languages exactly if the atoms at its head and
the forms nested behind them are, and nothing is behind those. -/
theorem tokensAll_mem_flat_mul_iff (closed : (Form.list opener items closer).Closed)
    (flat : Flat l) (phrases : Phrases m) :
    tokensAll items ∈ l * m ↔
      (Form.list opener items closer).parts.head ∈ l ∧
        tokensAll ((Form.list opener items closer).parts.nested.map Nested.form) ∈ m ∧
        (Form.list opener items closer).parts.next.kind = .closeParen := by
  obtain ⟨-, closes, inner⟩ := closed_list_iff.mp closed
  constructor
  · rintro ⟨atoms, isAtoms, back, isBack, same⟩
    obtain ⟨forms, lists, rfl⟩ := phrases back isBack
    have split : items = atoms.map atom ++ forms := by
      refine tokensAll_inj inner ?_ ?_
      · exact List.forall_mem_append.mpr ⟨List.forall_mem_map.mpr (flat atoms isAtoms),
          fun form member => (lists form member).1⟩
      · rw [tokensAll_append, tokensAll_atoms]
        exact same.symm
    rw [parts_of_split split lists]
    refine ⟨isAtoms, ?_, closes⟩
    rwa [List.map_map, show Nested.form ∘ (fun form => ⟨form, form.child⟩) = id from rfl,
      List.map_id]
  · rintro ⟨isAtoms, isBack, next⟩
    have same := (Parts.closes_of_next closed.shaped next).items_eq
    refine ⟨_, isAtoms, _, isBack, ?_⟩
    conv => rhs; rw [same]
    rw [tokensAll_append, tokensAll_atoms]

end Grammar
end Wireframe
