import Wireframe.Proofs.Interchange
import Wireframe.Proofs.Meaning
import Wireframe.Proofs.NumberValues
import Wireframe.Proofs.Relocation

/-!
# Numbers between quotes

A number token may become a text token wherever a number property awaits its value, whatever form
that stands in and whatever else is wrong with the source: the list that was opened last is read the
same, and so are the lists around it.  What is read stands at other places and is else the same.
-/

namespace Wireframe

open List (Forall₂)

namespace Parts

theorem ofItems_atoms (opener : Token) (atoms : List Token) (items : List Item) (closer : Token) :
    ofItems opener (atoms.map .atom ++ items) closer =
      let p := ofItems opener items closer
      ⟨p.opener, atoms ++ p.head, p.nested, p.next⟩ := by
  have split : splitAtoms (atoms.map .atom ++ items) =
      (atoms ++ (splitAtoms items).1, (splitAtoms items).2) := by
    induction atoms with
    | nil => rfl
    | cons t atoms ih => rw [List.map_cons, List.cons_append, splitAtoms, ih, List.cons_append]
  rw [ofItems, ofItems, split]

variable {p : Parts} {name : Token} {left : List Token}

theorem symbol_cons (isName : name.kind = .symbol) :
    p.symbol (name :: left) = pure (name.value, left) := by
  change (Attempt.expect .symbol name >>= _) = _
  rw [Attempt.expect, if_pos isName]
  rfl

theorem toChild_of_element (head : p.head = name :: left) (isName : name.kind = .symbol)
    (isElement : IsElement name.value) :
    p.toChild = do return .element (← p.toElement name.value left) :=
  toChild_of_isElement (by rw [head, symbol_cons isName]) isElement

theorem toChild_of_overlay (head : p.head = name :: left) (isName : name.kind = .symbol)
    (isOverlay : name.value ∈ Schema.overlayForms) (notRepeat : name.value ≠ Schema.repeatForm) :
    p.toChild = Attempt.fail (.misplacedOverlay name.value) p.opener := by
  rw [toChild, head, symbol_cons isName, pure_bind]
  simp only [if_neg notRepeat, if_pos (List.contains_iff_mem.mpr isOverlay)]

theorem toEntry?_of_other (head : p.head = name :: left) (isName : name.kind = .symbol)
    (other : name.value ∉ Schema.topLevelForms) :
    p.toEntry? = do
      Attempt.note (.unknownForm name.value) p.opener
      return none := by
  rw [Parts.toEntry?, head, symbol_cons isName, pure_bind]
  simp only [Schema.topLevelForms, List.mem_cons, List.not_mem_nil, or_false, not_or] at other
  simp only
  split
  · exact absurd ‹_› other.2.2.2.2
  · exact absurd ‹_› other.2.2.2.1
  · exact absurd ‹_› other.2.1
  · exact absurd ‹_› other.2.2.1
  · exact absurd ‹_› other.1
  · rfl

theorem names_of_other (isName : name.kind = .symbol) {u : Token} (other : u.kind ≠ .symbol)
    (closer : Token) (items : List Item) :
    names closer (.atom name :: .atom u :: items) = Attempt.unexpected .symbol u := by
  have first : Attempt.expect .symbol name = pure name := if_pos isName
  have second : Attempt.expect .symbol u = Attempt.unexpected .symbol u := if_neg other
  rw [names, names, Item.first, Item.first, first, second]
  rfl

end Parts

theorem OverlayKind.mem_overlayForms {name : String} {kind : OverlayKind}
    (isKind : ofName? name = some kind) : name ∈ Schema.overlayForms := by
  have same := List.find?_some isKind
  rw [beq_iff_eq] at same
  rw [← same]
  cases kind <;> decide

theorem Document.rootItems_of_other {name : Token} (isName : name.kind = .symbol)
    (other : name.value ≠ Schema.rootForm) {closer : Token} {items : List Form} {α : Type}
    {f : List Form → Attempt α} : rootItems closer (.atom name :: items) >>= f =
      Attempt.fail (.expectedWord Schema.rootForm name.value) name := by
  have first : Attempt.expect .symbol name = pure name := if_pos isName
  change (Attempt.expect .symbol name >>= _) >>= f = _
  rw [first, pure_bind, if_pos other]
  rfl

namespace Form

theorem parts_atoms (opener : Token) (atoms : List Token) (more : List Form) (closer : Token) :
    (list opener (atoms.map .atom ++ more) closer).parts =
      let p := (list opener more closer).parts
      ⟨p.opener, atoms ++ p.head, p.nested, p.next⟩ := by
  have items : readItems (atoms.map .atom ++ more) = atoms.map .atom ++ readItems more := by
    rw [readItems_eq_map, readItems_eq_map, List.map_append, List.map_map]
    rfl
  rw [parts, parts, items, Parts.ofItems_atoms]

/-- A list whose head begins with a name and no symbol behind it is read by its clauses: the same,
if it is the same element or, as its name may be that of an overlay, the same overlay. -/
theorem sameReadings_of_clauses {opener name u : Token} {rest rest' : List Token}
    (isName : name.kind = .symbol) (other : u.kind ≠ .symbol)
    (notRoot : name.value ≠ Schema.rootForm) (notTop : name.value ∉ Schema.topLevelForms)
    (notRepeat : name.value ≠ Schema.repeatForm)
    (element : Parts.IsElement name.value → ∀ (p : Parts) (left : List Token),
      p.toElement name.value (u :: rest ++ left) = p.toElement name.value (u :: rest' ++ left))
    (overlay : name.value ∈ Schema.overlayForms → ∀ (p : Parts) (kind : OverlayKind)
      (left : List Token),
        Parts.toOverlay ⟨p.opener, name :: (u :: rest ++ left), p.nested, p.next⟩ kind =
          Parts.toOverlay ⟨p.opener, name :: (u :: rest' ++ left), p.nested, p.next⟩ kind)
    (more : List Form) (closer : Token) :
    (list opener ((name :: u :: rest).map .atom ++ more) closer).SameReadings
      (list opener ((name :: u :: rest').map .atom ++ more) closer) := by
  have parts := parts_atoms opener (name :: u :: rest) more closer
  have parts' := parts_atoms opener (name :: u :: rest') more closer
  generalize (list opener more closer).parts = p at parts parts'
  refine ⟨rfl, ?_, ?_, rfl, fun kind isKind => ?_, ?_, fun behind => ?_⟩
  · change (list _ _ _).parts.toChild = (list _ _ _).parts.toChild
    rw [parts, parts']
    by_cases isOverlay : name.value ∈ Schema.overlayForms
    · rw [Parts.toChild_of_overlay rfl isName isOverlay notRepeat,
        Parts.toChild_of_overlay rfl isName isOverlay notRepeat]
    · have isElement : Parts.IsElement name.value := ⟨notRepeat, isOverlay, notTop⟩
      rw [Parts.toChild_of_element rfl isName isElement,
        Parts.toChild_of_element rfl isName isElement]
      exact congrArg (· >>= fun e => pure (Child.element e)) (element isElement _ p.head)
  · exact (Parts.names_of_other isName other closer _).trans
      (Parts.names_of_other isName other closer _).symm
  · have isOverlay : name.value ∈ Schema.overlayForms := by
      rw [show Parts.overlayKind? _ = if name.kind = .symbol then _ else _ from rfl,
        if_pos isName] at isKind
      exact OverlayKind.mem_overlayForms isKind
    rw [parts, parts']
    exact overlay isOverlay p kind p.head
  · change (list _ _ _).parts.toEntry? = (list _ _ _).parts.toEntry?
    rw [parts, parts', Parts.toEntry?_of_other rfl isName notTop,
      Parts.toEntry?_of_other rfl isName notTop]
  · exact (Document.rootItems_of_other isName notRoot).trans
      (Document.rootItems_of_other isName notRoot).symm

end Form

namespace Schema

/-- Whether the head of a form of a name, which may be that of an element with its content or that
of an overlay, ends with a number property without a value. -/
inductive Awaits (name : String) : List Token → Prop
  | props {clauses : List Token} (awaits : (element name).props.Awaits clauses) :
      Awaits name clauses
  | content {t : Token} {clauses : List Token} (takes : (element name).takesContent = true)
      (isContent : t.kind = .string ∨ t.kind = .param)
      (awaits : (element name).props.Awaits clauses) : Awaits name (t :: clauses)
  | overlay {clauses : List Token} (isOverlay : name ∈ overlayForms)
      (awaits : overlayProps.Awaits clauses) : Awaits name clauses

theorem props_of_not_isBuiltin {name : String} (unknown : isBuiltin name = false) :
    (element name).props = Table.empty := by
  have none : registry.find? (·.name == name) = none := by
    simpa [isBuiltin] using unknown
  rw [element, none]
  rfl

/-- The forms that are no elements have no properties of elements. -/
theorem isElement_of_awaits {name : String} {clauses : List Token}
    (awaits : (element name).props.Awaits clauses) :
    name ≠ rootForm ∧ Parts.IsElement name := by
  have unknown : ∀ other ∈ rootForm :: repeatForm :: (overlayForms ++ topLevelForms),
      isBuiltin other = false := by decide +kernel
  have known : name ∉ rootForm :: repeatForm :: (overlayForms ++ topLevelForms) :=
    fun member => awaits.known_ne_empty (props_of_not_isBuiltin (unknown name member))
  simp only [List.mem_cons, List.mem_append, not_or] at known
  exact ⟨known.1, known.2⟩

namespace Awaits

variable {name : String} {head : List Token}

theorem name_ne (awaits : Awaits name head) :
    name ≠ rootForm ∧ name ≠ repeatForm ∧ name ∉ topLevelForms := by
  have apart : ∀ overlay ∈ overlayForms,
      overlay ≠ rootForm ∧ overlay ≠ repeatForm ∧ overlay ∉ topLevelForms := by decide
  have ofElement {clauses : List Token} (awaits : (element name).props.Awaits clauses) :
      name ≠ rootForm ∧ name ≠ repeatForm ∧ name ∉ topLevelForms :=
    have ⟨notRoot, isElement⟩ := isElement_of_awaits awaits
    ⟨notRoot, isElement.1, isElement.2.2⟩
  cases awaits with
  | props awaits => exact ofElement awaits
  | content takes isContent awaits => exact ofElement awaits
  | overlay isOverlay awaits => exact apart name isOverlay

theorem eq_cons (awaits : Awaits name head) : ∃ u rest, head = u :: rest ∧ u.kind ≠ .symbol := by
  cases awaits with
  | content takes isContent awaits =>
      refine ⟨_, _, rfl, fun symbol => ?_⟩
      rcases isContent with string | param
      · exact absurd (symbol.symm.trans string) (by decide)
      · exact absurd (symbol.symm.trans param) (by decide)
  | props awaits =>
      obtain ⟨key, rest, rfl, keyword⟩ := awaits.head
      exact ⟨key, rest, rfl, by simp [keyword]⟩
  | overlay isOverlay awaits =>
      obtain ⟨key, rest, rfl, keyword⟩ := awaits.head
      exact ⟨key, rest, rfl, by simp [keyword]⟩

theorem kinds (awaits : Awaits name head) :
    ∀ t ∈ head, t.kind = .keyword ∨ t.kind.isValue = true := by
  cases awaits with
  | content takes isContent awaits =>
      refine List.forall_mem_cons.mpr ⟨Or.inr ?_, awaits.kinds⟩
      rcases isContent with string | param
      · rw [string]
        rfl
      · rw [param]
        rfl
  | props awaits => exact awaits.kinds
  | overlay isOverlay awaits => exact awaits.kinds

section AsText

variable {t : Token} (number : t.kind = .number) (numeral : Word.IsNumeral t.value.toList)
include number numeral

theorem toElement_asText (awaits : Awaits name head) (isElement : Parts.IsElement name)
    (p : Parts) (left : List Token) :
    p.toElement name (head ++ t :: left) = p.toElement name (head ++ t.asText :: left) := by
  have same {clauses : List Token} (awaits : (element name).props.Awaits clauses) :=
    (readsProps_readProperty (element name).props).readClauses_asText number numeral awaits
  cases awaits with
  | props awaits =>
      obtain ⟨key, rest, rfl, keyword⟩ := awaits.head
      have none (more : List Token) :
          Parts.content (element name) (key :: rest ++ more) = (none, key :: rest ++ more) := by
        simp [Parts.content, keyword]
      simp only [Parts.toElement, none, same awaits]
  | @content u clauses takes isContent awaits =>
      obtain ⟨c, content⟩ : ∃ c, ∀ more : List Token,
          Parts.content (element name) (u :: clauses ++ more) = (some c, clauses ++ more) := by
        rcases isContent with string | param
        · exact ⟨.text u.value, fun more => by simp [Parts.content, takes, string]⟩
        · exact ⟨.param u.value, fun more => by simp [Parts.content, takes, param]⟩
      simp only [Parts.toElement, content, same awaits]
  | overlay isOverlay awaits => exact absurd isOverlay isElement.2.1

theorem toOverlay_asText (awaits : Awaits name head) (isOverlay : name ∈ overlayForms)
    (p : Parts) (kind : OverlayKind) (word : Token) (left : List Token) :
    Parts.toOverlay ⟨p.opener, word :: (head ++ t :: left), p.nested, p.next⟩ kind =
      Parts.toOverlay ⟨p.opener, word :: (head ++ t.asText :: left), p.nested, p.next⟩ kind := by
  have ofElement {clauses : List Token} (awaits : (element name).props.Awaits clauses) : False :=
    (isElement_of_awaits awaits).2.2.1 isOverlay
  cases awaits with
  | props awaits => exact (ofElement awaits).elim
  | content takes isContent awaits => exact (ofElement awaits).elim
  | overlay isOverlay awaits =>
      simp only [Parts.toOverlay, List.tail_cons,
        readsProps_overlayOption.readClauses_asText number numeral awaits]
      rfl

/-- A list is read the same if a number that its head awaits is put between quotes. -/
theorem sameReadings {word : Token} (awaits : Awaits word.value head)
    (isName : word.kind = .symbol) (opener : Token) (more : List Form) (closer : Token) :
    (Form.list opener ((word :: (head ++ [t])).map .atom ++ more) closer).SameReadings
      (.list opener ((word :: (head ++ [t.asText])).map .atom ++ more) closer) := by
  obtain ⟨notRoot, notRepeat, notTop⟩ := awaits.name_ne
  obtain ⟨u, rest, rfl, other⟩ := awaits.eq_cons
  refine Form.sameReadings_of_clauses isName other notRoot notTop notRepeat
    (fun isElement p left => ?_) (fun isOverlay p kind left => ?_) more closer
  · have same := awaits.toElement_asText number numeral isElement p left
    simpa using same
  · have same := awaits.toOverlay_asText number numeral isOverlay p kind word left
    simpa using same

end AsText

end Awaits
end Schema

namespace Token

/-- Whether the next token is the value of a number property in the list that was opened last. -/
def AwaitsNumber (front : List Token) : Prop :=
  ∃ before opener name head, front = before ++ opener :: name :: head ∧
    opener.kind = .openParen ∧ name.kind = .symbol ∧ Schema.Awaits name.value head

end Token

theorem Form.closed_atom_of_kind {t : Token}
    (kind : t.kind = .keyword ∨ t.kind.isValue = true) : (atom t).Closed := by
  rw [closed_atom_iff]
  rcases kind with keyword | isValue
  · simp [keyword]
  · refine ⟨⟨?_, ?_⟩, ?_⟩ <;> exact fun same => absurd (same ▸ isValue) (by decide)

namespace OpenList

theorem read_atoms (eof : Token) (l : OpenList) (outer : List OpenList) {atoms : List Token}
    (kinds : ∀ t ∈ atoms, (Form.atom t).Closed) (rest : List Token) :
    read eof l outer (atoms ++ rest) =
      read eof ⟨l.opener, (atoms.map Form.atom).reverse ++ l.items⟩ outer rest := by
  have tokens := Form.read_tokensAll eof rest (atoms.map .atom) l outer
    (List.forall_mem_map.mpr kinds)
  rwa [Form.tokensAll_atoms] at tokens

/-- Open lists may stand for each other if they are read as the same whatever forms follow. -/
theorem Interchange.of_sameReadings {opener : Token} {items items' : List Form}
    (same : ∀ more closer, (Form.list opener (items ++ more) closer).SameReadings
      (.list opener (items' ++ more) closer)) :
    Interchange ⟨opener, items.reverse⟩ ⟨opener, items'.reverse⟩ := by
  intro more more' later closer
  rw [List.reverse_reverse, List.reverse_reverse]
  have kept : Forall₂ Form.Interchange items' items' :=
    List.forall₂_same.mpr fun f _ => .refl f
  exact (same more closer).trans (.list opener (List.rel_append kept later) closer)

end OpenList

theorem Token.beforeEnd_append_cons {front : List Token} {t : Token}
    (inner : ∀ u ∈ front, u.kind ≠ .eof) (notEnd : t.kind ≠ .eof) (back : List Token) :
    beforeEnd (front ++ t :: back) = front ++ t :: beforeEnd back := by
  rw [beforeEnd, List.takeWhile_append_of_pos fun u member => by simp [isEnd, inner u member],
    List.takeWhile_cons_of_pos (by simp [isEnd, notEnd])]
  rfl

/-- Only the first token behind a root form counts. -/
theorem Document.ofForm_congr {behind behind' : List Token} (same : behind.head? = behind'.head?)
    (form : Form) : ofForm behind form = ofForm behind' form := by
  have check (closer : Token) : checkEnd closer behind = checkEnd closer behind' := by
    cases behind with
    | nil => rw [List.head?_eq_none_iff.mp same.symm]
    | cons t behind =>
        obtain ⟨rest, rfl⟩ := List.head?_eq_some_iff.mp same.symm
        rfl
  cases form with
  | atom t => rfl
  | list opener items closer => simp only [ofForm, check]

section AsText

variable {t : Token} (number : t.kind = .number) (numeral : Word.IsNumeral t.value.toList)
include number numeral

open OpenList

theorem OpenList.interchange_read_head (eof opener : Token) {name : Token} {head : List Token}
    (isName : name.kind = .symbol) (awaits : Schema.Awaits name.value head)
    (outer : List OpenList) (back : List Token) :
    (read eof ⟨opener, []⟩ outer (name :: (head ++ t :: back))).1.Interchange
        (read eof ⟨opener, []⟩ outer (name :: (head ++ t.asText :: back))).1 ∧
      (read eof ⟨opener, []⟩ outer (name :: (head ++ t :: back))).2 =
        (read eof ⟨opener, []⟩ outer (name :: (head ++ t.asText :: back))).2 := by
  have atoms (u : Token) (isValue : u.kind.isValue = true) :
      read eof ⟨opener, []⟩ outer (name :: (head ++ u :: back)) =
        read eof ⟨opener, ((name :: (head ++ [u])).map Form.atom).reverse⟩ outer back := by
    have kinds : ∀ v ∈ name :: (head ++ [u]), v.kind = .keyword ∨ v.kind.isValue = true := by
      refine List.forall_mem_cons.mpr ⟨Or.inr (by rw [isName]; rfl), ?_⟩
      exact List.forall_mem_append.mpr
        ⟨awaits.kinds, List.forall_mem_singleton.mpr (Or.inr isValue)⟩
    have closed : ∀ v ∈ name :: (head ++ [u]), (Form.atom v).Closed :=
      fun v member => Form.closed_atom_of_kind (kinds v member)
    have moved := read_atoms eof ⟨opener, []⟩ outer closed back
    simpa using moved
  rw [atoms t (by rw [number]; rfl), atoms t.asText rfl]
  refine Interchange.read eof back (List.forall₂_same.mpr fun l _ => .refl l) ?_
  exact .of_sameReadings fun more closer =>
    awaits.sameReadings number numeral isName opener more closer

theorem OpenList.interchange_read (eof : Token) {front : List Token}
    (awaits : Token.AwaitsNumber front) (l : OpenList) (outer : List OpenList)
    (back : List Token) :
    (read eof l outer (front ++ t :: back)).1.Interchange
        (read eof l outer (front ++ t.asText :: back)).1 ∧
      (read eof l outer (front ++ t :: back)).2.head? =
        (read eof l outer (front ++ t.asText :: back)).2.head? := by
  obtain ⟨before, opener, name, head, rfl, opens, isName, awaits⟩ := awaits
  simp only [List.append_assoc, List.cons_append]
  induction before generalizing l outer with
  | nil =>
      rw [List.nil_append, List.nil_append, read_openParen eof l outer opens,
        read_openParen eof l outer opens]
      have same := interchange_read_head number numeral eof opener isName awaits (l :: outer) back
      exact ⟨same.1, congrArg List.head? same.2⟩
  | cons u before ih =>
      rw [List.cons_append, List.cons_append, read.eq_def, read.eq_def eof l outer (u :: _)]
      simp only
      cases u.kind with
      | openParen => exact ih ⟨u, []⟩ (l :: outer)
      | closeParen =>
          cases outer with
          | nil =>
              refine ⟨.refl _, ?_⟩
              cases before with
              | nil => rfl
              | cons v before => rfl
          | cons parent outer => exact ih (parent.add (l.close u)) outer
      | _ => exact ih (l.add (.atom u)) outer

namespace Document

variable {front : List Token}

omit numeral in
theorem ending_asText (back : List Token) :
    Token.ending (front ++ t :: back) = Token.ending (front ++ t.asText :: back) := by
  have last : Token.endOf (front ++ t :: back) = Token.endOf (front ++ t.asText :: back) := by
    rw [Token.endOf, Token.endOf, List.getLast?_append, List.getLast?_append]
    cases back with
    | nil => rfl
    | cons u back => rfl
  rw [Token.ending, Token.ending, last, List.find?_append, List.find?_append]
  simp [Token.isEnd, number, Token.asText]

theorem interchange_rootForm (awaits : Token.AwaitsNumber front)
    (inner : ∀ u ∈ front, u.kind ≠ .eof) (back : List Token) :
    (rootForm (front ++ t :: back)).1.Interchange (rootForm (front ++ t.asText :: back)).1 ∧
      (rootForm (front ++ t :: back)).2.head? = (rootForm (front ++ t.asText :: back)).2.head? := by
  rw [rootForm, rootForm, ending_asText number,
    Token.beforeEnd_append_cons inner (by simp [number]),
    Token.beforeEnd_append_cons inner (t := t.asText) (by simp [Token.asText])]
  generalize Token.ending _ = eof, Token.beforeEnd back = back
  obtain ⟨before, opener, name, head, rfl, opens, isName, awaits⟩ := awaits
  cases before with
  | nil =>
      have same := interchange_read_head number numeral eof opener isName awaits [] back
      simp only [List.nil_append, List.cons_append, if_pos opens]
      exact ⟨same.1, congrArg List.head? same.2⟩
  | cons u before =>
      have awaits' : Token.AwaitsNumber (before ++ opener :: name :: head) :=
        ⟨before, opener, name, head, rfl, opens, isName, awaits⟩
      simp only [List.cons_append]
      split
      · exact interchange_read number numeral eof awaits' ⟨u, []⟩ [] back
      · refine ⟨.refl _, ?_⟩
        cases before with
        | nil => rfl
        | cons v before => rfl

theorem ofTokens_asText (limit : Int) (awaits : Token.AwaitsNumber front)
    (inner : ∀ u ∈ front, u.kind ≠ .eof) (back : List Token) :
    ofTokens limit (front ++ t :: back) = ofTokens limit (front ++ t.asText :: back) := by
  have deep : Token.tooDeep? limit 0 (front ++ t :: back) =
      Token.tooDeep? limit 0 (front ++ t.asText :: back) := by
    rw [Token.tooDeep?_append, Token.tooDeep?_append]
    simp [Token.tooDeep?, number, Token.asText]
  obtain ⟨forms, behind⟩ := interchange_rootForm number numeral awaits inner back
  rw [ofTokens, ofTokens, deep]
  simp only [forms.sameReadings.document, ofForm_congr behind]

end Document
end AsText

namespace Token

theorem ends_behind {source : String} {front back : List Token} {t : Token}
    (found : ofSource source = .ok (front ++ t :: back)) (word : t.kind ≠ .eof) :
    (∀ u ∈ front, u.kind ≠ .eof) ∧ ∃ u ∈ back, u.isEnd := by
  obtain ⟨words, same, inner⟩ := ofChars_eq_append_eof found
  rcases List.eq_nil_or_concat back with rfl | ⟨back, last, rfl⟩
  · obtain ⟨-, isLast⟩ := List.append_inj' same rfl
    exact absurd (congrArg Token.kind (List.cons.inj isLast).1) word
  · rw [List.concat_eq_append, ← List.cons_append, ← List.append_assoc] at same
    obtain ⟨rfl, isLast⟩ := List.append_inj' same rfl
    refine ⟨fun u member => inner u (List.mem_append_left _ member), last, by simp, ?_⟩
    rw [(List.cons.inj isLast).1]
    rfl

/-- A numeral may be put between quotes where a number property awaits its value: it is the same
number, and the source is read the same but for places. -/
theorem number_quoted {source : String} {front back : List Token} {t : Token}
    (found : ofSource source = .ok (front ++ t :: back)) (number : t.kind = .number) :
    (∃ n, Number.ofText t.value = .ok n ∧ (Literal.quoted t.value).coerce .number = .number n ∧
      (Literal.number n).coerce .number = .number n) ∧
    ∃ before after, source = before ++ t.value ++ after ∧
      t.start = Position.first.afterAll before.toList ∧
      (AwaitsNumber front → ∀ limit, Document.ReadingsAgree (Document.ofSource limit source)
        (Document.ofSource limit (before ++ "\"" ++ t.value ++ "\"" ++ after))) := by
  have numeral : Word.IsNumeral t.value.toList :=
    (isSpelled_of_ofChars found (t := t) (by simp) (by simp [number])).numeral number
  obtain ⟨before, after, split, start, tokens, found', words⟩ := words_of_quoted found number
  refine ⟨Literal.coerce_quoted numeral, before, after, split, start, fun awaits limit => ?_⟩
  have ⟨inner, u, behind, isEnd⟩ := ends_behind found (by simp [number])
  have proper : ∀ v ∈ front ++ t.asText :: back, v.start.isProper := by
    have all := isProper_of_ofChars (p := .first) rfl found
    simp only [List.forall_mem_append, List.forall_mem_cons] at all ⊢
    exact all
  have sameWords : (front ++ t.asText :: back).map word = tokens.map word := by
    rw [words, List.map_append, List.map_cons]
    rfl
  have alike := forall₂_alike sameWords proper (isProper_of_ofChars (p := .first) rfl found')
  have ended : ∃ u ∈ front ++ t.asText :: back, u.isEnd :=
    ⟨u, List.mem_append_right _ (List.mem_cons_of_mem _ behind), isEnd⟩
  rw [Document.ofSource, Document.ofSource, found, found']
  simp only
  rw [Document.ofTokens_asText number numeral limit awaits inner]
  exact .of_alike (Document.alike_ofTokens limit alike (Document.alike_ending alike ended))

/-- The place of the overlay moves, and with it the id that is made up of it. -/
theorem number_quoted_gap : ∃ front back,
    ofSource "(wire (screen s (box :gap 1.50) (modal)))" =
      .ok (front ++ ⟨.number, "1.50", ⟨1, 27⟩, ⟨1, 31⟩⟩ :: back) ∧ AwaitsNumber front ∧
    (∃ n, Number.ofText "1.50" = .ok n ∧ (Literal.quoted "1.50").coerce .number = .number n ∧
      (Literal.number n).coerce .number = .number n) ∧
    ∃ before after, "(wire (screen s (box :gap 1.50) (modal)))" = before ++ "1.50" ++ after ∧
      ⟨1, 27⟩ = Position.first.afterAll before.toList ∧
      ∀ limit, Document.ReadingsAgree
        (Document.ofSource limit "(wire (screen s (box :gap 1.50) (modal)))")
        (Document.ofSource limit (before ++ "\"" ++ "1.50" ++ "\"" ++ after)) := by
  let front : List Token :=
    [⟨.openParen, "(", ⟨1, 1⟩, ⟨1, 2⟩⟩, ⟨.symbol, "wire", ⟨1, 2⟩, ⟨1, 6⟩⟩,
      ⟨.openParen, "(", ⟨1, 7⟩, ⟨1, 8⟩⟩, ⟨.symbol, "screen", ⟨1, 8⟩, ⟨1, 14⟩⟩,
      ⟨.symbol, "s", ⟨1, 15⟩, ⟨1, 16⟩⟩, ⟨.openParen, "(", ⟨1, 17⟩, ⟨1, 18⟩⟩,
      ⟨.symbol, "box", ⟨1, 18⟩, ⟨1, 21⟩⟩, ⟨.keyword, "gap", ⟨1, 22⟩, ⟨1, 26⟩⟩]
  let back : List Token :=
    [⟨.closeParen, ")", ⟨1, 31⟩, ⟨1, 32⟩⟩, ⟨.openParen, "(", ⟨1, 33⟩, ⟨1, 34⟩⟩,
      ⟨.symbol, "modal", ⟨1, 34⟩, ⟨1, 39⟩⟩, ⟨.closeParen, ")", ⟨1, 39⟩, ⟨1, 40⟩⟩,
      ⟨.closeParen, ")", ⟨1, 40⟩, ⟨1, 41⟩⟩, ⟨.closeParen, ")", ⟨1, 41⟩, ⟨1, 42⟩⟩,
      Token.eof ⟨1, 42⟩]
  have found : ofSource "(wire (screen s (box :gap 1.50) (modal)))" =
      .ok (front ++ ⟨.number, "1.50", ⟨1, 27⟩, ⟨1, 31⟩⟩ :: back) := by
    cbv
  have typed : (Schema.element "box").props.find? "gap" =
      some ⟨.number, some (.number (.integer 0))⟩ := by
    decide +kernel
  have awaits : AwaitsNumber front :=
    ⟨front.take 5, _, _, _, rfl, rfl, rfl, .props (.number rfl typed)⟩
  obtain ⟨same, before, after, split, start, agree⟩ := number_quoted found rfl
  exact ⟨front, back, found, awaits, same, before, after, split, start, agree awaits⟩

end Token
end Wireframe
