import Wireframe.Proofs.Phrases

/-!
# Derivations

A reader succeeds on the parts of a list exactly if the atoms at its head belong to the language of
the grammar for them, its nested forms are read, and its end comes next.
-/

namespace Wireframe

open scoped Computability

namespace Attempt

@[simp]
theorem succeeds_expect_iff {wanted : TokenKind} {t : Token} :
    (expect wanted t).succeeds = true ↔ t.kind = wanted := by
  rw [succeeds_iff]
  exact ⟨fun ⟨u, found⟩ => (expect_eq_pure_iff.mp found).1,
    fun kind => ⟨t, expect_eq_pure_iff.mpr ⟨kind, rfl⟩⟩⟩

/-- An attempt that goes on with what was read succeeds exactly if both parts do. -/
theorem succeeds_bind_of_forall {α β : Type} {x : Attempt α} {f : α → Attempt β} {P : Prop}
    (later : ∀ a, (f a).succeeds = true ↔ P) :
    (x >>= f).succeeds = true ↔ x.succeeds = true ∧ P := by
  rw [succeeds_bind, succeeds_iff]
  constructor
  · rintro ⟨a, found, success⟩
    exact ⟨⟨a, found⟩, (later a).mp success⟩
  · rintro ⟨⟨a, found⟩, holds⟩
    exact ⟨a, found, (later a).mpr holds⟩

@[simp]
theorem succeeds_recover {α : Type} (x : Attempt α) : x.recover.succeeds = x.succeeds := by
  rw [Bool.eq_iff_iff, succeeds_iff, succeeds_iff]
  constructor
  · rintro ⟨a, found⟩
    obtain ⟨b, -, read⟩ := recover_eq_pure_iff.mp found
    exact ⟨b, read⟩
  · rintro ⟨a, rfl⟩
    exact ⟨some a, rfl⟩

end Attempt

namespace Grammar

theorem keyword_of_mem_kstar {l : Language Token} {t : Token} {rest : List Token}
    (leads : ∀ t rest, t :: rest ∈ l → t.kind = .keyword) (member : t :: rest ∈ l∗) :
    t.kind = .keyword := by
  obtain ⟨parts, same, all⟩ := Language.mem_kstar_iff_exists_nonempty.mp member
  cases parts with
  | nil => simp at same
  | cons part parts =>
      obtain ⟨isPart, nonempty⟩ := all part List.mem_cons_self
      cases part with
      | nil => exact absurd rfl nonempty
      | cons u part =>
          obtain ⟨rfl, -⟩ := List.cons.inj same
          exact leads t part isPart

theorem keyword_of_mem_property {schema : ElementSchema} {t : Token} {rest : List Token}
    (member : t :: rest ∈ (property schema)∗) : t.kind = .keyword := by
  refine keyword_of_mem_kstar (fun u back isProperty => ?_) member
  rcases mem_property.mp isProperty with ⟨key, next, same, keyword, -⟩ | ⟨key, same, keyword, -⟩
  · rwa [(List.cons.inj same).1]
  · rwa [(List.cons.inj same).1]

theorem keyword_of_mem_screenOption {t : Token} {rest : List Token}
    (member : t :: rest ∈ screenOption∗) : t.kind = .keyword := by
  refine keyword_of_mem_kstar (fun u back isOption => ?_) member
  rcases mem_screenOption.mp isOption with ⟨key, next, same, keyword, -⟩ | ⟨key, same, keyword, -⟩
  · rwa [(List.cons.inj same).1]
  · rwa [(List.cons.inj same).1]

theorem mem_optional_mul {p : Token → Prop} {l : Language Token} {ts : List Token} :
    ts ∈ optional (one p) * l ↔ (∃ t rest, ts = t :: rest ∧ p t ∧ rest ∈ l) ∨ ts ∈ l := by
  rw [optional, add_mul, one_mul, Language.mem_add]
  refine or_congr_left ⟨?_, ?_⟩
  · rintro ⟨_, ⟨t, rfl, holds⟩, rest, member, rfl⟩
    exact ⟨t, rest, rfl, holds, member⟩
  · rintro ⟨t, rest, rfl, holds, member⟩
    exact ⟨[t], ⟨t, rfl, holds⟩, rest, member, rfl⟩

theorem mem_one_mul {p : Token → Prop} {l : Language Token} {ts : List Token} :
    ts ∈ one p * l ↔ ∃ t rest, ts = t :: rest ∧ p t ∧ rest ∈ l := by
  constructor
  · rintro ⟨_, ⟨t, rfl, holds⟩, rest, member, rfl⟩
    exact ⟨t, rest, rfl, holds, member⟩
  · rintro ⟨t, rest, rfl, holds, member⟩
    exact ⟨[t], ⟨t, rfl, holds⟩, rest, member, rfl⟩

end Grammar

open Attempt

/-- What is left behind the content of an element belongs to a language whose words begin with
keywords exactly if all is content and such a word. -/
theorem Parts.content_mem_iff {schema : ElementSchema} {l : Language Token} {left : List Token}
    (leads : ∀ t rest, t :: rest ∈ l → t.kind = .keyword) :
    (Parts.content schema left).2 ∈ l ↔ left ∈ Grammar.content schema * l := by
  unfold Grammar.content
  cases takes : schema.takesContent with
  | false =>
      have all : (Parts.content schema left).2 = left := by
        cases left with
        | nil => rfl
        | cons t left => simp [Parts.content, takes]
      rw [all, if_neg Bool.false_ne_true, one_mul]
  | true =>
      rw [if_pos rfl, Grammar.kind, Grammar.kind, Grammar.one_add_one, Grammar.mem_optional_mul]
      cases left with
      | nil => simp [Parts.content]
      | cons t left =>
          by_cases quoted : t.kind = .string
          · have other : t :: left ∉ l := fun member => by
              simpa [quoted] using leads t left member
            simp [Parts.content, takes, quoted, other]
          · by_cases param : t.kind = .param
            · have other : t :: left ∉ l := fun member => by
                simpa [param] using leads t left member
              simp [Parts.content, takes, param, other]
            · simp [Parts.content, takes, quoted, param]

theorem Parts.title_mem_iff {l : Language Token} {left : List Token}
    (leads : ∀ t rest, t :: rest ∈ l → t.kind = .keyword) :
    (Parts.title left).2 ∈ l ↔ left ∈ Grammar.optional (Grammar.kind .string) * l := by
  rw [Grammar.kind, Grammar.mem_optional_mul]
  cases left with
  | nil => simp [Parts.title]
  | cons t left =>
      by_cases quoted : t.kind = .string
      · have other : t :: left ∉ l := fun member => by
          simpa [quoted] using leads t left member
        simp [Parts.title, quoted, other]
      · simp [Parts.title, quoted]

theorem succeeds_readNested_iff {nested : List Nested} :
    (readNested nested).succeeds = true ↔ ∀ n ∈ nested, n.child.succeeds = true := by
  induction nested with
  | nil => simp [readNested]
  | cons n rest ih =>
      rw [readNested, succeeds_bind_of_forall (P := ∀ n ∈ rest, n.child.succeeds = true)]
      · simp
      · intro child
        rw [succeeds_bind_of_forall (P := True) (by simp), and_true, ih]

namespace Parts

/-- Whether the parts of a list are those of a closed list of readable tokens. -/
structure Regular (p : Parts) : Prop where
  opener : p.opener.start.isProper = true
  head : ∀ t ∈ p.head, t.Readable
  atoms : ∀ t ∈ p.head, t.kind ≠ .openParen ∧ t.kind ≠ .closeParen
  openers : ∀ n ∈ p.nested, n.opener.kind = .openParen
  ends : p.nested = [] → p.next.kind = .closeParen

variable {p : Parts} {left : List Token}

theorem succeeds_children_iff {schema : ElementSchema} {nested : List Nested} :
    (children schema nested).succeeds = true ↔
      (nested ≠ [] → schema.takesChildren = true) ∧ ∀ n ∈ nested, n.child.succeeds = true := by
  cases nested with
  | nil => simp [children]
  | cons n rest =>
      rw [children]
      split
      · rename_i takes
        simp [takes, succeeds_readNested_iff]
      · rename_i leaf
        refine iff_of_false (fun success => ?_) fun all => leaf (all.1 (List.cons_ne_nil n rest))
        obtain ⟨_, found⟩ := succeeds_iff.mp success
        exact note_bind_ne_pure _ _ _ _ found

namespace Regular

variable (regular : p.Regular)

include regular

theorem afterHead_kind : p.afterHead.kind = .openParen ∨ p.afterHead.kind = .closeParen := by
  unfold afterHead
  cases forms : p.nested with
  | nil => exact Or.inr (regular.ends forms)
  | cons n rest => exact Or.inl (regular.openers n (by simp [forms]))

theorem closing_kind_iff (inside : ∀ t ∈ left, t ∈ p.head) :
    (p.closing left).kind = .closeParen ↔ left = [] ∧ p.next.kind = .closeParen := by
  cases left with
  | nil => simp [closing]
  | cons t left => simp [closing, (regular.atoms t (inside t List.mem_cons_self)).2]

theorem current_kind_iff (inside : ∀ t ∈ left, t ∈ p.head) :
    (p.current left).kind = .closeParen ↔
      left = [] ∧ p.nested = [] ∧ p.next.kind = .closeParen := by
  cases left with
  | nil =>
      cases forms : p.nested with
      | nil => simp [current, afterHead, forms]
      | cons n rest => simp [current, afterHead, forms, regular.openers n]
  | cons t left => simp [current, (regular.atoms t (inside t List.mem_cons_self)).2]

theorem symbol_eq_pure_iff {name : String} {rest : List Token} :
    p.symbol left = pure (name, rest) ↔
      ∃ t, left = t :: rest ∧ t.kind = .symbol ∧ t.value = name := by
  constructor
  · intro read
    obtain ⟨t, found, named⟩ := bind_eq_pure_iff.mp read
    obtain ⟨symbol, rfl⟩ := expect_eq_pure_iff.mp found
    obtain ⟨rfl, rfl⟩ : _ = name ∧ _ = rest := by simpa using named
    cases left with
    | nil =>
        have kind : p.afterHead.kind = .symbol := symbol
        rcases regular.afterHead_kind with opens | closes
        · exact absurd (kind.symm.trans opens) (by decide)
        · exact absurd (kind.symm.trans closes) (by decide)
    | cons t left => exact ⟨t, rfl, symbol, rfl⟩
  · rintro ⟨t, rfl, symbol, rfl⟩
    simp [Parts.symbol, current, expect, symbol]

/-- Clauses are read with what comes behind them exactly if they make up all that is left. -/
theorem succeeds_clauses_iff {σ β : Type} {step : σ → Token → Token → Attempt (Option (σ × Bool))}
    (steady : Steady step) {s : σ} {f : σ × List Token → Attempt β} {P : σ → Prop}
    (later : ∀ s' rest, (∀ t ∈ rest, t ∈ left) →
      ((f (s', rest)).succeeds = true ↔ rest = [] ∧ P s')) :
    (readClauses p.afterHead step s left >>= f).succeeds = true ↔
      ∃ s', Clauses step s left s' ∧ P s' := by
  rw [succeeds_bind]
  constructor
  · rintro ⟨⟨s', rest⟩, read, success⟩
    obtain ⟨rfl, holds⟩ := (later s' rest (mem_of_readClauses (congrArg _ read))).mp success
    exact ⟨s', (readClauses_eq_pure_iff steady regular.afterHead_kind).mp read, holds⟩
  · rintro ⟨s', clauses, holds⟩
    exact ⟨(s', []), (readClauses_eq_pure_iff steady regular.afterHead_kind).mpr clauses,
      (later s' [] (by simp)).mpr ⟨rfl, holds⟩⟩

/-! ## Nodes -/

theorem readable_of_subset (inside : ∀ t ∈ left, t ∈ p.head) : ∀ t ∈ left, t.Readable :=
  fun t member => regular.head t (inside t member)

omit regular in
/-- A body is read exactly if it is the only nested form, right behind the atoms. -/
theorem succeeds_body_iff {β : Type} {f : Element × List Nested → Attempt β} {P : Prop}
    (later : ∀ e nested, (f (e, nested)).succeeds = true ↔ nested = [] ∧ P) :
    (p.element left >>= f).succeeds = true ↔
      left = [] ∧ (∃ n, p.nested = [n] ∧ n.child.succeeds = true) ∧ P := by
  rw [succeeds_bind]
  constructor
  · rintro ⟨⟨e, nested⟩, read, success⟩
    obtain ⟨rfl, n, forms, c, child⟩ := element_eq_pure read
    obtain ⟨rfl, holds⟩ := (later e nested).mp success
    exact ⟨rfl, ⟨n, forms, succeeds_iff.mpr ⟨c, child⟩⟩, holds⟩
  · rintro ⟨rfl, ⟨n, forms, success⟩, holds⟩
    obtain ⟨c, child⟩ := succeeds_iff.mp success
    exact ⟨(c.toElement, []), by simp [element, upcoming, forms, child],
      (later c.toElement []).mpr ⟨rfl, holds⟩⟩

theorem succeeds_end_iff {α : Type} {t : Token} (make : Location → α) :
    (do
      let closer ← expect .closeParen t
      return make (← place p.opener closer)).succeeds = true ↔ t.kind = .closeParen := by
  rw [succeeds_bind_of_forall (P := True), succeeds_expect_iff, and_true]
  intro closer
  rw [place_of_isProper regular.opener]
  simp

theorem succeeds_closeBody_iff {α : Type} (form : String) {nested : List Nested}
    (make : Location → α) :
    (do
      let closer ← p.closeBody form nested
      return make (← place p.opener closer)).succeeds = true ↔
      nested = [] ∧ p.next.kind = .closeParen := by
  cases nested with
  | cons n rest => simp [closeBody]
  | nil =>
      rw [closeBody, regular.succeeds_end_iff]
      simp

/-- An element is read exactly if its atoms are content and properties, and it accepts its nested
forms, which are read. -/
theorem succeeds_toElement_iff (inside : ∀ t ∈ left, t ∈ p.head) (name : String) :
    (p.toElement name left).succeeds = true ↔
      left ∈ Grammar.content (Schema.element name) * (Grammar.property (Schema.element name))∗ ∧
        ((p.nested ≠ [] → (Schema.element name).takesChildren = true) ∧
          ∀ n ∈ p.nested, n.child.succeeds = true) ∧
        p.next.kind = .closeParen := by
  have content : ∀ t ∈ (Parts.content (Schema.element name) left).2, t ∈ p.head :=
    fun t member => inside t (mem_of_content member)
  rw [toElement, regular.succeeds_clauses_iff (steady_readProperty _) (P := fun _ =>
    ((p.nested ≠ [] → (Schema.element name).takesChildren = true) ∧
      ∀ n ∈ p.nested, n.child.succeeds = true) ∧ p.next.kind = .closeParen)]
  · rw [exists_and_right, clauses_iff (fun s part => clause_readProperty_iff _ s) _
      (regular.readable_of_subset content),
      content_mem_iff fun t rest => Grammar.keyword_of_mem_property]
  · intro props rest inRest
    have closes := regular.closing_kind_iff fun t member => content t (inRest t member)
    rw [succeeds_bind_of_forall (P := rest = [] ∧ p.next.kind = .closeParen),
      succeeds_children_iff]
    · constructor
      · rintro ⟨children, rfl, next⟩
        exact ⟨rfl, children, next⟩
      · rintro ⟨rfl, children, next⟩
        exact ⟨children, rfl, next⟩
    · intro children
      rw [regular.succeeds_end_iff, closes]

theorem succeeds_toRepetition_iff (inside : ∀ t ∈ left, t ∈ p.head) :
    (p.toRepetition left).succeeds = true ↔
      left ∈ Grammar.repeatOption∗ ∧ (∃ n, p.nested = [n] ∧ n.child.succeeds = true) ∧
        p.next.kind = .closeParen := by
  rw [toRepetition, regular.succeeds_clauses_iff steady_repeatOption (P := fun _ =>
    (∃ n, p.nested = [n] ∧ n.child.succeeds = true) ∧ p.next.kind = .closeParen)]
  · rw [exists_and_right, clauses_iff (fun s part => clause_repeatOption_iff s) _
      (regular.readable_of_subset inside)]
  · intro s' rest _
    exact succeeds_body_iff fun e nested => regular.succeeds_closeBody_iff _ _

theorem succeeds_toChild_iff : p.toChild.succeeds = true ↔
    ∃ t left, p.head = t :: left ∧ t.kind = .symbol ∧
      (t.value = Schema.repeatForm ∧ (p.toRepetition left).succeeds = true ∨
        Grammar.IsElementName t.value ∧ (p.toElement t.value left).succeeds = true) := by
  rw [toChild, succeeds_bind]
  constructor
  · rintro ⟨⟨_, left⟩, symbol, success⟩
    obtain ⟨t, head, kind, rfl⟩ := regular.symbol_eq_pure_iff.mp symbol
    refine ⟨t, left, head, kind, ?_⟩
    simp only at success
    split at success
    · rename_i isRepeat
      obtain ⟨r, read, -⟩ := succeeds_bind.mp success
      exact Or.inl ⟨isRepeat, succeeds_iff.mpr ⟨r, read⟩⟩
    · rename_i notRepeat
      split at success
      · simp at success
      · rename_i notOverlay
        split at success
        · simp at success
        · rename_i notTop
          obtain ⟨e, read, -⟩ := succeeds_bind.mp success
          exact Or.inr ⟨⟨notRepeat, by simpa using notOverlay, by simpa using notTop⟩,
            succeeds_iff.mpr ⟨e, read⟩⟩
  · rintro ⟨t, left, head, kind, node⟩
    refine ⟨(t.value, left), regular.symbol_eq_pure_iff.mpr ⟨t, head, kind, rfl⟩, ?_⟩
    rcases node with ⟨isRepeat, success⟩ | ⟨⟨notRepeat, notOverlay, notTop⟩, success⟩
    · simp only [if_pos isRepeat]
      rw [succeeds_bind_of_forall (P := True) (by simp)]
      exact ⟨success, trivial⟩
    · simp only [if_neg notRepeat, List.contains_eq_mem, decide_eq_true_eq, if_neg notOverlay,
        if_neg notTop]
      rw [succeeds_bind_of_forall (P := True) (by simp)]
      exact ⟨success, trivial⟩

theorem succeeds_toInclude_iff (inside : ∀ t ∈ left, t ∈ p.head) :
    (p.toInclude left).succeeds = true ↔
      left ∈ Grammar.kind .string ∧ p.nested = [] ∧ p.next.kind = .closeParen := by
  have single : left ∈ Grammar.kind .string ↔ ∃ t, left = [t] ∧ t.kind = .string := Iff.rfl
  cases left with
  | nil =>
      have other : p.afterHead.kind ≠ .string := by
        rcases regular.afterHead_kind with opens | closes
        · simp [opens]
        · simp [closes]
      simp [toInclude, current, other, single]
  | cons t left =>
      by_cases quoted : t.kind = .string
      · have closes := regular.current_kind_iff fun u member =>
          inside u (List.mem_cons_of_mem t member)
        have path : (p.current (t :: left)).kind = .string := quoted
        rw [toInclude, if_neg (by simp [path]), List.tail_cons]
        refine (regular.succeeds_end_iff _).trans (closes.trans ?_)
        simp [single, quoted]
      · simp [toInclude, current, quoted, single]

theorem succeeds_toFacts_iff (inside : ∀ t ∈ left, t ∈ p.head) :
    (p.toFacts left).succeeds = true ↔
      left ∈ (Grammar.keyword (fun _ => True) * Grammar.optional Grammar.value)∗ ∧
        p.nested = [] ∧ p.next.kind = .closeParen := by
  rw [toFacts, regular.succeeds_clauses_iff steady_readFact (P := fun _ =>
    p.nested = [] ∧ p.next.kind = .closeParen)]
  · rw [exists_and_right, clauses_iff (fun s part => clause_readFact_iff s) _
      (regular.readable_of_subset inside)]
  · intro facts rest inRest
    rw [succeeds_bind_of_forall (P := True) (by simp), succeeds_expect_iff, and_true]
    exact regular.current_kind_iff fun t member => inside t (inRest t member)

theorem succeeds_toLayout_iff : (p.toLayout left).succeeds = true ↔
    left ∈ Grammar.kind .symbol ∧ (∃ n, p.nested = [n] ∧ n.child.succeeds = true) ∧
      p.next.kind = .closeParen := by
  rw [toLayout, succeeds_bind]
  constructor
  · rintro ⟨⟨_, rest⟩, symbol, success⟩
    obtain ⟨t, rfl, kind, rfl⟩ := regular.symbol_eq_pure_iff.mp symbol
    obtain ⟨rfl, body⟩ := (succeeds_body_iff fun e nested =>
      regular.succeeds_closeBody_iff _ _).mp success
    exact ⟨⟨t, rfl, kind⟩, body⟩
  · rintro ⟨⟨t, rfl, kind⟩, body⟩
    exact ⟨(t.value, []), regular.symbol_eq_pure_iff.mpr ⟨t, rfl, kind, rfl⟩,
      (succeeds_body_iff fun e nested => regular.succeeds_closeBody_iff _ _).mpr ⟨rfl, body⟩⟩

theorem succeeds_toComponent_iff : (p.toComponent left).succeeds = true ↔
    left ∈ Grammar.kind .symbol ∧
      (∃ m n, p.nested = [m, n] ∧ (params m.form).succeeds = true ∧ n.child.succeeds = true) ∧
      p.next.kind = .closeParen := by
  have single : left ∈ Grammar.kind .symbol ↔ ∃ t, left = [t] ∧ t.kind = .symbol := Iff.rfl
  rw [toComponent, succeeds_bind, single]
  constructor
  · rintro ⟨⟨_, rest⟩, symbol, success⟩
    obtain ⟨t, rfl, kind, rfl⟩ := regular.symbol_eq_pure_iff.mp symbol
    cases rest with
    | cons u rest => simp [upcoming, unexpected] at success
    | nil =>
        simp only [upcoming] at success
        cases forms : p.nested with
        | nil => simp [forms, unexpected] at success
        | cons m others =>
            simp only [forms] at success
            obtain ⟨names, read, success⟩ := succeeds_bind.mp success
            obtain ⟨-, ⟨n, rfl, child⟩, next⟩ := (succeeds_body_iff fun e nested =>
              regular.succeeds_closeBody_iff _ _).mp success
            exact ⟨⟨t, rfl, kind⟩, ⟨m, n, rfl, succeeds_iff.mpr ⟨names, read⟩, child⟩, next⟩
  · rintro ⟨⟨t, rfl, kind⟩, ⟨m, n, forms, names, child⟩, next⟩
    refine ⟨(t.value, []), regular.symbol_eq_pure_iff.mpr ⟨t, rfl, kind, rfl⟩, ?_⟩
    obtain ⟨names, read⟩ := succeeds_iff.mp names
    simp only [upcoming, forms, read, pure_bind]
    exact (succeeds_body_iff fun e nested => regular.succeeds_closeBody_iff _ _).mpr
      ⟨rfl, ⟨n, rfl, child⟩, next⟩

theorem succeeds_toOverlay_iff (kind : OverlayKind) : (p.toOverlay kind).succeeds = true ↔
    p.head.tail ∈ Grammar.overlayOptions ∧ (∀ n ∈ p.nested, n.child.succeeds = true) ∧
      p.next.kind = .closeParen := by
  have inside : ∀ t ∈ p.head.tail, t ∈ p.head := fun t => List.mem_of_mem_tail
  rw [toOverlay, regular.succeeds_clauses_iff steady_overlayOption (P := fun s => s.id ≠ "" ∧
    (∀ n ∈ p.nested, n.child.succeeds = true) ∧ p.next.kind = .closeParen)]
  · rw [← overlay_clauses_iff Table.empty (regular.readable_of_subset inside)]
    constructor
    · rintro ⟨s, clauses, proper, ends⟩
      exact ⟨⟨s, clauses, proper⟩, ends⟩
    · rintro ⟨⟨s, clauses, proper⟩, ends⟩
      exact ⟨s, clauses, proper, ends⟩
  · intro s rest inRest
    have closes := regular.closing_kind_iff fun t member => inside t (inRest t member)
    by_cases empty : s.id = ""
    · refine iff_of_false (fun success => ?_) fun proper => proper.2.1 empty
      obtain ⟨children, -, success⟩ := succeeds_bind.mp success
      obtain ⟨closer, -, success⟩ := succeeds_bind.mp success
      rw [if_pos empty] at success
      obtain ⟨_, found⟩ := succeeds_iff.mp success
      exact note_bind_ne_pure _ _ _ _ found
    · rw [succeeds_bind_of_forall (P := rest = [] ∧ p.next.kind = .closeParen),
        succeeds_readNested_iff]
      · constructor
        · rintro ⟨children, rfl, next⟩
          exact ⟨rfl, empty, children, next⟩
        · rintro ⟨rfl, -, children, next⟩
          exact ⟨children, rfl, next⟩
      · intro children
        simp only [if_neg empty]
        exact (regular.succeeds_end_iff _).trans closes

end Regular

/-- Whether a nested form is read as an overlay. -/
def IsOverlay (n : Nested) : Prop :=
  ∃ kind, overlayKind? n.form = some kind ∧ (n.form.parts.toOverlay kind).succeeds = true

/-- Whether nested forms are read as overlays but for one, which is read as a node. -/
def IsScreenBody (nested : List Nested) : Prop :=
  ∃ front n back, nested = front ++ n :: back ∧ (∀ m ∈ front ++ back, IsOverlay m) ∧
    overlayKind? n.form = none ∧ n.child.succeeds = true

/-- Whether the forms of a screen are read with a root, given the one read before. -/
def HasRoot (screen : String) (root : Option Element) (nested : List Nested) : Prop :=
  ∃ e overlays, screenForms screen root nested = pure (some e, overlays)

theorem hasRoot_cons_of_overlay {screen : String} {root : Option Element} {n : Nested}
    {rest : List Nested} {kind : OverlayKind} (isKind : overlayKind? n.form = some kind) :
    HasRoot screen root (n :: rest) ↔ IsOverlay n ∧ HasRoot screen root rest := by
  have step : screenForms screen root (n :: rest) = (do
      let overlay ← (n.form.parts.toOverlay kind).recover
      let later ← screenForms screen root rest
      return (later.1, overlay.toList ++ later.2)) := by
    rw [screenForms.eq_def]
    simp only [isKind]
  unfold HasRoot
  constructor
  · rintro ⟨e, overlays, read⟩
    rw [step] at read
    obtain ⟨overlay, recovered, read⟩ := bind_eq_pure_iff.mp read
    obtain ⟨⟨e', others⟩, later, read⟩ := bind_eq_pure_iff.mp read
    obtain ⟨rfl, -⟩ : e' = some e ∧ _ := by simpa using read
    obtain ⟨o, rfl, here⟩ := recover_eq_pure_iff.mp recovered
    exact ⟨⟨kind, isKind, succeeds_iff.mpr ⟨o, here⟩⟩, e, others, later⟩
  · rintro ⟨⟨kind', same, success⟩, e, others, later⟩
    obtain rfl : kind = kind' := by simpa [isKind] using same
    obtain ⟨o, here⟩ := succeeds_iff.mp success
    refine ⟨e, [o] ++ others, ?_⟩
    rw [step, here, later]
    rfl

theorem hasRoot_cons_of_node {screen : String} {n : Nested} {rest : List Nested}
    (other : overlayKind? n.form = none) :
    HasRoot screen none (n :: rest) ↔
      ∃ c, n.child = pure c ∧ HasRoot screen (some c.toElement) rest := by
  have step : screenForms screen none (n :: rest) = (do
      let child ← n.child.recover
      screenForms screen (child.map Child.toElement) rest) := by
    rw [screenForms, other]
  unfold HasRoot
  constructor
  · rintro ⟨e, overlays, read⟩
    rw [step] at read
    obtain ⟨child, recovered, read⟩ := bind_eq_pure_iff.mp read
    obtain ⟨c, rfl, here⟩ := recover_eq_pure_iff.mp recovered
    exact ⟨c, here, e, overlays, read⟩
  · rintro ⟨c, here, e, overlays, later⟩
    refine ⟨e, overlays, ?_⟩
    rw [step, here]
    exact later

theorem not_isOverlay {n : Nested} (other : overlayKind? n.form = none) : ¬IsOverlay n := by
  rintro ⟨kind, found, -⟩
  simp [other] at found

/-- Behind the root of a screen all forms are overlays. -/
theorem hasRoot_some_iff {screen : String} {e : Element} {nested : List Nested} :
    HasRoot screen (some e) nested ↔ ∀ n ∈ nested, IsOverlay n := by
  induction nested with
  | nil => simp [HasRoot, screenForms]
  | cons n rest ih =>
      rw [List.forall_mem_cons, ← ih]
      cases isKind : overlayKind? n.form with
      | some kind => exact hasRoot_cons_of_overlay isKind
      | none =>
          refine iff_of_false ?_ fun overlay => not_isOverlay isKind overlay.1
          rintro ⟨root, overlays, read⟩
          rw [screenForms, isKind] at read
          exact note_bind_ne_pure _ _ _ _ read

/-- The forms of a screen are read with a root exactly if one of them is read as a node, and all
others as overlays. -/
theorem hasRoot_none_iff {screen : String} {nested : List Nested} :
    HasRoot screen none nested ↔ IsScreenBody nested := by
  induction nested with
  | nil => simp [HasRoot, screenForms, IsScreenBody]
  | cons n rest ih =>
      cases isKind : overlayKind? n.form with
      | none =>
          rw [hasRoot_cons_of_node isKind]
          constructor
          · rintro ⟨c, here, rooted⟩
            exact ⟨[], n, rest, rfl, hasRoot_some_iff.mp rooted, isKind, succeeds_iff.mpr ⟨c, here⟩⟩
          · rintro ⟨front, m, back, split, overlays, other, success⟩
            cases front with
            | cons first front =>
                obtain ⟨rfl, -⟩ := List.cons.inj split
                exact absurd (overlays n (by simp)) (not_isOverlay isKind)
            | nil =>
                obtain ⟨rfl, rfl⟩ := List.cons.inj split
                obtain ⟨c, here⟩ := succeeds_iff.mp success
                exact ⟨c, here, hasRoot_some_iff.mpr overlays⟩
      | some kind =>
          rw [hasRoot_cons_of_overlay isKind, ih]
          constructor
          · rintro ⟨here, front, m, back, rfl, overlays, node⟩
            exact ⟨n :: front, m, back, rfl, List.forall_mem_cons.mpr ⟨here, overlays⟩, node⟩
          · rintro ⟨front, m, back, split, overlays, other, success⟩
            cases front with
            | nil =>
                obtain ⟨rfl, -⟩ := List.cons.inj split
                simp [isKind] at other
            | cons first front =>
                obtain ⟨rfl, rfl⟩ := List.cons.inj split
                obtain ⟨here, later⟩ := List.forall_mem_cons.mp overlays
                exact ⟨here, front, m, back, rfl, later, other, success⟩

/-- A screen is read exactly if its atoms are its name, a title and options, and its forms are a
node among overlays. -/
theorem Regular.succeeds_toScreen_iff (regular : p.Regular) (inside : ∀ t ∈ left, t ∈ p.head) :
    (p.toScreen left).succeeds = true ↔
      left ∈ Grammar.kind .symbol *
          (Grammar.optional (Grammar.kind .string) * Grammar.screenOption∗) ∧
        IsScreenBody p.nested ∧ p.next.kind = .closeParen := by
  rw [Grammar.kind, Grammar.mem_one_mul]
  by_cases named : ∃ t rest, left = t :: rest ∧ t.kind = .symbol
  · obtain ⟨t, rest, rfl, kind⟩ := named
    have titled : ∀ u ∈ (title rest).2, u ∈ p.head :=
      fun u member => inside u (List.mem_cons_of_mem t (mem_of_title member))
    rw [toScreen, regular.symbol_eq_pure_iff.mpr ⟨t, rfl, kind, rfl⟩, pure_bind]
    simp only
    rw [regular.succeeds_clauses_iff steady_screenOption (P := fun _ =>
      IsScreenBody p.nested ∧ p.next.kind = .closeParen)]
    · rw [exists_and_right, clauses_iff (fun s part => clause_screenOption_iff s) _
        (regular.readable_of_subset titled),
        title_mem_iff fun t rest => Grammar.keyword_of_mem_screenOption]
      simp [kind]
    · intro options others inOthers
      have closes := regular.closing_kind_iff fun u member => titled u (inOthers u member)
      rw [succeeds_bind]
      constructor
      · rintro ⟨⟨root, overlays⟩, forms, success⟩
        obtain ⟨closer, ends, success⟩ := succeeds_bind.mp success
        obtain ⟨rfl, next⟩ := closes.mp (expect_eq_pure_iff.mp ends).1
        cases root with
        | none => simp at success
        | some e => exact ⟨rfl, hasRoot_none_iff.mp ⟨e, overlays, forms⟩, next⟩
      · rintro ⟨rfl, body, next⟩
        obtain ⟨e, overlays, forms⟩ := hasRoot_none_iff.mpr body
        exact ⟨(some e, overlays), forms, (regular.succeeds_end_iff _).mpr next⟩
  · refine iff_of_false (fun success => ?_) ?_
    · obtain ⟨⟨_, rest⟩, symbol, -⟩ := succeeds_bind.mp success
      obtain ⟨t, rfl, kind, -⟩ := regular.symbol_eq_pure_iff.mp symbol
      exact named ⟨t, rest, rfl, kind⟩
    · rintro ⟨⟨t, rest, rfl, kind, -⟩, -⟩
      exact named ⟨t, rest, rfl, kind⟩

/-- A top-level form is read exactly if it is one of a known name. -/
theorem Regular.succeeds_toEntry?_iff (regular : p.Regular) : p.toEntry?.succeeds = true ↔
    ∃ t left, p.head = t :: left ∧ t.kind = .symbol ∧
      (t.value = "include" ∧ (p.toInclude left).succeeds = true ∨
        t.value = "meta" ∧ (p.toFacts left).succeeds = true ∨
        t.value = "define" ∧ (p.toComponent left).succeeds = true ∨
        t.value = "layout" ∧ (p.toLayout left).succeeds = true ∨
        t.value = "screen" ∧ (p.toScreen left).succeeds = true) := by
  have last {α : Type} {x : Attempt α} {f : α → Entry} :
      (do return some (f (← x)) : Attempt (Option Entry)).succeeds = true ↔ x.succeeds = true := by
    rw [succeeds_bind_of_forall (P := True) (by simp), and_true]
  rw [Parts.toEntry?, succeeds_bind]
  constructor
  · rintro ⟨⟨_, left⟩, symbol, success⟩
    obtain ⟨t, head, kind, rfl⟩ := regular.symbol_eq_pure_iff.mp symbol
    refine ⟨t, left, head, kind, ?_⟩
    simp only at success
    split at success
    · rename_i word
      exact Or.inl ⟨word, last.mp success⟩
    · rename_i word
      exact Or.inr (Or.inl ⟨word, last.mp success⟩)
    · rename_i word
      exact Or.inr (Or.inr (Or.inl ⟨word, last.mp success⟩))
    · rename_i word
      exact Or.inr (Or.inr (Or.inr (Or.inl ⟨word, last.mp success⟩)))
    · rename_i word
      exact Or.inr (Or.inr (Or.inr (Or.inr ⟨word, last.mp success⟩)))
    · obtain ⟨_, found⟩ := succeeds_iff.mp success
      exact absurd found (note_bind_ne_pure _ _ _ _)
  · rintro ⟨t, left, head, kind, entry⟩
    refine ⟨(t.value, left), regular.symbol_eq_pure_iff.mpr ⟨t, head, kind, rfl⟩, ?_⟩
    rcases entry with ⟨word, success⟩ | ⟨word, success⟩ | ⟨word, success⟩ | ⟨word, success⟩ |
      ⟨word, success⟩
    all_goals
      simp only [word]
      exact last.mpr success

theorem succeeds_names_iff {closer : Token} (closes : closer.kind = .closeParen)
    {items : List Form} (shaped : ∀ item ∈ items, item.Shaped) :
    (names closer (Form.readItems items)).succeeds = true ↔
      ∀ item ∈ items, ∃ t, item = .atom t ∧ t.kind = .symbol := by
  induction items with
  | nil => simp [Form.readItems, names, expect, closes]
  | cons item rest ih =>
      obtain ⟨here, later⟩ := List.forall_mem_cons.mp shaped
      rw [Form.readItems, names, List.forall_mem_cons, ← ih later,
        succeeds_bind_of_forall (P := (names closer (Form.readItems rest)).succeeds = true),
        succeeds_expect_iff, first_ofForm]
      · refine and_congr_left' ?_
        cases item with
        | atom t => simp [Form.first]
        | list opener items closer => simp [Form.first, here.1]
      · intro t
        rw [succeeds_bind_of_forall (P := True) (by simp), and_true]

end Parts

theorem Document.succeeds_entries_iff {forms : List Form} :
    (entries forms).succeeds = true ↔ ∀ form ∈ forms, form.entry?.succeeds = true := by
  induction forms with
  | nil => simp [entries]
  | cons form rest ih =>
      rw [List.forall_mem_cons, ← ih, entries,
        succeeds_bind_of_forall (P := (entries rest).succeeds = true), succeeds_recover]
      intro entry
      rw [succeeds_bind_of_forall (P := True) (by simp), and_true]

end Wireframe
