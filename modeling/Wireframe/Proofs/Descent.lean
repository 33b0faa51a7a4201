import Wireframe.Proofs.WellFormed

/-!
# Descending into documents

A chain of nodes descends from a document if each is directly inside the one before it.  Reading
nests nodes no deeper than forms are nested: only the containers around repetitions are put between
them, and those are left out of the count.  Whatever comes of an attempt to read a form, its faults
are those of forms; that lists are nested too deeply is never one of them.
-/

namespace Wireframe

namespace Form

mutual

/-- How many lists are nested in a form, with the form itself if it is a list. -/
def depth : Form → Nat
  | atom _ => 0
  | list _ items _ => depthAll items + 1

/-- The depth of the deepest form. -/
def depthAll : List Form → Nat
  | [] => 0
  | form :: rest => max (depth form) (depthAll rest)

end

theorem depthAll_le_iff {forms : List Form} {n : Nat} :
    depthAll forms ≤ n ↔ ∀ form ∈ forms, form.depth ≤ n := by
  induction forms with
  | nil => simp [depthAll]
  | cons form rest ih => simp [depthAll, ih]

theorem depth_le_of_mem {form : Form} {forms : List Form} (member : form ∈ forms) :
    form.depth ≤ depthAll forms :=
  depthAll_le_iff.mp (Nat.le_refl _) form member

end Form

namespace Landmark

variable {l m : Landmark} {n : Nat}

/-- Whether a node is directly inside another. -/
def Holds (outer inner : Landmark) : Prop :=
  inner ∈ outer.lists.flatten

/-- The number of nodes in a chain, the containers around repetitions left out. -/
def levels (chain : List Landmark) : Nat :=
  chain.countP (!·.isWrapper)

/-- Whether no chain that descends from a node, the node included, has more than some levels. -/
def Shallow (n : Nat) (l : Landmark) : Prop :=
  ∀ chain, (l :: chain).IsChain Holds → levels (l :: chain) ≤ n

theorem levels_cons (l : Landmark) (chain : List Landmark) :
    levels (l :: chain) = levels chain + if l.isWrapper then 0 else 1 := by
  rw [levels, List.countP_cons]
  cases l.isWrapper <;> rfl

theorem Shallow.mono {k : Nat} (shallow : l.Shallow n) (le : n ≤ k) : l.Shallow k :=
  fun chain descends => Nat.le_trans (shallow chain descends) le

/-- A node adds one level to those inside it. -/
theorem Shallow.node (inside : ∀ m, l.Holds m → m.Shallow n) : l.Shallow (n + 1) := by
  intro chain descends
  have one : (if l.isWrapper then 0 else 1) ≤ 1 := by cases l.isWrapper <;> decide
  rw [levels_cons]
  cases chain with
  | nil =>
      have none : levels [] = 0 := rfl
      omega
  | cons m chain =>
      obtain ⟨holds, later⟩ := List.isChain_cons_cons.mp descends
      have below := inside m holds chain later
      omega

/-- A container around a repetition adds no level. -/
theorem Shallow.wrapper (isWrapper : l.isWrapper = true) (inside : ∀ m, l.Holds m → m.Shallow n) :
    l.Shallow n := by
  intro chain descends
  rw [levels_cons, if_pos isWrapper]
  cases chain with
  | nil => exact Nat.zero_le n
  | cons m chain =>
      obtain ⟨holds, later⟩ := List.isChain_cons_cons.mp descends
      exact inside m holds chain later

/-- A node is as shallow also where an element is expected. -/
theorem Shallow.toElement {c : Child} (shallow : (ofChild c).Shallow n) :
    (element c.toElement).Shallow n := by
  cases c with
  | element e => exact shallow
  | repetition r =>
      refine .wrapper rfl fun m holds => ?_
      obtain rfl : m = .repetition r := by
        simpa [Holds, lists, Child.toElement, ofChild] using holds
      exact shallow

theorem Shallow.element {e : Element} (children : ∀ c ∈ e.children, (ofChild c).Shallow n) :
    (Landmark.element e).Shallow (n + 1) := by
  refine .node fun m holds => ?_
  obtain ⟨c, member, rfl⟩ : ∃ c ∈ e.children, ofChild c = m := by simpa [Holds, lists] using holds
  exact children c member

theorem Shallow.repetition {r : Repetition} (body : (Landmark.element r.body).Shallow n) :
    (Landmark.repetition r).Shallow (n + 1) := by
  refine .node fun m holds => ?_
  obtain rfl : m = .element r.body := by simpa [Holds, lists] using holds
  exact body

theorem Shallow.overlay {o : Overlay} (children : ∀ c ∈ o.children, (ofChild c).Shallow n) :
    (Landmark.overlay o).Shallow (n + 1) := by
  refine .node fun m holds => ?_
  obtain ⟨c, member, rfl⟩ : ∃ c ∈ o.children, ofChild c = m := by simpa [Holds, lists] using holds
  exact children c member

theorem Shallow.inclusion (i : Include) : (Landmark.inclusion i).Shallow (n + 1) :=
  .node fun m holds => by simp [Holds, lists] at holds

theorem Shallow.component {c : Component} (body : (Landmark.element c.body).Shallow n) :
    (Landmark.component c).Shallow (n + 1) := by
  refine .node fun m holds => ?_
  obtain rfl : m = .element c.body := by simpa [Holds, lists] using holds
  exact body

theorem Shallow.layout {l : Layout} (body : (Landmark.element l.body).Shallow n) :
    (Landmark.layout l).Shallow (n + 1) := by
  refine .node fun m holds => ?_
  obtain rfl : m = .element l.body := by simpa [Holds, lists] using holds
  exact body

theorem Shallow.screen {s : Screen} (root : (Landmark.element s.root).Shallow n)
    (overlays : ∀ o ∈ s.overlays, (Landmark.overlay o).Shallow n) :
    (Landmark.screen s).Shallow (n + 1) := by
  refine .node fun m holds => ?_
  have cases : m = .element s.root ∨ ∃ o ∈ s.overlays, .overlay o = m := by
    simpa [Holds, lists] using holds
  rcases cases with rfl | ⟨o, member, rfl⟩
  · exact root
  · exact overlays o member

end Landmark

namespace Document

variable {d : Document} {n : Nat}

/-- Whether nodes are a chain from the root form of a document down. -/
structure Descends (d : Document) (chain : List Landmark) : Prop where
  start : ∀ l ∈ chain.head?, l ∈ d.lists.flatten
  links : chain.IsChain Landmark.Holds

/-- A chain has one level for the root form, and then those of its nodes. -/
theorem Descends.levels_lt {chain : List Landmark} (descends : d.Descends chain)
    (shallow : ∀ l ∈ d.lists.flatten, l.Shallow n) : 1 + Landmark.levels chain ≤ n + 1 := by
  cases chain with
  | nil => exact Nat.le_add_left 1 n
  | cons l chain =>
      have below := shallow l (descends.start l rfl) chain descends.links
      omega

end Document

/-! ## Attempts -/

/-- Whether a cause is found in forms, and not before a source has any. -/
def FaultCause.isOfForms : FaultCause → Bool
  | lexical _ | tooDeep => false
  | _ => true

namespace Attempt

variable {α β : Type} {Q : α → Prop} {R : β → Prop}

/-- Whether an attempt has faults of forms only, and reads values of a kind only, be it refused or
not. -/
structure Admits (Q : α → Prop) (x : Attempt α) : Prop where
  noted : ∀ f ∈ x.noted, f.cause.isOfForms = true
  fault : ∀ f, x.outcome = .fault f → f.cause.isOfForms = true
  ensures : x.Ensures Q

/-- Whether an attempt has faults of forms only. -/
def IsOfForms (x : Attempt α) : Prop :=
  x.Admits fun _ => True

theorem Admits.pure {a : α} (holds : Q a) : (Pure.pure a : Attempt α).Admits Q :=
  ⟨by simp, by simp, .pure holds⟩

theorem Admits.fail {cause : FaultCause} {t : Token} (ofForms : cause.isOfForms = true) :
    (Attempt.fail cause t : Attempt α).Admits Q := by
  refine ⟨by simp [Attempt.fail], fun f same => ?_, .fail⟩
  obtain rfl := Outcome.fault.inj same
  exact ofForms

theorem Admits.note {cause : FaultCause} {t : Token} (ofForms : cause.isOfForms = true) :
    (Attempt.note cause t).IsOfForms :=
  ⟨by simpa [Attempt.note] using ofForms, by simp [Attempt.note], fun _ _ => trivial⟩

theorem Admits.refuse (r : Rejection) : (Attempt.refuse r : Attempt α).Admits Q :=
  ⟨by simp [Attempt.refuse], by simp [Attempt.refuse], nofun⟩

theorem Admits.bind {x : Attempt α} {f : α → Attempt β} (before : x.Admits Q)
    (later : ∀ a, Q a → (f a).Admits R) : (x >>= f).Admits R := by
  refine ⟨?_, ?_, before.ensures.bind fun a holds => (later a holds).ensures⟩
  · obtain ⟨noted, outcome⟩ := x
    cases outcome with
    | value a =>
        intro fault member
        rcases List.mem_append.mp member with early | late
        · exact before.noted fault early
        · exact (later a (before.ensures a rfl)).noted fault late
    | fault f => exact before.noted
    | refused r => exact before.noted
  · obtain ⟨noted, outcome⟩ := x
    cases outcome with
    | value a => exact (later a (before.ensures a rfl)).fault
    | fault f =>
        intro g same
        obtain rfl := Outcome.fault.inj same
        exact before.fault f rfl
    | refused r => simp [Bind.bind, andThen]

theorem Admits.recover {x : Attempt α} (admits : x.Admits Q) :
    x.recover.Admits fun a => ∀ b ∈ a, Q b := by
  refine ⟨?_, ?_, admits.ensures.recover⟩
  · obtain ⟨noted, outcome⟩ := x
    cases outcome with
    | value a => exact admits.noted
    | fault f =>
        intro fault member
        rcases List.mem_append.mp member with early | last
        · exact admits.noted fault early
        · rw [List.mem_singleton.mp last]
          exact admits.fault f rfl
    | refused r => exact admits.noted
  · obtain ⟨noted, outcome⟩ := x
    cases outcome <;> simp [Attempt.recover]

theorem Admits.mono {Q' : α → Prop} {x : Attempt α} (admits : x.Admits Q)
    (weaker : ∀ a, Q a → Q' a) : x.Admits Q' :=
  ⟨admits.noted, admits.fault, fun a read => weaker a (admits.ensures a read)⟩

theorem Admits.ofValue (x : Except ValueFault α) : (Attempt.ofValue x).IsOfForms := by
  cases x with
  | ok a => exact .pure trivial
  | error fault => exact .refuse _

theorem Admits.expect (wanted : TokenKind) (t : Token) : (Attempt.expect wanted t).IsOfForms := by
  unfold Attempt.expect
  split
  · exact .pure trivial
  · exact .fail rfl

theorem Admits.place (opener closer : Token) : (Attempt.place opener closer).IsOfForms := by
  unfold Attempt.place
  split
  · exact .pure trivial
  · exact .refuse _

theorem Admits.of_mem_faults {x : Attempt α} (admits : x.Admits Q) {f : Fault}
    (member : f ∈ x.faults) : f.cause.isOfForms = true := by
  obtain ⟨noted, outcome⟩ := x
  cases outcome with
  | value a => exact admits.noted f member
  | refused r => exact admits.noted f member
  | fault g =>
      rcases List.mem_append.mp member with early | last
      · exact admits.noted f early
      · rw [List.mem_singleton.mp last]
        exact admits.fault g rfl

end Attempt

theorem Literal.ofForms_ofToken (t : Token) : (ofToken t).IsOfForms := by
  unfold ofToken
  split
  · exact (Attempt.Admits.ofValue _).bind fun _ _ => .pure trivial
  · exact .pure trivial
  · exact .pure trivial

namespace PropValue

theorem ofForms_ofToken (type : Option PropType) (t : Token) : (ofToken type t).IsOfForms := by
  unfold ofToken
  split
  · exact .pure trivial
  · exact .pure trivial
  · split
    · exact .pure trivial
    · exact (Literal.ofForms_ofToken t).bind fun _ _ => .pure trivial

theorem ofForms_targetOfToken (t : Token) : (targetOfToken t).IsOfForms := by
  unfold targetOfToken
  split
  all_goals first
    | exact .pure trivial
    | exact .fail rfl

theorem ofForms_read (definition : Option PropDef) (next : Token) :
    (read definition next).IsOfForms := by
  unfold read
  split
  · exact (ofForms_targetOfToken next).bind fun _ _ => .pure trivial
  · split
    · exact (ofForms_ofToken _ next).bind fun _ _ => .pure trivial
    · exact .pure trivial

end PropValue

theorem ofForms_readProperty (known : Table PropDef) (props : Table PropValue) (key next : Token) :
    (readProperty known props key next).IsOfForms :=
  (PropValue.ofForms_read _ next).bind fun _ _ => .pure trivial

theorem ofForms_readFact (facts : Table Scalar) (key next : Token) :
    (readFact facts key next).IsOfForms := by
  unfold readFact
  split
  · split
    · exact .pure trivial
    · exact (Literal.ofForms_ofToken next).bind fun _ _ => .pure trivial
  · exact .pure trivial

theorem ofForms_readClauses {σ : Type} {after : Token}
    {step : σ → Token → Token → Attempt (Option (σ × Bool))}
    (each : ∀ s key next, (step s key next).IsOfForms) (s : σ) (left : List Token) :
    (readClauses after step s left).IsOfForms := by
  fun_induction readClauses after step s left with
  | case1 s => exact .pure trivial
  | case2 s key keyword =>
      refine (each s key after).bind fun found _ => ?_
      cases found <;> exact .pure trivial
  | case3 s key other => exact .pure trivial
  | case4 s key next rest keyword used unused =>
      refine (each s key next).bind fun found _ => ?_
      rcases found with _ | ⟨state, _ | _⟩
      · exact .pure trivial
      · exact unused state
      · exact used state
  | case5 s key next rest other => exact .pure trivial

/-! ## Nodes -/

/-- Whether a nested form is no deeper than a bound, and is read as nodes that are no deeper. -/
structure Nested.Shallow (n : Nat) (m : Nested) : Prop where
  depth : m.form.depth ≤ n
  child : m.child.Admits fun c => (Landmark.ofChild c).Shallow n

open Landmark (Shallow)

theorem admits_readNested {nested : List Nested} {n : Nat} (each : ∀ m ∈ nested, m.Shallow n) :
    (readNested nested).Admits fun cs => ∀ c ∈ cs, (Landmark.ofChild c).Shallow n := by
  induction nested with
  | nil => exact .pure (by simp)
  | cons m rest ih =>
      obtain ⟨here, later⟩ := List.forall_mem_cons.mp each
      refine here.child.recover.bind fun child first => (ih later).bind fun children others => ?_
      refine .pure (List.forall_mem_append.mpr ⟨fun c member => first c ?_, others⟩)
      simpa using member

namespace Parts

variable {p : Parts} {n : Nat}

theorem ofForms_symbol (p : Parts) (left : List Token) : (p.symbol left).IsOfForms :=
  (Attempt.Admits.expect _ _).bind fun _ _ => .pure trivial

theorem ofForms_closeBody (p : Parts) (form : String) (nested : List Nested) :
    (p.closeBody form nested).IsOfForms := by
  cases nested with
  | nil => exact .expect _ _
  | cons m rest => exact .fail rfl

theorem ofForms_repeatOption (s : RepeatOptions) (key next : Token) :
    (repeatOption s key next).IsOfForms := by
  unfold repeatOption
  split
  · split
    · refine (Attempt.Admits.ofValue _).bind fun number _ => ?_
      refine (Attempt.Admits.ofValue _).bind fun times _ => ?_
      refine (Attempt.Admits.ofValue _).bind fun whole _ => ?_
      split
      · exact (Attempt.Admits.note rfl).bind fun _ _ => .pure trivial
      · exact .pure trivial
    · exact .pure trivial
    · exact (Attempt.Admits.note rfl).bind fun _ _ => .pure trivial
  · split
    · split
      · exact .pure trivial
      · exact (Attempt.Admits.note rfl).bind fun _ _ => .pure trivial
    · exact .pure trivial

section Nodes

variable (each : ∀ m ∈ p.nested, m.Shallow n)
include each

theorem shallow_upcoming (left : List Token) : ∀ m ∈ p.upcoming left, m.Shallow n :=
  fun m member => each m (p.upcoming_sublist left member)

omit each in
theorem admits_children (schema : ElementSchema) {nested : List Nested}
    (each : ∀ m ∈ nested, m.Shallow n) :
    (children schema nested).Admits fun cs => ∀ c ∈ cs, (Landmark.ofChild c).Shallow n := by
  have nodes := admits_readNested each
  cases nested with
  | nil => exact .pure (by simp)
  | cons m rest =>
      rw [children]
      split
      · exact nodes
      · exact (Attempt.Admits.note rfl).bind fun _ _ => nodes.bind fun _ _ => .pure (by simp)

theorem admits_element (left : List Token) :
    (p.element left).Admits fun found => (Landmark.element found.1).Shallow n := by
  have upcoming := shallow_upcoming each left
  unfold element
  split
  · rename_i m rest split
    rw [split] at upcoming
    exact (upcoming m List.mem_cons_self).child.bind fun c shallow => .pure shallow.toElement
  · exact .fail rfl

theorem admits_toElement (name : String) (left : List Token) :
    (p.toElement name left).Admits fun e => (Landmark.element e).Shallow (n + 1) := by
  refine (ofForms_readClauses (ofForms_readProperty _) _ _).bind fun ⟨props, left'⟩ _ => ?_
  refine (admits_children _ (shallow_upcoming each left')).bind fun cs shallow => ?_
  refine (Attempt.Admits.expect _ _).bind fun _ _ => (Attempt.Admits.place _ _).bind fun _ _ => ?_
  exact .pure (.element shallow)

theorem admits_toRepetition (left : List Token) :
    (p.toRepetition left).Admits fun r => (Landmark.repetition r).Shallow (n + 1) := by
  refine (ofForms_readClauses ofForms_repeatOption _ _).bind fun ⟨options, left'⟩ _ => ?_
  refine (admits_element each left').bind fun ⟨body, rest⟩ shallow => ?_
  refine (ofForms_closeBody _ _ _).bind fun _ _ => (Attempt.Admits.place _ _).bind fun _ _ => ?_
  exact .pure (.repetition shallow)

theorem admits_toChild :
    p.toChild.Admits fun c => (Landmark.ofChild c).Shallow (n + 1) := by
  refine (ofForms_symbol p _).bind fun ⟨name, left⟩ _ => ?_
  simp only
  split
  · exact (admits_toRepetition each left).bind fun r shallow => .pure shallow
  · split
    · exact .fail rfl
    · split
      · exact .fail rfl
      · exact (admits_toElement each name left).bind fun e shallow => .pure shallow

theorem admits_toOverlay (kind : OverlayKind) :
    (p.toOverlay kind).Admits fun o => (Landmark.overlay o).Shallow (n + 1) := by
  have option (s : OverlayOptions) (key next : Token) : (overlayOption s key next).IsOfForms := by
    unfold overlayOption
    split
    · split
      · exact .pure trivial
      · exact (Attempt.Admits.note rfl).bind fun _ _ => .pure trivial
    · exact (PropValue.ofForms_read _ next).bind fun _ _ => .pure trivial
  refine (ofForms_readClauses option _ _).bind fun ⟨options, left⟩ _ => ?_
  refine (admits_readNested (shallow_upcoming each left)).bind fun cs shallow => ?_
  refine (Attempt.Admits.expect _ _).bind fun closer _ => ?_
  have located (id : String) : (do
      let location ← Attempt.place p.opener closer
      return (⟨kind, id, options.props, cs, some location⟩ : Overlay)).Admits
        fun o => (Landmark.overlay o).Shallow (n + 1) :=
    (Attempt.Admits.place _ _).bind fun _ _ => .pure (.overlay shallow)
  simp only
  split
  · exact (Attempt.Admits.note rfl).bind fun _ _ => located _
  · exact located _

end Nodes
end Parts

namespace Form

theorem shallow_nested {opener closer : Token} {items : List Form}
    (each : ∀ form ∈ items, form.child.Admits fun c => (Landmark.ofChild c).Shallow form.depth) :
    ∀ m ∈ (list opener items closer).parts.nested, m.Shallow (depthAll items) := by
  intro m member
  obtain ⟨behind, split, -, -, children⟩ := Parts.items_eq_parts opener items closer
  have inside : m.form ∈ items := by
    rw [split]
    exact List.mem_append_right _ (List.mem_append_left _ (List.mem_map_of_mem member))
  have deep := depth_le_of_mem inside
  refine ⟨deep, ?_⟩
  rw [children m member]
  exact (each m.form inside).mono fun c shallow => shallow.mono deep

mutual

/-- A form is read as nodes that are no deeper than the form. -/
theorem admits_child : ∀ form : Form,
    form.child.Admits fun c => (Landmark.ofChild c).Shallow form.depth
  | .atom _ => .fail rfl
  | .list _ items _ => Parts.admits_toChild (shallow_nested (admits_items items))

theorem admits_items : ∀ (items : List Form), ∀ form ∈ items,
    form.child.Admits fun c => (Landmark.ofChild c).Shallow form.depth
  | item :: rest, form, member => by
      rcases List.mem_cons.mp member with same | later
      · rw [same]
        exact admits_child item
      · exact admits_items rest form later

end

theorem admits_overlay {form : Form} {kind : OverlayKind}
    (isOverlay : Parts.overlayKind? form = some kind) :
    (form.parts.toOverlay kind).Admits fun o => (Landmark.overlay o).Shallow form.depth := by
  cases form with
  | atom t => cases isOverlay
  | list opener items closer =>
      exact Parts.admits_toOverlay (shallow_nested (admits_items items)) kind

end Form

namespace Parts

variable {p : Parts} {n : Nat}

theorem ofForms_toInclude (p : Parts) (left : List Token) : (p.toInclude left).IsOfForms := by
  unfold toInclude
  simp only
  split
  · exact .fail rfl
  · refine (Attempt.Admits.expect _ _).bind fun _ _ => ?_
    exact (Attempt.Admits.place _ _).bind fun _ _ => .pure trivial

theorem ofForms_toFacts (p : Parts) (left : List Token) : (p.toFacts left).IsOfForms := by
  refine (ofForms_readClauses ofForms_readFact _ _).bind fun _ _ => ?_
  exact (Attempt.Admits.expect _ _).bind fun _ _ => .pure trivial

theorem ofForms_names (closer : Token) (items : List Item) : (names closer items).IsOfForms := by
  induction items with
  | nil => exact (Attempt.Admits.expect _ _).bind fun _ _ => .pure trivial
  | cons item rest ih =>
      exact (Attempt.Admits.expect _ _).bind fun _ _ => ih.bind fun _ _ => .pure trivial

theorem ofForms_params (form : Form) : (params form).IsOfForms := by
  cases form with
  | atom t => exact .fail rfl
  | list opener items closer => exact ofForms_names _ _

theorem ofForms_screenOption (s : ScreenOptions) (key next : Token) :
    (screenOption s key next).IsOfForms := by
  unfold screenOption
  split
  · exact .pure trivial
  · split
    · exact (Attempt.Admits.expect _ _).bind fun _ _ => .pure trivial
    · exact (Attempt.Admits.note rfl).bind fun _ _ => .pure trivial

theorem admits_screenForms (screen : String) {nested : List Nested}
    (each : ∀ m ∈ nested, m.Shallow n) {root : Option Element}
    (fills : ∀ e ∈ root, (Landmark.element e).Shallow n) :
    (screenForms screen root nested).Admits fun found =>
      (∀ e ∈ found.1, (Landmark.element e).Shallow n) ∧
        ∀ o ∈ found.2, (Landmark.overlay o).Shallow n := by
  induction nested generalizing root with
  | nil => exact .pure ⟨fills, by simp⟩
  | cons m rest ih =>
      obtain ⟨here, later⟩ := List.forall_mem_cons.mp each
      rw [screenForms.eq_def]
      simp only
      split
      · rename_i kind isOverlay
        refine (Form.admits_overlay isOverlay).recover.bind fun overlay first => ?_
        refine (ih later fills).bind fun found behind => .pure ⟨behind.1, ?_⟩
        refine List.forall_mem_append.mpr ⟨fun o member => ?_, behind.2⟩
        exact (first o (by simpa using member)).mono here.depth
      · split
        · refine here.child.recover.bind fun child first => ih later fun e member => ?_
          obtain ⟨c, same, rfl⟩ := Option.map_eq_some_iff.mp member
          exact (first c same).toElement
        · exact (Attempt.Admits.note rfl).bind fun _ _ => ih later fills

section Entries

variable (each : ∀ m ∈ p.nested, m.Shallow n)
include each

theorem admits_toComponent (left : List Token) :
    (p.toComponent left).Admits fun c => (Landmark.component c).Shallow (n + 1) := by
  refine (ofForms_symbol p _).bind fun ⟨name, left'⟩ _ => ?_
  have upcoming := shallow_upcoming each left'
  simp only
  split
  · exact .fail rfl
  · rename_i m rest split
    rw [split] at upcoming
    have behind := admits_element (p := { p with nested := rest })
      (fun k member => upcoming k (List.mem_cons_of_mem m member)) []
    refine (ofForms_params _).bind fun _ _ => behind.bind fun ⟨body, others⟩ shallow => ?_
    refine (ofForms_closeBody _ _ _).bind fun _ _ => (Attempt.Admits.place _ _).bind fun _ _ => ?_
    exact .pure (.component shallow)

theorem admits_toLayout (left : List Token) :
    (p.toLayout left).Admits fun l => (Landmark.layout l).Shallow (n + 1) := by
  refine (ofForms_symbol p _).bind fun ⟨name, left'⟩ _ => ?_
  refine (admits_element each left').bind fun ⟨body, rest⟩ shallow => ?_
  refine (ofForms_closeBody _ _ _).bind fun _ _ => (Attempt.Admits.place _ _).bind fun _ _ => ?_
  exact .pure (.layout shallow)

theorem admits_toScreen (left : List Token) :
    (p.toScreen left).Admits fun s => (Landmark.screen s).Shallow (n + 1) := by
  refine (ofForms_symbol p _).bind fun ⟨id, left'⟩ _ => ?_
  refine (ofForms_readClauses ofForms_screenOption _ _).bind fun ⟨options, left''⟩ _ => ?_
  refine (admits_screenForms id (shallow_upcoming each left'') (by simp)).bind
    fun ⟨root, overlays⟩ ⟨fills, others⟩ => (Attempt.Admits.expect _ _).bind fun _ _ => ?_
  cases root with
  | none => exact .fail rfl
  | some root =>
      refine (Attempt.Admits.place _ _).bind fun _ _ => .pure ?_
      exact .screen (fills root rfl) others

theorem admits_toEntry? : p.toEntry?.Admits fun entry =>
    ∀ e ∈ entry, ∀ l ∈ e.landmark?, l.Shallow (n + 1) := by
  refine (ofForms_symbol p _).bind fun ⟨name, left⟩ _ => ?_
  simp only
  split
  · refine (ofForms_toInclude p left).bind fun i _ => .pure ?_
    simpa [Entry.landmark?] using Shallow.inclusion i
  · refine (ofForms_toFacts p left).bind fun facts _ => .pure ?_
    simp [Entry.landmark?]
  · refine (admits_toComponent each left).bind fun c shallow => .pure ?_
    simpa [Entry.landmark?] using shallow
  · refine (admits_toLayout each left).bind fun l shallow => .pure ?_
    simpa [Entry.landmark?] using shallow
  · refine (admits_toScreen each left).bind fun s shallow => .pure ?_
    simpa [Entry.landmark?] using shallow
  · refine (Attempt.Admits.note rfl).bind fun _ _ => .pure ?_
    simp

end Entries
end Parts

/-- What a top-level form adds to a document is no deeper than the form. -/
theorem Form.admits_entry? (form : Form) : form.entry?.Admits fun entry =>
    ∀ e ∈ entry, ∀ l ∈ e.landmark?, l.Shallow form.depth := by
  cases form with
  | atom t => exact .fail rfl
  | list opener items closer => exact Parts.admits_toEntry? (shallow_nested (admits_items items))

namespace Document

theorem admits_entries (forms : List Form) : (entries forms).Admits fun found =>
    ∀ e ∈ found, ∀ l ∈ e.landmark?, l.Shallow (Form.depthAll forms) := by
  induction forms with
  | nil => exact .pure (by simp)
  | cons form rest ih =>
      have here : form.depth ≤ Form.depthAll (form :: rest) := Nat.le_max_left _ _
      have later : Form.depthAll rest ≤ Form.depthAll (form :: rest) := Nat.le_max_right _ _
      refine (form.admits_entry?).recover.bind fun entry first => ih.bind fun found others => ?_
      refine .pure (List.forall_mem_append.mpr
        ⟨fun e member l isNode => ?_, fun e member l isNode => ?_⟩)
      · have added := Option.join_eq_some_iff.mp (Option.mem_toList.mp member)
        exact (first _ added e rfl l isNode).mono here
      · exact (others e member l isNode).mono later

theorem admits_rootItems (closer : Token) (items : List Form) :
    (rootItems closer items).Admits fun inner => inner = items.tail := by
  refine (Attempt.Admits.expect _ _).bind fun name _ => ?_
  simp only
  split
  · exact .fail rfl
  · exact .pure rfl

theorem ofForms_checkEnd (closer : Token) (behind : List Token) :
    (checkEnd closer behind).IsOfForms := by
  unfold checkEnd
  split
  · exact .note rfl
  · split
    · exact .pure trivial
    · exact .note rfl

/-- The chains that descend from a document are no longer than its form is deep. -/
theorem admits_ofForm (behind : List Token) (form : Form) : (ofForm behind form).Admits fun d =>
    ∀ chain, d.Descends chain → 1 + Landmark.levels chain ≤ form.depth := by
  cases form with
  | atom t => exact .fail rfl
  | list opener items closer =>
      refine (admits_rootItems closer items).bind fun inner isTail => ?_
      refine (admits_entries inner).bind fun found shallow => ?_
      refine (ofForms_checkEnd closer behind).bind fun _ _ => ?_
      refine (Attempt.Admits.place _ _).bind fun location _ => .pure fun chain descends => ?_
      refine descends.levels_lt fun l member => ?_
      obtain ⟨e, isEntry, same⟩ := mem_lists_ofEntries member
      refine (shallow e isEntry l same).mono ?_
      rw [isTail]
      exact Form.depthAll_le_iff.mpr fun form later =>
        Form.depth_le_of_mem (List.mem_of_mem_tail later)

end Document
end Wireframe
