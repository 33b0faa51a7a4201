import Wireframe.Proofs.Chart

/-!
# Laws of single nodes

Some laws can be shown for each node by itself, given what is known of the tokens that it is read
from.  They hold of all nodes of a document, whatever faults are noted on the way, and laws of
single facts hold of all facts about it.
-/

namespace Wireframe

namespace Attempt

variable {α β : Type} {Q Q' : α → Prop} {R : β → Prop}

/-- Whether what an attempt reads, if anything, is of a kind. -/
def Ensures (Q : α → Prop) (x : Attempt α) : Prop :=
  ∀ a, x.outcome = .value a → Q a

theorem Ensures.pure {a : α} (holds : Q a) : (Pure.pure a : Attempt α).Ensures Q := by
  intro b same
  obtain rfl := Outcome.value.inj same
  exact holds

theorem Ensures.fail {cause : FaultCause} {t : Token} :
    (Attempt.fail cause t : Attempt α).Ensures Q := by
  intro a read
  cases read

theorem Ensures.mono {x : Attempt α} (ensures : x.Ensures Q) (weaker : ∀ a, Q a → Q' a) :
    x.Ensures Q' :=
  fun a read => weaker a (ensures a read)

theorem Ensures.and {x : Attempt α} (left : x.Ensures Q) (right : x.Ensures Q') :
    x.Ensures fun a => Q a ∧ Q' a :=
  fun a read => ⟨left a read, right a read⟩

theorem Ensures.bind {x : Attempt α} {f : α → Attempt β} (before : x.Ensures Q)
    (later : ∀ a, Q a → (f a).Ensures R) : (x >>= f).Ensures R := by
  intro b read
  obtain ⟨a, here, behind⟩ := outcome_bind_eq_value.mp read
  exact later a (before a here) b behind

/-- Go on with whatever was read. -/
theorem Ensures.after {x : Attempt α} {f : α → Attempt β} (later : ∀ a, (f a).Ensures R) :
    (x >>= f).Ensures R :=
  Ensures.bind (Q := fun _ => True) (fun _ _ => trivial) fun a _ => later a

theorem Ensures.recover {x : Attempt α} (ensures : x.Ensures Q) :
    x.recover.Ensures fun a => ∀ b ∈ a, Q b := by
  intro a read b same
  obtain ⟨value, -⟩ := of_recover_value read
  exact ensures b (value?_eq_some.mp (value.trans same))

end Attempt

/-- Whether all tokens of a form are of a kind. -/
def Form.MadeOf (S : Token → Prop) (form : Form) : Prop :=
  ∀ t ∈ form.tokens, S t

theorem Form.MadeOf.item {S : Token → Prop} {opener closer : Token} {items : List Form}
    (made : (list opener items closer).MadeOf S) : ∀ item ∈ items, item.MadeOf S := by
  intro item member t inside
  have within := (tokens_infix_tokensAll member).trans (tokensAll_infix_tokens opener items closer)
  exact made t (within.mem inside)

theorem Form.first_mem_tokens (form : Form) : form.first ∈ form.tokens := by
  cases form with
  | atom t => exact List.mem_singleton_self t
  | list opener items closer => exact List.mem_cons_self

namespace Parts

/-- Whether the tokens that a list is read from are of a kind. -/
structure MadeOf (S : Token → Prop) (p : Parts) : Prop where
  opener : S p.opener
  head : ∀ t ∈ p.head, S t
  nested : ∀ n ∈ p.nested, n.form.MadeOf S
  next : S p.next

namespace MadeOf

variable {S : Token → Prop} {p : Parts} (made : p.MadeOf S)
include made

theorem afterHead : S p.afterHead := by
  unfold Parts.afterHead
  cases forms : p.nested with
  | nil => exact made.next
  | cons n rest => exact made.nested n (by simp [forms]) _ n.form.first_mem_tokens

theorem upcoming (left : List Token) : ∀ n ∈ p.upcoming left, n.form.MadeOf S :=
  fun n member => made.nested n (upcoming_sublist p left member)

omit made in
theorem left_of_symbol {left : List Token} (inHead : ∀ t ∈ left, S t) :
    (p.symbol left).Ensures fun found => ∀ t ∈ found.2, S t :=
  .after fun _ => .pure fun t member => inHead t (List.mem_of_mem_tail member)

end MadeOf
end Parts

theorem Form.MadeOf.parts {S : Token → Prop} {form : Form} (made : form.MadeOf S) :
    form.parts.MadeOf S := by
  cases form with
  | atom t =>
      have here := made t (List.mem_singleton_self t)
      exact ⟨here, by simp [Form.parts], by simp [Form.parts], here⟩
  | list opener items closer =>
      obtain ⟨behind, split, next, -⟩ := Parts.items_eq_parts opener items closer
      have item := made.item
      rw [split] at item
      refine ⟨made opener List.mem_cons_self, fun t member => ?_, fun n member => ?_, ?_⟩
      · have atom := item (.atom t) (List.mem_append_left _ (List.mem_map_of_mem member))
        exact atom t (List.mem_singleton_self t)
      · exact item n.form
          (List.mem_append_right _ (List.mem_append_left _ (List.mem_map_of_mem member)))
      · rw [next]
        cases behind with
        | nil => exact made closer (by simp [tokens])
        | cons form behind => exact item form (by simp) _ form.first_mem_tokens

/-- What holds before the keywords that come next, and is kept by each of them, holds behind
them. -/
theorem ensures_readClauses {σ : Type} {I : σ → Prop} {S : Token → Prop} {after : Token}
    {step : σ → Token → Token → Attempt (Option (σ × Bool))}
    (each : ∀ s key next, S key → S next → I s →
      (step s key next).Ensures fun found => ∀ r ∈ found, I r.1)
    {left : List Token} (inHead : ∀ t ∈ left, S t) (last : S after) {s : σ} (holds : I s) :
    (readClauses after step s left).Ensures fun found => I found.1 ∧ ∀ t ∈ found.2, S t := by
  fun_induction readClauses after step s left with
  | case1 s => exact .pure ⟨holds, inHead⟩
  | case2 s key isKeyword =>
      refine (each s key after (inHead key List.mem_cons_self) last holds).bind fun found kept => ?_
      cases found with
      | none => exact .pure ⟨holds, inHead⟩
      | some found => exact .pure ⟨kept found rfl, List.forall_mem_nil S⟩
  | case3 s key other => exact .pure ⟨holds, inHead⟩
  | case4 s key next rest isKeyword ih ih' =>
      obtain ⟨isKey, later⟩ := List.forall_mem_cons.mp inHead
      have isNext := later next List.mem_cons_self
      refine (each s key next isKey isNext holds).bind fun found kept => ?_
      cases found with
      | none => exact .pure ⟨holds, inHead⟩
      | some found =>
          obtain ⟨state, used⟩ := found
          cases used with
          | true => exact ih state (List.forall_mem_cons.mp later).2 (kept _ rfl)
          | false => exact ih' state later (kept _ rfl)
  | case5 s key next rest other => exact .pure ⟨holds, inHead⟩

/-- Whether a law holds of a node and of all nodes inside it. -/
def Child.All (Q : Landmark → Prop) (c : Child) : Prop :=
  ∀ l ∈ c.landmarks, Q l

theorem Child.all_landmarksAll {Q : Landmark → Prop} {cs : List Child} (all : ∀ c ∈ cs, c.All Q) :
    ∀ l ∈ landmarksAll cs, Q l := by
  induction cs with
  | nil => exact List.forall_mem_nil _
  | cons c rest ih =>
      obtain ⟨here, later⟩ := List.forall_mem_cons.mp all
      exact List.forall_mem_append.mpr ⟨here, ih later⟩

theorem Element.all_landmarks {Q : Landmark → Prop} {e : Element} (here : Q (.element e))
    (children : ∀ c ∈ e.children, c.All Q) : ∀ l ∈ e.landmarks, Q l := by
  rw [landmarks_eq]
  exact List.forall_mem_cons.mpr ⟨here, Child.all_landmarksAll children⟩

/-- Whether readers give every node of a law `Q` of nodes, and every fact one of a law `F` of
facts, if they read it from tokens of a kind `S`. -/
structure Nodewise (S : Token → Prop) (Q : Landmark → Prop) (F : Scalar → Prop) : Prop where
  /-- The name of an element is none of those that have a meaning of their own. -/
  element : ∀ {p : Parts} {name : String} {left : List Token}, p.MadeOf S → (∀ t ∈ left, S t) →
    name ≠ Schema.repeatForm → name ∉ Schema.overlayForms → name ∉ Schema.topLevelForms →
      (p.toElement name left).Ensures fun e => Q (.element e)
  repetition : ∀ {p : Parts} {left : List Token}, p.MadeOf S → (∀ t ∈ left, S t) →
    (p.toRepetition left).Ensures fun r => Q (.repetition r)
  /-- A container is put around a repetition. -/
  wrapper : ∀ r, Q (.element (Child.repetition r).toElement)
  overlay : ∀ {p : Parts} (kind : OverlayKind), p.MadeOf S →
    (p.toOverlay kind).Ensures fun o => Q (.overlay o)
  inclusion : ∀ {p : Parts} {left : List Token}, p.MadeOf S → (∀ t ∈ left, S t) →
    (p.toInclude left).Ensures fun i => Q (.inclusion i)
  component : ∀ {p : Parts} {left : List Token}, p.MadeOf S → (∀ t ∈ left, S t) →
    (p.toComponent left).Ensures fun c => Q (.component c)
  layout : ∀ {p : Parts} {left : List Token}, p.MadeOf S → (∀ t ∈ left, S t) →
    (p.toLayout left).Ensures fun l => Q (.layout l)
  screen : ∀ {p : Parts} {left : List Token}, p.MadeOf S → (∀ t ∈ left, S t) →
    (p.toScreen left).Ensures fun s => Q (.screen s)
  facts : ∀ {p : Parts} {left : List Token}, p.MadeOf S → (∀ t ∈ left, S t) →
    (p.toFacts left).Ensures fun facts => ∀ value ∈ facts.values, F value

namespace Nodewise

open Parts

variable {S : Token → Prop} {Q : Landmark → Prop} {F : Scalar → Prop} (nodewise : Nodewise S Q F)
  {p : Parts}

include nodewise in
/-- A node is as it should be also where an element is expected. -/
theorem all_toElement {c : Child} (all : c.All Q) : ∀ l ∈ c.toElement.landmarks, Q l := by
  cases c with
  | element e => exact all
  | repetition r =>
      exact Element.all_landmarks (nodewise.wrapper r) (List.forall_mem_singleton.mpr all)

theorem ensures_readNested {nested : List Nested}
    (each : ∀ n ∈ nested, n.child.Ensures (Child.All Q)) :
    (readNested nested).Ensures fun cs => ∀ c ∈ cs, c.All Q := by
  induction nested with
  | nil => exact .pure (by simp)
  | cons n rest ih =>
      obtain ⟨here, later⟩ := List.forall_mem_cons.mp each
      refine here.recover.bind fun child first => (ih later).bind fun children others => .pure ?_
      refine List.forall_mem_append.mpr ⟨fun c member => first c ?_, others⟩
      simpa using member

theorem ensures_children {schema : ElementSchema} {nested : List Nested}
    (each : ∀ n ∈ nested, n.child.Ensures (Child.All Q)) :
    (children schema nested).Ensures fun cs => ∀ c ∈ cs, c.All Q := by
  cases nested with
  | nil => exact .pure (by simp)
  | cons n rest =>
      rw [children]
      split
      · exact ensures_readNested each
      · exact .after fun _ => .after fun _ => .pure (by simp)

section Nodes

variable (each : ∀ n ∈ p.nested, n.child.Ensures (Child.All Q))
include each

theorem ensures_upcoming (left : List Token) :
    ∀ n ∈ p.upcoming left, n.child.Ensures (Child.All Q) :=
  fun n member => each n (upcoming_sublist p left member)

include nodewise in
theorem ensures_element (left : List Token) :
    (p.element left).Ensures fun found => ∀ l ∈ found.1.landmarks, Q l := by
  have upcoming := ensures_upcoming each left
  unfold Parts.element
  split
  · rename_i n rest split
    rw [split] at upcoming
    exact (upcoming n List.mem_cons_self).bind fun child all => .pure (nodewise.all_toElement all)
  · exact .fail

theorem ensures_toElement (name : String) (left : List Token) :
    (p.toElement name left).Ensures fun e => ∀ c ∈ e.children, c.All Q := by
  refine .after fun ⟨props, left'⟩ => ?_
  refine (ensures_children (ensures_upcoming each left')).bind fun children all => ?_
  exact .after fun closer => .after fun location => .pure all

include nodewise in
theorem ensures_toRepetition (left : List Token) :
    (p.toRepetition left).Ensures fun r => ∀ l ∈ r.body.landmarks, Q l := by
  refine .after fun ⟨options, left'⟩ => ?_
  refine (nodewise.ensures_element each left').bind fun ⟨body, rest⟩ all => ?_
  exact .after fun closer => .after fun location => .pure all

include nodewise in
theorem ensures_toChild (made : p.MadeOf S) : p.toChild.Ensures (Child.All Q) := by
  refine (MadeOf.left_of_symbol made.head).bind fun ⟨name, left⟩ inHead => ?_
  simp only
  split
  · have all := (nodewise.repetition made inHead).and (nodewise.ensures_toRepetition each left)
    refine all.bind fun r ⟨here, inside⟩ => .pure ?_
    rw [Child.All, Child.landmarks, Repetition.landmarks_eq]
    exact List.forall_mem_cons.mpr ⟨here, inside⟩
  · rename_i notRepeat
    split
    · exact .fail
    · rename_i notOverlay
      split
      · exact .fail
      · rename_i notTopLevel
        rw [List.contains_iff_mem] at notOverlay notTopLevel
        have here := nodewise.element made inHead notRepeat notOverlay notTopLevel
        exact (here.and (ensures_toElement each name left)).bind fun e ⟨here, inside⟩ =>
          .pure (Element.all_landmarks here inside)

end Nodes

mutual

/-- The law holds of the node that a form is read as, if it is read as one, and of all nodes
inside it. -/
theorem ensures_child (nodewise : Nodewise S Q F) :
    ∀ form : Form, form.MadeOf S → form.child.Ensures (Child.All Q)
  | .atom _, _ => .fail
  | .list opener items closer, made => by
      refine nodewise.ensures_toChild (p := (Form.list opener items closer).parts)
        (fun n member => ?_) made.parts
      obtain ⟨behind, split, -, -, children⟩ := Parts.items_eq_parts opener items closer
      rw [children n member]
      refine nodewise.ensures_items items made.item n.form ?_
      rw [split]
      exact List.mem_append_right _ (List.mem_append_left _ (List.mem_map_of_mem member))

theorem ensures_items (nodewise : Nodewise S Q F) :
    ∀ items : List Form, (∀ item ∈ items, item.MadeOf S) →
      ∀ form ∈ items, form.child.Ensures (Child.All Q)
  | item :: rest, made, form, member => by
      obtain ⟨here, later⟩ := List.forall_mem_cons.mp made
      rcases List.mem_cons.mp member with same | inRest
      · rw [same]
        exact nodewise.ensures_child item here
      · exact nodewise.ensures_items rest later form inRest

end

section Forms

include nodewise

theorem ensures_nested {form : Form} (made : form.MadeOf S) :
    ∀ n ∈ form.parts.nested, n.child.Ensures (Child.All Q) := by
  cases form with
  | atom t => simp [Form.parts]
  | list opener items closer =>
      intro n member
      obtain ⟨-, -, -, -, children⟩ := Parts.items_eq_parts opener items closer
      rw [children n member]
      exact nodewise.ensures_child n.form (made.parts.nested n member)

theorem ensures_toOverlay {form : Form} (made : form.MadeOf S) (kind : OverlayKind) :
    (form.parts.toOverlay kind).Ensures fun o => ∀ l ∈ o.landmarks, Q l := by
  have children : (form.parts.toOverlay kind).Ensures fun o => ∀ c ∈ o.children, c.All Q := by
    refine .after fun ⟨options, left⟩ => ?_
    refine (ensures_readNested (ensures_upcoming (nodewise.ensures_nested made) left)).bind
      fun children all => .after fun closer => ?_
    simp only
    split
    · exact .after fun _ => .after fun location => .pure all
    · exact .after fun location => .pure all
  exact ((nodewise.overlay kind made.parts).and children).mono fun o ⟨here, inside⟩ =>
    List.forall_mem_cons.mpr ⟨here, Child.all_landmarksAll inside⟩

theorem ensures_screenForms (screen : String) {nested : List Nested}
    (made : ∀ n ∈ nested, n.form.MadeOf S)
    (each : ∀ n ∈ nested, n.child.Ensures (Child.All Q)) {root : Option Element}
    (fills : ∀ e ∈ root, ∀ l ∈ e.landmarks, Q l) :
    (screenForms screen root nested).Ensures fun found =>
      (∀ e ∈ found.1, ∀ l ∈ e.landmarks, Q l) ∧ ∀ o ∈ found.2, ∀ l ∈ o.landmarks, Q l := by
  induction nested generalizing root with
  | nil => exact .pure ⟨fills, by simp⟩
  | cons n rest ih =>
      obtain ⟨isForm, forms⟩ := List.forall_mem_cons.mp made
      obtain ⟨here, later⟩ := List.forall_mem_cons.mp each
      rw [screenForms.eq_def]
      simp only
      split
      · rename_i kind _
        refine (nodewise.ensures_toOverlay isForm kind).recover.bind fun overlay first => ?_
        refine (ih forms later fills).bind fun found behind => .pure ⟨behind.1, ?_⟩
        refine List.forall_mem_append.mpr ⟨fun o member => first o ?_, behind.2⟩
        simpa using member
      · split
        · refine here.recover.bind fun child first => ih forms later fun e member => ?_
          obtain ⟨c, same, rfl⟩ := Option.map_eq_some_iff.mp member
          exact nodewise.all_toElement (first c same)
        · exact .after fun _ => ih forms later fills

section Entries

variable (made : p.MadeOf S) (each : ∀ n ∈ p.nested, n.child.Ensures (Child.All Q))
include made each

theorem ensures_toComponent {left : List Token} (inHead : ∀ t ∈ left, S t) :
    (p.toComponent left).Ensures fun c => ∀ l ∈ (Landmark.component c).tree, Q l := by
  have body : (p.toComponent left).Ensures fun c => ∀ l ∈ c.body.landmarks, Q l := by
    refine .after fun ⟨name, left'⟩ => ?_
    have upcoming := ensures_upcoming each left'
    simp only
    split
    · exact .fail
    · rename_i n rest split
      rw [split] at upcoming
      have behind := nodewise.ensures_element (p := { p with nested := rest })
        (fun m member => upcoming m (List.mem_cons_of_mem n member)) []
      refine .after fun params => behind.bind fun ⟨body, others⟩ all => ?_
      exact .after fun closer => .after fun location => .pure all
  exact ((nodewise.component made inHead).and body).mono fun c ⟨here, inside⟩ =>
    List.forall_mem_cons.mpr ⟨here, inside⟩

theorem ensures_toLayout {left : List Token} (inHead : ∀ t ∈ left, S t) :
    (p.toLayout left).Ensures fun l => ∀ m ∈ (Landmark.layout l).tree, Q m := by
  have body : (p.toLayout left).Ensures fun l => ∀ m ∈ l.body.landmarks, Q m := by
    refine .after fun ⟨name, left'⟩ => ?_
    refine (nodewise.ensures_element each left').bind fun ⟨body, rest⟩ all => ?_
    exact .after fun closer => .after fun location => .pure all
  exact ((nodewise.layout made inHead).and body).mono fun c ⟨here, inside⟩ =>
    List.forall_mem_cons.mpr ⟨here, inside⟩

theorem ensures_toScreen {left : List Token} (inHead : ∀ t ∈ left, S t) :
    (p.toScreen left).Ensures fun s => ∀ l ∈ (Landmark.screen s).tree, Q l := by
  have forms : (p.toScreen left).Ensures fun s =>
      (∀ l ∈ s.root.landmarks, Q l) ∧ ∀ o ∈ s.overlays, ∀ l ∈ o.landmarks, Q l := by
    refine .after fun ⟨id, left'⟩ => .after fun ⟨options, left''⟩ => ?_
    refine (nodewise.ensures_screenForms id (made.upcoming left'') (ensures_upcoming each left'')
      (by simp)).bind fun ⟨root, overlays⟩ ⟨fills, others⟩ => .after fun closer => ?_
    cases root with
    | none => exact .fail
    | some root => exact .after fun location => .pure ⟨fills root rfl, others⟩
  refine ((nodewise.screen made inHead).and forms).mono fun s ⟨here, fills, others⟩ => ?_
  refine List.forall_mem_cons.mpr ⟨here, List.forall_mem_append.mpr ⟨fills, fun l member => ?_⟩⟩
  obtain ⟨o, isOverlay, inside⟩ := List.mem_flatMap.mp member
  exact others o isOverlay l inside

end Entries
end Forms
end Nodewise

/-- Whether a law of nodes holds of all that an entry adds to a document, and a law of facts of all
facts that it states. -/
structure Entry.All (Q : Landmark → Prop) (F : Scalar → Prop) (entry : Entry) : Prop where
  nodes : ∀ l ∈ entry.landmark?, ∀ m ∈ l.tree, Q m
  facts : ∀ statement ∈ entry.statements, F statement.2

theorem Entry.all_of_landmark {Q : Landmark → Prop} {F : Scalar → Prop} {entry : Entry}
    {l : Landmark} (adds : entry.landmark? = some l) (states : entry.statements = [])
    (all : ∀ m ∈ l.tree, Q m) : ∀ e ∈ some entry, e.All Q F := by
  intro e member
  obtain rfl := Option.some.inj member
  refine ⟨fun m same => ?_, by simp [states]⟩
  obtain rfl := Option.some.inj (adds.symm.trans same)
  exact all

namespace Nodewise

variable {S : Token → Prop} {Q : Landmark → Prop} {F : Scalar → Prop} (nodewise : Nodewise S Q F)
include nodewise

theorem ensures_toEntry? {p : Parts} (made : p.MadeOf S)
    (each : ∀ n ∈ p.nested, n.child.Ensures (Child.All Q)) :
    p.toEntry?.Ensures fun entry => ∀ e ∈ entry, e.All Q F := by
  refine (Parts.MadeOf.left_of_symbol made.head).bind fun ⟨name, left⟩ inHead => ?_
  simp only
  split
  · refine (nodewise.inclusion made inHead).bind fun i here => .pure ?_
    exact Entry.all_of_landmark rfl rfl (List.forall_mem_singleton.mpr here)
  · refine (nodewise.facts made inHead).bind fun facts all => .pure ?_
    intro e member
    obtain rfl := Option.some.inj member
    refine ⟨by simp [Entry.landmark?], fun statement member => ?_⟩
    exact all statement.2 (List.mem_map_of_mem member)
  · refine (nodewise.ensures_toComponent made each inHead).bind fun c all => .pure ?_
    exact Entry.all_of_landmark rfl rfl all
  · refine (nodewise.ensures_toLayout made each inHead).bind fun l all => .pure ?_
    exact Entry.all_of_landmark rfl rfl all
  · refine (nodewise.ensures_toScreen made each inHead).bind fun s all => .pure ?_
    exact Entry.all_of_landmark rfl rfl all
  · exact .after fun _ => .pure (by simp)

theorem ensures_entry? {form : Form} (made : form.MadeOf S) :
    form.entry?.Ensures fun entry => ∀ e ∈ entry, e.All Q F := by
  cases form with
  | atom t => exact .fail
  | list opener items closer =>
      exact nodewise.ensures_toEntry? made.parts (nodewise.ensures_nested made)

theorem ensures_entries {forms : List Form} (made : ∀ form ∈ forms, form.MadeOf S) :
    (Document.entries forms).Ensures fun found => ∀ e ∈ found, e.All Q F := by
  induction forms with
  | nil => exact .pure (by simp)
  | cons form rest ih =>
      obtain ⟨here, later⟩ := List.forall_mem_cons.mp made
      refine (nodewise.ensures_entry? here).recover.bind fun entry first =>
        (ih later).bind fun behind others => ?_
      refine .pure (List.forall_mem_append.mpr ⟨fun e member => ?_, others⟩)
      have added := Option.join_eq_some_iff.mp (Option.mem_toList.mp member)
      exact first _ added e rfl

end Nodewise

/-- What a table is made of holds all its values. -/
theorem Table.mem_values_ofList {α : Type} {entries : List (String × α)} {value : α}
    (member : value ∈ (Table.ofList entries).values) : ∃ key, (key, value) ∈ entries := by
  obtain ⟨⟨key, same⟩, inTable, rfl⟩ := List.mem_map.mp member
  have found := (find?_eq_some_iff _ _ _).mpr inTable
  rw [ofList, find?_insertAll, find?_empty, Option.or_none] at found
  obtain ⟨front, back, split, -⟩ := List.lookup_eq_some_iff.mp found
  exact ⟨key, List.mem_reverse.mp (by simp [split])⟩

namespace Document

/-- The nodes directly inside a document are those that its entries add. -/
theorem mem_lists_ofEntries {found : List Entry} {location : Location} {l : Landmark}
    (member : l ∈ (ofEntries found location).lists.flatten) :
    ∃ e ∈ found, e.landmark? = some l := by
  simp only [lists, ofEntries, List.flatten_cons, List.flatten_nil, List.append_nil,
    List.mem_append, List.mem_map, List.mem_filterMap] at member
  rcases member with ⟨_, ⟨e, isEntry, same⟩, rfl⟩ | ⟨_, ⟨e, isEntry, same⟩, rfl⟩ |
    ⟨_, ⟨e, isEntry, same⟩, rfl⟩ | ⟨_, ⟨e, isEntry, same⟩, rfl⟩
  · exact ⟨e, isEntry, by cases e <;> cases same; rfl⟩
  · exact ⟨e, isEntry, by cases e <;> cases same; rfl⟩
  · exact ⟨e, isEntry, by cases e <;> cases same; rfl⟩
  · exact ⟨e, isEntry, by cases e <;> cases same; rfl⟩

/-- Whether a law holds of all nodes of a document, and a law of facts of all facts about it. -/
structure All (Q : Landmark → Prop) (F : Scalar → Prop) (d : Document) : Prop where
  nodes : ∀ l ∈ d.landmarks, Q l
  facts : ∀ value ∈ d.metadata.values, F value

theorem all_ofEntries {Q : Landmark → Prop} {F : Scalar → Prop} {found : List Entry}
    (all : ∀ e ∈ found, e.All Q F) (location : Location) : (ofEntries found location).All Q F where
  nodes := by
    intro l member
    obtain ⟨root, inLists, inside⟩ := List.mem_flatMap.mp member
    obtain ⟨e, isEntry, same⟩ := mem_lists_ofEntries inLists
    exact (all e isEntry).nodes root same l inside
  facts := by
    intro value member
    obtain ⟨key, stated⟩ := Table.mem_values_ofList member
    obtain ⟨e, isEntry, statement⟩ := List.mem_flatMap.mp stated
    exact (all e isEntry).facts _ statement

end Document

namespace Nodewise

variable {S : Token → Prop} {Q : Landmark → Prop} {F : Scalar → Prop} (nodewise : Nodewise S Q F)
include nodewise

/-- A law that holds of each node by itself holds of all nodes of the document of a form. -/
theorem ensures_ofForm (behind : List Token) {form : Form} (made : form.MadeOf S) :
    (Document.ofForm behind form).Ensures fun d => d.All Q F := by
  cases form with
  | atom t => exact .fail
  | list opener items closer =>
      have rest : (Document.rootItems closer items).Ensures fun inner =>
          ∀ form ∈ inner, form.MadeOf S := by
        refine .after fun name => ?_
        simp only
        have tail : ∀ form ∈ items.tail, form.MadeOf S :=
          fun form member => made.item form (List.mem_of_mem_tail member)
        split
        · exact .after fun _ => .pure tail
        · exact .pure tail
      refine rest.bind fun inner forms => (nodewise.ensures_entries forms).bind fun found all => ?_
      exact .after fun _ => .after fun location => .pure (Document.all_ofEntries all location)

/-- A law that holds of each node by itself holds of all nodes of a document. -/
theorem ensures_ofTokens (limit : Int) {tokens : List Token} (all : ∀ t ∈ tokens, S t)
    (last : S (Token.ending tokens)) :
    (Document.ofTokens limit tokens).Ensures fun d => d.All Q F := by
  unfold Document.ofTokens
  split
  · exact .fail
  · refine nodewise.ensures_ofForm _ ?_
    have inner : ∀ t ∈ Token.beforeEnd tokens, S t := fun t member =>
      all t ((List.takeWhile_sublist _).mem member)
    split
    · exact List.forall_mem_singleton.mpr last
    · rename_i t rest split
      rw [split] at inner
      split
      · obtain ⟨unclosed, same, -⟩ := OpenList.tokens_read (Token.ending tokens) ⟨t, []⟩ [] rest
        intro u member
        have inside := List.mem_append_left (OpenList.read (Token.ending tokens) ⟨t, []⟩ [] rest).2
          member
        rw [same] at inside
        rcases List.mem_append.mp inside with front | ends
        · exact inner u (by simpa [OpenList.tokens, Form.tokensAll] using front)
        · rw [List.eq_of_mem_replicate ends]
          exact last
      · exact List.forall_mem_singleton.mpr (inner t List.mem_cons_self)

end Nodewise
end Wireframe
