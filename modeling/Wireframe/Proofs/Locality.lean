import Wireframe.Proofs.Enclosed
import Wireframe.Proofs.Recovery

/-!
# Locality

What is read of a form depends on its own tokens only, wherever reading it fails.  The document of
several forms is put together from the documents of each, as are its faults, and the children of an
element are the nodes that its nested forms are read as by themselves.
-/

namespace Wireframe

namespace Attempt

variable {α β : Type} {x : Attempt α}

/-- Whether an attempt is not refused. -/
def Settles (x : Attempt α) : Prop :=
  ∀ r, x.outcome ≠ .refused r

theorem recover_eq (settles : x.Settles) : x.recover = ⟨x.faults, .value x.value?⟩ := by
  obtain ⟨noted, outcome⟩ := x
  cases outcome with
  | value a => rfl
  | fault f => rfl
  | refused r => exact absurd rfl (settles r)

theorem settles_of_recover {a : Option α} (read : x.recover.outcome = .value a) : x.Settles := by
  obtain ⟨noted, outcome⟩ := x
  cases outcome with
  | value b => simp [Settles]
  | fault f => simp [Settles]
  | refused r => simp [recover] at read

theorem Within.settles {Φ : Fault → Prop} (within : x.Within Φ) : x.Settles := by
  intro r refused
  have meets := within.outcome
  rw [refused] at meets
  exact meets

theorem value?_eq_some {a : α} : x.value? = some a ↔ x.outcome = .value a := by
  obtain ⟨noted, outcome⟩ := x
  cases outcome <;> simp [value?]

theorem faults_of_value {a : α} (read : x.outcome = .value a) : x.faults = x.noted := by
  rw [faults, read]

/-- What an attempt notes before it reads a value comes before what is noted behind. -/
theorem noted_bind_of_value {f : α → Attempt β} {a : α} (read : x.outcome = .value a) :
    (x >>= f).noted = x.noted ++ (f a).noted := by
  obtain ⟨noted, outcome⟩ := x
  simp only at read
  rw [read]
  rfl

theorem noted_bind_eq_nil {f : α → Attempt β} (here : x.noted = [])
    (later : ∀ a, (f a).noted = []) : (x >>= f).noted = [] := by
  obtain ⟨noted, outcome⟩ := x
  cases outcome with
  | value a => simpa [bind, andThen, here] using ⟨here, later a⟩
  | fault f => exact here
  | refused r => exact here

@[simp]
theorem noted_expect (wanted : TokenKind) (t : Token) : (expect wanted t).noted = [] := by
  unfold expect
  split <;> rfl

@[simp]
theorem noted_place (opener closer : Token) : (place opener closer).noted = [] := by
  unfold place
  split <;> rfl

/-- An attempt that notes nothing does nothing but read its value. -/
theorem eq_pure_of_value {a : α} (silent : x.noted = []) (read : x.outcome = .value a) :
    x = pure a := by
  obtain ⟨noted, outcome⟩ := x
  simp only at silent read
  rw [silent, read]
  rfl

end Attempt

/-- Nested forms that are not refused are read one by one. -/
theorem readNested_eq {nested : List Nested} (settles : ∀ n ∈ nested, n.child.Settles) :
    readNested nested =
      ⟨nested.flatMap (·.child.faults), .value (nested.filterMap (·.child.value?))⟩ := by
  induction nested with
  | nil => rfl
  | cons n rest ih =>
      obtain ⟨here, later⟩ := List.forall_mem_cons.mp settles
      rw [readNested, Attempt.recover_eq here, ih later]
      cases read : n.child.value? <;> simp [bind, Attempt.andThen, pure, read]

theorem settles_of_readNested {nested : List Nested} {children : List Child}
    (read : (readNested nested).outcome = .value children) : ∀ n ∈ nested, n.child.Settles := by
  induction nested generalizing children with
  | nil => simp
  | cons n rest ih =>
      obtain ⟨child, here, behind⟩ := Attempt.outcome_bind_eq_value.mp read
      obtain ⟨others, later, -⟩ := Attempt.outcome_bind_eq_value.mp behind
      exact List.forall_mem_cons.mpr ⟨Attempt.settles_of_recover here, ih later⟩

/-- What a form directly inside the root form adds to the document. -/
def Form.added (form : Form) : Option Entry :=
  form.entry?.value?.join

namespace Document

theorem entries_eq {forms : List Form} (settles : ∀ form ∈ forms, form.entry?.Settles) :
    entries forms =
      ⟨forms.flatMap fun form => form.entry?.faults, .value (forms.flatMap (·.added.toList))⟩ := by
  induction forms with
  | nil => rfl
  | cons form rest ih =>
      obtain ⟨here, later⟩ := List.forall_mem_cons.mp settles
      rw [entries, Attempt.recover_eq here, ih later]
      simp [bind, Attempt.andThen, pure, Form.added]

theorem settles_of_entries {forms : List Form} {found : List Entry}
    (read : (entries forms).outcome = .value found) : ∀ form ∈ forms, form.entry?.Settles := by
  induction forms generalizing found with
  | nil => simp
  | cons form rest ih =>
      obtain ⟨entry, here, behind⟩ := Attempt.outcome_bind_eq_value.mp read
      obtain ⟨others, later, -⟩ := Attempt.outcome_bind_eq_value.mp behind
      exact List.forall_mem_cons.mpr ⟨Attempt.settles_of_recover here, ih later⟩

/-- Whether a document holds what some documents hold, in order; facts of later documents take the
place of earlier ones. -/
structure Joins (d : Document) (ds : List Document) : Prop where
  includes : d.includes = ds.flatMap Document.includes
  components : d.components = ds.flatMap Document.components
  layouts : d.layouts = ds.flatMap Document.layouts
  screens : d.screens = ds.flatMap Document.screens
  metadata : d.metadata = ds.foldl (fun facts d => facts.insertAll d.metadata.entries) Table.empty

theorem foldl_insertAll (facts : Table Scalar) (ds : List Document) :
    ds.foldl (fun facts d => facts.insertAll d.metadata.entries) facts =
      facts.insertAll (ds.flatMap (·.metadata.entries)) := by
  induction ds generalizing facts with
  | nil => rfl
  | cons d ds ih => rw [List.foldl_cons, ih, List.flatMap_cons, Table.insertAll_append]

theorem joins_ofEntries (found : List (Option Entry)) (location : Location) :
    (ofEntries (found.flatMap Option.toList) location).Joins
      (found.map fun entry => ofEntries entry.toList location) := by
  have stated (entry : Option Entry) : (ofEntries entry.toList location).metadata.entries =
      entry.toList.flatMap Entry.statements := by
    cases entry with
    | none => rfl
    | some entry =>
        cases entry with
        | facts stated => simp [ofEntries, Entry.statements, Table.ofList_entries]
        | _ => rfl
  refine ⟨?includes, ?components, ?layouts, ?screens, ?metadata⟩
  case includes => simp [ofEntries, List.filterMap_flatMap, List.flatMap_map]
  case components => simp [ofEntries, List.filterMap_flatMap, List.flatMap_map]
  case layouts => simp [ofEntries, List.filterMap_flatMap, List.flatMap_map]
  case screens => simp [ofEntries, List.filterMap_flatMap, List.flatMap_map]
  case metadata =>
    rw [foldl_insertAll, List.flatMap_map]
    simp only [stated]
    rw [← List.flatMap_assoc]
    rfl

end Document

namespace Token

variable {limit : Int} {n : Nat} {tokens left right : List Token}

theorem tooDeep?_append (limit : Int) (n : Nat) (left right : List Token) :
    tooDeep? limit n (left ++ right) =
      (tooDeep? limit n left).or (tooDeep? limit (depth n left) right) := by
  induction left generalizing n with
  | nil => rfl
  | cons t left ih =>
      rw [List.cons_append, tooDeep?, tooDeep?, depth]
      cases t.kind with
      | openParen =>
          by_cases deep : limit < (n : Int) + 1
          · simp [deep]
          · simpa [deep] using ih (n + 1)
      | closeParen => exact ih (n - 1)
      | _ => exact ih n

theorem depth_of_nested
    (nested : ∀ front back, tokens = front ++ back → 0 ≤ n + Balance.unclosed front) :
    (depth n tokens : Int) = n + Balance.unclosed tokens := by
  induction tokens generalizing n with
  | nil => simp [depth, Balance.unclosed]
  | cons t rest ih =>
      have later (front back : List Token) (split : rest = front ++ back) :
          0 ≤ n + (Balance.unclosed [t] + Balance.unclosed front) := by
        rw [← Balance.unclosed_cons]
        exact nested (t :: front) back (by rw [split, List.cons_append])
      rw [Balance.unclosed_cons, depth]
      rcases Balance.paren_cases t with opens | closes | ⟨opens, closes⟩
      · rw [Balance.unclosed_openParen opens] at later ⊢
        have onward := ih (n := n + 1) fun front back split => by
          have := later front back split
          omega
        simp only [opens, onward]
        omega
      · rw [Balance.unclosed_closeParen closes] at later ⊢
        have positive : 0 < n := by
          have first := later [] rest rfl
          simp only [Balance.unclosed, List.countP_nil] at first
          omega
        have onward := ih (n := n - 1) fun front back split => by
          have := later front back split
          omega
        simp only [closes, onward]
        omega
      · rw [Balance.unclosed_other opens closes] at later ⊢
        have onward := ih (n := n) fun front back split => by
          have := later front back split
          omega
        rw [Int.zero_add, ← onward]
        simp only

theorem Paired.depth_eq (paired : Paired tokens) (n : Nat) : depth n tokens = n := by
  have counted := depth_of_nested (n := n) fun front back split => by
    have := paired.nested front back split
    omega
  rw [paired.closed] at counted
  omega

theorem Enclosed.paired (enclosed : Enclosed tokens) : Paired tokens := by
  obtain ⟨opener, inner, closer, rfl, opens, closes, paired, -⟩ := enclosed
  exact paired.enclose opens closes

variable {rows : List (List Token)}

theorem paired_flatten (paired : ∀ row ∈ rows, Paired row) : Paired rows.flatten := by
  induction rows with
  | nil => exact paired_nil
  | cons row rows ih =>
      obtain ⟨here, later⟩ := List.forall_mem_cons.mp paired
      exact here.append (ih later)

theorem tooDeep?_flatten (paired : ∀ row ∈ rows, Paired row) :
    tooDeep? limit n rows.flatten = none ↔ ∀ row ∈ rows, tooDeep? limit n row = none := by
  induction rows with
  | nil => simp [tooDeep?]
  | cons row rows ih =>
      obtain ⟨here, later⟩ := List.forall_mem_cons.mp paired
      rw [List.flatten_cons, tooDeep?_append, here.depth_eq, Option.or_eq_none_iff, ih later,
        List.forall_mem_cons]

end Token

/-! ## Casings -/

/-- The tokens of a list apart from the forms nested behind its head. -/
structure Casing where
  /-- The opening parenthesis. -/
  opener : Token
  /-- The atoms at the head. -/
  head : List Token
  /-- The closing parenthesis. -/
  closer : Token
  opens : opener.kind = .openParen
  atoms : ∀ t ∈ head, (t.kind ≠ .openParen ∧ t.kind ≠ .closeParen) ∧ t.kind ≠ .eof
  closes : closer.kind = .closeParen

namespace Casing

variable {c : Casing} {limit : Int} {ending : Token} {rows : List (List Token)} {forms : List Form}

/-- The tokens of a list with rows of tokens behind its head. -/
def around (c : Casing) (rows : List (List Token)) : List Token :=
  c.opener :: (c.head ++ rows.flatten ++ [c.closer])

/-- The list with forms behind its head. -/
def list (c : Casing) (forms : List Form) : Form :=
  .list c.opener (c.head.map .atom ++ forms) c.closer

theorem tokens_list (c : Casing) (forms : List Form) :
    (c.list forms).tokens = c.around (forms.map Form.tokens) := by
  rw [list, Form.tokens, Form.tokensAll_append, Form.tokensAll_atoms, Form.tokensAll_eq_flatMap,
    around, List.flatMap_def, List.cons_append]

theorem closedList_list (lists : ∀ form ∈ forms, form.ClosedList) : (c.list forms).ClosedList := by
  have atoms : ∀ form ∈ c.head.map Form.atom, form.Closed :=
    List.forall_mem_map.mpr fun t member => Form.closed_atom_iff.mpr (c.atoms t member)
  have items := List.forall_mem_append.mpr ⟨atoms, fun form member => (lists form member).1⟩
  exact ⟨Form.closed_list_iff.mpr ⟨c.opens, c.closes, items⟩, c.opens⟩

theorem parts_list (lists : ∀ form ∈ forms, form.ClosedList) :
    (c.list forms).parts =
      ⟨c.opener, c.head, forms.map fun form => ⟨form, form.child⟩, c.closer⟩ :=
  Form.parts_of_split rfl lists

/-- Rows of tokens that pair up are nested too deeply only if one of them is. -/
theorem not_exceeds_around_iff (paired : ∀ row ∈ rows, Token.Paired row) :
    ¬Token.Exceeds limit (c.around rows ++ [ending]) ↔
      ¬Token.Exceeds limit (c.around [] ++ [ending]) ∧
        ∀ row ∈ rows, Token.tooDeep? limit (Token.depth 0 (c.opener :: c.head)) row = none := by
  have split (rows : List (List Token)) : c.around rows ++ [ending] =
      (c.opener :: c.head) ++ (rows.flatten ++ [c.closer, ending]) := by
    simp [around]
  rw [← Token.tooDeep?_eq_none, ← Token.tooDeep?_eq_none, split, split, Token.tooDeep?_append,
    Token.tooDeep?_append, Token.tooDeep?_append, Token.tooDeep?_append,
    (Token.paired_flatten paired).depth_eq]
  simp only [Option.or_eq_none_iff, Token.tooDeep?_flatten paired, List.flatten_nil,
    Token.tooDeep?, Token.depth, true_and]
  tauto

/-- Whether the head of a list is the name of a root form. -/
def IsRoot (c : Casing) : Prop :=
  ∃ name, c.head = [name] ∧ name.isSymbol Schema.rootForm = true

/-- The attempt to read a list with rows of tokens behind its head as a document. -/
def document (c : Casing) (limit : Int) (ending : Token) (rows : List (List Token)) :
    Attempt Document :=
  Document.ofTokens limit (c.around rows ++ [ending])

end Casing

namespace Document

variable {c : Casing} {limit : Int} {ending : Token} {rows : List (List Token)} {forms : List Form}

theorem ofTokens_around (root : c.IsRoot) (ends : ending.kind = .eof)
    (lists : ∀ form ∈ forms, form.ClosedList)
    (shallow : ¬Token.Exceeds limit (c.around (forms.map Form.tokens) ++ [ending])) :
    c.document limit ending (forms.map Form.tokens) = (do
      let found ← entries forms
      return ofEntries found (← Attempt.place c.opener c.closer)) := by
  obtain ⟨name, head, symbol⟩ := root
  have closed := c.closedList_list lists
  have inside : Token.beforeEnd (c.around (forms.map Form.tokens) ++ [ending]) =
      (c.list forms).tokens := by
    have isEnd : ending.isEnd = true := by simp [Token.isEnd, ends]
    rw [← c.tokens_list, Token.beforeEnd, List.takeWhile_append_of_pos fun t member => by
      simpa [Token.isEnd] using closed.1.inner t member]
    simp [isEnd]
  have notEnd : c.closer.isEnd = false := by simp [Token.isEnd, c.closes]
  rw [Casing.document, ofTokens, Token.tooDeep?_eq_none.mpr shallow]
  simp only
  rw [rootForm_of_closedList closed inside, Casing.list, head]
  simp [ofForm, rootItems_of_isSymbol _ _ symbol, checkEnd, notEnd]

theorem settles_of_around (root : c.IsRoot) (ends : ending.kind = .eof)
    (lists : ∀ form ∈ forms, form.ClosedList)
    (shallow : ¬Token.Exceeds limit (c.around (forms.map Form.tokens) ++ [ending])) {d : Document}
    (read : (c.document limit ending (forms.map Form.tokens)).outcome = .value d) :
    (∀ form ∈ forms, form.entry?.Settles) ∧
      ∃ location, Attempt.place c.opener c.closer = pure location := by
  rw [ofTokens_around root ends lists shallow] at read
  obtain ⟨found, here, behind⟩ := Attempt.outcome_bind_eq_value.mp read
  obtain ⟨location, placed, -⟩ := Attempt.outcome_bind_eq_value.mp behind
  have silent := Attempt.noted_place c.opener c.closer
  exact ⟨settles_of_entries here, location, Attempt.eq_pure_of_value silent placed⟩

theorem ofTokens_around_eq (root : c.IsRoot) (ends : ending.kind = .eof)
    (lists : ∀ form ∈ forms, form.ClosedList)
    (shallow : ¬Token.Exceeds limit (c.around (forms.map Form.tokens) ++ [ending]))
    (settles : ∀ form ∈ forms, form.entry?.Settles) {location : Location}
    (placed : Attempt.place c.opener c.closer = pure location) :
    c.document limit ending (forms.map Form.tokens) =
      ⟨forms.flatMap fun form => form.entry?.faults,
        .value (ofEntries ((forms.map Form.added).flatMap Option.toList) location)⟩ := by
  rw [ofTokens_around root ends lists shallow, entries_eq settles, placed, List.flatMap_map]
  simp [bind, Attempt.andThen, pure]

/-- Whether reading a root form reads each row of tokens in it as if the others were not there. -/
structure Splits (limit : Int) (root : Casing) (ending : Token) (rows : List (List Token)) :
    Prop where
  /-- Tokens as a source has them, without an infinite count, have a document. -/
  settles : (∀ t ∈ root.around rows, t.Readable) → Token.FiniteCounts (root.around rows) →
    ∃ d, (root.document limit ending rows).outcome = .value d
  /-- A document joins the documents of the rows, and its faults are theirs. -/
  joins : ∀ d, (root.document limit ending rows).outcome = .value d →
    ∃ ds, List.Forall₂ (fun row part => (root.document limit ending [row]).outcome = .value part)
        rows ds ∧
      d.Joins ds ∧ (root.document limit ending rows).faults =
        rows.flatMap fun row => (root.document limit ending [row]).faults

theorem document_singleton (root : c.IsRoot) (ends : ending.kind = .eof)
    (lists : ∀ form ∈ forms, form.ClosedList)
    (shallow : ¬Token.Exceeds limit (c.around (forms.map Form.tokens) ++ [ending]))
    {location : Location} (placed : Attempt.place c.opener c.closer = pure location) {form : Form}
    (member : form ∈ forms) (settles : form.entry?.Settles) :
    c.document limit ending [form.tokens] =
      ⟨form.entry?.faults, .value (ofEntries form.added.toList location)⟩ := by
  have paired : ∀ row ∈ forms.map Form.tokens, Token.Paired row :=
    List.forall_mem_map.mpr fun form member => form.paired_tokens (lists form member).1
  obtain ⟨outer, inner⟩ := (Casing.not_exceeds_around_iff paired).mp shallow
  have row := List.mem_map_of_mem (f := Form.tokens) member
  have alone : ¬Token.Exceeds limit (c.around ([form].map Form.tokens) ++ [ending]) :=
    (Casing.not_exceeds_around_iff (by simpa using paired _ row)).mpr
      ⟨outer, by simpa using inner _ row⟩
  simpa using ofTokens_around_eq root ends (by simpa using lists form member) alone
    (by simpa using settles) placed

/-- A document joins the documents of the forms in it, and its faults are theirs. -/
theorem joins_of_lists (root : c.IsRoot) (ends : ending.kind = .eof)
    (lists : ∀ form ∈ forms, form.ClosedList)
    (shallow : ¬Token.Exceeds limit (c.around (forms.map Form.tokens) ++ [ending])) {d : Document}
    (read : (c.document limit ending (forms.map Form.tokens)).outcome = .value d) :
    ∃ location, List.Forall₂
        (fun row part => (c.document limit ending [row]).outcome = .value part)
        (forms.map Form.tokens)
        ((forms.map Form.added).map fun entry => ofEntries entry.toList location) ∧
      d.Joins ((forms.map Form.added).map fun entry => ofEntries entry.toList location) ∧
      (c.document limit ending (forms.map Form.tokens)).faults =
        (forms.map Form.tokens).flatMap fun row => (c.document limit ending [row]).faults := by
  obtain ⟨settles, location, placed⟩ := settles_of_around root ends lists shallow read
  have whole := ofTokens_around_eq root ends lists shallow settles placed
  have single (form : Form) (member : form ∈ forms) :=
    document_singleton root ends lists shallow placed member (settles form member)
  refine ⟨location, ?documents, ?joins, ?faults⟩
  case documents =>
    rw [List.map_map, List.forall₂_map_left_iff, List.forall₂_map_right_iff, List.forall₂_same]
    intro form member
    rw [single form member]
    rfl
  case joins =>
    rw [whole] at read
    obtain rfl := Outcome.value.inj read
    exact joins_ofEntries _ location
  case faults =>
    rw [List.flatMap_map, whole, Attempt.faults_of_value rfl]
    apply List.flatMap_congr
    intro form member
    rw [single form member]
    rfl

theorem splits_of_enclosed (root : c.IsRoot) (ends : ending.kind = .eof)
    (enclosed : ∀ row ∈ rows, Token.Enclosed row)
    (shallow : ¬Token.Exceeds limit (c.around rows ++ [ending])) : Splits limit c ending rows := by
  obtain ⟨forms, lists, rfl⟩ := Token.exists_forms enclosed
  refine ⟨fun readable counts => ?settles, fun d read => ?joins⟩
  case joins =>
    obtain ⟨location, documents, joins, faults⟩ := joins_of_lists root ends lists shallow read
    exact ⟨_, documents, joins, faults⟩
  case settles =>
    rw [← c.tokens_list] at readable counts
    have sound : (c.list forms).Sound fun _ => True :=
      ⟨(c.closedList_list lists).1.shaped, readable, counts.repeats⟩
    have settles : ∀ form ∈ forms, form.entry?.Settles := by
      intro form member
      have item := sound.item (List.mem_append_right _ member)
      have granted := Form.granted_of_position fun _ => True
      exact (Form.within_entry? granted item (Form.holds_sound item)).settles
    have placed : Attempt.place c.opener c.closer = pure _ :=
      Attempt.place_of_isProper sound.first.proper
    exact ⟨_, congrArg Attempt.outcome
      (ofTokens_around_eq root ends lists shallow settles placed)⟩

end Document

/-! ## Elements -/

/-- The attempt to read tokens as a node. -/
def Child.ofTokens (tokens : List Token) : Attempt Child :=
  (Document.rootForm tokens).1.child

theorem Child.ofTokens_tokens {form : Form} (closed : form.ClosedList) :
    Child.ofTokens form.tokens = form.child := by
  have inner : ∀ t ∈ form.tokens, (!t.isEnd) = true := by
    intro t member
    simpa [Token.isEnd] using closed.1.inner t member
  have inside : Token.beforeEnd form.tokens = form.tokens := by
    rw [Token.beforeEnd, ← List.append_nil form.tokens, List.takeWhile_append_of_pos inner]
    rfl
  rw [Child.ofTokens, Document.rootForm_of_closedList closed inside]

section Properties

variable {known : Table PropDef} {props : Table PropValue} {key next next' : Token}

theorem noted_ofValue {α : Type} (value : Except ValueFault α) :
    (Attempt.ofValue value).noted = [] := by
  cases value <;> rfl

theorem Literal.noted_ofToken (t : Token) : (Literal.ofToken t).noted = [] := by
  unfold Literal.ofToken
  split
  · exact Attempt.noted_bind_eq_nil (noted_ofValue _) fun _ => rfl
  · rfl
  · rfl

theorem PropValue.noted_ofToken (type : Option PropType) (t : Token) :
    (PropValue.ofToken type t).noted = [] := by
  unfold PropValue.ofToken
  split
  · rfl
  · rfl
  · split
    · rfl
    · exact Attempt.noted_bind_eq_nil (Literal.noted_ofToken t) fun _ => rfl

theorem PropValue.noted_targetOfToken (t : Token) : (PropValue.targetOfToken t).noted = [] := by
  unfold PropValue.targetOfToken
  split <;> rfl

theorem noted_readProperty (known : Table PropDef) (props : Table PropValue) (key next : Token) :
    (readProperty known props key next).noted = [] := by
  apply Attempt.noted_bind_eq_nil
  · unfold PropValue.read
    split
    · exact Attempt.noted_bind_eq_nil (PropValue.noted_targetOfToken next) fun _ => rfl
    · split
      · exact Attempt.noted_bind_eq_nil (PropValue.noted_ofToken _ next) fun _ => rfl
      · rfl
  · exact fun _ => rfl

theorem noted_readClauses {σ : Type} {after : Token}
    {step : σ → Token → Token → Attempt (Option (σ × Bool))}
    (silent : ∀ s key next, (step s key next).noted = []) (s : σ) (left : List Token) :
    (readClauses after step s left).noted = [] := by
  fun_induction readClauses after step s left with
  | case1 s => rfl
  | case2 s key keyword =>
      apply Attempt.noted_bind_eq_nil (silent s key after)
      intro result
      cases result <;> rfl
  | case3 s key other => rfl
  | case4 s key next rest keyword used unused =>
      apply Attempt.noted_bind_eq_nil (silent s key next)
      intro result
      rcases result with - | ⟨state, taken⟩
      · rfl
      · cases taken with
        | true => exact used state
        | false => exact unused state
  | case5 s key next rest other => rfl

/-- A parenthesis is no value, so that it does not matter to a property which one comes next. -/
theorem outcome_readProperty_paren (paren : next.kind = .openParen ∨ next.kind = .closeParen)
    (paren' : next'.kind = .openParen ∨ next'.kind = .closeParen)
    {result : Option (Table PropValue × Bool)}
    (read : (readProperty known props key next).outcome = .value result) :
    (readProperty known props key next').outcome = .value result := by
  have other : next.kind.isValue = false ∧ next'.kind.isValue = false := by
    constructor
    · rcases paren with same | same <;> simp [same, TokenKind.isValue]
    · rcases paren' with same | same <;> simp [same, TokenKind.isValue]
  unfold readProperty PropValue.read at read ⊢
  split at read
  · obtain ⟨_, here, -⟩ := Attempt.outcome_bind_eq_value.mp read
    obtain ⟨_, target, -⟩ := Attempt.outcome_bind_eq_value.mp here
    rcases paren with same | same <;>
      simp [PropValue.targetOfToken, same, Attempt.fail] at target
  · rename_i plain
    rw [if_neg (by simp [other.1])] at read
    rw [if_neg (by simp [other.2])]
    exact read

/-- The token behind clauses matters only as far as a clause reads it. -/
theorem outcome_readClauses {σ : Type} {after after' : Token}
    {step : σ → Token → Token → Attempt (Option (σ × Bool))}
    (same : ∀ s key result, (step s key after).outcome = .value result →
      (step s key after').outcome = .value result) {s : σ} {left : List Token}
    {result : σ × List Token} (read : (readClauses after step s left).outcome = .value result) :
    (readClauses after' step s left).outcome = .value result := by
  fun_induction readClauses after step s left with
  | case1 s => exact read
  | case2 s key keyword =>
      obtain ⟨answer, here, behind⟩ := Attempt.outcome_bind_eq_value.mp read
      rw [readClauses, if_pos keyword]
      exact Attempt.outcome_bind_eq_value.mpr ⟨answer, same s key answer here, behind⟩
  | case3 s key other =>
      rw [readClauses, if_neg other]
      exact read
  | case4 s key next rest keyword used unused =>
      obtain ⟨answer, here, behind⟩ := Attempt.outcome_bind_eq_value.mp read
      rw [readClauses, if_pos keyword]
      refine Attempt.outcome_bind_eq_value.mpr ⟨answer, here, ?_⟩
      rcases answer with - | ⟨state, taken⟩
      · exact behind
      · cases taken with
        | true => exact used state behind
        | false => exact unused state behind
  | case5 s key next rest other =>
      rw [readClauses, if_neg other]
      exact read

end Properties

namespace Parts

variable {p : Parts} {name : String} {left : List Token} {e : Element}

theorem noted_symbol (p : Parts) (left : List Token) : (p.symbol left).noted = [] :=
  Attempt.noted_bind_eq_nil (Attempt.noted_expect _ _) fun _ => rfl

/-- Whether a name is that of an element or a component. -/
def IsElement (name : String) : Prop :=
  name ≠ Schema.repeatForm ∧ name ∉ Schema.overlayForms ∧ name ∉ Schema.topLevelForms

theorem toChild_of_isElement (symbol : p.symbol p.head = pure (name, left))
    (isElement : IsElement name) :
    p.toChild = do return .element (← p.toElement name left) := by
  obtain ⟨notRepeat, notOverlay, notTop⟩ := isElement
  rw [toChild, symbol, pure_bind]
  simp [notRepeat, notOverlay, notTop]

theorem isElement_of_toChild (read : p.toChild.outcome = .value (.element e)) :
    ∃ name left, p.symbol p.head = pure (name, left) ∧ IsElement name ∧
      (p.toElement name left).outcome = .value e := by
  obtain ⟨⟨name, left⟩, here, behind⟩ := Attempt.outcome_bind_eq_value.mp read
  refine ⟨name, left, Attempt.eq_pure_of_value (p.noted_symbol p.head) here, ?_⟩
  simp only at behind
  split at behind
  · obtain ⟨r, -, isRepetition⟩ := Attempt.outcome_bind_eq_value.mp behind
    cases isRepetition
  · split at behind
    · cases behind
    · split at behind
      · cases behind
      · rename_i notRepeat notOverlay notTop
        obtain ⟨e', element, same⟩ := Attempt.outcome_bind_eq_value.mp behind
        cases same
        exact ⟨⟨notRepeat, by simpa using notOverlay, by simpa using notTop⟩, element⟩

theorem children_eq_readNested {schema : ElementSchema} (takes : schema.takesChildren = true)
    (nested : List Nested) : Parts.children schema nested = readNested nested := by
  cases nested with
  | nil => rfl
  | cons n rest => simp [Parts.children, takes]

/-- The list that a casing makes of nested forms. -/
def ofCasing (c : Casing) (nested : List Nested) : Parts :=
  ⟨c.opener, c.head, nested, c.closer⟩

variable {c : Casing} {nested : List Nested}

theorem afterHead_ofCasing (openers : ∀ n ∈ nested, n.opener.kind = .openParen) :
    (ofCasing c nested).afterHead.kind = .openParen ∨
      (ofCasing c nested).afterHead.kind = .closeParen := by
  cases nested with
  | nil => exact Or.inr c.closes
  | cons n rest => exact Or.inl (openers n List.mem_cons_self)

theorem symbol_ofCasing (openers : ∀ n ∈ nested, n.opener.kind = .openParen) :
    (ofCasing c nested).symbol (ofCasing c nested).head = pure (name, left) ↔
      ∃ t, c.head = t :: left ∧ t.kind = .symbol ∧ t.value = name := by
  have sameHead : (ofCasing c nested).head = c.head := rfl
  rw [symbol, Attempt.bind_eq_pure_iff, sameHead]
  simp only [Attempt.expect_eq_pure_iff, Attempt.pure_inj, Prod.mk.injEq]
  cases head : c.head with
  | nil =>
      have other : (ofCasing c nested).afterHead.kind ≠ .symbol := by
        rcases afterHead_ofCasing (c := c) openers with same | same <;> simp [same]
      simp [current, other]
  | cons t rest =>
      simp only [current, List.head?_cons, Option.getD_some, List.tail_cons, List.cons.injEq]
      constructor
      · rintro ⟨a, ⟨symbol, rfl⟩, named, rfl⟩
        exact ⟨t, ⟨rfl, rfl⟩, symbol, named⟩
      · rintro ⟨u, ⟨rfl, rfl⟩, symbol, named⟩
        exact ⟨t, ⟨symbol, rfl⟩, named, rfl⟩

/-- What it takes to read an element that takes children: its clauses use up its head. -/
structure Reads (c : Casing) (nested : List Nested) (name : String) (left : List Token)
    (e : Element) : Prop where
  clauses : (readClauses (ofCasing c nested).afterHead (readProperty (Schema.element name).props)
    Table.empty (Parts.content (Schema.element name) left).2).outcome = .value (e.props, [])
  children : (readNested nested).outcome = .value e.children
  location : ∃ location, e.location = some location ∧
    Attempt.place c.opener c.closer = pure location
  type : e.type = name
  content : e.content = (Parts.content (Schema.element name) left).1
  isComponent : e.isComponent = !(Schema.element name).isBuiltin

theorem reads_of_toElement (takes : (Schema.element name).takesChildren = true)
    (atoms : ∀ t ∈ left, t ∈ c.head)
    (read : ((ofCasing c nested).toElement name left).outcome = .value e) :
    Reads c nested name left e := by
  unfold toElement at read
  simp only [children_eq_readNested takes] at read
  obtain ⟨⟨props, rest⟩, clauses, behind⟩ := Attempt.outcome_bind_eq_value.mp read
  obtain ⟨children, nodes, behind⟩ := Attempt.outcome_bind_eq_value.mp behind
  obtain ⟨closer, closed, behind⟩ := Attempt.outcome_bind_eq_value.mp behind
  obtain ⟨location, placed, same⟩ := Attempt.outcome_bind_eq_value.mp behind
  have inHead := mem_of_readClauses clauses
  obtain ⟨closes, rfl⟩ :=
    Attempt.expect_eq_pure_iff.mp (Attempt.eq_pure_of_value (Attempt.noted_expect _ _) closed)
  cases same
  cases rest with
  | nil =>
      have placed := Attempt.eq_pure_of_value (Attempt.noted_place _ _) placed
      exact ⟨clauses, nodes, ⟨location, rfl, placed⟩, rfl, rfl, rfl⟩
  | cons t rest =>
      -- An atom that is left at the head does not close the list.
      have member := atoms t (mem_of_content (inHead t List.mem_cons_self))
      exact absurd closes (c.atoms t member).1.2

private theorem expect_closing (c : Casing) (nested : List Nested) :
    Attempt.expect .closeParen ((ofCasing c nested).closing []) = pure c.closer :=
  Attempt.expect_eq_pure_iff.mpr ⟨c.closes, rfl⟩

theorem Reads.toElement (reads : Reads c nested name left e)
    (takes : (Schema.element name).takesChildren = true) :
    ((ofCasing c nested).toElement name left).outcome = .value e := by
  obtain ⟨clauses, nodes, ⟨location, located, placed⟩, rfl, content, isComponent⟩ := reads
  unfold Parts.toElement
  simp only [children_eq_readNested takes]
  refine Attempt.outcome_bind_eq_value.mpr ⟨(e.props, []), clauses, ?_⟩
  refine Attempt.outcome_bind_eq_value.mpr ⟨e.children, nodes, ?_⟩
  rw [expect_closing, pure_bind]
  change (Attempt.place c.opener c.closer >>= _).outcome = _
  rw [placed, pure_bind, Attempt.outcome_pure, ← content, ← isComponent, ← located]
  cases e
  rfl

/-- What is noted in reading an element that takes children is noted in reading these. -/
theorem Reads.noted_toElement (reads : Reads c nested name left e)
    (takes : (Schema.element name).takesChildren = true) :
    ((ofCasing c nested).toElement name left).noted = (readNested nested).noted := by
  obtain ⟨location, -, placed⟩ := reads.location
  unfold Parts.toElement
  simp only [children_eq_readNested takes]
  rw [Attempt.noted_bind_of_value reads.clauses, noted_readClauses (noted_readProperty _),
    List.nil_append]
  change (readNested nested >>= _).noted = _
  rw [Attempt.noted_bind_of_value reads.children, expect_closing, pure_bind]
  change (readNested nested).noted ++ (Attempt.place c.opener c.closer >>= _).noted = _
  rw [placed, pure_bind, Attempt.noted_pure, List.append_nil]

/-- Other forms nested in an element change its children only. -/
theorem Reads.replace {nested' : List Nested} {children : List Child}
    (reads : Reads c nested name left e) (openers : ∀ n ∈ nested, n.opener.kind = .openParen)
    (openers' : ∀ n ∈ nested', n.opener.kind = .openParen)
    (nodes : (readNested nested').outcome = .value children) :
    Reads c nested' name left { e with children := children } where
  clauses := by
    refine outcome_readClauses (fun props key result read => ?_) reads.clauses
    exact outcome_readProperty_paren (afterHead_ofCasing openers) (afterHead_ofCasing openers') read
  children := nodes
  location := reads.location
  type := reads.type
  content := reads.content
  isComponent := reads.isComponent

/-- A list is read as an element that takes children exactly if it begins with the name of one and
is read to its end. -/
theorem outcome_toChild_iff_reads (openers : ∀ n ∈ nested, n.opener.kind = .openParen)
    (takes : ∀ t ∈ c.head.head?, (Schema.element t.value).takesChildren = true) :
    (ofCasing c nested).toChild.outcome = .value (.element e) ↔
      ∃ t left, c.head = t :: left ∧ t.kind = .symbol ∧ IsElement t.value ∧
        Reads c nested t.value left e := by
  constructor
  · intro read
    obtain ⟨name, left, named, isElement, element⟩ := isElement_of_toChild read
    obtain ⟨t, head, symbol, rfl⟩ := (symbol_ofCasing openers).mp named
    have atoms : ∀ u ∈ left, u ∈ c.head := fun u member => head ▸ List.mem_cons_of_mem t member
    exact ⟨t, left, head, symbol, isElement,
      reads_of_toElement (takes t (by simp [head])) atoms element⟩
  · rintro ⟨t, left, head, symbol, isElement, reads⟩
    rw [toChild_of_isElement ((symbol_ofCasing openers).mpr ⟨t, head, symbol, rfl⟩) isElement]
    exact Attempt.outcome_bind_eq_value.mpr ⟨e, reads.toElement (takes t (by simp [head])), rfl⟩

/-- Reading an element that takes children reads its nested forms one by one. -/
theorem outcome_toChild_iff (openers : ∀ n ∈ nested, n.opener.kind = .openParen)
    (takes : ∀ t ∈ c.head.head?, (Schema.element t.value).takesChildren = true) :
    (ofCasing c nested).toChild.outcome = .value (.element e) ↔
      (∀ n ∈ nested, n.child.Settles) ∧ e.children = nested.filterMap (·.child.value?) ∧
        (ofCasing c []).toChild.outcome = .value (.element { e with children := [] }) := by
  have bare : ∀ n ∈ ([] : List Nested), n.opener.kind = .openParen := by simp
  rw [outcome_toChild_iff_reads openers takes, outcome_toChild_iff_reads bare takes]
  constructor
  · rintro ⟨t, left, head, symbol, isElement, reads⟩
    have settles := settles_of_readNested reads.children
    have children := reads.children
    rw [readNested_eq settles] at children
    exact ⟨settles, (Outcome.value.inj children).symm, t, left, head, symbol, isElement,
      reads.replace openers bare rfl⟩
  · rintro ⟨settles, children, t, left, head, symbol, isElement, reads⟩
    have nodes : (readNested nested).outcome = .value e.children := by
      rw [readNested_eq settles, children]
    have filled := reads.replace bare openers nodes
    cases e
    exact ⟨t, left, head, symbol, isElement, filled⟩

theorem faults_toChild (openers : ∀ n ∈ nested, n.opener.kind = .openParen)
    (takes : ∀ t ∈ c.head.head?, (Schema.element t.value).takesChildren = true)
    (read : (ofCasing c nested).toChild.outcome = .value (.element e)) :
    (ofCasing c nested).toChild.faults = nested.flatMap (·.child.faults) := by
  obtain ⟨t, left, head, symbol, isElement, reads⟩ :=
    (outcome_toChild_iff_reads openers takes).mp read
  have takes := takes t (by simp [head])
  rw [Attempt.faults_of_value read,
    toChild_of_isElement ((symbol_ofCasing openers).mpr ⟨t, head, symbol, rfl⟩) isElement,
    Attempt.noted_bind_of_value (reads.toElement takes), reads.noted_toElement takes,
    readNested_eq (settles_of_readNested reads.children)]
  simp

end Parts

/-- Whether an element has for its children the nodes that rows of tokens are read as by themselves,
and is read whatever they are. -/
structure Casing.Gathers (c : Casing) (rows : List (List Token)) : Prop where
  children : ∀ e, (Child.ofTokens (c.around rows)).outcome = .value (.element e) ↔
    (∀ row ∈ rows, (Child.ofTokens row).Settles) ∧
      e.children = rows.filterMap (fun row => (Child.ofTokens row).value?) ∧
        (Child.ofTokens (c.around [])).outcome = .value (.element { e with children := [] })
  faults : ∀ e, (Child.ofTokens (c.around rows)).outcome = .value (.element e) →
    (Child.ofTokens (c.around rows)).faults = rows.flatMap fun row => (Child.ofTokens row).faults

theorem Casing.gathers_of_enclosed {c : Casing} {rows : List (List Token)}
    (takes : ∀ t ∈ c.head.head?, (Schema.element t.value).takesChildren = true)
    (enclosed : ∀ row ∈ rows, Token.Enclosed row) : c.Gathers rows := by
  obtain ⟨forms, lists, rfl⟩ := Token.exists_forms enclosed
  have read {forms : List Form} (lists : ∀ form ∈ forms, form.ClosedList) :
      Child.ofTokens (c.around (forms.map Form.tokens)) =
        (Parts.ofCasing c (forms.map fun form => ⟨form, form.child⟩)).toChild := by
    rw [← c.tokens_list, Child.ofTokens_tokens (c.closedList_list lists), Parts.ofCasing,
      ← c.parts_list lists]
    rfl
  have bare := read (List.forall_mem_nil _)
  have openers : ∀ n ∈ forms.map fun form => (⟨form, form.child⟩ : Nested),
      n.opener.kind = .openParen :=
    List.forall_mem_map.mpr fun form member => (lists form member).2
  have each (form : Form) (member : form ∈ forms) : Child.ofTokens form.tokens = form.child :=
    Child.ofTokens_tokens (lists form member)
  simp only [List.map_nil] at bare
  constructor
  · intro e
    rw [read lists, bare, Parts.outcome_toChild_iff openers takes, List.forall_mem_map,
      List.forall_mem_map, List.filterMap_map, List.filterMap_map]
    have settles : (∀ form ∈ forms, form.child.Settles) ↔
        ∀ form ∈ forms, (Child.ofTokens form.tokens).Settles :=
      forall₂_congr fun form member => by rw [each form member]
    have nodes : forms.filterMap (fun form => form.child.value?) =
        forms.filterMap fun form => (Child.ofTokens form.tokens).value? :=
      List.filterMap_congr fun form member => by rw [each form member]
    exact and_congr settles (and_congr_left' (Eq.congr_right nodes))
  · intro e value
    rw [read lists] at value ⊢
    rw [Parts.faults_toChild openers takes value, List.flatMap_map, List.flatMap_map]
    exact List.flatMap_congr fun form member => by rw [each form member]

/-- Whether what is read of rows of tokens does not depend on what stands beside them. -/
structure Token.Local (rows : List (List Token)) : Prop where
  documents : ∀ limit root ending, root.IsRoot → ending.kind = .eof →
    ¬Token.Exceeds limit (root.around rows ++ [ending]) → Document.Splits limit root ending rows
  elements : ∀ c : Casing,
    (∀ t ∈ c.head.head?, (Schema.element t.value).takesChildren = true) → c.Gathers rows

/-- Recovery is local: rows of tokens, each from an opening parenthesis to the closing one that
matches it, are read in a document and in an element as if the others were not there. -/
theorem Token.local_of_enclosed {rows : List (List Token)}
    (enclosed : ∀ row ∈ rows, Token.Enclosed row) : Token.Local rows where
  documents _ _ _ root ends shallow := Document.splits_of_enclosed root ends enclosed shallow
  elements _ takes := Casing.gathers_of_enclosed takes enclosed

/-- A screen without a name does not keep the include behind it from being read. -/
theorem Token.local_of_enclosed_screen : ∃ (root : Casing) (rows : List (List Token)),
    rows = [[⟨.openParen, "(", ⟨1, 7⟩, ⟨1, 8⟩⟩, ⟨.symbol, "screen", ⟨1, 8⟩, ⟨1, 14⟩⟩,
        ⟨.closeParen, ")", ⟨1, 14⟩, ⟨1, 15⟩⟩],
      [⟨.openParen, "(", ⟨1, 16⟩, ⟨1, 17⟩⟩, ⟨.symbol, "include", ⟨1, 17⟩, ⟨1, 24⟩⟩,
        ⟨.string, "a", ⟨1, 25⟩, ⟨1, 28⟩⟩, ⟨.closeParen, ")", ⟨1, 28⟩, ⟨1, 29⟩⟩]] ∧
      Token.Local rows ∧ Document.Splits 10 root (Token.eof ⟨1, 30⟩) rows ∧
        (root.document 10 (Token.eof ⟨1, 30⟩) rows).value?.map (·.includes.length) = some 1 := by
  let root : Casing := ⟨⟨.openParen, "(", ⟨1, 1⟩, ⟨1, 2⟩⟩, [⟨.symbol, "wire", ⟨1, 2⟩, ⟨1, 6⟩⟩],
    ⟨.closeParen, ")", ⟨1, 29⟩, ⟨1, 30⟩⟩, rfl, by simp, rfl⟩
  suffices isLocal : Token.Local _ from
    ⟨root, _, rfl, isLocal, isLocal.documents 10 root _ ⟨_, rfl, rfl⟩ rfl
      (Token.tooDeep?_eq_none.mp (by decide)), by decide +kernel⟩
  apply local_of_enclosed
  simp only [List.forall_mem_cons]
  refine ⟨enclosed_iff.mpr ⟨.list _ [.atom _] _, ?unnamed, rfl⟩,
    enclosed_iff.mpr ⟨.list _ [.atom _, .atom _] _, ?file, rfl⟩, by simp⟩
  case unnamed =>
    simp [Form.ClosedList, Form.closed_list_iff, Form.closed_atom_iff, Form.first]
  case file =>
    simp [Form.ClosedList, Form.closed_list_iff, Form.closed_atom_iff, Form.first]

end Wireframe
