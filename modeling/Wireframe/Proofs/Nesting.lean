import Wireframe.Format.Balance
import Wireframe.Proofs.Word

/-!
# Nesting

The forms open at a token are found by a walk over the tokens before it.  Tokens are settled when
every closing parenthesis closes a form, every form is placed where its name allows, and no form
stays open.  Balancing yields settled tokens and keeps the names of their forms, although closing
parentheses come and go between them; settled tokens are left as they are.
-/

namespace Wireframe
namespace Balance

/-- The names of the forms open behind tokens, innermost first, given those open before them. -/
def openForms : List String → List (Token × String) → List String
  | stack, [] => stack
  | stack, (t, name) :: rest =>
    match t.kind with
    | .openParen => openForms (name :: stack) rest
    | .closeParen => openForms stack.tail rest
    | _ => openForms stack rest

/-- The number of forms that tokens leave open. -/
def unclosed (tokens : List Token) : Int :=
  tokens.countP (·.kind == .openParen) - tokens.countP (·.kind == .closeParen)

/-- Whether a form of a name may begin inside the given forms, innermost first. -/
structure Placed (name : String) (enclosing : List String) : Prop where
  /-- A top-level form stands outside all forms or directly inside the root form. -/
  topLevel : name ∈ Schema.topLevelForms → enclosing = [] ∨ enclosing.head? = some Schema.rootForm
  /-- An overlay inside a screen stands directly inside a screen. -/
  overlay : name ∈ Schema.overlayForms → Schema.screenForm ∈ enclosing →
    enclosing.head? = some Schema.screenForm
  /-- A named form directly inside a named form stands in one that accepts children. -/
  container : name ≠ "" → ∀ parent, enclosing.head? = some parent → parent ≠ "" →
    Schema.acceptsChildren parent = true

/-- Whether tokens close exactly the given open forms and their own, each of which is placed. -/
def Settled : List String → List (Token × String) → Prop
  | stack, [] => stack = []
  | stack, (t, name) :: rest =>
    match t.kind with
    | .openParen => Placed name stack ∧ Settled (name :: stack) rest
    | .closeParen => stack ≠ [] ∧ Settled stack.tail rest
    | _ => Settled stack rest

theorem paren_cases (t : Token) :
    t.kind = .openParen ∨ t.kind = .closeParen ∨ t.kind ≠ .openParen ∧ t.kind ≠ .closeParen := by
  by_cases opens : t.kind = .openParen
  · exact Or.inl opens
  · by_cases closes : t.kind = .closeParen
    · exact Or.inr (Or.inl closes)
    · exact Or.inr (Or.inr ⟨opens, closes⟩)

section

variable {stack : List String} {anchor : Position} {t : Token} {name parent : String}
  {outer : List String} {rest : List (Token × String)}

theorem edits_openParen (opens : t.kind = .openParen) :
    edits stack anchor ((t, name) :: rest) =
      List.replicate (endedBefore name stack) (.insert (Token.closer anchor)) ++
        .keep t :: edits (name :: stack.drop (endedBefore name stack)) t.stop rest := by
  simp [edits.eq_def stack anchor ((t, name) :: rest), opens]

theorem edits_closeParen (closes : t.kind = .closeParen) :
    edits (parent :: outer) anchor ((t, name) :: rest) = .keep t :: edits outer t.stop rest := by
  simp [edits, closes]

theorem edits_surplus (closes : t.kind = .closeParen) :
    edits [] anchor ((t, name) :: rest) = .drop t :: edits [] anchor rest := by
  simp [edits, closes]

theorem edits_other (opens : t.kind ≠ .openParen) (closes : t.kind ≠ .closeParen) :
    edits stack anchor ((t, name) :: rest) = .keep t :: edits stack t.stop rest := by
  rw [edits.eq_def]
  simp only

theorem settled_openParen (opens : t.kind = .openParen) :
    Settled stack ((t, name) :: rest) ↔ Placed name stack ∧ Settled (name :: stack) rest := by
  simp [Settled, opens]

theorem settled_closeParen (closes : t.kind = .closeParen) :
    Settled (parent :: outer) ((t, name) :: rest) ↔ Settled outer rest := by
  simp [Settled, closes]

theorem not_settled_surplus (closes : t.kind = .closeParen) :
    ¬Settled [] ((t, name) :: rest) := by
  simp [Settled, closes]

theorem settled_other (opens : t.kind ≠ .openParen) (closes : t.kind ≠ .closeParen) :
    Settled stack ((t, name) :: rest) ↔ Settled stack rest := by
  simp only [Settled]

theorem openForms_openParen (opens : t.kind = .openParen) :
    openForms stack ((t, name) :: rest) = openForms (name :: stack) rest := by
  simp [openForms, opens]

theorem openForms_closeParen (closes : t.kind = .closeParen) :
    openForms stack ((t, name) :: rest) = openForms stack.tail rest := by
  simp [openForms, closes]

theorem openForms_other (opens : t.kind ≠ .openParen) (closes : t.kind ≠ .closeParen) :
    openForms stack ((t, name) :: rest) = openForms stack rest := by
  simp only [openForms]

end

/-! ## Placement -/

private theorem not_overlay_of_topLevel {name : String} (top : name ∈ Schema.topLevelForms) :
    name ∉ Schema.overlayForms := by
  simp only [Schema.topLevelForms, List.mem_cons, List.not_mem_nil, or_false] at top
  rcases top with rfl | rfl | rfl | rfl | rfl <;> simp [Schema.overlayForms]

private theorem acceptsChildren_rootForm : Schema.acceptsChildren Schema.rootForm = true := by
  simp [Schema.acceptsChildren, Schema.isStructural, Schema.structuralForms, Schema.rootForm]

private theorem acceptsChildren_screenForm : Schema.acceptsChildren Schema.screenForm = true := by
  simp [Schema.acceptsChildren, Schema.isStructural, Schema.structuralForms, Schema.screenForm]

theorem Placed.of_root {name : String} {stack : List String}
    (top : name ∈ Schema.topLevelForms)
    (place : stack = [] ∨ stack.head? = some Schema.rootForm) : Placed name stack := by
  refine ⟨fun _ => place, fun overlay => absurd overlay (not_overlay_of_topLevel top), ?_⟩
  intro _ parent head _
  rcases place with rfl | root
  · simp at head
  · obtain rfl := Option.some.inj (root.symm.trans head)
    exact acceptsChildren_rootForm

theorem Placed.of_screen {name : String} {stack : List String}
    (notTop : name ∉ Schema.topLevelForms)
    (screen : stack.head? = some Schema.screenForm) : Placed name stack := by
  refine ⟨fun top => absurd top notTop, fun _ _ => screen, ?_⟩
  intro _ parent head _
  obtain rfl := Option.some.inj (screen.symm.trans head)
  exact acceptsChildren_screenForm

theorem placed_outside (name : String) : Placed name [] :=
  ⟨fun _ => Or.inl rfl, fun _ screen => by simp at screen, fun _ parent head => by simp at head⟩

theorem placed_unnamed (stack : List String) : Placed "" stack :=
  ⟨fun top => absurd top (by decide), fun overlay => absurd overlay (by decide),
    fun named => absurd rfl named⟩

theorem placed_node {name parent : String} (outer : List String)
    (notTop : name ∉ Schema.topLevelForms) (notOverlay : name ∉ Schema.overlayForms)
    (accepts : Schema.acceptsChildren parent = true) : Placed name (parent :: outer) := by
  refine ⟨fun top => absurd top notTop, fun overlay => absurd overlay notOverlay, ?_⟩
  intro _ next head _
  obtain rfl := Option.some.inj head
  exact accepts

private theorem placed_iff_container {name : String} {stack : List String}
    (notTop : name ∉ Schema.topLevelForms)
    (notOverlay : ¬(name ∈ Schema.overlayForms ∧ Schema.screenForm ∈ stack)) :
    Placed name stack ↔ (name ≠ "" → ∀ parent, stack.head? = some parent → parent ≠ "" →
      Schema.acceptsChildren parent = true) :=
  ⟨Placed.container, fun container =>
    ⟨fun top => absurd top notTop, fun overlay screen => absurd ⟨overlay, screen⟩ notOverlay,
      container⟩⟩

private theorem length_takeWhile_ne_eq_zero (name : String) (stack : List String) :
    (stack.takeWhile (· != name)).length = 0 ↔ stack = [] ∨ stack.head? = some name := by
  cases stack with
  | nil => simp
  | cons parent outer =>
      by_cases same : parent = name <;> simp [same]

private theorem drop_length_takeWhile (p : String → Bool) (stack : List String) :
    stack.drop (stack.takeWhile p).length = stack.dropWhile p := by
  induction stack with
  | nil => rfl
  | cons name stack ih => by_cases holds : p name <;> simp [holds, ih]

private theorem head?_dropWhile_ne (name : String) (stack : List String) :
    stack.dropWhile (· != name) = [] ∨ (stack.dropWhile (· != name)).head? = some name := by
  induction stack with
  | nil => exact Or.inl rfl
  | cons parent outer ih =>
      by_cases same : parent = name
      · simp [same]
      · rw [List.dropWhile_cons, if_pos (bne_iff_ne.mpr same)]
        exact ih

private theorem head?_dropWhile_ne_of_mem {name : String} {stack : List String}
    (member : name ∈ stack) : (stack.dropWhile (· != name)).head? = some name := by
  induction stack with
  | nil => simp at member
  | cons parent outer ih =>
      by_cases same : parent = name
      · simp [same]
      · simpa [same] using ih ((List.mem_cons.mp member).resolve_left (Ne.symm same))

/-- No form ends before a form begins exactly if the form may begin there. -/
theorem endedBefore_eq_zero_iff (name : String) (stack : List String) :
    endedBefore name stack = 0 ↔ Placed name stack := by
  by_cases top : name ∈ Schema.topLevelForms
  · rw [endedBefore.eq_def, if_pos (List.contains_iff_mem.mpr top), length_takeWhile_ne_eq_zero]
    exact ⟨Placed.of_root top, fun placed => placed.topLevel top⟩
  · rw [endedBefore.eq_def, if_neg (by simpa using top)]
    by_cases overlay : name ∈ Schema.overlayForms ∧ Schema.screenForm ∈ stack
    · rw [if_pos (by simpa using overlay), length_takeWhile_ne_eq_zero]
      have nonempty : stack ≠ [] := List.ne_nil_of_mem overlay.2
      exact ⟨fun place => Placed.of_screen top (place.resolve_left nonempty),
        fun placed => Or.inr (placed.overlay overlay.1 overlay.2)⟩
    · rw [if_neg (by simpa using overlay), placed_iff_container top overlay]
      cases stack with
      | nil => simp
      | cons parent outer =>
          simp only [List.head?_cons, Option.some.injEq, forall_eq']
          by_cases named : name = "" <;> by_cases parentNamed : parent = "" <;>
            simp [named, parentNamed]

/-- Whether every named form of a stack that is directly inside a named form stands in one that
accepts children. -/
def Roomy : List String → Prop
  | name :: parent :: outer =>
    (name ≠ "" → parent ≠ "" → Schema.acceptsChildren parent = true) ∧ Roomy (parent :: outer)
  | _ => True

private theorem Roomy.tail {name : String} {stack : List String} (roomy : Roomy (name :: stack)) :
    Roomy stack := by
  cases stack with
  | nil => trivial
  | cons parent outer => exact roomy.2

private theorem Roomy.drop {stack : List String} (roomy : Roomy stack) (n : Nat) :
    Roomy (stack.drop n) := by
  induction n generalizing stack with
  | zero => exact roomy
  | succ n ih =>
      cases stack with
      | nil => trivial
      | cons name stack => exact ih roomy.tail

private theorem Placed.roomy {name : String} {stack : List String} (placed : Placed name stack)
    (roomy : Roomy stack) : Roomy (name :: stack) := by
  cases stack with
  | nil => trivial
  | cons parent outer => exact ⟨fun named => placed.container named parent rfl, roomy⟩

/-- Once the forms that end before a form have ended, the form may begin. -/
theorem placed_drop_endedBefore (name : String) {stack : List String} (roomy : Roomy stack) :
    Placed name (stack.drop (endedBefore name stack)) := by
  by_cases top : name ∈ Schema.topLevelForms
  · rw [endedBefore.eq_def, if_pos (List.contains_iff_mem.mpr top), drop_length_takeWhile]
    exact Placed.of_root top (head?_dropWhile_ne Schema.rootForm stack)
  · rw [endedBefore.eq_def, if_neg (by simpa using top)]
    by_cases overlay : name ∈ Schema.overlayForms ∧ Schema.screenForm ∈ stack
    · rw [if_pos (by simpa using overlay), drop_length_takeWhile]
      exact Placed.of_screen top (head?_dropWhile_ne_of_mem overlay.2)
    · rw [if_neg (by simpa using overlay)]
      cases stack with
      | nil => exact (placed_iff_container top (by simp)).mpr (by simp)
      | cons parent outer =>
          simp only
          split
          -- The leaf ends; the form around it has room, since the leaf stands in it.
          · rename_i leaf
            rw [List.drop_one, List.tail_cons, placed_iff_container top fun both =>
              overlay ⟨both.1, List.mem_cons_of_mem parent both.2⟩]
            intro _ grand head grandNamed
            cases outer with
            | nil => simp at head
            | cons next outer =>
                obtain rfl := Option.some.inj head
                exact roomy.1 leaf.2.1 grandNamed
          · rename_i fits
            rw [List.drop_zero, placed_iff_container top overlay]
            intro named next head nextNamed
            obtain rfl := Option.some.inj head
            by_cases accepts : Schema.acceptsChildren parent = true
            · exact accepts
            · exact absurd ⟨named, nextNamed, by simpa using accepts⟩ fits

/-- How much of the head of a definition the last tokens make up. -/
inductive Heading where
  /-- Nothing of it. -/
  | nothing
  /-- The opening parenthesis. -/
  | opened
  /-- The parenthesis and the word behind it. -/
  | defining
  /-- All that comes before the parameter list. -/
  | titled
  deriving DecidableEq

/-- How much of the head of a definition is made up behind one more token. -/
def Heading.past (h : Heading) (t : Token) : Heading :=
  if t.kind = .openParen then .opened
  else
    match h with
    | .opened => if t.isSymbol Schema.defineForm then .defining else .nothing
    | .defining => if t.kind = .symbol then .titled else .nothing
    | _ => .nothing

/-- How much of the head of a definition some tokens, latest first, make up. -/
def heading : List Token → Heading
  | [] => .nothing
  | t :: before => (heading before).past t

/-- The symbol that comes next. -/
def nextSymbol : List Token → Option String
  | [] => none
  | t :: _ => if t.kind = .symbol then some t.value else none

theorem heading_of_openParen {t : Token} (opens : t.kind = .openParen) (before : List Token) :
    heading (t :: before) = .opened := by
  simp [heading, Heading.past, opens]

theorem heading_of_closeParen {t : Token} (closes : t.kind = .closeParen) (before : List Token) :
    heading (t :: before) = .nothing := by
  have notSymbol : t.isSymbol Schema.defineForm = false := by simp [Token.isSymbol, closes]
  rw [heading]
  unfold Heading.past
  rw [if_neg (by simp [closes])]
  cases heading before <;> simp [closes, notSymbol]

theorem heading_cons_eq_opened_iff (t : Token) (before : List Token) :
    heading (t :: before) = .opened ↔ t.kind = .openParen := by
  rw [heading]
  unfold Heading.past
  split
  · simp [*]
  · cases heading before <;> simp only [] <;> (try split) <;> simp [*]

theorem heading_cons_eq_defining_iff (t : Token) (before : List Token) :
    heading (t :: before) = .defining ↔
      heading before = .opened ∧ t.isSymbol Schema.defineForm = true := by
  rw [heading]
  unfold Heading.past
  split
  · simp [Token.isSymbol, *]
  · cases heading before <;> simp only [] <;> (try split) <;> simp [*]

theorem heading_cons_eq_titled_iff (t : Token) (before : List Token) :
    heading (t :: before) = .titled ↔ heading before = .defining ∧ t.kind = .symbol := by
  rw [heading]
  unfold Heading.past
  split
  · simp [*]
  · cases heading before <;> simp only [] <;> (try split) <;> simp [*]

/-- A parameter list begins behind the head of a definition. -/
theorem startsParams_iff (before : List Token) :
    Token.startsParams before = true ↔ heading before = .titled := by
  unfold Token.startsParams
  split
  · rw [heading_cons_eq_titled_iff, heading_cons_eq_defining_iff, heading_cons_eq_opened_iff]
    simp
  · rename_i short
    simp only [Bool.false_eq_true, false_iff]
    intro titled
    cases before with
    | nil => simp [heading] at titled
    | cons name before =>
        have defining := ((heading_cons_eq_titled_iff name before).mp titled).1
        cases before with
        | nil => simp [heading] at defining
        | cons word before =>
            have opened := ((heading_cons_eq_defining_iff word before).mp defining).1
            cases before with
            | nil => simp [heading] at opened
            | cons opener before => exact short name word opener before rfl

theorem formName_eq (before behind : List Token) :
    Token.formName before behind =
      if heading before = .titled then "" else (nextSymbol behind).getD "" := by
  cases behind with
  | nil => simp [Token.formName, nextSymbol]
  | cons t behind =>
      by_cases params : heading before = .titled
      · simp [Token.formName, (startsParams_iff before).mpr params, params]
      · have plain : Token.startsParams before = false := by
          simpa using mt (startsParams_iff before).mp params
        by_cases symbol : t.kind = .symbol <;>
          simp [Token.formName, nextSymbol, plain, params, symbol]

theorem heading_cons_of_nothing {t : Token} {before : List Token}
    (plain : t.kind ≠ .openParen) (nothing : heading before = .nothing) :
    heading (t :: before) = .nothing := by
  simp [heading, Heading.past, plain, nothing]

theorem heading_cons_congr {t : Token} {before before' : List Token}
    (same : heading before' = heading before) :
    heading (t :: before') = heading (t :: before) := by
  rw [heading, heading, same]

theorem heading_closers (n : Nat) (p : Position) (before : List Token) :
    heading (List.replicate (n + 1) (Token.closer p) ++ before) = .nothing := by
  rw [List.replicate_succ, List.cons_append]
  exact heading_of_closeParen rfl _

private theorem named_closers (n : Nat) (p : Position) (before rest : List Token) :
    Token.named before (List.replicate n (Token.closer p) ++ rest) =
      List.replicate n (Token.closer p, "") ++
        Token.named (List.replicate n (Token.closer p) ++ before) rest := by
  induction n generalizing before with
  | zero => rfl
  | succ n ih =>
      rw [List.replicate_succ, List.cons_append, Token.named, ih, List.replicate_succ,
        List.cons_append]
      simp only [Token.closer, reduceCtorEq, if_false]
      rw [List.append_cons, ← List.replicate_succ', List.replicate_succ, List.cons_append]

/-! ## Settled tokens -/

theorem endedBefore_le_length (name : String) (stack : List String) :
    endedBefore name stack ≤ stack.length := by
  unfold endedBefore
  split
  · exact (List.takeWhile_sublist _).length_le
  · split
    · exact (List.takeWhile_sublist _).length_le
    · cases stack with
      | nil => exact Nat.le_refl 0
      | cons parent outer =>
          simp only [List.length_cons]
          split <;> omega

theorem endedBefore_unnamed (stack : List String) : endedBefore "" stack = 0 := by
  refine (endedBefore_eq_zero_iff "" stack).mpr
    ⟨fun top => ?_, fun overlay => ?_, fun named => absurd rfl named⟩
  · simp [Schema.topLevelForms] at top
  · simp [Schema.overlayForms] at overlay

private theorem settled_closers {stack : List String} {n : Nat} {p : Position}
    {rest : List (Token × String)} (bound : n ≤ stack.length)
    (settled : Settled (stack.drop n) rest) :
    Settled stack (List.replicate n (Token.closer p, "") ++ rest) := by
  induction n generalizing stack with
  | zero => exact settled
  | succ n ih =>
      cases stack with
      | nil => simp at bound
      | cons name stack =>
          refine ⟨List.cons_ne_nil name stack, ih ?_ settled⟩
          simpa using bound

/-- What balancing leaves of some tokens. -/
def results (edits : List Edit) : List Token :=
  edits.filterMap Edit.result?

/-- Inside a form, balancing keeps the symbol that comes next. -/
theorem nextSymbol_results (name : String) (stack : List String) (anchor : Position)
    (before tokens : List Token) :
    nextSymbol (results (edits (name :: stack) anchor (Token.named before tokens))) =
      nextSymbol tokens := by
  cases tokens with
  | nil => simp [Token.named, edits, results, Edit.result?, nextSymbol, Token.closer]
  | cons t rest =>
      rw [Token.named]
      rcases paren_cases t with opens | closes | ⟨opens, closes⟩
      · rw [if_pos opens, edits_openParen opens]
        generalize Token.formName before rest = inner
        cases endedBefore inner (name :: stack) with
        | zero => simp [results, Edit.result?, nextSymbol]
        | succ n =>
            simp [results, Edit.result?, nextSymbol, List.replicate_succ, Token.closer, opens]
      · rw [edits_closeParen closes]
        simp [results, Edit.result?, nextSymbol]
      · rw [edits_other opens closes]
        simp [results, Edit.result?, nextSymbol]

theorem results_append (left right : List Edit) :
    results (left ++ right) = results left ++ results right :=
  List.filterMap_append

@[simp]
theorem results_keep (t : Token) (es : List Edit) :
    results (.keep t :: es) = t :: results es := rfl

@[simp]
theorem results_drop (t : Token) (es : List Edit) :
    results (.drop t :: es) = results es := rfl

theorem results_closers (n : Nat) (p : Position) :
    results (List.replicate n (.insert (Token.closer p))) =
      List.replicate n (Token.closer p) :=
  List.filterMap_replicate_of_some rfl

/-- The tokens left of those before a form and inside it give the form its name.  A closing
parenthesis is inserted only before a form with a name, so it breaks up no head of a definition. -/
theorem formName_results {name : String} {stack : List String}
    {before before' rest rest' : List Token} (p : Position)
    (named : Token.formName before rest = name) (same : heading before' = heading before)
    (next : nextSymbol rest' = nextSymbol rest) :
    Token.formName (List.replicate (endedBefore name stack) (Token.closer p) ++ before') rest' =
      name := by
  rw [formName_eq] at named
  rw [formName_eq, next]
  by_cases titled : heading before = .titled
  · rw [if_pos titled] at named
    subst named
    rw [endedBefore_unnamed, List.replicate_zero, List.nil_append, same, if_pos titled]
  · rw [if_neg titled] at named
    rw [if_neg ?_, named]
    cases endedBefore name stack with
    | zero => rwa [List.replicate_zero, List.nil_append, same]
    | succ n => simp [heading_closers]

/-- Balancing yields settled tokens.  The tokens before, latest first, may differ in closing
parentheses from those that are left of them, as long as both make up the same part of the head of
a definition. -/
theorem settled_edits {stack : List String} {before before' : List Token} (anchor : Position)
    (tokens : List Token) (same : heading before' = heading before)
    (outside : stack = [] → heading before = .nothing) (roomy : Roomy stack) :
    Settled stack
      (Token.named before' (results (edits stack anchor (Token.named before tokens)))) := by
  induction tokens generalizing stack before before' anchor with
  | nil =>
      have closed := named_closers stack.length anchor before' []
      rw [List.append_nil, Token.named] at closed
      rw [Token.named, edits, List.map_const', results_closers, closed]
      exact settled_closers (Nat.le_refl _) (by simp [Settled])
  | cons t rest ih =>
      rw [Token.named]
      rcases paren_cases t with opens | closes | ⟨opens, closes⟩
      · rw [if_pos opens, edits_openParen opens]
        generalize nameEq : Token.formName before rest = name
        have placed := placed_drop_endedBefore name roomy
        have next := nextSymbol_results name (stack.drop (endedBefore name stack)) t.stop
          (t :: before) rest
        rw [results_append, results_closers, results_keep, named_closers]
        refine settled_closers (endedBefore_le_length name stack) ?_
        rw [Token.named, if_pos opens, formName_results anchor nameEq same next,
          settled_openParen opens]
        refine ⟨placed, ih t.stop ?_ (by simp) (placed.roomy (roomy.drop _))⟩
        rw [heading_of_openParen opens, heading_of_openParen opens]
      · have nothing := heading_of_closeParen closes before
        cases stack with
        | nil =>
            rw [edits_surplus closes, results_drop]
            exact ih anchor (by rw [same, outside rfl, nothing]) (fun _ => nothing) trivial
        | cons parent outer =>
            rw [edits_closeParen closes, results_keep, Token.named, settled_closeParen closes]
            exact ih t.stop (heading_cons_congr same) (fun _ => nothing) roomy.tail
      · rw [edits_other opens closes, results_keep, Token.named, settled_other opens closes]
        exact ih t.stop (heading_cons_congr same)
          (fun empty => heading_cons_of_nothing opens (outside empty)) roomy

/-- Settled tokens are all kept. -/
theorem edits_of_settled {stack : List String} (anchor : Position)
    {tokens : List (Token × String)} (settled : Settled stack tokens) :
    edits stack anchor tokens = tokens.map fun entry => .keep entry.1 := by
  induction tokens generalizing stack anchor with
  | nil =>
      obtain rfl : stack = [] := settled
      rfl
  | cons entry rest ih =>
      obtain ⟨t, name⟩ := entry
      rw [List.map_cons]
      rcases paren_cases t with opens | closes | ⟨opens, closes⟩
      · obtain ⟨placed, later⟩ := (settled_openParen opens).mp settled
        rw [edits_openParen opens, (endedBefore_eq_zero_iff name stack).mpr placed]
        simp [ih t.stop later]
      · cases stack with
        | nil => exact absurd settled (not_settled_surplus closes)
        | cons parent outer =>
            rw [edits_closeParen closes, ih t.stop ((settled_closeParen closes).mp settled)]
      · rw [edits_other opens closes, ih t.stop ((settled_other opens closes).mp settled)]

theorem nextSymbol_congr {tokens tokens' : List Token}
    (words : tokens.map Token.word = tokens'.map Token.word) :
    nextSymbol tokens = nextSymbol tokens' := by
  cases tokens with
  | nil =>
      obtain rfl := List.map_eq_nil_iff.mp words.symm
      rfl
  | cons t rest =>
      obtain ⟨u, rest', rfl, word, -⟩ := List.map_eq_cons_iff.mp words.symm
      obtain ⟨kind, value⟩ : u.kind = t.kind ∧ u.value = t.value := by
        simpa [Token.word] using word
      rw [nextSymbol, nextSymbol, kind, value]

/-- The names of forms come from the words of a source alone. -/
theorem map_snd_named_congr {before before' tokens tokens' : List Token}
    (same : heading before = heading before')
    (words : tokens.map Token.word = tokens'.map Token.word) :
    (Token.named before tokens).map Prod.snd = (Token.named before' tokens').map Prod.snd := by
  induction tokens generalizing before before' tokens' with
  | nil =>
      obtain rfl := List.map_eq_nil_iff.mp words.symm
      rfl
  | cons t rest ih =>
      obtain ⟨u, rest', rfl, word, words⟩ := List.map_eq_cons_iff.mp words.symm
      obtain ⟨kind, value⟩ : u.kind = t.kind ∧ u.value = t.value := by
        simpa [Token.word] using word
      have later : heading (t :: before) = heading (u :: before') := by
        rw [heading, heading, same]
        simp [Heading.past, Token.isSymbol, kind, value]
      rw [Token.named, Token.named, List.map_cons, List.map_cons, ih later words.symm, formName_eq,
        formName_eq, same, nextSymbol_congr words.symm, kind]

/-- Only the kinds and names of tokens decide whether they are settled. -/
theorem settled_congr {stack : List String} {tokens tokens' : List (Token × String)}
    (kinds : tokens.map (·.1.kind) = tokens'.map (·.1.kind))
    (names : tokens.map Prod.snd = tokens'.map Prod.snd) (settled : Settled stack tokens) :
    Settled stack tokens' := by
  induction tokens generalizing stack tokens' with
  | nil =>
      obtain rfl := List.map_eq_nil_iff.mp kinds.symm
      exact settled
  | cons entry rest ih =>
      cases tokens' with
      | nil => simp at kinds
      | cons entry' rest' =>
          obtain ⟨t, name⟩ := entry
          obtain ⟨u, name'⟩ := entry'
          rw [List.map_cons, List.map_cons] at kinds names
          obtain ⟨kind, laterKinds⟩ := List.cons.inj kinds
          obtain ⟨sameName, laterNames⟩ := List.cons.inj names
          simp only at kind sameName
          simp only [Settled, ← kind, ← sameName] at settled ⊢
          split at settled
          · exact ⟨settled.1, ih laterKinds laterNames settled.2⟩
          · exact ⟨settled.1, ih laterKinds laterNames settled.2⟩
          · exact ih laterKinds laterNames settled

theorem map_kind_named (before tokens : List Token) :
    (Token.named before tokens).map (·.1.kind) = (tokens.map Token.word).map Word.kind := by
  have kinds := congrArg (List.map Token.kind) (Token.map_fst_named before tokens)
  rw [List.map_map] at kinds
  rw [List.map_map]
  exact kinds

/-- The names of forms come from the words of tokens alone. -/
theorem named_congr {tokens tokens' : List Token}
    (words : tokens.map Token.word = tokens'.map Token.word) :
    (Token.named [] tokens).map (fun entry => (entry.1.word, entry.2)) =
      (Token.named [] tokens').map fun entry => (entry.1.word, entry.2) := by
  have zipped (row : List Token) : (Token.named [] row).map (fun entry => (entry.1.word, entry.2)) =
      (row.map Token.word).zip ((Token.named [] row).map Prod.snd) := by
    have values := congrArg (List.map Token.word) (Token.map_fst_named [] row)
    rw [← values, List.map_map, List.zip_map']
    rfl
  rw [zipped, zipped, words, map_snd_named_congr rfl words]

/-- The places of tokens have no influence on whether they are settled. -/
theorem settled_named_congr {tokens tokens' : List Token}
    (words : tokens.map Token.word = tokens'.map Token.word)
    (settled : Settled [] (Token.named [] tokens)) : Settled [] (Token.named [] tokens') := by
  refine settled_congr ?_ (map_snd_named_congr rfl words) settled
  rw [map_kind_named, map_kind_named, words]

theorem beforeEnd_concat_eof {front : List Token} (inner : ∀ t ∈ front, t.kind ≠ .eof)
    (p : Position) : Token.beforeEnd (front ++ [Token.eof p]) = front := by
  have notEnd : ∀ t ∈ front, (!t.isEnd) = true := by
    intro t member
    simpa [Token.isEnd] using inner t member
  rw [Token.beforeEnd, List.takeWhile_append_of_pos notEnd]
  simp [Token.isEnd, Token.eof]

theorem named_concat_eof (before front : List Token) (p : Position) :
    Token.named before (front ++ [Token.eof p]) =
      Token.named before front ++ [(Token.eof p, "")] := by
  induction front generalizing before with
  | nil => rfl
  | cons t front ih =>
      rw [List.cons_append, Token.named, ih, Token.named, formName_eq, formName_eq]
      cases front with
      | nil => simp [nextSymbol, Token.eof]
      | cons u front => rfl

theorem named_balance (tokens : List Token) :
    Token.named [] (Token.balance tokens) =
      Token.named [] (results (ofTokens tokens)) ++ [(Token.eof (Token.endOf tokens), "")] := by
  rw [Token.balance, ← results, named_concat_eof]

/-- A token that is left was there before, or closes a form without width. -/
theorem mem_results_cases {tokens : List Token} {t : Token}
    (member : t ∈ results (ofTokens tokens)) :
    t ∈ Token.beforeEnd tokens ∨ ∃ p, t = Token.closer p := by
  obtain ⟨e, isEdit, leaves⟩ := List.mem_filterMap.mp member
  cases e with
  | keep u =>
      obtain rfl : u = t := by simpa [Edit.result?] using leaves
      have kept : u ∈ (ofTokens tokens).filterMap Edit.source? :=
        List.mem_filterMap.mpr ⟨.keep u, isEdit, rfl⟩
      rw [ofTokens, filterMap_source?_edits, Token.map_fst_named] at kept
      exact Or.inl kept
  | insert u =>
      obtain rfl : u = t := by simpa [Edit.result?] using leaves
      exact Or.inr (eq_closer_of_insert_mem_edits isEdit)
  | drop u => simp [Edit.result?] at leaves

theorem kind_ne_eof_of_mem_results {tokens : List Token} {t : Token}
    (member : t ∈ results (ofTokens tokens)) : t.kind ≠ .eof := by
  rcases mem_results_cases member with kept | ⟨p, rfl⟩
  · have inner := List.all_eq_true.mp List.all_takeWhile t kept
    simpa [Token.isEnd] using inner
  · simp [Token.closer]

/-- Balanced tokens are settled. -/
theorem settled_ofTokens (tokens : List Token) :
    Settled [] (Token.named [] (results (ofTokens tokens))) :=
  settled_edits Position.first (Token.beforeEnd tokens) rfl (fun _ => rfl) trivial

/-- A source of settled tokens is left as it is. -/
theorem balance_eq_self {front : List Token} {p : Position} (inner : ∀ t ∈ front, t.kind ≠ .eof)
    (settled : Settled [] (Token.named [] front)) :
    Token.balance (front ++ [Token.eof p]) = front ++ [Token.eof p] := by
  rw [Token.balance, ofTokens, beforeEnd_concat_eof inner, edits_of_settled Position.first settled,
    Token.endOf_concat]
  have kept : results ((Token.named [] front).map fun entry => .keep entry.1) = front := by
    have step : Edit.result? ∘ (fun entry : Token × String => .keep entry.1) =
        some ∘ Prod.fst := rfl
    rw [results, List.filterMap_map, step, List.filterMap_eq_map, Token.map_fst_named]
  rw [← results, kept]
  rfl

end Balance
end Wireframe
