import Wireframe.Form
import Wireframe.Proofs.Nesting

/-!
# Forms that fit

A form fits inside others if it and all forms in it are closed and stand where their names allow.
Settled tokens are the tokens of forms that fit, so that whether balancing leaves a source as it is
can be read off its forms.
-/

namespace Wireframe

open Balance

namespace Form

/-- How much of the head of a definition is made up behind a form. -/
def past (h : Heading) : Form → Heading
  | atom t => h.past t
  | list .. => .nothing

/-- The symbol at the head of a list, empty if there is none. -/
def headName : List Form → String
  | .atom t :: _ => if t.kind = .symbol then t.value else ""
  | _ => ""

/-- The name of a list with the given items. -/
def nameIn (h : Heading) (items : List Form) : String :=
  if h = .titled then "" else headName items

mutual

/-- Whether a form fits inside the given forms, innermost first. -/
def Fits : Heading → List String → Form → Prop
  | _, _, .atom t => t.kind ≠ .openParen ∧ t.kind ≠ .closeParen
  | h, stack, .list opener items closer =>
    opener.kind = .openParen ∧ closer.kind = .closeParen ∧ Placed (nameIn h items) stack ∧
      FitsAll .opened (nameIn h items :: stack) items
termination_by structural _ _ form => form

/-- Whether forms fit one after the other. -/
def FitsAll : Heading → List String → List Form → Prop
  | _, _, [] => True
  | h, stack, form :: rest => Fits h stack form ∧ FitsAll (past h form) stack rest
termination_by structural _ _ forms => forms

end

theorem fits_atom {h : Heading} {stack : List String} {t : Token}
    (plain : t.kind ≠ .openParen ∧ t.kind ≠ .closeParen) : Fits h stack (.atom t) :=
  plain

theorem fitsAll_atoms {h : Heading} {stack : List String} {items : List Form}
    (atoms : ∀ item ∈ items, ∃ t, item = .atom t ∧ t.kind = .symbol) : FitsAll h stack items := by
  induction items generalizing h with
  | nil => trivial
  | cons item rest ih =>
      obtain ⟨t, rfl, symbol⟩ := atoms item List.mem_cons_self
      refine ⟨fits_atom (by simp [symbol]), ih fun other later => ?_⟩
      exact atoms other (List.mem_cons_of_mem _ later)

private theorem past_nothing {stack : List String} {form : Form}
    (fits : Fits .nothing stack form) : past .nothing form = .nothing := by
  cases form with
  | atom t => simp [past, Heading.past, fits.1]
  | list => rfl

/-- Outside the heads of definitions, forms fit in any order. -/
theorem fitsAll_of_forall {stack : List String} {forms : List Form}
    (fits : ∀ form ∈ forms, Fits .nothing stack form) : FitsAll .nothing stack forms := by
  induction forms with
  | nil => trivial
  | cons form rest ih =>
      have here := fits form List.mem_cons_self
      refine ⟨here, ?_⟩
      rw [past_nothing here]
      exact ih fun other later => fits other (List.mem_cons_of_mem form later)

/-- A list that is no definition fits if its name is placed and its forms fit. -/
theorem fits_list {h : Heading} {stack : List String} {opener closer name : Token}
    {items : List Form} (opens : opener.kind = .openParen) (closes : closer.kind = .closeParen)
    (untitled : h ≠ .titled) (symbol : name.kind = .symbol) (word : name.value ≠ Schema.defineForm)
    (placed : Placed name.value stack)
    (inner : ∀ item ∈ items, Fits .nothing (name.value :: stack) item) :
    Fits h stack (.list opener (.atom name :: items) closer) := by
  have named : nameIn h (.atom name :: items) = name.value := by
    simp [nameIn, untitled, headName, symbol]
  have behind : past .opened (.atom name) = .nothing := by
    simp [past, Heading.past, Token.isSymbol, symbol, word]
  refine ⟨opens, closes, ?_, ?_⟩
  · rw [named]
    exact placed
  · rw [named]
    refine ⟨fits_atom (by simp [symbol]), ?_⟩
    rw [behind]
    exact fitsAll_of_forall inner

theorem fits_define {h : Heading} {stack : List String}
    {opener word title paramsOpener paramsCloser closer : Token} {params : List Form} {body : Form}
    (opens : opener.kind = .openParen) (closes : closer.kind = .closeParen)
    (untitled : h ≠ .titled) (symbol : word.kind = .symbol)
    (isDefine : word.value = Schema.defineForm)
    (titleSymbol : title.kind = .symbol) (paramsOpens : paramsOpener.kind = .openParen)
    (paramsCloses : paramsCloser.kind = .closeParen)
    (paramsAtoms : ∀ item ∈ params, ∃ t, item = .atom t ∧ t.kind = .symbol)
    (placed : Placed Schema.defineForm stack)
    (inner : Fits .nothing (Schema.defineForm :: stack) body) :
    Fits h stack
      (.list opener [.atom word, .atom title, .list paramsOpener params paramsCloser, body]
        closer) := by
  have named (items : List Form) : nameIn h (.atom word :: items) = Schema.defineForm := by
    simp [nameIn, untitled, headName, symbol, isDefine]
  have defining : past .opened (.atom word) = .defining := by
    simp [past, Heading.past, Token.isSymbol, symbol, isDefine]
  have titled : past .defining (.atom title) = .titled := by
    simp [past, Heading.past, titleSymbol]
  refine ⟨opens, closes, ?_, ?_⟩
  · rw [named]
    exact placed
  · rw [named]
    refine ⟨fits_atom (by simp [symbol]), ?_⟩
    rw [defining]
    refine ⟨fits_atom (by simp [titleSymbol]), ?_⟩
    rw [titled]
    refine ⟨⟨paramsOpens, paramsCloses, ?_, fitsAll_atoms paramsAtoms⟩, inner, trivial⟩
    exact placed_unnamed _

theorem formName_items {h : Heading} {before rest : List Token} {closer : Token}
    (items : List Form) (reached : heading before = h) (closes : closer.kind = .closeParen)
    (shaped : ∀ opener inner closer', .list opener inner closer' ∈ items →
      opener.kind = .openParen) :
    Token.formName before (tokensAll items ++ closer :: rest) = nameIn h items := by
  have next : (nextSymbol (tokensAll items ++ closer :: rest)).getD "" = headName items := by
    cases items with
    | nil => simp [tokensAll, nextSymbol, headName, closes]
    | cons item items =>
        cases item with
        | atom t =>
            by_cases symbol : t.kind = .symbol <;>
              simp [tokensAll, tokens, nextSymbol, headName, symbol]
        | list opener inner closer' =>
            have opens := shaped opener inner closer' List.mem_cons_self
            simp [tokensAll, tokens, nextSymbol, headName, opens]
  rw [formName_eq, reached, next]
  rfl

private theorem opens_of_fitsAll {h : Heading} {stack : List String} {items : List Form}
    (fits : FitsAll h stack items) {opener closer : Token} {inner : List Form}
    (member : .list opener inner closer ∈ items) : opener.kind = .openParen := by
  induction items generalizing h with
  | nil => simp at member
  | cons item items ih =>
      rcases List.mem_cons.mp member with rfl | later
      · exact fits.1.1
      · exact ih fits.2 later

theorem heading_tokens {h : Heading} {stack : List String} {form : Form} {before : List Token}
    (fits : Fits h stack form) (reached : heading before = h) :
    heading (form.tokens.reverse ++ before) = past h form := by
  cases form with
  | atom t =>
      subst reached
      rfl
  | list opener items closer =>
      obtain ⟨-, closes, -⟩ := fits
      simp only [tokens, List.reverse_append, List.reverse_cons, List.reverse_nil, List.nil_append,
        List.cons_append]
      exact heading_of_closeParen closes _

mutual

/-- The tokens of a form that fits are settled if those behind it are. -/
theorem settled_tokens {h : Heading} {stack : List String} {before rest : List Token} :
    ∀ form, Fits h stack form → heading before = h →
      Settled stack (Token.named (form.tokens.reverse ++ before) rest) →
      Settled stack (Token.named before (form.tokens ++ rest))
  | .atom t, fits, _, later => (settled_other fits.1 fits.2).mpr later
  | .list opener items closer, ⟨opens, closes, placed, inner⟩, reached, later => by
      have shaped (opener' : Token) (items' : List Form) (closer' : Token)
          (member : .list opener' items' closer' ∈ items) : opener'.kind = .openParen :=
        opens_of_fitsAll inner member
      have name : Token.formName before (tokensAll items ++ closer :: rest) = nameIn h items :=
        formName_items items reached closes shaped
      simp only [tokens, List.cons_append, List.append_assoc, List.nil_append]
      rw [Token.named, if_pos opens, name, settled_openParen opens]
      refine ⟨placed, settled_tokensAll items inner (heading_of_openParen opens before) ?_⟩
      rw [Token.named, settled_closeParen closes]
      simpa [tokens] using later

theorem settled_tokensAll {h : Heading} {stack : List String} {before rest : List Token} :
    ∀ forms, FitsAll h stack forms → heading before = h →
      Settled stack (Token.named ((tokensAll forms).reverse ++ before) rest) →
      Settled stack (Token.named before (tokensAll forms ++ rest))
  | [], _, _, later => later
  | form :: forms, ⟨fits, others⟩, reached, later => by
      rw [tokensAll, List.append_assoc]
      refine settled_tokens form fits reached ?_
      refine settled_tokensAll forms others (heading_tokens fits reached) ?_
      simpa [tokensAll] using later

end

end Form
end Wireframe
