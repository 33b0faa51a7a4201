import Wireframe.Proofs.Inclusions
import Wireframe.Proofs.Root
import Wireframe.Proofs.Word

/-!
# Refused documents

A repetition whose count is a number that no finite double reaches is refused, and so is everything
around it: the form that it stands in, the document, and each document that includes that file.
-/

namespace Wireframe

namespace Attempt

variable {α β : Type} {x : Attempt α} {r : Rejection}

theorem refused_bind {f : α → Attempt β} (refused : x.outcome = .refused r) :
    (x >>= f).outcome = .refused r := by
  simp [bind, andThen, refused]

theorem refused_recover (refused : x.outcome = .refused r) : x.recover.outcome = .refused r := by
  simp [recover, refused]

end Attempt

/-- The refusal of an infinite count. -/
def Rejection.infiniteCount (negative : Bool) : Rejection :=
  .value (.mismatch (.number (.double (.infinite negative))) .integer)

namespace Parts

variable {p : Parts} {left : List Token} {r : Rejection}

/-- A repetition is refused if its first option is an infinite count. -/
theorem refused_of_infinite {key next : Token} (keyword : key.kind = .keyword)
    (isCount : key.value = "count") (isNumber : next.kind = .number) {negative : Bool}
    (infinite : Number.ofText next.value = .ok (.double (.infinite negative))) :
    (p.toRepetition (key :: next :: left)).outcome = .refused (.infiniteCount negative) := by
  have option (s : RepeatOptions) :
      (repeatOption s key next).outcome = .refused (.infiniteCount negative) := by
    rw [repeatOption, if_pos isCount, isNumber]
    simp only [infinite]
    rfl
  refine Attempt.refused_bind ?_
  rw [readClauses, if_pos keyword]
  exact Attempt.refused_bind (option _)

theorem refused_toChild (named : p.symbol p.head = pure (Schema.repeatForm, left))
    (refused : (p.toRepetition left).outcome = .refused r) : p.toChild.outcome = .refused r := by
  rw [toChild, named, pure_bind]
  exact Attempt.refused_bind refused

theorem refused_element {n : Nested} {rest : List Nested} (first : p.upcoming left = n :: rest)
    (refused : n.child.outcome = .refused r) : (p.element left).outcome = .refused r := by
  rw [element, first]
  exact Attempt.refused_bind refused

theorem refused_toLayout {name : String} {left' : List Token}
    (named : p.symbol left = pure (name, left'))
    (refused : (p.element left').outcome = .refused r) :
    (p.toLayout left).outcome = .refused r := by
  rw [toLayout, named, pure_bind]
  exact Attempt.refused_bind refused

theorem refused_toEntry? (named : p.symbol p.head = pure ("layout", left))
    (refused : (p.toLayout left).outcome = .refused r) : p.toEntry?.outcome = .refused r := by
  rw [Parts.toEntry?, named, pure_bind]
  exact Attempt.refused_bind refused

end Parts

theorem Document.refused_ofTokens {limit : Int} {tokens behind : List Token}
    {opener name closer : Token} {form : Form} {rest : List Form} {r : Rejection}
    (shallow : Token.tooDeep? limit 0 tokens = none)
    (root : rootForm tokens = (.list opener (.atom name :: form :: rest) closer, behind))
    (symbol : name.isSymbol Schema.rootForm = true) (refused : form.entry?.outcome = .refused r) :
    (ofTokens limit tokens).outcome = .refused r := by
  simp only [ofTokens, shallow, root, ofForm]
  rw [rootItems_of_isSymbol closer _ symbol, pure_bind, entries]
  exact Attempt.refused_bind (Attempt.refused_bind (Attempt.refused_recover refused))

namespace Numeral

/-- The digits of a number that no finite double reaches. -/
@[irreducible]
def endless : List Char := List.replicate 309 '9'

theorem isNumeral_endless : Word.IsNumeral endless := by
  have nines : ∀ c ∈ endless, c = '9' := fun c member => by
    rw [endless] at member
    exact List.eq_of_mem_replicate member
  have some : endless ≠ [] := by
    rw [endless]
    exact List.cons_ne_nil _ _
  have digits : Word.IsDigits endless := ⟨some, fun c member => nines c member ▸ by decide⟩
  exact ⟨[], endless, [], by simp, .inl rfl, digits, .inl rfl⟩

theorem ofText_endless :
    Number.ofText (String.ofList endless) = .ok (.double (.infinite false)) := by
  have read : toDouble? (String.ofList endless) = some (.infinite false) := by
    rw [toDouble?, String.toList_ofList]
    decide +kernel
  rw [Number.ofText, read]
  rfl

end Numeral

namespace Document

/-- A layout that is repeated without end. -/
def endlessSource : String :=
  String.ofList ("(wire (layout l (repeat :count ".toList ++ (Numeral.endless ++ ")))".toList))

/-- The tokens of the layout, with the text of its count. -/
def countTokens (count : String) : List Token :=
  [⟨.openParen, "(", ⟨1, 1⟩, ⟨1, 2⟩⟩, ⟨.symbol, "wire", ⟨1, 2⟩, ⟨1, 6⟩⟩,
    ⟨.openParen, "(", ⟨1, 7⟩, ⟨1, 8⟩⟩, ⟨.symbol, "layout", ⟨1, 8⟩, ⟨1, 14⟩⟩,
    ⟨.symbol, "l", ⟨1, 15⟩, ⟨1, 16⟩⟩, ⟨.openParen, "(", ⟨1, 17⟩, ⟨1, 18⟩⟩,
    ⟨.symbol, "repeat", ⟨1, 18⟩, ⟨1, 24⟩⟩, ⟨.keyword, "count", ⟨1, 25⟩, ⟨1, 31⟩⟩,
    ⟨.number, count, ⟨1, 32⟩, ⟨1, 341⟩⟩,
    ⟨.closeParen, ")", ⟨1, 341⟩, ⟨1, 342⟩⟩, ⟨.closeParen, ")", ⟨1, 342⟩, ⟨1, 343⟩⟩,
    ⟨.closeParen, ")", ⟨1, 343⟩, ⟨1, 344⟩⟩, Token.eof ⟨1, 344⟩]

theorem ofChars_endless : Token.ofChars (Numeral.endless ++ ")))".toList) ⟨1, 32⟩ =
    .ok ((countTokens (String.ofList Numeral.endless)).drop 8) := by
  let count : Word := ⟨.number, String.ofList Numeral.endless⟩
  have chars : count.chars = Numeral.endless := by
    rw [Word.chars_of_ne_string (by decide)]
    simp [count, TokenKind.mark]
  have spelled : count.IsSpelled := by
    simpa [Word.IsSpelled, count] using Numeral.isNumeral_endless
  have stop : Position.afterAll ⟨1, 32⟩ Numeral.endless = ⟨1, 341⟩ := by decide +kernel
  have closed : Token.ofChars ")))".toList ⟨1, 341⟩ = .ok [⟨.closeParen, ")", ⟨1, 341⟩, ⟨1, 342⟩⟩,
      ⟨.closeParen, ")", ⟨1, 342⟩, ⟨1, 343⟩⟩, ⟨.closeParen, ")", ⟨1, 343⟩, ⟨1, 344⟩⟩,
      Token.eof ⟨1, 344⟩] := by
    cbv
  have breaks : Word.Breaks ")))".toList := by
    intro c head
    obtain rfl : ')' = c := by simpa using head
    decide
  have read := Token.ofChars_chars ⟨1, 32⟩ spelled (.inr breaks)
  rw [chars, stop, closed] at read
  exact read

theorem ofSource_endless :
    Token.ofSource endlessSource = .ok (countTokens (String.ofList Numeral.endless)) := by
  have behind := ofChars_endless
  refine (congrArg (Token.ofChars · Position.first) String.toList_ofList).trans ?_
  generalize Numeral.endless ++ ")))".toList = rest at behind
  generalize String.ofList Numeral.endless = count at behind ⊢
  have tokens : countTokens count = (countTokens count).take 8 ++ (countTokens count).drop 8 := rfl
  generalize (countTokens count).drop 8 = last at behind tokens
  rw [tokens]
  simp only [countTokens, List.take_succ_cons, List.take_zero]
  cbv at behind
  cbv
  rw [behind]

/-- The repetition in the layout. -/
def countRepetition (count : String) : Form :=
  .list ⟨.openParen, "(", ⟨1, 17⟩, ⟨1, 18⟩⟩
    [.atom ⟨.symbol, "repeat", ⟨1, 18⟩, ⟨1, 24⟩⟩, .atom ⟨.keyword, "count", ⟨1, 25⟩, ⟨1, 31⟩⟩,
      .atom ⟨.number, count, ⟨1, 32⟩, ⟨1, 341⟩⟩]
    ⟨.closeParen, ")", ⟨1, 341⟩, ⟨1, 342⟩⟩

/-- The layout whose body is the repetition. -/
def countLayout (count : String) : Form :=
  .list ⟨.openParen, "(", ⟨1, 7⟩, ⟨1, 8⟩⟩
    [.atom ⟨.symbol, "layout", ⟨1, 8⟩, ⟨1, 14⟩⟩, .atom ⟨.symbol, "l", ⟨1, 15⟩, ⟨1, 16⟩⟩,
      countRepetition count]
    ⟨.closeParen, ")", ⟨1, 342⟩, ⟨1, 343⟩⟩

/-- With an infinite count the repetition is refused, and so are the layout and the document. -/
theorem refused_countTokens {count : String} {negative : Bool}
    (infinite : Number.ofText count = .ok (.double (.infinite negative))) :
    (ofTokens 20 (countTokens count)).outcome = .refused (.infiniteCount negative) := by
  have body : (Form.child (countRepetition count)).outcome = .refused (.infiniteCount negative) :=
    Parts.refused_toChild rfl (Parts.refused_of_infinite rfl rfl rfl infinite)
  have layout : (Form.entry? (countLayout count)).outcome = .refused (.infiniteCount negative) :=
    Parts.refused_toEntry? rfl (Parts.refused_toLayout rfl (Parts.refused_element rfl body))
  exact refused_ofTokens rfl rfl rfl layout

theorem refused_endless :
    (ofSource 20 endlessSource).outcome = .refused (.infiniteCount false) := by
  rw [ofSource, ofSource_endless]
  exact refused_countTokens Numeral.ofText_endless

end Document

namespace Inclusion

variable {σ : Type} {loader : Loader σ} {files : Files} {options : CompileOptions}

/-- A refused file refuses the document that includes it first. -/
theorem gives_resolve_of_refused (answers : loader.Answers files) {levels : Nat} {d : Document}
    {fromPath : String} {chain : List String} {i : Include} {rest : List Include}
    (first : d.includes = i :: rest) {file : LoadedFile}
    (reply : files i.path fromPath = .ok file) (fresh : file.path ∉ chain) {r : Rejection}
    (refused : (options.read file.content).outcome = .refused r) :
    (resolve loader options (levels + 1) d fromPath chain).Gives (.error r) := by
  have load := Resolving.Gives.load answers i.path fromPath
  rw [reply] at load
  have rejected : (options.read file.content).accepted = .error r := by
    rw [Attempt.accepted, refused]
  rw [resolve, first, List.mapM_cons, directive]
  refine Resolving.Gives.bind_error (Resolving.Gives.bind_error (load.bind ?_))
  simp only [List.contains_iff_mem, if_neg fresh]
  refine (Resolving.Gives.emit _).bind ((Resolving.Gives.emit _).bind ?_)
  exact (Resolving.Gives.lift rejected).bind_error

/-- Resolving does not always give a document: a file may be refused. -/
theorem resolve_endless : ¬∀ (files : Files) (options : CompileOptions) (d : Document)
    (trace : Trace Unit), 0 ≤ options.inclusion → ∃ result,
      ((resolve (.ofFiles files) options (levels options 0) d "" []).run.run trace).1 =
        .ok result := by
  intro always
  let files : Files := fun _ _ => .ok ⟨Document.endlessSource, "/a"⟩
  let options : CompileOptions := ⟨20, 0, false, ""⟩
  let d : Document := { Document.empty with includes := [⟨"a", none⟩] }
  obtain ⟨result, gives⟩ := always files options d ⟨(), []⟩ (by decide)
  have read : (options.read Document.endlessSource).outcome = .refused (.infiniteCount false) :=
    Document.refused_endless
  have first : d.includes = ⟨"a", none⟩ :: [] := rfl
  have reply : files "a" "" = .ok ⟨Document.endlessSource, "/a"⟩ := rfl
  have refused : (resolve (.ofFiles files) options (0 + 1) d "" []).Gives (σ := Unit)
      (.error (.infiniteCount false)) :=
    gives_resolve_of_refused (Loader.answers_ofFiles files) first reply List.not_mem_nil read
  have one : levels options 0 = 0 + 1 := rfl
  rw [one, refused ⟨(), []⟩] at gives
  cases gives

end Inclusion
end Wireframe
