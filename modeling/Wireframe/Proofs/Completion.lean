import Wireframe.Proofs.Counting
import Wireframe.Proofs.Orderly
import Wireframe.Proofs.Relocation
import Wireframe.Proofs.Skipping
import Wireframe.Proofs.Truncation

/-!
# Completed parts

Balanced tokens that are cut off anywhere lack nothing but a closing parenthesis for each list that
is open there, and no more than these is added in balancing them.  So the part of an accepted source
has a document again, which begins with all that the forms that are whole in it add.
-/

namespace Wireframe

open Balance

namespace Token

/-- Tokens with a closing parenthesis behind them for each list that they leave open, and an end. -/
def completed (part : List Token) : List Token :=
  part ++ List.replicate (unclosed part).toNat (closer (endOf part)) ++ [eof (endOf part)]

variable {front part : List Token} {limit : Int} {n : Nat} {p : Position}

theorem inner_closed (inner : ∀ t ∈ part, t.kind ≠ .eof) :
    ∀ t ∈ part ++ List.replicate n (closer p), t.kind ≠ .eof :=
  List.forall_mem_append.mpr ⟨inner, fun t member => by
    simp [List.eq_of_mem_replicate member, closer]⟩

theorem startsRoot_append (starts : startsRoot part = true) (more : List Token) :
    startsRoot (part ++ more) = true := by
  match part with
  | [] => simp [startsRoot] at starts
  | [t] => simp [startsRoot] at starts
  | t :: name :: rest => exact starts

theorem not_exceeds_completed {ending : Token} (inside : part <+: front)
    (shallow : ¬Exceeds limit (front ++ [ending])) : ¬Exceeds limit (completed part) := by
  intro exceeds
  rw [completed, List.append_assoc] at exceeds
  have closers : ∀ t ∈ List.replicate (unclosed part).toNat (closer (endOf part)),
      t.kind ≠ .openParen := fun t member => by simp [List.eq_of_mem_replicate member, closer]
  have inPart := exceeds.of_append (List.forall_mem_append.mpr ⟨closers, by simp [eof]⟩)
  obtain ⟨behind, rfl⟩ := inside
  exact shallow inPart.append.append

end Token

namespace Balance

theorem results_of_front {stack : List String} {before front back : List Token} (anchor : Position)
    (settled : Settled stack (Token.named before (front ++ back))) :
    results (edits stack anchor (Token.named before front)) =
      front ++ List.replicate (stack.length + unclosed front).toNat
        (Token.closer ((front.getLast?.map Token.stop).getD anchor)) := by
  induction front generalizing stack anchor before with
  | nil =>
      rw [Token.named, edits, List.map_const', results_closers]
      simp [unclosed]
  | cons t front ih =>
      have anchors : ((t :: front).getLast?.map Token.stop).getD anchor =
          (front.getLast?.map Token.stop).getD t.stop := by
        cases front <;> simp [List.getLast?_cons]
      rw [List.cons_append, Token.named] at settled
      rw [Token.named, unclosed_cons, anchors]
      rcases paren_cases t with opens | closes | ⟨opens, closes⟩
      · rw [if_pos opens] at settled ⊢
        obtain ⟨placed, later⟩ := (settled_openParen opens).mp settled
        rw [edits_openParen opens, unclosed_openParen opens]
        cases front with
        | nil =>
            -- The name of the last form is missing, so that it ends none before it.
            have unnamed : Token.formName before [] = "" := rfl
            rw [unnamed, endedBefore_unnamed, Token.named, edits, List.map_const']
            simp [results_closers, unclosed]
        | cons u front =>
            have named : Token.formName before (u :: front) =
                Token.formName before (u :: front ++ back) := rfl
            have depth : ((stack.length + 1 : Nat) : Int) + unclosed (u :: front) =
                stack.length + (1 + unclosed (u :: front)) := by omega
            rw [named, (endedBefore_eq_zero_iff _ _).mpr placed]
            simp only [List.replicate_zero, List.nil_append, List.drop_zero, results_keep]
            rw [ih t.stop later, List.length_cons, depth]
            rfl
      · rw [unclosed_closeParen closes]
        cases stack with
        | nil => exact absurd settled (not_settled_surplus closes)
        | cons parent outer =>
            have depth : ((outer.length + 1 : Nat) : Int) + (-1 + unclosed front) =
                outer.length + unclosed front := by omega
            rw [edits_closeParen closes, results_keep,
              ih t.stop ((settled_closeParen closes).mp settled), List.length_cons,
              List.cons_append, depth]
      · rw [unclosed_other opens closes, edits_other opens closes, results_keep,
          ih t.stop ((settled_other opens closes).mp settled), List.cons_append, Int.zero_add]

theorem balance_of_part {tokens part : List Token} (kept : Token.balance tokens = tokens)
    (inside : part <+: Token.beforeEnd tokens) :
    0 ≤ unclosed part ∧ Token.balance part = Token.completed part := by
  have settled := settled_balance tokens
  have ends := Token.endsOnce_balance tokens
  rw [kept] at settled ends
  obtain ⟨front, p, rfl, inner⟩ := ends
  rw [beforeEnd_concat_eof inner] at inside
  obtain ⟨back, rfl⟩ := inside
  have notEnd : ∀ t ∈ part, t.kind ≠ .eof := fun t member => inner t (List.mem_append_left _ member)
  have before : Token.beforeEnd part = part := by
    simpa using Token.beforeEnd_append_ends notEnd (List.forall_mem_nil _)
  rw [List.append_assoc] at settled
  constructor
  · exact (Token.paired_of_settled settled).nested part _ rfl
  · rw [Token.balance, Balance.ofTokens, before]
    change results _ ++ _ = _
    rw [results_of_front Position.first settled, List.length_nil, Token.completed, Token.endOf]
    simp

end Balance

namespace Document

/-- Whether a document begins with what some documents hold, in order. -/
structure Begins (d : Document) (ds : List Document) : Prop where
  includes : ds.flatMap Document.includes <+: d.includes
  components : ds.flatMap Document.components <+: d.components
  layouts : ds.flatMap Document.layouts <+: d.layouts
  screens : ds.flatMap Document.screens <+: d.screens

theorem begins_ofEntries (front back : List (Option Entry)) (location location' : Location) :
    (ofEntries ((front ++ back).flatMap Option.toList) location').Begins
      (front.map fun entry => ofEntries entry.toList location) := by
  obtain ⟨includes, components, layouts, screens, -⟩ := joins_ofEntries front location
  rw [List.flatMap_append]
  refine ⟨?_, ?_, ?_, ?_⟩
  · rw [← includes]
    exact ⟨_, (List.filterMap_append).symm⟩
  · rw [← components]
    exact ⟨_, (List.filterMap_append).symm⟩
  · rw [← layouts]
    exact ⟨_, (List.filterMap_append).symm⟩
  · rw [← screens]
    exact ⟨_, (List.filterMap_append).symm⟩

section

variable {limit : Int} {root : Casing} {forms : List Form} {part more : List Token} {p : Position}

/-- The root form of a part of a document begins with the forms that are whole in the part, whatever
is behind it. -/
theorem rootForm_of_part (isRoot : root.IsRoot) (lists : ∀ form ∈ forms, form.ClosedList)
    (inside : part <+: root.around (forms.map Form.tokens)) (starts : Token.startsRoot part = true)
    (inner : ∀ t ∈ part ++ more, t.kind ≠ .eof) :
    ∃ front back, forms = front ++ back ∧
      Token.whole (part.length - 2) (forms.map Form.tokens) = front.map Form.tokens ∧
      ∃ name items closer, (rootForm (part ++ more ++ [Token.eof p])).1 =
        .list root.opener (.atom name :: items) closer ∧ front <+: items := by
  obtain ⟨name, head, -⟩ := isRoot
  match part with
  | [] => simp [Token.startsRoot] at starts
  | [t] => simp [Token.startsRoot] at starts
  | t :: u :: rest =>
      obtain ⟨rfl, behind⟩ := List.cons_prefix_cons.mp inside
      rw [head, List.singleton_append, List.cons_append] at behind
      obtain ⟨rfl, within⟩ := List.cons_prefix_cons.mp behind
      obtain ⟨front, back, cut, split, rows, taken, -⟩ := Form.take_tokensAll lists rest.length
      obtain ⟨others, whole⟩ : ∃ others, rest = Form.tokensAll front ++ others := by
        have tokens := List.prefix_iff_eq_take.mp within
        rw [← List.flatMap_def, ← Form.tokensAll_eq_flatMap, List.take_append, taken,
          List.append_assoc] at tokens
        exact ⟨_, tokens⟩
      have closed : ∀ form ∈ front, form.Closed := fun form member =>
        (lists form (split ▸ List.mem_append_left back member)).1
      have tokens : u :: rest ++ more =
          root.head ++ (Form.tokensAll front ++ (others ++ more)) := by
        rw [whole, head]
        simp
      have before : Token.beforeEnd (root.opener :: u :: rest ++ more ++ [Token.eof p]) =
          root.opener :: (root.head ++ (Form.tokensAll front ++ (others ++ more))) := by
        rw [← tokens]
        exact beforeEnd_concat_eof inner p
      obtain ⟨others', left, same, -⟩ := OpenList.exists_skips
        (Token.ending (root.opener :: u :: rest ++ more ++ [Token.eof p]))
        ⟨root.opener, front.reverse ++ [.atom u]⟩ (others ++ more)
      generalize left.head?.getD _ = closer at same
      refine ⟨front, back, split, rows, u, front ++ others', closer, ?_, List.prefix_append _ _⟩
      rw [rootForm_eq_read_behind head closed before, same]
      simp

theorem settles_completed {front : List Token} {q : Position} (inside : part <+: front)
    (inner : ∀ t ∈ part, t.kind ≠ .eof) (readable : ∀ t ∈ part, t.Readable)
    (placed : ∀ t ∈ part, t.IsPlaced) (counts : Token.FiniteRepeats front)
    (shallow : ¬Token.Exceeds limit (front ++ [Token.eof q]))
    (starts : Token.startsRoot part = true) :
    ∃ d, (ofTokens limit (Token.completed part)).outcome = .value d := by
  have proper := isProper_endOf placed
  have others : ∀ t ∈ List.replicate (unclosed part).toNat (Token.closer (Token.endOf part)),
      t.kind ≠ .number := by simp [Token.closer]
  have counts' := (counts.of_isInfix inside.isInfix).append_ends others
  have sound : ∀ t ∈ Token.completed part, t.Readable := by
    refine List.forall_mem_append.mpr ⟨List.forall_mem_append.mpr ⟨readable, ?_⟩, ?_⟩
    · intro t member
      rw [List.eq_of_mem_replicate member]
      exact ⟨proper, by simp [Token.closer], fun _ _ => trivial⟩
    · exact List.forall_mem_singleton.mpr ⟨proper, by simp [Token.eof], fun _ _ => trivial⟩
  exact (yields_ofTokens (fun _ => True) (Token.inner_closed inner) sound counts'
    (Token.not_exceeds_completed inside shallow)
    (Token.startsRoot_append (Token.startsRoot_append starts _) _)).value

theorem begins_completed (isRoot : root.IsRoot) (lists : ∀ form ∈ forms, form.ClosedList)
    (inside : part <+: root.around (forms.map Form.tokens))
    (inner : ∀ t ∈ part, t.kind ≠ .eof) (starts : Token.startsRoot part = true)
    (shallow : ¬Token.Exceeds limit (Token.completed part)) (location : Location) {d : Document}
    (read : (ofTokens limit (Token.completed part)).outcome = .value d) :
    d.Begins (((forms.map Form.added).map fun entry => ofEntries entry.toList location).take
      (Token.whole (part.length - 2) (forms.map Form.tokens)).length) := by
  have closed := Token.inner_closed (n := (unclosed part).toNat) (p := Token.endOf part) inner
  obtain ⟨opener, name, items, closer, behind, -, form, same, -⟩ := ofTokens_of_startsRoot closed
    shallow (Token.startsRoot_append (Token.startsRoot_append starts _) _)
  rw [Token.completed, same] at read
  obtain ⟨-, -, location', rfl⟩ := eq_ofEntries_of_value read
  obtain ⟨front, back, rfl, rows, name', items', closer', form', others, rfl⟩ :=
    rootForm_of_part (p := Token.endOf part) isRoot lists inside starts closed
  rw [form] at form'
  obtain ⟨-, same, -⟩ := Form.list.inj form'
  obtain ⟨-, rfl⟩ := List.cons.inj same
  have begins := begins_ofEntries (front.map Form.added) (others.map Form.added) location location'
  rw [← List.map_append, List.flatMap_map] at begins
  rw [rows, List.map_append, List.map_append, List.length_map]
  rwa [List.take_left' (by simp)]

end

/-- Whether the document of the rows in a root form outlasts it: cut off anywhere behind its name,
and balanced, the root form has a document again, which begins with those of the rows that are whole
in what is left. -/
structure Outlasts (limit : Int) (root : Casing) (ending : Token) (rows : List (List Token))
    (d : Document) : Prop where
  isRoot : root.IsRoot
  enclosed : ∀ row ∈ rows, Token.Enclosed row
  parts : ∃ ds, List.Forall₂
      (fun row part => (root.document limit ending [row]).outcome = .value part) rows ds ∧
    d.Joins ds ∧ ∀ part, part <+: root.around rows → Token.startsRoot part = true →
      ∃ d', (ofTokens limit (Token.balance part)).outcome = .value d' ∧
        d'.Begins (ds.take (Token.whole (part.length - 2) rows).length)

/-- The tokens of an accepted source are those of a root form with lists in it, none of which is a
repetition with an infinite count. -/
theorem exists_around {limit : Int} {front : List Token} {q : Position} {d : Document}
    (inner : ∀ t ∈ front, t.kind ≠ .eof) (readable : ∀ t ∈ front, t.Readable)
    (shallow : ¬Token.Exceeds limit (front ++ [Token.eof q]))
    (read : ofTokens limit (front ++ [Token.eof q]) = pure d) :
    ∃ (root : Casing) (forms : List Form), root.IsRoot ∧ (∀ form ∈ forms, form.ClosedList) ∧
      root.around (forms.map Form.tokens) = front ∧ Token.FiniteRepeats front := by
  have member := mem_document_iff.mp ((succeeds_ofTokens_iff inner readable shallow).mp (by
    rw [read, Attempt.succeeds_pure]))
  have counts := Grammar.finiteRepeats_of_mem_root member
  obtain ⟨opener, _, back, closer, rfl, opens, ⟨name, rfl, symbol, isRoot⟩, isBack, closes⟩ :=
    Grammar.mem_paren_mul_iff.mp member
  obtain ⟨forms, lists, rfl⟩ := Form.phrase_topLevel.phrases.kstar back isBack
  let root : Casing := ⟨opener, [name], closer, opens, by simp [symbol], closes⟩
  refine ⟨root, forms, ⟨name, rfl, ?_⟩, lists, ?_, counts⟩
  · simp [Token.isSymbol, symbol, isRoot, Schema.rootForm]
  · rw [Form.tokensAll_eq_flatMap, List.flatMap_def]
    rfl

/-- Balancing a part of tokens that it leaves alone adds nothing but what closes the part, so that
the document of an accepted source outlasts it. -/
theorem cut_loses_nothing_whole :
    (∀ tokens part : List Token, Token.balance tokens = tokens → part <+: Token.beforeEnd tokens →
      0 ≤ unclosed part ∧ Token.balance part = Token.completed part) ∧
    ∀ (limit : Int) (source : String) (tokens : List Token) (d : Document),
      Token.ofSource source = .ok tokens → Document.ofSource limit source = pure d →
        ∃ root rows ending, tokens = root.around rows ++ [ending] ∧
          Outlasts limit root ending rows d := by
  refine ⟨fun tokens part => balance_of_part, fun limit source tokens d found read => ?_⟩
  rw [ofSource, found] at read
  have placed : ∀ t ∈ tokens, t.IsPlaced := Token.isProper_ends_of_ofChars (p := .first) rfl found
  have readable : ∀ t ∈ tokens, t.Readable := Token.sound_of_ofSource found fun _ _ _ _ => trivial
  obtain ⟨front, rfl, inner⟩ := Token.ofChars_eq_append_eof found
  obtain ⟨placed, -⟩ := List.forall_mem_append.mp placed
  obtain ⟨readable, -⟩ := List.forall_mem_append.mp readable
  have shallow : ¬Token.Exceeds limit (front ++ [Token.eof _]) := fun deep => by
    obtain ⟨cause, t, -, fails⟩ := ofTokens_fails inner (Or.inl deep)
    exact absurd (fails.symm.trans read) (Attempt.fail_ne_pure _ _ _)
  obtain ⟨root, forms, isRoot, lists, rfl, counts⟩ := exists_around inner readable shallow read
  have kept := balance_of_accepted inner read
  refine ⟨root, forms.map Form.tokens, _, rfl, isRoot, ?_, ?_⟩
  · exact List.forall_mem_map.mpr fun form member =>
      Token.enclosed_iff.mpr ⟨form, lists form member, rfl⟩
  · obtain ⟨location, documents, joins, -⟩ :=
      joins_of_lists isRoot rfl lists shallow (congrArg Attempt.outcome read)
    refine ⟨_, documents, joins, fun part inside starts => ?_⟩
    have inner' : ∀ t ∈ part, t.kind ≠ .eof := fun t member => inner t (inside.mem member)
    have before := beforeEnd_concat_eof inner
    rw [(balance_of_part kept (by rwa [before])).2]
    obtain ⟨d', value⟩ := settles_completed inside inner'
      (fun t member => readable t (inside.mem member))
      (fun t member => placed t (inside.mem member)) counts shallow starts
    exact ⟨d', value, begins_completed isRoot lists inside inner' starts
      (Token.not_exceeds_completed inside shallow) location value⟩

/-- An include is read again from a document that is cut off in the screen behind it. -/
theorem cut_loses_nothing_whole_screen : ∃ tokens d,
    Token.ofSource "(wire (include \"a\") (screen b (box)))" = .ok tokens ∧
      ofSource 10 "(wire (include \"a\") (screen b (box)))" = pure d ∧
      (∃ root rows ending, tokens = root.around rows ++ [ending] ∧
        Outlasts 10 root ending rows d) ∧
      0 ≤ unclosed (tokens.take 9) ∧
      Token.balance (tokens.take 9) = Token.completed (tokens.take 9) ∧
      (ofTokens 10 (Token.balance (tokens.take 9))).value?.map (·.includes.length) = some 1 := by
  obtain ⟨tokens, found, kept, inside, accepted, again⟩ : ∃ tokens,
      Token.ofSource "(wire (include \"a\") (screen b (box)))" = .ok tokens ∧
        Token.balance tokens = tokens ∧ tokens.take 9 <+: Token.beforeEnd tokens ∧
        (ofTokens 10 tokens).succeeds = true ∧
        (ofTokens 10 (Token.balance (tokens.take 9))).value?.map (·.includes.length) = some 1 := by
    refine ⟨[⟨.openParen, "(", ⟨1, 1⟩, ⟨1, 2⟩⟩, ⟨.symbol, "wire", ⟨1, 2⟩, ⟨1, 6⟩⟩,
      ⟨.openParen, "(", ⟨1, 7⟩, ⟨1, 8⟩⟩, ⟨.symbol, "include", ⟨1, 8⟩, ⟨1, 15⟩⟩,
      ⟨.string, "a", ⟨1, 16⟩, ⟨1, 19⟩⟩, ⟨.closeParen, ")", ⟨1, 19⟩, ⟨1, 20⟩⟩,
      ⟨.openParen, "(", ⟨1, 21⟩, ⟨1, 22⟩⟩, ⟨.symbol, "screen", ⟨1, 22⟩, ⟨1, 28⟩⟩,
      ⟨.symbol, "b", ⟨1, 29⟩, ⟨1, 30⟩⟩, ⟨.openParen, "(", ⟨1, 31⟩, ⟨1, 32⟩⟩,
      ⟨.symbol, "box", ⟨1, 32⟩, ⟨1, 35⟩⟩, ⟨.closeParen, ")", ⟨1, 35⟩, ⟨1, 36⟩⟩,
      ⟨.closeParen, ")", ⟨1, 36⟩, ⟨1, 37⟩⟩, ⟨.closeParen, ")", ⟨1, 37⟩, ⟨1, 38⟩⟩,
      Token.eof ⟨1, 38⟩], by cbv, ?_⟩
    decide +kernel
  obtain ⟨d, read⟩ := Attempt.succeeds_iff.mp accepted
  have whole : ofSource 10 "(wire (include \"a\") (screen b (box)))" = pure d := by
    rw [ofSource, found]
    exact read
  obtain ⟨count, completed⟩ := cut_loses_nothing_whole.1 tokens _ kept inside
  exact ⟨tokens, d, found, whole, cut_loses_nothing_whole.2 10 _ tokens d found whole, count,
    completed, again⟩

end Document
end Wireframe
