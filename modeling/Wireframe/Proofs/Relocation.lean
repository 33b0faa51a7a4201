import Wireframe.Proofs.Locality
import Wireframe.Proofs.SameWords

/-!
# Words at other places

Where the words of a source stand has no influence on how they are read.  Moved to other places they
are read with the same success, with faults of the same messages, and into documents that differ in
nothing but places and the ids made up of them.  The end of a source may be left out.
-/

namespace Wireframe

open List (Forall₂)

/-- Whether a token begins and ends at places that a source has. -/
def Token.IsPlaced (t : Token) : Prop :=
  t.start.isProper = true ∧ t.stop.isProper = true

namespace Document

/-- Two readings agree if they are the same but for places and for the ids that are made up of
places. -/
structure ReadingsAgree (x y : Attempt Document) : Prop where
  /-- Both succeed, or neither does. -/
  success : x.succeeds = y.succeeds
  /-- The faults have the same messages, in the same order. -/
  messages : x.faults.map (·.diagnostic.message) = y.faults.map (·.diagnostic.message)
  /-- Both have a document, and these are alike, or neither has. -/
  documents : Option.Rel (Document.Alike (· ∈ x.noted) (· ∈ y.noted)) x.value? y.value?
  /-- Both are refused for the same reason, or neither is. -/
  refusals : ∀ r, x.outcome = .refused r ↔ y.outcome = .refused r

theorem ReadingsAgree.of_alike {x y : Attempt Document}
    (alike : x.Alike (· ∈ x.noted) (· ∈ y.noted)
      (Document.Alike (· ∈ x.noted) (· ∈ y.noted)) y) : ReadingsAgree x y := by
  obtain ⟨causes, related⟩ := alike (fun _ => id) (fun _ => id)
  have messages {fs gs : List Fault} (same : fs.map Fault.cause = gs.map Fault.cause) :
      fs.map (·.diagnostic.message) = gs.map (·.diagnostic.message) := by
    have mapped := congrArg (List.map FaultCause.message) same
    rw [List.map_map, List.map_map] at mapped
    exact mapped
  obtain ⟨noted, outcome⟩ := x
  obtain ⟨noted', outcome'⟩ := y
  have empty : noted.isEmpty = noted'.isEmpty := by
    rw [← List.isEmpty_map (f := Fault.cause), causes, List.isEmpty_map]
  cases outcome with
  | value d =>
      cases outcome' with
      | value e => exact ⟨empty, messages causes, .some related, by simp⟩
      | fault g => exact absurd related id
      | refused s => exact absurd related id
  | fault f =>
      cases outcome' with
      | value e => exact absurd related id
      | fault g =>
          refine ⟨rfl, messages ?_, .none, by simp⟩
          change (noted ++ [f]).map Fault.cause = (noted' ++ [g]).map Fault.cause
          rw [List.map_append, List.map_append, causes]
          exact congrArg (noted'.map Fault.cause ++ [·]) related
      | refused s => exact absurd related id
  | refused r =>
      cases outcome' with
      | value e => exact absurd related id
      | fault g => exact absurd related id
      | refused s =>
          obtain rfl : r = s := related
          exact ⟨rfl, messages causes, .none, fun _ => Iff.rfl⟩

section Tokens

variable {tokens tokens' : List Token}

theorem isProper_endOf (placed : ∀ t ∈ tokens, t.IsPlaced) :
    (Token.endOf tokens).isProper = true := by
  rw [Token.endOf]
  cases last : tokens.getLast? with
  | none => rfl
  | some t => exact (placed t (List.mem_of_getLast? last)).2

theorem ofTokens_concat_eof (limit : Int) (front : List Token) :
    ofTokens limit (front ++ [Token.eof (Token.endOf front)]) = ofTokens limit front := by
  have deep : Token.tooDeep? limit 0 (front ++ [Token.eof (Token.endOf front)]) =
      Token.tooDeep? limit 0 front := by
    rw [Token.tooDeep?_append]
    exact Option.or_none
  have ending : Token.ending (front ++ [Token.eof (Token.endOf front)]) = Token.ending front := by
    rw [Token.ending, Token.ending, List.find?_append]
    cases front.find? Token.isEnd with
    | none => rfl
    | some t => rfl
  have before : Token.beforeEnd (front ++ [Token.eof (Token.endOf front)]) =
      Token.beforeEnd front := by
    rw [Token.beforeEnd, Token.beforeEnd, List.takeWhile_append]
    split
    · rename_i whole
      rw [(List.takeWhile_prefix _).eq_of_length whole]
      exact List.append_nil front
    · rfl
  rw [ofTokens, ofTokens, deep, rootForm, rootForm, ending, before]

/-- Tokens of the same words at places of a source have alike ends. -/
theorem alike_ending_of_placed (words : Forall₂ Token.Alike tokens tokens')
    (placed : ∀ t ∈ tokens, t.IsPlaced) (placed' : ∀ t ∈ tokens', t.IsPlaced) :
    (Token.ending tokens).Alike (Token.ending tokens') := by
  have found := alike_find?_isEnd words
  rw [Token.ending, Token.ending]
  generalize tokens.find? Token.isEnd = t, tokens'.find? Token.isEnd = u at found
  cases found with
  | none => exact ⟨rfl, (isProper_endOf placed).trans (isProper_endOf placed').symm⟩
  | some word => exact word

private theorem agree_ofTokens (limit : Int)
    (words : tokens.map Token.word = tokens'.map Token.word)
    (placed : ∀ t ∈ tokens, t.IsPlaced) (placed' : ∀ t ∈ tokens', t.IsPlaced) :
    ReadingsAgree (ofTokens limit tokens) (ofTokens limit tokens') := by
  have alike := Token.forall₂_alike words (fun t member => (placed t member).1)
    fun t member => (placed' t member).1
  exact .of_alike (alike_ofTokens limit alike (alike_ending_of_placed alike placed placed'))

/-- Words are read alike wherever they stand, and with the end of the source as without it. -/
theorem ofTokens_elsewhere (limit : Int) (words : tokens.map Token.word = tokens'.map Token.word)
    (placed : ∀ t ∈ tokens, t.IsPlaced) (placed' : ∀ t ∈ tokens', t.IsPlaced) :
    ReadingsAgree (ofTokens limit tokens) (ofTokens limit tokens') ∧
      ∀ last ∈ tokens.getLast?, last.word = ⟨.eof, ""⟩ →
        ReadingsAgree (ofTokens limit tokens) (ofTokens limit tokens.dropLast) := by
  refine ⟨agree_ofTokens limit words placed placed', fun last isLast isEnd => ?_⟩
  have split := List.dropLast_append_getLast? last isLast
  have before : ∀ t ∈ tokens.dropLast, t.IsPlaced :=
    fun t member => placed t (List.mem_of_mem_dropLast member)
  rw [← ofTokens_concat_eof limit tokens.dropLast]
  refine agree_ofTokens limit ?_ placed fun t member => ?_
  · conv_lhs => rw [← split]
    rw [List.map_append, List.map_append, List.map_singleton, isEnd]
    rfl
  · rcases List.mem_append.mp member with inFront | atEnd
    · exact before t inFront
    · rw [List.mem_singleton.mp atEnd]
      exact ⟨isProper_endOf before, isProper_endOf before⟩

/-- The overlay has no id, so one is made up of its place in each reading. -/
theorem ofTokens_elsewhere_overlay : ∃ words : List Word,
    ReadingsAgree (ofTokens 9 (words.map (·.place ⟨1, 1⟩ ⟨1, 1⟩)))
      (ofTokens 9 (words.map (·.place ⟨7, 5⟩ ⟨7, 6⟩))) ∧
      ReadingsAgree (ofTokens 9 (words.map (·.place ⟨1, 1⟩ ⟨1, 1⟩)))
        (ofTokens 9 (words.dropLast.map (·.place ⟨1, 1⟩ ⟨1, 1⟩))) ∧
      (ofTokens 9 (words.map (·.place ⟨7, 5⟩ ⟨7, 6⟩))).value?.map (·.overlays.map Overlay.id) =
        some ["modal-7-5"] := by
  let words : List Word :=
    [⟨.openParen, "("⟩, ⟨.symbol, "wire"⟩, ⟨.openParen, "("⟩, ⟨.symbol, "screen"⟩, ⟨.symbol, "s"⟩,
      ⟨.openParen, "("⟩, ⟨.symbol, "box"⟩, ⟨.closeParen, ")"⟩, ⟨.openParen, "("⟩,
      ⟨.symbol, "modal"⟩, ⟨.closeParen, ")"⟩, ⟨.closeParen, ")"⟩, ⟨.closeParen, ")"⟩, ⟨.eof, ""⟩]
  have same : (words.map (·.place ⟨1, 1⟩ ⟨1, 1⟩)).map Token.word =
      (words.map (·.place ⟨7, 5⟩ ⟨7, 6⟩)).map Token.word := by
    simp
  have placed {start stop : Position} (proper : start.isProper = true ∧ stop.isProper = true) :
      ∀ t ∈ words.map (·.place start stop), t.IsPlaced := by
    intro t member
    obtain ⟨w, -, rfl⟩ := List.mem_map.mp member
    exact proper
  have moved := ofTokens_elsewhere 9 same (placed (by decide)) (placed (by decide))
  exact ⟨words, moved.1, moved.2 (Token.eof ⟨1, 1⟩) rfl rfl, by decide +kernel⟩

end Tokens
end Document
end Wireframe
